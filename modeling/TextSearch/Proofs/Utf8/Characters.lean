import TextSearch.Utf8.WellFormed

/-!
Well-formed bytes read one character at a time: a lead byte, then continuation bytes only. Every
other fact about them follows from this reading.
-/
namespace TextSearch
namespace Utf8

theorem every_byte {p : UInt8 → Prop} (all : ∀ n < 256, p (UInt8.ofNat n)) (b : UInt8) : p b := by
  have here := all b.toNat b.toNat_lt
  rwa [UInt8.ofNat_toNat] at here

theorem lead_kind (b : UInt8) :
    (b ≤ 0x7F → isContinuation b = false ∧ leadLength b = 1) ∧
    (0xC2 ≤ b ∧ b ≤ 0xDF → isContinuation b = false ∧ leadLength b = 2) ∧
    (0xE0 ≤ b ∧ b ≤ 0xEF → isContinuation b = false ∧ leadLength b = 3) ∧
    (0xF0 ≤ b ∧ b ≤ 0xF4 → isContinuation b = false ∧ leadLength b = 4) := by
  apply every_byte (p := fun b =>
    (b ≤ 0x7F → isContinuation b = false ∧ leadLength b = 1) ∧
    (0xC2 ≤ b ∧ b ≤ 0xDF → isContinuation b = false ∧ leadLength b = 2) ∧
    (0xE0 ≤ b ∧ b ≤ 0xEF → isContinuation b = false ∧ leadLength b = 3) ∧
    (0xF0 ≤ b ∧ b ≤ 0xF4 → isContinuation b = false ∧ leadLength b = 4))
  decide +kernel

/-- The validator takes these bytes for one character and goes on behind it. -/
structure IsCharacter (lead : UInt8) (trail : List UInt8) : Prop where
  begins : isContinuation lead = false
  length : leadLength lead = trail.length + 1
  continues : ∀ b ∈ trail, isContinuation b = true
  alone : ∀ rest, wellFormedBytes (lead :: (trail ++ rest)) = wellFormedBytes rest

inductive Whole : List UInt8 → Prop where
  | nil : Whole []
  | character {lead : UInt8} {trail rest : List UInt8} (first : IsCharacter lead trail)
      (others : Whole rest) : Whole (lead :: (trail ++ rest))

theorem whole_of_wellFormed {l : List UInt8} (h : wellFormedBytes l = true) : Whole l := by
  fun_induction wellFormedBytes l with
  | case1 => exact .nil
  | case2 a rest ascii ih =>
    have kind := (lead_kind a).1 ascii
    have first : IsCharacter a [] :=
      ⟨kind.1, kind.2, by simp, fun rest => by
        rw [wellFormedBytes.eq_def]
        exact if_pos ascii⟩
    exact .character first (ih h)
  | case3 a high two b rest ih =>
    simp only [Bool.and_eq_true] at h
    have kind := (lead_kind a).2.1 (by simpa using two)
    have first : IsCharacter a [b] :=
      ⟨kind.1, kind.2, by simp [h.1], fun rest => by
        simp [wellFormedBytes, high, two, h.1]⟩
    exact .character first (ih h.2)
  | case5 a high two three b c rest ih =>
    simp only [Bool.and_eq_true] at h
    have kind := (lead_kind a).2.2.1 (by simpa using three)
    have first : IsCharacter a [b, c] :=
      ⟨kind.1, kind.2, by simp [h.1], fun rest => by
        simp only [wellFormedBytes, List.cons_append, List.nil_append]
        rw [if_neg high, if_neg two, if_pos three]
        simp [h.1]⟩
    exact .character first (ih h.2)
  | case7 a high two three four b c d rest ih =>
    simp only [Bool.and_eq_true] at h
    have kind := (lead_kind a).2.2.2 (by simpa using four)
    have first : IsCharacter a [b, c, d] :=
      ⟨kind.1, kind.2, by simp [h.1], fun rest => by
        simp only [wellFormedBytes, List.cons_append, List.nil_append]
        rw [if_neg high, if_neg two, if_neg three, if_pos four]
        simp [h.1]⟩
    exact .character first (ih h.2)
  | case4 => cases h
  | case6 => cases h
  | case8 => cases h
  | case9 => cases h

theorem wellFormed_of_whole {l : List UInt8} (h : Whole l) : wellFormedBytes l = true := by
  induction h with
  | nil => rfl
  | character first _ ih => rw [first.alone, ih]

theorem whole_iff {l : List UInt8} : Whole l ↔ wellFormedBytes l = true :=
  ⟨wellFormed_of_whole, whole_of_wellFormed⟩

example : ¬ Whole [0xA9, 0x61] := by
  rw [whole_iff]
  decide

def Begins (l : List UInt8) : Prop := ∀ b, l.head? = some b → isContinuation b = false

namespace Whole
variable {l front back : List UInt8}

theorem begins (whole : Whole l) : Begins l := by
  cases whole with
  | nil => intro b no; cases no
  | character first _ =>
    intro b head
    simp only [List.head?_cons, Option.some.injEq] at head
    exact head ▸ first.begins

theorem append_iff (whole : Whole front) : Whole (front ++ back) ↔ Whole back := by
  induction whole with
  | nil => rfl
  | character first _ ih =>
    rw [← ih, List.cons_append, List.append_assoc, whole_iff, whole_iff, first.alone]

theorem drop (whole : Whole l) (i : Nat) (begins : Begins (l.drop i)) : Whole (l.drop i) := by
  induction whole generalizing i with
  | nil => rw [List.drop_nil]; exact .nil
  | @character lead trail rest first others ih =>
    cases i with
    | zero => exact .character first others
    | succ i =>
      rw [List.drop_succ_cons] at begins ⊢
      by_cases inner : i < trail.length
      · -- a byte inside the first character continues it
        have head : (List.drop i (trail ++ rest)).head? = some trail[i] := by
          rw [List.head?_drop, List.getElem?_append_left inner, List.getElem?_eq_getElem inner]
        have no := begins _ head
        rw [first.continues _ (List.getElem_mem inner)] at no
        cases no
      · rw [List.drop_append, List.drop_eq_nil_of_le (by omega), List.nil_append] at begins ⊢
        exact ih _ begins

end Whole
end Utf8
end TextSearch
