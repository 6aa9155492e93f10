import TextSearch.Proofs.Text.Fence
import TextSearch.Proofs.Utf8.Decoding

/-!
A text is well-formed exactly if it is spelled out from scalar values, and then from one list of them
only. The validator looks at no byte beside the text.
-/
namespace TextSearch
open Utf8

namespace Fenced

/-- Is the text well-formed from offset `i` on? Every byte is asked for at its offset, and the bytes
    left are counted before those of a longer character are asked for. -/
def wellFormedFrom (t : Text) (i : Nat) : Option Bool :=
  if i < t.size then do
    let a ← t.bytes i
    let left ← minus t.size i
    if a ≤ 0x7F then wellFormedFrom t (i + 1)
    else if 0xC2 ≤ a && a ≤ 0xDF then
      if left < 2 then some false
      else do
        let b ← t.bytes (i + 1)
        if isContinuation b then wellFormedFrom t (i + 2) else some false
    else if 0xE0 ≤ a && a ≤ 0xEF then
      if left < 3 then some false
      else do
        let b ← t.bytes (i + 1)
        let c ← t.bytes (i + 2)
        if isContinuation b && isContinuation c && !(a == 0xE0 && b < 0xA0) &&
            !(a == 0xED && 0xA0 ≤ b) then
          wellFormedFrom t (i + 3)
        else some false
    else if 0xF0 ≤ a && a ≤ 0xF4 then
      if left < 4 then some false
      else do
        let b ← t.bytes (i + 1)
        let c ← t.bytes (i + 2)
        let d ← t.bytes (i + 3)
        if isContinuation b && isContinuation c && isContinuation d && !(a == 0xF0 && b < 0x90) &&
            !(a == 0xF4 && 0x90 ≤ b) then
          wellFormedFrom t (i + 4)
        else some false
    else some false
  else some true
termination_by t.size - i

end Fenced

namespace Utf8
open Text

/-- The bytes are the encodings of the scalar values `cs`, one behind another. -/
def Spells (cs : List Rune) (l : List UInt8) : Prop :=
  (∀ c ∈ cs, isScalar c = true) ∧ cs.flatMap encode = l

namespace Spells
variable {cs ds : List Rune} {c : Rune} {l first rest : List UInt8} {v : Nat}

theorem nil : Spells [] [] := ⟨by simp, rfl⟩

theorem cons (scalar : isScalar c = true) (others : Spells cs rest) :
    Spells (c :: cs) (encode c ++ rest) :=
  ⟨List.forall_mem_cons.mpr ⟨scalar, others.1⟩, by rw [List.flatMap_cons, others.2]⟩

theorem split (spelled : Spells (c :: cs) l) :
    isScalar c = true ∧ ∃ rest, l = encode c ++ rest ∧ Spells cs rest := by
  obtain ⟨scalar, others⟩ := List.forall_mem_cons.mp spelled.1
  exact ⟨scalar, cs.flatMap encode, by rw [← spelled.2, List.flatMap_cons], others, rfl⟩

theorem append {l' : List UInt8} (front : Spells cs l) (back : Spells ds l') :
    Spells (cs ++ ds) (l ++ l') :=
  ⟨List.forall_mem_append.mpr ⟨front.1, back.1⟩, by rw [List.flatMap_append, front.2, back.2]⟩

theorem of_denotes (digits : Denotes first v) (others : ∃ cs, Spells cs rest) :
    ∃ cs, Spells cs (first ++ rest) := by
  obtain ⟨c, scalar, rfl⟩ := digits.exists_rune
  obtain ⟨cs, others⟩ := others
  exact ⟨c :: cs, cons scalar others⟩

theorem isCharacter_encode (scalar : isScalar c = true) :
    ∃ lead trail, encode c = lead :: trail ∧ IsCharacter lead trail := by
  have digits := denotes_encode scalar
  obtain ⟨lead, trail, same⟩ := digits.exists_cons
  exact ⟨lead, trail, same, (same ▸ digits).isCharacter⟩

theorem whole (spelled : Spells cs l) : Whole l := by
  induction cs generalizing l with
  | nil => exact spelled.2 ▸ .nil
  | cons c cs ih =>
    obtain ⟨scalar, rest, rfl, others⟩ := spelled.split
    obtain ⟨lead, trail, same, first⟩ := isCharacter_encode scalar
    rw [same, List.cons_append]
    exact .character first (ih others)

theorem countP_eq_length (spelled : Spells cs l) :
    l.countP (fun b => !isContinuation b) = cs.length := by
  induction cs generalizing l with
  | nil => exact spelled.2 ▸ rfl
  | cons c cs ih =>
    obtain ⟨scalar, rest, rfl, others⟩ := spelled.split
    obtain ⟨lead, trail, same, first⟩ := isCharacter_encode scalar
    have none_begins : trail.countP (fun b => !isContinuation b) = 0 := by
      rw [List.countP_eq_zero]
      intro b member
      simp [first.continues b member]
    rw [same, List.cons_append, List.countP_cons, List.countP_append, none_begins, ih others]
    simp [first.begins]

theorem head_unique {d : Rune} {rest' : List UInt8} (scalar : isScalar c = true)
    (scalar' : isScalar d = true) (same : encode c ++ rest = encode d ++ rest') : c = d := by
  have read : ∀ {c : Rune} (rest), isScalar c = true → ∃ found : Character, found.rune = c ∧
      Fenced.decode (fun k => (encode c ++ rest)[k]?) = some (some found) := by
    intro c rest scalar
    obtain ⟨found, answer, value, _⟩ := (denotes_encode scalar).decode
      (fun k inside => List.getElem?_append_left inside)
    exact ⟨found, UInt32.toNat_inj.mp value, answer⟩
  obtain ⟨found, rfl, answer⟩ := read rest scalar
  obtain ⟨found', rfl, answer'⟩ := read rest' scalar'
  rw [same, answer'] at answer
  rw [Option.some.inj (Option.some.inj answer)]

theorem eq_nil (spelled : Spells cs []) : cs = [] := by
  have length := spelled.countP_eq_length
  exact List.eq_nil_of_length_eq_zero length.symm

theorem unique (left : Spells cs l) (right : Spells ds l) : cs = ds := by
  induction cs generalizing ds l with
  | nil =>
    obtain rfl : [] = l := left.2
    exact right.eq_nil.symm
  | cons c cs ih =>
    cases ds with
    | nil =>
      obtain rfl : [] = l := right.2
      exact left.eq_nil
    | cons d ds =>
      obtain ⟨scalar, rest, rfl, others⟩ := left.split
      obtain ⟨scalar', rest', same, others'⟩ := right.split
      obtain rfl := head_unique scalar scalar' same
      obtain rfl := List.append_cancel_left same
      rw [ih others others']

end Spells

theorem spells_of_wellFormed {l : List UInt8} (accepted : wellFormedBytes l = true) :
    ∃ cs, Spells cs l := by
  fun_induction wellFormedBytes l with
  | case1 => exact ⟨[], .nil⟩
  | case2 a rest ascii ih =>
    have digits : Denotes [a] a.toNat := .one rfl (Nat.lt_succ_of_le ascii)
    exact Spells.of_denotes digits (ih accepted)
  | case3 a high two b rest ih =>
    simp only [Bool.and_eq_true, decide_eq_true_eq] at accepted two
    exact Spells.of_denotes (denotes_of_two two accepted.1) (ih accepted.2)
  | case5 a high two three b c rest ih =>
    simp only [Bool.and_eq_true, decide_eq_true_eq] at accepted three
    obtain ⟨⟨⟨⟨second, third⟩, overlong⟩, surrogate⟩, others⟩ := accepted
    refine Spells.of_denotes (denotes_of_three three second third ?_ ?_) (ih others)
    · simpa [← UInt8.toNat_inj, UInt8.le_iff_toNat_le] using overlong
    · simpa [← UInt8.toNat_inj, UInt8.lt_iff_toNat_lt] using surrogate
  | case7 a high two three four b c d rest ih =>
    simp only [Bool.and_eq_true, decide_eq_true_eq] at accepted four
    obtain ⟨⟨⟨⟨⟨second, third⟩, fourth⟩, overlong⟩, past⟩, others⟩ := accepted
    refine Spells.of_denotes (denotes_of_four four second third fourth ?_ ?_) (ih others)
    · simpa [← UInt8.toNat_inj, UInt8.le_iff_toNat_le] using overlong
    · simpa [← UInt8.toNat_inj, UInt8.lt_iff_toNat_lt] using past
  | case4 => cases accepted
  | case6 => cases accepted
  | case8 => cases accepted
  | case9 => cases accepted

theorem wellFormedBytes_iff {l : List UInt8} :
    wellFormedBytes l = true ↔ ∃ cs, Spells cs l := by
  constructor
  · exact spells_of_wellFormed
  · rintro ⟨cs, spelled⟩
    exact wellFormed_of_whole spelled.whole

section Texts
variable {t : Text} {i : Nat}

theorem wellFormed_of_spells {cs : List Rune} (spelled : Spells cs t.toList) : wellFormed t = true :=
  wellFormedBytes_iff.mpr ⟨cs, spelled⟩

theorem Spells.ne_nil {cs : List Rune} (spelled : Spells cs t.toList) (nonempty : 0 < t.size) :
    cs ≠ [] := by
  rintro rfl
  have none_left : [] = t.toList := spelled.2
  rw [← length_toList, ← none_left] at nonempty
  cases nonempty

theorem some_and (accepted rest : Bool) :
    (if accepted = true then some rest else some false) = some (accepted && rest) := by
  cases accepted <;> rfl

theorem wellFormedFrom_eq (inside : i ≤ t.size) :
    Fenced.wellFormedFrom t i = some (wellFormedBytes (t.toList.drop i)) := by
  -- on the bytes left, as the validator moves on by whole characters
  induction left : t.size - i using Nat.strongRecOn generalizing i with
  | ind n ih =>
    have behind : ∀ k, 0 < k → i + k ≤ t.size →
        Fenced.wellFormedFrom t (i + k) = some (wellFormedBytes (t.toList.drop (i + k))) :=
      fun k pos le => ih _ (by omega) le rfl
    have byte : ∀ k, i + k < t.size → t.bytes (i + k) = some (t.byteAt (i + k)) :=
      fun k before => Fenced.bytes_of_inside before
    have drop : ∀ k, i + k < t.size →
        t.toList.drop (i + k) = t.byteAt (i + k) :: t.toList.drop (i + k + 1) :=
      fun k before => drop_eq_cons before
    have few : (t.toList.drop (i + 1)).length = t.size - (i + 1) := by
      rw [List.length_drop, length_toList]
    rw [Fenced.wellFormedFrom]
    split
    next before =>
      rw [drop_eq_cons before, wellFormedBytes.eq_def]
      simp only [Fenced.bytes_of_inside before, Fenced.minus_of_le inside, Option.bind_eq_bind,
        Option.bind_some]
      split
      next ascii => exact behind 1 (by omega) (by omega)
      next =>
        split
        next two =>
          split
          next short => rw [List.drop_eq_nil_of_le (by rw [length_toList]; omega)]
          next enough =>
            rw [byte 1 (by omega), drop 1 (by omega), behind 2 (by omega) (by omega)]
            exact some_and _ _
        next =>
          split
          next three =>
            split
            next short =>
              generalize t.toList.drop (i + 1) = trail at few ⊢
              rcases trail with _ | ⟨b, _ | ⟨c, rest⟩⟩
              · rfl
              · rfl
              · simp only [List.length_cons] at few
                omega
            next enough =>
              rw [byte 1 (by omega), byte 2 (by omega), drop 1 (by omega), drop 2 (by omega),
                behind 3 (by omega) (by omega)]
              exact some_and _ _
          next =>
            split
            next four =>
              split
              next short =>
                generalize t.toList.drop (i + 1) = trail at few ⊢
                rcases trail with _ | ⟨b, _ | ⟨c, _ | ⟨d, rest⟩⟩⟩
                · rfl
                · rfl
                · rfl
                · simp only [List.length_cons] at few
                  omega
              next enough =>
                rw [byte 1 (by omega), byte 2 (by omega), byte 3 (by omega), drop 1 (by omega),
                  drop 2 (by omega), drop 3 (by omega), behind 4 (by omega) (by omega)]
                exact some_and _ _
            next => rfl
    next past =>
      rw [List.drop_eq_nil_of_le (by rw [length_toList]; omega)]
      rfl

end Texts
end Utf8
end TextSearch
