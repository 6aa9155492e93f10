import TextSearch.Utf8.Boundary
import TextSearch.Proofs.Text.Occurrence
import TextSearch.Proofs.Utf8.Characters

/-!
Boundaries of a well-formed text are the offsets where it can be cut into well-formed texts. Rounding
an offset goes to the nearest of them, and a well-formed needle occurs only from one to another.
-/
namespace TextSearch
namespace Utf8
open Text
variable {t needle hay : Text} {i j : Nat}

theorem isBoundary_iff : isBoundary t i = true ↔
    i = 0 ∨ i = t.size ∨ i < t.size ∧ isContinuation (t.byteAt i) = false := by
  simp [isBoundary, or_assoc]

theorem isBoundary_le (boundary : isBoundary t i = true) : i ≤ t.size := by
  rcases isBoundary_iff.mp boundary with start | stop | inside <;> omega

theorem isBoundary_start : isBoundary t 0 = true := isBoundary_iff.mpr (Or.inl rfl)

theorem isBoundary_end : isBoundary t t.size = true := isBoundary_iff.mpr (Or.inr (Or.inl rfl))

section Rounding

theorem ceilBoundary_of_boundary (boundary : isBoundary t i = true) : ceilBoundary t i = i := by
  have le := isBoundary_le boundary
  rw [ceilBoundary, if_pos boundary]
  split
  next => rfl
  next outside => exact if_pos (by omega)

theorem isBoundary_ceilBoundary (inside : i ≤ t.size) : isBoundary t (ceilBoundary t i) = true := by
  fun_induction ceilBoundary t i with
  | case1 i _ boundary => exact boundary
  | case2 i before _ ih => exact ih before
  | case3 => exact isBoundary_end
  | case4 => exact isBoundary_start

theorem ceilBoundary_least (boundary : isBoundary t j = true) (le : i ≤ j) :
    ceilBoundary t i ≤ j := by
  fun_induction ceilBoundary t i with
  | case1 => exact le
  | case2 i _ no ih =>
    apply ih
    have other : i ≠ j := by
      rintro rfl
      exact no boundary
    omega
  | case3 => exact le
  | case4 => exact Nat.zero_le _

theorem ceilBoundary_of_past (past : t.size < i) : ceilBoundary t i = 0 := by
  rw [ceilBoundary, if_neg (by omega), if_neg (by omega)]

theorem floorBoundary_of_boundary (boundary : isBoundary t i = true) : floorBoundary t i = i := by
  cases i with
  | zero => rfl
  | succ i => exact if_pos boundary

theorem isBoundary_floorBoundary (t : Text) (i : Nat) :
    isBoundary t (floorBoundary t i) = true := by
  induction i with
  | zero => exact isBoundary_start
  | succ i ih =>
    rw [floorBoundary]
    split
    next boundary => exact boundary
    next => exact ih

theorem floorBoundary_greatest (boundary : isBoundary t j = true) (le : j ≤ i) :
    j ≤ floorBoundary t i := by
  induction i with
  | zero => exact le
  | succ i ih =>
    rw [floorBoundary]
    split
    next => exact le
    next no =>
      apply ih
      have other : j ≠ i + 1 := by
        rintro rfl
        exact no boundary
      omega

example : floorBoundary (Text.ofList [0x61, 0xC3, 0xA9]) 2 = 1 := by decide

end Rounding

section Cuts

theorem whole_toList (wellFormed : wellFormed t = true) : Whole t.toList := whole_iff.mpr wellFormed

theorem isBoundary_of_begins (inside : i ≤ t.size) (begins : Begins (t.toList.drop i)) :
    isBoundary t i = true := by
  by_cases last : i = t.size
  · exact isBoundary_iff.mpr (Or.inr (Or.inl last))
  · have before : i < t.size := by omega
    have head : (t.toList.drop i).head? = some (t.byteAt i) := by
      rw [List.head?_drop, getElem?_toList t i before]
    exact isBoundary_iff.mpr (Or.inr (Or.inr ⟨before, begins _ head⟩))

theorem begins_of_isBoundary (wellFormed : wellFormed t = true) (boundary : isBoundary t i = true) :
    Begins (t.toList.drop i) := by
  rcases isBoundary_iff.mp boundary with start | stop | ⟨inside, byte⟩
  · rw [start, List.drop_zero]
    exact (whole_toList wellFormed).begins
  · rw [List.drop_eq_nil_of_le (by rw [length_toList]; omega)]
    exact Whole.nil.begins
  · intro b head
    rw [List.head?_drop, getElem?_toList t i inside, Option.some.injEq] at head
    exact head ▸ byte

theorem whole_behind (wellFormed : wellFormed t = true) (boundary : isBoundary t i = true) :
    Whole (t.toList.drop i) :=
  (whole_toList wellFormed).drop i (begins_of_isBoundary wellFormed boundary)

theorem wellFormed_behind (accepted : wellFormed t = true) (boundary : isBoundary t i = true) :
    wellFormed (t.slice i t.size) = true := by
  rw [wellFormed, ← whole_iff, toList_slice, List.take_of_length_le (by simp)]
  exact whole_behind accepted boundary

end Cuts

section Occurrences

variable (wellFormedNeedle : wellFormed needle = true) (nonempty : 0 < needle.size)
include wellFormedNeedle nonempty

theorem first_byte_begins : isContinuation (needle.byteAt 0) = false := by
  apply (whole_toList wellFormedNeedle).begins
  rw [List.head?_eq_getElem?, getElem?_toList needle 0 nonempty]

theorem boundary_before (occurs : OccursAt needle hay i) : isBoundary hay i = true := by
  have byte := occurs.2 0 nonempty
  have fits := occurs.1
  refine isBoundary_iff.mpr (Or.inr (Or.inr ⟨by omega, ?_⟩))
  rw [Nat.add_zero] at byte
  rw [byte]
  exact first_byte_begins wellFormedNeedle nonempty

theorem boundary_behind (wellFormedHay : wellFormed hay = true) (occurs : OccursAt needle hay i) :
    isBoundary hay (i + needle.size) = true := by
  have start := boundary_before wellFormedNeedle nonempty occurs
  have whole := whole_behind wellFormedHay start
  -- the haystack from there on is the needle and a rest, which is whole because both others are
  rw [drop_of_occursAt occurs, (whole_toList wellFormedNeedle).append_iff] at whole
  exact isBoundary_of_begins occurs.1 whole.begins

omit nonempty in
theorem boundary_behind_tail {first : Nat} (wellFormedHay : wellFormed hay = true)
    (inside : first < needle.size) (begins : isContinuation (needle.byteAt first) = false)
    (room : i + needle.size ≤ hay.size)
    (stands : ∀ k, first ≤ k → k < needle.size → needle.byteAt k = hay.byteAt (i + k)) :
    isBoundary hay (i + needle.size) = true := by
  have cut : isBoundary needle first = true :=
    isBoundary_iff.mpr (Or.inr (Or.inr ⟨inside, begins⟩))
  have tail : (needle.slice first needle.size).size = needle.size - first :=
    size_slice needle first (Nat.le_refl _)
  have wellFormedTail := wellFormed_behind wellFormedNeedle cut
  have occurs : OccursAt (needle.slice first needle.size) hay (i + first) := by
    constructor
    · omega
    · intro k hk
      rw [tail] at hk
      have byte := stands (first + k) (by omega) (by omega)
      rw [← Nat.add_assoc] at byte
      rw [← byte]
      simp only [slice, byteAt]
      congr 1
      omega
  have ends := boundary_behind wellFormedTail (by omega) wellFormedHay occurs
  have same : i + first + (needle.slice first needle.size).size = i + needle.size := by omega
  exact same ▸ ends

end Occurrences
end Utf8
end TextSearch
