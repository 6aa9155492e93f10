import TextSearch.Proofs.Utf8.Run

/-!
A well-formed text may be cut at any of its boundaries: no boundary lies inside a character, so what
stands between two of them is whole characters, and well-formed parts put together are well-formed.
-/
namespace TextSearch
namespace Utf8
open Text
variable {t : Text} {i j k : Nat} {c : Rune} {cs : List Rune}

theorem Run.cut_at (run : Run t i cs k) (boundary : isBoundary t j = true) (le : i ≤ j)
    (before : j ≤ k) : ∃ ds es, cs = ds ++ es ∧ Run t i ds j ∧ Run t j es k := by
  induction run with
  | @nil i =>
    obtain rfl : i = j := Nat.le_antisymm le before
    exact ⟨[], [], rfl, .nil, .nil⟩
  | @cons i n k c cs first others ih =>
    by_cases here : i = j
    · subst here
      exact ⟨[], c :: cs, rfl, .nil, .cons first others⟩
    · have behind : n ≤ j := first.le_of_boundary boundary (by omega)
      obtain ⟨ds, es, rfl, left, right⟩ := ih behind before
      exact ⟨c :: ds, es, rfl, .cons first left, right⟩

section WellFormed
variable (accepted : wellFormed t = true)
include accepted

theorem exists_run (left : isBoundary t i = true) (right : isBoundary t j = true) (le : i ≤ j) :
    ∃ cs, Run t i cs j := by
  obtain ⟨cs, spelled⟩ := wellFormedBytes_iff.mp accepted
  have whole : Run t 0 cs t.size := Run.whole_iff.mpr spelled
  obtain ⟨_, _, _, upto, _⟩ := whole.cut_at right (Nat.zero_le j) (isBoundary_le right)
  obtain ⟨_, between, _, _, run⟩ := upto.cut_at left (Nat.zero_le i) le
  exact ⟨between, run⟩

theorem Stands.boundary_behind (stands : Stands t i c j) : isBoundary t j = true := by
  obtain ⟨cs, run⟩ := exists_run accepted stands.boundary isBoundary_end
    (Nat.le_trans (Nat.le_of_lt stands.advances) stands.inside)
  cases run with
  | nil =>
    have advances := stands.advances
    have inside := stands.inside
    omega
  | cons first others =>
    rw [(stands.unique first).2]
    cases others with
    | nil => exact isBoundary_end
    | cons second _ => exact second.boundary

theorem Run.boundary_behind (run : Run t i cs j) (start : isBoundary t i = true) :
    isBoundary t j = true := by
  induction run with
  | nil => exact start
  | cons first _ ih => exact ih (first.boundary_behind accepted)

theorem exists_stands_before (boundary : isBoundary t j = true) (positive : 0 < j) :
    ∃ c i, Stands t i c j := by
  obtain ⟨cs, run⟩ := exists_run accepted isBoundary_start boundary (Nat.zero_le j)
  rcases run.cases_last with ⟨_, rfl⟩ | ⟨_, c, i, _, _, stands⟩
  · cases positive
  · exact ⟨c, i, stands⟩

theorem wellFormed_slice (left : isBoundary t i = true) (right : isBoundary t j = true) :
    wellFormed (t.slice i j) = true := by
  rcases Nat.le_total i j with le | behind
  · obtain ⟨cs, run⟩ := exists_run accepted left right le
    exact wellFormed_of_spells run.spells
  · have nothing : (t.slice i j).toList = [] := by
      rw [toList_slice, Nat.sub_eq_zero_of_le behind, List.take_zero]
    rw [wellFormed, nothing]
    rfl

end WellFormed

theorem wellFormed_join {parts : List Text} (accepted : ∀ part ∈ parts, wellFormed part = true) :
    wellFormed (join parts) = true := by
  rw [wellFormed, ← whole_iff, toList_join]
  induction parts with
  | nil => exact .nil
  | cons part parts ih =>
    obtain ⟨here, later⟩ := List.forall_mem_cons.mp accepted
    exact (whole_toList here).append_iff.mpr (ih later)

end Utf8
end TextSearch
