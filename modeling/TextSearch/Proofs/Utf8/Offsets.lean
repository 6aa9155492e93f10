import Mathlib.Data.List.Sort
import TextSearch.Proofs.Utf8.Run

/-!
The boundaries of a well-formed text in their order: each character begins at one, the next one behind
it is where the character ends, and there are no others.
-/
namespace TextSearch
open Utf8

def Text.boundaries (t : Text) : List Nat :=
  (List.range (t.size + 1)).filter fun i => isBoundary t i

namespace Utf8
variable {t : Text} {i k : Nat} {cs : List Rune}

def offsetsFrom (i : Nat) : List Rune → List Nat
  | [] => [i]
  | c :: cs => i :: offsetsFrom (i + (encode c).length) cs

theorem mem_boundaries : i ∈ t.boundaries ↔ isBoundary t i = true := by
  rw [Text.boundaries, List.mem_filter, List.mem_range, Nat.lt_succ_iff]
  exact and_iff_right_of_imp isBoundary_le

theorem pairwise_boundaries (t : Text) : t.boundaries.Pairwise (· < ·) :=
  List.pairwise_lt_range.filter _

theorem head?_offsetsFrom (i : Nat) (cs : List Rune) : (offsetsFrom i cs).head? = some i := by
  cases cs <;> rfl

theorem getLast?_offsetsFrom (run : Run t i cs k) : (offsetsFrom i cs).getLast? = some k := by
  induction run with
  | nil => rfl
  | @cons i j k c cs first _ ih =>
    rw [first.stop] at ih
    rw [offsetsFrom, List.getLast?_cons, ih]
    rfl

theorem mem_offsetsFrom (run : Run t i cs t.size) :
    k ∈ offsetsFrom i cs ↔ i ≤ k ∧ isBoundary t k = true := by
  induction cs generalizing i with
  | nil =>
    cases run
    rw [offsetsFrom, List.mem_singleton]
    constructor
    · rintro rfl
      exact ⟨Nat.le_refl _, isBoundary_end⟩
    · rintro ⟨le, boundary⟩
      exact Nat.le_antisymm (isBoundary_le boundary) le
  | cons c cs ih =>
    cases run with
    | cons first others =>
      have advances := first.advances
      rw [offsetsFrom, ← first.stop, List.mem_cons, ih others]
      constructor
      · rintro (rfl | ⟨behind, boundary⟩)
        · exact ⟨Nat.le_refl _, first.boundary⟩
        · exact ⟨by omega, boundary⟩
      · rintro ⟨le, boundary⟩
        by_cases here : k = i
        · exact Or.inl here
        · exact Or.inr ⟨first.le_of_boundary boundary (by omega), boundary⟩

theorem pairwise_offsetsFrom (run : Run t i cs t.size) : (offsetsFrom i cs).Pairwise (· < ·) := by
  induction cs generalizing i with
  | nil => exact List.pairwise_singleton _ _
  | cons c cs ih =>
    cases run with
    | cons first others =>
      have advances := first.advances
      rw [offsetsFrom, ← first.stop, List.pairwise_cons]
      refine ⟨?_, ih others⟩
      intro k later
      have behind := ((mem_offsetsFrom others).mp later).1
      omega

theorem boundaries_eq_offsetsFrom (run : Run t 0 cs t.size) : t.boundaries = offsetsFrom 0 cs := by
  apply (pairwise_boundaries t).eq_of_mem_iff (pairwise_offsetsFrom run)
  intro k
  rw [mem_boundaries, mem_offsetsFrom run]
  exact (and_iff_right (Nat.zero_le k)).symm

end Utf8
end TextSearch
