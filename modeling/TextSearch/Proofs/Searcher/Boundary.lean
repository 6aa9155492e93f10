import Mathlib.Data.List.Induction
import TextSearch.Searcher.Boundary
import TextSearch.Proofs.Drained
import TextSearch.Proofs.Text.Parting
import TextSearch.Proofs.Utf8.Run

/-!
The empty needle over characters that stand one behind another: a match of no width at each boundary,
and each character rejected between two of them, whichever end the search comes from.
-/
namespace TextSearch
open Utf8 Text

namespace BoundarySearcher
variable {hay : Text} {i j k : Nat} {c : Rune} {cs : List Rune} {other : Nat} {turn : Bool}

/-- What is to be said about the boundaries of characters that stand one behind another from offset
    `i` on, and about the characters. -/
def reportsFrom (i : Nat) : List Rune → List Step
  | [] => [.found i i]
  | c :: cs =>
    .found i i :: .rejected i (i + (encode c).length) :: reportsFrom (i + (encode c).length) cs

theorem reportsFrom_concat (run : Run hay i cs j) (c : Rune) : reportsFrom i (cs ++ [c]) =
    reportsFrom i cs ++ [.rejected j (j + (encode c).length),
      .found (j + (encode c).length) (j + (encode c).length)] := by
  induction run with
  | nil => rfl
  | cons first _ ih =>
    rw [first.stop] at ih
    rw [List.cons_append, reportsFrom, ih, reportsFrom, List.cons_append, List.cons_append]

theorem next_at_boundary (hay : Text) (i other : Nat) (turn : Bool) :
    steps.next ⟨hay, i, other, true, turn, false⟩ =
      (some (.found i i), ⟨hay, i, other, false, turn, false⟩) := rfl

theorem nextBack_at_boundary (hay : Text) (i other : Nat) (turn : Bool) :
    stepsBack.next ⟨hay, other, i, turn, true, false⟩ =
      (some (.found i i), ⟨hay, other, i, turn, false, false⟩) := rfl

theorem next_at_end (hay : Text) (other : Nat) (turn : Bool) :
    steps.next ⟨hay, hay.size, other, false, turn, false⟩ =
      (none, ⟨hay, hay.size, other, true, turn, true⟩) := by
  simp [steps, next]

theorem nextBack_at_start (hay : Text) (other : Nat) (turn : Bool) :
    stepsBack.next ⟨hay, other, 0, turn, false, false⟩ =
      (none, ⟨hay, other, 0, turn, true, true⟩) := by
  simp [stepsBack, nextBack]

theorem next_of_stands (stands : Stands hay i c j) :
    steps.next ⟨hay, i, other, false, turn, false⟩ =
      (some (.rejected i j), ⟨hay, j, other, true, turn, false⟩) := by
  have advances := stands.advances
  have inside := stands.inside
  have lead := stands.lead_stop
  have stop : i + max 1 (leadLength (hay.byteAt i)) = j := by omega
  simp only [steps, next, Bool.false_eq_true, if_false, stop]
  rw [if_neg (by omega)]

theorem nextBack_of_stands (stands : Stands hay i c j) :
    stepsBack.next ⟨hay, other, j, turn, false, false⟩ =
      (some (.rejected i j), ⟨hay, other, i, turn, true, false⟩) := by
  have advances := stands.advances
  simp only [stepsBack, nextBack, Bool.false_eq_true, if_false, stands.floorBoundary_last]
  rw [if_neg (by omega)]

theorem toList_steps (run : Run hay i cs hay.size) :
    steps.toList ⟨hay, i, other, true, turn, false⟩ = reportsFrom i cs := by
  induction cs generalizing i with
  | nil =>
    cases run
    rw [FiniteStream.toList_of_some (next_at_boundary hay _ _ _),
      FiniteStream.toList_of_none (next_at_end hay _ _), reportsFrom]
  | cons c cs ih =>
    cases run with
    | cons first others =>
      rw [FiniteStream.toList_of_some (next_at_boundary hay _ _ _),
        FiniteStream.toList_of_some (next_of_stands first), ih others, reportsFrom, first.stop]

theorem toList_stepsBack (run : Run hay 0 cs j) :
    stepsBack.toList ⟨hay, other, j, turn, true, false⟩ = (reportsFrom 0 cs).reverse := by
  induction cs using List.reverseRecOn generalizing j with
  | nil =>
    cases run
    rw [FiniteStream.toList_of_some (nextBack_at_boundary hay _ _ _),
      FiniteStream.toList_of_none (nextBack_at_start hay _ _), reportsFrom, List.reverse_singleton]
  | append_singleton ds d ih =>
    obtain ⟨k, others, last⟩ := Run.append_iff.mp run
    cases last with
    | cons stands none_left =>
      cases none_left
      rw [FiniteStream.toList_of_some (nextBack_at_boundary hay _ _ _),
        FiniteStream.toList_of_some (nextBack_of_stands stands), ih others,
        reportsFrom_concat others, ← stands.stop, List.reverse_append]
      rfl

def Mark (hay : Text) (i j : Nat) : Prop := i = j ∧ isBoundary hay i = true

theorem parted_reportsFrom (run : Run hay i cs hay.size) :
    Parted (Mark hay) (fun _ _ => True) i ((reportsFrom i cs).filter Step.isFound) hay.size := by
  induction cs generalizing i with
  | nil =>
    cases run
    exact .cons (Nat.le_refl _) trivial (Nat.le_refl _) ⟨rfl, isBoundary_end⟩
      (.nil (Nat.le_refl _) trivial)
  | cons c cs ih =>
    cases run with
    | @cons _ j _ _ _ first others =>
      have advances := first.advances
      rw [reportsFrom, ← first.stop]
      exact .cons (Nat.le_refl i) trivial (Nat.le_refl i) ⟨rfl, first.boundary⟩
        ((ih others).extend_left (Nat.le_of_lt advances) fun _ _ => trivial)

end BoundarySearcher
end TextSearch
