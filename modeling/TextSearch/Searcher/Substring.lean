import TextSearch.TwoWay.Scan
import TextSearch.Utf8.Boundary

/-!
A scan of bytes knows nothing of characters. Here its rejected stretches are widened to whole
characters, so that every step begins and ends at a boundary; matches of a well-formed needle do so
by themselves.
-/
namespace TextSearch
namespace TwoWay
namespace Scan

/-- Widens a rejected stretch to the right, and the forward cursor with it. -/
def widen (answer : Option Step × Scan) : Option Step × Scan :=
  match answer with
  | (some (.rejected start stop), s) =>
    let stop := Utf8.ceilBoundary s.haystack stop
    (some (.rejected start stop), s.moveForward (max s.forward.position stop))
  | other => other

def widenBack (answer : Option Step × Scan) : Option Step × Scan :=
  match answer with
  | (some (.rejected start stop), s) =>
    let start := Utf8.floorBoundary s.haystack start
    (some (.rejected start stop), s.moveBackward (min s.backward.stop start))
  | other => other

theorem widen_spends (answer : Option Step × Scan) :
    (widen answer).1.toList.length + steps.remaining (widen answer).2 ≤
      answer.1.toList.length + steps.remaining answer.2 := by
  unfold widen
  split
  · simp only [Option.toList_some, List.length_singleton, steps, moveForward]
    omega
  · exact Nat.le_refl _

theorem widenBack_spends (answer : Option Step × Scan) :
    (widenBack answer).1.toList.length + stepsBack.remaining (widenBack answer).2 ≤
      answer.1.toList.length + stepsBack.remaining answer.2 := by
  unfold widenBack
  split
  · simp only [Option.toList_some, List.length_singleton, stepsBack, moveBackward]
    omega
  · exact Nat.le_refl _

def wideSteps : FiniteStream Scan Step where
  next s := widen (steps.next s)
  remaining := steps.remaining
  spends s := Nat.le_trans (widen_spends _) (steps.spends s)

def wideStepsBack : FiniteStream Scan Step where
  next s := widenBack (stepsBack.next s)
  remaining := stepsBack.remaining
  spends s := Nat.le_trans (widenBack_spends _) (stepsBack.spends s)

end Scan
end TwoWay
end TextSearch
