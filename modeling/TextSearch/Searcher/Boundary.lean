import TextSearch.Step
import TextSearch.FiniteStream
import TextSearch.Utf8.Boundary

/-!
The empty needle matches at every character boundary: matches of no width alternate with single
rejected characters. Each direction has a cursor of its own, but the first to reach its end finishes
both.
-/
namespace TextSearch

structure BoundarySearcher where
  haystack : Text
  position : Nat
  stop : Nat
  matchNext : Bool
  matchNextBack : Bool
  finished : Bool

namespace BoundarySearcher

def start (hay : Text) : BoundarySearcher := ⟨hay, 0, hay.size, true, true, false⟩

def next (s : BoundarySearcher) : Option Step × BoundarySearcher :=
  if s.finished then (none, s)
  else if s.matchNext then (some (.found s.position s.position), { s with matchNext := false })
  else if s.haystack.size ≤ s.position then (none, { s with matchNext := true, finished := true })
  else
    let stop := s.position + max 1 (Utf8.leadLength (s.haystack.byteAt s.position))
    (some (.rejected s.position stop), { s with matchNext := true, position := stop })

def nextBack (s : BoundarySearcher) : Option Step × BoundarySearcher :=
  if s.finished then (none, s)
  else if s.matchNextBack then (some (.found s.stop s.stop), { s with matchNextBack := false })
  else if s.stop = 0 then (none, { s with matchNextBack := true, finished := true })
  else
    let start := Utf8.floorBoundary s.haystack (s.stop - 1)
    (some (.rejected start s.stop), { s with matchNextBack := true, stop := start })

def steps : FiniteStream BoundarySearcher Step where
  next := next
  remaining s :=
    if s.finished then 0
    else 2 * (s.haystack.size - s.position) + (if s.matchNext then 1 else 0)
  spends s := by
    unfold next
    cases finished : s.finished
    · cases pending : s.matchNext
      · by_cases done : s.haystack.size ≤ s.position
        · simp [done]
        · simp only [Bool.false_eq_true, if_false, if_neg done, if_true, Option.toList_some,
            List.length_singleton]
          omega
      · simp only [Bool.false_eq_true, if_false, if_true, Option.toList_some,
          List.length_singleton]
        omega
    · simp [finished]

def stepsBack : FiniteStream BoundarySearcher Step where
  next := nextBack
  remaining s := if s.finished then 0 else 2 * s.stop + (if s.matchNextBack then 1 else 0)
  spends s := by
    have := Utf8.floorBoundary_le s.haystack (s.stop - 1)
    unfold nextBack
    cases finished : s.finished
    · cases pending : s.matchNextBack
      · by_cases done : s.stop = 0
        · simp [done]
        · simp only [Bool.false_eq_true, if_false, if_neg done, if_true, Option.toList_some,
            List.length_singleton]
          omega
      · simp only [Bool.false_eq_true, if_false, if_true, Option.toList_some,
          List.length_singleton]
        omega
    · simp [finished]

end BoundarySearcher
end TextSearch
