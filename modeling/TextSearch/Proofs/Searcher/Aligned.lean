import TextSearch.Proofs.Find
import TextSearch.Proofs.Utf8.Cuts

/-!
Searchers of a well-formed text never leave its boundaries: whatever is searched for and in whatever
order the calls come, each answer begins and ends at one.
-/
namespace TextSearch
open Utf8 Text FiniteStream

def Step.AtBoundaries (hay : Text) (step : Step) : Prop :=
  isBoundary hay step.start = true ∧ isBoundary hay step.stop = true

variable {hay : Text}

namespace BoundarySearcher

/-- Both cursors stand at boundaries, whichever of them has gone further. -/
inductive Aligned (hay : Text) : BoundarySearcher → Prop where
  | cursors {i j : Nat} {turn turnBack finished : Bool} (front : isBoundary hay i = true)
      (back : isBoundary hay j = true) : Aligned hay ⟨hay, i, j, turn, turnBack, finished⟩

section Steps
variable (wellFormedHay : wellFormed hay = true)
include wellFormedHay

theorem steps_yield : Yields (Aligned hay) (Step.AtBoundaries hay) steps.next := by
  rintro _ ⟨front, back⟩
  next i j turn turnBack finished =>
  rcases finished with _ | _
  · rcases turn with _ | _
    · by_cases ended : i = hay.size
      · subst ended
        rw [next_at_end]
        exact ⟨Yields.of_refusal, .cursors front back⟩
      · have inside := isBoundary_le front
        obtain ⟨c, k, stands⟩ := exists_stands wellFormedHay front (by omega)
        have stop := stands.boundary_behind wellFormedHay
        rw [next_of_stands stands]
        exact ⟨Yields.of_answer ⟨front, stop⟩, .cursors stop back⟩
    · rw [next_at_boundary]
      exact ⟨Yields.of_answer ⟨front, front⟩, .cursors front back⟩
  · exact ⟨Yields.of_refusal, .cursors front back⟩

theorem stepsBack_yield : Yields (Aligned hay) (Step.AtBoundaries hay) stepsBack.next := by
  rintro _ ⟨front, back⟩
  next i j turn turnBack finished =>
  rcases finished with _ | _
  · rcases turnBack with _ | _
    · by_cases ended : j = 0
      · subst ended
        rw [nextBack_at_start]
        exact ⟨Yields.of_refusal, .cursors front back⟩
      · obtain ⟨c, k, stands⟩ := exists_stands_before wellFormedHay back (by omega)
        rw [nextBack_of_stands stands]
        exact ⟨Yields.of_answer ⟨stands.boundary, back⟩, .cursors front stands.boundary⟩
    · rw [nextBack_at_boundary]
      exact ⟨Yields.of_answer ⟨back, back⟩, .cursors front back⟩
  · exact ⟨Yields.of_refusal, .cursors front back⟩

end Steps
end BoundarySearcher

namespace CharacterSearcher

theorem reportsFrom_atBoundaries {m : Matcher} {i j : Nat} {cs : List Rune}
    (wellFormedHay : wellFormed hay = true) (run : Run hay i cs j) :
    ∀ step ∈ reportsFrom m i cs, step.AtBoundaries hay := by
  induction run with
  | nil =>
    intro step none_left
    cases none_left
  | cons first _ ih =>
    rw [reportsFrom, ← first.stop]
    refine List.forall_mem_cons.mpr ⟨?_, ih⟩
    rw [Step.AtBoundaries, report_start, report_stop]
    exact ⟨first.boundary, first.boundary_behind wellFormedHay⟩

end CharacterSearcher

namespace Searcher

inductive Aligned (hay : Text) (s : Searcher) : Prop where
  | characters {m : Matcher} (held : ∃ l, Holds m hay s l ∧ ∀ step ∈ l, Step.AtBoundaries hay step)
  | boundaries (cursors : ∃ t, s = .boundaries t ∧ t.Aligned hay)
  | occurrences {d : TwoWay.Needle} (wellFormedNeedle : wellFormed d.text = true)
      (scanning : Scanning d hay s)

theorem Aligned.haystack {s : Searcher} (aligned : Aligned hay s) : s.haystack = hay := by
  rcases aligned with ⟨_, ⟨⟨_⟩⟩, _⟩ | ⟨_, rfl, ⟨_, _⟩⟩ | ⟨_, scan, rfl, aligned⟩
  · rfl
  · rfl
  · exact aligned.haystack

theorem start_aligned (wellFormedHay : wellFormed hay = true) {p : Pattern}
    (wellFormedPattern : p.WellFormed) : Aligned hay (start hay p) := by
  cases p with
  | character m =>
    obtain ⟨cs, spelled⟩ := wellFormedBytes_iff.mp wellFormedHay
    refine .characters ⟨_, start_holds m spelled, ?_⟩
    exact CharacterSearcher.reportsFrom_atBoundaries wellFormedHay
      (Run.whole_iff.mpr spelled)
  | substring needle =>
    by_cases nonempty : 0 < needle.size
    · exact .occurrences (d := TwoWay.Needle.ofText needle nonempty) wellFormedPattern
        (start_scanning hay nonempty)
    · rw [start_of_empty (by omega)]
      exact .boundaries ⟨_, rfl, .cursors isBoundary_start isBoundary_end⟩

theorem call_yields_of_characters (m : Matcher) (k : Call) :
    Yields (fun s => ∃ l, Holds m hay s l ∧ ∀ step ∈ l, Step.AtBoundaries hay step)
      (Step.AtBoundaries hay) k.stream.next := by
  apply (call_simulates k).yields
  cases k with
  | steps => exact Deque.front_yields
  | hits => exact Deque.front_yields.filter _
  | misses => exact Deque.front_yields.filter _
  | stepsBack => exact Deque.back_yields
  | hitsBack => exact Deque.back_yields.filter _
  | missesBack => exact Deque.back_yields.filter _

section Calls
variable (wellFormedHay : wellFormed hay = true)
include wellFormedHay

theorem call_yields_of_boundaries (k : Call) :
    Yields (fun s => ∃ t, s = .boundaries t ∧ t.Aligned hay) (Step.AtBoundaries hay)
      k.stream.next := by
  have forward := BoundarySearcher.steps_yield wellFormedHay
  have backward := BoundarySearcher.stepsBack_yield wellFormedHay
  cases k with
  | steps => exact dispatch_boundaries.yields forward
  | hits => exact dispatch_boundaries.yields (forward.filter _)
  | misses => exact (dispatch_boundaries.yields forward).filter _
  | stepsBack => exact dispatch_boundaries.yields backward
  | hitsBack => exact dispatch_boundaries.yields (backward.filter _)
  | missesBack => exact (dispatch_boundaries.yields backward).filter _

theorem call_yields_of_occurrences {d : TwoWay.Needle} (wellFormedNeedle : wellFormed d.text = true)
    (k : Call) : Yields (Scanning d hay) (Step.AtBoundaries hay) k.stream.next := by
  have forward := (steps_sweep wellFormedHay wellFormedNeedle).yields
    (fun i => isBoundary hay i = true) fun s scanning => (boundaries_of_scanning scanning).1
  have backward := (stepsBack_sweep wellFormedHay wellFormedNeedle).yields
    (fun i => isBoundary hay i = true) fun s scanning => (boundaries_of_scanning scanning).2
  -- matches alone are not widened, but a well-formed needle occurs only from boundary to boundary
  have occurrence : ∀ step, (∃ i, step = .found i (i + d.text.size) ∧ OccursAt d.text hay i) →
      Step.AtBoundaries hay step := by
    rintro _ ⟨i, rfl, occurs⟩
    exact ⟨boundary_before wellFormedNeedle d.nonempty occurs,
      boundary_behind wellFormedNeedle d.nonempty wellFormedHay occurs⟩
  cases k with
  | steps => exact forward
  | misses => exact forward.filter _
  | stepsBack => exact backward
  | missesBack => exact backward.filter _
  | hits => exact (hits_jumps wellFormedHay wellFormedNeedle).yields.mono occurrence
  | hitsBack => exact (hitsBack_jumps wellFormedNeedle).yields.mono occurrence

theorem call_yields (k : Call) : Yields (Aligned hay) (Step.AtBoundaries hay) k.stream.next := by
  intro s aligned
  cases aligned with
  | @characters m held =>
    obtain ⟨told, left⟩ := call_yields_of_characters m k s held
    exact ⟨told, .characters left⟩
  | boundaries cursors =>
    obtain ⟨told, left⟩ := call_yields_of_boundaries wellFormedHay k s cursors
    exact ⟨told, .boundaries left⟩
  | occurrences wellFormedNeedle scanning =>
    obtain ⟨told, left⟩ := call_yields_of_occurrences wellFormedHay wellFormedNeedle k s scanning
    exact ⟨told, .occurrences wellFormedNeedle left⟩

theorem call_map_yields {α : Type} (Q : α → Prop) (tell : Text → Step → α)
    (has : ∀ step, step.AtBoundaries hay → Q (tell hay step)) (k : Call) :
    Yields (Aligned hay) Q (k.stream.map fun s => tell s.haystack).next := by
  apply (call_yields wellFormedHay k).map
  intro s step aligned within
  rw [aligned.haystack]
  exact has step within

end Calls
end Searcher
end TextSearch
