import TextSearch.Proofs.TwoWay.Reach

/-!
Step by step a scan covers the haystack exactly once, from either side. The two directions do not see
each other, and single steps mix with jumps to the next match without losing or repeating one.
-/
namespace TextSearch
namespace TwoWay
open Text

namespace Scan
variable {d : Needle} {hay : Text} {s : Scan}

theorem other_cursor (k : Call) (s : Scan) :
    if k.isForward then (k.stream.next s).2.backward = s.backward
    else (k.stream.next s).2.forward = s.forward := by
  cases k <;> rfl

theorem forward_answers (calls : List Call) (s : Scan) :
    (FiniteStream.answers Call.stream calls s).filter (fun a => a.1.isForward) =
      FiniteStream.answers Call.stream (calls.filter Call.isForward) s := by
  refine (FiniteStream.answers_of_side Call.isForward
    (fun s : Scan => (s.haystack, s.needle, s.forward)) ?_ ?_ calls rfl).1
  · intro k s t mine same
    cases s
    cases t
    simp only [Prod.mk.injEq] at same
    obtain ⟨rfl, rfl, rfl⟩ := same
    cases k with
    | steps => exact ⟨rfl, rfl⟩
    | hits => exact ⟨rfl, rfl⟩
    | stepsBack => cases mine
    | hitsBack => cases mine
  · intro k s theirs
    cases k with
    | steps => cases theirs
    | hits => cases theirs
    | stepsBack => rfl
    | hitsBack => rfl

theorem backward_answers (calls : List Call) (s : Scan) :
    (FiniteStream.answers Call.stream calls s).filter (fun a => !a.1.isForward) =
      FiniteStream.answers Call.stream (calls.filter fun k => !k.isForward) s := by
  refine (FiniteStream.answers_of_side (fun k : Call => !k.isForward)
    (fun s : Scan => (s.haystack, s.needle, s.backward)) ?_ ?_ calls rfl).1
  · intro k s t mine same
    cases s
    cases t
    simp only [Prod.mk.injEq] at same
    obtain ⟨rfl, rfl, rfl⟩ := same
    cases k with
    | steps => cases mine
    | hits => cases mine
    | stepsBack => exact ⟨rfl, rfl⟩
    | hitsBack => exact ⟨rfl, rfl⟩
  · intro k s theirs
    cases k with
    | steps => rfl
    | hits => rfl
    | stepsBack => cases theirs
    | hitsBack => cases theirs

theorem found_then_rest (k : Call) (ready : s.Ready d hay) :
    (k.foundBy true (k.stream.next s).1).toList ++
        occurrencesFrom d.text hay (k.stream.next s).2.forward.position =
      occurrencesFrom d.text hay s.forward.position := by
  cases k with
  | steps => exact (steps_sweep d hay).then_rest ready d.nonempty
  | hits => exact firstMatch_then_rest d.nonempty ready.forward.position_le (hits_cases ready)
  | stepsBack => rfl
  | hitsBack => rfl

theorem found_then_rest_back (k : Call) (ready : s.Ready d hay) :
    (k.foundBy false (k.stream.next s).1).toList ++
        occurrencesBefore d.text hay (k.stream.next s).2.backward.stop =
      occurrencesBefore d.text hay s.backward.stop := by
  cases k with
  | steps => rfl
  | hits => rfl
  | stepsBack => exact (stepsBack_sweep d hay).then_rest ready d.nonempty
  | hitsBack => exact lastMatch_then_rest d.nonempty (hitsBack_cases ready)

theorem found_by_calls (calls : List Call) (ready : s.Ready d hay) :
    (FiniteStream.answers Call.stream calls s).filterMap (fun a => a.1.foundBy true a.2) ++
        occurrencesFrom d.text hay (FiniteStream.after Call.stream calls s).forward.position =
      occurrencesFrom d.text hay s.forward.position := by
  induction calls generalizing s with
  | nil => rfl
  | cons k calls ih =>
    have rest := ih (call_ready k s ready)
    have first := found_then_rest k ready
    simp only [FiniteStream.answers, FiniteStream.after, List.filterMap_cons]
    cases report : k.foundBy true (k.stream.next s).1 with
    | none => simpa [report, rest] using first
    | some i => simpa [report, rest] using first

theorem found_by_calls_back (calls : List Call) (ready : s.Ready d hay) :
    (FiniteStream.answers Call.stream calls s).filterMap (fun a => a.1.foundBy false a.2) ++
        occurrencesBefore d.text hay (FiniteStream.after Call.stream calls s).backward.stop =
      occurrencesBefore d.text hay s.backward.stop := by
  induction calls generalizing s with
  | nil => rfl
  | cons k calls ih =>
    have rest := ih (call_ready k s ready)
    have first := found_then_rest_back k ready
    simp only [FiniteStream.answers, FiniteStream.after, List.filterMap_cons]
    cases report : k.foundBy false (k.stream.next s).1 with
    | none => simpa [report, rest] using first
    | some i => simpa [report, rest] using first

end Scan

/-- After any calls: a single step is over exactly at the end of the haystack and otherwise covers
    the stretch to the new cursor; each direction keeps the other's cursor and is told what its own
    calls alone would be told; and the matches reported by steps and jumps together are, with those
    still ahead, the occurrences without overlap. The steps still to come cover the rest. -/
theorem step_streams_exact (d : Needle) (hay : Text) (calls : List Call) :
    let s := Scan.reach d hay calls
    let told := FiniteStream.answers Call.stream calls (Scan.start d hay)
    ((Scan.steps.next s).1 = none ↔ s.forward.position = hay.size) ∧
    (∀ step, (Scan.steps.next s).1 = some step →
      ForwardStep d.text hay s.forward.position (Scan.steps.next s).2.forward.position step) ∧
    ((Scan.stepsBack.next s).1 = none ↔ s.backward.stop = 0) ∧
    (∀ step, (Scan.stepsBack.next s).1 = some step →
      BackwardStep d.text hay (Scan.stepsBack.next s).2.backward.stop s.backward.stop step) ∧
    (∀ k : Call, if k.isForward then (k.stream.next s).2.backward = s.backward
      else (k.stream.next s).2.forward = s.forward) ∧
    (told.filter (fun a => a.1.isForward) =
      FiniteStream.answers Call.stream (calls.filter Call.isForward) (Scan.start d hay)) ∧
    (told.filter (fun a => !a.1.isForward) =
      FiniteStream.answers Call.stream (calls.filter fun k => !k.isForward) (Scan.start d hay)) ∧
    (told.filterMap (fun a => a.1.foundBy true a.2) ++
      occurrencesFrom d.text hay s.forward.position = occurrences d.text hay) ∧
    (told.filterMap (fun a => a.1.foundBy false a.2) ++
      occurrencesBefore d.text hay s.backward.stop = occurrencesBefore d.text hay hay.size) ∧
    Tiles (Scan.steps.toList s) s.forward.position hay.size ∧
    Tiles (Scan.stepsBack.toList s).reverse 0 s.backward.stop := by
  intro s told
  have ready : s.Ready d hay := Scan.reach_ready d hay calls
  have sweep := Scan.steps_sweep d hay
  have sweepBack := Scan.stepsBack_sweep d hay
  refine ⟨sweep.none_iff ready, sweep.covers ready, sweepBack.none_iff ready,
    sweepBack.covers ready, fun k => Scan.other_cursor k s, ?_, ?_, ?_, ?_,
    sweep.tiles ready, sweepBack.tiles ready⟩
  · exact Scan.forward_answers calls _
  · exact Scan.backward_answers calls _
  · exact Scan.found_by_calls calls (Scan.start_ready d hay)
  · exact Scan.found_by_calls_back calls (Scan.start_ready d hay)

end TwoWay
end TextSearch
