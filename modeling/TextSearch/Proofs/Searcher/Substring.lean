import TextSearch.Proofs.Searcher.Calls
import TextSearch.Proofs.TwoWay.Search
import TextSearch.Proofs.TwoWay.Widening

/-!
A search for a substring reports whole characters only, and still every occurrence: its steps tile
the haystack from boundary to boundary, and its matches are those of the scan of bytes.
-/
namespace TextSearch
namespace Searcher
open Text Utf8 TwoWay
variable {d : Needle} {hay : Text}

def Scanning (d : Needle) (hay : Text) (s : Searcher) : Prop :=
  ∃ scan : Scan, s = occurrences scan ∧ scan.Aligned d hay

theorem start_of_nonempty {needle : Text} (nonempty : 0 < needle.size) :
    start hay (.substring needle) = occurrences (Scan.start (Needle.ofText needle nonempty) hay) := by
  simp only [start, Needle.ofText?, dif_pos nonempty]

section Calls
variable (wellFormedHay : wellFormed hay = true) (wellFormedNeedle : wellFormed d.text = true)
include wellFormedHay wellFormedNeedle

theorem steps_sweep : Sweeps d.text hay steps (Scanning d hay) front where
  inside := by
    rintro _ ⟨scan, rfl, aligned⟩
    exact aligned.forward.position_le
  keeps := by
    rintro _ ⟨scan, rfl, aligned⟩
    exact ⟨_, rfl, (Scan.wideSteps_cases wellFormedHay wellFormedNeedle aligned).1⟩
  outcome := by
    rintro _ ⟨scan, rfl, aligned⟩
    exact (Scan.wideSteps_cases wellFormedHay wellFormedNeedle aligned).2

theorem stepsBack_sweep : SweepsBack d.text hay stepsBack (Scanning d hay) back where
  keeps := by
    rintro _ ⟨scan, rfl, aligned⟩
    exact ⟨_, rfl, (Scan.wideStepsBack_cases wellFormedHay wellFormedNeedle aligned).1⟩
  outcome := by
    rintro _ ⟨scan, rfl, aligned⟩
    exact (Scan.wideStepsBack_cases wellFormedHay wellFormedNeedle aligned).2

theorem hits_jumps : Jumps d.text hay hits (Scanning d hay) front where
  inside := (steps_sweep wellFormedHay wellFormedNeedle).inside
  keeps := by
    rintro _ ⟨scan, rfl, aligned⟩
    exact ⟨_, rfl, Scan.hits_aligned wellFormedHay wellFormedNeedle aligned⟩
  outcome := by
    rintro _ ⟨scan, rfl, aligned⟩
    exact Scan.hits_cases aligned.toReady

omit wellFormedHay in
theorem hitsBack_jumps : JumpsBack d.text hay hitsBack (Scanning d hay) back where
  keeps := by
    rintro _ ⟨scan, rfl, aligned⟩
    exact ⟨_, rfl, Scan.hitsBack_aligned wellFormedNeedle aligned⟩
  outcome := by
    rintro _ ⟨scan, rfl, aligned⟩
    exact Scan.hitsBack_cases aligned.toReady

theorem call_scanning (k : Call) (s : Searcher) (scanning : Scanning d hay s) :
    Scanning d hay (k.stream.next s).2 := by
  have forward := (steps_sweep wellFormedHay wellFormedNeedle).keeps
  have backward := (stepsBack_sweep wellFormedHay wellFormedNeedle).keeps
  cases k with
  | steps => exact forward s scanning
  | misses => exact FiniteStream.findNext_keeps forward scanning
  | stepsBack => exact backward s scanning
  | missesBack => exact FiniteStream.findNext_keeps backward scanning
  | hits => exact (hits_jumps wellFormedHay wellFormedNeedle).keeps s scanning
  | hitsBack => exact (hitsBack_jumps wellFormedNeedle).keeps s scanning

omit wellFormedHay wellFormedNeedle in
theorem boundaries_of_scanning {s : Searcher} (scanning : Scanning d hay s) :
    isBoundary hay s.front = true ∧ isBoundary hay s.back = true := by
  obtain ⟨scan, rfl, aligned⟩ := scanning
  exact ⟨aligned.front, aligned.back⟩

omit wellFormedHay wellFormedNeedle in
theorem steps_keep_back (s : Searcher) (scanning : Scanning d hay s) :
    (steps.next s).2.back = s.back := by
  obtain ⟨scan, rfl, _⟩ := scanning
  exact congrArg Backward.stop (Scan.wideSteps_backward scan)

omit wellFormedHay wellFormedNeedle in
theorem stepsBack_keep_front (s : Searcher) (scanning : Scanning d hay s) :
    (stepsBack.next s).2.front = s.front := by
  obtain ⟨scan, rfl, _⟩ := scanning
  exact congrArg Forward.position (Scan.wideStepsBack_forward scan)

theorem other_cursor (k : Call) {s : Searcher} (scanning : Scanning d hay s) :
    if k.isForward then (k.stream.next s).2.back = s.back
    else (k.stream.next s).2.front = s.front := by
  have forward : ∀ t, Scanning d hay t ∧ t.back = s.back →
      Scanning d hay (steps.next t).2 ∧ (steps.next t).2.back = s.back :=
    fun t ⟨holds, same⟩ => ⟨call_scanning wellFormedHay wellFormedNeedle .steps t holds,
      (steps_keep_back t holds).trans same⟩
  have backward : ∀ t, Scanning d hay t ∧ t.front = s.front →
      Scanning d hay (stepsBack.next t).2 ∧ (stepsBack.next t).2.front = s.front :=
    fun t ⟨holds, same⟩ => ⟨call_scanning wellFormedHay wellFormedNeedle .stepsBack t holds,
      (stepsBack_keep_front t holds).trans same⟩
  cases k with
  | steps => exact steps_keep_back s scanning
  | misses => exact (FiniteStream.findNext_keeps forward ⟨scanning, rfl⟩).2
  | stepsBack => exact stepsBack_keep_front s scanning
  | missesBack => exact (FiniteStream.findNext_keeps backward ⟨scanning, rfl⟩).2
  | hits =>
    obtain ⟨scan, rfl, _⟩ := scanning
    exact rfl
  | hitsBack =>
    obtain ⟨scan, rfl, _⟩ := scanning
    exact rfl

theorem step_to_boundary {s : Searcher} (scanning : Scanning d hay s) (step : Step)
    (answer : (steps.next s).1 = some step) :
    ForwardStep d.text hay s.front (steps.next s).2.front step ∧
      isBoundary hay (steps.next s).2.front = true := by
  have forward := steps_sweep wellFormedHay wellFormedNeedle
  have kept := forward.keeps s scanning
  exact ⟨forward.covers scanning step answer, (boundaries_of_scanning kept).1⟩

theorem stepBack_to_boundary {s : Searcher} (scanning : Scanning d hay s) (step : Step)
    (answer : (stepsBack.next s).1 = some step) :
    BackwardStep d.text hay (stepsBack.next s).2.back s.back step ∧
      isBoundary hay (stepsBack.next s).2.back = true := by
  have backward := stepsBack_sweep wellFormedHay wellFormedNeedle
  have kept := backward.keeps s scanning
  exact ⟨backward.covers scanning step answer, (boundaries_of_scanning kept).2⟩

theorem steps_at_boundaries {s : Searcher} (scanning : Scanning d hay s) (step : Step)
    (member : step ∈ steps.toList s ∨ step ∈ stepsBack.toList s) :
    isBoundary hay step.start = true ∧ isBoundary hay step.stop = true := by
  rcases member with forth | back
  · apply (steps_sweep wellFormedHay wellFormedNeedle).ends_at scanning
      (fun i => isBoundary hay i = true) _ step forth
    intro t holds
    exact (boundaries_of_scanning holds).1
  · apply (stepsBack_sweep wellFormedHay wellFormedNeedle).ends_at scanning
      (fun i => isBoundary hay i = true) _ step back
    intro t holds
    exact (boundaries_of_scanning holds).2

/-- The way straight to the next match and the way past all rejected stretches lead to the same match,
    and leave the cursor in the same place. -/
theorem hits_eq_found {s : Searcher} (scanning : Scanning d hay s) :
    (hits.next s).1 = ((steps.filter Step.isFound).next s).1 ∧
      (hits.next s).2.front = ((steps.filter Step.isFound).next s).2.front := by
  have fast := (hits_jumps wellFormedHay wellFormedNeedle).outcome s scanning
  have slow := (steps_sweep wellFormedHay wellFormedNeedle).firstMatch scanning d.nonempty
  exact firstMatch_unique fast slow

theorem hitsBack_eq_found {s : Searcher} (scanning : Scanning d hay s) :
    (hitsBack.next s).1 = ((stepsBack.filter Step.isFound).next s).1 ∧
      (hitsBack.next s).2.back = ((stepsBack.filter Step.isFound).next s).2.back := by
  have fast := (hitsBack_jumps wellFormedNeedle).outcome s scanning
  have slow := (stepsBack_sweep wellFormedHay wellFormedNeedle).lastMatch scanning d.nonempty
  exact lastMatch_unique fast slow

end Calls

theorem reach_scanning {calls : List Call} {needle : Text} (nonempty : 0 < needle.size)
    (wellFormedHay : wellFormed hay = true) (wellFormedNeedle : wellFormed needle = true) :
    Scanning (Needle.ofText needle nonempty) hay (reach hay (.substring needle) calls) := by
  rw [reach, start_of_nonempty nonempty]
  exact FiniteStream.after_keeps (call_scanning wellFormedHay wellFormedNeedle) calls
    ⟨_, rfl, Scan.start_aligned _ hay⟩

/-- After any calls on a search for a non-empty needle, all texts being well-formed: both cursors stand
    at boundaries, and a step goes on from one boundary to another, a match exactly where the needle
    occurs. The steps still to come tile the rest of the haystack, and their matches are those of the
    scan of bytes; the way straight to the next match is the way along the steps. -/
theorem substring_search_exact {hay needle : Text} (wellFormedHay : wellFormed hay = true)
    (wellFormedNeedle : wellFormed needle = true) (nonempty : 0 < needle.size)
    (calls : List Call) :
    let s := reach hay (.substring needle) calls
    let fresh := start hay (.substring needle)
    let scan := Scan.start (Needle.ofText needle nonempty) hay
    (isBoundary hay s.front = true ∧ isBoundary hay s.back = true) ∧
    ((steps.next s).1 = none ↔ s.front = hay.size) ∧
    (∀ step, (steps.next s).1 = some step →
      ForwardStep needle hay s.front (steps.next s).2.front step ∧
        isBoundary hay (steps.next s).2.front = true) ∧
    ((stepsBack.next s).1 = none ↔ s.back = 0) ∧
    (∀ step, (stepsBack.next s).1 = some step →
      BackwardStep needle hay (stepsBack.next s).2.back s.back step ∧
        isBoundary hay (stepsBack.next s).2.back = true) ∧
    (∀ k : Call, if k.isForward then (k.stream.next s).2.back = s.back
      else (k.stream.next s).2.front = s.front) ∧
    (Tiles (steps.toList s) s.front hay.size ∧ Tiles (stepsBack.toList s).reverse 0 s.back) ∧
    (∀ step, step ∈ steps.toList s ∨ step ∈ stepsBack.toList s →
      isBoundary hay step.start = true ∧ isBoundary hay step.stop = true) ∧
    ((steps.toList s).filter Step.isFound = hits.toList s ∧ hits.toList s =
        (occurrencesFrom needle hay s.front).map (fun i => .found i (i + needle.size))) ∧
    ((stepsBack.toList s).filter Step.isFound = hitsBack.toList s ∧ hitsBack.toList s =
        (occurrencesBefore needle hay s.back).map (fun i => .found i (i + needle.size))) ∧
    ((steps.toList fresh).filter Step.isFound = Scan.hits.toList scan ∧
      (stepsBack.toList fresh).filter Step.isFound = Scan.hitsBack.toList scan) ∧
    ((hits.next s).1 = ((steps.filter Step.isFound).next s).1 ∧
      (hits.next s).2.front = ((steps.filter Step.isFound).next s).2.front) ∧
    ((hitsBack.next s).1 = ((stepsBack.filter Step.isFound).next s).1 ∧
      (hitsBack.next s).2.back = ((stepsBack.filter Step.isFound).next s).2.back) := by
  intro s fresh scan
  have scanning : Scanning (Needle.ofText needle nonempty) hay s :=
    reach_scanning nonempty wellFormedHay wellFormedNeedle
  have started : Scanning (Needle.ofText needle nonempty) hay fresh :=
    ⟨scan, start_of_nonempty nonempty, Scan.start_aligned _ hay⟩
  have forward := steps_sweep (d := Needle.ofText needle nonempty) wellFormedHay wellFormedNeedle
  have backward :=
    stepsBack_sweep (d := Needle.ofText needle nonempty) wellFormedHay wellFormedNeedle
  have hits_drained :=
    (hits_jumps (d := Needle.ofText needle nonempty) wellFormedHay wellFormedNeedle).toList
      nonempty scanning
  have hitsBack_drained :=
    (hitsBack_jumps (d := Needle.ofText needle nonempty) wellFormedNeedle).toList nonempty scanning
  refine ⟨boundaries_of_scanning scanning, forward.none_iff scanning,
    step_to_boundary wellFormedHay wellFormedNeedle scanning, backward.none_iff scanning,
    stepBack_to_boundary wellFormedHay wellFormedNeedle scanning,
    fun k => other_cursor wellFormedHay wellFormedNeedle k scanning,
    ⟨forward.tiles scanning, backward.tiles scanning⟩,
    steps_at_boundaries wellFormedHay wellFormedNeedle scanning,
    ⟨?_, hits_drained⟩, ⟨?_, hitsBack_drained⟩, ?_,
    hits_eq_found wellFormedHay wellFormedNeedle scanning,
    hitsBack_eq_found wellFormedHay wellFormedNeedle scanning⟩
  · rw [hits_drained]
    exact forward.found scanning nonempty
  · rw [hitsBack_drained]
    exact backward.found scanning nonempty
  · have ready := Scan.start_ready (Needle.ofText needle nonempty) hay
    rw [forward.found started nonempty, backward.found started nonempty,
      (Scan.hits_jumps (Needle.ofText needle nonempty) hay).toList nonempty ready,
      (Scan.hitsBack_jumps (Needle.ofText needle nonempty) hay).toList nonempty ready]
    simp only [fresh, start_of_nonempty nonempty]
    exact ⟨rfl, rfl⟩

theorem substring_search_of_accents :
    let hay := Text.ofList [0xC3, 0xA9, 0x61, 0xC3, 0xA9]
    let needle := Text.ofList [0xC3, 0xA9]
    let s := reach hay (.substring needle) [.steps, .hitsBack, .misses]
    (wellFormed hay = true ∧ wellFormed needle = true ∧ 0 < needle.size) ∧
      (isBoundary hay s.front = true ∧ isBoundary hay s.back = true) ∧
      Tiles (steps.toList s) s.front 5 ∧ Tiles (stepsBack.toList s).reverse 0 s.back := by
  intro hay needle s
  have wellFormedHay : wellFormed hay = true := by decide
  have wellFormedNeedle : wellFormed needle = true := by decide
  have nonempty : 0 < needle.size := by decide
  obtain ⟨boundaries, _, _, _, _, _, tiles, _⟩ :=
    substring_search_exact wellFormedHay wellFormedNeedle nonempty [.steps, .hitsBack, .misses]
  exact ⟨⟨wellFormedHay, wellFormedNeedle, nonempty⟩, boundaries, tiles⟩

end Searcher
end TextSearch
