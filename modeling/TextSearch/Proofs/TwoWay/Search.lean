import TextSearch.Proofs.TwoWay.Reach

/-!
Straight from match to match a scan agrees with the plain scans: the next match is the nearest
occurrence, and a drained scan lists the occurrences without overlap, from whichever side it comes.
-/
namespace TextSearch
namespace TwoWay
open Text

theorem answer_iff {β : Type} {answer : Option β} {f : Nat → β} {P : Nat → Prop} {none_left : Prop}
    (unique : ∀ i j, P i → P j → i = j) (excludes : ∀ i, P i → ¬ none_left)
    (outcome : (∃ i, answer = some (f i) ∧ P i) ∨ (answer = none ∧ none_left)) :
    (∀ b, answer = some b ↔ ∃ i, P i ∧ b = f i) ∧ (answer = none ↔ none_left) := by
  rcases outcome with ⟨i, rfl, holds⟩ | ⟨rfl, out⟩
  · constructor
    · intro b
      constructor
      · intro same
        exact ⟨i, holds, (Option.some.inj same).symm⟩
      · rintro ⟨j, other, rfl⟩
        rw [unique i j holds other]
    · constructor
      · intro no
        cases no
      · intro out
        exact absurd out (excludes i holds)
  · constructor
    · intro b
      constructor
      · intro no
        cases no
      · rintro ⟨j, other, _⟩
        exact absurd out (excludes j other)
    · exact ⟨fun _ => out, fun _ => rfl⟩

namespace Scan
variable {d : Needle} {hay : Text} {s : Scan}

theorem hits_iff (ready : s.Ready d hay) :
    (∀ step, (hits.next s).1 = some step ↔
      ∃ i, Leftmost d.text hay s.forward.position i ∧ step = .found i (i + d.text.size)) ∧
    ((hits.next s).1 = none ↔ ∀ i, s.forward.position ≤ i → ¬ OccursAt d.text hay i) := by
  apply answer_iff
  · intro i j left right
    exact leftmost_unique left right
  · intro i first none_left
    exact none_left i first.1 first.2.1
  · rcases hits_cases ready with ⟨i, answer, _, first⟩ | ⟨answer, _, none_left⟩
    · exact Or.inl ⟨i, answer, first⟩
    · exact Or.inr ⟨answer, none_left⟩

theorem hitsBack_iff (ready : s.Ready d hay) :
    (∀ step, (hitsBack.next s).1 = some step ↔
      ∃ i, Rightmost d.text hay s.backward.stop i ∧ step = .found i (i + d.text.size)) ∧
    ((hitsBack.next s).1 = none ↔
      ∀ i, i + d.text.size ≤ s.backward.stop → ¬ OccursAt d.text hay i) := by
  apply answer_iff
  · intro i j left right
    exact rightmost_unique left right
  · intro i last none_left
    exact none_left i last.1 last.2.1
  · rcases hitsBack_cases ready with ⟨i, answer, _, last⟩ | ⟨answer, _, none_left⟩
    · exact Or.inl ⟨i, answer, last⟩
    · exact Or.inr ⟨answer, none_left⟩

end Scan

section Find
variable {needle hay : Text} {i : Nat}

theorem occursAt_of_empty (empty : needle.size = 0) : OccursAt needle hay i ↔ i ≤ hay.size := by
  constructor
  · intro occurs
    have := occurs.1
    omega
  · intro inside
    exact ⟨by omega, fun k hk => by omega⟩

theorem findFirst_of_nonempty (nonempty : 0 < needle.size) :
    findFirst needle hay =
      (Scan.hits.next (Scan.start (Needle.ofText needle nonempty) hay)).1.map Step.start := by
  simp only [findFirst, Needle.ofText?, dif_pos nonempty]

theorem findLast_of_nonempty (nonempty : 0 < needle.size) :
    findLast needle hay =
      (Scan.hitsBack.next (Scan.start (Needle.ofText needle nonempty) hay)).1.map Step.start := by
  simp only [findLast, Needle.ofText?, dif_pos nonempty]

theorem findFirst_of_empty (empty : needle.size = 0) : findFirst needle hay = some 0 := by
  simp [findFirst, Needle.ofText?, empty]

theorem findLast_of_empty (empty : needle.size = 0) : findLast needle hay = some hay.size := by
  simp [findLast, Needle.ofText?, empty]

theorem findFirst_iff :
    (∀ i, findFirst needle hay = some i ↔ Leftmost needle hay 0 i) ∧
    (findFirst needle hay = none ↔ ∀ i, ¬ OccursAt needle hay i) := by
  have outcome : (∃ i, findFirst needle hay = some i ∧ Leftmost needle hay 0 i) ∨
      (findFirst needle hay = none ∧ ∀ i, ¬ OccursAt needle hay i) := by
    by_cases nonempty : 0 < needle.size
    · rw [findFirst_of_nonempty nonempty]
      rcases Scan.hits_cases (Scan.start_ready (Needle.ofText needle nonempty) hay) with
        ⟨i, answer, _, first⟩ | ⟨answer, _, none_left⟩
      · exact Or.inl ⟨i, by rw [answer]; rfl, first⟩
      · exact Or.inr ⟨by rw [answer]; rfl, fun i => none_left i (Nat.zero_le i)⟩
    · have empty : needle.size = 0 := by omega
      exact Or.inl ⟨0, findFirst_of_empty empty,
        leftmost_here ((occursAt_of_empty empty).mpr (Nat.zero_le _))⟩
  obtain ⟨some_iff, none_iff⟩ := answer_iff (fun i j => leftmost_unique)
    (fun i first none_left => none_left i first.2.1) outcome
  exact ⟨fun i => by simpa using some_iff i, none_iff⟩

theorem findLast_iff :
    (∀ i, findLast needle hay = some i ↔ Rightmost needle hay hay.size i) ∧
    (findLast needle hay = none ↔ ∀ i, ¬ OccursAt needle hay i) := by
  have outcome : (∃ i, findLast needle hay = some i ∧ Rightmost needle hay hay.size i) ∨
      (findLast needle hay = none ∧ ∀ i, ¬ OccursAt needle hay i) := by
    by_cases nonempty : 0 < needle.size
    · rw [findLast_of_nonempty nonempty]
      rcases Scan.hitsBack_cases (Scan.start_ready (Needle.ofText needle nonempty) hay) with
        ⟨i, answer, _, last⟩ | ⟨answer, _, none_left⟩
      · exact Or.inl ⟨i, by rw [answer]; rfl, last⟩
      · exact Or.inr ⟨by rw [answer]; rfl, fun i occurs => none_left i occurs.1 occurs⟩
    · have empty : needle.size = 0 := by omega
      exact Or.inl ⟨hay.size, findLast_of_empty empty,
        rightmost_here ((occursAt_of_empty empty).mpr (Nat.le_refl _)) (by omega)⟩
  obtain ⟨some_iff, none_iff⟩ := answer_iff (fun i j => rightmost_unique)
    (fun i last none_left => none_left i last.2.1) outcome
  exact ⟨fun i => by simpa using some_iff i, none_iff⟩

end Find

/-- From the left: whatever calls came before, the next match is the occurrence with the smallest
    start from the cursor on, and there is none exactly if nothing occurs from there on. A drained
    scan lists the occurrences without overlap, and the first offset found is the smallest. -/
theorem forward_search_exact (hay : Text) :
    (∀ (d : Needle) (calls : List Call),
      (∀ step, (Scan.hits.next (Scan.reach d hay calls)).1 = some step ↔
        ∃ i, Leftmost d.text hay (Scan.reach d hay calls).forward.position i ∧
          step = .found i (i + d.text.size)) ∧
      ((Scan.hits.next (Scan.reach d hay calls)).1 = none ↔
        ∀ i, (Scan.reach d hay calls).forward.position ≤ i → ¬ OccursAt d.text hay i)) ∧
    (∀ d : Needle, Scan.hits.toList (Scan.start d hay) =
      (occurrences d.text hay).map fun i => .found i (i + d.text.size)) ∧
    (∀ needle : Text,
      (∀ i, findFirst needle hay = some i ↔ Leftmost needle hay 0 i) ∧
      (findFirst needle hay = none ↔ ∀ i, ¬ OccursAt needle hay i) ∧
      (needle.size = 0 → findFirst needle hay = some 0)) := by
  constructor
  · intro d calls
    have ready := Scan.reach_ready d hay calls
    exact Scan.hits_iff ready
  · constructor
    · intro d
      exact (Scan.hits_jumps d hay).toList d.nonempty (Scan.start_ready d hay)
    · intro needle
      exact ⟨findFirst_iff.1, findFirst_iff.2, findFirst_of_empty⟩

theorem forward_search_of_overlap :
    let needle := Text.ofList [97, 97]
    let hay := Text.ofList [97, 97, 98, 97, 97, 97]
    let d := Needle.ofText needle (by decide)
    let s := Scan.reach d hay [.hits, .stepsBack]
    s.forward.position = 2 ∧ Leftmost needle hay 2 3 ∧ OccursAt needle hay 4 ∧
      (Scan.hits.next s).1 = some (.found 3 5) ∧
      Scan.hits.toList (Scan.start d hay) = [.found 0 2, .found 3 5] ∧
      (Text.ofList []).size = 0 ∧ findFirst (Text.ofList []) hay = some 0 := by
  intro needle hay d s
  obtain ⟨called, drained, found⟩ := forward_search_exact hay
  have position : s.forward.position = 2 := by decide +kernel
  have first : Leftmost needle hay 2 3 := by
    refine ⟨by decide, by decide, ?_⟩
    intro j low high
    obtain rfl : j = 2 := by omega
    decide
  have answer : (Scan.hits.next s).1 = some (.found 3 5) := by
    refine ((called d [.hits, .stepsBack]).1 (.found 3 5)).mpr ⟨3, ?_, rfl⟩
    rw [position]
    exact first
  have listed : Scan.hits.toList (Scan.start d hay) = [.found 0 2, .found 3 5] := by
    rw [drained d]
    decide +kernel
  exact ⟨position, first, by decide, answer, listed, rfl, (found (Text.ofList [])).2.2 rfl⟩

theorem backward_search_exact (hay : Text) :
    (∀ (d : Needle) (calls : List Call),
      (∀ step, (Scan.hitsBack.next (Scan.reach d hay calls)).1 = some step ↔
        ∃ i, Rightmost d.text hay (Scan.reach d hay calls).backward.stop i ∧
          step = .found i (i + d.text.size)) ∧
      ((Scan.hitsBack.next (Scan.reach d hay calls)).1 = none ↔
        ∀ i, i + d.text.size ≤ (Scan.reach d hay calls).backward.stop →
          ¬ OccursAt d.text hay i)) ∧
    (∀ d : Needle, Scan.hitsBack.toList (Scan.start d hay) =
      (occurrencesBefore d.text hay hay.size).map fun i => .found i (i + d.text.size)) ∧
    (∀ needle : Text,
      (∀ i, findLast needle hay = some i ↔ Rightmost needle hay hay.size i) ∧
      (findLast needle hay = none ↔ ∀ i, ¬ OccursAt needle hay i) ∧
      (needle.size = 0 → findLast needle hay = some hay.size)) := by
  constructor
  · intro d calls
    have ready := Scan.reach_ready d hay calls
    exact Scan.hitsBack_iff ready
  · constructor
    · intro d
      exact (Scan.hitsBack_jumps d hay).toList d.nonempty (Scan.start_ready d hay)
    · intro needle
      exact ⟨findLast_iff.1, findLast_iff.2, findLast_of_empty⟩

theorem backward_search_of_overlap :
    let needle := Text.ofList [97, 97]
    let hay := Text.ofList [97, 97, 97, 98, 97, 97]
    let d := Needle.ofText needle (by decide)
    let s := Scan.reach d hay [.hitsBack, .steps]
    s.backward.stop = 4 ∧ Rightmost needle hay 4 1 ∧ OccursAt needle hay 0 ∧
      (Scan.hitsBack.next s).1 = some (.found 1 3) ∧
      Scan.hitsBack.toList (Scan.start d hay) = [.found 4 6, .found 1 3] ∧
      (Text.ofList []).size = 0 ∧ findLast (Text.ofList []) hay = some 6 := by
  intro needle hay d s
  obtain ⟨called, drained, found⟩ := backward_search_exact hay
  have stop : s.backward.stop = 4 := by decide +kernel
  have last : Rightmost needle hay 4 1 := by
    refine ⟨by decide, by decide, ?_⟩
    intro j low high
    have ends : j + 2 ≤ 4 := high
    have begins : 3 < j + 2 := low
    obtain rfl : j = 2 := by omega
    decide
  have answer : (Scan.hitsBack.next s).1 = some (.found 1 3) := by
    refine ((called d [.hitsBack, .steps]).1 (.found 1 3)).mpr ⟨1, ?_, rfl⟩
    rw [stop]
    exact last
  have listed : Scan.hitsBack.toList (Scan.start d hay) = [.found 4 6, .found 1 3] := by
    rw [drained d]
    decide +kernel
  exact ⟨stop, last, by decide, answer, listed, rfl, (found (Text.ofList [])).2.2 rfl⟩

end TwoWay
end TextSearch
