import TextSearch.Replace
import TextSearch.Trim
import TextSearch.Proofs.Range.Delivered

/-!
Whatever is searched for in a well-formed text, only boundaries are told of, and whatever is taken out of
the text or made from it is well-formed again.
-/
namespace TextSearch
open Utf8 FiniteStream

namespace Text
variable {hay new : Text} {p : Pattern} {m : Matcher}

section Lookups
variable (wellFormedHay : wellFormed hay = true) (wellFormedPattern : p.WellFormed)
include wellFormedHay wellFormedPattern

theorem answer_atBoundaries (calls : List Searcher.Call) (k : Searcher.Call) (step : Step)
    (answer : (k.stream.next (Searcher.reach hay p calls)).1 = some step) :
    step.AtBoundaries hay := by
  have reached : Searcher.Aligned hay (Searcher.reach hay p calls) :=
    after_keeps (fun k s aligned => (Searcher.call_yields wellFormedHay k s aligned).2) calls
      (Searcher.start_aligned wellFormedHay wellFormedPattern)
  exact (Searcher.call_yields wellFormedHay k _ reached).1 step answer

theorem boundary_of_lookup {i : Nat} (found : hay.find p = some i ∨ hay.rfind p = some i) :
    isBoundary hay i = true := by
  rcases found with first | last
  · obtain ⟨step, answer, rfl⟩ := Option.map_eq_some_iff.mp first
    exact (answer_atBoundaries wellFormedHay wellFormedPattern [] .hits step answer).1
  · obtain ⟨step, answer, rfl⟩ := Option.map_eq_some_iff.mp last
    exact (answer_atBoundaries wellFormedHay wellFormedPattern [] .hitsBack step answer).1

end Lookups

section Trims

theorem boundary_of_answer {answer : Option Step} {other : Nat}
    (told : ∀ step, answer = some step → step.AtBoundaries hay)
    (boundary : isBoundary hay other = true) :
    isBoundary hay ((answer.map Step.start).getD other) = true ∧
      isBoundary hay ((answer.map Step.stop).getD other) = true := by
  cases answer with
  | none => exact ⟨boundary, boundary⟩
  | some step => exact told step rfl

variable (wellFormedHay : wellFormed hay = true)
include wellFormedHay

theorem wellFormed_trimStartMatches (wellFormedPattern : p.WellFormed) :
    wellFormed (hay.trimStartMatches p) = true := by
  have told := answer_atBoundaries wellFormedHay wellFormedPattern [] .misses
  exact wellFormed_slice wellFormedHay (boundary_of_answer told isBoundary_end).1 isBoundary_end

theorem wellFormed_trimEndMatches (wellFormedPattern : p.WellFormed) :
    wellFormed (hay.trimEndMatches p) = true := by
  have told := answer_atBoundaries wellFormedHay wellFormedPattern [] .missesBack
  exact wellFormed_slice wellFormedHay isBoundary_start (boundary_of_answer told isBoundary_start).2

theorem wellFormed_trimMatches (m : Matcher) : wellFormed (hay.trimMatches m) = true := by
  have told := answer_atBoundaries wellFormedHay (p := .character m) trivial [] .misses
  have toldBack := answer_atBoundaries wellFormedHay (p := .character m) trivial [.misses] .missesBack
  have first := boundary_of_answer told isBoundary_start
  exact wellFormed_slice wellFormedHay first.1 (boundary_of_answer toldBack first.2).2

end Trims

section Copies
variable (wellFormedHay : wellFormed hay = true) (wellFormedNew : wellFormed new = true)
include wellFormedHay wellFormedNew

theorem wellFormed_parts_of_spliceFrom {last : Nat} {ms : List Step}
    (boundary : isBoundary hay last = true) (within : ∀ m ∈ ms, m.AtBoundaries hay) :
    ∀ part ∈ spliceFrom hay new last ms, wellFormed part = true := by
  induction ms generalizing last with
  | nil =>
    rw [spliceFrom, List.forall_mem_singleton]
    exact wellFormed_slice wellFormedHay boundary isBoundary_end
  | cons m ms ih =>
    obtain ⟨here, later⟩ := List.forall_mem_cons.mp within
    rw [spliceFrom, List.forall_mem_cons, List.forall_mem_cons]
    exact ⟨wellFormed_slice wellFormedHay boundary here.1, wellFormedNew, ih here.2 later⟩

theorem wellFormed_replaceAtMost (wellFormedPattern : p.WellFormed) (limit : Nat) :
    wellFormed (hay.replaceAtMost p new limit) = true := by
  have searched : Yields (Searcher.Aligned hay) (Step.AtBoundaries hay) Searcher.hits.next :=
    Searcher.call_yields wellFormedHay .hits
  have found := searched.toList (Searcher.start_aligned wellFormedHay wellFormedPattern)
  apply wellFormed_join
  apply wellFormed_parts_of_spliceFrom wellFormedHay wellFormedNew isBoundary_start
  intro m member
  rw [take_eq] at member
  exact found m (List.mem_of_mem_take member)

end Copies

/-- All answers about a text keep to its boundaries, and all texts taken from it are well-formed. -/
structure PartsWellFormed (hay : Text) (p : Pattern) : Prop where
  answers : ∀ (calls : List Searcher.Call) (k : Searcher.Call) (step : Step),
    (k.stream.next (Searcher.reach hay p calls)).1 = some step → step.AtBoundaries hay
  lookups : ∀ i, hay.find p = some i ∨ hay.rfind p = some i → isBoundary hay i = true
  hitsAt : (hay.hitsAt p).Delivers (Located hay) ∧ (hay.rhitsAt p).Delivers (Located hay)
  hits : (hay.hits p).Delivers (wellFormed · = true) ∧ (hay.rhits p).Delivers (wellFormed · = true)
  split : (hay.split p).Delivers (wellFormed · = true) ∧
    (hay.rsplit p).Delivers (wellFormed · = true)
  splitTerminator : (hay.splitTerminator p).Delivers (wellFormed · = true) ∧
    (hay.rsplitTerminator p).Delivers (wellFormed · = true)
  splitAtMost : ∀ limit, (hay.splitAtMost limit p).Delivers (wellFormed · = true) ∧
    (hay.rsplitAtMost limit p).Delivers (wellFormed · = true)
  lines : hay.lines.Delivers (wellFormed · = true)
  words : hay.words.Delivers (wellFormed · = true)
  trimStartMatches : wellFormed (hay.trimStartMatches p) = true
  trimEndMatches : wellFormed (hay.trimEndMatches p) = true
  trimMatches : ∀ m, wellFormed (hay.trimMatches m) = true
  trim : wellFormed hay.trim = true ∧ wellFormed hay.trimStart = true ∧ wellFormed hay.trimEnd = true
  replace : ∀ new, wellFormed new = true → wellFormed (hay.replace p new) = true
  replaceAtMost : ∀ new limit, wellFormed new = true → wellFormed (hay.replaceAtMost p new limit) = true

/-- A well-formed text, searched for any pattern, is never cut inside a character: what is told of it
    lies at boundaries, and each match, piece, line and word, what is left by trimming and a copy with
    well-formed replacements are well-formed. -/
theorem parts_of_wellFormed {hay : Text} (wellFormedHay : wellFormed hay = true) {p : Pattern}
    (wellFormedPattern : p.WellFormed) : PartsWellFormed hay p where
  answers := answer_atBoundaries wellFormedHay wellFormedPattern
  lookups := fun _ => boundary_of_lookup wellFormedHay wellFormedPattern
  hitsAt := hitsAt_deliver wellFormedHay wellFormedPattern
  hits := hits_deliver wellFormedHay wellFormedPattern
  split := split_delivers wellFormedHay wellFormedPattern
  splitTerminator := splitTerminator_delivers wellFormedHay wellFormedPattern
  splitAtMost := splitAtMost_delivers wellFormedHay wellFormedPattern
  lines := lines_deliver wellFormedHay
  words := words_deliver wellFormedHay
  trimStartMatches := wellFormed_trimStartMatches wellFormedHay wellFormedPattern
  trimEndMatches := wellFormed_trimEndMatches wellFormedHay wellFormedPattern
  trimMatches := wellFormed_trimMatches wellFormedHay
  trim := ⟨wellFormed_trimMatches wellFormedHay .whitespace,
    wellFormed_trimStartMatches wellFormedHay (p := .character .whitespace) trivial,
    wellFormed_trimEndMatches wellFormedHay (p := .character .whitespace) trivial⟩
  replace := fun _ accepted =>
    wellFormed_replaceAtMost wellFormedHay accepted wellFormedPattern unlimited
  replaceAtMost := fun _ limit accepted =>
    wellFormed_replaceAtMost wellFormedHay accepted wellFormedPattern limit

theorem parts_of_wellFormed_of_accents :
    let hay := Text.ofList [0xC3, 0xA9, 0x61, 0xC3, 0xA9]
    let needle := Text.ofList [0xC3, 0xA9]
    wellFormed hay = true ∧ (Pattern.substring needle).WellFormed ∧
      (hay.rsplit (.substring needle)).Delivers (wellFormed · = true) ∧
      wellFormed (hay.replaceAtMost (.substring .empty) needle 2) = true := by
  intro hay needle
  have wellFormedHay : wellFormed hay = true := by decide
  have wellFormedNeedle : wellFormed needle = true := by decide
  have empty : wellFormed .empty = true := by decide
  exact ⟨wellFormedHay, wellFormedNeedle,
    (parts_of_wellFormed wellFormedHay (p := .substring needle) wellFormedNeedle).split.2,
    (parts_of_wellFormed wellFormedHay (p := .substring .empty) empty).replaceAtMost needle 2
      wellFormedNeedle⟩

end Text
end TextSearch
