import TextSearch.Trim
import TextSearch.Proofs.Replace
import TextSearch.Proofs.Range.Terminated
import TextSearch.Proofs.Searcher.Rune

/-!
A character can be searched for as such or as the substring that it is encoded in, and nothing tells the
two patterns apart: decoding goes through the same matches, from either end, as comparing bytes.
-/
namespace TextSearch
open Utf8

namespace Text
variable {hay needle : Text} {c : Rune} {p q : Pattern} {m : Matcher}

/-- Every question and every operation gives the same for either pattern. -/
structure Interchangeable (hay : Text) (p q : Pattern) : Prop where
  find : hay.find p = hay.find q
  rfind : hay.rfind p = hay.rfind q
  contains : hay.contains p = hay.contains q
  startsWith : hay.startsWith p = hay.startsWith q
  endsWith : hay.endsWith p = hay.endsWith q
  count : hay.count p = hay.count q
  hits : (hay.hits p).toList = (hay.hits q).toList
  rhits : (hay.rhits p).toList = (hay.rhits q).toList
  hitsAt : (hay.hitsAt p).toList = (hay.hitsAt q).toList
  rhitsAt : (hay.rhitsAt p).toList = (hay.rhitsAt q).toList
  split : (hay.split p).toList = (hay.split q).toList
  rsplit : (hay.rsplit p).toList = (hay.rsplit q).toList
  splitTerminator : (hay.splitTerminator p).toList = (hay.splitTerminator q).toList
  rsplitTerminator : (hay.rsplitTerminator p).toList = (hay.rsplitTerminator q).toList
  splitAtMost : ∀ limit, (hay.splitAtMost limit p).toList = (hay.splitAtMost limit q).toList
  rsplitAtMost : ∀ limit, (hay.rsplitAtMost limit p).toList = (hay.rsplitAtMost limit q).toList
  trimStartMatches : hay.trimStartMatches p = hay.trimStartMatches q
  trimEndMatches : hay.trimEndMatches p = hay.trimEndMatches q
  replace : ∀ new, hay.replace p new = hay.replace q new
  replaceAtMost : ∀ new limit, hay.replaceAtMost p new limit = hay.replaceAtMost q new limit

/-- Fresh searches for either pattern go through the same matches from either end, meet the same first
    stretch without one, and agree on whether the very ends of the text match. -/
structure SameSearches (hay : Text) (p q : Pattern) : Prop where
  forth : Searcher.hits.toList (.start hay p) = Searcher.hits.toList (.start hay q)
  back : Searcher.hitsBack.toList (.start hay p) = Searcher.hitsBack.toList (.start hay q)
  trimStart : hay.trimStartMatches p = hay.trimStartMatches q
  trimEnd : hay.trimEndMatches p = hay.trimEndMatches q
  starts : hay.startsWith p = true ↔ hay.startsWith q = true
  ends : hay.endsWith p = true ↔ hay.endsWith q = true

namespace SameSearches
variable (same : SameSearches hay p q)
include same

theorem first : (Searcher.hits.next (.start hay p)).1 = (Searcher.hits.next (.start hay q)).1 := by
  rw [FiniteStream.next_eq_head?, FiniteStream.next_eq_head?, same.forth]

theorem last :
    (Searcher.hitsBack.next (.start hay p)).1 = (Searcher.hitsBack.next (.start hay q)).1 := by
  rw [FiniteStream.next_eq_head?, FiniteStream.next_eq_head?, same.back]

theorem rsplit : (hay.rsplit p).toList = (hay.rsplit q).toList := by
  rw [← List.reverse_inj, toList_rsplit, toList_rsplit, same.back]

theorem splitAtMost (limit : Nat) :
    (hay.splitAtMost limit p).toList = (hay.splitAtMost limit q).toList := by
  cases limit with
  | zero => rw [(splitsAtMost_zero hay p).1, (splitsAtMost_zero hay q).1]
  | succ limit => rw [toList_splitAtMost, toList_splitAtMost, same.forth]

theorem rsplitAtMost (limit : Nat) :
    (hay.rsplitAtMost limit p).toList = (hay.rsplitAtMost limit q).toList := by
  cases limit with
  | zero => rw [(splitsAtMost_zero hay p).2, (splitsAtMost_zero hay q).2]
  | succ limit => rw [toList_rsplitAtMost, toList_rsplitAtMost, same.back]

theorem replaceAtMost (new : Text) (limit : Nat) :
    hay.replaceAtMost p new limit = hay.replaceAtMost q new limit := by
  rw [replaceAtMost_eq, replaceAtMost_eq, same.splitAtMost]

theorem interchangeable : Interchangeable hay p q where
  find := by rw [find, find, same.first]
  rfind := by rw [rfind, rfind, same.last]
  contains := by rw [contains, contains, same.first]
  startsWith := Bool.eq_iff_iff.mpr same.starts
  endsWith := Bool.eq_iff_iff.mpr same.ends
  count := by rw [count_eq_length, count_eq_length, same.forth]
  hits := by rw [toList_hits, toList_hits, same.forth]
  rhits := by rw [toList_rhits, toList_rhits, same.back]
  hitsAt := by rw [toList_hitsAt, toList_hitsAt, same.forth]
  rhitsAt := by rw [toList_rhitsAt, toList_rhitsAt, same.back]
  split := by rw [toList_split, toList_split, same.forth]
  rsplit := same.rsplit
  splitTerminator := by rw [toList_splitTerminator, toList_splitTerminator, same.forth]
  rsplitTerminator := by rw [toList_rsplitTerminator, toList_rsplitTerminator, same.rsplit]
  splitAtMost := same.splitAtMost
  rsplitAtMost := same.rsplitAtMost
  trimStartMatches := same.trimStart
  trimEndMatches := same.trimEnd
  replace := fun new => same.replaceAtMost new unlimited
  replaceAtMost := same.replaceAtMost

end SameSearches

section Edges

theorem startsWith_character_iff_first_step : hay.startsWith (.character m) = true ↔
    ∃ stop, (Searcher.steps.next (.start hay (.character m))).1 = some (.found 0 stop) := by
  rw [startsWith]
  split
  next first stop answer =>
    rw [beq_iff_eq, answer]
    constructor
    · rintro rfl
      exact ⟨stop, rfl⟩
    · rintro ⟨_, told⟩
      cases told
      rfl
  next other =>
    constructor
    · intro no
      cases no
    · rintro ⟨stop, told⟩
      exact absurd told (other 0 stop)

theorem endsWith_character_iff_first_step : hay.endsWith (.character m) = true ↔
    ∃ start, (Searcher.stepsBack.next (.start hay (.character m))).1 =
      some (.found start hay.size) := by
  rw [endsWith]
  split
  next start last answer =>
    rw [beq_iff_eq, answer]
    constructor
    · rintro rfl
      exact ⟨start, rfl⟩
    · rintro ⟨_, told⟩
      cases told
      rfl
  next other =>
    constructor
    · intro no
      cases no
    · rintro ⟨start, told⟩
      exact absurd told (other start hay.size)

end Edges

section Runes
variable (wellFormedHay : wellFormed hay = true) (scalar : isScalar c = true)
  (encoded : needle.toList = encode c)
include wellFormedHay scalar encoded

theorem sameSearches_of_rune :
    SameSearches hay (.character (.rune c)) (.substring needle) := by
  obtain ⟨_, nonempty⟩ := size_of_encoded scalar encoded
  have wellFormedNeedle := wellFormed_of_encoded scalar encoded
  obtain ⟨seeking, seekingBack⟩ := Searcher.start_seeking wellFormedHay c
  have scanning := start_scanning hay nonempty
  have decoded : Sweeps needle hay Searcher.steps (Searcher.Seeking c hay) Searcher.front :=
    Searcher.steps_sweep_of_rune scalar encoded
  have decodedBack :
      SweepsBack needle hay Searcher.stepsBack (Searcher.SeekingBack c hay) Searcher.back :=
    Searcher.stepsBack_sweep_of_rune scalar encoded
  have compared := Searcher.steps_sweep (d := TwoWay.Needle.ofText needle nonempty) wellFormedHay
    wellFormedNeedle
  have comparedBack := Searcher.stepsBack_sweep (d := TwoWay.Needle.ofText needle nonempty)
    wellFormedHay wellFormedNeedle
  have front : (Searcher.start hay (.substring needle)).front = 0 := by
    rw [Searcher.start_of_nonempty nonempty]
    rfl
  have back : (Searcher.start hay (.substring needle)).back = hay.size := by
    rw [Searcher.start_of_nonempty nonempty]
    rfl
  refine ⟨?_, ?_, ?_, ?_, ?_, ?_⟩
  · rw [Searcher.hits_of_nonempty nonempty]
    exact (Searcher.hits_of_characters _).trans (decoded.found seeking nonempty)
  · rw [Searcher.hitsBack_of_nonempty nonempty]
    exact (Searcher.hitsBack_of_characters _).trans (decodedBack.found seekingBack nonempty)
  · have first := compared.firstMiss nonempty scanning
    rw [front] at first
    exact congrArg (fun i => hay.slice i hay.size)
      ((decoded.firstMiss nonempty seeking).trans first.symm)
  · have last := comparedBack.lastMiss nonempty scanning
    rw [back] at last
    exact congrArg (hay.slice 0) ((decodedBack.lastMiss nonempty seekingBack).trans last.symm)
  · rw [startsWith_character_iff_first_step,
      startsWith_substring_iff wellFormedHay wellFormedNeedle]
    exact decoded.found_here_iff seeking nonempty
  · rw [endsWith_character_iff_first_step, endsWith_substring_iff wellFormedNeedle]
    exact decodedBack.found_here_iff seekingBack nonempty

end Runes

/-- A character and the substring that it is encoded in can take each other's place in every question
    about a well-formed text and in every operation on it. -/
theorem rune_interchangeable_with_encoding {hay needle : Text} {c : Rune}
    (wellFormedHay : wellFormed hay = true) (scalar : isScalar c = true)
    (encoded : needle.toList = encode c) :
    Interchangeable hay (.character (.rune c)) (.substring needle) :=
  (sameSearches_of_rune wellFormedHay scalar encoded).interchangeable

theorem rune_interchangeable_with_encoding_of_accent :
    let hay := Text.ofList [0xC3, 0xA9, 0x61, 0xC3, 0xA9, 0xC3, 0xA9]
    let needle := Text.ofList [0xC3, 0xA9]
    (wellFormed hay = true ∧ isScalar 0xE9 = true ∧ needle.toList = encode 0xE9) ∧
      Interchangeable hay (.character (.rune 0xE9)) (.substring needle) := by
  intro hay needle
  have wellFormedHay : wellFormed hay = true := by decide
  have scalar : isScalar 0xE9 = true := by decide
  have encoded : needle.toList = encode 0xE9 := (toList_ofList _).trans (by decide)
  exact ⟨⟨wellFormedHay, scalar, encoded⟩,
    rune_interchangeable_with_encoding wellFormedHay scalar encoded⟩

end Text
end TextSearch
