import TextSearch.Proofs.Replace
import TextSearch.Proofs.Utf8.Offsets

/-!
The empty needle in a well-formed text: it matches at every boundary and nowhere else, from whichever end
the search comes, so that a text is split into its characters and a replacement stands before each of
them and behind the last.
-/
namespace TextSearch
open Utf8 Text

namespace BoundarySearcher
variable {hay : Text} {i k : Nat} {cs : List Rune}

/-- What is to be said about boundaries in their order: each is a match of no width, and each stretch
    from one to the next is rejected. -/
def reportsAt : List Nat → List Step
  | [] => []
  | [i] => [.found i i]
  | i :: j :: rest => .found i i :: .rejected i j :: reportsAt (j :: rest)

theorem reportsAt_offsetsFrom (i : Nat) (cs : List Rune) :
    reportsAt (offsetsFrom i cs) = reportsFrom i cs := by
  induction cs generalizing i with
  | nil => rfl
  | cons c cs ih =>
    have rest := ih (i + (encode c).length)
    cases cs with
    | nil => rfl
    | cons d cs =>
      exact congrArg (fun l => .found i i :: .rejected i (i + (encode c).length) :: l) rest

theorem found_reportsFrom (i : Nat) (cs : List Rune) :
    (reportsFrom i cs).filter Step.isFound = (offsetsFrom i cs).map fun b => .found b b := by
  induction cs generalizing i with
  | nil => rfl
  | cons c cs ih => exact congrArg (List.cons _) (ih _)

section Refusals
variable {s : BoundarySearcher}

theorem nexts_of_finished (ended : s.finished = true) :
    steps.next s = (none, s) ∧ stepsBack.next s = (none, s) := by
  simp [steps, next, stepsBack, nextBack, ended]

theorem finished_of_none (refused : (steps.next s).1 = none) :
    (steps.next s).2.finished = true := by
  simp only [steps, next] at refused ⊢
  split at refused
  next ended => rwa [if_pos ended]
  next going =>
    rw [if_neg going]
    split at refused
    next => cases refused
    next character =>
      rw [if_neg character]
      split at refused
      next past => rw [if_pos past]
      next => cases refused

theorem finished_of_none_back (refused : (stepsBack.next s).1 = none) :
    (stepsBack.next s).2.finished = true := by
  simp only [stepsBack, nextBack] at refused ⊢
  split at refused
  next ended => rwa [if_pos ended]
  next going =>
    rw [if_neg going]
    split at refused
    next => cases refused
    next character =>
      rw [if_neg character]
      split at refused
      next past => rw [if_pos past]
      next => cases refused

end Refusals

section Cuts

theorem toList_slice_same (t : Text) (i : Nat) : (t.slice i i).toList = [] := by
  rw [toList_slice, Nat.sub_self, List.take_zero]

theorem cut_reportsFrom (run : Run hay i cs hay.size) :
    (hay.cut true k hay.size ((reportsFrom i cs).filter Step.isFound)).map Text.toList =
      (hay.slice k i).toList :: (cs.map encode ++ [[]]) := by
  induction cs generalizing i k with
  | nil =>
    cases run
    exact congrArg (fun tail => [(hay.slice k hay.size).toList, tail]) (toList_slice_same hay _)
  | cons c cs ih =>
    cases run with
    | cons first others =>
      have rest := ih others (k := i)
      rw [slice_of_stands first, first.stop] at rest
      exact congrArg (List.cons _) rest

theorem splice_reportsFrom (run : Run hay i cs hay.size) (new : Text) :
    (join (spliceFrom hay new k ((reportsFrom i cs).filter Step.isFound))).toList =
      (hay.slice k i).toList ++ (new.toList ++ cs.flatMap fun c => encode c ++ new.toList) := by
  rw [toList_join]
  induction cs generalizing i k with
  | nil =>
    cases run
    exact congrArg (fun tail => (hay.slice k hay.size).toList ++ (new.toList ++ (tail ++ [])))
      (toList_slice_same hay _)
  | cons c cs ih =>
    cases run with
    | cons first others =>
      have rest := ih others (k := i)
      rw [slice_of_stands first, first.stop] at rest
      rw [List.flatMap_cons, List.append_assoc (encode c)]
      exact congrArg (fun l => (hay.slice k i).toList ++ (new.toList ++ l)) rest

end Cuts
end BoundarySearcher

namespace Searcher
variable {hay needle : Text} {cs : List Rune}

section EmptyNeedle
variable (empty : needle.size = 0) (spelled : Spells cs hay.toList)
include empty spelled

theorem toList_steps_of_empty :
    steps.toList (start hay (.substring needle)) =
        BoundarySearcher.reportsAt hay.boundaries ∧
      stepsBack.toList (start hay (.substring needle)) =
        (BoundarySearcher.reportsAt hay.boundaries).reverse := by
  have run : Run hay 0 cs hay.size := Run.whole_iff.mpr spelled
  rw [start_of_empty empty, boundaries_eq_offsetsFrom run, BoundarySearcher.reportsAt_offsetsFrom]
  constructor
  · exact (toList_boundaries _).trans (BoundarySearcher.toList_steps run)
  · exact (toList_boundaries _).trans (BoundarySearcher.toList_stepsBack run)

theorem answers_of_empty (n : Nat) :
    (FiniteStream.answers Call.stream (List.replicate n .steps)
        (start hay (.substring needle))).map Prod.snd =
      (List.range n).map (fun i => (BoundarySearcher.reportsAt hay.boundaries)[i]?) ∧
    (FiniteStream.answers Call.stream (List.replicate n .stepsBack)
        (start hay (.substring needle))).map Prod.snd =
      (List.range n).map fun i => (BoundarySearcher.reportsAt hay.boundaries).reverse[i]? := by
  obtain ⟨forth, back⟩ := toList_steps_of_empty empty spelled
  have started : start hay (.substring needle) = boundaries (.start hay) := start_of_empty empty
  rw [← back, ← forth]
  constructor
  · refine FiniteStream.answers_replicate (P := fun s => ∃ t, s = boundaries t) ?_ ?_ n
      ⟨_, started⟩
    · rintro _ ⟨t, rfl⟩
      exact ⟨_, rfl⟩
    · rintro _ ⟨t, rfl⟩ refused
      have ended := BoundarySearcher.finished_of_none refused
      exact congrArg Prod.fst (BoundarySearcher.nexts_of_finished ended).1
  · refine FiniteStream.answers_replicate (P := fun s => ∃ t, s = boundaries t) ?_ ?_ n
      ⟨_, started⟩
    · rintro _ ⟨t, rfl⟩
      exact ⟨_, rfl⟩
    · rintro _ ⟨t, rfl⟩ refused
      have ended := BoundarySearcher.finished_of_none_back refused
      exact congrArg Prod.fst (BoundarySearcher.nexts_of_finished ended).2

theorem hits_at_boundaries :
    hits.toList (start hay (.substring needle)) = hay.boundaries.map (fun b => .found b b) ∧
      hitsBack.toList (start hay (.substring needle)) =
        hay.boundaries.reverse.map fun b => .found b b := by
  obtain ⟨forth, back⟩ := hits_of_empty empty spelled
  have run : Run hay 0 cs hay.size := Run.whole_iff.mpr spelled
  rw [forth, back, BoundarySearcher.found_reportsFrom, boundaries_eq_offsetsFrom run,
    List.map_reverse]
  exact ⟨rfl, rfl⟩

end EmptyNeedle
end Searcher

namespace Text
variable {hay needle : Text} {cs : List Rune}

section EmptyNeedle
variable (empty : needle.size = 0) (spelled : Spells cs hay.toList)
include empty spelled

theorem count_of_empty : hay.count (.substring needle) = Utf8.count hay + 1 := by
  rw [count_eq_length, (Searcher.hits_of_empty empty spelled).1, length_found_reportsFrom,
    Utf8.count, spelled.countP_eq_length]

theorem split_of_empty :
    (hay.split (.substring needle)).toList.map toList = [] :: (cs.map encode ++ [[]]) := by
  have run : Run hay 0 cs hay.size := Run.whole_iff.mpr spelled
  rw [toList_split, (Searcher.hits_of_empty empty spelled).1,
    BoundarySearcher.cut_reportsFrom run, toList_slice]
  rfl

theorem replace_of_empty (few : Utf8.count hay < unlimited) (new : Text) :
    (hay.replace (.substring needle) new).toList =
      new.toList ++ cs.flatMap fun c => encode c ++ new.toList := by
  have run : Run hay 0 cs hay.size := Run.whole_iff.mpr spelled
  have total : hay.count (.substring needle) ≤ unlimited := by
    rw [count_of_empty empty spelled]
    exact few
  rw [replace_of_few total, (Searcher.hits_of_empty empty spelled).1,
    BoundarySearcher.splice_reportsFrom run, toList_slice]
  rfl

end EmptyNeedle

/-- Over a well-formed haystack a search for the empty needle reports its boundaries, from its first
    offset to its last, as matches of no width, and rejects what lies between two of them; from the back
    it reports the same in reverse, and when all is said it is done for good. So its matches are the
    boundaries, one more than there are characters, a split gives the characters between two empty
    pieces, and a replacement stands before every character and behind the last, unless there are more
    of them than the greatest limit. -/
theorem empty_needle_matches_boundaries {hay needle : Text} (wellFormedHay : wellFormed hay = true)
    (empty : needle.size = 0) :
    let p := Pattern.substring needle
    let bs := hay.boundaries
    let reports := BoundarySearcher.reportsAt bs
    ∃ cs, Spells cs hay.toList ∧ hay.runes = .ok cs ∧
      (bs.head? = some 0 ∧ bs.getLast? = some hay.size ∧ bs.Pairwise (· < ·) ∧
        ∀ i, i ∈ bs ↔ isBoundary hay i = true) ∧
      (∀ n, (FiniteStream.answers Searcher.Call.stream (List.replicate n .steps)
        (.start hay p)).map Prod.snd = (List.range n).map fun i => reports[i]?) ∧
      (∀ n, (FiniteStream.answers Searcher.Call.stream (List.replicate n .stepsBack)
        (.start hay p)).map Prod.snd = (List.range n).map fun i => reports.reverse[i]?) ∧
      ((hay.hitsAt p).toList = bs.map (fun b => (b, hay.slice b b)) ∧
        (hay.rhitsAt p).toList = bs.reverse.map fun b => (b, hay.slice b b)) ∧
      (hay.count p = Utf8.count hay + 1 ∧ bs.length = Utf8.count hay + 1) ∧
      (hay.split p).toList.map toList = [] :: (cs.map encode ++ [[]]) ∧
      (Utf8.count hay < unlimited → ∀ new, (hay.replace p new).toList =
        new.toList ++ cs.flatMap fun c => encode c ++ new.toList) := by
  intro p bs reports
  obtain ⟨cs, spelled⟩ := wellFormedBytes_iff.mp wellFormedHay
  have run : Run hay 0 cs hay.size := Run.whole_iff.mpr spelled
  have asked := Searcher.answers_of_empty empty spelled
  obtain ⟨forth, back⟩ := Searcher.hits_at_boundaries empty spelled
  have number := count_of_empty empty spelled
  refine ⟨cs, spelled, (runes_of_spells spelled).2, ⟨?_, ?_, pairwise_boundaries hay,
    fun _ => mem_boundaries⟩, fun n => (asked n).1, fun n => (asked n).2, ⟨?_, ?_⟩, ⟨number, ?_⟩,
    split_of_empty empty spelled, replace_of_empty empty spelled⟩
  · rw [show bs = _ from boundaries_eq_offsetsFrom run]
    exact head?_offsetsFrom 0 cs
  · rw [show bs = _ from boundaries_eq_offsetsFrom run]
    exact getLast?_offsetsFrom run
  · rw [toList_hitsAt, forth, List.map_map]
    rfl
  · rw [toList_rhitsAt, back, List.map_map]
    rfl
  · rw [← number, count_eq_length, forth, List.length_map]

theorem empty_needle_matches_boundaries_of_accent :
    let hay := Text.ofList [0x61, 0xC3, 0xA9]
    let new := Text.ofList [0x2D]
    wellFormed hay = true ∧ Text.empty.size = 0 ∧ Utf8.count hay < unlimited ∧
      ((hay.hitsAt (.substring .empty)).toList = [0, 1, 3].map fun b => (b, hay.slice b b)) ∧
      hay.count (.substring .empty) = 3 ∧
      (hay.replace (.substring .empty) new).toList = [0x2D, 0x61, 0x2D, 0xC3, 0xA9, 0x2D] := by
  intro hay new
  have wellFormedHay : wellFormed hay = true := by decide
  have few : Utf8.count hay < unlimited := by decide
  have empty : Text.empty.size = 0 := rfl
  obtain ⟨cs, spelled, _, _, _, _, ⟨located, _⟩, ⟨number, _⟩, _, replaced⟩ :=
    empty_needle_matches_boundaries wellFormedHay empty
  have known : Spells [0x61, 0xE9] hay.toList := ⟨by simp [isScalar], by decide⟩
  obtain rfl := spelled.unique known
  have boundaries : hay.boundaries = [0, 1, 3] := by decide
  rw [boundaries] at located
  exact ⟨wellFormedHay, empty, few, located, number.trans (by decide),
    (replaced few new).trans (by decide)⟩

end Text
end TextSearch
