import TextSearch.Trim
import TextSearch.Proofs.EmptyNeedle
import TextSearch.Proofs.Text.Copies

/-!
Stripping a substring off an end of a text takes whole copies, one behind another, until what is left
does not show one more at that end. Where copies overlap, as `aa` does in `aaa`, each end is stripped
from its own side. The empty substring is never stripped.
-/
namespace TextSearch
open Utf8 Text

section Copies
variable {α : Type} {word rest rest' : List α} {j k : Nat}

theorem copies_before_unique (stops : ¬ word <+: rest) (stops' : ¬ word <+: rest')
    (same : (List.replicate j word).flatten ++ rest = (List.replicate k word).flatten ++ rest') :
    j = k ∧ rest = rest' := by
  induction j generalizing k with
  | zero =>
    cases k with
    | zero => simpa using same
    | succ k =>
      simp only [List.replicate_zero, List.flatten_nil, List.nil_append, List.replicate_succ,
        List.flatten_cons, List.append_assoc] at same
      exact absurd ⟨_, same.symm⟩ stops
  | succ j ih =>
    cases k with
    | zero =>
      simp only [List.replicate_zero, List.flatten_nil, List.nil_append, List.replicate_succ,
        List.flatten_cons, List.append_assoc] at same
      exact absurd ⟨_, same⟩ stops'
    | succ k =>
      simp only [List.replicate_succ, List.flatten_cons, List.append_assoc,
        List.append_cancel_left_eq] at same
      obtain ⟨rfl, left⟩ := ih same
      exact ⟨rfl, left⟩

theorem copies_behind_unique (stops : ¬ word <:+ rest) (stops' : ¬ word <:+ rest')
    (same : rest ++ (List.replicate j word).flatten = rest' ++ (List.replicate k word).flatten) :
    j = k ∧ rest = rest' := by
  have mirrored := congrArg List.reverse same
  simp only [List.reverse_append, List.reverse_flatten, List.map_replicate,
    List.reverse_replicate] at mirrored
  rw [← List.reverse_prefix] at stops stops'
  obtain ⟨number, left⟩ := copies_before_unique stops stops' mirrored
  exact ⟨number, List.reverse_inj.mp left⟩

end Copies

namespace Text
variable {needle hay rest rest' : Text} {i j : Nat}

/-- A text is copies of a needle, as many as there may be, and `rest` behind them, which does not
    begin with one more. -/
def CopiesBefore (needle hay rest : Text) : Prop :=
  (∃ k, hay.SameBytes (replicate k needle ++ rest)) ∧ ¬ needle.toList <+: rest.toList

def CopiesBehind (needle hay rest : Text) : Prop :=
  (∃ k, hay.SameBytes (rest ++ replicate k needle)) ∧ ¬ needle.toList <:+ rest.toList

theorem toList_replicate (k : Nat) (t : Text) :
    (replicate k t).toList = (List.replicate k t.toList).flatten := by
  simp [replicate, List.flatMap_def]

theorem CopiesBefore.unique (left : CopiesBefore needle hay rest)
    (right : CopiesBefore needle hay rest') : rest.SameBytes rest' := by
  obtain ⟨⟨j, taken⟩, stops⟩ := left
  obtain ⟨⟨k, taken'⟩, stops'⟩ := right
  simp only [SameBytes, toList_append, toList_replicate] at taken taken'
  exact (copies_before_unique stops stops' (taken.symm.trans taken')).2

theorem CopiesBehind.unique (left : CopiesBehind needle hay rest)
    (right : CopiesBehind needle hay rest') : rest.SameBytes rest' := by
  obtain ⟨⟨j, taken⟩, stops⟩ := left
  obtain ⟨⟨k, taken'⟩, stops'⟩ := right
  simp only [SameBytes, toList_append, toList_replicate] at taken taken'
  exact (copies_behind_unique stops stops' (taken.symm.trans taken')).2

theorem copiesBefore_iff (taken : CopiesBefore needle hay rest) :
    CopiesBefore needle hay rest' ↔ rest'.SameBytes rest := by
  constructor
  · intro other
    exact other.unique taken
  · intro same
    have bytes : rest'.toList = rest.toList := same
    simpa only [CopiesBefore, SameBytes, toList_append, bytes] using taken

theorem copiesBehind_iff (taken : CopiesBehind needle hay rest) :
    CopiesBehind needle hay rest' ↔ rest'.SameBytes rest := by
  constructor
  · intro other
    exact other.unique taken
  · intro same
    have bytes : rest'.toList = rest.toList := same
    simpa only [CopiesBehind, SameBytes, toList_append, bytes] using taken

section Offsets

theorem take_of_occursAt (occurs : OccursAt needle hay i) :
    hay.toList.take (i + needle.size) = hay.toList.take i ++ needle.toList := by
  rw [List.take_add, drop_of_occursAt occurs, ← length_toList needle, List.take_left]

theorem occursAt_of_begins (inside : i ≤ hay.size)
    (begins : needle.toList <+: (hay.slice i hay.size).toList) : OccursAt needle hay i := by
  obtain ⟨behind, bytes⟩ := begins
  rw [toList_slice, List.take_of_length_le (by simp)] at bytes
  exact occursAt_of_drop inside bytes.symm

theorem occursAt_of_ends (inside : j ≤ hay.size)
    (ends : needle.toList <:+ (hay.slice 0 j).toList) :
    needle.size ≤ j ∧ OccursAt needle hay (j - needle.size) := by
  obtain ⟨before, bytes⟩ := ends
  have sizes := congrArg List.length bytes
  simp only [List.length_append, length_toList, size_slice hay 0 inside] at sizes
  have whole := slice_append hay (Nat.zero_le j) inside
  rw [slice_self, ← bytes, List.append_assoc] at whole
  have start : j - needle.size = before.length := by omega
  have begins : hay.toList.drop (j - needle.size) =
      needle.toList ++ (hay.slice j hay.size).toList := by rw [← whole, start, List.drop_left]
  exact ⟨by omega, occursAt_of_drop (by omega) begins⟩

variable (nonempty : 0 < needle.size)
include nonempty

theorem behindCopies_spec (inside : i ≤ hay.size) :
    behindCopies needle hay i ≤ hay.size ∧ ¬ OccursAt needle hay (behindCopies needle hay i) ∧
      ∃ k, behindCopies needle hay i = i + k * needle.size ∧
        hay.toList.drop i = (replicate k needle).toList ++
          hay.toList.drop (behindCopies needle hay i) := by
  fun_induction behindCopies needle hay i with
  | case1 i copy ih =>
    obtain ⟨within, stops, k, offset, bytes⟩ := ih copy.2.1
    refine ⟨within, stops, k + 1, ?_, ?_⟩
    · rw [offset, Nat.add_one_mul]
      omega
    · rw [drop_of_occursAt copy.2, bytes]
      simp [toList_replicate, List.replicate_succ]
  | case2 i differs =>
    refine ⟨inside, fun occurs => differs ⟨nonempty, occurs⟩, 0, ?_, ?_⟩
    · omega
    · simp [toList_replicate]

theorem beforeCopies_spec (inside : j ≤ hay.size) :
    ¬ (needle.size ≤ beforeCopies needle hay j ∧
        OccursAt needle hay (beforeCopies needle hay j - needle.size)) ∧
      ∃ k, beforeCopies needle hay j + k * needle.size = j ∧
        hay.toList.take j = hay.toList.take (beforeCopies needle hay j) ++
          (replicate k needle).toList := by
  fun_induction beforeCopies needle hay j with
  | case1 j copy ih =>
    obtain ⟨stops, k, offset, bytes⟩ := ih (by omega)
    refine ⟨stops, k + 1, ?_, ?_⟩
    · rw [Nat.add_one_mul]
      omega
    · have last := take_of_occursAt copy.2.2
      rw [Nat.sub_add_cancel copy.2.1] at last
      rw [last, bytes]
      simp [toList_replicate, List.replicate_succ']
  | case2 j differs =>
    refine ⟨fun copy => differs ⟨nonempty, copy⟩, 0, ?_, ?_⟩
    · omega
    · simp [toList_replicate]

end Offsets

section Trims
variable (wellFormedHay : wellFormed hay = true) (wellFormedNeedle : wellFormed needle = true)
  (nonempty : 0 < needle.size)
include wellFormedHay wellFormedNeedle nonempty

theorem trimStartMatches_substring : hay.trimStartMatches (.substring needle) =
    hay.slice (behindCopies needle hay 0) hay.size := by
  have sweep := Searcher.steps_sweep (d := TwoWay.Needle.ofText needle nonempty) wellFormedHay
    wellFormedNeedle
  have first := sweep.firstMiss nonempty (start_scanning hay nonempty)
  have front : (Searcher.start hay (.substring needle)).front = 0 := by
    rw [Searcher.start_of_nonempty nonempty]
    rfl
  rw [front] at first
  exact congrArg (hay.slice · hay.size) first

theorem trimEndMatches_substring : hay.trimEndMatches (.substring needle) =
    hay.slice 0 (beforeCopies needle hay hay.size) := by
  have sweep := Searcher.stepsBack_sweep (d := TwoWay.Needle.ofText needle nonempty) wellFormedHay
    wellFormedNeedle
  have last := sweep.lastMiss nonempty (start_scanning hay nonempty)
  have back : (Searcher.start hay (.substring needle)).back = hay.size := by
    rw [Searcher.start_of_nonempty nonempty]
    rfl
  rw [back] at last
  exact congrArg (hay.slice 0) last

theorem trimStartMatches_copies :
    (∃ k, hay.trimStartMatches (.substring needle) = hay.slice (k * needle.size) hay.size) ∧
      CopiesBefore needle hay (hay.trimStartMatches (.substring needle)) := by
  obtain ⟨inside, stops, k, offset, bytes⟩ := behindCopies_spec nonempty (Nat.zero_le hay.size)
  rw [trimStartMatches_substring wellFormedHay wellFormedNeedle nonempty]
  refine ⟨⟨k, by rw [offset, Nat.zero_add]⟩, ⟨k, ?_⟩, ?_⟩
  · have behind : (hay.slice (behindCopies needle hay 0) hay.size).toList =
        hay.toList.drop (behindCopies needle hay 0) := by
      rw [toList_slice, List.take_of_length_le (by simp)]
    simpa [SameBytes, behind] using bytes
  · exact fun begins => stops (occursAt_of_begins inside begins)

theorem trimEndMatches_copies :
    (∃ k, hay.trimEndMatches (.substring needle) = hay.slice 0 (hay.size - k * needle.size)) ∧
      CopiesBehind needle hay (hay.trimEndMatches (.substring needle)) := by
  obtain ⟨stops, k, offset, bytes⟩ := beforeCopies_spec nonempty (Nat.le_refl hay.size)
  have inside : beforeCopies needle hay hay.size ≤ hay.size := by omega
  rw [trimEndMatches_substring wellFormedHay wellFormedNeedle nonempty]
  refine ⟨⟨k, by congr 1; omega⟩, ⟨k, ?_⟩, ?_⟩
  · have all : hay.toList.take hay.size = hay.toList := List.take_of_length_le (by simp)
    rw [all] at bytes
    simpa [SameBytes, toList_slice] using bytes
  · exact fun ends => stops (occursAt_of_ends inside ends)

end Trims

section EmptyNeedle
variable (wellFormedHay : wellFormed hay = true) (empty : needle.size = 0)
include wellFormedHay empty

theorem trims_of_empty : hay.trimStartMatches (.substring needle) = hay ∧
    hay.trimEndMatches (.substring needle) = hay := by
  obtain ⟨cs, spelled⟩ := wellFormedBytes_iff.mp wellFormedHay
  have run : Run hay 0 cs hay.size := Run.whole_iff.mpr spelled
  obtain ⟨forth, back⟩ := Searcher.toList_steps_of_empty empty spelled
  rw [boundaries_eq_offsetsFrom run, BoundarySearcher.reportsAt_offsetsFrom] at forth back
  constructor
  · have start : ((Searcher.misses.next (.start hay (.substring needle))).1.map Step.start).getD
        hay.size = 0 := by
      rw [FiniteStream.next_eq_head?, Searcher.misses, FiniteStream.toList_filter, forth]
      rcases run.cases_last with ⟨rfl, blank⟩ | ⟨ds, d, _, rfl, _⟩
      · exact blank.symm
      · cases ds <;> rfl
    rw [trimStartMatches, start, slice_self]
  · have stop : ((Searcher.missesBack.next (.start hay (.substring needle))).1.map Step.stop).getD
        0 = hay.size := by
      rw [FiniteStream.next_eq_head?, Searcher.missesBack, FiniteStream.toList_filter, back]
      rcases run.cases_last with ⟨rfl, blank⟩ | ⟨ds, d, j, rfl, others, last⟩
      · exact blank
      · rw [BoundarySearcher.reportsFrom_concat others, last.stop, List.reverse_append]
        rfl
    rw [trimEndMatches, stop, slice_self]

end EmptyNeedle

/-- What trimming a well-formed text by a non-empty substring leaves is the text without copies of the
    substring at that end, with no more of them there; of all texts only this one is. Trimming by the
    empty substring leaves the text as it is. -/
theorem trims_whole_copies {hay needle : Text} (wellFormedHay : wellFormed hay = true)
    (wellFormedNeedle : wellFormed needle = true) :
    let front := hay.trimStartMatches (.substring needle)
    let back := hay.trimEndMatches (.substring needle)
    (0 < needle.size →
      ((∃ k, front = hay.slice (k * needle.size) hay.size) ∧
        ∀ rest, CopiesBefore needle hay rest ↔ rest.SameBytes front) ∧
      (∃ k, back = hay.slice 0 (hay.size - k * needle.size)) ∧
        ∀ rest, CopiesBehind needle hay rest ↔ rest.SameBytes back) ∧
    (needle.size = 0 → front = hay ∧ back = hay) := by
  intro front back
  refine ⟨fun nonempty => ?_, trims_of_empty wellFormedHay⟩
  obtain ⟨cut, taken⟩ := trimStartMatches_copies wellFormedHay wellFormedNeedle nonempty
  obtain ⟨cutBack, takenBack⟩ := trimEndMatches_copies wellFormedHay wellFormedNeedle nonempty
  exact ⟨⟨cut, fun _ => copiesBefore_iff taken⟩, cutBack, fun _ => copiesBehind_iff takenBack⟩

theorem trims_whole_copies_of_overlap :
    let hay := Text.ofList [0x61, 0x61, 0x61, 0x62, 0x61, 0x61, 0x61]
    let needle := Text.ofList [0x61, 0x61]
    wellFormed hay = true ∧ wellFormed needle = true ∧ 0 < needle.size ∧ Text.empty.size = 0 ∧
      (hay.trimStartMatches (.substring needle)).toList = [0x61, 0x62, 0x61, 0x61, 0x61] ∧
      (hay.trimEndMatches (.substring needle)).toList = [0x61, 0x61, 0x61, 0x62, 0x61] ∧
      hay.trimStartMatches (.substring .empty) = hay := by
  intro hay needle
  have wellFormedHay : wellFormed hay = true := by decide
  have wellFormedNeedle : wellFormed needle = true := by decide
  have nonempty : 0 < needle.size := by decide
  obtain ⟨strips, _⟩ := trims_whole_copies wellFormedHay wellFormedNeedle
  obtain ⟨⟨_, front⟩, _, back⟩ := strips nonempty
  have left : CopiesBefore needle hay (.ofList [0x61, 0x62, 0x61, 0x61, 0x61]) := by
    refine ⟨⟨1, ?_⟩, ?_⟩
    · simp [SameBytes, toList_replicate, hay, needle]
    · decide
  have right : CopiesBehind needle hay (.ofList [0x61, 0x61, 0x61, 0x62, 0x61]) := by
    refine ⟨⟨1, ?_⟩, ?_⟩
    · simp [SameBytes, toList_replicate, hay, needle]
    · decide
  have empty : Text.empty.size = 0 := rfl
  have wellFormedEmpty : wellFormed .empty = true := by decide
  have kept := (trims_whole_copies wellFormedHay wellFormedEmpty).2 empty
  exact ⟨wellFormedHay, wellFormedNeedle, nonempty, empty,
    ((front _).mp left).symm.trans (toList_ofList _),
    ((back _).mp right).symm.trans (toList_ofList _), kept.1⟩

end Text
end TextSearch
