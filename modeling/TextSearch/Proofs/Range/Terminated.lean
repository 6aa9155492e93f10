import TextSearch.Proofs.Range.BothEnds

/-!
Terminated splits, drained from either end. From the front the empty tail is dropped when it is reached;
from the back it comes first and is passed over, and the rest is the whole split from there.
-/
namespace TextSearch
open Utf8

namespace Split
variable {s : Split}

def dropEmptyHead : List Text → List Text
  | [] => []
  | piece :: rest => if piece.isEmpty then rest else piece :: rest

theorem exists_pullBack (s : Split) : ∃ piece s', s.pullBack = (some piece, s') ∧
    s'.keepEmptyTail = s.keepEmptyTail := by
  rcases answer : Searcher.hitsBack.next s.searcher with ⟨_ | m, rest⟩
  · exact ⟨_, _, pullBack_of_no_hit answer, rfl⟩
  · exact ⟨_, _, pullBack_of_hit answer, rfl⟩

theorem toList_piecesBack_of_drop (going : s.finished = false) (drop : s.keepEmptyTail = false) :
    piecesBack.toList s = dropEmptyHead (piecesBack.toList s.settleTail) := by
  obtain ⟨piece, s', pulled, settled⟩ := exists_pullBack s.settleTail
  have whole : piecesBack.next s.settleTail = (some piece, s') :=
    (nextBack_of_keep (s := s.settleTail) going rfl).trans pulled
  have told : piecesBack.next s = _ := nextBack_of_drop going drop pulled
  rw [FiniteStream.toList_of_some whole, dropEmptyHead]
  by_cases empty : piece.isEmpty = true
  · rw [if_pos empty] at told ⊢
    cases ended : s'.finished with
    | true =>
      rw [if_pos ended] at told
      rw [FiniteStream.toList_of_none told, (toList_of_finished ended).2]
    | false =>
      -- the tail has been passed over, and what is left is split like any other text
      rw [ended, if_neg Bool.false_ne_true] at told
      exact FiniteStream.toList_of_next_eq (told.trans (nextBack_of_keep ended settled).symm)
  · rw [if_neg empty] at told ⊢
    exact FiniteStream.toList_of_some told

end Split

namespace Text
variable (hay : Text) (p : Pattern)

theorem toList_splitTerminator : (hay.splitTerminator p).toList =
    hay.cut false 0 hay.size (Searcher.hits.toList (.start hay p)) := by
  have drained := Split.toList_pieces (s := .ofText hay p false) rfl
  rwa [Split.haystack_ofText] at drained

theorem toList_rsplitTerminator :
    (hay.rsplitTerminator p).toList = Split.dropEmptyHead (hay.rsplit p).toList :=
  Split.toList_piecesBack_of_drop (s := .ofText hay p false) rfl rfl

section Tails
variable {hay p} {i j : Nat} {ms : List Step}

theorem exists_tail (ordered : Ordered i ms j) (inside : j ≤ hay.size) :
    ∃ pieces tail, hay.cut true i j ms = pieces ++ [tail] ∧
      hay.cut false i j ms = if tail.isEmpty then pieces else pieces ++ [tail] := by
  rcases List.eq_nil_or_concat ms with rfl | ⟨before, last, rfl⟩
  · refine ⟨[], hay.slice i j, rfl, ?_⟩
    rw [Split.isEmpty_slice ordered.le inside]
    rfl
  · rw [List.concat_eq_append] at ordered ⊢
    obtain ⟨_, _, _, behind, _⟩ := Parted.concat_iff.mp ordered
    refine ⟨hay.cut true i last.start before, hay.slice last.stop j, cut_concat .., ?_⟩
    rw [cut_concat, Split.isEmpty_slice behind inside, cut]
    cases j == last.stop with
    | true => exact List.append_nil _
    | false => rfl

theorem exists_tail_back (hay : Text) (p : Pattern) :
    ∃ tail pieces, (hay.rsplit p).toList = tail :: pieces := by
  have more := length_rsplit hay p
  exact List.exists_cons_of_length_eq_add_one more

theorem filter_isEmpty_of_dropped {pieces : List Text} {tail : Text} :
    (pieces ++ [tail]).filter isEmpty =
        (if tail.isEmpty then pieces else pieces ++ [tail]).filter isEmpty ++
          (if tail.isEmpty then [tail] else []) ∧
      (tail :: pieces).filter isEmpty = (if tail.isEmpty then [tail] else []) ++
        (if tail.isEmpty then pieces else tail :: pieces).filter isEmpty := by
  cases empty : tail.isEmpty <;> simp [empty]

end Tails

/-- A terminated split is the whole split, from the front but for its last piece and from the back but
    for its first, which are dropped if they are empty. All other empty pieces are kept: at the other
    end, between matches that touch, and beside the one that is dropped. -/
theorem terminated_splits_drop_tail {hay : Text} (wellFormedHay : wellFormed hay = true)
    (p : Pattern) :
    (∃ pieces tail, (hay.split p).toList = pieces ++ [tail] ∧
      (hay.splitTerminator p).toList = (if tail.isEmpty then pieces else pieces ++ [tail]) ∧
      (hay.split p).toList.filter isEmpty = (hay.splitTerminator p).toList.filter isEmpty ++
        if tail.isEmpty then [tail] else []) ∧
    ∃ tail pieces, (hay.rsplit p).toList = tail :: pieces ∧
      (hay.rsplitTerminator p).toList = (if tail.isEmpty then pieces else tail :: pieces) ∧
      (hay.rsplit p).toList.filter isEmpty = (if tail.isEmpty then [tail] else []) ++
        (hay.rsplitTerminator p).toList.filter isEmpty := by
  constructor
  · obtain ⟨forth, _⟩ := Searcher.ordered_hits wellFormedHay p
    have inside : hay.size ≤ hay.size := Nat.le_refl _
    obtain ⟨pieces, tail, whole, short⟩ := exists_tail forth inside
    rw [← toList_split] at whole
    rw [← toList_splitTerminator] at short
    refine ⟨pieces, tail, whole, short, ?_⟩
    rw [whole, short]
    exact filter_isEmpty_of_dropped.1
  · obtain ⟨tail, pieces, whole⟩ := exists_tail_back hay p
    have short := toList_rsplitTerminator hay p
    rw [whole] at short
    refine ⟨tail, pieces, whole, short, ?_⟩
    rw [whole, short]
    exact filter_isEmpty_of_dropped.2

theorem terminated_splits_drop_tail_of_commas :
    let hay := Text.ofList [0x2C, 0x61, 0x2C, 0x2C]
    let comma := Pattern.character (.rune 0x2C)
    wellFormed hay = true ∧
      ∃ pieces tail, (hay.split comma).toList = pieces ++ [tail] ∧
        (hay.splitTerminator comma).toList = if tail.isEmpty then pieces else pieces ++ [tail] := by
  intro hay comma
  have wellFormedHay : wellFormed hay = true := by decide
  obtain ⟨⟨pieces, tail, whole, short, _⟩, _⟩ := terminated_splits_drop_tail wellFormedHay comma
  exact ⟨wellFormedHay, pieces, tail, whole, short⟩

end Text
end TextSearch
