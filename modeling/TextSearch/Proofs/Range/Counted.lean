import TextSearch.Proofs.Range.Pieces

/-!
A counted split is the whole split cut short: before the limit the pieces are the same, and the last
piece allowed goes on to the other end of the text, whatever matches are inside it.
-/
namespace TextSearch
open Utf8

namespace CountedSplit
variable {s : Split} {pull : Split → Option Text × Split}

theorem toList_of_zero (s : Split) : (pieces pull).toList ⟨s, 0⟩ = [] :=
  FiniteStream.toList_of_none (t := ⟨s, 0⟩) rfl

theorem toList_of_one (s : Split) : (pieces pull).toList ⟨s, 1⟩ = s.finish.1.toList := by
  have told : (pieces pull).next ⟨s, 1⟩ = (s.finish.1, ⟨s.finish.2, 0⟩) := rfl
  cases answer : s.finish.1 with
  | none =>
    rw [answer] at told
    exact FiniteStream.toList_of_none told
  | some piece =>
    rw [answer] at told
    rw [FiniteStream.toList_of_some told, toList_of_zero, Option.toList_some]

theorem toList_of_pull {piece : Text} {rest : Split} {limit : Nat}
    (answer : pull s = (some piece, rest)) :
    (pieces pull).toList ⟨s, limit + 2⟩ = piece :: (pieces pull).toList ⟨rest, limit + 1⟩ := by
  apply FiniteStream.toList_of_some
  show ((pull s).1, (⟨(pull s).2, limit + 1⟩ : CountedSplit)) = _
  rw [answer]

theorem toList_of_finished {limit : Nat} (ended : s.finished = true) (dry : (pull s).1 = none) :
    (pieces pull).toList ⟨s, limit + 1⟩ = [] := by
  cases limit with
  | zero => rw [toList_of_one, Split.finish, if_pos ended, Option.toList_none]
  | succ limit => exact FiniteStream.toList_of_none (Prod.ext dry rfl)

section Drained
variable (going : s.finished = false) (keep : s.keepEmptyTail = true)
include going keep

theorem finish_of_keep :
    s.finish = (some (s.haystack.slice s.start s.stop), { s with finished := true }) := by
  simp [Split.finish, going, keep]

theorem toList_pieces (limit : Nat) : (pieces Split.next).toList ⟨s, limit + 1⟩ =
    s.haystack.cut true s.start s.stop ((Searcher.hits.toList s.searcher).take limit) := by
  induction limit generalizing s with
  | zero =>
    rw [toList_of_one, finish_of_keep going keep]
    rfl
  | succ limit ih =>
    generalize drained : Searcher.hits.toList s.searcher = ms
    cases ms with
    | nil =>
      obtain ⟨rest, answer⟩ := FiniteStream.next_of_toList_nil drained
      have told := Split.next_of_no_hit going answer
      rw [keep] at told
      rw [toList_of_pull told, toList_of_finished rfl]
      · rfl
      · rw [(Split.nexts_of_finished rfl).1]
    | cons m ms =>
      obtain ⟨rest, answer, later⟩ := FiniteStream.next_of_toList_cons drained
      have same : Split.haystack { s with searcher := rest, start := m.stop } = s.haystack :=
        Split.haystack_of_hits answer
      rw [toList_of_pull (Split.next_of_hit going answer),
        ih (s := { s with searcher := rest, start := m.stop }) going keep, same, later]
      rfl

theorem toList_piecesBack (limit : Nat) : (pieces Split.nextBack).toList ⟨s, limit + 1⟩ =
    (s.haystack.cut true s.start s.stop
      ((Searcher.hitsBack.toList s.searcher).take limit).reverse).reverse := by
  induction limit generalizing s with
  | zero =>
    rw [toList_of_one, finish_of_keep going keep]
    rfl
  | succ limit ih =>
    generalize drained : Searcher.hitsBack.toList s.searcher = ms
    cases ms with
    | nil =>
      obtain ⟨rest, answer⟩ := FiniteStream.next_of_toList_nil drained
      have told := (Split.nextBack_of_keep going keep).trans (Split.pullBack_of_no_hit answer)
      rw [toList_of_pull told, toList_of_finished rfl]
      · rfl
      · rw [(Split.nexts_of_finished rfl).2]
    | cons m ms =>
      obtain ⟨rest, answer, later⟩ := FiniteStream.next_of_toList_cons drained
      have told := (Split.nextBack_of_keep going keep).trans (Split.pullBack_of_hit answer)
      have same : Split.haystack { s with searcher := rest, stop := m.start } = s.haystack :=
        Split.haystack_of_hitsBack answer
      rw [toList_of_pull told, ih (s := { s with searcher := rest, stop := m.start }) going keep,
        same, later, List.take_succ_cons, Text.reverse_cut_cons]

end Drained
end CountedSplit

namespace Text
variable {hay needle : Text} {p : Pattern}

section Lists
variable (hay : Text) (p : Pattern) (limit : Nat)

theorem toList_splitAtMost : (hay.splitAtMost (limit + 1) p).toList =
    hay.cut true 0 hay.size ((Searcher.hits.toList (.start hay p)).take limit) := by
  have drained := CountedSplit.toList_pieces (s := .ofText hay p true) rfl rfl limit
  rwa [Split.haystack_ofText] at drained

theorem toList_rsplitAtMost : (hay.rsplitAtMost (limit + 1) p).toList =
    (hay.cut true 0 hay.size ((Searcher.hitsBack.toList (.start hay p)).take limit).reverse).reverse := by
  have drained := CountedSplit.toList_piecesBack (s := .ofText hay p true) rfl rfl limit
  rwa [Split.haystack_ofText] at drained

theorem splitsAtMost_zero :
    (hay.splitAtMost 0 p).toList = [] ∧ (hay.rsplitAtMost 0 p).toList = [] :=
  ⟨CountedSplit.toList_of_zero _, CountedSplit.toList_of_zero _⟩

end Lists

/-- At most `limit` of the pieces `whole` are left. If there are more, the last one left is replaced by
    `rest`, which is told from where to where that piece goes in the text. -/
def CutShort (hay : Text) (rest : Nat → Nat → Text) (whole : List Text) (limit : Nat)
    (short : List Text) : Prop :=
  (whole.length ≤ limit → short = whole) ∧
  (limit < whole.length → ∃ a b, a ≤ b ∧ b ≤ hay.size ∧ whole[limit - 1]? = some (hay.slice a b) ∧
    short = whole.take (limit - 1) ++ [rest a b])

section CutShort
variable {ms : List Step} {limit : Nat}

theorem cutShort_cut (ordered : Ordered 0 ms hay.size) (limit : Nat) :
    CutShort hay (fun a _ => hay.slice a hay.size) (hay.cut true 0 hay.size ms) (limit + 1)
      (hay.cut true 0 hay.size (ms.take limit)) := by
  constructor
  · intro enough
    rw [length_cut] at enough
    rw [List.take_of_length_le (Nat.le_of_succ_le_succ enough)]
  · intro few
    rw [length_cut] at few
    exact cut_take ordered (Nat.le_of_lt (Nat.lt_of_succ_lt_succ few))

theorem cutShort_reverse_cut (ordered : Ordered 0 ms.reverse hay.size) (limit : Nat) :
    CutShort hay (fun _ b => hay.slice 0 b) (hay.cut true 0 hay.size ms.reverse).reverse (limit + 1)
      (hay.cut true 0 hay.size (ms.take limit).reverse).reverse := by
  constructor
  · intro enough
    rw [List.length_reverse, length_cut, List.length_reverse] at enough
    rw [List.take_of_length_le (Nat.le_of_succ_le_succ enough)]
  · intro few
    rw [List.length_reverse, length_cut, List.length_reverse] at few
    exact reverse_cut_take ordered (Nat.le_of_lt (Nat.lt_of_succ_lt_succ few))

end CutShort

/-- A split of at most `limit` pieces is the whole split if that has no more of them. Otherwise the last
    piece allowed goes on to the end of the text, or to its front if the split comes from the back. The
    pieces of a non-empty needle, with the needle between them, are the text again. -/
theorem counted_splits_cut_short {hay : Text} (wellFormedHay : wellFormed hay = true) (p : Pattern) :
    ((hay.splitAtMost 0 p).toList = [] ∧ (hay.rsplitAtMost 0 p).toList = []) ∧
    ∀ limit, 0 < limit →
      CutShort hay (fun a _ => hay.slice a hay.size) (hay.split p).toList limit
        (hay.splitAtMost limit p).toList ∧
      CutShort hay (fun _ b => hay.slice 0 b) (hay.rsplit p).toList limit
        (hay.rsplitAtMost limit p).toList ∧
      ∀ needle, p = .substring needle → 0 < needle.size →
        (join ((hay.splitAtMost limit p).toList.intersperse needle)).SameBytes hay ∧
        (join ((hay.rsplitAtMost limit p).toList.reverse.intersperse needle)).SameBytes hay := by
  refine ⟨splitsAtMost_zero hay p, ?_⟩
  intro limit positive
  obtain ⟨limit, rfl⟩ : ∃ n, limit = n + 1 := ⟨limit - 1, by omega⟩
  obtain ⟨forth, back⟩ := Searcher.ordered_hits wellFormedHay p
  have whole := toList_rsplit hay p
  rw [List.reverse_eq_iff] at whole
  rw [toList_split, toList_splitAtMost, toList_rsplitAtMost, whole]
  refine ⟨cutShort_cut forth limit, cutShort_reverse_cut back limit, ?_⟩
  rintro needle rfl nonempty
  obtain ⟨parted, partedBack⟩ := Searcher.parted_of_nonempty hay nonempty
  rw [List.reverse_reverse]
  refine ⟨intersperse_rebuilds (parted.sublist (List.take_sublist _ _)), ?_⟩
  exact intersperse_rebuilds (partedBack.sublist (List.reverse_sublist.mpr (List.take_sublist _ _)))

theorem counted_splits_cut_short_of_overlap :
    let hay := Text.ofList [0x61, 0x61, 0x61, 0x61, 0x62]
    let needle := Text.ofList [0x61, 0x61]
    wellFormed hay = true ∧ 0 < 2 ∧ 0 < needle.size ∧
      CutShort hay (fun _ b => hay.slice 0 b) (hay.rsplit (.substring needle)).toList 2
        (hay.rsplitAtMost 2 (.substring needle)).toList ∧
      (join ((hay.splitAtMost 2 (.substring needle)).toList.intersperse needle)).toList =
        [0x61, 0x61, 0x61, 0x61, 0x62] := by
  intro hay needle
  have wellFormedHay : wellFormed hay = true := by decide
  have nonempty : 0 < needle.size := by decide
  have bytes : hay.toList = [0x61, 0x61, 0x61, 0x61, 0x62] := toList_ofList _
  obtain ⟨_, counted⟩ := counted_splits_cut_short wellFormedHay (.substring needle)
  obtain ⟨_, back, joined⟩ := counted 2 (by decide)
  exact ⟨wellFormedHay, by decide, nonempty, back, (joined needle rfl nonempty).1.trans bytes⟩

end Text
end TextSearch
