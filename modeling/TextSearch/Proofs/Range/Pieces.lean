import TextSearch.Range.Hits
import TextSearch.Range.Split
import TextSearch.Proofs.Find
import TextSearch.Proofs.Utf8.Roundtrip

/-!
The pieces of a split are the stretches beside the matches, from either end. Taken in turn with the
matches they are the text again, and no match of its own is left in a piece.
-/
namespace TextSearch
open Utf8

namespace Split
variable {s : Split} {m : Step} {rest : Searcher}

theorem haystack_of_hits {answer : Option Step}
    (told : Searcher.hits.next s.searcher = (answer, rest)) : rest.haystack = s.haystack := by
  have same := Searcher.hits_haystack s.searcher
  rwa [told] at same

theorem haystack_of_hitsBack {answer : Option Step}
    (told : Searcher.hitsBack.next s.searcher = (answer, rest)) : rest.haystack = s.haystack := by
  have same := Searcher.hitsBack_haystack s.searcher
  rwa [told] at same

theorem nexts_of_finished (ended : s.finished = true) :
    s.next = (none, s) ∧ s.nextBack = (none, s) := by
  simp [next, nextBack, ended]

section Calls
variable (going : s.finished = false)

include going in
theorem next_of_hit (answer : Searcher.hits.next s.searcher = (some m, rest)) :
    s.next = (some (s.haystack.slice s.start m.start),
      { s with searcher := rest, start := m.stop }) := by
  simp [next, going, answer]

include going in
theorem next_of_no_hit (answer : Searcher.hits.next s.searcher = (none, rest)) :
    s.next = (if !s.keepEmptyTail && s.stop == s.start then none
      else some (s.haystack.slice s.start s.stop), { s with searcher := rest, finished := true }) := by
  have same := haystack_of_hits answer
  simp only [next, finish, going, answer, haystack] at same ⊢
  rw [same]
  cases !s.keepEmptyTail && s.stop == s.start <;> rfl

theorem pullBack_of_hit (answer : Searcher.hitsBack.next s.searcher = (some m, rest)) :
    s.pullBack = (some (s.haystack.slice m.stop s.stop),
      { s with searcher := rest, stop := m.start }) := by
  simp [pullBack, answer]

theorem pullBack_of_no_hit (answer : Searcher.hitsBack.next s.searcher = (none, rest)) :
    s.pullBack = (some (s.haystack.slice s.start s.stop),
      { s with searcher := rest, finished := true }) := by
  simp [pullBack, answer]

include going in
theorem nextBack_of_keep (keep : s.keepEmptyTail = true) : s.nextBack = s.pullBack := by
  simp [nextBack, going, keep]

end Calls

theorem toList_of_finished (ended : s.finished = true) :
    pieces.toList s = [] ∧ piecesBack.toList s = [] := by
  obtain ⟨forth, back⟩ := nexts_of_finished ended
  exact ⟨FiniteStream.toList_of_none forth, FiniteStream.toList_of_none back⟩

theorem toList_pieces (going : s.finished = false) : pieces.toList s =
    s.haystack.cut s.keepEmptyTail s.start s.stop (Searcher.hits.toList s.searcher) := by
  -- by induction on the matches the searcher still finds: each call takes the first of them
  generalize drained : Searcher.hits.toList s.searcher = ms
  induction ms generalizing s with
  | nil =>
    obtain ⟨rest, answer⟩ := FiniteStream.next_of_toList_nil drained
    have told : pieces.next s = _ := next_of_no_hit going answer
    rw [Text.cut]
    by_cases dropped : (!s.keepEmptyTail && s.stop == s.start) = true
    · rw [if_pos dropped] at told ⊢
      exact FiniteStream.toList_of_none told
    · rw [if_neg dropped] at told ⊢
      rw [FiniteStream.toList_of_some told, (toList_of_finished rfl).1]
  | cons m ms ih =>
    obtain ⟨rest, answer, later⟩ := FiniteStream.next_of_toList_cons drained
    have told : pieces.next s = _ := next_of_hit going answer
    have same : Split.haystack { s with searcher := rest, start := m.stop } = s.haystack :=
      haystack_of_hits answer
    rw [FiniteStream.toList_of_some told,
      ih (s := { s with searcher := rest, start := m.stop }) going later, same]
    rfl

theorem toList_piecesBack (going : s.finished = false) (keep : s.keepEmptyTail = true) :
    (piecesBack.toList s).reverse =
      s.haystack.cut true s.start s.stop (Searcher.hitsBack.toList s.searcher).reverse := by
  generalize drained : Searcher.hitsBack.toList s.searcher = ms
  induction ms generalizing s with
  | nil =>
    obtain ⟨rest, answer⟩ := FiniteStream.next_of_toList_nil drained
    have told : piecesBack.next s = _ :=
      (nextBack_of_keep going keep).trans (pullBack_of_no_hit answer)
    rw [FiniteStream.toList_of_some told, (toList_of_finished rfl).2]
    rfl
  | cons m ms ih =>
    obtain ⟨rest, answer, later⟩ := FiniteStream.next_of_toList_cons drained
    have told : piecesBack.next s = _ :=
      (nextBack_of_keep going keep).trans (pullBack_of_hit answer)
    have same : Split.haystack { s with searcher := rest, stop := m.start } = s.haystack :=
      haystack_of_hitsBack answer
    rw [FiniteStream.toList_of_some told, List.reverse_cons, List.reverse_cons, Text.cut_concat,
      ih (s := { s with searcher := rest, stop := m.start }) going keep later, same]
    rfl

theorem haystack_ofText (hay : Text) (p : Pattern) (keep : Bool) :
    (ofText hay p keep).haystack = hay :=
  Searcher.haystack_start hay p

end Split

namespace Text
variable {hay needle piece : Text} {m : Matcher} {i j : Nat} {ms : List Step}

section Lists
variable (hay : Text) (p : Pattern)

theorem toList_split : (hay.split p).toList =
    hay.cut true 0 hay.size (Searcher.hits.toList (.start hay p)) := by
  have drained := Split.toList_pieces (s := .ofText hay p true) rfl
  rwa [Split.haystack_ofText] at drained

theorem toList_rsplit : (hay.rsplit p).toList.reverse =
    hay.cut true 0 hay.size (Searcher.hitsBack.toList (.start hay p)).reverse := by
  have drained := Split.toList_piecesBack (s := .ofText hay p true) rfl rfl
  rwa [Split.haystack_ofText] at drained

theorem toList_hits_map {α : Type} (tell : Text → Step → α) :
    (Searcher.hits.map fun s => tell s.haystack).toList (.start hay p) =
      (Searcher.hits.toList (.start hay p)).map (tell hay) :=
  FiniteStream.toList_map (P := fun s => s.haystack = hay)
    (fun s same => (Searcher.hits_haystack s).trans same) (fun s m same => by rw [same])
    (Searcher.haystack_start hay p)

theorem toList_hitsBack_map {α : Type} (tell : Text → Step → α) :
    (Searcher.hitsBack.map fun s => tell s.haystack).toList (.start hay p) =
      (Searcher.hitsBack.toList (.start hay p)).map (tell hay) :=
  FiniteStream.toList_map (P := fun s => s.haystack = hay)
    (fun s same => (Searcher.hitsBack_haystack s).trans same) (fun s m same => by rw [same])
    (Searcher.haystack_start hay p)

theorem toList_hits : (hay.hits p).toList =
    (Searcher.hits.toList (.start hay p)).map fun m => hay.slice m.start m.stop :=
  toList_hits_map hay p fun t m => t.slice m.start m.stop

theorem toList_rhits : (hay.rhits p).toList =
    (Searcher.hitsBack.toList (.start hay p)).map fun m => hay.slice m.start m.stop :=
  toList_hitsBack_map hay p fun t m => t.slice m.start m.stop

theorem toList_hitsAt : (hay.hitsAt p).toList =
    (Searcher.hits.toList (.start hay p)).map fun m => (m.start, hay.slice m.start m.stop) :=
  toList_hits_map hay p fun t m => (m.start, t.slice m.start m.stop)

theorem toList_rhitsAt : (hay.rhitsAt p).toList =
    (Searcher.hitsBack.toList (.start hay p)).map fun m => (m.start, hay.slice m.start m.stop) :=
  toList_hitsBack_map hay p fun t m => (m.start, t.slice m.start m.stop)

theorem count_eq_length : hay.count p = (Searcher.hits.toList (.start hay p)).length :=
  FiniteStream.count_eq_length _ _

theorem count_hits : (hay.hits p).count = hay.count p := by
  have number : (hay.hits p).count = (hay.hits p).toList.length := FiniteStream.count_eq_length _ _
  rw [number, toList_hits, List.length_map, count_eq_length]

theorem count_rhits : (hay.rhits p).count = (Searcher.hitsBack.toList (.start hay p)).length := by
  have number : (hay.rhits p).count = (hay.rhits p).toList.length :=
    FiniteStream.count_eq_length _ _
  rw [number, toList_rhits, List.length_map]

theorem length_split : (hay.split p).toList.length = hay.count p + 1 := by
  rw [toList_split, length_cut, count_eq_length]

theorem length_rsplit : (hay.rsplit p).toList.length = (hay.rhits p).count + 1 := by
  rw [← List.length_reverse, toList_rsplit, length_cut, List.length_reverse, count_rhits]

end Lists

theorem rebuild_hay {hit gap : Nat → Nat → Prop} (shown : Step → Text)
    (same : ∀ m ∈ ms, (shown m).SameBytes (hay.slice m.start m.stop))
    (parted : Parted hit gap 0 ms hay.size) :
    (join (alternate (hay.cut true 0 hay.size ms) (ms.map shown))).SameBytes hay := by
  have rebuilt := rebuild shown same parted
  rwa [slice_self] at rebuilt

theorem intersperse_rebuilds {gap : Nat → Nat → Prop}
    (parted : Parted (Occurrence needle hay) gap 0 ms hay.size) :
    (join ((hay.cut true 0 hay.size ms).intersperse needle)).SameBytes hay := by
  rw [intersperse_cut]
  refine rebuild_hay (fun _ => needle) ?_ parted
  intro m member
  obtain ⟨occurs, ends⟩ := parted.hit_of_mem m member
  rw [ends]
  exact (slice_of_occursAt occurs).symm

theorem pieces_beside_occurrences
    (parted : Parted (Occurrence needle hay) (Clear needle hay) 0 ms hay.size) :
    ∀ piece ∈ hay.cut true 0 hay.size ms, ∀ i, ¬ OccursAt needle piece i := by
  intro piece member i within
  obtain ⟨a, b, le, inside, clear, rfl⟩ := mem_cut parted member
  obtain ⟨occurs, ends⟩ := (occursAt_slice le inside).mp within
  exact clear (a + i) (Nat.le_add_right a i) ends occurs

theorem contains_of_no_occurrence (none_left : ∀ i, ¬ OccursAt needle piece i) :
    piece.contains (.substring needle) = false := by
  rw [Bool.eq_false_iff, ne_eq, contains_substring_iff, not_exists]
  exact none_left

theorem contains_of_refused (refused : Searcher.Refused m hay 0 hay.size)
    (wellFormedHay : wellFormed hay = true) : hay.contains (.character m) = false := by
  obtain ⟨ms, parted, first, _⟩ := matches_of_character wellFormedHay m
  rw [contains, first]
  cases parted with
  | nil => rfl
  | cons _ _ _ matched _ =>
    have range := matched.range
    exact absurd matched (refused.excludes (Nat.zero_le _) (by omega))

theorem pieces_beside_characters
    (parted : Parted (Searcher.Accepted m hay) (Searcher.Refused m hay) 0 ms hay.size) :
    ∀ piece ∈ hay.cut true 0 hay.size ms, piece.contains (.character m) = false ∧
      ∃ cs, piece.runes = .ok cs ∧ ∀ c ∈ cs, m.accepts c = false := by
  intro piece member
  obtain ⟨a, b, _, _, ⟨cs, run, refused⟩, rfl⟩ := mem_cut parted member
  have spelled := run.spells
  have whole : Run (hay.slice a b) 0 cs (hay.slice a b).size := Run.of_spells spelled (Nat.zero_le _)
  exact ⟨contains_of_refused ⟨cs, whole, refused⟩ (wellFormedBytes_iff.mpr ⟨cs, spelled⟩),
    cs, (runes_of_spells spelled).2, refused⟩

/-- The pieces of a split and the matches, in turn, are the text again, and so are those of a split
    from the back, read in the order of the text. There is always one piece more than there are
    matches. What is split at occurs nowhere in a piece: neither a non-empty substring, at whatever
    offset, nor a character that is accepted. -/
theorem split_rebuilds {hay : Text} (wellFormedHay : wellFormed hay = true) (p : Pattern) :
    let pieces := (hay.split p).toList
    let piecesBack := (hay.rsplit p).toList.reverse
    (pieces.length = hay.count p + 1 ∧ (hay.hits p).count = hay.count p ∧
      (join (alternate pieces (hay.hits p).toList)).SameBytes hay) ∧
    (piecesBack.length = (hay.rhits p).count + 1 ∧
      (join (alternate piecesBack (hay.rhits p).toList.reverse)).SameBytes hay) ∧
    match p with
    | .substring needle => 0 < needle.size →
      (join (pieces.intersperse needle)).SameBytes hay ∧
      (join (piecesBack.intersperse needle)).SameBytes hay ∧
      ∀ piece, piece ∈ pieces ∨ piece ∈ piecesBack →
        piece.contains p = false ∧ ∀ i, ¬ OccursAt needle piece i
    | .character m => ∀ piece, piece ∈ pieces ∨ piece ∈ piecesBack →
      piece.contains p = false ∧ ∃ cs, piece.runes = .ok cs ∧ ∀ c ∈ cs, m.accepts c = false := by
  intro pieces piecesBack
  obtain ⟨forth, back⟩ := Searcher.ordered_hits wellFormedHay p
  refine ⟨⟨length_split hay p, count_hits hay p, ?_⟩, ⟨?_, ?_⟩, ?_⟩
  · have rebuilt := rebuild_hay _ (fun _ _ => rfl) forth
    rwa [← toList_split, ← toList_hits] at rebuilt
  · rw [List.length_reverse, length_rsplit]
  · have rebuilt := rebuild_hay _ (fun _ _ => rfl) back
    rwa [← toList_rsplit, List.map_reverse, ← toList_rhits] at rebuilt
  · have forth := toList_split hay p
    have back := toList_rsplit hay p
    cases p with
    | substring needle =>
      intro nonempty
      obtain ⟨parted, partedBack⟩ := Searcher.parted_of_nonempty hay nonempty
      have joined := intersperse_rebuilds parted
      have joinedBack := intersperse_rebuilds partedBack
      have clear := pieces_beside_occurrences parted
      have clearBack := pieces_beside_occurrences partedBack
      rw [← forth] at joined clear
      rw [← back] at joinedBack clearBack
      refine ⟨joined, joinedBack, ?_⟩
      intro piece member
      have none_left : ∀ i, ¬ OccursAt needle piece i := by
        rcases member with member | member
        · exact clear piece member
        · exact clearBack piece member
      exact ⟨contains_of_no_occurrence none_left, none_left⟩
    | character m =>
      obtain ⟨parted, same⟩ := Searcher.parted_of_character wellFormedHay m
      rw [same, List.reverse_reverse, ← forth] at back
      have clear := pieces_beside_characters parted
      rw [← forth] at clear
      rintro piece (member | member)
      · exact clear piece member
      · exact clear piece (back ▸ member)

theorem split_rebuilds_of_overlap :
    let hay := Text.ofList [0x61, 0x61, 0x61, 0x62]
    let needle := Text.ofList [0x61, 0x61]
    wellFormed hay = true ∧ 0 < needle.size ∧
      (join ((hay.split (.substring needle)).toList.intersperse needle)).toList =
        [0x61, 0x61, 0x61, 0x62] ∧
      (join ((hay.rsplit (.substring needle)).toList.reverse.intersperse needle)).toList =
        [0x61, 0x61, 0x61, 0x62] ∧
      ∀ piece, piece ∈ (hay.split (.substring needle)).toList ∨
        piece ∈ (hay.rsplit (.substring needle)).toList.reverse →
        ∀ i, ¬ OccursAt needle piece i := by
  intro hay needle
  have wellFormedHay : wellFormed hay = true := by decide
  have nonempty : 0 < needle.size := by decide
  have bytes : hay.toList = [0x61, 0x61, 0x61, 0x62] := toList_ofList _
  obtain ⟨_, _, beside⟩ := split_rebuilds wellFormedHay (.substring needle)
  obtain ⟨joined, joinedBack, clear⟩ := beside nonempty
  refine ⟨wellFormedHay, nonempty, joined.trans bytes, joinedBack.trans bytes, ?_⟩
  intro piece member
  exact (clear piece member).2

end Text
end TextSearch
