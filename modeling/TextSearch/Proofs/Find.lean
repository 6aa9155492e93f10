import Mathlib.Order.Bounds.Basic
import TextSearch.Find
import TextSearch.Proofs.Searcher.Matches

/-!
The questions about one pattern in one text have one answer between them: where the text, from some
boundary on, starts with a match.
-/
namespace TextSearch
open Utf8

def Pattern.WellFormed : Pattern → Prop
  | .character _ => True
  | .substring needle => wellFormed needle = true

namespace Text
variable {t hay needle : Text} {m : Matcher} {p : Pattern} {i j : Nat} {c : Rune} {cs : List Rune}

/-- The boundaries from which on the rest of the text starts with a match. -/
def starts (t : Text) (p : Pattern) : Set Nat :=
  {i | isBoundary t i = true ∧ (t.slice i t.size).startsWith p = true}

section Substrings

theorem find_substring (needle hay : Text) :
    hay.find (.substring needle) = TwoWay.findFirst needle hay := by
  by_cases nonempty : 0 < needle.size
  · rw [find, Searcher.start_of_nonempty nonempty, TwoWay.findFirst_of_nonempty nonempty]
    rfl
  · have empty : needle.size = 0 := by omega
    have first := FiniteStream.findNext_of_some Step.isFound
      (BoundarySearcher.next_at_boundary hay 0 hay.size true)
    rw [if_pos (by rfl)] at first
    rw [find, Searcher.start_of_empty empty, TwoWay.findFirst_of_empty empty]
    exact congrArg (fun answer => answer.1.map Step.start) first

theorem rfind_substring (needle hay : Text) :
    hay.rfind (.substring needle) = TwoWay.findLast needle hay := by
  by_cases nonempty : 0 < needle.size
  · rw [rfind, Searcher.start_of_nonempty nonempty, TwoWay.findLast_of_nonempty nonempty]
    rfl
  · have empty : needle.size = 0 := by omega
    have last := FiniteStream.findNext_of_some Step.isFound
      (BoundarySearcher.nextBack_at_boundary hay hay.size 0 true)
    rw [if_pos (by rfl)] at last
    rw [rfind, Searcher.start_of_empty empty, TwoWay.findLast_of_empty empty]
    exact congrArg (fun answer => answer.1.map Step.start) last

theorem contains_iff_find (t : Text) (p : Pattern) : t.contains p = true ↔ t.find p ≠ none := by
  rw [contains, find, Option.isSome_iff_ne_none, ne_eq, ne_eq, Option.map_eq_none_iff]

theorem contains_substring_iff : hay.contains (.substring needle) = true ↔
    ∃ i, OccursAt needle hay i := by
  rw [contains_iff_find, find_substring, ne_eq, TwoWay.findFirst_iff.2, not_forall]
  simp only [not_not]

section WellFormed
variable (wellFormedHay : wellFormed hay = true) (wellFormedNeedle : wellFormed needle = true)
include wellFormedHay wellFormedNeedle

theorem startsWith_substring_iff :
    hay.startsWith (.substring needle) = true ↔ OccursAt needle hay 0 := by
  simp only [startsWith, Bool.and_eq_true, decide_eq_true_eq, equalUpTo, agreeBelow_iff, OccursAt,
    Nat.zero_add]
  constructor
  · rintro ⟨⟨fits, _⟩, bytes⟩
    exact ⟨fits, bytes⟩
  · rintro ⟨fits, bytes⟩
    refine ⟨⟨fits, ?_⟩, bytes⟩
    by_cases nonempty : 0 < needle.size
    · have occurs : OccursAt needle hay 0 := ⟨by omega, by simpa using bytes⟩
      have ends := boundary_behind wellFormedNeedle nonempty wellFormedHay occurs
      rwa [Nat.zero_add] at ends
    · have empty : needle.size = 0 := by omega
      rw [empty]
      exact isBoundary_start

omit wellFormedHay in
theorem endsWith_substring_iff : hay.endsWith (.substring needle) = true ↔
    needle.size ≤ hay.size ∧ OccursAt needle hay (hay.size - needle.size) := by
  have slice : ∀ k, (hay.slice (hay.size - needle.size) hay.size).byteAt k =
      hay.byteAt (hay.size - needle.size + k) := by
    intro k
    simp only [byteAt, Text.slice, Nat.min_eq_left (Nat.sub_le _ _), Nat.add_assoc]
  simp only [endsWith, Bool.and_eq_true, decide_eq_true_eq, equalUpTo, agreeBelow_iff, slice]
  constructor
  · rintro ⟨⟨fits, _⟩, bytes⟩
    exact ⟨fits, by omega, bytes⟩
  · rintro ⟨fits, occurs⟩
    refine ⟨⟨fits, ?_⟩, occurs.2⟩
    by_cases nonempty : 0 < needle.size
    · exact boundary_before wellFormedNeedle nonempty occurs
    · have empty : needle.size = 0 := by omega
      rw [empty, Nat.sub_zero]
      exact isBoundary_end

theorem mem_starts_substring :
    i ∈ hay.starts (.substring needle) ↔ isBoundary hay i = true ∧ OccursAt needle hay i := by
  apply and_congr_right
  intro boundary
  have inside := isBoundary_le boundary
  rw [startsWith_substring_iff (wellFormed_behind wellFormedHay boundary) wellFormedNeedle,
    occursAt_slice inside (Nat.le_refl _), Nat.add_zero]
  exact and_iff_left_of_imp fun occurs => occurs.1

theorem isLeast_starts_of_leftmost (first : Leftmost needle hay 0 i) :
    IsLeast (hay.starts (.substring needle)) i := by
  have member := mem_starts_substring wellFormedHay wellFormedNeedle (i := i)
  refine ⟨member.mpr ⟨?_, first.2.1⟩, ?_⟩
  · by_cases nonempty : 0 < needle.size
    · exact boundary_before wellFormedNeedle nonempty first.2.1
    · have here : OccursAt needle hay 0 := (TwoWay.occursAt_of_empty (by omega)).mpr (Nat.zero_le _)
      rw [leftmost_unique first (leftmost_here here)]
      exact isBoundary_start
  · intro j also
    have occurs := ((mem_starts_substring wellFormedHay wellFormedNeedle).mp also).2
    by_contra before
    exact first.2.2 j (Nat.zero_le j) (by omega) occurs

theorem isGreatest_starts_of_rightmost (last : Rightmost needle hay hay.size i) :
    IsGreatest (hay.starts (.substring needle)) i := by
  have member := mem_starts_substring wellFormedHay wellFormedNeedle (i := i)
  refine ⟨member.mpr ⟨?_, last.2.1⟩, ?_⟩
  · by_cases nonempty : 0 < needle.size
    · exact boundary_before wellFormedNeedle nonempty last.2.1
    · have empty : needle.size = 0 := by omega
      have here := (TwoWay.occursAt_of_empty empty).mpr (Nat.le_refl hay.size)
      rw [rightmost_unique last (rightmost_here here (by omega))]
      exact isBoundary_end
  · intro j also
    have occurs := ((mem_starts_substring wellFormedHay wellFormedNeedle).mp also).2
    by_contra behind
    exact last.2.2 j (by omega) occurs.1 occurs

theorem starts_substring_eq_empty (nowhere : ∀ i, ¬ OccursAt needle hay i) :
    hay.starts (.substring needle) = ∅ := by
  apply Set.eq_empty_of_forall_notMem
  intro i member
  exact nowhere i ((mem_starts_substring wellFormedHay wellFormedNeedle).mp member).2

theorem find_outcome_of_substring :
    (∃ i, hay.find (.substring needle) = some i ∧ IsLeast (hay.starts (.substring needle)) i) ∨
      (hay.find (.substring needle) = none ∧ hay.starts (.substring needle) = ∅) := by
  rw [find_substring]
  cases answer : TwoWay.findFirst needle hay with
  | none =>
    have nowhere := TwoWay.findFirst_iff.2.mp answer
    exact Or.inr ⟨rfl, starts_substring_eq_empty wellFormedHay wellFormedNeedle nowhere⟩
  | some i =>
    have first := (TwoWay.findFirst_iff.1 i).mp answer
    exact Or.inl ⟨i, rfl, isLeast_starts_of_leftmost wellFormedHay wellFormedNeedle first⟩

theorem rfind_outcome_of_substring :
    (∃ i, hay.rfind (.substring needle) = some i ∧
        IsGreatest (hay.starts (.substring needle)) i) ∨
      (hay.rfind (.substring needle) = none ∧ hay.starts (.substring needle) = ∅) := by
  rw [rfind_substring]
  cases answer : TwoWay.findLast needle hay with
  | none =>
    have nowhere := TwoWay.findLast_iff.2.mp answer
    exact Or.inr ⟨rfl, starts_substring_eq_empty wellFormedHay wellFormedNeedle nowhere⟩
  | some i =>
    have last := (TwoWay.findLast_iff.1 i).mp answer
    exact Or.inl ⟨i, rfl, isGreatest_starts_of_rightmost wellFormedHay wellFormedNeedle last⟩

omit wellFormedHay wellFormedNeedle in
theorem start_scanning (hay : Text) (nonempty : 0 < needle.size) :
    Searcher.Scanning (TwoWay.Needle.ofText needle nonempty) hay
      (.start hay (.substring needle)) :=
  ⟨_, Searcher.start_of_nonempty nonempty, TwoWay.Scan.start_aligned _ hay⟩

theorem startsWith_iff_first_step : hay.startsWith (.substring needle) = true ↔
    ∃ stop, (Searcher.steps.next (.start hay (.substring needle))).1 = some (.found 0 stop) := by
  rw [startsWith_substring_iff wellFormedHay wellFormedNeedle]
  by_cases nonempty : 0 < needle.size
  · have started := start_scanning hay nonempty
    have sweep := Searcher.steps_sweep (d := TwoWay.Needle.ofText needle nonempty) wellFormedHay
      wellFormedNeedle
    have here := sweep.found_here_iff started nonempty
    rw [Searcher.start_of_nonempty nonempty] at here ⊢
    exact here.symm
  · have empty : needle.size = 0 := by omega
    rw [Searcher.start_of_empty empty]
    constructor
    · intro _
      exact ⟨0, rfl⟩
    · intro _
      exact (TwoWay.occursAt_of_empty empty).mpr (Nat.zero_le _)

theorem endsWith_iff_first_step : hay.endsWith (.substring needle) = true ↔
    ∃ start, (Searcher.stepsBack.next (.start hay (.substring needle))).1 =
      some (.found start hay.size) := by
  rw [endsWith_substring_iff wellFormedNeedle]
  by_cases nonempty : 0 < needle.size
  · have started := start_scanning hay nonempty
    have sweep := Searcher.stepsBack_sweep (d := TwoWay.Needle.ofText needle nonempty) wellFormedHay
      wellFormedNeedle
    have here := sweep.found_here_iff started nonempty
    rw [Searcher.start_of_nonempty nonempty] at here ⊢
    exact here.symm
  · have empty : needle.size = 0 := by omega
    rw [Searcher.start_of_empty empty]
    constructor
    · intro _
      exact ⟨hay.size, rfl⟩
    · intro _
      exact ⟨by omega, (TwoWay.occursAt_of_empty empty).mpr (by omega)⟩

omit wellFormedHay in
theorem endsWith_iff_rfind : hay.endsWith (.substring needle) = true ↔
    needle.size ≤ hay.size ∧ hay.rfind (.substring needle) = some (hay.size - needle.size) := by
  rw [endsWith_substring_iff wellFormedNeedle, rfind_substring, TwoWay.findLast_iff.1]
  apply and_congr_right
  intro fits
  constructor
  · intro occurs
    exact rightmost_here occurs (by omega)
  · intro last
    exact last.2.1

end WellFormed
end Substrings
section Characters

theorem startsWith_of_stands (stands : Stands t 0 c j) :
    t.startsWith (.character m) = m.accepts c := by
  have first : (Searcher.steps.next (.start t (.character m))).1 =
      some (CharacterSearcher.report (m.accepts c) 0 j) :=
    congrArg Prod.fst (CharacterSearcher.next_of_stands stands stands.inside)
  simp only [startsWith, first]
  cases m.accepts c <;> rfl

theorem endsWith_of_stands (stands : Stands t i c t.size) :
    t.endsWith (.character m) = m.accepts c := by
  have last : (Searcher.stepsBack.next (.start t (.character m))).1 =
      some (CharacterSearcher.report (m.accepts c) i t.size) :=
    congrArg Prod.fst (CharacterSearcher.nextBack_of_stands stands (Nat.zero_le i))
  simp only [endsWith, last]
  cases m.accepts c with
  | true => exact beq_self_eq_true t.size
  | false => rfl

theorem no_ends_of_empty (empty : t.size = 0) :
    t.startsWith (.character m) = false ∧ t.endsWith (.character m) = false := by
  have first : (Searcher.steps.next (.start t (.character m))).1 = none := by
    simp only [Searcher.start, CharacterSearcher.start, empty]
    show (CharacterSearcher.next ⟨t, m, 0, 0⟩).1 = none
    rw [CharacterSearcher.next_of_met]
  have last : (Searcher.stepsBack.next (.start t (.character m))).1 = none := by
    simp only [Searcher.start, CharacterSearcher.start, empty]
    show (CharacterSearcher.nextBack ⟨t, m, 0, 0⟩).1 = none
    rw [CharacterSearcher.nextBack_of_met]
  simp only [startsWith, endsWith, first, last, and_self]

variable (wellFormedHay : wellFormed hay = true)
include wellFormedHay

theorem mem_starts_character :
    i ∈ hay.starts (.character m) ↔ ∃ j, Searcher.Accepted m hay i j := by
  constructor
  · rintro ⟨boundary, starts⟩
    have inside := isBoundary_le boundary
    by_cases ended : i = hay.size
    · have empty : (hay.slice i hay.size).size = 0 := by
        simp only [slice]
        omega
      rw [(no_ends_of_empty empty).1] at starts
      cases starts
    · obtain ⟨c, j, stands⟩ := exists_stands wellFormedHay boundary (by omega)
      rw [startsWith_of_stands stands.shift] at starts
      exact ⟨j, c, stands, starts⟩
  · rintro ⟨j, c, stands, accepted⟩
    exact ⟨stands.boundary, (startsWith_of_stands stands.shift).trans accepted⟩

theorem matches_of_character (m : Matcher) : ∃ ms,
    Parted (Searcher.Accepted m hay) (Searcher.Refused m hay) 0 ms hay.size ∧
    (Searcher.hits.next (.start hay (.character m))).1 = ms.head? ∧
    (Searcher.hitsBack.next (.start hay (.character m))).1 = ms.getLast? := by
  obtain ⟨parted, back⟩ := Searcher.parted_of_character wellFormedHay m
  refine ⟨_, parted, FiniteStream.next_eq_head? _ _, ?_⟩
  rw [FiniteStream.next_eq_head?, back, List.head?_reverse]

theorem find_outcome_of_character :
    (∃ i, hay.find (.character m) = some i ∧ IsLeast (hay.starts (.character m)) i) ∨
      (hay.find (.character m) = none ∧ hay.starts (.character m) = ∅) := by
  obtain ⟨ms, parted, first, _⟩ := matches_of_character wellFormedHay m
  rw [find, first]
  cases parted with
  | nil _ clear =>
    refine Or.inr ⟨rfl, Set.eq_empty_of_forall_notMem ?_⟩
    intro i member
    obtain ⟨j, accepted⟩ := (mem_starts_character wellFormedHay).mp member
    have range := accepted.range
    exact clear.excludes (Nat.zero_le i) (by omega) accepted
  | cons _ clear _ matched _ =>
    refine Or.inl ⟨_, rfl, (mem_starts_character wellFormedHay).mpr ⟨_, matched⟩, ?_⟩
    intro i member
    obtain ⟨j, accepted⟩ := (mem_starts_character wellFormedHay).mp member
    by_contra before
    exact clear.excludes (Nat.zero_le i) (by omega) accepted

theorem rfind_outcome_of_character :
    (∃ i, hay.rfind (.character m) = some i ∧ IsGreatest (hay.starts (.character m)) i) ∨
      (hay.rfind (.character m) = none ∧ hay.starts (.character m) = ∅) := by
  obtain ⟨ms, parted, _, last⟩ := matches_of_character wellFormedHay m
  rw [rfind, last]
  rcases List.eq_nil_or_concat ms with rfl | ⟨before, m', rfl⟩
  · cases parted with
    | nil _ clear =>
      refine Or.inr ⟨rfl, Set.eq_empty_of_forall_notMem ?_⟩
      intro i member
      obtain ⟨j, accepted⟩ := (mem_starts_character wellFormedHay).mp member
      have range := accepted.range
      exact clear.excludes (Nat.zero_le i) (by omega) accepted
  · rw [List.concat_eq_append] at parted ⊢
    obtain ⟨_, _, matched, _, clear⟩ := Parted.concat_iff.mp parted
    rw [List.getLast?_concat]
    refine Or.inl ⟨m'.start, rfl, (mem_starts_character wellFormedHay).mpr ⟨_, matched⟩, ?_⟩
    intro i member
    obtain ⟨j, accepted⟩ := (mem_starts_character wellFormedHay).mp member
    have range := accepted.range
    by_contra behind
    have from_stop := matched.next_behind accepted (by omega)
    exact clear.excludes from_stop (by omega) accepted

theorem endsWith_character_iff : hay.endsWith (.character m) = true ↔ 0 < hay.size ∧
    ∃ start, (Searcher.hitsBack.next (.start hay (.character m))).1 =
      some (.found start hay.size) := by
  obtain ⟨cs, spelled⟩ := wellFormedBytes_iff.mp wellFormedHay
  have run : Run hay 0 cs hay.size := Run.whole_iff.mpr spelled
  have back := ((Searcher.found_behaves m hay).toList (Searcher.start_holdsFound m spelled)).2
  rw [FiniteStream.next_eq_head?, back, List.head?_reverse]
  rcases run.cases_last with ⟨rfl, ended⟩ | ⟨ds, d, j, rfl, others, stands⟩
  · rw [(no_ends_of_empty ended.symm).2]
    constructor
    · intro no
      cases no
    · rintro ⟨positive, _⟩
      omega
  · have advances := stands.advances
    rw [endsWith_of_stands stands, Searcher.found_concat others stands]
    cases accepted : m.accepts d with
    | true =>
      rw [if_pos rfl, List.getLast?_concat]
      constructor
      · intro _
        exact ⟨by omega, j, rfl⟩
      · intro _
        rfl
    | false =>
      rw [if_neg Bool.false_ne_true, List.append_nil]
      constructor
      · intro no
        cases no
      · rintro ⟨_, start, last⟩
        -- a match among the other characters ends before the refused one begins
        have member := List.mem_of_getLast? last
        have upto : hay.size ≤ j := (Searcher.parted_reportsFrom others).stop_le _ member
        omega

end Characters

theorem lookup_iff {answer : Option Nat} {S : Set Nat} {Best : Nat → Prop}
    (unique : ∀ i j, Best i → Best j → i = j) (inside : ∀ i, Best i → i ∈ S)
    (outcome : (∃ i, answer = some i ∧ Best i) ∨ (answer = none ∧ S = ∅)) :
    (∀ i, answer = some i ↔ Best i) ∧ (answer = none ↔ S = ∅) := by
  have excludes : ∀ i, Best i → ¬ S = ∅ := by
    intro i best empty
    have member := inside i best
    rw [empty] at member
    exact member
  obtain ⟨some_iff, none_iff⟩ := TwoWay.answer_iff unique excludes outcome
  exact ⟨fun i => by simpa using some_iff i, none_iff⟩

/-- All questions about a pattern in a well-formed text speak of the same boundaries, those from which
    on the text starts with a match: the first of them is found, and the last of them from the back,
    and the pattern is contained if there is one. A text that ends with a match is told by the last
    one found, and a substring at either edge also by the first single step from there. -/
theorem lookups_agree {hay : Text} (wellFormedHay : wellFormed hay = true) {p : Pattern}
    (wellFormedPattern : p.WellFormed) :
    ((∀ i, hay.find p = some i ↔ IsLeast (hay.starts p) i) ∧
      (hay.find p = none ↔ hay.starts p = ∅)) ∧
    ((∀ i, hay.rfind p = some i ↔ IsGreatest (hay.starts p) i) ∧
      (hay.rfind p = none ↔ hay.starts p = ∅)) ∧
    (hay.contains p = true ↔ (hay.starts p).Nonempty) ∧
    (hay.startsWith p = true ↔ hay.find p = some 0) ∧
    match p with
    | .substring needle =>
      (hay.endsWith p = true ↔
        needle.size ≤ hay.size ∧ hay.rfind p = some (hay.size - needle.size)) ∧
      (hay.startsWith p = true ↔
        ∃ stop, (Searcher.steps.next (.start hay p)).1 = some (.found 0 stop)) ∧
      (hay.endsWith p = true ↔
        ∃ start, (Searcher.stepsBack.next (.start hay p)).1 = some (.found start hay.size))
    | .character _ =>
      hay.endsWith p = true ↔ 0 < hay.size ∧
        ∃ start, (Searcher.hitsBack.next (.start hay p)).1 = some (.found start hay.size) := by
  have outcome : (∃ i, hay.find p = some i ∧ IsLeast (hay.starts p) i) ∨
      (hay.find p = none ∧ hay.starts p = ∅) := by
    cases p with
    | character m => exact find_outcome_of_character wellFormedHay
    | substring needle => exact find_outcome_of_substring wellFormedHay wellFormedPattern
  have outcomeBack : (∃ i, hay.rfind p = some i ∧ IsGreatest (hay.starts p) i) ∨
      (hay.rfind p = none ∧ hay.starts p = ∅) := by
    cases p with
    | character m => exact rfind_outcome_of_character wellFormedHay
    | substring needle => exact rfind_outcome_of_substring wellFormedHay wellFormedPattern
  have first := lookup_iff (fun _ _ left right => left.unique right) (fun _ least => least.1) outcome
  have last := lookup_iff (fun _ _ left right => left.unique right) (fun _ greatest => greatest.1)
    outcomeBack
  refine ⟨first, last, ?_, ?_, ?_⟩
  · rw [contains_iff_find, ne_eq, first.2, Set.nonempty_iff_ne_empty]
  · have here : 0 ∈ hay.starts p ↔ hay.startsWith p = true := by
      simp only [starts, Set.mem_ofPred_eq, isBoundary_start, slice_self, true_and]
    rw [first.1, ← here]
    exact ⟨fun member => ⟨member, fun _ _ => Nat.zero_le _⟩, fun least => least.1⟩
  · cases p with
    | character m => exact endsWith_character_iff wellFormedHay
    | substring needle =>
      exact ⟨endsWith_iff_rfind wellFormedPattern,
        startsWith_iff_first_step wellFormedHay wellFormedPattern,
        endsWith_iff_first_step wellFormedHay wellFormedPattern⟩

theorem lookups_agree_of_accents :
    let hay := Text.ofList [0xC3, 0xA9, 0x61, 0xC3, 0xA9]
    let needle := Text.ofList [0xC3, 0xA9]
    (wellFormed hay = true ∧ (Pattern.substring needle).WellFormed) ∧
      IsLeast (hay.starts (.substring needle)) 0 ∧ hay.rfind (.substring needle) = some 3 := by
  intro hay needle
  have wellFormedHay : wellFormed hay = true := by decide
  have wellFormedNeedle : wellFormed needle = true := by decide
  obtain ⟨first, _, _, front, back, _⟩ :=
    lookups_agree wellFormedHay (p := .substring needle) wellFormedNeedle
  have starts : hay.startsWith (.substring needle) = true := by decide
  have ends : hay.endsWith (.substring needle) = true := by decide
  exact ⟨⟨wellFormedHay, wellFormedNeedle⟩, (first.1 0).mp (front.mp starts), (back.mp ends).2⟩

end Text
end TextSearch
