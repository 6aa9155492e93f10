import TextSearch.Proofs.Searcher.Boundary
import TextSearch.Proofs.Searcher.Character
import TextSearch.Proofs.Searcher.Substring

/-!
The matches of a fresh search from either end, whatever is searched for: how they part the haystack,
and what is known of the stretches beside them.
-/
namespace TextSearch
open Utf8 Text

section Haystacks

theorem CharacterSearcher.next_haystack (s : CharacterSearcher) :
    (CharacterSearcher.steps.next s).2.haystack = s.haystack := by
  simp only [CharacterSearcher.steps, CharacterSearcher.next]
  split <;> rfl

theorem CharacterSearcher.nextBack_haystack (s : CharacterSearcher) :
    (CharacterSearcher.stepsBack.next s).2.haystack = s.haystack := by
  simp only [CharacterSearcher.stepsBack, CharacterSearcher.nextBack]
  split <;> rfl

theorem BoundarySearcher.next_haystack (s : BoundarySearcher) :
    (BoundarySearcher.steps.next s).2.haystack = s.haystack := by
  simp only [BoundarySearcher.steps, BoundarySearcher.next]
  split
  · rfl
  · split
    · rfl
    · split <;> rfl

theorem BoundarySearcher.nextBack_haystack (s : BoundarySearcher) :
    (BoundarySearcher.stepsBack.next s).2.haystack = s.haystack := by
  simp only [BoundarySearcher.stepsBack, BoundarySearcher.nextBack]
  split
  · rfl
  · split
    · rfl
    · split <;> rfl

end Haystacks

namespace Searcher
variable {hay needle : Text} {m : Matcher} {p : Pattern} {i j : Nat} {cs : List Rune}

theorem haystack_start (hay : Text) (p : Pattern) : (start hay p).haystack = hay := by
  cases p with
  | character m => rfl
  | substring needle =>
    simp only [start]
    split <;> rfl

theorem hits_haystack (s : Searcher) : (hits.next s).2.haystack = s.haystack := by
  cases s with
  | characters s =>
    exact FiniteStream.findNext_view _ CharacterSearcher.next_haystack Step.isFound s
  | boundaries s =>
    exact FiniteStream.findNext_view _ BoundarySearcher.next_haystack Step.isFound s
  | occurrences s => rfl

theorem hitsBack_haystack (s : Searcher) : (hitsBack.next s).2.haystack = s.haystack := by
  cases s with
  | characters s =>
    exact FiniteStream.findNext_view _ CharacterSearcher.nextBack_haystack Step.isFound s
  | boundaries s =>
    exact FiniteStream.findNext_view _ BoundarySearcher.nextBack_haystack Step.isFound s
  | occurrences s => rfl

section Kinds
variable {c : FiniteStream CharacterSearcher Step} {b : FiniteStream BoundarySearcher Step}
  {o : FiniteStream TwoWay.Scan Step}

theorem dispatch_characters :
    FiniteStream.Simulates (fun s t => s = characters t) (dispatch c b o) c := by
  rintro _ t rfl
  exact ⟨rfl, rfl⟩

theorem dispatch_boundaries :
    FiniteStream.Simulates (fun s t => s = boundaries t) (dispatch c b o) b := by
  rintro _ t rfl
  exact ⟨rfl, rfl⟩

theorem dispatch_occurrences :
    FiniteStream.Simulates (fun s t => s = occurrences t) (dispatch c b o) o := by
  rintro _ t rfl
  exact ⟨rfl, rfl⟩

theorem toList_characters (s : CharacterSearcher) :
    (dispatch c b o).toList (characters s) = c.toList s := dispatch_characters.toList rfl

theorem toList_boundaries (s : BoundarySearcher) :
    (dispatch c b o).toList (boundaries s) = b.toList s := dispatch_boundaries.toList rfl

theorem toList_occurrences (s : TwoWay.Scan) :
    (dispatch c b o).toList (occurrences s) = o.toList s := dispatch_occurrences.toList rfl

end Kinds

theorem hits_of_characters (s : CharacterSearcher) :
    hits.toList (characters s) = (steps.toList (characters s)).filter Step.isFound := by
  rw [steps, toList_characters, ← FiniteStream.toList_filter]
  exact toList_characters s

theorem hitsBack_of_characters (s : CharacterSearcher) :
    hitsBack.toList (characters s) = (stepsBack.toList (characters s)).filter Step.isFound := by
  rw [stepsBack, toList_characters, ← FiniteStream.toList_filter]
  exact toList_characters s

section Substrings

theorem start_of_empty (empty : needle.size = 0) :
    start hay (.substring needle) = boundaries (.start hay) := by
  simp [start, TwoWay.Needle.ofText?, empty]

theorem hits_of_nonempty (nonempty : 0 < needle.size) :
    hits.toList (start hay (.substring needle)) =
      (Text.occurrences needle hay).map fun i => .found i (i + needle.size) := by
  rw [start_of_nonempty nonempty]
  exact (toList_occurrences _).trans (TwoWay.Scan.toList_hits _ hay)

theorem hitsBack_of_nonempty (nonempty : 0 < needle.size) :
    hitsBack.toList (start hay (.substring needle)) =
      (occurrencesBefore needle hay hay.size).map fun i => .found i (i + needle.size) := by
  rw [start_of_nonempty nonempty]
  exact (toList_occurrences _).trans (TwoWay.Scan.toList_hitsBack _ hay)

theorem hits_of_empty (empty : needle.size = 0) (spelled : Spells cs hay.toList) :
    hits.toList (start hay (.substring needle)) =
        (BoundarySearcher.reportsFrom 0 cs).filter Step.isFound ∧
      hitsBack.toList (start hay (.substring needle)) =
        ((BoundarySearcher.reportsFrom 0 cs).filter Step.isFound).reverse := by
  have run : Run hay 0 cs hay.size := Run.whole_iff.mpr spelled
  rw [start_of_empty empty]
  constructor
  · refine (toList_boundaries _).trans ?_
    rw [FiniteStream.toList_filter, BoundarySearcher.start, BoundarySearcher.toList_steps run]
  · refine (toList_boundaries _).trans ?_
    rw [FiniteStream.toList_filter, BoundarySearcher.start, BoundarySearcher.toList_stepsBack run,
      List.filter_reverse]

end Substrings

section Characters

def Accepted (m : Matcher) (hay : Text) (i j : Nat) : Prop :=
  ∃ c, Stands hay i c j ∧ m.accepts c = true

def Refused (m : Matcher) (hay : Text) (i j : Nat) : Prop :=
  ∃ cs, Run hay i cs j ∧ ∀ c ∈ cs, m.accepts c = false

theorem Accepted.range (accepted : Accepted m hay i j) : i < j ∧ j ≤ hay.size := by
  obtain ⟨c, stands, _⟩ := accepted
  exact ⟨stands.advances, stands.inside⟩

theorem Accepted.next_behind {k l : Nat} (first : Accepted m hay i j) (other : Accepted m hay k l)
    (behind : i < k) : j ≤ k := by
  obtain ⟨c, stands, _⟩ := first
  obtain ⟨d, others, _⟩ := other
  exact stands.next_behind others behind

theorem Refused.excludes {a b : Nat} (refused : Refused m hay a b) (from_a : a ≤ i)
    (before : i < b) : ¬ Accepted m hay i j := by
  rintro ⟨c, stands, accepted⟩
  obtain ⟨cs, run, none_accepted⟩ := refused
  rw [none_accepted c (run.mem_of_stands stands from_a before)] at accepted
  cases accepted

theorem refused_self (i : Nat) : Refused m hay i i := by
  refine ⟨[], .nil, ?_⟩
  intro c none_left
  cases none_left

theorem parted_reportsFrom (run : Run hay i cs j) : Parted (Accepted m hay) (Refused m hay) i
    ((CharacterSearcher.reportsFrom m i cs).filter Step.isFound) j := by
  induction run with
  | nil => exact .nil (Nat.le_refl _) (refused_self _)
  | @cons i j k c cs first others ih =>
    have advances := first.advances
    rw [CharacterSearcher.reportsFrom, ← first.stop]
    cases accepted : m.accepts c with
    | true =>
      exact .cons (Nat.le_refl i) (refused_self i) (Nat.le_of_lt advances) ⟨c, first, accepted⟩ ih
    | false =>
      apply ih.extend_left (Nat.le_of_lt advances)
      rintro l ⟨ds, run, refused⟩
      exact ⟨c :: ds, .cons first run, List.forall_mem_cons.mpr ⟨accepted, refused⟩⟩

theorem found_concat {k : Nat} {d : Rune} (run : Run hay i cs j) (stands : Stands hay j d k) :
    (CharacterSearcher.reportsFrom m i (cs ++ [d])).filter Step.isFound =
      (CharacterSearcher.reportsFrom m i cs).filter Step.isFound ++
        if m.accepts d then [.found j k] else [] := by
  rw [CharacterSearcher.reportsFrom_append run, List.filter_append, CharacterSearcher.reportsFrom,
    ← stands.stop]
  cases m.accepts d <;> rfl

def HoldsFound (m : Matcher) (hay : Text) (s : Searcher) (ms : List Step) : Prop :=
  ∃ l, Holds m hay s l ∧ l.filter Step.isFound = ms

theorem found_behaves (m : Matcher) (hay : Text) :
    Deque.Behaves (HoldsFound m hay) hits hitsBack where
  front := (call_simulates .hits).trans (Deque.front_filter Step.isFound)
  back := (call_simulates .hitsBack).trans (Deque.back_filter Step.isFound)

theorem HoldsFound.haystack {s : Searcher} {ms : List Step} (held : HoldsFound m hay s ms) :
    s.haystack = hay := by
  obtain ⟨_, ⟨⟨_⟩⟩, _⟩ := held
  rfl

theorem start_holdsFound (m : Matcher) (spelled : Spells cs hay.toList) :
    HoldsFound m hay (start hay (.character m))
      ((CharacterSearcher.reportsFrom m 0 cs).filter Step.isFound) :=
  ⟨_, start_holds m spelled, rfl⟩

end Characters

section Parting

theorem parted_of_nonempty (hay : Text) (nonempty : 0 < needle.size) :
    Parted (Occurrence needle hay) (Clear needle hay) 0
        (hits.toList (start hay (.substring needle))) hay.size ∧
      Parted (Occurrence needle hay) (Clear needle hay) 0
        (hitsBack.toList (start hay (.substring needle))).reverse hay.size := by
  rw [hits_of_nonempty nonempty, hitsBack_of_nonempty nonempty]
  exact ⟨parted_occurrencesFrom nonempty (Nat.zero_le _), parted_occurrencesBefore nonempty _⟩

variable (wellFormedHay : wellFormed hay = true)
include wellFormedHay

theorem parted_of_character (m : Matcher) :
    Parted (Accepted m hay) (Refused m hay) 0 (hits.toList (start hay (.character m))) hay.size ∧
      hitsBack.toList (start hay (.character m)) =
        (hits.toList (start hay (.character m))).reverse := by
  obtain ⟨cs, spelled⟩ := wellFormedBytes_iff.mp wellFormedHay
  obtain ⟨forth, back⟩ := (found_behaves m hay).toList (start_holdsFound m spelled)
  rw [back, forth]
  exact ⟨parted_reportsFrom (Run.whole_iff.mpr spelled), rfl⟩

theorem holdsFound_hits (m : Matcher) :
    HoldsFound m hay (start hay (.character m)) (hits.toList (start hay (.character m))) := by
  obtain ⟨cs, spelled⟩ := wellFormedBytes_iff.mp wellFormedHay
  have held := start_holdsFound m spelled
  rwa [← ((found_behaves m hay).toList held).1] at held

theorem ordered_hits (p : Pattern) : Ordered 0 (hits.toList (start hay p)) hay.size ∧
    Ordered 0 (hitsBack.toList (start hay p)).reverse hay.size := by
  cases p with
  | character m =>
    obtain ⟨parted, back⟩ := parted_of_character wellFormedHay m
    rw [back, List.reverse_reverse]
    exact ⟨parted.ordered, parted.ordered⟩
  | substring needle =>
    by_cases nonempty : 0 < needle.size
    · obtain ⟨forth, back⟩ := parted_of_nonempty hay nonempty
      exact ⟨forth.ordered, back.ordered⟩
    · obtain ⟨cs, spelled⟩ := wellFormedBytes_iff.mp wellFormedHay
      obtain ⟨forth, back⟩ := hits_of_empty (by omega : needle.size = 0) spelled
      have parted := BoundarySearcher.parted_reportsFrom (Run.whole_iff.mpr spelled)
      rw [forth, back, List.reverse_reverse]
      exact ⟨parted.ordered, parted.ordered⟩

end Parting
end Searcher
end TextSearch
