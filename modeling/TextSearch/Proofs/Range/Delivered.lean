import TextSearch.Proofs.Range.BothEnds
import TextSearch.Proofs.Searcher.Aligned

/-!
What the ranges of a well-formed text deliver, at either end and in any order: matches that stand between
boundaries, and pieces, lines and words that are well-formed themselves.
-/
namespace TextSearch
open Utf8 FiniteStream

namespace Range
variable {σ α : Type} {P : σ → Prop} {Q : α → Prop} {r : Range σ α}

/-- All that the range gives from the front has the property, and so has all that it answers at its two
    ends, asked in any order. -/
def Delivers (r : Range σ α) (Q : α → Prop) : Prop :=
  (∀ x ∈ r.toList, Q x) ∧
  ∀ ends told left, r.drive? ends = some (told, left) → ∀ e x, (e, some x) ∈ told → Q x

theorem pull?_of_some {s : σ} {e : End} {answer : Option α} {rest : Range σ α}
    (asked : (r.moved s).pull? e = some (answer, rest)) :
    answer = ((r.stream e).next s).1 ∧ rest = r.moved ((r.stream e).next s).2 := by
  cases e with
  | front =>
    cases asked
    exact ⟨rfl, rfl⟩
  | back =>
    simp only [pull?, nextBack?] at asked
    split at asked
    · cases asked
      exact ⟨rfl, rfl⟩
    · cases asked

theorem drive?_yields (yields : ∀ e, Yields P Q (r.stream e).next) {ends : List End} {s : σ}
    {told : List (End × Option α)} {left : Range σ α} (start : P s)
    (driven : (r.moved s).drive? ends = some (told, left)) : ∀ e x, (e, some x) ∈ told → Q x := by
  induction ends generalizing s told with
  | nil =>
    cases driven
    intro e x none_left
    cases none_left
  | cons e ends ih =>
    rw [drive?, Option.bind_eq_bind, Option.bind_eq_some_iff] at driven
    obtain ⟨⟨answer, rest⟩, asked, driven⟩ := driven
    rw [Option.bind_eq_bind, Option.bind_eq_some_iff] at driven
    obtain ⟨⟨later, final⟩, driven, same⟩ := driven
    cases same
    obtain ⟨rfl, rfl⟩ := pull?_of_some asked
    obtain ⟨here, kept⟩ := yields e s start
    intro e' x member
    rcases List.mem_cons.mp member with first | behind
    · exact here x (Prod.mk.inj first).2.symm
    · exact ih kept driven e' x behind

theorem delivers_of_yields (forward : Yields P Q r.forward.next)
    (backward : Yields P Q r.backward.next) (start : P r.state) :
    r.Delivers Q ∧ r.reverse.Delivers Q := by
  refine ⟨⟨forward.toList start, ?_⟩, ⟨backward.toList start, ?_⟩⟩
  · intro ends told left driven
    refine drive?_yields (r := r) ?_ start driven
    intro e
    cases e with
    | front => exact forward
    | back => exact backward
  · intro ends told left driven
    refine drive?_yields (r := r.reverse) ?_ start driven
    intro e
    cases e with
    | front => exact backward
    | back => exact forward

end Range

variable {hay : Text}

namespace Split

structure Aligned (hay : Text) (s : Split) : Prop where
  searcher : Searcher.Aligned hay s.searcher
  start : isBoundary hay s.start = true
  stop : isBoundary hay s.stop = true

theorem Aligned.wellFormed_slice {s : Split} (aligned : Aligned hay s)
    (wellFormedHay : wellFormed hay = true) {i j : Nat} (left : isBoundary hay i = true)
    (right : isBoundary hay j = true) : wellFormed (s.haystack.slice i j) = true := by
  have same : s.haystack = hay := aligned.searcher.haystack
  rw [same]
  exact Utf8.wellFormed_slice wellFormedHay left right

section Calls
variable (wellFormedHay : wellFormed hay = true)
include wellFormedHay

theorem finish_yields : Yields (Aligned hay) (fun piece => wellFormed piece = true) finish := by
  intro s aligned
  have tail := aligned.wellFormed_slice wellFormedHay aligned.start aligned.stop
  have left : Aligned hay { s with finished := true } := ⟨aligned.searcher, aligned.start, aligned.stop⟩
  rw [finish]
  split
  · exact ⟨Yields.of_refusal, aligned⟩
  · split
    · exact ⟨Yields.of_refusal, left⟩
    · exact ⟨Yields.of_answer tail, left⟩

theorem next_yields : Yields (Aligned hay) (fun piece => wellFormed piece = true) next := by
  intro s aligned
  rw [next]
  split
  · exact ⟨Yields.of_refusal, aligned⟩
  · have searched : Yields (Searcher.Aligned hay) (Step.AtBoundaries hay) Searcher.hits.next :=
      Searcher.call_yields wellFormedHay .hits
    obtain ⟨told, left⟩ := searched s.searcher aligned.searcher
    rcases answer : Searcher.hits.next s.searcher with ⟨_ | m, rest⟩
    · rw [answer] at left
      exact finish_yields wellFormedHay _ ⟨left, aligned.start, aligned.stop⟩
    · rw [answer] at told left
      obtain ⟨before, behind⟩ := told m rfl
      have piece := aligned.wellFormed_slice wellFormedHay aligned.start before
      exact ⟨Yields.of_answer piece, left, behind, aligned.stop⟩

theorem pullBack_yields :
    Yields (Aligned hay) (fun piece => wellFormed piece = true) pullBack := by
  intro s aligned
  rw [pullBack]
  have searched : Yields (Searcher.Aligned hay) (Step.AtBoundaries hay) Searcher.hitsBack.next :=
    Searcher.call_yields wellFormedHay .hitsBack
  obtain ⟨told, left⟩ := searched s.searcher aligned.searcher
  rcases answer : Searcher.hitsBack.next s.searcher with ⟨_ | m, rest⟩
  · rw [answer] at left
    have tail := aligned.wellFormed_slice wellFormedHay aligned.start aligned.stop
    exact ⟨Yields.of_answer tail, left, aligned.start, aligned.stop⟩
  · rw [answer] at told left
    obtain ⟨before, behind⟩ := told m rfl
    have piece := aligned.wellFormed_slice wellFormedHay behind aligned.stop
    exact ⟨Yields.of_answer piece, left, aligned.start, before⟩

theorem nextBack_yields :
    Yields (Aligned hay) (fun piece => wellFormed piece = true) nextBack := by
  intro s aligned
  have tail := pullBack_yields wellFormedHay s.settleTail
    ⟨aligned.searcher, aligned.start, aligned.stop⟩
  simp only [nextBack]
  split
  · exact ⟨Yields.of_refusal, aligned⟩
  · split
    · exact pullBack_yields wellFormedHay s aligned
    · split
      · exact tail
      · split
        · exact ⟨Yields.of_refusal, tail.2⟩
        · exact pullBack_yields wellFormedHay _ tail.2

theorem pieces_yield : Yields (Aligned hay) (fun piece => wellFormed piece = true) pieces.next ∧
    Yields (Aligned hay) (fun piece => wellFormed piece = true) piecesBack.next :=
  ⟨next_yields wellFormedHay, nextBack_yields wellFormedHay⟩

end Calls

theorem ofText_aligned (wellFormedHay : wellFormed hay = true) {p : Pattern}
    (wellFormedPattern : p.WellFormed) (keep : Bool) : Aligned hay (ofText hay p keep) :=
  ⟨Searcher.start_aligned wellFormedHay wellFormedPattern, isBoundary_start, isBoundary_end⟩

end Split

theorem CountedSplit.next_yields {Q : Text → Prop} {pull : Split → Option Text × Split}
    (finished : Yields (Split.Aligned hay) Q Split.finish) (pulled : Yields (Split.Aligned hay) Q pull) :
    Yields (fun s => Split.Aligned hay s.inner) Q (CountedSplit.next pull) := by
  intro s aligned
  rw [CountedSplit.next]
  split
  · exact ⟨Yields.of_refusal, aligned⟩
  · exact finished s.inner aligned
  · exact pulled s.inner aligned

namespace Text

def Located (hay : Text) (m : Nat × Text) : Prop :=
  isBoundary hay m.1 = true ∧ isBoundary hay (m.1 + m.2.size) = true ∧
    m.2 = hay.slice m.1 (m.1 + m.2.size) ∧ wellFormed m.2 = true

theorem wellFormed_dropCarriageReturn {line : Text} (accepted : wellFormed line = true) :
    wellFormed line.dropCarriageReturn = true := by
  rw [dropCarriageReturn]
  split
  next last =>
    have nonempty : ¬ line.size = 0 := by
      intro empty
      rw [back?, if_pos empty] at last
      cases last
    rw [back?, if_neg nonempty, Option.some.injEq] at last
    have before : isBoundary line (line.size - 1) = true := by
      refine isBoundary_iff.mpr (Or.inr (Or.inr ⟨by omega, ?_⟩))
      rw [last]
      decide
    exact wellFormed_slice accepted isBoundary_start before
  next => exact accepted

theorem slice_of_le {i j : Nat} (t : Text) (le : j ≤ i) : t.slice i j = t.slice i i := by
  have nothing : min j t.size - min i t.size = 0 := by omega
  simp only [slice, nothing, Nat.sub_self]

section Ranges
variable (wellFormedHay : wellFormed hay = true)
include wellFormedHay

theorem located_of_atBoundaries {m : Step} (within : m.AtBoundaries hay) :
    Located hay (m.start, hay.slice m.start m.stop) := by
  obtain ⟨left, right⟩ := within
  have accepted := wellFormed_slice wellFormedHay left right
  have inside := isBoundary_le left
  have inside' := isBoundary_le right
  rcases Nat.le_total m.start m.stop with le | behind
  · have stop : m.start + (hay.slice m.start m.stop).size = m.stop := by
      simp only [slice]
      omega
    exact ⟨left, by rw [stop]; exact right, by rw [stop], accepted⟩
  · rw [slice_of_le hay behind] at accepted ⊢
    have stop : m.start + (hay.slice m.start m.start).size = m.start := by
      simp only [slice]
      omega
    exact ⟨left, by rw [stop]; exact left, by rw [stop], accepted⟩

variable {p : Pattern} (wellFormedPattern : p.WellFormed)

section Patterns
include wellFormedPattern

theorem hits_deliver : (hay.hits p).Delivers (fun m => wellFormed m = true) ∧
    (hay.rhits p).Delivers fun m => wellFormed m = true := by
  have accepted := Searcher.call_map_yields wellFormedHay (fun m => wellFormed m = true)
    (fun t step => t.slice step.start step.stop)
    (fun _ within => wellFormed_slice wellFormedHay within.1 within.2)
  exact Range.delivers_of_yields (r := hay.hits p) (accepted .hits) (accepted .hitsBack)
    (Searcher.start_aligned wellFormedHay wellFormedPattern)

theorem hitsAt_deliver :
    (hay.hitsAt p).Delivers (Located hay) ∧ (hay.rhitsAt p).Delivers (Located hay) := by
  have located := Searcher.call_map_yields wellFormedHay (Located hay)
    (fun t step => (step.start, t.slice step.start step.stop))
    (fun _ within => located_of_atBoundaries wellFormedHay within)
  exact Range.delivers_of_yields (r := hay.hitsAt p) (located .hits) (located .hitsBack)
    (Searcher.start_aligned wellFormedHay wellFormedPattern)

theorem split_delivers : (hay.split p).Delivers (fun piece => wellFormed piece = true) ∧
    (hay.rsplit p).Delivers fun piece => wellFormed piece = true := by
  obtain ⟨pieces, piecesBack⟩ := Split.pieces_yield wellFormedHay
  exact Range.delivers_of_yields (r := hay.split p) pieces piecesBack
    (Split.ofText_aligned wellFormedHay wellFormedPattern true)

theorem splitTerminator_delivers :
    (hay.splitTerminator p).Delivers (fun piece => wellFormed piece = true) ∧
      (hay.rsplitTerminator p).Delivers fun piece => wellFormed piece = true := by
  obtain ⟨pieces, piecesBack⟩ := Split.pieces_yield wellFormedHay
  exact Range.delivers_of_yields (r := hay.splitTerminator p) pieces piecesBack
    (Split.ofText_aligned wellFormedHay wellFormedPattern false)

theorem splitAtMost_delivers (limit : Nat) :
    (hay.splitAtMost limit p).Delivers (fun piece => wellFormed piece = true) ∧
      (hay.rsplitAtMost limit p).Delivers fun piece => wellFormed piece = true := by
  have finished := Split.finish_yields wellFormedHay
  have forth := CountedSplit.next_yields finished (Split.next_yields wellFormedHay)
  have back := CountedSplit.next_yields finished (Split.nextBack_yields wellFormedHay)
  exact Range.delivers_of_yields (r := hay.splitAtMost limit p) forth back
    (Split.ofText_aligned wellFormedHay wellFormedPattern true)

end Patterns

theorem lines_deliver : hay.lines.Delivers fun line => wellFormed line = true := by
  obtain ⟨pieces, piecesBack⟩ := Split.pieces_yield wellFormedHay
  have forth : Yields (Split.Aligned hay) (fun line => wellFormed line = true)
    hay.lines.forward.next := pieces.map fun _ _ _ => wellFormed_dropCarriageReturn
  have back : Yields (Split.Aligned hay) (fun line => wellFormed line = true)
    hay.lines.backward.next := piecesBack.map fun _ _ _ => wellFormed_dropCarriageReturn
  exact (Range.delivers_of_yields (r := hay.lines) forth back
    (Split.ofText_aligned wellFormedHay (p := .character (.rune 0x0A)) trivial false)).1

theorem words_deliver : hay.words.Delivers fun word => wellFormed word = true := by
  obtain ⟨pieces, piecesBack⟩ := Split.pieces_yield wellFormedHay
  exact (Range.delivers_of_yields (r := hay.words) (pieces.filter _) (piecesBack.filter _)
    (Split.ofText_aligned wellFormedHay (p := .character .whitespace) trivial true)).1

end Ranges
end Text
end TextSearch
