import TextSearch.Range.Basic
import TextSearch.Searcher

/-!
The pieces of a text between the matches of a pattern. For every match there is a piece before it,
and the tail is a piece of its own; a terminated split drops the tail if it is empty, and a counted
one leaves its last piece unsplit.
-/
namespace TextSearch

/-- The bytes from `start` up to `stop` are not yet handed out. -/
structure Split where
  searcher : Searcher
  start : Nat
  stop : Nat
  keepEmptyTail : Bool
  finished : Bool

namespace Split

def ofText (hay : Text) (p : Pattern) (keepEmptyTail : Bool) : Split :=
  ⟨.start hay p, 0, hay.size, keepEmptyTail, false⟩

def haystack (s : Split) : Text := s.searcher.haystack

def finish (s : Split) : Option Text × Split :=
  if s.finished then (none, s)
  else if !s.keepEmptyTail && s.stop == s.start then (none, { s with finished := true })
  else (some (s.haystack.slice s.start s.stop), { s with finished := true })

def next (s : Split) : Option Text × Split :=
  if s.finished then (none, s)
  else
    match Searcher.hits.next s.searcher with
    | (some m, rest) =>
      (some (s.haystack.slice s.start m.start), { s with searcher := rest, start := m.stop })
    | (none, rest) => finish { s with searcher := rest }

def pullBack (s : Split) : Option Text × Split :=
  match Searcher.hitsBack.next s.searcher with
  | (some m, rest) =>
    (some (s.haystack.slice m.stop s.stop), { s with searcher := rest, stop := m.start })
  | (none, rest) =>
    (some (s.haystack.slice s.start s.stop), { s with searcher := rest, finished := true })

def settleTail (s : Split) : Split := { s with keepEmptyTail := true }

/-- From the back an empty tail comes first, and is passed over once if it is not wanted. -/
def nextBack (s : Split) : Option Text × Split :=
  if s.finished then (none, s)
  else if s.keepEmptyTail then s.pullBack
  else
    let tail := s.settleTail.pullBack
    if tail.1.any (!·.isEmpty) then tail
    else if tail.2.finished then (none, tail.2)
    else tail.2.pullBack

def budget (hitsLeft : Nat) (finished : Bool) : Nat :=
  if finished then hitsLeft else hitsLeft + 1

theorem finish_spends (s : Split) (n : Nat) :
    (finish s).1.toList.length + budget n (finish s).2.finished ≤ budget n s.finished := by
  unfold finish
  cases h : s.finished
  · cases dropped : !s.keepEmptyTail && s.stop == s.start
    · simp [budget]
      omega
    · simp [budget]
  · simp [budget, h]

theorem finish_searcher (s : Split) : (finish s).2.searcher = s.searcher := by
  unfold finish
  split
  · rfl
  · split <;> rfl

theorem next_spends (s : Split) :
    s.next.1.toList.length + budget (Searcher.hits.remaining s.next.2.searcher) s.next.2.finished ≤
      budget (Searcher.hits.remaining s.searcher) s.finished := by
  unfold next
  split
  · simp
  next going =>
    split
    next m rest answer =>
      have := FiniteStream.remaining_lt answer
      simp only [Option.toList_some, List.length_singleton, budget, going, Bool.false_eq_true, if_false]
      omega
    next rest answer =>
      have left := FiniteStream.remaining_le answer
      have cost := finish_spends { s with searcher := rest } (Searcher.hits.remaining rest)
      rw [finish_searcher]
      simp only [budget, going, Bool.false_eq_true, if_false] at cost ⊢
      omega

theorem pullBack_spends (s : Split) (going : ¬s.finished = true) :
    s.pullBack.1.toList.length +
        budget (Searcher.hitsBack.remaining s.pullBack.2.searcher) s.pullBack.2.finished ≤
      budget (Searcher.hitsBack.remaining s.searcher) s.finished := by
  unfold pullBack
  split
  next m rest answer =>
    have := FiniteStream.remaining_lt answer
    simp only [Option.toList_some, List.length_singleton, budget, going, Bool.false_eq_true, if_false]
    omega
  next rest answer =>
    have := FiniteStream.remaining_le answer
    simp only [Option.toList_some, List.length_singleton, budget, going, Bool.false_eq_true, if_false,
      if_true]
    omega

theorem nextBack_spends (s : Split) :
    s.nextBack.1.toList.length +
        budget (Searcher.hitsBack.remaining s.nextBack.2.searcher) s.nextBack.2.finished ≤
      budget (Searcher.hitsBack.remaining s.searcher) s.finished := by
  unfold nextBack
  split
  · simp
  next going =>
    split
    · exact pullBack_spends s going
    · have first := pullBack_spends s.settleTail going
      have same : budget (Searcher.hitsBack.remaining s.settleTail.searcher) s.settleTail.finished =
        budget (Searcher.hitsBack.remaining s.searcher) s.finished := rfl
      dsimp only
      split
      · omega
      · split
        · simp only [Option.toList_none, List.length_nil]
          omega
        next more =>
          have second := pullBack_spends s.settleTail.pullBack.2 more
          omega

def pieces : FiniteStream Split Text where
  next := next
  remaining s := budget (Searcher.hits.remaining s.searcher) s.finished
  spends := next_spends

def piecesBack : FiniteStream Split Text where
  next := nextBack
  remaining s := budget (Searcher.hitsBack.remaining s.searcher) s.finished
  spends := nextBack_spends

end Split

structure CountedSplit where
  inner : Split
  limit : Nat

namespace CountedSplit

/-- The last piece allowed is all that is left; before it, `pull` gives the pieces. -/
def next (pull : Split → Option Text × Split) (s : CountedSplit) : Option Text × CountedSplit :=
  match s.limit with
  | 0 => (none, s)
  | 1 => (s.inner.finish.1, ⟨s.inner.finish.2, 0⟩)
  | left + 2 => ((pull s.inner).1, ⟨(pull s.inner).2, left + 1⟩)

theorem next_spends (pull : Split → Option Text × Split) (s : CountedSplit) :
    (next pull s).1.toList.length + (next pull s).2.limit ≤ s.limit := by
  have one : ∀ answer : Option Text, answer.toList.length ≤ 1 := by
    intro answer
    cases answer <;> simp
  unfold next
  split
  next h => simp [h]
  next h => have := one s.inner.finish.1; dsimp only; omega
  next left h => have := one (pull s.inner).1; dsimp only; omega

def pieces (pull : Split → Option Text × Split) : FiniteStream CountedSplit Text where
  next := next pull
  remaining := limit
  spends := next_spends pull

end CountedSplit

namespace Text

def split (t : Text) (p : Pattern) : Range Split Text :=
  ⟨.ofText t p true, Split.pieces, Split.piecesBack, p.doubleEnded⟩

def rsplit (t : Text) (p : Pattern) : Range Split Text := (t.split p).reverse

/-- The pieces before each match; a tail without a match behind it counts if it is not empty. -/
def splitTerminator (t : Text) (p : Pattern) : Range Split Text :=
  ⟨.ofText t p false, Split.pieces, Split.piecesBack, p.doubleEnded⟩

def rsplitTerminator (t : Text) (p : Pattern) : Range Split Text := (t.splitTerminator p).reverse

/-- At most `limit` pieces. The last one is the rest of the text, with any matches inside it. -/
def splitAtMost (t : Text) (limit : Nat) (p : Pattern) : Range CountedSplit Text :=
  ⟨⟨.ofText t p true, limit⟩, CountedSplit.pieces Split.next, CountedSplit.pieces Split.nextBack,
    false⟩

def rsplitAtMost (t : Text) (limit : Nat) (p : Pattern) : Range CountedSplit Text :=
  (t.splitAtMost limit p).reverse

end Text
end TextSearch
