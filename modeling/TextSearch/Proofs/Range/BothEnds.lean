import TextSearch.Range.Lines
import TextSearch.Proofs.Range.Pieces

/-!
Ranges asked from both their ends. Whatever the order, what was taken at the front, what is left and
what was taken at the back are the list that the range would give from the front alone.
-/
namespace TextSearch
open Utf8

namespace Range
variable {σ α : Type}

inductive End where
  | front
  | back

def End.isFront : End → Bool
  | front => true
  | back => false

/-- Asks for one element at an end; `none` if the range cannot be asked there. -/
def pull? (r : Range σ α) : End → Option (Option α × Range σ α)
  | .front => some r.next
  | .back => r.nextBack?

def drive? (r : Range σ α) : List End → Option (List (End × Option α) × Range σ α)
  | [] => some ([], r)
  | e :: ends => do
    let (answer, rest) ← r.pull? e
    let (later, left) ← rest.drive? ends
    some ((e, answer) :: later, left)

def atFront (told : List (End × Option α)) : List α :=
  told.filterMap fun a => if a.1.isFront then a.2 else none

def atBack (told : List (End × Option α)) : List α :=
  told.filterMap fun a => if a.1.isFront then none else a.2

/-- After any calls at either end nothing is lost, delivered twice or altered, and a call at either
    end is refused exactly if everything has been delivered. -/
def IsDeque (r : Range σ α) : Prop :=
  ∀ ends, ∃ told left, r.drive? ends = some (told, left) ∧
    atFront told ++ left.toList ++ (atBack told).reverse = r.toList ∧
    ∀ e, ∃ answer rest, left.pull? e = some (answer, rest) ∧
      (answer = none ↔ (atFront told).length + (atBack told).length = r.toList.length)

def Mirrored (r r' : Range σ α) : Prop :=
  r.IsDeque ∧ r'.IsDeque ∧ r'.toList = r.toList.reverse

section Deques

def stream (r : Range σ α) : End → FiniteStream σ α
  | .front => r.forward
  | .back => r.backward

def moved (r : Range σ α) (s : σ) : Range σ α := { r with state := s }

def End.ofDeque (e : End) : FiniteStream (List α) α :=
  if e.isFront then Deque.front else Deque.back

theorem End.next_ofDeque (e : End) (l : List α) : (e.ofDeque.next l).1 = none ↔ l = [] := by
  cases e with
  | front => exact List.head?_eq_none_iff
  | back => exact List.getLast?_eq_none_iff

variable {r : Range σ α} (doubleEnded : r.doubleEnded = true)

include doubleEnded in
theorem pull?_moved (s : σ) (e : End) : (r.moved s).pull? e =
    some (((r.stream e).next s).1, r.moved ((r.stream e).next s).2) := by
  cases e with
  | front => rfl
  | back => exact if_pos doubleEnded

include doubleEnded in
theorem drive?_moved (ends : List End) (s : σ) : (r.moved s).drive? ends =
    some (FiniteStream.answers r.stream ends s, r.moved (FiniteStream.after r.stream ends s)) := by
  induction ends generalizing s with
  | nil => rfl
  | cons e ends ih =>
    rw [drive?, pull?_moved doubleEnded, Option.bind_eq_bind, Option.bind_some]
    dsimp only
    rw [ih]
    rfl

variable {R : σ → List α → Prop} {l : List α} (both : Deque.Behaves R r.forward r.backward)
  (holds : R r.state l)
include both holds

include doubleEnded in
theorem isDeque_of_behaves : r.IsDeque := by
  intro ends
  have sim : ∀ e, FiniteStream.Simulates R (r.stream e) e.ofDeque := by
    intro e
    cases e with
    | front => exact both.front
    | back => exact both.back
  obtain ⟨same, left⟩ := FiniteStream.Simulates.answers sim ends holds
  have apart : atFront (FiniteStream.answers r.stream ends r.state) ++
      FiniteStream.after End.ofDeque ends l ++
        (atBack (FiniteStream.answers r.stream ends r.state)).reverse = l := by
    rw [same]
    exact Deque.taken_apart End.isFront ends (fun _ _ => rfl) l
  have sizes := congrArg List.length apart
  simp only [List.length_append, List.length_reverse] at sizes
  -- what the range has left is what the deque has left after the same calls
  have drained : (r.moved (FiniteStream.after r.stream ends r.state)).toList =
      FiniteStream.after End.ofDeque ends l := (both.toList left).1
  have whole : r.toList = l := (both.toList holds).1
  refine ⟨_, _, drive?_moved doubleEnded ends r.state, ?_, ?_⟩
  · rw [drained, apart, whole]
  · intro e
    refine ⟨_, _, pull?_moved doubleEnded _ e, ?_⟩
    rw [(sim e _ _ left).1, e.next_ofDeque, ← List.length_eq_zero_iff, whole]
    omega

include doubleEnded in
theorem mirrored_of_behaves : Mirrored r r.reverse := by
  obtain ⟨forth, back⟩ := both.toList holds
  refine ⟨isDeque_of_behaves doubleEnded both holds, ?_, ?_⟩
  · apply isDeque_of_behaves (r := r.reverse) (l := l.reverse) doubleEnded both.reverse
    rw [List.reverse_reverse]
    exact holds
  · exact back.trans (congrArg List.reverse forth.symm)

end Deques
end Range

namespace Split
variable {hay : Text} {m : Matcher} {s s' : Split} {ms : List Step} {l : List Text} {piece : Text}

/-- A split at characters holds the pieces beside the matches between its two offsets. -/
inductive Holds (m : Matcher) (hay : Text) : Split → List Text → Prop where
  | going {s : Split} {ms : List Step} (held : Searcher.HoldsFound m hay s.searcher ms)
      (parted : Text.Ordered s.start ms s.stop)
      (inside : s.stop ≤ hay.size) (going : s.finished = false) :
      Holds m hay s (hay.cut s.keepEmptyTail s.start s.stop ms)
  | finished {s : Split} (ended : s.finished = true) : Holds m hay s []

theorem Holds.eq_nil (holds : Holds m hay s l) (ended : s.finished = true) : l = [] := by
  cases holds with
  | going _ _ _ going =>
    rw [going] at ended
    cases ended
  | finished => rfl

theorem nextBack_of_drop (going : s.finished = false) (drop : s.keepEmptyTail = false)
    (tail : s.settleTail.pullBack = (some piece, s')) :
    s.nextBack = if piece.isEmpty then if s'.finished then (none, s') else s'.pullBack
      else (some piece, s') := by
  cases empty : piece.isEmpty <;> simp [nextBack, going, drop, tail, empty]

theorem isEmpty_slice {i j : Nat} (ordered : i ≤ j) (inside : j ≤ hay.size) :
    (hay.slice i j).isEmpty = (j == i) := by
  rw [Bool.eq_iff_iff, Text.isEmpty, beq_iff_eq, beq_iff_eq, Text.slice]
  simp only
  omega

section Tail
variable (held : Searcher.HoldsFound m hay s.searcher ms)
  (parted : Text.Ordered s.start ms s.stop)
  (inside : s.stop ≤ hay.size) (going : s.finished = false) (keep : s.keepEmptyTail = true)
include held parted inside going keep

theorem pullBack_of_holds : ∃ piece s' l, s.pullBack = (some piece, s') ∧ Holds m hay s' l ∧
    s'.keepEmptyTail = true ∧ hay.cut true s.start s.stop ms = l ++ [piece] ∧
    hay.cut false s.start s.stop ms = if piece.isEmpty then l else l ++ [piece] := by
  obtain ⟨told, left⟩ := (Searcher.found_behaves m hay).back _ _ held
  rcases answer : Searcher.hitsBack.next s.searcher with ⟨_, rest⟩
  rw [answer] at told left
  have same : s.haystack = hay := held.haystack
  -- without a match the tail is all there is, else it begins behind the last one
  rcases List.eq_nil_or_concat ms with rfl | ⟨before, last, rfl⟩
  · obtain rfl := told
    have ordered := parted.le
    refine ⟨_, _, [], pullBack_of_no_hit answer, .finished rfl, keep, ?_, ?_⟩
    · rw [same]
      rfl
    · rw [same, isEmpty_slice ordered inside]
      rfl
  · rw [List.concat_eq_append] at parted told left ⊢
    rw [Deque.back_concat] at told left
    obtain rfl := told
    obtain ⟨earlier, ordered, _, behind, _⟩ := Text.Parted.concat_iff.mp parted
    refine ⟨_, _, _, pullBack_of_hit answer, .going left earlier ?_ going, keep, ?_, ?_⟩
    · exact Nat.le_trans (Nat.le_trans ordered behind) inside
    · rw [Text.cut_concat, same, keep]
      rfl
    · rw [Text.cut_concat, same, keep, isEmpty_slice behind inside]
      show _ ++ (if _ then _ else _) = _
      cases s.stop == last.stop with
      | true => exact List.append_nil _
      | false => rfl

end Tail

theorem pieces_simulate : FiniteStream.Simulates (Holds m hay) pieces Deque.front := by
  intro s l holds
  show (s.next).1 = _ ∧ Holds m hay (s.next).2 _
  cases holds with
  | finished ended =>
    rw [(nexts_of_finished ended).1]
    exact ⟨rfl, .finished ended⟩
  | @going ms held parted inside going =>
    obtain ⟨told, left⟩ := (Searcher.found_behaves m hay).front _ _ held
    rcases answer : Searcher.hits.next s.searcher with ⟨_, rest⟩
    rw [answer] at told left
    have same : s.haystack = hay := held.haystack
    cases parted with
    | nil =>
      obtain rfl := told
      rw [next_of_no_hit going answer, same, Text.cut]
      cases !s.keepEmptyTail && s.stop == s.start <;> exact ⟨rfl, .finished rfl⟩
    | cons _ _ _ _ others =>
      obtain rfl := told
      rw [next_of_hit going answer, same]
      exact ⟨rfl, .going left others inside going⟩

theorem piecesBack_simulate : FiniteStream.Simulates (Holds m hay) piecesBack Deque.back := by
  intro s l holds
  show (s.nextBack).1 = _ ∧ Holds m hay (s.nextBack).2 _
  cases holds with
  | finished ended =>
    rw [(nexts_of_finished ended).2]
    exact ⟨rfl, .finished ended⟩
  | @going ms held parted inside going =>
    cases keep : s.keepEmptyTail with
    | true =>
      obtain ⟨piece, s', l, pulled, left, _, kept, _⟩ :=
        pullBack_of_holds held parted inside going keep
      rw [nextBack_of_keep going keep, pulled, kept, Deque.back_concat]
      exact ⟨rfl, left⟩
    | false =>
      obtain ⟨piece, s', l, pulled, left, settled, _, dropped⟩ :=
        pullBack_of_holds (s := s.settleTail) held parted inside going rfl
      change hay.cut false s.start s.stop ms = _ at dropped
      rw [nextBack_of_drop going keep pulled, dropped]
      by_cases empty : piece.isEmpty = true
      · rw [if_pos empty, if_pos empty]
        by_cases ended : s'.finished = true
        · rw [if_pos ended, left.eq_nil ended]
          exact ⟨rfl, .finished ended⟩
        · -- behind the tail passed over there is a match, so there is a piece before it
          rw [if_neg ended]
          cases left with
          | finished ended' => exact absurd ended' ended
          | going held' parted' inside' going' =>
            obtain ⟨piece', s'', l', pulled', left', _, kept', _⟩ :=
              pullBack_of_holds held' parted' inside' going' settled
            rw [pulled', settled, kept', Deque.back_concat]
            exact ⟨rfl, left'⟩
      · rw [if_neg empty, if_neg empty, Deque.back_concat]
        exact ⟨rfl, left⟩

theorem pieces_behave (m : Matcher) (hay : Text) :
    Deque.Behaves (Holds m hay) pieces piecesBack := ⟨pieces_simulate, piecesBack_simulate⟩

theorem ofText_holds (wellFormedHay : wellFormed hay = true) (m : Matcher) (keep : Bool) :
    ∃ l, Holds m hay (ofText hay (.character m) keep) l :=
  ⟨_, .going (Searcher.holdsFound_hits wellFormedHay m)
    (Searcher.ordered_hits wellFormedHay (.character m)).1 (Nat.le_refl _) rfl⟩

end Split

namespace Text

/-- Split at characters, into lines or into words, or searched for characters, a text can be asked
    from both ends, and what is asked from the back first is the reverse of the same from the
    front. -/
theorem ranges_are_deques {hay : Text} (wellFormedHay : wellFormed hay = true) (m : Matcher) :
    Range.Mirrored (hay.split (.character m)) (hay.rsplit (.character m)) ∧
    Range.Mirrored (hay.splitTerminator (.character m)) (hay.rsplitTerminator (.character m)) ∧
    Range.Mirrored (hay.hits (.character m)) (hay.rhits (.character m)) ∧
    Range.Mirrored (hay.hitsAt (.character m)) (hay.rhitsAt (.character m)) ∧
    hay.lines.IsDeque ∧ hay.words.IsDeque := by
  have found := Searcher.holdsFound_hits wellFormedHay m
  have searched := Searcher.found_behaves m hay
  obtain ⟨_, keeps⟩ := Split.ofText_holds wellFormedHay m true
  obtain ⟨_, drops⟩ := Split.ofText_holds wellFormedHay m false
  obtain ⟨_, lined⟩ := Split.ofText_holds wellFormedHay (.rune 0x0A) false
  obtain ⟨_, worded⟩ := Split.ofText_holds wellFormedHay .whitespace true
  refine ⟨?_, ?_, ?_, ?_, ?_, ?_⟩
  · exact Range.mirrored_of_behaves rfl (Split.pieces_behave m hay) keeps
  · exact Range.mirrored_of_behaves rfl (Split.pieces_behave m hay) drops
  · exact Range.mirrored_of_behaves rfl
      (searched.map (g := fun x => hay.slice x.start x.stop)
        fun _ _ held _ => by rw [held.haystack]) ⟨_, found, rfl⟩
  · exact Range.mirrored_of_behaves rfl
      (searched.map (g := fun x => (x.start, hay.slice x.start x.stop))
        fun _ _ held _ => by rw [held.haystack]) ⟨_, found, rfl⟩
  · exact Range.isDeque_of_behaves rfl
      ((Split.pieces_behave _ hay).map fun _ _ _ _ => rfl) ⟨_, lined, rfl⟩
  · exact Range.isDeque_of_behaves rfl ((Split.pieces_behave _ hay).filter _) ⟨_, worded, rfl⟩

theorem ranges_are_deques_of_commas :
    let hay := Text.ofList [0x61, 0x2C, 0x62, 0x2C]
    wellFormed hay = true ∧ ∃ told left,
      (hay.splitTerminator (.character (.rune 0x2C))).drive? [.back, .front] = some (told, left) ∧
        Range.atFront told ++ left.toList ++ (Range.atBack told).reverse =
          (hay.splitTerminator (.character (.rune 0x2C))).toList := by
  intro hay
  have wellFormedHay : wellFormed hay = true := by decide
  obtain ⟨_, ⟨deque, _⟩, _⟩ := ranges_are_deques wellFormedHay (.rune 0x2C)
  obtain ⟨told, left, driven, apart, _⟩ := deque [.back, .front]
  exact ⟨wellFormedHay, told, left, driven, apart⟩

end Text
end TextSearch
