import Mathlib.Logic.Function.Iterate
import TextSearch.Proofs.Lines
import TextSearch.Proofs.Refusals
import TextSearch.Proofs.Words

/-!
Ranges come to their end and stay there. Asked wherever it may be asked, a range gives no more than it
has and is refused for good from the first refusal on; and counting what is left, listing it, asking for
it and walking along it all come to the same number of elements.
-/
namespace TextSearch
open Utf8

namespace Range
variable {σ α : Type}

def Permits (r : Range σ α) (e : End) : Prop := e.isFront = true ∨ r.doubleEnded = true

/-- How a range stands behind calls that were answered as `told` and have left `left` of it. -/
structure Settled (r : Range σ α) (told : List (End × Option α)) (left : Range σ α) : Prop where
  /-- What has been delivered and what is left is as much as there was. -/
  delivered : (told.filterMap Prod.snd).length + left.count = r.count
  /-- No call is answered behind one that was refused. -/
  final : told.Pairwise fun a b => a.2 = none → b.2 = none
  counted : left.count = left.toList.length
  /-- Further calls at the front give what is left, and are refused from then on. -/
  asked : ∀ n, ∃ more rest, left.drive? (List.replicate n .front) = some (more, rest) ∧
    more.map Prod.snd = (List.range n).map fun i => left.toList[i]?
  /-- So does a walk, which is at its end when all of it is behind, and stays there. -/
  walked : ∀ n, (Walk.advance^[n] left.walk).current = left.toList[n]?
  stays : ∀ n, (Walk.advance^[n] left.walk).atEnd = true ↔ left.count ≤ n

/-- A range with no more than `most` elements may be asked any number of times wherever it permits. -/
def Exhausts (r : Range σ α) (most : Nat) : Prop :=
  r.count ≤ most ∧ ∀ ends, (∀ e ∈ ends, r.Permits e) →
    ∃ told left, r.drive? ends = some (told, left) ∧ r.Settled told left

def Lists (R : σ → List α → Prop) (r : Range σ α) : Prop :=
  ∀ e, r.Permits e → FiniteStream.Simulates R (r.stream e) e.ofDeque

variable {r : Range σ α} {R : σ → List α → Prop} {s : σ} {l : List α}

theorem lists_of_behaves (both : Deque.Behaves R r.forward r.backward) : r.Lists R := by
  intro e _
  cases e with
  | front => exact both.front
  | back => exact both.back

theorem lists_of_settles {P : σ → Prop} (single : r.doubleEnded = false)
    (settles : r.forward.Settles P) : r.Lists fun s l => P s ∧ r.forward.toList s = l := by
  intro e permitted
  cases e with
  | front => exact settles.simulates
  | back => simp [Permits, single, End.isFront] at permitted

theorem pull?_of_permits {e : End} (permitted : r.Permits e) (s : σ) : (r.moved s).pull? e =
    some (((r.stream e).next s).1, r.moved ((r.stream e).next s).2) := by
  cases e with
  | front => rfl
  | back => exact pull?_moved (by simpa [Permits, End.isFront] using permitted) s .back

theorem drive?_cons {e : End} {ends : List End} {told : List (End × Option α)} {left : Range σ α}
    (permitted : r.Permits e)
    (driven : (r.moved ((r.stream e).next s).2).drive? ends = some (told, left)) :
    (r.moved s).drive? (e :: ends) = some ((e, ((r.stream e).next s).1) :: told, left) := by
  rw [drive?, pull?_of_permits permitted, Option.bind_eq_bind, Option.bind_some]
  dsimp only
  rw [driven]
  rfl

theorem End.length_ofDeque (e : End) (l : List α) :
    (e.ofDeque.next l).1.toList.length + (e.ofDeque.next l).2.length = l.length := by
  cases e with
  | front => cases l <;> simp [ofDeque, isFront, Deque.front, Nat.add_comm]
  | back =>
    rcases List.eq_nil_or_concat l with rfl | ⟨rest, x, rfl⟩ <;>
      simp [ofDeque, isFront, Deque.back, Nat.add_comm]

section Lists
variable (lists : r.Lists R) (holds : R s l)
include lists holds

theorem toList_of_lists : (r.moved s).toList = l :=
  ((lists .front (Or.inl rfl)).toList holds).trans (Deque.toList_front l)

theorem drive?_of_lists {ends : List End} (permitted : ∀ e ∈ ends, r.Permits e) :
    ∃ told t rest, (r.moved s).drive? ends = some (told, r.moved t) ∧ R t rest ∧
      (told.filterMap Prod.snd).length + rest.length = l.length ∧
      told.Pairwise fun a b => a.2 = none → b.2 = none := by
  induction ends generalizing s l with
  | nil => exact ⟨[], s, l, rfl, holds, Nat.zero_add _, .nil⟩
  | cons e ends ih =>
    obtain ⟨here, later⟩ := List.forall_mem_cons.mp permitted
    obtain ⟨answer, left⟩ := lists e here s l holds
    obtain ⟨told, t, rest, driven, holds', delivered, refused⟩ := ih left later
    have shorter := e.length_ofDeque l
    rw [← answer] at shorter
    refine ⟨(e, ((r.stream e).next s).1) :: told, t, rest, ?_, holds', ?_, ?_⟩
    · exact drive?_cons here driven
    · have one : ([(e, ((r.stream e).next s).1)].filterMap Prod.snd).length =
          ((r.stream e).next s).1.toList.length := by
        cases ((r.stream e).next s).1 <;> rfl
      rw [← List.singleton_append, List.filterMap_append, List.length_append, one]
      omega
    · refine List.pairwise_cons.mpr ⟨fun a member none_left => ?_, refused⟩
      -- a refusal says that the list is empty, and then nothing can be delivered any more
      have empty : l = [] := (e.next_ofDeque l).mp (answer.symm.trans none_left)
      have none_there : l.length = 0 := List.length_eq_zero_iff.mpr empty
      have nothing : told.filterMap Prod.snd = [] := List.eq_nil_of_length_eq_zero (by omega)
      exact List.filterMap_eq_nil_iff.mp nothing a member

theorem drive?_replicate (n : Nat) : ∃ told rest,
    (r.moved s).drive? (List.replicate n .front) = some (told, rest) ∧
      told.map Prod.snd = (List.range n).map fun i => l[i]? := by
  induction n generalizing s l with
  | zero => exact ⟨[], _, rfl, rfl⟩
  | succ n ih =>
    obtain ⟨answer, left⟩ := lists .front (Or.inl rfl) s l holds
    obtain ⟨told, rest, driven, same⟩ := ih left
    refine ⟨_, rest, drive?_cons (Or.inl rfl) driven, ?_⟩
    rw [List.map_cons, same, List.range_succ_eq_map, List.map_cons, List.map_map,
      ← List.head?_eq_getElem?]
    congr 1
    apply List.map_congr_left
    intro i _
    exact List.getElem?_tail

theorem current_of_lists (n : Nat) : (Walk.advance^[n] (r.moved s).walk).current = l[n]? := by
  induction n generalizing s l with
  | zero =>
    obtain ⟨answer, _⟩ := lists .front (Or.inl rfl) s l holds
    exact answer.trans List.head?_eq_getElem?
  | succ n ih =>
    obtain ⟨_, left⟩ := lists .front (Or.inl rfl) s l holds
    have later := ih left
    rw [Function.iterate_succ_apply]
    exact later.trans List.getElem?_tail

end Lists

theorem exhausts_of_lists {most : Nat} (lists : r.Lists R) (holds : R r.state l)
    (few : l.length ≤ most) : r.Exhausts most := by
  have number : ∀ t rest, R t rest → (r.moved t).count = rest.length := by
    intro t rest holds
    rw [← toList_of_lists lists holds]
    exact FiniteStream.count_eq_length _ _
  have whole : r.count = l.length := number _ _ holds
  refine ⟨whole ▸ few, fun ends permitted => ?_⟩
  obtain ⟨told, t, rest, driven, left, delivered, refused⟩ := drive?_of_lists lists holds permitted
  have listed := toList_of_lists lists left
  have counted := number t rest left
  refine ⟨told, r.moved t, driven, ⟨?_, refused, ?_, fun n => ?_, fun n => ?_, fun n => ?_⟩⟩
  · rw [counted, whole, delivered]
  · rw [counted, listed]
  · rw [listed]
    exact drive?_replicate lists left n
  · rw [listed]
    exact current_of_lists lists left n
  · rw [Walk.atEnd, current_of_lists lists left, counted]
    simp

theorem exhausts_of_settles {P : σ → Prop} {most : Nat} (single : r.doubleEnded = false)
    (settles : r.forward.Settles P) (start : P r.state) (few : r.toList.length ≤ most) :
    r.Exhausts most :=
  exhausts_of_lists (lists_of_settles single settles) ⟨start, rfl⟩ few

theorem exhausts_of_behaves {most : Nat} (both : Deque.Behaves R r.forward r.backward)
    (holds : R r.state l) (few : r.toList.length ≤ most) :
    r.Exhausts most ∧ r.reverse.Exhausts most := by
  have whole : r.toList = l := (both.toList holds).1
  rw [whole] at few
  have holds' : R r.state l.reverse.reverse := by rwa [List.reverse_reverse]
  exact ⟨exhausts_of_lists (lists_of_behaves both) holds few,
    exhausts_of_lists (r := r.reverse) (lists_of_behaves both.reverse) holds' (by simpa)⟩

end Range

namespace Text
variable {hay : Text}

section Bounds

theorem length_cut_le (t : Text) (keep : Bool) (i j : Nat) (ms : List Step) :
    (t.cut keep i j ms).length ≤ ms.length + 1 := by
  induction ms generalizing i with
  | nil => rw [cut]; split <;> simp
  | cons m ms ih => exact Nat.succ_le_succ (ih _)

theorem length_dropEmptyHead_le (pieces : List Text) :
    (Split.dropEmptyHead pieces).length ≤ pieces.length := by
  cases pieces with
  | nil => exact Nat.le_refl _
  | cons piece pieces =>
    rw [Split.dropEmptyHead]
    split <;> simp

variable (wellFormedHay : wellFormed hay = true) (p : Pattern)
include wellFormedHay

theorem length_hitsBack_le : (Searcher.hitsBack.toList (.start hay p)).length ≤ hay.size + 1 := by
  have most := FiniteStream.length_toList_le Searcher.hitsBack (.start hay p)
  cases p with
  | character m => exact Nat.le_succ_of_le most
  | substring needle =>
    by_cases nonempty : 0 < needle.size
    · rw [Searcher.start_of_nonempty nonempty] at most ⊢
      exact Nat.le_succ_of_le most
    · obtain ⟨cs, spelled⟩ := wellFormedBytes_iff.mp wellFormedHay
      obtain ⟨forth, back⟩ := Searcher.hits_of_empty (by omega : needle.size = 0) spelled
      have few := count_le wellFormedHay (.substring needle)
      rw [count_eq_length, forth] at few
      rwa [back, List.length_reverse]

theorem length_hits_le : (Searcher.hits.toList (.start hay p)).length ≤ hay.size + 1 := by
  rw [← count_eq_length]
  exact count_le wellFormedHay p

theorem length_pieces_le (keep : Bool) :
    (Split.pieces.toList (.ofText hay p keep)).length ≤ hay.size + 2 := by
  have few := length_hits_le wellFormedHay p
  rw [Split.toList_pieces (s := .ofText hay p keep) rfl]
  exact Nat.le_trans (length_cut_le ..) (Nat.succ_le_succ few)

theorem length_piecesBack_le (keep : Bool) :
    (Split.piecesBack.toList (.ofText hay p keep)).length ≤ hay.size + 2 := by
  have few := length_hitsBack_le wellFormedHay p
  have whole : (hay.rsplit p).toList.length ≤ hay.size + 2 := by
    rw [length_rsplit, count_rhits]
    exact Nat.succ_le_succ few
  cases keep with
  | true => exact whole
  | false =>
    have short := length_dropEmptyHead_le (hay.rsplit p).toList
    rw [← toList_rsplitTerminator] at short
    exact Nat.le_trans short whole

end Bounds

section Kinds
variable (wellFormedHay : wellFormed hay = true) (p : Pattern)
include wellFormedHay

theorem splits_exhaust (keep : Bool) :
    let r : Range Split Text :=
      ⟨.ofText hay p keep, Split.pieces, Split.piecesBack, p.doubleEnded⟩
    r.Exhausts (hay.size + 2) ∧ r.reverse.Exhausts (hay.size + 2) := by
  have few := length_pieces_le wellFormedHay p keep
  have fewBack := length_piecesBack_le wellFormedHay p keep
  cases p with
  | character m =>
    obtain ⟨_, holds⟩ := Split.ofText_holds wellFormedHay m keep
    exact Range.exhausts_of_behaves (Split.pieces_behave m hay) holds few
  | substring needle =>
    exact ⟨Range.exhausts_of_settles rfl Split.pieces_settle trivial few,
      Range.exhausts_of_settles rfl Split.piecesBack_settle trivial fewBack⟩

theorem searches_exhaust {α : Type} (tell : Text → Step → α) :
    let r : Range Searcher α := ⟨.start hay p, Searcher.hits.map fun s => tell s.haystack,
      Searcher.hitsBack.map fun s => tell s.haystack, p.doubleEnded⟩
    r.Exhausts (hay.size + 2) ∧ r.reverse.Exhausts (hay.size + 2) := by
  intro r
  have few : r.toList.length ≤ hay.size + 2 := by
    rw [Range.toList, toList_hits_map, List.length_map]
    exact Nat.le_succ_of_le (length_hits_le wellFormedHay p)
  have fewBack : r.reverse.toList.length ≤ hay.size + 2 := by
    rw [Range.toList, Range.reverse, toList_hitsBack_map, List.length_map]
    exact Nat.le_succ_of_le (length_hitsBack_le wellFormedHay p)
  have ready := Searcher.start_ready hay p
  cases p with
  | character m =>
    have searched := (Searcher.found_behaves m hay).map (f := fun s => tell s.haystack)
      (g := tell hay) fun _ _ held _ => by rw [held.haystack]
    exact Range.exhausts_of_behaves searched ⟨_, Searcher.holdsFound_hits wellFormedHay m, rfl⟩ few
  | substring needle =>
    exact ⟨Range.exhausts_of_settles rfl (Searcher.hits_settle.map _) ready few,
      Range.exhausts_of_settles rfl (Searcher.hitsBack_settle.map _) ready fewBack⟩

theorem counted_splits_exhaust (limit : Nat) : (hay.splitAtMost limit p).Exhausts (hay.size + 2) ∧
    (hay.rsplitAtMost limit p).Exhausts (hay.size + 2) := by
  have few := length_hits_le wellFormedHay p
  have fewBack := length_hitsBack_le wellFormedHay p
  constructor
  · refine Range.exhausts_of_settles rfl (CountedSplit.pieces_settle Split.ends_next) trivial ?_
    cases limit with
    | zero => simp [(splitsAtMost_zero hay p).1]
    | succ limit =>
      rw [toList_splitAtMost, length_cut, List.length_take]
      omega
  · refine Range.exhausts_of_settles rfl (CountedSplit.pieces_settle Split.ends_nextBack) trivial ?_
    cases limit with
    | zero => simp [(splitsAtMost_zero hay p).2]
    | succ limit =>
      rw [toList_rsplitAtMost, List.length_reverse, length_cut, List.length_reverse,
        List.length_take]
      omega

omit p in
theorem lines_exhaust : hay.lines.Exhausts (hay.size + 2) := by
  obtain ⟨_, lined⟩ := Split.ofText_holds wellFormedHay (.rune 0x0A) false
  have behave := (Split.pieces_behave (.rune 0x0A) hay).map
    (f := fun _ line => line.dropCarriageReturn) fun _ _ _ _ => rfl
  refine (Range.exhausts_of_behaves (r := hay.lines) behave ⟨_, lined, rfl⟩ ?_).1
  rw [toList_lines, List.length_map]
  exact length_pieces_le wellFormedHay (.character (.rune 0x0A)) false

omit p in
theorem words_exhaust : hay.words.Exhausts (hay.size + 2) := by
  obtain ⟨_, worded⟩ := Split.ofText_holds wellFormedHay .whitespace true
  have behave := (Split.pieces_behave .whitespace hay).filter (!·.isEmpty)
  refine (Range.exhausts_of_behaves (r := hay.words) behave ⟨_, worded, rfl⟩ ?_).1
  rw [toList_words]
  exact Nat.le_trans (List.length_filter_le ..)
    (length_pieces_le wellFormedHay (.character .whitespace) true)

end Kinds

/-- Every range over a well-formed text comes to its end, whatever is searched for and whatever limit is
    set, and stays there. -/
theorem ranges_exhaust {hay : Text} (wellFormedHay : wellFormed hay = true) (p : Pattern)
    (limit : Nat) :
    let most := hay.size + 2
    ((hay.split p).Exhausts most ∧ (hay.rsplit p).Exhausts most) ∧
    ((hay.splitTerminator p).Exhausts most ∧ (hay.rsplitTerminator p).Exhausts most) ∧
    ((hay.splitAtMost limit p).Exhausts most ∧ (hay.rsplitAtMost limit p).Exhausts most) ∧
    ((hay.hits p).Exhausts most ∧ (hay.rhits p).Exhausts most) ∧
    ((hay.hitsAt p).Exhausts most ∧ (hay.rhitsAt p).Exhausts most) ∧
    hay.lines.Exhausts most ∧ hay.words.Exhausts most :=
  ⟨splits_exhaust wellFormedHay p true, splits_exhaust wellFormedHay p false,
    counted_splits_exhaust wellFormedHay p limit,
    searches_exhaust wellFormedHay p fun t m => t.slice m.start m.stop,
    searches_exhaust wellFormedHay p fun t m => (m.start, t.slice m.start m.stop),
    lines_exhaust wellFormedHay, words_exhaust wellFormedHay⟩

theorem ranges_exhaust_of_no_width :
    let hay := Text.ofList [0x61, 0xC3, 0xA9]
    let empty := Pattern.substring .empty
    let blanks := Pattern.character .whitespace
    wellFormed hay = true ∧ (hay.rsplitAtMost 3 empty).Exhausts 5 ∧ (hay.hits empty).Exhausts 5 ∧
      (hay.rsplitTerminator blanks).Exhausts 5 ∧ hay.lines.Exhausts 5 := by
  intro hay empty blanks
  have wellFormedHay : wellFormed hay = true := by decide
  obtain ⟨_, _, ⟨_, counted⟩, ⟨searched, _⟩, _⟩ := ranges_exhaust wellFormedHay empty 3
  obtain ⟨_, ⟨_, terminated⟩, _, _, _, lined, _⟩ := ranges_exhaust wellFormedHay blanks 3
  exact ⟨wellFormedHay, counted, searched, terminated, lined⟩

end Text
end TextSearch
