import TextSearch.Proofs.EmptyNeedle
import TextSearch.Proofs.Range.Terminated
import TextSearch.Proofs.TwoWay.Safety

/-!
Final refusals. A stream that refuses for good once it has refused stands for the list of what it still
has to give. The searches for matches are such streams from either end, and so are the splits, since a
split is finished by the call that it refuses.
-/
namespace TextSearch
open Utf8

namespace FiniteStream
variable {σ α β : Type} {S : FiniteStream σ α} {P : σ → Prop}

structure Settles (P : σ → Prop) (S : FiniteStream σ α) : Prop where
  keeps : ∀ s, P s → P (S.next s).2
  final : ∀ s, P s → (S.next s).1 = none → (S.next (S.next s).2).1 = none

namespace Settles
variable (settles : Settles P S)
include settles

theorem simulates : Simulates (fun s l => P s ∧ S.toList s = l) S Deque.front := by
  rintro s _ ⟨holds, rfl⟩
  refine ⟨next_eq_head? S s, settles.keeps s holds, ?_⟩
  have final := settles.final s holds
  rcases answer : S.next s with ⟨_ | x, t⟩
  · rw [answer] at final
    have refused := final rfl
    rw [next_eq_head?, List.head?_eq_none_iff] at refused
    rw [toList_of_none answer]
    exact refused
  · rw [toList_of_some answer]
    rfl

theorem filter (p : α → Bool) : Settles P (S.filter p) where
  keeps s holds := findNext_keeps settles.keeps holds
  final s holds refused := by
    change (S.findNext p s).1 = none at refused
    show (S.findNext p (S.findNext p s).2).1 = none
    fun_induction findNext S p s with
    | case1 s t answer =>
      have again := settles.final s holds (by rw [answer])
      rw [answer] at again
      have passed : S.next t = (none, (S.next t).2) := Prod.ext again rfl
      rw [findNext_of_none p passed]
    | case2 => cases refused
    | case3 s x t answer _ ih =>
      have kept := settles.keeps s holds
      rw [answer] at kept
      exact ih kept refused

theorem map (f : σ → α → β) : Settles P (S.map f) where
  keeps := settles.keeps
  final s holds refused := by
    have again := settles.final s holds (Option.map_eq_none_iff.mp refused)
    exact Option.map_eq_none_iff.mpr again

end Settles
end FiniteStream

section Searchers
open FiniteStream

theorem CharacterSearcher.steps_settle : Settles (fun _ => True) steps where
  keeps _ _ := trivial
  final s _ refused := by
    simp only [steps, next] at refused ⊢
    split at refused <;> simp_all

theorem CharacterSearcher.stepsBack_settle : Settles (fun _ => True) stepsBack where
  keeps _ _ := trivial
  final s _ refused := by
    simp only [stepsBack, nextBack] at refused ⊢
    split at refused <;> simp_all

theorem BoundarySearcher.steps_settle : Settles (fun _ => True) steps where
  keeps _ _ := trivial
  final _ _ refused := congrArg Prod.fst (nexts_of_finished (finished_of_none refused)).1

theorem BoundarySearcher.stepsBack_settle : Settles (fun _ => True) stepsBack where
  keeps _ _ := trivial
  final _ _ refused := congrArg Prod.fst (nexts_of_finished (finished_of_none_back refused)).2

theorem TwoWay.Scan.call_settles (d : Needle) (hay : Text) (k : Call) :
    Settles (fun s : Scan => s.Ready d hay) k.stream where
  keeps := call_ready k
  final s ready refused :=
    (call_exhausted (call_ready k s ready) (exhausted_of_none ready k refused) k).1 rfl

namespace Searcher

def Ready : Searcher → Prop
  | characters _ => True
  | boundaries _ => True
  | occurrences s => ∃ d hay, s.Ready d hay

theorem start_ready (hay : Text) (p : Pattern) : Ready (start hay p) := by
  cases p with
  | character m => trivial
  | substring needle =>
    by_cases nonempty : 0 < needle.size
    · rw [start_of_nonempty nonempty]
      exact ⟨_, _, TwoWay.Scan.start_ready _ hay⟩
    · rw [start_of_empty (by omega)]
      trivial

theorem dispatch_settles {c : FiniteStream CharacterSearcher Step}
    {b : FiniteStream BoundarySearcher Step} {o : FiniteStream TwoWay.Scan Step}
    (characters : Settles (fun _ => True) c) (boundaries : Settles (fun _ => True) b)
    (occurrences : ∀ d hay, Settles (fun s : TwoWay.Scan => s.Ready d hay) o) :
    Settles Ready (dispatch c b o) where
  keeps s ready := by
    cases s with
    | characters => trivial
    | boundaries => trivial
    | occurrences s =>
      obtain ⟨d, hay, ready⟩ := ready
      exact ⟨d, hay, (occurrences d hay).keeps s ready⟩
  final s ready refused := by
    cases s with
    | characters s => exact characters.final s trivial refused
    | boundaries s => exact boundaries.final s trivial refused
    | occurrences s =>
      obtain ⟨d, hay, ready⟩ := ready
      exact (occurrences d hay).final s ready refused

theorem hits_settle : Settles Ready hits :=
  dispatch_settles (CharacterSearcher.steps_settle.filter _) (BoundarySearcher.steps_settle.filter _)
    fun d hay => TwoWay.Scan.call_settles d hay .hits

theorem hitsBack_settle : Settles Ready hitsBack :=
  dispatch_settles (CharacterSearcher.stepsBack_settle.filter _)
    (BoundarySearcher.stepsBack_settle.filter _) fun d hay => TwoWay.Scan.call_settles d hay .hitsBack

end Searcher

/-- Pulling is refused by a finished split, and finishes the split that it is refused by. -/
structure Split.Ends (pull : Split → Option Text × Split) : Prop where
  refuses : ∀ s, s.finished = true → (pull s).1 = none
  finishes : ∀ s, (pull s).1 = none → (pull s).2.finished = true

namespace Split

theorem ends_next : Ends next where
  refuses s ended := by rw [(nexts_of_finished ended).1]
  finishes s refused := by
    cases ended : s.finished with
    | true => rwa [(nexts_of_finished ended).1]
    | false =>
      rcases answer : Searcher.hits.next s.searcher with ⟨_ | m, rest⟩
      · rw [next_of_no_hit ended answer]
      · rw [next_of_hit ended answer] at refused
        cases refused

theorem ends_nextBack : Ends nextBack where
  refuses s ended := by rw [(nexts_of_finished ended).2]
  finishes s refused := by
    cases ended : s.finished with
    | true => rwa [(nexts_of_finished ended).2]
    | false =>
      cases keep : s.keepEmptyTail with
      | true =>
        obtain ⟨piece, s', pulled, _⟩ := exists_pullBack s
        rw [nextBack_of_keep ended keep, pulled] at refused
        cases refused
      | false =>
        obtain ⟨piece, s', pulled, _⟩ := exists_pullBack s.settleTail
        obtain ⟨piece', s'', pulled', _⟩ := exists_pullBack s'
        rw [nextBack_of_drop ended keep pulled, pulled'] at refused ⊢
        -- only an empty tail with nothing before it is refused
        by_cases empty : piece.isEmpty = true
        · rw [if_pos empty] at refused ⊢
          by_cases done : s'.finished = true
          · rwa [if_pos done]
          · rw [if_neg done] at refused
            cases refused
        · rw [if_neg empty] at refused
          cases refused

theorem pieces_settle : Settles (fun _ => True) pieces where
  keeps _ _ := trivial
  final s _ refused := ends_next.refuses _ (ends_next.finishes s refused)

theorem piecesBack_settle : Settles (fun _ => True) piecesBack where
  keeps _ _ := trivial
  final s _ refused := ends_nextBack.refuses _ (ends_nextBack.finishes s refused)

end Split

theorem CountedSplit.pieces_settle {pull : Split → Option Text × Split} (ends : Split.Ends pull) :
    Settles (fun _ => True) (pieces pull) where
  keeps _ _ := trivial
  final s _ refused := by
    obtain ⟨inner, limit⟩ := s
    match limit with
    | 0 => rfl
    | 1 => rfl
    | left + 2 =>
      have ended := ends.finishes inner refused
      show ((pieces pull).next ⟨(pull inner).2, left + 1⟩).1 = none
      rw [next_eq_head?, toList_of_finished ended (ends.refuses _ ended), List.head?_nil]

end Searchers

end TextSearch
