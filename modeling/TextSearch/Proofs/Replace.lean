import TextSearch.Replace
import TextSearch.Proofs.Range.Counted

/-!
To replace matches is to join the pieces beside them with what takes their place. All matches of a
text are fewer than the greatest machine word, so that a limit of that many is none.
-/
namespace TextSearch
open Utf8

namespace Text
variable {hay : Text} {p : Pattern} {cs : List Rune} {i : Nat}

theorem spliceFrom_eq (t new : Text) (last : Nat) (ms : List Step) :
    spliceFrom t new last ms = (t.cut true last t.size ms).intersperse new := by
  rw [intersperse_cut]
  induction ms generalizing last with
  | nil => rfl
  | cons m ms ih => rw [spliceFrom, ih, cut_cons, List.map_cons, alternate]

theorem replaceAtMost_eq (hay : Text) (p : Pattern) (new : Text) (limit : Nat) :
    hay.replaceAtMost p new limit = join ((hay.splitAtMost (limit + 1) p).toList.intersperse new) := by
  rw [replaceAtMost, spliceFrom_eq, FiniteStream.take_eq, toList_splitAtMost]

theorem replace_of_few (few : hay.count p ≤ unlimited) (new : Text) :
    hay.replace p new = join (spliceFrom hay new 0 (Searcher.hits.toList (.start hay p))) := by
  rw [count_eq_length] at few
  rw [replace, replaceAtMost, FiniteStream.take_eq, List.take_of_length_le few]

section Bounds

theorem length_found_reportsFrom (i : Nat) (cs : List Rune) :
    ((BoundarySearcher.reportsFrom i cs).filter Step.isFound).length = cs.length + 1 := by
  induction cs generalizing i with
  | nil => rfl
  | cons c cs ih => exact congrArg Nat.succ (ih _)

theorem length_le_of_spells (spelled : Spells cs hay.toList) : cs.length ≤ hay.size := by
  rw [← spelled.countP_eq_length, ← length_toList hay]
  exact List.countP_le_length

theorem count_le (wellFormedHay : wellFormed hay = true) (p : Pattern) :
    hay.count p ≤ hay.size + 1 := by
  rw [count_eq_length]
  have most := FiniteStream.length_toList_le Searcher.hits (.start hay p)
  cases p with
  | character m => exact Nat.le_succ_of_le most
  | substring needle =>
    by_cases nonempty : 0 < needle.size
    · rw [Searcher.start_of_nonempty nonempty] at most ⊢
      exact Nat.le_succ_of_le most
    · obtain ⟨cs, spelled⟩ := wellFormedBytes_iff.mp wellFormedHay
      rw [(Searcher.hits_of_empty (by omega) spelled).1, length_found_reportsFrom]
      exact Nat.succ_le_succ (length_le_of_spells spelled)

end Bounds

/-- With at most `limit` matches replaced a text is its first `limit` pieces and the rest, joined by the
    replacement. With all of them replaced it is all its pieces, since no text that fits into memory has
    as many matches as the greatest limit allows. -/
theorem replace_joins_pieces {hay : Text} (wellFormedHay : wellFormed hay = true) (p : Pattern)
    (new : Text) :
    (∀ limit, hay.replaceAtMost p new limit =
      join ((hay.splitAtMost (limit + 1) p).toList.intersperse new)) ∧
    (hay.size < 2 ^ 63 → hay.count p < unlimited ∧
      hay.replace p new = join ((hay.split p).toList.intersperse new)) := by
  refine ⟨replaceAtMost_eq hay p new, ?_⟩
  intro fits
  have most := count_le wellFormedHay p
  have below : hay.count p < unlimited := by
    have word : (2 ^ 63 : Nat) = 9223372036854775808 := rfl
    have greatest : unlimited = 18446744073709551615 := rfl
    omega
  refine ⟨below, ?_⟩
  rw [count_eq_length] at below
  rw [replace, replaceAtMost_eq, toList_splitAtMost, toList_split,
    List.take_of_length_le (Nat.le_of_lt below)]

theorem replace_joins_pieces_of_empty :
    let hay := Text.ofList [0x61, 0xC3, 0xA9]
    let new := Text.ofList [0x2D]
    wellFormed hay = true ∧ hay.size < 2 ^ 63 ∧
      hay.replace (.substring .empty) new =
        join ((hay.split (.substring .empty)).toList.intersperse new) := by
  intro hay new
  have wellFormedHay : wellFormed hay = true := by decide
  have fits : hay.size < 2 ^ 63 := by decide
  exact ⟨wellFormedHay, fits, ((replace_joins_pieces wellFormedHay _ new).2 fits).2⟩

end Text
end TextSearch
