import TextSearch.Proofs.Replace
import TextSearch.Proofs.Utf8.Cuts

/-!
Replacing by foreign text. Where a needle occurs in a well-formed text, its characters stand one behind
another among those of the text. A replacement that has none of these characters can be no part of an
occurrence, however many bytes it shares with the needle, so a copy has no occurrence that was not left
in the text beside the matches, and there is none left.
-/
namespace TextSearch
open Utf8 Text

section Seams
variable {α : Type} {word foreign front back : List α}

theorem infix_behind (nonempty : word ≠ []) (apart : ∀ a ∈ foreign, a ∉ word)
    (stands : word <:+: foreign ++ back) : word <:+: back := by
  rcases List.infix_append_iff.mp stands with within | behind | ⟨l, r, rfl, ends, begins⟩
  · obtain ⟨a, member⟩ := List.exists_mem_of_ne_nil word nonempty
    exact absurd member (apart a (within.subset member))
  · exact behind
  · cases l with
    | nil => exact begins.isInfix
    | cons a l =>
      exact absurd List.mem_cons_self (apart a (ends.subset List.mem_cons_self))

theorem infix_beside (nonempty : word ≠ []) (apart : ∀ a ∈ foreign, a ∉ word) (separate : foreign ≠ [])
    (stands : word <:+: front ++ (foreign ++ back)) : word <:+: front ∨ word <:+: back := by
  rcases List.infix_append_iff.mp stands with before | behind | ⟨l, r, rfl, ends, begins⟩
  · exact Or.inl before
  · exact Or.inr (infix_behind nonempty apart behind)
  · cases r with
    | nil =>
      rw [List.append_nil]
      exact Or.inl ends.isInfix
    | cons a r =>
      obtain ⟨b, others, rfl⟩ := List.exists_cons_of_ne_nil separate
      obtain ⟨rfl, _⟩ := List.cons_prefix_cons.mp begins
      have member : a ∈ l ++ a :: r := List.mem_append_right l List.mem_cons_self
      exact absurd member (apart a List.mem_cons_self)

end Seams

namespace Text
variable {hay needle new : Text} {cs ds : List Rune} {i j : Nat} {ms : List Step}

section Occurrences
variable (nonempty : 0 < needle.size) (spelledNeedle : Spells ds needle.toList)
include nonempty spelledNeedle

theorem occurs_iff_letters (spelled : Spells cs hay.toList) :
    (∃ i, OccursAt needle hay i) ↔ ds <:+: cs := by
  constructor
  · rintro ⟨i, occurs⟩
    have wellFormedHay := wellFormed_of_spells spelled
    have wellFormedNeedle := wellFormed_of_spells spelledNeedle
    have first := boundary_before wellFormedNeedle nonempty occurs
    have last := boundary_behind wellFormedNeedle nonempty wellFormedHay occurs
    have whole : Run hay 0 cs hay.size := Run.whole_iff.mpr spelled
    obtain ⟨upto, behind, rfl, left, _⟩ := whole.cut_at last (Nat.zero_le _) occurs.1
    obtain ⟨before, within, rfl, _, run⟩ := left.cut_at first (Nat.zero_le i) (Nat.le_add_right _ _)
    have same : (hay.slice i (i + needle.size)).toList = needle.toList := slice_of_occursAt occurs
    obtain rfl : within = ds := (same ▸ run.spells).unique spelledNeedle
    exact ⟨before, behind, rfl⟩
  · rintro ⟨before, behind, rfl⟩
    have bytes := spelled.2
    rw [List.flatMap_append, List.flatMap_append, spelledNeedle.2, List.append_assoc] at bytes
    have inside : (before.flatMap encode).length ≤ hay.size := by
      rw [← length_toList, ← bytes, List.length_append]
      exact Nat.le_add_right _ _
    have begins : hay.toList.drop (before.flatMap encode).length =
        needle.toList ++ behind.flatMap encode := by
      rw [← bytes, List.drop_left]
    exact ⟨_, occursAt_of_drop inside begins⟩

theorem not_infix_of_clear (run : Run hay i cs j) (inside : j ≤ hay.size)
    (clear : Clear needle hay i j) : ¬ ds <:+: cs := by
  rw [← occurs_iff_letters nonempty spelledNeedle run.spells]
  rintro ⟨k, occurs⟩
  obtain ⟨here, ends⟩ := (occursAt_slice run.le inside).mp occurs
  exact clear (i + k) (Nat.le_add_right i k) ends here

theorem spells_splice (wellFormedHay : wellFormed hay = true) (spelledNew : Spells cs new.toList)
    (nonemptyNew : 0 < new.size) (foreign : ∀ c ∈ cs, c ∉ ds) (boundary : isBoundary hay i = true)
    (parted : Parted (Occurrence needle hay) (Clear needle hay) i ms hay.size) :
    ∃ rs, Spells rs (join (spliceFrom hay new i ms)).toList ∧ ¬ ds <:+: rs := by
  rw [toList_join]
  induction ms generalizing i with
  | nil =>
    cases parted with
    | nil le clear =>
      obtain ⟨rs, run⟩ := exists_run wellFormedHay boundary isBoundary_end le
      refine ⟨rs, ?_, not_infix_of_clear nonempty spelledNeedle run (Nat.le_refl _) clear⟩
      rw [spliceFrom, List.flatMap_singleton]
      exact run.spells
  | cons m ms ih =>
    cases parted with
    | cons le clear ordered matched others =>
      obtain ⟨occurs, stop⟩ := matched
      have wellFormedNeedle := wellFormed_of_spells spelledNeedle
      have first := boundary_before wellFormedNeedle nonempty occurs
      have last := boundary_behind wellFormedNeedle nonempty wellFormedHay occurs
      obtain ⟨before, run⟩ := exists_run wellFormedHay boundary first le
      obtain ⟨behind, spelled, absent⟩ := ih (stop ▸ last) others
      refine ⟨before ++ (cs ++ behind), ?_, ?_⟩
      · rw [spliceFrom, List.flatMap_cons, List.flatMap_cons]
        exact run.spells.append (spelledNew.append spelled)
      · intro stands
        have letters : ds ≠ [] := spelledNeedle.ne_nil nonempty
        rcases infix_beside letters foreign (spelledNew.ne_nil nonemptyNew) stands with left | right
        · exact not_infix_of_clear nonempty spelledNeedle run (isBoundary_le first) clear left
        · exact absent right

end Occurrences

section Sizes

theorem size_join_cons (t : Text) (ts : List Text) :
    (join (t :: ts)).size = t.size + (join ts).size := by
  rw [← length_toList, ← length_toList t, ← length_toList (join ts), toList_join, toList_join,
    List.flatMap_cons, List.length_append]

theorem size_splice {gap : Nat → Nat → Prop} (new : Text)
    (parted : Parted (Occurrence needle hay) gap i ms hay.size) :
    i + ms.length * needle.size ≤ hay.size ∧
      (join (spliceFrom hay new i ms)).size + (i + ms.length * needle.size) =
        hay.size + ms.length * new.size := by
  induction ms generalizing i with
  | nil =>
    cases parted with
    | nil le _ =>
      have tail : (join (spliceFrom hay new i [])).size = hay.size - i := by
        rw [spliceFrom, size_join_cons, size_slice hay i (Nat.le_refl _)]
        rfl
      rw [tail, List.length_nil, Nat.zero_mul, Nat.zero_mul]
      omega
  | cons m ms ih =>
    cases parted with
    | cons le _ ordered matched others =>
      obtain ⟨room, sizes⟩ := ih others
      have before : (hay.slice i m.start).size = m.start - i :=
        size_slice hay i (Nat.le_trans ordered others.le)
      have stop := matched.2
      rw [spliceFrom, size_join_cons, size_join_cons, before, List.length_cons, Nat.succ_mul,
        Nat.succ_mul]
      omega

end Sizes

theorem hits_of_absent (nonempty : 0 < needle.size) (absent : ∀ i, ¬ OccursAt needle hay i) :
    Searcher.hits.toList (.start hay (.substring needle)) = [] := by
  obtain ⟨parted, _⟩ := Searcher.parted_of_nonempty hay nonempty
  rw [List.eq_nil_iff_forall_not_mem]
  intro m member
  exact absent m.start (parted.hit_of_mem m member).1

theorem replace_of_absent (nonempty : 0 < needle.size) (absent : ∀ i, ¬ OccursAt needle hay i)
    (new : Text) : (hay.replace (.substring needle) new).SameBytes hay := by
  have drained := hits_of_absent nonempty absent
  have few : hay.count (.substring needle) ≤ unlimited := by
    rw [count_eq_length, drained]
    exact Nat.zero_le _
  rw [SameBytes, replace_of_few few, drained, spliceFrom, slice_self, toList_join,
    List.flatMap_singleton]

/-- When a non-empty needle is replaced in a well-formed text by a non-empty one that has no character
    in common with it, the copy has no occurrence of the needle, replacing once more changes nothing,
    and each match has made the copy shorter by the needle and longer by its replacement. Offsets are
    machine words, so a text has no more matches than can be replaced. -/
theorem replace_removes {hay needle new : Text} {cs ds : List Rune}
    (wellFormedHay : wellFormed hay = true) (fits : hay.size ≤ unlimited)
    (spelledNeedle : Spells ds needle.toList) (nonempty : 0 < needle.size)
    (spelledNew : Spells cs new.toList) (nonemptyNew : 0 < new.size) (foreign : ∀ c ∈ cs, c ∉ ds) :
    let p := Pattern.substring needle
    let copy := hay.replace p new
    (∀ i, ¬ OccursAt needle copy i) ∧ copy.contains p = false ∧
      (copy.replace p new).SameBytes copy ∧
      hay.count p * needle.size ≤ hay.size ∧
      copy.size = hay.size - hay.count p * needle.size + hay.count p * new.size := by
  intro p copy
  obtain ⟨parted, _⟩ := Searcher.parted_of_nonempty hay nonempty
  have number : (Searcher.hits.toList (.start hay p)).length = hay.count p :=
    (count_eq_length hay p).symm
  obtain ⟨room, sizes⟩ := size_splice new parted
  rw [number, Nat.zero_add] at room sizes
  have few : hay.count p ≤ unlimited :=
    Nat.le_trans (Nat.le_trans (Nat.le_mul_of_pos_right _ nonempty) room) fits
  have parts : copy = join (spliceFrom hay new 0 (Searcher.hits.toList (.start hay p))) :=
    replace_of_few few new
  obtain ⟨rs, spelled, apart⟩ := spells_splice nonempty spelledNeedle wellFormedHay spelledNew
    nonemptyNew foreign isBoundary_start parted
  rw [← parts] at sizes spelled
  have nowhere : ¬ ∃ i, OccursAt needle copy i :=
    fun occurs => apart ((occurs_iff_letters nonempty spelledNeedle spelled).mp occurs)
  have absent : ∀ i, ¬ OccursAt needle copy i := not_exists.mp nowhere
  refine ⟨absent, ?_, replace_of_absent nonempty absent new, room, ?_⟩
  · rw [← Bool.not_eq_true, contains_substring_iff]
    exact nowhere
  · omega

/-- The two letters share their first byte. -/
theorem replace_removes_of_accents :
    let hay := Text.ofList [0x61, 0xC3, 0xA9, 0xC3, 0xA9]
    let needle := Text.ofList [0xC3, 0xA9]
    let new := Text.ofList [0xC3, 0xA8, 0xC3, 0xA8]
    let copy := hay.replace (.substring needle) new
    wellFormed hay = true ∧ hay.size ≤ unlimited ∧ Spells [0xE9] needle.toList ∧ 0 < needle.size ∧
      Spells [0xE8, 0xE8] new.toList ∧ 0 < new.size ∧ copy.contains (.substring needle) = false ∧
      copy.size = 5 - hay.count (.substring needle) * 2 + hay.count (.substring needle) * 4 := by
  intro hay needle new copy
  have wellFormedHay : wellFormed hay = true := by decide
  have fits : hay.size ≤ unlimited := by decide
  have spelledNeedle : Spells [0xE9] needle.toList := ⟨by simp [isScalar], by decide⟩
  have nonempty : 0 < needle.size := by decide
  have spelledNew : Spells [0xE8, 0xE8] new.toList := ⟨by simp [isScalar], by decide⟩
  have nonemptyNew : 0 < new.size := by decide
  have foreign : ∀ c ∈ ([0xE8, 0xE8] : List Rune), c ∉ ([0xE9] : List Rune) := by simp
  obtain ⟨_, absent, _, _, sizes⟩ := replace_removes wellFormedHay fits spelledNeedle nonempty
    spelledNew nonemptyNew foreign
  exact ⟨wellFormedHay, fits, spelledNeedle, nonempty, spelledNew, nonemptyNew, absent, sizes⟩

end Text
end TextSearch
