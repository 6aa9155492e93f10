import Mathlib.Data.List.Forall2
import TextSearch.Range.Lines
import TextSearch.Proofs.Range.BothEnds

/-!
The words of a text are its maximal runs of characters that are no white space. As a split passes from
match to match, they are found as the stretches beside the matches, of which the empty ones lie between
white space and white space or at an end of the text. Words that are put down with white space between
them are read back as they are.
-/
namespace TextSearch
open Utf8 Text

namespace Searcher
variable {hay : Text} {m : Matcher} {i j k l : Nat}

theorem Refused.boundary (refused : Refused m hay i j) (nonempty : i < j) :
    isBoundary hay i = true := by
  obtain ⟨cs, run, _⟩ := refused
  cases run with
  | nil => omega
  | cons first _ => exact first.boundary

theorem Refused.inside (refused : Refused m hay i j) (nonempty : i < j) : j ≤ hay.size := by
  obtain ⟨cs, run, _⟩ := refused
  rcases run.cases_last with ⟨_, here⟩ | ⟨_, _, _, _, _, last⟩
  · omega
  · exact last.inside

theorem Accepted.le_of_boundary (accepted : Accepted m hay i j) (boundary : isBoundary hay k = true)
    (behind : i < k) : j ≤ k := by
  obtain ⟨c, stands, _⟩ := accepted
  exact stands.le_of_boundary boundary behind

theorem Refused.start_of_accepted (refused : Refused m hay i j) (accepted : Accepted m hay k l)
    (le : i ≤ l) (before : l < j) : i = l := by
  by_contra differs
  have boundary := refused.boundary (by omega)
  have range := accepted.range
  by_cases within : k < i
  · have := accepted.le_of_boundary boundary within
    omega
  · exact refused.excludes (by omega) (by omega) accepted

end Searcher

namespace Text
variable {hay : Text} {sep : Matcher} {i j a b : Nat} {ms : List Step}

section Gaps

def gaps (first last : Nat) : List Step → List (Nat × Nat)
  | [] => [(first, last)]
  | m :: ms => (first, m.start) :: gaps m.stop last ms

theorem cut_eq_map_gaps (t : Text) (i j : Nat) (ms : List Step) :
    t.cut true i j ms = (gaps i j ms).map fun r => t.slice r.1 r.2 := by
  induction ms generalizing i with
  | nil => rfl
  | cons m ms ih => rw [cut_cons, ih, gaps, List.map_cons]

theorem range_of_mem_gaps (ordered : Ordered i ms j) :
    ∀ r ∈ gaps i j ms, i ≤ r.1 ∧ r.1 ≤ r.2 ∧ r.2 ≤ j := by
  induction ordered with
  | nil le _ => simpa [gaps] using le
  | cons le _ ordered _ others ih =>
    have after := others.le
    rw [gaps, List.forall_mem_cons]
    refine ⟨⟨Nat.le_refl _, le, by omega⟩, fun r member => ?_⟩
    have := ih r member
    omega

theorem pairwise_gaps {gap : Nat → Nat → Prop} (parted : Parted (· < ·) gap i ms j) :
    (gaps i j ms).Pairwise fun r s => r.2 < s.1 := by
  induction parted with
  | nil => exact List.pairwise_singleton ..
  | cons _ _ _ advances others ih =>
    refine List.pairwise_cons.mpr ⟨fun r member => ?_, ih⟩
    have := range_of_mem_gaps others.ordered r member
    show _ < r.1
    omega

theorem filter_cut (ordered : Ordered i ms j) (inside : j ≤ hay.size) :
    (hay.cut true i j ms).filter (!·.isEmpty) =
      ((gaps i j ms).filter fun r => r.1 < r.2).map fun r => hay.slice r.1 r.2 := by
  rw [cut_eq_map_gaps, List.filter_map]
  congr 1
  apply List.filter_congr
  intro r member
  have range := range_of_mem_gaps ordered r member
  rw [Function.comp_apply, Split.isEmpty_slice range.2.1 (by omega), Bool.eq_iff_iff]
  simp
  omega

end Gaps

section Runs

/-- The bytes from `i` to `j` are characters, at least one, none of them a separator, and no longer
    stretch around them is such. -/
structure MaximalRun (sep : Matcher) (hay : Text) (i j : Nat) : Prop where
  nonempty : i < j
  refused : Searcher.Refused sep hay i j
  longest : ∀ i' j', i' ≤ i → j ≤ j' → Searcher.Refused sep hay i' j' → i' = i ∧ j' = j

variable (parted : Parted (Searcher.Accepted sep hay) (Searcher.Refused sep hay) i ms j)
include parted

theorem edges_of_mem_gaps (member : (a, b) ∈ gaps i j ms) : Searcher.Refused sep hay a b ∧
    (a = i ∨ ∃ k, Searcher.Accepted sep hay k a) ∧ (b = j ∨ ∃ k, Searcher.Accepted sep hay b k) := by
  induction parted with
  | nil _ clear =>
    obtain ⟨rfl, rfl⟩ := Prod.mk.inj (List.mem_singleton.mp member)
    exact ⟨clear, Or.inl rfl, Or.inl rfl⟩
  | cons _ clear _ matched _ ih =>
    rcases List.mem_cons.mp member with here | later
    · obtain ⟨rfl, rfl⟩ := Prod.mk.inj here
      exact ⟨clear, Or.inl rfl, Or.inr ⟨_, matched⟩⟩
    · obtain ⟨refused, left, right⟩ := ih later
      refine ⟨refused, Or.inr ?_, right⟩
      rcases left with rfl | left
      · exact ⟨_, matched⟩
      · exact left

theorem exists_gap_around (from_i : i ≤ a) (nonempty : a < b) (upto : b ≤ j)
    (refused : Searcher.Refused sep hay a b) : ∃ r ∈ gaps i j ms, r.1 ≤ a ∧ b ≤ r.2 := by
  induction parted with
  | nil => exact ⟨_, List.mem_singleton.mpr rfl, from_i, upto⟩
  | @cons i j m ms _ _ _ matched _ ih =>
    by_cases before : b ≤ m.start
    · exact ⟨_, List.mem_cons_self, from_i, before⟩
    · have behind : m.start < a := by
        by_contra first
        exact refused.excludes (by omega) (by omega) matched
      have boundary := refused.boundary nonempty
      obtain ⟨r, member, around⟩ := ih (matched.le_of_boundary boundary behind) upto
      exact ⟨r, List.mem_cons_of_mem _ member, around⟩

end Runs

theorem maximalRun_iff
    (parted : Parted (Searcher.Accepted sep hay) (Searcher.Refused sep hay) 0 ms hay.size) :
    MaximalRun sep hay a b ↔ (a, b) ∈ (gaps 0 hay.size ms).filter fun r => r.1 < r.2 := by
  simp only [List.mem_filter, decide_eq_true_eq]
  constructor
  · rintro ⟨nonempty, refused, longest⟩
    obtain ⟨r, member, first, last⟩ :=
      exists_gap_around parted (Nat.zero_le a) nonempty (refused.inside nonempty) refused
    obtain ⟨around, _⟩ := edges_of_mem_gaps parted member
    obtain ⟨rfl, rfl⟩ := longest r.1 r.2 first last around
    exact ⟨member, nonempty⟩
  · rintro ⟨member, nonempty⟩
    obtain ⟨refused, left, right⟩ := edges_of_mem_gaps parted member
    refine ⟨nonempty, refused, fun i' j' first last wider => ⟨?_, ?_⟩⟩
    · rcases left with rfl | ⟨k, matched⟩
      · omega
      · exact wider.start_of_accepted matched first (by omega)
    · rcases right with rfl | ⟨k, matched⟩
      · have inside := wider.inside (by omega)
        omega
      · by_contra differs
        exact wider.excludes (by omega) (by omega) matched

section Reading

theorem toList_words (hay : Text) : hay.words.toList =
    (hay.split (.character .whitespace)).toList.filter (!·.isEmpty) :=
  FiniteStream.toList_filter _ _ _

theorem words_of_wellFormed (wellFormedHay : wellFormed hay = true) :
    ∃ ranges : List (Nat × Nat), hay.words.toList = ranges.map (fun r => hay.slice r.1 r.2) ∧
      ranges.Pairwise (fun r s => r.2 < s.1) ∧
      ∀ i j, (i, j) ∈ ranges ↔ MaximalRun .whitespace hay i j := by
  obtain ⟨parted, _⟩ := Searcher.parted_of_character wellFormedHay .whitespace
  have apart := pairwise_gaps (parted.mono (fun _ _ matched => matched.range.1) fun _ _ => id)
  refine ⟨_, ?_, apart.filter _, fun i j => (maximalRun_iff parted).symm⟩
  rw [toList_words, toList_split, filter_cut parted.ordered (Nat.le_refl _)]

end Reading

section Writing

def ConsistsOf (test : Rune → Bool) (t : Text) : Prop :=
  ∃ cs, Spells cs t.toList ∧ ∀ c ∈ cs, test c = true

def writeWords (lead : Text) (items : List (Text × Text)) : Text :=
  join (lead :: items.flatMap fun w => [w.1, w.2])

/-- The lists between separators, without the empty ones. -/
def fields (test : Rune → Bool) (cs : List Rune) : List (List Rune) :=
  (cs.splitOnP test).filter (!·.isEmpty)

variable {test : Rune → Bool} {cs blank word : List Rune}

theorem fields_of_blank (separates : ∀ c ∈ blank, test c = true) :
    fields test (blank ++ cs) = fields test cs := by
  induction blank with
  | nil => rfl
  | cons c blank ih =>
    obtain ⟨here, later⟩ := List.forall_mem_cons.mp separates
    rw [← ih later, List.cons_append, fields, List.splitOnP_cons_eq_if_modifyHead, if_pos here]
    rfl

theorem fields_of_word (nonempty : word ≠ []) (whole : ∀ c ∈ word, test c = false)
    (separates : ∀ c ∈ blank, test c = true) (apart : blank = [] → cs = []) :
    fields test (word ++ (blank ++ cs)) = word :: fields test cs := by
  cases blank with
  | nil =>
    rw [apart rfl, List.nil_append, List.append_nil, fields, List.splitOnP_eq_singleton whole]
    simp [nonempty, fields]
  | cons c blank =>
    obtain ⟨here, later⟩ := List.forall_mem_cons.mp separates
    have rest : fields test (blank ++ cs) = fields test cs := fields_of_blank later
    have parts := List.splitOnP_append_cons_of_forall_mem whole c here (blank ++ cs)
    rw [List.cons_append, fields, parts, ← rest, fields, List.filter_cons_of_pos (by simpa)]

theorem cut_at_characters
    (parted : Parted (Searcher.Accepted sep hay) (Searcher.Refused sep hay) i ms j) :
    ∃ cs, Run hay i cs j ∧ List.Forall₂ (fun ds t => Spells ds t.toList) (cs.splitOnP sep.accepts)
      (hay.cut true i j ms) := by
  induction parted with
  | nil _ clear =>
    obtain ⟨cs, run, refused⟩ := clear
    refine ⟨cs, run, ?_⟩
    rw [List.splitOnP_eq_singleton refused]
    exact .cons run.spells .nil
  | cons _ clear _ matched _ ih =>
    obtain ⟨ds, before, refused⟩ := clear
    obtain ⟨c, stands, accepted⟩ := matched
    obtain ⟨cs, behind, spelled⟩ := ih
    refine ⟨ds ++ c :: cs, Run.append_iff.mpr ⟨_, before, .cons stands behind⟩, ?_⟩
    rw [List.splitOnP_append_cons_of_forall_mem refused c accepted]
    exact .cons before.spells spelled

theorem isEmpty_of_spells {t : Text} (spelled : Spells cs t.toList) :
    cs.isEmpty = t.isEmpty := by
  rw [← isEmpty_toList]
  cases cs with
  | nil => rw [← spelled.2]; rfl
  | cons c cs =>
    obtain ⟨scalar, rest, bytes, _⟩ := spelled.split
    obtain ⟨lead, trail, same, _⟩ := Spells.isCharacter_encode scalar
    rw [bytes, same]
    rfl

theorem words_spelled (spelled : Spells cs hay.toList) :
    List.Forall₂ (fun ds t => Spells ds t.toList) (fields isWhitespace cs) hay.words.toList := by
  obtain ⟨parted, _⟩ := Searcher.parted_of_character (wellFormed_of_spells spelled) .whitespace
  obtain ⟨ds, run, pieces⟩ := cut_at_characters parted
  obtain rfl := spelled.unique (Run.whole_iff.mp run)
  rw [toList_words, toList_split]
  refine List.rel_filter ?_ pieces
  intro ds t told
  simp [← isEmpty_of_spells told]

theorem map_toList_of_spells {spellings : List (List Rune)} {ts : List Text}
    (spelled : List.Forall₂ (fun ds t => Spells ds t.toList) spellings ts) :
    ts.map toList = spellings.map fun ds => ds.flatMap encode := by
  induction spelled with
  | nil => rfl
  | cons here _ ih => rw [List.map_cons, List.map_cons, ih, here.2]

theorem fields_of_items {items : List (Text × Text)}
    (words : ∀ w ∈ items, 0 < w.1.size ∧ ConsistsOf (!isWhitespace ·) w.1)
    (blanks : ∀ w ∈ items, ConsistsOf isWhitespace w.2)
    (apart : ∀ w ∈ items.dropLast, 0 < w.2.size) :
    ∃ cs, Spells cs ((items.flatMap fun w => [w.1, w.2]).flatMap toList) ∧
      List.Forall₂ (fun ds t => Spells ds t.toList) (fields isWhitespace cs)
        (items.map Prod.fst) := by
  induction items with
  | nil => exact ⟨[], .nil, .nil⟩
  | cons w items ih =>
    obtain ⟨⟨nonempty, word, spelledWord, whole⟩, words⟩ := List.forall_mem_cons.mp words
    obtain ⟨⟨blank, spelledBlank, separates⟩, blanks⟩ := List.forall_mem_cons.mp blanks
    have later : ∀ v ∈ items.dropLast, 0 < v.2.size := by
      intro v member
      cases items with
      | nil => cases member
      | cons => exact apart v (List.mem_cons_of_mem _ member)
    obtain ⟨cs, spelled, told⟩ := ih words blanks later
    refine ⟨word ++ (blank ++ cs), ?_, ?_⟩
    · simpa using spelledWord.append (spelledBlank.append spelled)
    · have last : blank = [] → cs = [] := by
        rintro rfl
        cases items with
        | nil => exact spelled.eq_nil
        | cons => exact absurd rfl (spelledBlank.ne_nil (apart w List.mem_cons_self))
      rw [fields_of_word (spelledWord.ne_nil nonempty) (by simpa using whole) separates last]
      exact .cons spelledWord told

theorem words_of_written {lead : Text} {items : List (Text × Text)}
    (leading : ConsistsOf isWhitespace lead)
    (words : ∀ w ∈ items, 0 < w.1.size ∧ ConsistsOf (!isWhitespace ·) w.1)
    (blanks : ∀ w ∈ items, ConsistsOf isWhitespace w.2)
    (apart : ∀ w ∈ items.dropLast, 0 < w.2.size) (written : hay.SameBytes (writeWords lead items)) :
    hay.words.toList.map toList = items.map fun w => w.1.toList := by
  obtain ⟨blank, spelledLead, separates⟩ := leading
  obtain ⟨cs, spelled, told⟩ := fields_of_items words blanks apart
  have bytes : hay.toList = lead.toList ++ (items.flatMap fun w => [w.1, w.2]).flatMap toList := by
    rw [written, writeWords, toList_join, List.flatMap_cons]
  have read := words_spelled (bytes ▸ spelledLead.append spelled)
  rw [fields_of_blank separates] at read
  rw [map_toList_of_spells read, ← map_toList_of_spells told, List.map_map]
  rfl

end Writing

/-- The words of a well-formed text are, in their order and as parts of it, its maximal runs of
    characters that are no white space. Words without white space in them that are put down one behind
    another with some white space between them, and with or without it at both ends, are read back as
    they are. -/
theorem words_are_maximal_runs :
    (∀ hay : Text, wellFormed hay = true → ∃ ranges : List (Nat × Nat),
      hay.words.toList = ranges.map (fun r => hay.slice r.1 r.2) ∧
      ranges.Pairwise (fun r s => r.2 < s.1) ∧
      ∀ i j, (i, j) ∈ ranges ↔ MaximalRun .whitespace hay i j) ∧
    ∀ (lead : Text) (items : List (Text × Text)) (hay : Text), ConsistsOf isWhitespace lead →
      (∀ w ∈ items, 0 < w.1.size ∧ ConsistsOf (!isWhitespace ·) w.1) →
      (∀ w ∈ items, ConsistsOf isWhitespace w.2) → (∀ w ∈ items.dropLast, 0 < w.2.size) →
      hay.SameBytes (writeWords lead items) →
      hay.words.toList.map toList = items.map fun w => w.1.toList :=
  ⟨fun _ => words_of_wellFormed,
    fun _ _ _ leading words blanks apart => words_of_written leading words blanks apart⟩

theorem words_are_maximal_runs_of_wide_blanks :
    let lead := Text.ofList [0xE3, 0x80, 0x80]
    let items := [(Text.ofList [0x61], Text.ofList [0x20, 0xC2, 0x85]),
      (.ofList [0xC3, 0xA9, 0x62], .empty)]
    let hay := writeWords lead items
    ConsistsOf isWhitespace lead ∧ (∀ w ∈ items, 0 < w.1.size ∧ ConsistsOf (!isWhitespace ·) w.1) ∧
      (∀ w ∈ items, ConsistsOf isWhitespace w.2) ∧ (∀ w ∈ items.dropLast, 0 < w.2.size) ∧
      wellFormed hay = true ∧
      hay.toList = [0xE3, 0x80, 0x80, 0x61, 0x20, 0xC2, 0x85, 0xC3, 0xA9, 0x62] ∧
      hay.words.toList.map toList = [[0x61], [0xC3, 0xA9, 0x62]] ∧
      ∃ ranges : List (Nat × Nat), hay.words.toList = ranges.map (fun r => hay.slice r.1 r.2) ∧
        ∀ i j, (i, j) ∈ ranges ↔ MaximalRun .whitespace hay i j := by
  intro lead items hay
  have leading : ConsistsOf isWhitespace lead :=
    ⟨[0x3000], ⟨by simp [isScalar], by decide⟩, by simp [isWhitespace]⟩
  have words : ∀ w ∈ items, 0 < w.1.size ∧ ConsistsOf (!isWhitespace ·) w.1 := by
    simp only [items, List.forall_mem_cons]
    exact ⟨⟨by decide, [0x61], ⟨by simp [isScalar], by decide⟩, by simp [isWhitespace]⟩,
      ⟨by decide, [0xE9, 0x62], ⟨by simp [isScalar], by decide⟩, by simp [isWhitespace]⟩, by simp⟩
  have blanks : ∀ w ∈ items, ConsistsOf isWhitespace w.2 := by
    simp only [items, List.forall_mem_cons]
    exact ⟨⟨[0x20, 0x85], ⟨by simp [isScalar], by decide⟩, by simp [isWhitespace]⟩,
      ⟨[], .nil, by simp⟩, by simp⟩
  have apart : ∀ w ∈ items.dropLast, 0 < w.2.size := by decide
  have accepted : wellFormed hay = true := by decide
  obtain ⟨maximal, writing⟩ := words_are_maximal_runs
  obtain ⟨ranges, slices, _, runs⟩ := maximal hay accepted
  exact ⟨leading, words, blanks, apart, accepted, by decide,
    writing lead items hay leading words blanks apart rfl, ranges, slices, runs⟩

end Text
end TextSearch
