import Mathlib.Data.List.DropRight
import TextSearch.Scripting
import TextSearch.Proofs.Searcher.Character

/-!
Trimming takes accepted characters off either end until it meets one that is refused. Both ends are
taken from one search, so that a character is looked at from one of them only, and what is left is the
same whichever end comes first.
-/
namespace TextSearch
open Utf8 Text

section Ends
variable {α : Type} {p : α → Bool} {front middle back : List α}

theorem dropWhile_of_stop (passed : ∀ a ∈ front, p a = true)
    (stops : ∀ a, middle.head? = some a → p a = false) : (front ++ middle).dropWhile p = middle := by
  rw [List.dropWhile_append_of_pos passed]
  cases middle with
  | nil => rfl
  | cons a others => exact List.dropWhile_cons_of_neg (Bool.eq_false_iff.mp (stops a rfl))

theorem rdropWhile_of_stop (passed : ∀ a ∈ back, p a = true)
    (stops : ∀ a, middle.getLast? = some a → p a = false) :
    (middle ++ back).rdropWhile p = middle := by
  have reversed : (back.reverse ++ middle.reverse).dropWhile p = middle.reverse := by
    refine dropWhile_of_stop (fun a member => passed a (List.mem_reverse.mp member)) fun a head => ?_
    exact stops a (List.head?_reverse ▸ head)
  rw [List.rdropWhile, List.reverse_append, reversed, List.reverse_reverse]

theorem dropWhile_both_of_stop (before : ∀ a ∈ front, p a = true) (behind : ∀ a ∈ back, p a = true)
    (first : ∀ a, middle.head? = some a → p a = false)
    (last : ∀ a, middle.getLast? = some a → p a = false) :
    ((front ++ middle ++ back).dropWhile p).rdropWhile p = middle ∧
      ((front ++ middle ++ back).rdropWhile p).dropWhile p = middle := by
  cases middle with
  | nil =>
    have all : ∀ a ∈ front ++ [] ++ back, p a = true := by
      rw [List.append_nil]
      exact List.forall_mem_append.mpr ⟨before, behind⟩
    rw [List.dropWhile_eq_nil_iff.mpr all, List.rdropWhile_eq_nil_iff.mpr all]
    exact ⟨rfl, rfl⟩
  | cons a others =>
    have firstOf : ∀ b, (a :: others ++ back).head? = some b → p b = false := first
    have lastOf : ∀ b, (front ++ a :: others).getLast? = some b → p b = false := by
      rw [List.getLast?_append_of_ne_nil _ (List.cons_ne_nil a others)]
      exact last
    constructor
    · rw [List.append_assoc, dropWhile_of_stop before firstOf, rdropWhile_of_stop behind last]
    · rw [rdropWhile_of_stop behind lastOf, dropWhile_of_stop before first]

end Ends

namespace Text

/-- The characters from `i` up to `j` are accepted, and the one behind them is not, unless there is
    none before `k`. -/
def OffFront (accepts : Rune → Bool) (hay : Text) (i j k : Nat) : Prop :=
  ∃ front rest, Run hay i front j ∧ Run hay j rest k ∧ (∀ c ∈ front, accepts c = true) ∧
    ∀ c, rest.head? = some c → accepts c = false

def OffBack (accepts : Rune → Bool) (hay : Text) (i j k : Nat) : Prop :=
  ∃ rest back, Run hay i rest j ∧ Run hay j back k ∧ (∀ c ∈ back, accepts c = true) ∧
    ∀ c, rest.getLast? = some c → accepts c = false

end Text

namespace Searcher
variable {hay : Text} {m : Matcher} {i j k : Nat} {c : Rune} {cs : List Rune}

theorem misses_of_stands (stands : Stands hay i c k) (inside : k ≤ j) :
    misses.next (characters ⟨hay, m, i, j⟩) =
      if m.accepts c then misses.next (characters ⟨hay, m, k, j⟩)
      else (some (.rejected i k), characters ⟨hay, m, k, j⟩) := by
  show steps.findNext _ _ = _
  rw [FiniteStream.findNext_of_some _ (steps_of_stands stands inside)]
  cases m.accepts c <;> rfl

theorem missesBack_of_stands (stands : Stands hay k c j) (inside : i ≤ k) :
    missesBack.next (characters ⟨hay, m, i, j⟩) =
      if m.accepts c then missesBack.next (characters ⟨hay, m, i, k⟩)
      else (some (.rejected k j), characters ⟨hay, m, i, k⟩) := by
  show stepsBack.findNext _ _ = _
  rw [FiniteStream.findNext_of_some _ (stepsBack_of_stands stands inside)]
  cases m.accepts c <;> rfl

theorem misses_of_met (i : Nat) :
    misses.next (characters ⟨hay, m, i, i⟩) = (none, characters ⟨hay, m, i, i⟩) :=
  FiniteStream.findNext_of_none _ (steps_of_met i)

theorem missesBack_of_met (i : Nat) :
    missesBack.next (characters ⟨hay, m, i, i⟩) = (none, characters ⟨hay, m, i, i⟩) :=
  FiniteStream.findNext_of_none _ (stepsBack_of_met i)

theorem misses_of_accepted (run : Run hay i cs j) (accepted : ∀ c ∈ cs, m.accepts c = true)
    (inside : j ≤ k) :
    misses.next (characters ⟨hay, m, i, k⟩) = misses.next (characters ⟨hay, m, j, k⟩) := by
  induction run with
  | nil => rfl
  | cons first others ih =>
    obtain ⟨here, later⟩ := List.forall_mem_cons.mp accepted
    rw [misses_of_stands first (Nat.le_trans others.le inside), if_pos here, ih later inside]

theorem missesBack_of_accepted (run : Run hay j cs k) (accepted : ∀ c ∈ cs, m.accepts c = true)
    (inside : i ≤ j) :
    missesBack.next (characters ⟨hay, m, i, k⟩) = missesBack.next (characters ⟨hay, m, i, j⟩) := by
  induction cs using List.reverseRecOn generalizing k with
  | nil =>
    cases run
    rfl
  | append_singleton cs c ih =>
    obtain ⟨n, others, last⟩ := Run.concat_iff.mp run
    obtain ⟨earlier, here⟩ := List.forall_mem_append.mp accepted
    rw [missesBack_of_stands last (Nat.le_trans inside others.le),
      if_pos (here c List.mem_cons_self), ih others earlier]

theorem misses_of_off (off : OffFront m.accepts hay i j k) :
    (j = k ∧ misses.next (characters ⟨hay, m, i, k⟩) = (none, characters ⟨hay, m, k, k⟩)) ∨
      ∃ c l rest, Stands hay j c l ∧ m.accepts c = false ∧ Run hay l rest k ∧
        misses.next (characters ⟨hay, m, i, k⟩) =
          (some (.rejected j l), characters ⟨hay, m, l, k⟩) := by
  obtain ⟨front, rest, before, behind, passed, stops⟩ := off
  have told := misses_of_accepted before passed behind.le
  cases behind with
  | nil => exact Or.inl ⟨rfl, told.trans (misses_of_met j)⟩
  | cons first others =>
    have refused := stops _ rfl
    rw [misses_of_stands first others.le, if_neg (Bool.eq_false_iff.mp refused)] at told
    exact Or.inr ⟨_, _, _, first, refused, others, told⟩

theorem misses_start (off : OffFront m.accepts hay i j k) :
    ((misses.next (characters ⟨hay, m, i, k⟩)).1.map Step.start).getD k = j := by
  rcases misses_of_off off with ⟨rfl, told⟩ | ⟨c, l, rest, _, _, _, told⟩
  · rw [told]
    rfl
  · rw [told]
    rfl

theorem missesBack_stop (off : OffBack m.accepts hay i j k) :
    ((missesBack.next (characters ⟨hay, m, i, k⟩)).1.map Step.stop).getD i = j := by
  obtain ⟨rest, back, before, behind, passed, stops⟩ := off
  rw [missesBack_of_accepted behind passed before.le]
  rcases before.cases_last with ⟨_, rfl⟩ | ⟨others, c, n, rfl, run, stands⟩
  · rw [missesBack_of_met]
    rfl
  · have refused := stops c List.getLast?_concat
    rw [missesBack_of_stands stands run.le, if_neg (Bool.eq_false_iff.mp refused)]
    rfl

end Searcher

namespace Text
variable {accepts : Rune → Bool} {hay : Text} {m : Matcher} {i j k : Nat} {cs : List Rune}

theorem exists_offFront (accepts : Rune → Bool) (run : Run hay i cs k) :
    ∃ j, OffFront accepts hay i j k := by
  rw [← List.takeWhile_append_dropWhile (p := accepts) (l := cs)] at run
  obtain ⟨j, before, behind⟩ := Run.append_iff.mp run
  refine ⟨j, _, _, before, behind, fun c => List.mem_takeWhile_imp, fun c head => ?_⟩
  have stops := List.head?_dropWhile_not accepts cs
  rw [head] at stops
  exact stops

theorem exists_offBack (accepts : Rune → Bool) (run : Run hay i cs k) :
    ∃ j, OffBack accepts hay i j k := by
  rw [← List.rdropWhile_append_rtakeWhile (p := accepts) (l := cs)] at run
  obtain ⟨j, before, behind⟩ := Run.append_iff.mp run
  refine ⟨j, _, _, before, behind, fun c => List.mem_rtakeWhile_imp, fun c last => ?_⟩
  rw [List.rdropWhile, List.getLast?_reverse] at last
  have stops := List.head?_dropWhile_not accepts cs.reverse
  rw [last] at stops
  exact stops

theorem OffBack.cons {c : Rune} {l : Nat} (stands : Stands hay i c l) (refused : accepts c = false)
    (off : OffBack accepts hay l j k) : OffBack accepts hay i j k := by
  obtain ⟨rest, back, between, behind, passed, last⟩ := off
  refine ⟨c :: rest, back, .cons stands between, behind, passed, fun d ends => ?_⟩
  cases rest with
  | nil =>
    obtain rfl : c = d := Option.some.inj ends
    exact refused
  | cons e others => exact last d ends

section Spelled
variable (spelled : Spells cs hay.toList)
include spelled

theorem spells_of_offFront (off : OffFront accepts hay 0 i hay.size) :
    Spells (cs.dropWhile accepts) (hay.slice i hay.size).toList := by
  obtain ⟨front, rest, before, behind, passed, stops⟩ := off
  have run : Run hay 0 (front ++ rest) hay.size := Run.append_iff.mpr ⟨i, before, behind⟩
  obtain rfl := (Run.whole_iff.mp run).unique spelled
  rw [dropWhile_of_stop passed stops]
  exact behind.spells

theorem spells_of_offBack (off : OffBack accepts hay 0 j hay.size) :
    Spells (cs.rdropWhile accepts) (hay.slice 0 j).toList := by
  obtain ⟨rest, back, before, behind, passed, stops⟩ := off
  have run : Run hay 0 (rest ++ back) hay.size := Run.append_iff.mpr ⟨j, before, behind⟩
  obtain rfl := (Run.whole_iff.mp run).unique spelled
  rw [rdropWhile_of_stop passed stops]
  exact before.spells

theorem spells_of_offBoth (off : OffFront accepts hay 0 i j)
    (offBack : OffBack accepts hay i j hay.size) :
    Spells ((cs.dropWhile accepts).rdropWhile accepts) (hay.slice i j).toList ∧
      Spells ((cs.rdropWhile accepts).dropWhile accepts) (hay.slice i j).toList := by
  obtain ⟨front, middle, before, between, passed, first⟩ := off
  obtain ⟨rest, back, between', behind, passedBack, last⟩ := offBack
  obtain rfl := between.spells.unique between'.spells
  have run : Run hay 0 (front ++ middle ++ back) hay.size :=
    Run.append_iff.mpr ⟨j, Run.append_iff.mpr ⟨i, before, between⟩, behind⟩
  obtain ⟨forth, backwards⟩ := dropWhile_both_of_stop passed passedBack first last
  obtain rfl := (Run.whole_iff.mp run).unique spelled
  rw [forth, backwards]
  exact ⟨between.spells, between.spells⟩

end Spelled

section Trims
variable (spelled : Spells cs hay.toList) (m : Matcher)
include spelled

theorem trimStartMatches_off : ∃ i, hay.trimStartMatches (.character m) = hay.slice i hay.size ∧
    OffFront m.accepts hay 0 i hay.size := by
  obtain ⟨i, off⟩ := exists_offFront m.accepts (Run.whole_iff.mpr spelled)
  exact ⟨i, congrArg (hay.slice · hay.size) (Searcher.misses_start off), off⟩

theorem trimEndMatches_off : ∃ j, hay.trimEndMatches (.character m) = hay.slice 0 j ∧
    OffBack m.accepts hay 0 j hay.size := by
  obtain ⟨j, off⟩ := exists_offBack m.accepts (Run.whole_iff.mpr spelled)
  exact ⟨j, congrArg (hay.slice 0) (Searcher.missesBack_stop off), off⟩

/-- If all characters are accepted, the search from the back has nothing left to look at, and what is
    left stands at the front of the text. Else it comes back at the latest to the refused character that
    the search from the front has met. -/
theorem trimMatches_off : ∃ i j, hay.trimMatches m = hay.slice i j ∧
    OffFront m.accepts hay 0 i j ∧ OffBack m.accepts hay i j hay.size := by
  obtain ⟨i, off⟩ := exists_offFront m.accepts (Run.whole_iff.mpr spelled)
  have started : Searcher.start hay (.character m) = .characters ⟨hay, m, 0, hay.size⟩ := rfl
  rcases Searcher.misses_of_off off with ⟨rfl, told⟩ | ⟨c, l, rest, stands, refused, run, told⟩
  · obtain ⟨front, _, before, _, passed, _⟩ := off
    refine ⟨0, 0, ?_, ⟨[], [], .nil, .nil, nofun, nofun⟩, [], front, .nil, before, passed, nofun⟩
    rw [trimMatches, started, told, Searcher.missesBack_of_met]
    rfl
  · obtain ⟨j, offBack⟩ := exists_offBack m.accepts run
    refine ⟨i, j, ?_, ?_, offBack.cons stands refused⟩
    · rw [trimMatches, started, told]
      exact congrArg (hay.slice i) (Searcher.missesBack_stop offBack)
    · obtain ⟨front, _, before, _, passed, _⟩ := off
      obtain ⟨middle, _, between, _⟩ := offBack
      refine ⟨front, c :: middle, before, .cons stands between, passed, ?_⟩
      rintro _ ⟨⟩
      exact refused

theorem spells_trimStartMatches :
    Spells (cs.dropWhile m.accepts) (hay.trimStartMatches (.character m)).toList := by
  obtain ⟨i, left, off⟩ := trimStartMatches_off spelled m
  rw [left]
  exact spells_of_offFront spelled off

theorem spells_trimEndMatches :
    Spells (cs.rdropWhile m.accepts) (hay.trimEndMatches (.character m)).toList := by
  obtain ⟨j, left, off⟩ := trimEndMatches_off spelled m
  rw [left]
  exact spells_of_offBack spelled off

theorem spells_trimMatches :
    Spells ((cs.dropWhile m.accepts).rdropWhile m.accepts) (hay.trimMatches m).toList ∧
      Spells ((cs.rdropWhile m.accepts).dropWhile m.accepts) (hay.trimMatches m).toList := by
  obtain ⟨i, j, left, off, offBack⟩ := trimMatches_off spelled m
  rw [left]
  exact spells_of_offBoth spelled off offBack

end Trims

/-- What trimming a text of accepted characters leaves, from both ends and from one alone. -/
structure TrimLaw (accepts : Rune → Bool) (trim trimStart trimEnd : Text → Text) (hay : Text) :
    Prop where
  both : ∃ i j, trim hay = hay.slice i j ∧ OffFront accepts hay 0 i j ∧
    OffBack accepts hay i j hay.size
  only : ∀ i j, OffFront accepts hay 0 i j → OffBack accepts hay i j hay.size →
    (hay.slice i j).SameBytes (trim hay)
  front : ∃ i, trimStart hay = hay.slice i hay.size ∧ OffFront accepts hay 0 i hay.size
  back : ∃ j, trimEnd hay = hay.slice 0 j ∧ OffBack accepts hay 0 j hay.size
  frontFirst : (trimEnd (trimStart hay)).SameBytes (trim hay)
  backFirst : (trimStart (trimEnd hay)).SameBytes (trim hay)
  again : (trim (trim hay)).SameBytes (trim hay)
  frontAgain : (trimStart (trimStart hay)).SameBytes (trimStart hay)
  backAgain : (trimEnd (trimEnd hay)).SameBytes (trimEnd hay)

theorem sameBytes_of_spells {t u : Text} (left : Spells cs t.toList) (right : Spells cs u.toList) :
    t.SameBytes u :=
  left.2.symm.trans right.2

theorem trimLaw_of_matcher (wellFormedHay : wellFormed hay = true) (m : Matcher) :
    TrimLaw m.accepts (·.trimMatches m) (·.trimStartMatches (.character m))
      (·.trimEndMatches (.character m)) hay := by
  obtain ⟨cs, spelled⟩ := wellFormedBytes_iff.mp wellFormedHay
  obtain ⟨whole, mirrored⟩ := spells_trimMatches spelled m
  have front := spells_trimStartMatches spelled m
  have back := spells_trimEndMatches spelled m
  refine ⟨trimMatches_off spelled m, ?_, trimStartMatches_off spelled m, trimEndMatches_off spelled m,
    ?_, ?_, ?_, ?_, ?_⟩
  · intro i j off offBack
    exact sameBytes_of_spells (spells_of_offBoth spelled off offBack).1 whole
  · exact sameBytes_of_spells (spells_trimEndMatches front m) whole
  · exact sameBytes_of_spells (spells_trimStartMatches back m) mirrored
  · have settled := (spells_trimMatches whole m).1
    have same := whole.unique mirrored
    rw [same, List.dropWhile_idempotent, ← same, List.rdropWhile_idempotent] at settled
    exact sameBytes_of_spells settled whole
  · have settled := spells_trimStartMatches front m
    rw [List.dropWhile_idempotent] at settled
    exact sameBytes_of_spells settled front
  · have settled := spells_trimEndMatches back m
    rw [List.rdropWhile_idempotent] at settled
    exact sameBytes_of_spells settled back

/-- Over a well-formed text, trimming leaves what stands between the accepted characters at its front
    and those at its back, and of them alone: unless nothing is left, its first and its last character
    are refused. It is what is left when one end is trimmed after the other, in either order, and what
    has been trimmed stays as it is. This holds of white space, and of the characters of another text as
    the scripting interface takes them, which refuses the other text if it is not well-formed. -/
theorem trims_maximally {hay : Text} (wellFormedHay : wellFormed hay = true) :
    (∀ m, TrimLaw m.accepts (·.trimMatches m) (·.trimStartMatches (.character m))
      (·.trimEndMatches (.character m)) hay) ∧
    TrimLaw isWhitespace trim trimStart trimEnd hay ∧
    ∀ characters : Text,
      (wellFormed characters = true → ∃ members i j, Spells members characters.toList ∧
        Scripting.call .trimMatches [.text hay, .text characters] =
          some (.ok (.text (hay.slice i j))) ∧
        hay.slice i j = hay.trimMatches (.anyOf members) ∧
        OffFront (members.contains ·) hay 0 i j ∧ OffBack (members.contains ·) hay i j hay.size) ∧
      (wellFormed characters = false →
        Scripting.call .trimMatches [.text hay, .text characters] = some (.error .invalidUtf8)) := by
  have law := trimLaw_of_matcher wellFormedHay
  refine ⟨law, law .whitespace, fun characters => ⟨fun accepted => ?_, fun refused => ?_⟩⟩
  · obtain ⟨members, spelled⟩ := wellFormedBytes_iff.mp accepted
    obtain ⟨i, j, left, off, offBack⟩ := (law (.anyOf members)).both
    refine ⟨members, i, j, spelled, ?_, left.symm, off, offBack⟩
    rw [Scripting.call, (runes_of_spells spelled).2, ← left]
    rfl
  · have invalid : characters.runes = .error .invalidUtf8 := by
      rw [runes, checked, refused]
      rfl
    rw [Scripting.call, invalid]
    rfl

theorem trims_maximally_of_accents :
    let hay := Text.ofList [0x20, 0xC3, 0xA9, 0x61, 0xC3, 0xA9]
    let accent := Text.ofList [0xC3, 0xA9]
    wellFormed hay = true ∧ wellFormed accent = true ∧
      (hay.trim.trim).SameBytes hay.trim ∧
      Scripting.call .trimMatches [.text hay, .text accent] =
        some (.ok (.text (hay.trimMatches (.anyOf [0xE9])))) := by
  intro hay accent
  have wellFormedHay : wellFormed hay = true := by decide
  have wellFormedAccent : wellFormed accent = true := by decide
  obtain ⟨_, white, scripted⟩ := trims_maximally wellFormedHay
  obtain ⟨members, i, j, spelled, answer, left, _⟩ := (scripted accent).1 wellFormedAccent
  have known : Spells [0xE9] accent.toList := ⟨by simp [isScalar], by decide⟩
  obtain rfl := spelled.unique known
  exact ⟨wellFormedHay, wellFormedAccent, white.again, left ▸ answer⟩

end Text
end TextSearch
