import TextSearch.Step
import TextSearch.Proofs.Text.Occurrence

/-!
What the steps of a search say about the haystack: each covers a non-empty stretch and tells matches
from stretches without one, and a whole stream of them covers the haystack exactly once.
-/
namespace TextSearch

def Step.foundAt? : Step → Option Nat
  | .found start _ => some start
  | .rejected _ _ => none

namespace Text
variable {needle hay : Text} {p q : Nat} {step : Step}

structure ForwardStep (needle hay : Text) (p q : Nat) (step : Step) : Prop where
  start : step.start = p
  stop : step.stop = q
  advances : p < q
  found_iff : step.isFound = true ↔ OccursAt needle hay p
  found_size : step.isFound = true → q = p + needle.size
  rejected : step.isFound = false → NoneStarts needle hay p q

structure BackwardStep (needle hay : Text) (p q : Nat) (step : Step) : Prop where
  start : step.start = p
  stop : step.stop = q
  advances : p < q
  found_iff : step.isFound = true ↔ needle.size ≤ q ∧ OccursAt needle hay (q - needle.size)
  found_size : step.isFound = true → p + needle.size = q
  rejected : step.isFound = false → NoneEnds needle hay p q

theorem ForwardStep.eq_found (covers : ForwardStep needle hay p q step)
    (found : step.isFound = true) : step = .found p (p + needle.size) := by
  have start := covers.start
  have stop := covers.stop
  rw [covers.found_size found] at stop
  cases step with
  | found a b =>
    simp only [Step.start, Step.stop] at start stop
    rw [start, stop]
  | rejected a b => cases found

theorem BackwardStep.eq_found (covers : BackwardStep needle hay p q step)
    (found : step.isFound = true) : step = .found p (p + needle.size) := by
  have start := covers.start
  have stop := covers.stop
  rw [← covers.found_size found] at stop
  cases step with
  | found a b =>
    simp only [Step.start, Step.stop] at start stop
    rw [start, stop]
  | rejected a b => cases found

theorem BackwardStep.occurs (covers : BackwardStep needle hay p q step)
    (found : step.isFound = true) : OccursAt needle hay p := by
  have ends := covers.found_size found
  have occurs := (covers.found_iff.mp found).2
  rwa [← ends, Nat.add_sub_cancel] at occurs

def FirstMatch (needle hay : Text) (p : Nat) (answer : Option Step) (q : Nat) : Prop :=
  (∃ i, answer = some (.found i (i + needle.size)) ∧ q = i + needle.size ∧
      Leftmost needle hay p i) ∨
    (answer = none ∧ q = hay.size ∧ ∀ i, p ≤ i → ¬ OccursAt needle hay i)

def LastMatch (needle hay : Text) (q : Nat) (answer : Option Step) (p : Nat) : Prop :=
  (∃ i, answer = some (.found i (i + needle.size)) ∧ p = i ∧ Rightmost needle hay q i) ∨
    (answer = none ∧ p = 0 ∧ ∀ i, i + needle.size ≤ q → ¬ OccursAt needle hay i)

theorem forwardStep_found (nonempty : 0 < needle.size) (occurs : OccursAt needle hay p) :
    ForwardStep needle hay p (p + needle.size) (.found p (p + needle.size)) where
  start := rfl
  stop := rfl
  advances := by omega
  found_iff := ⟨fun _ => occurs, fun _ => rfl⟩
  found_size := fun _ => rfl
  rejected := fun no => (nomatch no)

theorem forwardStep_rejected (advances : p < q) (none_starts : NoneStarts needle hay p q) :
    ForwardStep needle hay p q (.rejected p q) where
  start := rfl
  stop := rfl
  advances := advances
  found_iff := ⟨fun no => (nomatch no), fun occurs =>
    absurd occurs (none_starts p (Nat.le_refl p) advances)⟩
  found_size := fun no => (nomatch no)
  rejected := fun _ => none_starts

theorem backwardStep_found (nonempty : 0 < needle.size) (ends : p + needle.size = q)
    (occurs : OccursAt needle hay p) : BackwardStep needle hay p q (.found p q) where
  start := rfl
  stop := rfl
  advances := by omega
  found_iff := by
    have start : q - needle.size = p := by omega
    constructor
    · intro _
      rw [start]
      exact ⟨by omega, occurs⟩
    · intro _
      rfl
  found_size := fun _ => ends
  rejected := fun no => (nomatch no)

theorem backwardStep_rejected (advances : p < q) (none_ends : NoneEnds needle hay p q) :
    BackwardStep needle hay p q (.rejected p q) where
  start := rfl
  stop := rfl
  advances := advances
  found_iff := ⟨fun no => (nomatch no), fun occurs =>
    absurd occurs.2 (none_ends _ (by omega) (by omega))⟩
  found_size := fun no => (nomatch no)
  rejected := fun _ => none_ends

theorem firstMatch_unique {a b : Option Step} {r : Nat} (left : FirstMatch needle hay p a q)
    (right : FirstMatch needle hay p b r) : a = b ∧ q = r := by
  rcases left with ⟨i, rfl, rfl, first⟩ | ⟨rfl, rfl, none_left⟩
  · rcases right with ⟨j, rfl, rfl, other⟩ | ⟨_, _, none_left⟩
    · rw [leftmost_unique first other]
      exact ⟨rfl, rfl⟩
    · exact absurd first.2.1 (none_left _ first.1)
  · rcases right with ⟨j, _, _, other⟩ | ⟨rfl, rfl, _⟩
    · exact absurd other.2.1 (none_left _ other.1)
    · exact ⟨rfl, rfl⟩

theorem lastMatch_unique {a b : Option Step} {r : Nat} (left : LastMatch needle hay q a p)
    (right : LastMatch needle hay q b r) : a = b ∧ p = r := by
  rcases left with ⟨i, rfl, rfl, last⟩ | ⟨rfl, rfl, none_left⟩
  · rcases right with ⟨j, rfl, rfl, other⟩ | ⟨_, _, none_left⟩
    · rw [rightmost_unique last other]
      exact ⟨rfl, rfl⟩
    · exact absurd last.2.1 (none_left _ last.1)
  · rcases right with ⟨j, _, _, other⟩ | ⟨rfl, rfl, _⟩
    · exact absurd other.2.1 (none_left _ other.1)
    · exact ⟨rfl, rfl⟩

theorem firstMatch_of_skip {answer : Option Step} {r : Nat} (le : p ≤ q)
    (skip : NoneStarts needle hay p q) (next : FirstMatch needle hay q answer r) :
    FirstMatch needle hay p answer r := by
  rcases next with ⟨i, found, stop, first⟩ | ⟨no, stop, none_left⟩
  · exact Or.inl ⟨i, found, stop, leftmost_of_skip le skip first⟩
  · refine Or.inr ⟨no, stop, ?_⟩
    intro i from_p
    by_cases early : i < q
    · exact skip i from_p early
    · exact none_left i (by omega)

theorem lastMatch_of_skip {answer : Option Step} {r : Nat} (le : p ≤ q)
    (skip : NoneEnds needle hay p q) (next : LastMatch needle hay p answer r) :
    LastMatch needle hay q answer r := by
  rcases next with ⟨i, found, start, last⟩ | ⟨no, start, none_left⟩
  · exact Or.inl ⟨i, found, start, rightmost_of_skip le skip last⟩
  · refine Or.inr ⟨no, start, ?_⟩
    intro i upto
    by_cases early : i + needle.size ≤ p
    · exact none_left i early
    · exact skip i (by omega) upto

theorem firstMatch_here (occurs : OccursAt needle hay p) :
    FirstMatch needle hay p (some (.found p (p + needle.size))) (p + needle.size) :=
  Or.inl ⟨p, rfl, rfl, leftmost_here occurs⟩

theorem lastMatch_here (occurs : OccursAt needle hay p) (ends : p + needle.size = q) :
    LastMatch needle hay q (some (.found p (p + needle.size))) p :=
  Or.inl ⟨p, rfl, rfl, rightmost_here occurs ends⟩

section Rest
variable {answer : Option Step} (nonempty : 0 < needle.size)
include nonempty

theorem firstMatch_then_rest (inside : p ≤ hay.size) (jump : FirstMatch needle hay p answer q) :
    (answer.bind Step.foundAt?).toList ++ occurrencesFrom needle hay q =
      occurrencesFrom needle hay p := by
  rcases jump with ⟨i, rfl, rfl, first⟩ | ⟨rfl, rfl, none_left⟩
  · rw [occurrencesFrom_of_leftmost nonempty first]
    rfl
  · rw [occurrencesFrom_of_noneStarts nonempty inside (fun i after _ => none_left i after)]
    rfl

theorem lastMatch_then_rest (jump : LastMatch needle hay q answer p) :
    (answer.bind Step.foundAt?).toList ++ occurrencesBefore needle hay p =
      occurrencesBefore needle hay q := by
  rcases jump with ⟨i, rfl, rfl, last⟩ | ⟨rfl, rfl, none_left⟩
  · rw [occurrencesBefore_of_rightmost nonempty last]
    rfl
  · rw [occurrencesBefore_of_noneEnds nonempty (Nat.zero_le q) (fun i _ upto => none_left i upto)]
    rfl

theorem forwardStep_then_rest (covers : ForwardStep needle hay p q step) :
    step.foundAt?.toList ++ occurrencesFrom needle hay q = occurrencesFrom needle hay p := by
  by_cases found : step.isFound = true
  · rw [covers.eq_found found, covers.found_size found,
      occurrencesFrom_of_occursAt nonempty (covers.found_iff.mp found)]
    rfl
  · rw [occurrencesFrom_of_noneStarts nonempty (Nat.le_of_lt covers.advances)
      (covers.rejected (by simpa using found))]
    cases step with
    | found a b => exact absurd rfl found
    | rejected a b => rfl

theorem backwardStep_then_rest (covers : BackwardStep needle hay p q step) :
    step.foundAt?.toList ++ occurrencesBefore needle hay p = occurrencesBefore needle hay q := by
  by_cases found : step.isFound = true
  · rw [covers.eq_found found,
      occurrencesBefore_of_occursAt nonempty (covers.occurs found) (covers.found_size found)]
    rfl
  · rw [occurrencesBefore_of_noneEnds nonempty (Nat.le_of_lt covers.advances)
      (covers.rejected (by simpa using found))]
    cases step with
    | found a b => exact absurd rfl found
    | rejected a b => rfl

end Rest
end Text

/-- The steps follow one another from `i` to `j` without gap or overlap, and none is empty. -/
def Tiles : List Step → Nat → Nat → Prop
  | [], i, j => i = j
  | s :: rest, i, j => s.start = i ∧ i < s.stop ∧ Tiles rest s.stop j

theorem tiles_append {before behind : List Step} {i j k : Nat} (left : Tiles before i j)
    (right : Tiles behind j k) : Tiles (before ++ behind) i k := by
  induction before generalizing i with
  | nil =>
    have same : i = j := left
    exact same ▸ right
  | cons s rest ih =>
    obtain ⟨start, advances, tail⟩ := left
    exact ⟨start, advances, ih tail⟩

theorem tiles_singleton {s : Step} (advances : s.start < s.stop) : Tiles [s] s.start s.stop :=
  ⟨rfl, advances, rfl⟩

end TextSearch
