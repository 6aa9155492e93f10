import TextSearch.Proofs.Searcher.Matches
import TextSearch.Proofs.Text.Copies

/-!
A search for one character, read as a search for the bytes it is encoded in. The encoding occurs where
the character stands and nowhere else, so that the steps over characters are rightly described in terms
of occurrences.
-/
namespace TextSearch
open Utf8 Text

namespace Utf8
variable {t needle hay : Text} {i j k : Nat} {c d : Rune}

section Encoding
variable (scalar : isScalar c = true) (encoded : needle.toList = encode c)
include scalar encoded

theorem wellFormed_of_encoded : wellFormed needle = true := by
  have spelled : Spells [c] needle.toList :=
    ⟨by simpa using scalar, by rw [encoded, List.flatMap_singleton]⟩
  exact wellFormedBytes_iff.mpr ⟨[c], spelled⟩

theorem size_of_encoded : needle.size = (encode c).length ∧ 0 < needle.size := by
  have size : needle.size = (encode c).length := by rw [← length_toList, encoded]
  obtain ⟨lead, trail, same⟩ := (denotes_encode scalar).exists_cons
  refine ⟨size, ?_⟩
  rw [size, same, List.length_cons]
  exact Nat.succ_pos _

theorem occursAt_iff_stands : OccursAt needle hay i ↔ Stands hay i c (i + needle.size) := by
  obtain ⟨size, _⟩ := size_of_encoded scalar encoded
  constructor
  · intro occurs
    exact ⟨scalar, by rw [size], encoded ▸ drop_of_occursAt occurs⟩
  · intro stands
    have inside := stands.inside
    exact occursAt_of_drop (by omega) (encoded.symm ▸ stands.bytes)

theorem occursAt_of_stands (stands : Stands hay i d k) : OccursAt needle hay i ↔ d = c := by
  obtain ⟨size, _⟩ := size_of_encoded scalar encoded
  rw [occursAt_iff_stands scalar encoded]
  constructor
  · intro other
    exact (stands.unique other).1
  · rintro rfl
    rwa [size, ← stands.stop]

theorem eq_of_occursAt_within (stands : Stands hay i d k) (occurs : OccursAt needle hay j)
    (from_i : i ≤ j) (before : j < k) : j = i := by
  have other := (occursAt_iff_stands scalar encoded).mp occurs
  by_contra inner
  have behind := stands.next_behind other (by omega)
  omega

theorem noneStarts_of_stands (stands : Stands hay i d k) (differs : d ≠ c) :
    NoneStarts needle hay i k := by
  intro j from_i before occurs
  have here := eq_of_occursAt_within scalar encoded stands occurs from_i before
  exact differs ((occursAt_of_stands scalar encoded stands).mp (here ▸ occurs))

theorem noneEnds_of_stands (stands : Stands hay i d k) (differs : d ≠ c) :
    NoneEnds needle hay i k := by
  intro j behind upto occurs
  have other := (occursAt_iff_stands scalar encoded).mp occurs
  by_cases before : j < i
  · -- a character that begins before this one ends before it too
    have ends := other.next_behind stands before
    omega
  · have here := eq_of_occursAt_within scalar encoded stands occurs (by omega) (by
      have advances := other.advances
      omega)
    exact differs ((occursAt_of_stands scalar encoded stands).mp (here ▸ occurs))

end Encoding
end Utf8

namespace Searcher
variable {hay needle : Text} {c : Rune}

/-- A search for the character `c` that has come from the left to a place from which characters stand up
    to the end. -/
def Seeking (c : Rune) (hay : Text) (s : Searcher) : Prop :=
  ∃ i cs, s = characters ⟨hay, .rune c, i, hay.size⟩ ∧ Run hay i cs hay.size

def SeekingBack (c : Rune) (hay : Text) (s : Searcher) : Prop :=
  ∃ j cs, s = characters ⟨hay, .rune c, 0, j⟩ ∧ Run hay 0 cs j

theorem start_seeking (wellFormedHay : wellFormed hay = true) (c : Rune) :
    Seeking c hay (start hay (.character (.rune c))) ∧
      SeekingBack c hay (start hay (.character (.rune c))) := by
  obtain ⟨cs, spelled⟩ := wellFormedBytes_iff.mp wellFormedHay
  have run : Run hay 0 cs hay.size := Run.whole_iff.mpr spelled
  exact ⟨⟨0, cs, rfl, run⟩, ⟨hay.size, cs, rfl, run⟩⟩

section Sweeps
variable (scalar : isScalar c = true) (encoded : needle.toList = encode c)
include scalar encoded

theorem forwardStep_of_stands {i k : Nat} {d : Rune} (stands : Stands hay i d k) :
    ForwardStep needle hay i k (CharacterSearcher.report (d == c) i k) := by
  obtain ⟨size, nonempty⟩ := size_of_encoded scalar encoded
  have occurs_iff := occursAt_of_stands scalar encoded stands
  by_cases same : d = c
  · subst same
    have ends : i + needle.size = k := by rw [size, ← stands.stop]
    have covers := forwardStep_found nonempty (occurs_iff.mpr rfl)
    rw [beq_self_eq_true, CharacterSearcher.report, if_pos rfl, ← ends]
    exact covers
  · have skip := noneStarts_of_stands scalar encoded stands same
    rw [beq_false_of_ne same, CharacterSearcher.report, if_neg Bool.false_ne_true]
    exact forwardStep_rejected stands.advances skip

theorem backwardStep_of_stands {k j : Nat} {d : Rune} (stands : Stands hay k d j) :
    BackwardStep needle hay k j (CharacterSearcher.report (d == c) k j) := by
  obtain ⟨size, nonempty⟩ := size_of_encoded scalar encoded
  have occurs_iff := occursAt_of_stands scalar encoded stands
  by_cases same : d = c
  · subst same
    have ends : k + needle.size = j := by rw [size, ← stands.stop]
    rw [beq_self_eq_true, CharacterSearcher.report, if_pos rfl]
    exact backwardStep_found nonempty ends (occurs_iff.mpr rfl)
  · have skip := noneEnds_of_stands scalar encoded stands same
    rw [beq_false_of_ne same, CharacterSearcher.report, if_neg Bool.false_ne_true]
    exact backwardStep_rejected stands.advances skip

theorem steps_sweep_of_rune : Sweeps needle hay steps (Seeking c hay) front where
  inside := by
    rintro _ ⟨i, cs, rfl, run⟩
    exact run.le
  keeps := by
    rintro _ ⟨i, cs, rfl, run⟩
    cases run with
    | nil =>
      rw [steps_of_met]
      exact ⟨_, _, rfl, .nil⟩
    | cons first others =>
      rw [steps_of_stands first others.le]
      exact ⟨_, _, rfl, others⟩
  outcome := by
    rintro _ ⟨i, cs, rfl, run⟩
    cases run with
    | nil =>
      rw [steps_of_met]
      exact Or.inl ⟨rfl, rfl, rfl⟩
    | cons first others =>
      rw [steps_of_stands first others.le]
      exact Or.inr ⟨_, rfl, forwardStep_of_stands scalar encoded first⟩

theorem stepsBack_sweep_of_rune : SweepsBack needle hay stepsBack (SeekingBack c hay) back where
  keeps := by
    rintro _ ⟨j, cs, rfl, run⟩
    rcases run.cases_last with ⟨_, rfl⟩ | ⟨ds, d, k, _, others, last⟩
    · rw [stepsBack_of_met]
      exact ⟨_, _, rfl, .nil⟩
    · rw [stepsBack_of_stands last others.le]
      exact ⟨_, _, rfl, others⟩
  outcome := by
    rintro _ ⟨j, cs, rfl, run⟩
    rcases run.cases_last with ⟨_, rfl⟩ | ⟨ds, d, k, _, others, last⟩
    · rw [stepsBack_of_met]
      exact Or.inl ⟨rfl, rfl, rfl⟩
    · rw [stepsBack_of_stands last others.le]
      exact Or.inr ⟨_, rfl, backwardStep_of_stands scalar encoded last⟩

end Sweeps
end Searcher
end TextSearch
