import TextSearch.Utf8.Checked
import TextSearch.Proofs.Utf8.Run

/-!
Decoding gives back what was encoded, over whole texts, and refuses every other text.
-/
namespace TextSearch
open Utf8

namespace Fenced

/-- The code points from offset `i` on, read until the offset is that of the end. To miss the end, to
    ask for a byte behind it, or to stand still at an undecodable byte spoils the answer. -/
def runesFrom (t : Text) (i : Nat) : Option (List Rune) :=
  if i < t.size then
    match decode (fun k => t.bytes (i + k)) with
    | some (some c) => (runesFrom t (i + c.length)).map (c.rune :: ·)
    | _ => none
  else if i = t.size then some []
  else none
termination_by t.size - i
decreasing_by
  have := c.length_pos
  omega

end Fenced

namespace Utf8
open Text
variable {t : Text} {i : Nat} {cs : List Rune}

theorem runesFrom_of_run (run : Run t i cs t.size) :
    Fenced.runesFrom t i = some cs ∧ (charactersFrom t i).map (fun c => c.2.rune) = cs := by
  induction cs generalizing i with
  | nil =>
    cases run
    rw [Fenced.runesFrom, charactersFrom, if_neg (Nat.lt_irrefl _), if_pos rfl,
      if_neg (Nat.lt_irrefl _)]
    exact ⟨rfl, rfl⟩
  | cons c cs ih =>
    cases run with
    | @cons _ j _ _ _ first others =>
      have advances := first.advances
      have inside := first.inside
      have stop : i + (j - i) = j := by omega
      obtain ⟨read, walked⟩ := ih others
      obtain ⟨value, length⟩ := first.characterAt
      obtain ⟨found, value', length', answer⟩ :=
        first.decode fun k _ before => Fenced.bytes_of_inside (by omega : k < t.size)
      rw [Fenced.runesFrom, charactersFrom, if_pos (by omega), if_pos (by omega), answer]
      simp only [length, length', stop, read, walked, value, value', Option.map_some, List.map_cons,
        and_self]

theorem runes_of_spells (spelled : Spells cs t.toList) : t.checked = .ok t ∧ t.runes = .ok cs := by
  have accepted := wellFormed_of_spells spelled
  have passes : t.checked = .ok t := if_pos accepted
  have walked := (runesFrom_of_run (Run.whole_iff.mpr spelled)).2
  rw [runes, passes]
  exact ⟨rfl, congrArg Except.ok walked⟩

/-- Validation accepts what the encoder makes of scalar values, decoding gives exactly these back and
    ends where the text does, and neither looks at a byte beside the text. A text that is not
    well-formed is refused wherever well-formed text is asked for. -/
theorem wellFormed_iff_encoded (t : Text) :
    (∀ c : Rune, isScalar c = true ↔ c.toNat < 0xD800 ∨ (0xDFFF < c.toNat ∧ c.toNat ≤ 0x10FFFF)) ∧
    (wellFormed t = true ↔ ∃ cs, Spells cs t.toList) ∧
    (∀ cs ds, Spells cs t.toList → Spells ds t.toList → cs = ds) ∧
    Fenced.wellFormedFrom t 0 = some (wellFormed t) ∧
    (∀ cs, Spells cs t.toList → t.checked = .ok t ∧ Fenced.runesFrom t 0 = some cs ∧
      t.runes = .ok cs ∧ cs.length = count t) ∧
    (t.checked = .error .invalidUtf8 ↔ wellFormed t = false) ∧
    (t.runes = .error .invalidUtf8 ↔ wellFormed t = false) := by
  refine ⟨isScalar_iff, wellFormedBytes_iff, fun cs ds => Spells.unique,
    wellFormedFrom_eq (Nat.zero_le _), ?_, ?_, ?_⟩
  · intro cs spelled
    obtain ⟨passes, decoded⟩ := runes_of_spells spelled
    have run : Run t 0 cs t.size := .of_spells spelled (Nat.zero_le _)
    exact ⟨passes, (runesFrom_of_run run).1, decoded, spelled.countP_eq_length.symm⟩
  · unfold checked
    cases wellFormed t <;> simp
  · unfold runes checked
    cases wellFormed t <;> simp [Except.map]

end Utf8
end TextSearch
