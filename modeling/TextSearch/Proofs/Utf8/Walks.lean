import Mathlib.Order.Bounds.Basic
import TextSearch.Proofs.Utf8.Cuts
import TextSearch.Proofs.Utf8.Offsets

/-!
Ways from character to character through a well-formed text. The lead bytes, the rounding of offsets,
the walk back over continuation bytes and the decoder all know how long a character is, and they agree
on it.
-/
namespace TextSearch
namespace Utf8
open Text
variable {t : Text} {i j k : Nat} {c : Rune} {cs : List Rune}

/-- The offsets that the lead bytes point out, one after another from the front of a text: behind each
    of them the next one is as far away as the byte there says. -/
inductive Led (t : Text) : Nat → Prop where
  | front : Led t 0
  | onward {i : Nat} (here : Led t i) (inside : i < t.size) : Led t (i + leadLength (t.byteAt i))

theorem Stands.length_le (stands : Stands t i c j) : j ≤ i + 4 := by
  have most := leadLength_le (t.byteAt i)
  rw [stands.lead.2] at most
  omega

theorem Run.stop_le (run : Run t i cs j) : j ≤ i + 4 * cs.length := by
  induction run with
  | nil => exact Nat.le_add_right _ _
  | @cons i j k c cs first others ih =>
    have short := first.length_le
    rw [List.length_cons]
    omega

theorem Run.count_slice (run : Run t i cs j) : count (t.slice i j) = cs.length :=
  run.spells.countP_eq_length

theorem length_offsetsFrom (i : Nat) (cs : List Rune) :
    (offsetsFrom i cs).length = cs.length + 1 := by
  induction cs generalizing i with
  | nil => rfl
  | cons c cs ih => simp [offsetsFrom, ih]

section Accepted
variable (accepted : wellFormed t = true)
include accepted

theorem boundary_of_led (led : Led t i) : isBoundary t i = true := by
  induction led with
  | front => exact isBoundary_start
  | @onward i _ inside boundary =>
    obtain ⟨c, j, stands⟩ := exists_stands accepted boundary inside
    rw [stands.lead_stop]
    exact stands.boundary_behind accepted

theorem led_of_boundary (boundary : isBoundary t i = true) : Led t i := by
  induction i using Nat.strongRecOn with
  | ind i ih =>
    rcases Nat.eq_zero_or_pos i with rfl | positive
    · exact .front
    · obtain ⟨c, k, stands⟩ := exists_stands_before accepted boundary positive
      have advances := stands.advances
      have inside := stands.inside
      rw [← stands.lead_stop]
      exact .onward (ih k advances stands.boundary) (by omega)

theorem length_boundaries : t.boundaries.length = count t + 1 := by
  obtain ⟨cs, spelled⟩ := wellFormedBytes_iff.mp accepted
  rw [boundaries_eq_offsetsFrom (Run.whole_iff.mpr spelled), length_offsetsFrom, count,
    spelled.countP_eq_length]

theorem exists_stands_around (before : i < t.size) :
    ∃ c j, Stands t (floorBoundary t i) c j ∧ i < j := by
  have le := floorBoundary_le t i
  obtain ⟨c, j, stands⟩ := exists_stands accepted (isBoundary_floorBoundary t i) (by omega)
  refine ⟨c, j, stands, Nat.lt_of_not_le ?_⟩
  intro behind
  have advances := stands.advances
  have greatest := floorBoundary_greatest (stands.boundary_behind accepted) behind
  omega

theorem le_floorBoundary_add (inside : i ≤ t.size) : i ≤ floorBoundary t i + 3 := by
  rcases Nat.eq_or_lt_of_le inside with rfl | before
  · rw [floorBoundary_of_boundary isBoundary_end]
    omega
  · obtain ⟨c, j, stands, within⟩ := exists_stands_around accepted before
    have short := stands.length_le
    omega

theorem ceilBoundary_le_add (inside : i ≤ t.size) : ceilBoundary t i ≤ i + 3 := by
  by_cases boundary : isBoundary t i = true
  · rw [ceilBoundary_of_boundary boundary]
    omega
  · have before : i < t.size := by
      rcases Nat.eq_or_lt_of_le inside with rfl | before
      · exact absurd isBoundary_end boundary
      · exact before
    obtain ⟨c, j, stands, within⟩ := exists_stands_around accepted before
    have short := stands.length_le
    have least := ceilBoundary_least (stands.boundary_behind accepted) (Nat.le_of_lt within)
    -- no boundary itself, the offset lies behind the first byte of its character
    have behind : floorBoundary t i ≠ i := by
      intro same
      exact boundary (same ▸ stands.boundary)
    have le := floorBoundary_le t i
    omega

theorem decodeBefore_of_boundary (boundary : isBoundary t i = true) (positive : 0 < i) :
    ∃ c : Character, decodeBefore t i = some c ∧ decodeAt t (floorBoundary t (i - 1)) = some c ∧
      floorBoundary t (i - 1) + c.length = i ∧
      leadLength (t.byteAt (floorBoundary t (i - 1))) = c.length := by
  obtain ⟨_, k, stands⟩ := exists_stands_before accepted boundary positive
  obtain ⟨found, _, length, decoded⟩ := stands.decodeAt
  have advances := stands.advances
  rw [stands.floorBoundary_last, stands.decodeBefore]
  exact ⟨found, decoded, decoded, by omega, by rw [stands.lead.2, length]⟩

end Accepted

/-- In a well-formed text the boundaries are the offsets that the lead bytes point out, one more than
    there are characters. An offset is rounded up to the first boundary that does not precede it and
    down to the last one that does not follow it, at most three bytes away. Before every boundary but
    the front the walk back finds the character that begins at the boundary before, and that
    character reaches up to the boundary. -/
theorem character_walks_agree (accepted : wellFormed t = true) :
    (∀ i, isBoundary t i = true ↔ Led t i) ∧
    t.boundaries.length = count t + 1 ∧
    (∀ i, i ≤ t.size →
      IsLeast { j | isBoundary t j = true ∧ i ≤ j } (ceilBoundary t i) ∧ ceilBoundary t i ≤ i + 3 ∧
      IsGreatest { j | isBoundary t j = true ∧ j ≤ i } (floorBoundary t i) ∧
      i ≤ floorBoundary t i + 3) ∧
    (∀ i, isBoundary t i = true → 0 < i → ∃ c : Character,
      decodeBefore t i = some c ∧ decodeAt t (floorBoundary t (i - 1)) = some c ∧
      floorBoundary t (i - 1) + c.length = i ∧
      leadLength (t.byteAt (floorBoundary t (i - 1))) = c.length) := by
  refine ⟨fun i => ⟨led_of_boundary accepted, boundary_of_led accepted⟩,
    length_boundaries accepted, ?_, fun i => decodeBefore_of_boundary accepted⟩
  intro i inside
  refine ⟨⟨⟨isBoundary_ceilBoundary inside, le_ceilBoundary t i inside⟩, ?_⟩,
    ceilBoundary_le_add accepted inside,
    ⟨⟨isBoundary_floorBoundary t i, floorBoundary_le t i⟩, ?_⟩,
    le_floorBoundary_add accepted inside⟩
  · rintro j ⟨boundary, after⟩
    exact ceilBoundary_least boundary after
  · rintro j ⟨boundary, before⟩
    exact floorBoundary_greatest boundary before

theorem character_walks_agree_of_mixed_widths :
    let t := Text.ofList [0x61, 0xC3, 0xA9, 0xE2, 0x82, 0xAC, 0xF0, 0x9F, 0x98, 0x80]
    wellFormed t = true ∧ t.boundaries.length = count t + 1 ∧ t.boundaries = [0, 1, 3, 6, 10] ∧
      Led t 6 ∧ ceilBoundary t 7 ≤ 10 ∧ 9 ≤ floorBoundary t 9 + 3 ∧
      ∃ c : Character, decodeBefore t 10 = some c ∧ c.rune = 0x1F600 := by
  intro t
  have accepted : wellFormed t = true := by decide
  obtain ⟨walked, length, rounded, decoded⟩ := character_walks_agree accepted
  obtain ⟨c, found, _⟩ := decoded 10 (by decide) (by decide)
  have rune : (decodeBefore t 10).map Character.rune = some 0x1F600 := by decide
  rw [found] at rune
  exact ⟨accepted, length, by decide, (walked 6).mp (by decide),
    (rounded 7 (by decide)).2.1, (rounded 9 (by decide)).2.2.2, c, found, Option.some.inj rune⟩

end Utf8
end TextSearch
