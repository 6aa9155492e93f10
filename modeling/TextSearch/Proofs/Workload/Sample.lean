import TextSearch.Workload.Corpus
import TextSearch.Proofs.Utf8.Walks

/-!
Needles cut out of a haystack. Whatever offset is drawn, the needle is a stretch of whole characters, as
many as asked for or all that the haystack has left. A haystack with four bytes for each character has
enough of them behind every offset that may be drawn. In a shorter one the bound of the offsets wraps,
and offsets past the end may be drawn, too.
-/
namespace TextSearch
namespace Workload
open Text Utf8
variable {hay : Text} {characters offset i : Nat}

section Bound
variable {size : Nat}

theorem lastOffset_eq :
    lastOffset size characters = (2 ^ 64 - 4 * characters % 2 ^ 64 + size) % 2 ^ 64 := by
  rw [lastOffset, UInt64.toNat_sub, UInt64.toNat_mul, UInt64.toNat_ofNat', UInt64.toNat_ofNat',
    show (4 : UInt64).toNat = 4 from rfl]
  omega

variable (word : size < 2 ^ 64)
include word

theorem lastOffset_of_room (room : 4 * characters % 2 ^ 64 ≤ size) :
    lastOffset size characters = size - 4 * characters % 2 ^ 64 := by
  rw [lastOffset_eq]
  omega

theorem lastOffset_of_wrap (wraps : size < 4 * characters % 2 ^ 64) :
    lastOffset size characters = 2 ^ 64 - 4 * characters % 2 ^ 64 + size := by
  rw [lastOffset_eq]
  omega

theorem lastOffset_le_iff : lastOffset size characters ≤ size ↔ 4 * characters % 2 ^ 64 ≤ size := by
  constructor
  · intro le
    by_contra wraps
    rw [lastOffset_of_wrap word (Nat.lt_of_not_le wraps)] at le
    omega
  · intro room
    rw [lastOffset_of_room word room]
    exact Nat.sub_le _ _

theorem add_le_of_drawn (room : 4 * characters ≤ size)
    (drawn : offset ≤ lastOffset size characters) : offset + 4 * characters ≤ size := by
  rw [lastOffset_of_room word (by omega)] at drawn
  omega

end Bound

section Draws
variable (hay characters)

theorem randNat_le (gen : StdGen) (bound : Nat) : (randNat gen 0 bound).1 ≤ bound := by
  simp only [randNat, gt_iff_lt, Nat.not_lt_zero, if_false, Nat.zero_add, Nat.sub_zero]
  exact Nat.le_of_lt_succ (Nat.mod_lt _ (Nat.succ_pos bound))

theorem drawNeedle_sampled (gen : StdGen) :
    ∃ offset, offset ≤ lastOffset hay.size characters ∧
      (drawNeedle hay characters gen).1 = sampleAt hay characters offset :=
  ⟨_, randNat_le gen _, rfl⟩

theorem drawNeedles_sampled (n : Nat) (gen : StdGen) :
    ∀ needle ∈ (drawNeedles hay characters n gen).1,
      ∃ offset, offset ≤ lastOffset hay.size characters ∧
        needle = sampleAt hay characters offset := by
  induction n generalizing gen with
  | zero =>
    intro needle member
    cases member
  | succ n ih =>
    rw [drawNeedles, List.forall_mem_cons]
    exact ⟨drawNeedle_sampled hay characters gen, ih _⟩

end Draws

/-- The needle stands between two boundaries, the first of them where the offset is rounded up to. It
    has as many characters as asked for, unless the haystack ends behind it. -/
structure IsStretch (hay : Text) (characters offset : Nat) (needle : Text) : Prop where
  starts : isBoundary hay (ceilBoundary hay offset) = true
  most : Utf8.count needle ≤ characters
  stops : ∃ stop, ceilBoundary hay offset ≤ stop ∧ isBoundary hay stop = true ∧
    needle = hay.slice (ceilBoundary hay offset) stop ∧
    (Utf8.count needle < characters → stop = hay.size)

theorem isBoundary_sampleStart (hay : Text) (offset : Nat) :
    isBoundary hay (ceilBoundary hay offset) = true := by
  rcases Nat.lt_or_ge hay.size offset with past | inside
  · rw [ceilBoundary_of_past past]
    exact isBoundary_start
  · exact isBoundary_ceilBoundary inside

section Stretch
variable (accepted : wellFormed hay = true)
include accepted

theorem exists_run_of_skip (boundary : isBoundary hay i = true) (n : Nat) :
    ∃ cs, Run hay i cs (skipCharacters hay n i) ∧ cs.length ≤ n ∧
      (cs.length < n → skipCharacters hay n i = hay.size) := by
  induction n generalizing i with
  | zero => exact ⟨[], .nil, Nat.le_refl 0, fun fewer => absurd fewer (Nat.lt_irrefl 0)⟩
  | succ n ih =>
    rw [skipCharacters]
    by_cases last : i = hay.size
    · rw [if_pos last]
      exact ⟨[], .nil, Nat.zero_le _, fun _ => last⟩
    · have inside := isBoundary_le boundary
      obtain ⟨c, j, stands⟩ := exists_stands accepted boundary (by omega)
      obtain ⟨cs, run, most, fewer⟩ := ih (stands.boundary_behind accepted)
      rw [if_neg last, stands.lead_stop]
      exact ⟨c :: cs, .cons stands run, Nat.succ_le_succ most,
        fun short => fewer (Nat.lt_of_succ_lt_succ short)⟩

theorem exists_run_of_sample (characters offset : Nat) :
    ∃ cs stop, Run hay (ceilBoundary hay offset) cs stop ∧
      sampleAt hay characters offset = hay.slice (ceilBoundary hay offset) stop ∧
      cs.length ≤ characters ∧ (cs.length < characters → stop = hay.size) := by
  obtain ⟨cs, run, most, fewer⟩ :=
    exists_run_of_skip accepted (isBoundary_sampleStart hay offset) characters
  exact ⟨cs, _, run, rfl, most, fewer⟩

theorem isStretch_sampleAt (characters offset : Nat) :
    IsStretch hay characters offset (sampleAt hay characters offset) := by
  have starts := isBoundary_sampleStart hay offset
  obtain ⟨cs, stop, run, cut, most, fewer⟩ := exists_run_of_sample accepted characters offset
  rw [← run.count_slice, ← cut] at most fewer
  exact ⟨starts, most, stop, run.le, run.boundary_behind accepted starts, cut, fewer⟩

theorem count_sampleAt_of_room (room : offset + 4 * characters ≤ hay.size) :
    Utf8.count (sampleAt hay characters offset) = characters := by
  obtain ⟨cs, stop, run, cut, most, fewer⟩ := exists_run_of_sample accepted characters offset
  have near := ceilBoundary_le_add accepted (i := offset) (by omega)
  have long := run.stop_le
  rw [cut, run.count_slice]
  apply Nat.le_antisymm most
  -- fewer characters would have to reach up to the end, and they are too short for that
  by_contra short
  have ends := fewer (Nat.lt_of_not_le short)
  omega

end Stretch

/-- A sample is a stretch of whole characters whatever the offset, and every needle that is drawn is a
    sample at an offset up to the bound. If the haystack has four bytes for each character, these offsets
    lie within it, and their samples have as many characters as asked for. In general the offsets lie
    within it exactly if four times the characters, in words of 64 bits, are not more than its bytes.
    Behind an offset past the end there is no boundary to round it up to, and its sample begins at the
    front. -/
theorem samples_are_stretches {hay : Text} (accepted : wellFormed hay = true)
    (word : hay.size < 2 ^ 64) (characters : Nat) :
    (∀ offset, IsStretch hay characters offset (sampleAt hay characters offset)) ∧
    (∀ n gen, ∀ needle ∈ (drawNeedles hay characters n gen).1,
      ∃ offset, offset ≤ lastOffset hay.size characters ∧
        needle = sampleAt hay characters offset) ∧
    (4 * characters ≤ hay.size → ∀ offset, offset ≤ lastOffset hay.size characters →
      offset ≤ hay.size ∧ Utf8.count (sampleAt hay characters offset) = characters) ∧
    ((∀ offset, offset ≤ lastOffset hay.size characters → offset ≤ hay.size) ↔
      4 * characters % 2 ^ 64 ≤ hay.size) ∧
    ∀ offset, hay.size < offset →
      ceilBoundary hay offset = 0 ∧ ∀ j, offset ≤ j → isBoundary hay j = false := by
  refine ⟨isStretch_sampleAt accepted characters, drawNeedles_sampled hay characters, ?_, ?_, ?_⟩
  · intro room offset drawn
    have behind := add_le_of_drawn word room drawn
    exact ⟨by omega, count_sampleAt_of_room accepted behind⟩
  · rw [← lastOffset_le_iff word]
    exact ⟨fun inside => inside _ (Nat.le_refl _), fun le _ drawn => Nat.le_trans drawn le⟩
  · intro offset past
    refine ⟨ceilBoundary_of_past past, ?_⟩
    intro j behind
    rw [← Bool.not_eq_true]
    intro boundary
    have inside := isBoundary_le boundary
    omega

theorem samples_are_stretches_of_mixed_widths :
    let hay := Text.ofList [0xF0, 0x9F, 0x98, 0x80, 0x61, 0xC3, 0xA9]
    wellFormed hay = true ∧ hay.size < 2 ^ 64 ∧
      (∀ offset, offset ≤ lastOffset hay.size 1 → Utf8.count (sampleAt hay 1 offset) = 1) ∧
      IsStretch hay 2 5 (sampleAt hay 2 5) ∧
      ¬ ∀ offset, offset ≤ lastOffset hay.size 2 → offset ≤ hay.size := by
  intro hay
  have accepted : wellFormed hay = true := by decide
  have word : hay.size < 2 ^ 64 := by decide
  obtain ⟨_, _, whole, _, _⟩ := samples_are_stretches accepted word 1
  obtain ⟨stretches, _, _, inside, _⟩ := samples_are_stretches accepted word 2
  exact ⟨accepted, word, fun offset drawn => (whole (by decide) offset drawn).2, stretches 5,
    fun all => absurd (inside.mp all) (by decide)⟩

/-- Needles have ten characters unless a setting says otherwise, so with a haystack of one letter nearly
    all offsets that may be drawn lie past its end. -/
theorem draws_past_end_of_letter :
    let e := Extent.ofSettings (some (.ofList [0x31])) none
    let hay := Text.ofList [0x61]
    wellFormed hay = true ∧ hay.size = e.size ∧ 0 < hay.size ∧ 1 ≤ e.characters ∧
      ¬ ∀ offset, offset ≤ lastOffset hay.size e.characters → offset ≤ hay.size := by
  intro e hay
  refine ⟨by decide, by decide, by decide, by decide, ?_⟩
  intro inside
  exact absurd (inside 2 (by decide)) (by decide)

end Workload
end TextSearch
