import TextSearch.TwoWay.Scan
import TextSearch.Proofs.Text.Coverage
import TextSearch.Proofs.TwoWay.Alignment

/-!
One alignment from the left: the cursor it leaves has skipped no occurrence, and what it remembers is
true of the next window.
-/
namespace TextSearch
namespace TwoWay
open Word Text

/-- A forward cursor inside the haystack that remembers nothing, or the part of the needle that
    recurs one period later, and remembers it rightly. -/
structure Forward.Ready (d : Needle) (hay : Text) (c : Forward) : Prop where
  position_le : c.position ≤ hay.size
  memory : c.memory = d.remember 0 ∨ c.memory = d.remember (d.text.size - d.factors.period)
  known : c.position + d.text.size ≤ hay.size →
    ∀ k, k < c.memory.getD 0 → d.text.byteAt k = hay.byteAt (c.position + k)

theorem Forward.ready_fresh (d : Needle) {hay : Text} {position : Nat}
    (inside : position ≤ hay.size) : Forward.Ready d hay ⟨position, d.remember 0⟩ where
  position_le := inside
  memory := Or.inl rfl
  known := by
    intro _ k hk
    rw [d.remember_getD] at hk
    split at hk <;> omega

theorem Forward.Ready.finished {d : Needle} {hay : Text} {c : Forward} (h : c.Ready d hay) :
    Forward.Ready d hay { c with position := hay.size } where
  position_le := Nat.le_refl _
  memory := h.memory
  known := by
    intro room
    have := d.nonempty
    dsimp only at room
    omega

namespace Needle
variable {d : Needle} {hay : Text}

section Skips
variable {p s : Nat}

theorem shift_of_occursAt (occurs : OccursAt d.text hay (p + s)) {k : Nat} (inside : k < d.text.size) :
    hay.byteAt (p + (s + k)) = d.text.byteAt k := by
  rw [← Nat.add_assoc]
  exact occurs.2 k inside

theorem noneStarts_of_filter
    (miss : d.factors.filter.mayContain (hay.byteAt (p + (d.text.size - 1))) = false) :
    NoneStarts d.text hay p (p + d.text.size) := by
  intro k from_p before occurs
  obtain ⟨s, rfl⟩ : ∃ s, k = p + s := ⟨k - p, by omega⟩
  have byte := shift_of_occursAt occurs (k := d.text.size - 1 - s) (by omega)
  have last : s + (d.text.size - 1 - s) = d.text.size - 1 := by omega
  rw [last] at byte
  have has := d.sound.filter (d.text.size - 1 - s) (by omega)
  rw [byte, has] at miss
  cases miss

theorem noneStarts_of_right_mismatch {m : Nat} (le : d.factors.cut ≤ m) (inside : m < d.text.size)
    (agree : ∀ k, d.factors.cut ≤ k → k < m → d.text.byteAt k = hay.byteAt (p + k))
    (differ : d.text.byteAt m ≠ hay.byteAt (p + m)) :
    NoneStarts d.text hay p (p + (m - d.factors.cut + 1)) := by
  intro k from_p before occurs
  obtain ⟨s, rfl⟩ : ∃ s, k = p + s := ⟨k - p, by omega⟩
  have bytes := fun k => shift_of_occursAt occurs (k := k)
  have recurs : d.text.byteAt (m - s) = d.text.byteAt m := by
    by_cases zero : s = 0
    · rw [zero, Nat.sub_zero]
    · -- the shift is a repetition across the cut, and the cut is critical
      have repeats : Repeats d.text.byteAt d.text.size d.factors.cut s :=
        repeats_of_shift_right agree bytes (Or.inl (by omega))
      have period := d.sound.critical s (by omega) repeats (m - s) (Nat.zero_le _) (by omega)
      rwa [Nat.sub_add_cancel (by omega)] at period
  apply differ
  rw [← recurs, ← bytes (m - s) (by omega)]
  congr 2
  omega

theorem noneStarts_of_left_mismatch {m : Nat} (inside : m < d.text.size)
    (agree : ∀ k, d.factors.cut ≤ k → k < d.text.size → d.text.byteAt k = hay.byteAt (p + k))
    (differ : d.text.byteAt m ≠ hay.byteAt (p + m)) :
    NoneStarts d.text hay p (p + d.factors.period) := by
  intro k from_p before occurs
  obtain ⟨s, rfl⟩ : ∃ s, k = p + s := ⟨k - p, by omega⟩
  have bytes := fun k => shift_of_occursAt occurs (k := k)
  by_cases zero : s = 0
  · subst zero
    have same := bytes m inside
    rw [Nat.zero_add] at same
    exact differ same.symm
  · have repeats : Repeats d.text.byteAt d.text.size d.factors.cut s :=
      repeats_of_shift_right agree bytes (Or.inr (Nat.le_refl _))
    have period := d.sound.critical s (by omega) repeats
    have least := d.sound.period_le s (by omega) period
    omega

end Skips

theorem tryForward_outOfRoom {c : Forward} (h : d.tryForward hay c = .outOfRoom) :
    hay.size < c.position + d.text.size := by
  simp only [tryForward] at h
  split at h
  next short => omega
  next room =>
    repeat' split at h
    all_goals cases h

theorem agree_behind_cut {c : Forward} (ready : c.Ready d hay)
    (room : c.position + d.text.size ≤ hay.size) :
    ∀ k, d.factors.cut ≤ k →
      k < mismatchFrom d.text.byteAt (fun k => hay.byteAt (c.position + k)) d.text.size
        (max d.factors.cut (c.memory.getD 0)) →
      d.text.byteAt k = hay.byteAt (c.position + k) := by
  intro k behind before
  by_cases remembered : k < c.memory.getD 0
  · exact ready.known room k remembered
  · exact agree_before_mismatchFrom _ k (by omega) before

theorem ready_after_period {c : Forward} (room : c.position + d.text.size ≤ hay.size)
    (agree : ∀ k, d.factors.cut ≤ k → k < d.text.size →
      d.text.byteAt k = hay.byteAt (c.position + k)) :
    Forward.Ready d hay
      ⟨c.position + d.factors.period, d.remember (d.text.size - d.factors.period)⟩ where
  position_le := by
    have := d.period_le_size
    dsimp only
    omega
  memory := Or.inr rfl
  known := by
    intro _ k hk
    rw [d.remember_getD] at hk
    split at hk
    next short =>
      have cut := d.sound.cut_lt_period short
      rw [d.sound.periodic short k (Nat.zero_le k) (by omega), agree _ (by omega) (by omega)]
      dsimp only
      congr 1
      omega
    next => omega

theorem ready_of_moved {c after : Forward} (ready : c.Ready d hay)
    (h : d.tryForward hay c = .moved after) :
    after.Ready d hay ∧ NoneStarts d.text hay c.position after.position := by
  have inside := ready.position_le
  have size := d.nonempty
  have agree := agree_behind_cut ready
  simp only [tryForward] at h
  split at h
  next => cases h
  next enough =>
    have room : c.position + d.text.size ≤ hay.size := by omega
    replace agree := agree room
    have cut := le_mismatchFrom d.text.byteAt (fun k => hay.byteAt (c.position + k)) d.text.size
      (max d.factors.cut (c.memory.getD 0))
    split at h
    next miss =>
      cases h
      exact ⟨Forward.ready_fresh d room, noneStarts_of_filter (by simpa using miss)⟩
    next =>
      split at h
      next right =>
        have differ := differ_at_mismatchFrom _ right
        cases h
        exact ⟨Forward.ready_fresh d (by omega),
          noneStarts_of_right_mismatch (by omega) right agree differ⟩
      next whole =>
        have matched : ∀ k, d.factors.cut ≤ k → k < d.text.size →
            d.text.byteAt k = hay.byteAt (c.position + k) :=
          fun k behind stays => agree k behind (by omega)
        split at h
        next left =>
          have differ := differ_at_mismatchBefore _ left
          have below := mismatchBefore_le d.text.byteAt (fun k => hay.byteAt (c.position + k))
            (c.memory.getD 0) d.factors.cut
          have cut_lt := d.sound.cut_lt
          cases h
          exact ⟨ready_after_period room matched,
            noneStarts_of_left_mismatch (by omega) matched differ⟩
        next => cases h

theorem occursAt_of_hit {c after : Forward} (ready : c.Ready d hay)
    (h : d.tryForward hay c = .hit after) :
    after.Ready d hay ∧ OccursAt d.text hay c.position := by
  have inside := ready.position_le
  have agree := agree_behind_cut ready
  simp only [tryForward] at h
  split at h
  next => cases h
  next enough =>
    have room : c.position + d.text.size ≤ hay.size := by omega
    replace agree := agree room
    split at h
    next => cases h
    next =>
      split at h
      next => cases h
      next whole =>
        split at h
        next => cases h
        next left =>
          cases h
          have near : ∀ k, mismatchBefore d.text.byteAt (fun k => hay.byteAt (c.position + k))
              (c.memory.getD 0) d.factors.cut ≤ k → k < d.factors.cut →
              d.text.byteAt k = hay.byteAt (c.position + k) :=
            agree_after_mismatchBefore d.factors.cut
          refine ⟨Forward.ready_fresh d room, room, ?_⟩
          intro k stays
          by_cases behind : d.factors.cut ≤ k
          · exact (agree k behind (by omega)).symm
          · by_cases remembered : k < c.memory.getD 0
            · exact (ready.known room k remembered).symm
            · exact (near k (by omega) (by omega)).symm

theorem nextMatch_cases {c : Forward} (ready : c.Ready d hay) :
    (d.nextMatch hay c).2.Ready d hay ∧
      FirstMatch d.text hay c.position (d.nextMatch hay c).1 (d.nextMatch hay c).2.position := by
  fun_induction nextMatch d hay c with
  | case1 c verdict =>
    have short := tryForward_outOfRoom verdict
    constructor
    · exact ready.finished
    · refine Or.inr ⟨rfl, rfl, ?_⟩
      intro i after
      exact noneStarts_of_no_room short i after (Nat.lt_succ_self i)
  | case2 c after verdict ih =>
    obtain ⟨ready', skip⟩ := ready_of_moved ready verdict
    have moved := tryForward_moved verdict
    obtain ⟨final, outcome⟩ := ih ready'
    exact ⟨final, firstMatch_of_skip (Nat.le_of_lt moved.1) skip outcome⟩
  | case3 c after verdict =>
    obtain ⟨ready', occurs⟩ := occursAt_of_hit ready verdict
    have position := (tryForward_hit verdict).1
    rw [position]
    exact ⟨ready', firstMatch_here occurs⟩

theorem next_cases {c : Forward} (ready : c.Ready d hay) :
    (d.next hay c).2.Ready d hay ∧
      (((d.next hay c).1 = none ∧ c.position = hay.size ∧ (d.next hay c).2.position = hay.size) ∨
        ((d.next hay c).1 = some (.found c.position (c.position + d.text.size)) ∧
          (d.next hay c).2.position = c.position + d.text.size ∧
          OccursAt d.text hay c.position) ∨
        ∃ q, (d.next hay c).1 = some (.rejected c.position q) ∧ (d.next hay c).2.position = q ∧
          c.position < q ∧ NoneStarts d.text hay c.position q ∧
          (q = hay.size ∨ q + d.text.size ≤ hay.size)) := by
  have inside := ready.position_le
  unfold next
  split
  next verdict =>
    have short := tryForward_outOfRoom verdict
    constructor
    · exact ready.finished
    · by_cases ended : hay.size ≤ c.position
      · exact Or.inl ⟨if_pos ended, by omega, rfl⟩
      · exact Or.inr (Or.inr ⟨hay.size, if_neg ended, rfl, by omega, noneStarts_of_no_room short,
          Or.inl rfl⟩)
  next after verdict =>
    obtain ⟨ready', skip⟩ := ready_of_moved ready verdict
    have moved := tryForward_moved verdict
    have inside' := ready'.position_le
    split
    next short =>
      exact ⟨ready'.finished, Or.inr (Or.inr ⟨hay.size, rfl, rfl, by omega,
        noneStarts_append skip (noneStarts_of_no_room (by omega)), Or.inl rfl⟩)⟩
    next room =>
      exact ⟨ready', Or.inr (Or.inr ⟨after.position, rfl, rfl, moved.1, skip, Or.inr (by omega)⟩)⟩
  next after verdict =>
    obtain ⟨ready', occurs⟩ := occursAt_of_hit ready verdict
    have position := (tryForward_hit verdict).1
    exact ⟨ready', Or.inr (Or.inl ⟨by rw [position], position, occurs⟩)⟩

end Needle
end TwoWay
end TextSearch
