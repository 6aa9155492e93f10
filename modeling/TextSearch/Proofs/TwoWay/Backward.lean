import TextSearch.TwoWay.Scan
import TextSearch.Proofs.Text.Coverage
import TextSearch.Proofs.TwoWay.Alignment

/-!
One alignment from the right: the cursor it leaves has skipped no occurrence, and what it remembers is
true of the next window.
-/
namespace TextSearch
namespace TwoWay
open Word Text

structure Backward.Ready (d : Needle) (hay : Text) (c : Backward) : Prop where
  stop_le : c.stop ≤ hay.size
  memory : c.memory = d.remember d.text.size ∨ c.memory = d.remember d.factors.period
  known : d.text.size ≤ c.stop → ∀ k, c.memory.getD d.text.size ≤ k → k < d.text.size →
    d.text.byteAt k = hay.byteAt (c.stop - d.text.size + k)

theorem Backward.ready_fresh (d : Needle) {hay : Text} {stop : Nat}
    (inside : stop ≤ hay.size) : Backward.Ready d hay ⟨stop, d.remember d.text.size⟩ where
  stop_le := inside
  memory := Or.inl rfl
  known := by
    intro _ k hk inside
    rw [d.remember_getD] at hk
    split at hk <;> omega

theorem Backward.Ready.finished {d : Needle} {hay : Text} {c : Backward} (h : c.Ready d hay) :
    Backward.Ready d hay { c with stop := 0 } where
  stop_le := Nat.zero_le _
  memory := h.memory
  known := by
    intro room
    have := d.nonempty
    dsimp only at room
    omega

theorem Backward.Ready.known_le {d : Needle} {hay : Text} {c : Backward} (h : c.Ready d hay) :
    c.memory.getD d.text.size ≤ d.text.size := by
  have := d.period_le_size
  rcases h.memory with memory | memory <;> rw [memory, d.remember_getD] <;> split <;> omega

namespace Needle
variable {d : Needle} {hay : Text}

section SkipsBack
variable {e s k : Nat}

theorem shift_of_occursAt_before (occurs : OccursAt d.text hay k) (ends : k + d.text.size + s = e)
    {j : Nat} (inside : j + s < d.text.size) :
    hay.byteAt (e - d.text.size + j) = d.text.byteAt (j + s) := by
  rw [← occurs.2 (j + s) inside]
  congr 1
  omega

theorem noneEnds_of_filter (room : d.text.size ≤ e)
    (miss : d.factors.filter.mayContain (hay.byteAt (e - d.text.size + 0)) = false) :
    NoneEnds d.text hay (e - d.text.size) e := by
  intro k after upto occurs
  obtain ⟨s, ends⟩ : ∃ s, k + d.text.size + s = e := ⟨e - (k + d.text.size), by omega⟩
  have byte := shift_of_occursAt_before occurs ends (j := 0) (by omega)
  have has := d.sound.filter (0 + s) (by omega)
  rw [byte, has] at miss
  cases miss

theorem noneEnds_of_left_mismatch {m : Nat} (before : m < d.factors.cutBack)
    (room : d.text.size ≤ e)
    (agree : ∀ k, m + 1 ≤ k → k < d.factors.cutBack →
      d.text.byteAt k = hay.byteAt (e - d.text.size + k))
    (differ : d.text.byteAt m ≠ hay.byteAt (e - d.text.size + m)) :
    NoneEnds d.text hay (e - (d.factors.cutBack - m)) e := by
  intro k after upto occurs
  have cut := d.sound.cutBack_le
  obtain ⟨s, ends⟩ : ∃ s, k + d.text.size + s = e := ⟨e - (k + d.text.size), by omega⟩
  have bytes := fun j => shift_of_occursAt_before occurs ends (j := j)
  have recurs : d.text.byteAt m = d.text.byteAt (m + s) := by
    by_cases zero : s = 0
    · rw [zero, Nat.add_zero]
    · have repeats : Repeats d.text.byteAt d.text.size d.factors.cutBack s :=
        repeats_of_shift_left agree bytes (Or.inl (by omega))
      exact d.sound.criticalBack s (by omega) repeats m (Nat.zero_le _) (by omega)
  apply differ
  rw [recurs]
  exact (bytes m (by omega)).symm

theorem noneEnds_of_right_mismatch {m : Nat} (inside : m < d.text.size)
    (agree : ∀ k, k < d.factors.cutBack → d.text.byteAt k = hay.byteAt (e - d.text.size + k))
    (differ : d.text.byteAt m ≠ hay.byteAt (e - d.text.size + m)) :
    NoneEnds d.text hay (e - d.factors.period) e := by
  intro k after upto occurs
  obtain ⟨s, ends⟩ : ∃ s, k + d.text.size + s = e := ⟨e - (k + d.text.size), by omega⟩
  have bytes := fun j => shift_of_occursAt_before occurs ends (j := j)
  by_cases zero : s = 0
  · subst zero
    exact differ (bytes m inside).symm
  · have repeats : Repeats d.text.byteAt d.text.size d.factors.cutBack s :=
      repeats_of_shift_left (fun k _ => agree k) bytes (Or.inr rfl)
    have period := d.sound.criticalBack s (by omega) repeats
    have least := d.sound.period_le s (by omega) period
    omega

end SkipsBack

theorem tryBackward_outOfRoom {c : Backward} (h : d.tryBackward hay c = .outOfRoom) :
    c.stop < d.text.size := by
  simp only [tryBackward] at h
  split at h
  next short => exact short
  next room =>
    repeat' split at h
    all_goals cases h

theorem agree_before_cut {c : Backward} (ready : c.Ready d hay) (room : d.text.size ≤ c.stop) :
    ∀ k, mismatchBefore d.text.byteAt (fun k => hay.byteAt (c.stop - d.text.size + k)) 0
        (min d.factors.cutBack (c.memory.getD d.text.size)) ≤ k →
      k < d.factors.cutBack → d.text.byteAt k = hay.byteAt (c.stop - d.text.size + k) := by
  intro k after before
  have cut := d.sound.cutBack_le
  by_cases remembered : c.memory.getD d.text.size ≤ k
  · exact ready.known room k remembered (by omega)
  · exact agree_after_mismatchBefore _ k after (by omega)

theorem readyBack_after_period {c : Backward} (ready : c.Ready d hay) (room : d.text.size ≤ c.stop)
    (agree : ∀ k, k < d.factors.cutBack →
      d.text.byteAt k = hay.byteAt (c.stop - d.text.size + k)) :
    Backward.Ready d hay ⟨c.stop - d.factors.period, d.remember d.factors.period⟩ where
  stop_le := by
    have := ready.stop_le
    dsimp only
    omega
  memory := Or.inr rfl
  known := by
    intro enough k hk inside
    rw [d.remember_getD] at hk
    split at hk
    next short =>
      have cut := d.sound.cutBack_lt_period short
      have recur := d.sound.periodic short (k - d.factors.period) (Nat.zero_le _) (by omega)
      rw [Nat.sub_add_cancel hk] at recur
      rw [← recur, agree _ (by omega)]
      dsimp only at enough ⊢
      congr 1
      omega
    next => omega

theorem readyBack_of_moved {c after : Backward} (ready : c.Ready d hay)
    (h : d.tryBackward hay c = .moved after) :
    after.Ready d hay ∧ NoneEnds d.text hay after.stop c.stop := by
  have inside := ready.stop_le
  have size := d.nonempty
  have cut := d.sound.cutBack_le
  have agree := agree_before_cut ready
  simp only [tryBackward] at h
  split at h
  next => cases h
  next enough =>
    have room : d.text.size ≤ c.stop := by omega
    replace agree := agree room
    have below := mismatchBefore_le d.text.byteAt
      (fun k => hay.byteAt (c.stop - d.text.size + k)) 0
      (min d.factors.cutBack (c.memory.getD d.text.size))
    split at h
    next miss =>
      cases h
      exact ⟨Backward.ready_fresh d (by omega), noneEnds_of_filter room (by simpa using miss)⟩
    next =>
      split at h
      next left =>
        have differ := differ_at_mismatchBefore _ left
        cases h
        exact ⟨Backward.ready_fresh d (by omega), noneEnds_of_left_mismatch (by omega) room
          (fun k after before => agree k (by omega) before) differ⟩
      next whole =>
        have matched : ∀ k, k < d.factors.cutBack →
            d.text.byteAt k = hay.byteAt (c.stop - d.text.size + k) :=
          fun k before => agree k (by omega) before
        split at h
        next right =>
          have differ := differ_at_mismatchFrom _ right
          have known := ready.known_le
          cases h
          exact ⟨readyBack_after_period ready room matched,
            noneEnds_of_right_mismatch (by omega) matched differ⟩
        next => cases h

theorem occursAt_of_hitBack {c after : Backward} (ready : c.Ready d hay)
    (h : d.tryBackward hay c = .hit after) :
    after.Ready d hay ∧ OccursAt d.text hay after.stop := by
  have inside := ready.stop_le
  have agree := agree_before_cut ready
  simp only [tryBackward] at h
  split at h
  next => cases h
  next enough =>
    have room : d.text.size ≤ c.stop := by omega
    replace agree := agree room
    split at h
    next => cases h
    next =>
      split at h
      next => cases h
      next whole =>
        split at h
        next => cases h
        next right =>
          cases h
          have near : ∀ k, d.factors.cutBack ≤ k →
              k < mismatchFrom d.text.byteAt (fun k => hay.byteAt (c.stop - d.text.size + k))
                (c.memory.getD d.text.size) d.factors.cutBack →
              d.text.byteAt k = hay.byteAt (c.stop - d.text.size + k) :=
            agree_before_mismatchFrom d.factors.cutBack
          refine ⟨Backward.ready_fresh d (by omega), by dsimp only; omega, ?_⟩
          intro k stays
          by_cases before : k < d.factors.cutBack
          · exact (agree k (by omega) before).symm
          · by_cases remembered : c.memory.getD d.text.size ≤ k
            · exact (ready.known room k remembered stays).symm
            · exact (near k (by omega) (by omega)).symm

theorem nextMatchBack_cases {c : Backward} (ready : c.Ready d hay) :
    (d.nextMatchBack hay c).2.Ready d hay ∧
      LastMatch d.text hay c.stop (d.nextMatchBack hay c).1 (d.nextMatchBack hay c).2.stop := by
  fun_induction nextMatchBack d hay c with
  | case1 c verdict =>
    have short := tryBackward_outOfRoom verdict
    constructor
    · exact ready.finished
    · refine Or.inr ⟨rfl, rfl, ?_⟩
      intro i before
      omega
  | case2 c after verdict ih =>
    obtain ⟨ready', skip⟩ := readyBack_of_moved ready verdict
    have moved := tryBackward_moved verdict
    obtain ⟨final, outcome⟩ := ih ready'
    exact ⟨final, lastMatch_of_skip (Nat.le_of_lt moved) skip outcome⟩
  | case3 c after verdict =>
    obtain ⟨ready', occurs⟩ := occursAt_of_hitBack ready verdict
    have ends := tryBackward_hit verdict
    constructor
    · exact ready'
    · rw [← ends]
      exact lastMatch_here occurs rfl

theorem nextBack_cases {c : Backward} (ready : c.Ready d hay) :
    (d.nextBack hay c).2.Ready d hay ∧
      (((d.nextBack hay c).1 = none ∧ c.stop = 0 ∧ (d.nextBack hay c).2.stop = 0) ∨
        (∃ i, (d.nextBack hay c).1 = some (.found i c.stop) ∧ (d.nextBack hay c).2.stop = i ∧
          i + d.text.size = c.stop ∧ OccursAt d.text hay i) ∨
        ∃ q, (d.nextBack hay c).1 = some (.rejected q c.stop) ∧ (d.nextBack hay c).2.stop = q ∧
          q < c.stop ∧ NoneEnds d.text hay q c.stop ∧ (q = 0 ∨ d.text.size ≤ q)) := by
  unfold nextBack
  split
  next verdict =>
    have short := tryBackward_outOfRoom verdict
    constructor
    · exact ready.finished
    · by_cases ended : c.stop = 0
      · exact Or.inl ⟨if_pos ended, ended, rfl⟩
      · exact Or.inr (Or.inr ⟨0, if_neg ended, rfl, by omega, noneEnds_of_no_room short,
          Or.inl rfl⟩)
  next after verdict =>
    obtain ⟨ready', skip⟩ := readyBack_of_moved ready verdict
    have moved := tryBackward_moved verdict
    split
    next short =>
      exact ⟨ready'.finished, Or.inr (Or.inr ⟨0, rfl, rfl, by omega,
        noneEnds_append (noneEnds_of_no_room short) skip, Or.inl rfl⟩)⟩
    next room =>
      exact ⟨ready', Or.inr (Or.inr ⟨after.stop, rfl, rfl, moved, skip, Or.inr (by omega)⟩)⟩
  next after verdict =>
    obtain ⟨ready', occurs⟩ := occursAt_of_hitBack ready verdict
    exact ⟨ready', Or.inr (Or.inl ⟨after.stop, rfl, rfl, tryBackward_hit verdict, occurs⟩)⟩

end Needle
end TwoWay
end TextSearch
