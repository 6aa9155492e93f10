import TextSearch.Proofs.Word.SuffixOrder

/-!
What the scan for the greatest suffix knows after every comparison, and what follows at its end: it
stands at the greatest suffix and knows the least period of it. A scan that is told the period of the
whole sequence may stop as soon as it sees it.
-/
namespace TextSearch
open TwoWay
namespace Word
variable {order : ByteOrder} {x : Nat → UInt8} {n p : Nat} {s : SuffixScan}

/-- The bytes read so far are those before `right + offset`. Suffixes before the best one lose to it;
    those that start within its first period lose before that period is over. -/
structure Scanned (order : ByteOrder) (x : Nat → UInt8) (n : Nat) (s : SuffixScan) : Prop where
  inside : s.right + s.offset ≤ n
  whole : ∃ q, s.right = s.left + q * s.period
  periodic : PeriodOn x s.left (s.right + s.offset) s.period
  earlier : ∀ a, a < s.left → ∃ t, s.left + t < n ∧ Loses order x a s.left t
  inner : ∀ e, 0 < e → e < s.period → ∃ t, e + t < s.period ∧ Loses order x (s.left + e) s.left t

namespace Scanned

theorem start (nonempty : 0 < n) : Scanned order x n SuffixScan.start where
  inside := nonempty
  whole := ⟨1, rfl⟩
  periodic := by
    intro i _ inside
    simp only [SuffixScan.start] at inside
    omega
  earlier := by
    intro a before
    simp only [SuffixScan.start] at before
    omega
  inner := by
    intro e positive small
    simp only [SuffixScan.start] at small
    omega

theorem read_mod (h : Scanned order x n s) :
    (s.right + s.offset - s.left) % s.period = s.offset := by
  obtain ⟨q, whole⟩ := h.whole
  have split : s.right + s.offset - s.left = s.offset + q * s.period := by omega
  rw [split, Nat.add_mul_mod_self_right, Nat.mod_eq_of_lt s.offset_lt]

theorem best_at (h : Scanned order x n s) {u : Nat} (same : u % s.period = s.offset)
    (inside : s.left + u < s.right + s.offset) : x (s.left + u) = x (s.left + s.offset) := by
  have le := s.period_le
  have lt := s.offset_lt
  exact period_mod h.periodic (by rw [same, Nat.mod_eq_of_lt lt]) inside (by omega)

theorem residue_at (h : Scanned order x n s) (e m : Nat)
    (inside : s.left + e + m < s.right + s.offset) :
    x (s.left + e + m) = x (s.left + e % s.period + m) := by
  have small : e % s.period ≤ e := Nat.mod_le e s.period
  rw [Nat.add_assoc, Nat.add_assoc]
  exact period_mod h.periodic (by rw [Nat.mod_add_mod]) (by omega) (by omega)

theorem loses_of_smaller (h : Scanned order x n s)
    (smaller : order.before (x (s.right + s.offset)) (x (s.left + s.offset)) = true) {e : Nat}
    (positive : 0 < e) (inside : s.left + e ≤ s.right + s.offset) :
    ∃ t, s.left + e + t ≤ s.right + s.offset ∧ Loses order x (s.left + e) s.left t := by
  have le := s.period_le
  have lt := s.offset_lt
  have read := h.read_mod
  generalize width : s.right + s.offset - s.left = w at read
  have last : s.left + e + (w - e) = s.right + s.offset := by omega
  have residue := h.residue_at e
  by_cases aligned : e % s.period = 0
  · -- a whole number of periods later the suffixes agree up to the byte just read
    have rest : (w - e) % s.period = s.offset := by
      have total : (e + (w - e)) % s.period = s.offset := by rw [← read]; congr 1; omega
      rwa [Nat.add_mod, aligned, Nat.zero_add, Nat.mod_mod] at total
    refine ⟨w - e, by omega, ?_, ?_⟩
    · intro m hm
      rw [residue m (by omega), aligned, Nat.add_zero]
    · rw [last, h.best_at rest (by omega)]
      exact smaller
  · obtain ⟨t, short, agree, less⟩ := h.inner (e % s.period) (by omega)
      (Nat.mod_lt e s.period_pos)
    by_cases early : e + t < w
    · refine ⟨t, by omega, ?_, ?_⟩
      · intro m hm
        rw [residue m (by omega), agree m hm]
      · rw [residue t (by omega)]
        exact less
    · -- the difference is not read yet, so the byte just read decides
      have rest : e % s.period + (w - e) = s.offset := by
        have total : (e % s.period + (w - e)) % s.period = s.offset := by
          rw [Nat.mod_add_mod, ← read]
          congr 1
          omega
        rwa [Nat.mod_eq_of_lt (by omega)] at total
      refine ⟨w - e, by omega, ?_, ?_⟩
      · intro m hm
        rw [residue m (by omega), agree m (by omega)]
      · have best : x (s.left + s.offset) = x (s.left + e % s.period + (w - e)) := by
          rw [Nat.add_assoc, rest]
        rw [last]
        rw [best] at smaller
        by_cases later : w - e < t
        · rwa [agree (w - e) later] at smaller
        · have ended : t = w - e := by omega
          rw [ended] at less
          exact before_trans smaller less

theorem loses_of_greater (h : Scanned order x n s)
    (greater : order.before (x (s.left + s.offset)) (x (s.right + s.offset)) = true)
    (room : s.right + s.offset < n) {a : Nat} (before : a < s.right) :
    ∃ t, s.right + t < n ∧ Loses order x a s.right t := by
  have lt := s.offset_lt
  have le := s.period_le
  obtain ⟨q, whole⟩ := h.whole
  have best : Loses order x s.left s.right s.offset := by
    constructor
    · intro m hm
      rw [whole]
      have step := period_multiple h.periodic q (i := s.left + m) (by omega) (by omega)
      rw [step]
      congr 1
      omega
    · exact greater
  rcases Nat.lt_trichotomy a s.left with early | same | late
  · obtain ⟨t, _, lose⟩ := h.earlier a early
    exact ⟨min t s.offset, by omega, loses_trans lose best⟩
  · exact ⟨s.offset, room, same ▸ best⟩
  · obtain ⟨e, rfl⟩ : ∃ e, a = s.left + e := ⟨a - s.left, by omega⟩
    have residue := h.residue_at e
    by_cases aligned : e % s.period = 0
    · refine ⟨s.offset, room, ?_, ?_⟩
      · intro m hm
        rw [residue m (by omega), aligned, Nat.add_zero]
        exact best.1 m hm
      · rw [residue s.offset (by omega), aligned, Nat.add_zero]
        exact best.2
    · obtain ⟨t, short, agree, less⟩ := h.inner (e % s.period) (by omega)
        (Nat.mod_lt e s.period_pos)
      have period : e / s.period + 1 ≤ q := by
        apply Nat.div_lt_of_lt_mul
        rw [Nat.mul_comm]
        omega
      have room' : (e / s.period + 1) * s.period ≤ q * s.period := Nat.mul_le_mul_right _ period
      rw [Nat.succ_mul] at room'
      have split := Nat.mod_add_div' e s.period
      have lose : Loses order x (s.left + e) s.left t := by
        constructor
        · intro m hm
          rw [residue m (by omega), agree m hm]
        · rw [residue t (by omega)]
          exact less
      exact ⟨min t s.offset, by omega, loses_trans lose best⟩

theorem lengthen (h : Scanned order x n s) (room : s.right + s.offset < n)
    (smaller : order.before (x (s.right + s.offset)) (x (s.left + s.offset)) = true) :
    Scanned order x n s.lengthen := by
  have le := s.period_le
  refine ⟨?_, ⟨1, ?_⟩, ?_, h.earlier, ?_⟩
  · simp only [SuffixScan.lengthen]
    omega
  · simp only [SuffixScan.lengthen]
    omega
  · intro i from_left inside
    simp only [SuffixScan.lengthen] at from_left inside
    omega
  · intro e positive small
    simp only [SuffixScan.lengthen] at small ⊢
    obtain ⟨t, short, lose⟩ := h.loses_of_smaller smaller positive (by omega)
    exact ⟨t, by omega, lose⟩

theorem agree (h : Scanned order x n s) (room : s.right + s.offset < n)
    (same : x (s.right + s.offset) = x (s.left + s.offset)) : Scanned order x n s.agree := by
  have le := s.period_le
  have lt := s.offset_lt
  have grown : PeriodOn x s.left (s.right + s.offset + 1) s.period := by
    intro i from_left inside
    by_cases early : i + s.period < s.right + s.offset
    · exact h.periodic i from_left early
    · obtain ⟨u, rfl⟩ : ∃ u, i = s.left + u := ⟨i - s.left, by omega⟩
      have last : s.left + u + s.period = s.right + s.offset := by omega
      have rest : u % s.period = s.offset := by
        have read : s.right + s.offset - s.left = u + s.period := by omega
        rw [← h.read_mod, read, Nat.add_mod_right]
      have := s.period_pos
      rw [last, same]
      exact h.best_at rest (by omega)
  obtain ⟨q, whole⟩ := h.whole
  unfold SuffixScan.agree
  split
  next full =>
    refine ⟨by dsimp only; omega, ⟨q + 1, ?_⟩, grown, h.earlier, h.inner⟩
    dsimp only
    rw [Nat.succ_mul]
    omega
  next part => exact ⟨by dsimp only; omega, ⟨q, whole⟩, grown, h.earlier, h.inner⟩

theorem replace (h : Scanned order x n s) (room : s.right + s.offset < n)
    (greater : order.before (x (s.left + s.offset)) (x (s.right + s.offset)) = true) :
    Scanned order x n s.replace := by
  refine ⟨?_, ⟨1, ?_⟩, ?_, ?_, ?_⟩
  · simp only [SuffixScan.replace]
    omega
  · simp only [SuffixScan.replace, Nat.one_mul]
  · intro i from_left inside
    simp only [SuffixScan.replace] at from_left inside
    omega
  · intro a before
    exact h.loses_of_greater greater room before
  · intro e positive small
    simp only [SuffixScan.replace] at small
    omega

theorem step (h : Scanned order x n s) (room : s.right + s.offset < n) :
    Scanned order x n (s.step order x) := by
  unfold SuffixScan.step
  dsimp only
  split
  next smaller => exact h.lengthen room smaller
  next not_smaller =>
    split
    next same => exact h.agree room same
    next other => exact h.replace room (before_connected not_smaller other)

theorem run (h : Scanned order x n s) (known : Option Nat) :
    Scanned order x n (s.run order x n known) := by
  fun_induction SuffixScan.run order x n known s with
  | case1 s room _ => exact h.step room
  | case2 s room _ ih => exact ih (h.step room)
  | case3 => exact h

theorem period_le_known (h : Scanned order x n s) (positive : 0 < p)
    (periodic : PeriodOn x s.left n p) : s.period ≤ p := by
  apply Nat.le_of_not_lt
  intro shorter
  have le := s.period_le
  have inside := h.inside
  obtain ⟨t, short, lose⟩ := h.inner p positive shorter
  have recur := periodic (s.left + t) (by omega) (by omega)
  rw [Nat.add_right_comm] at recur
  exact loses_ne lose recur.symm

theorem run_left_of_period (h : Scanned order x n s) (periodic : HasPeriod x n s.period) :
    (s.run order x n none).left = s.left := by
  fun_induction SuffixScan.run order x n none s with
  | case1 s _ stop => cases stop
  | case2 s room _ ih =>
    obtain ⟨q, whole⟩ := h.whole
    have recur : x (s.right + s.offset) = x (s.left + s.offset) := by
      have step := period_multiple periodic q (i := s.left + s.offset) (Nat.zero_le _) (by omega)
      rw [step]
      congr 1
      omega
    have agrees : s.step order x = s.agree := by
      simp [SuffixScan.step, recur, before_irrefl]
    have same : s.agree.period = s.period ∧ s.agree.left = s.left := by
      unfold SuffixScan.agree
      split <;> exact ⟨rfl, rfl⟩
    rw [agrees] at ih ⊢
    rw [ih (h.agree room recur) (by rw [same.1]; exact periodic), same.2]
  | case3 => rfl

theorem run_known_left (h : Scanned order x n s) (periodic : HasPeriod x n p) :
    (s.run order x n (some p)).left = (s.run order x n none).left := by
  fun_induction SuffixScan.run order x n (some p) s with
  | case1 s room seen =>
    have period : p = (s.step order x).period := Option.some.inj seen
    have stays := (h.step room).run_left_of_period (period ▸ periodic)
    conv => rhs; rw [SuffixScan.run]
    simp [room, stays]
  | case2 s room unseen ih =>
    rw [ih (h.step room)]
    conv => rhs; rw [SuffixScan.run]
    simp [room]
  | case3 s ended =>
    conv => rhs; rw [SuffixScan.run]
    simp [ended]

theorem greatest (h : Scanned order x n s) (ended : s.right + s.offset = n) :
    GreatestSuffix order x n s.left := by
  have le := s.period_le
  have lt := s.offset_lt
  refine ⟨by omega, ?_⟩
  intro a inside other
  rcases Nat.lt_or_gt_of_ne other with early | late
  · obtain ⟨t, room, lose⟩ := h.earlier a early
    exact ⟨t, room, Or.inl ⟨by omega, lose⟩⟩
  · obtain ⟨e, rfl⟩ : ∃ e, a = s.left + e := ⟨a - s.left, by omega⟩
    have residue := h.residue_at e
    by_cases aligned : e % s.period = 0
    · refine ⟨n - (s.left + e), by omega, Or.inr ⟨by omega, ?_⟩⟩
      intro m hm
      rw [residue m (by omega), aligned, Nat.add_zero]
    · obtain ⟨t, short, agree, less⟩ := h.inner (e % s.period) (by omega)
        (Nat.mod_lt e s.period_pos)
      by_cases room : s.left + e + t < n
      · refine ⟨t, by omega, Or.inl ⟨room, ?_, ?_⟩⟩
        · intro m hm
          rw [residue m (by omega), agree m hm]
        · rw [residue t (by omega)]
          exact less
      · refine ⟨n - (s.left + e), by omega, Or.inr ⟨by omega, ?_⟩⟩
        intro m hm
        rw [residue m (by omega), agree m (by omega)]

theorem least_period (h : Scanned order x n s) (ended : s.right + s.offset = n) :
    LeastPeriodOn x s.left n s.period :=
  ⟨s.period_pos, ended ▸ h.periodic, fun _ positive periodic => h.period_le_known positive periodic⟩

end Scanned

theorem run_reads_all (inside : s.right + s.offset ≤ n) (h : Scanned order x n s) :
    (s.run order x n none).right + (s.run order x n none).offset = n := by
  fun_induction SuffixScan.run order x n none s with
  | case1 s _ stop => cases stop
  | case2 s room _ ih => exact ih (h.step room).inside (h.step room)
  | case3 s ended => omega

end Word
end TextSearch
