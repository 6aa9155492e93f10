import TextSearch.TwoWay.Alignment
import TextSearch.Proofs.TwoWay.Factorization

/-!
What two byte sequences compared outward from a cut have in common, and why a shift of one against
the other is a repetition across the cut.
-/
namespace TextSearch
namespace TwoWay
open Word

section Mismatch
variable {needle window : Nat → UInt8} {stop : Nat}

theorem agree_before_mismatchFrom (i : Nat) :
    ∀ k, i ≤ k → k < mismatchFrom needle window stop i → needle k = window k := by
  fun_induction mismatchFrom needle window stop i with
  | case1 i same ih =>
    intro k from_i before
    by_cases here : k = i
    · exact here ▸ same.2
    · exact ih k (by omega) before
  | case2 i no =>
    intro k from_i before
    omega

theorem differ_at_mismatchFrom (i : Nat) (inside : mismatchFrom needle window stop i < stop) :
    needle (mismatchFrom needle window stop i) ≠ window (mismatchFrom needle window stop i) := by
  fun_induction mismatchFrom needle window stop i with
  | case1 i same ih => exact ih inside
  | case2 i no => exact fun same => no ⟨inside, same⟩

theorem agree_after_mismatchBefore (i : Nat) :
    ∀ k, mismatchBefore needle window stop i ≤ k → k < i → needle k = window k := by
  induction i with
  | zero =>
    intro k _ before
    omega
  | succ i ih =>
    intro k after before
    rw [mismatchBefore] at after
    split at after
    next same =>
      by_cases here : k = i
      · exact here ▸ same.2
      · exact ih k after (by omega)
    next no => omega

theorem differ_at_mismatchBefore (i : Nat) (inside : stop < mismatchBefore needle window stop i) :
    needle (mismatchBefore needle window stop i - 1) ≠
      window (mismatchBefore needle window stop i - 1) := by
  induction i with
  | zero =>
    simp only [mismatchBefore] at inside
    omega
  | succ i ih =>
    rw [mismatchBefore] at inside ⊢
    split at inside
    next same =>
      rw [if_pos same]
      exact ih inside
    next no =>
      rw [if_neg no]
      exact fun same => no ⟨inside, same⟩

end Mismatch

section Shift
variable {x w : Nat → UInt8} {n c m s : Nat}

theorem repeats_of_shift_right (agree : ∀ k, c ≤ k → k < m → x k = w k)
    (occurs : ∀ k, k < n → w (s + k) = x k) (reach : c + s ≤ m ∨ n ≤ m) : Repeats x n c s := by
  intro i before across inside
  rw [agree (i + s) across (by omega), Nat.add_comm i s]
  exact (occurs i (by omega)).symm

theorem repeats_of_shift_left (agree : ∀ k, m ≤ k → k < c → x k = w k)
    (occurs : ∀ k, k + s < n → w k = x (k + s)) (reach : m + s ≤ c ∨ m = 0) :
    Repeats x n c s := by
  intro i before across inside
  rw [agree i (by omega) before]
  exact occurs i inside

end Shift

theorem Needle.remember_getD (d : Needle) (count default : Nat) :
    (d.remember count).getD default = match d.factors.periodicity with
      | .short => count
      | .long => default := by
  unfold Needle.remember
  cases d.factors.periodicity <;> rfl

theorem Needle.period_le_size (d : Needle) : d.factors.period ≤ d.text.size :=
  d.sound.period_le _ d.nonempty period_of_size

end TwoWay
end TextSearch
