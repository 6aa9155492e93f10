import TextSearch.Proofs.TwoWay.Forward
import TextSearch.Proofs.TwoWay.Backward

/-!
The factorization of a needle in terms of its periods: both cuts are critical, and the shift is the
least period of the needle or a lower bound of it.
-/
namespace TextSearch
namespace TwoWay
open Word Text

namespace Factorization
variable {x : Text} {p : Nat}

theorem cut_eq (x : Text) : (ofText x).cut = (forwardCut x).left := by
  unfold ofText
  dsimp only
  split <;> rfl

theorem leftRecurs_of_short (short : (ofText x).periodicity = .short) :
    leftRecurs x (forwardCut x) = true := by
  unfold ofText at short
  dsimp only at short
  split at short
  next recurs => exact recurs
  next => cases short

theorem not_leftRecurs_of_long (long : (ofText x).periodicity = .long) :
    ¬ leftRecurs x (forwardCut x) = true := by
  unfold ofText at long
  dsimp only at long
  split at long
  next => cases long
  next no => exact no

theorem period_of_short (nonempty : 0 < x.size) (short : (ofText x).periodicity = .short) :
    (ofText x).period = (forwardCut x).period ∧
      LeastPeriodOn x.byteAt 0 x.size (ofText x).period := by
  have recurs := leftRecurs_of_short short
  have same : (ofText x).period = (forwardCut x).period := by simp only [ofText, if_pos recurs]
  exact ⟨same, same ▸ period_of_leftRecurs nonempty recurs⟩

theorem shape_of_long (long : (ofText x).periodicity = .long) :
    1 ≤ (ofText x).cut ∧ (ofText x).cutBack = (ofText x).cut ∧
      (ofText x).period = max (ofText x).cut (x.size - (ofText x).cut) + 1 := by
  have no := not_leftRecurs_of_long long
  refine ⟨?_, by simp only [ofText, if_neg no], by simp only [ofText, if_neg no]⟩
  apply Nat.pos_of_ne_zero
  intro front
  apply no
  rw [leftRecurs_iff]
  intro k before
  rw [cut_eq] at front
  omega

end Factorization

namespace Needle
variable {d : Needle} {hay : Text} {i s e : Nat}

theorem period_le_of_occursAt_behind
    (agree : ∀ k, d.factors.cut ≤ k → k < d.text.size → d.text.byteAt k = hay.byteAt (i + k))
    (positive : 0 < s) (occurs : OccursAt d.text hay (i + s)) : d.factors.period ≤ s := by
  have repeats : Repeats d.text.byteAt d.text.size d.factors.cut s :=
    repeats_of_shift_right agree (fun k => shift_of_occursAt occurs (k := k))
      (Or.inr (Nat.le_refl _))
  exact d.sound.period_le s positive (d.sound.critical s positive repeats)

theorem period_le_of_occursAt_before
    (agree : ∀ k, k < d.factors.cutBack → d.text.byteAt k = hay.byteAt (e - d.text.size + k))
    (positive : 0 < s) (occurs : OccursAt d.text hay i) (ends : i + d.text.size + s = e) :
    d.factors.period ≤ s := by
  have repeats : Repeats d.text.byteAt d.text.size d.factors.cutBack s :=
    repeats_of_shift_left (fun k _ => agree k)
      (fun j => shift_of_occursAt_before occurs ends (j := j)) (Or.inr rfl)
  exact d.sound.period_le s positive (d.sound.criticalBack s positive repeats)

end Needle

/-- Both cuts of a needle lie inside it, and the period of its right part fits behind the cut. The
    local period at either cut is the least period of the needle. In short mode that is the shift,
    and the parts beyond the cuts are shorter; in long mode there is one cut, not at the front, and
    the shift is longer than either part but no longer than the least period. Where one part agrees,
    no occurrence begins, or ends, closer than the shift. -/
theorem factorization_critical (d : Needle) :
    let x := d.text.byteAt
    let n := d.text.size
    let f := d.factors
    let suffix := Factorization.forwardCut d.text
    (f.cut = suffix.left ∧ f.cut < n ∧ f.cut + suffix.period ≤ n ∧ f.cutBack ≤ n) ∧
    (∃ p, LeastPeriodOn x 0 n p ∧ LocalPeriod x n f.cut p ∧ LocalPeriod x n f.cutBack p ∧
      match f.periodicity with
      | .short => f.period = p ∧ f.period = suffix.period ∧ f.cut < f.period ∧
          n - f.cutBack < f.period
      | .long => 1 ≤ f.cut ∧ f.cutBack = f.cut ∧ f.period = max f.cut (n - f.cut) + 1 ∧
          f.period ≤ n ∧ f.period ≤ p) ∧
    (∀ (hay : Text) (i s : Nat),
      (∀ k, f.cut ≤ k → k < n → x k = hay.byteAt (i + k)) → 0 < s →
      OccursAt d.text hay (i + s) → f.period ≤ s) ∧
    (∀ (hay : Text) (i s e : Nat),
      (∀ k, k < f.cutBack → x k = hay.byteAt (e - n + k)) → 0 < s →
      OccursAt d.text hay i → i + n + s = e → f.period ≤ s) := by
  intro x n f suffix
  have sound := d.sound
  have made : f = Factorization.ofText d.text := d.factors_eq
  have cut : f.cut = suffix.left := made ▸ Factorization.cut_eq d.text
  have fits : f.cut + suffix.period ≤ n := cut ▸ Factorization.forwardCut_fits d.nonempty
  obtain ⟨p, least⟩ : ∃ p, LeastPeriodOn x 0 n p := exists_leastPeriod d.nonempty
  refine ⟨⟨cut, sound.cut_lt, fits, sound.cutBack_le⟩,
    ⟨p, least, localPeriod_of_critical sound.critical least,
      localPeriod_of_critical sound.criticalBack least, ?_⟩,
    fun _ _ _ => Needle.period_le_of_occursAt_behind,
    fun _ _ _ _ => Needle.period_le_of_occursAt_before⟩
  cases mode : f.periodicity with
  | short =>
    obtain ⟨right, own⟩ := Factorization.period_of_short d.nonempty (made ▸ mode)
    rw [← made] at right own
    have same : f.period = p :=
      Nat.le_antisymm (own.2.2 p least.1 least.2.1) (least.2.2 f.period own.1 own.2.1)
    exact ⟨same, right, sound.cut_lt_period mode, sound.cutBack_lt_period mode⟩
  | long =>
    have shape := Factorization.shape_of_long (made ▸ mode)
    rw [← made] at shape
    exact ⟨shape.1, shape.2.1, shape.2.2, d.period_le_size,
      sound.period_le p least.1 least.2.1⟩

end TwoWay
end TextSearch
