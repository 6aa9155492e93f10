import TextSearch.TwoWay.Factorization
import TextSearch.Proofs.Word.SuffixScan

/-!
The factorization of every non-empty needle is sound: both cuts are critical, no period of the needle
is shorter than the shift, and in short mode the shift is the period itself.
-/
namespace TextSearch
namespace TwoWay
open Word

/-- A needle cut at critical positions, with a shift that undercuts none of its periods. -/
structure Factorization.Sound (x : Text) (f : Factorization) : Prop where
  cut_lt : f.cut < x.size
  critical : Critical x.byteAt x.size f.cut
  cutBack_le : f.cutBack ≤ x.size
  criticalBack : Critical x.byteAt x.size f.cutBack
  period_le : ∀ q, 0 < q → HasPeriod x.byteAt x.size q → f.period ≤ q
  periodic : f.periodicity = .short → HasPeriod x.byteAt x.size f.period
  cut_lt_period : f.periodicity = .short → f.cut < f.period
  cutBack_lt_period : f.periodicity = .short → x.size - f.cutBack < f.period
  filter : ∀ k, k < x.size → f.filter.mayContain (x.byteAt k) = true

theorem scanned_maximalSuffix (order : ByteOrder) (byte : Nat → UInt8) {size : Nat}
    (nonempty : 0 < size) :
    Scanned order byte size (maximalSuffix order byte size) ∧
      (maximalSuffix order byte size).right + (maximalSuffix order byte size).offset = size :=
  ⟨(Scanned.start nonempty).run none, run_reads_all nonempty (Scanned.start nonempty)⟩

/-- The later one of the greatest suffixes under both orders starts at a critical cut, and every
    repetition across the cut is longer than the part before it. -/
theorem critical_of_both (byte : Nat → UInt8) {size cut : Nat} (nonempty : 0 < size)
    (later : cut = max (maximalSuffix .ascending byte size).left
      (maximalSuffix .descending byte size).left) :
    cut < size ∧ Critical byte size cut ∧ ∀ r, 0 < r → Repeats byte size cut r → cut < r := by
  have up := scanned_maximalSuffix .ascending byte nonempty
  have down := scanned_maximalSuffix .descending byte nonempty
  have greatest_up := up.1.greatest up.2
  have greatest_down := down.1.greatest down.2
  rcases Nat.le_total (maximalSuffix .ascending byte size).left
      (maximalSuffix .descending byte size).left with le | le
  · rw [Nat.max_eq_right le] at later
    subst later
    exact ⟨greatest_down.1, critical_of_greatest greatest_down greatest_up le,
      fun r => repetition_exceeds_cut greatest_down⟩
  · rw [Nat.max_eq_left le] at later
    subst later
    exact ⟨greatest_up.1, critical_of_greatest greatest_up greatest_down le,
      fun r => repetition_exceeds_cut greatest_up⟩

namespace Factorization
variable {x : Text} {p q : Nat}

theorem forwardCut_left : (forwardCut x).left =
    max (maximalSuffix .ascending x.byteAt x.size).left
      (maximalSuffix .descending x.byteAt x.size).left := by
  unfold forwardCut
  dsimp only
  split <;> omega

theorem forwardCut_scanned (nonempty : 0 < x.size) :
    ∃ order, Scanned order x.byteAt x.size (forwardCut x) ∧
      (forwardCut x).right + (forwardCut x).offset = x.size := by
  unfold forwardCut
  dsimp only
  split
  · exact ⟨.ascending, scanned_maximalSuffix .ascending x.byteAt nonempty⟩
  · exact ⟨.descending, scanned_maximalSuffix .descending x.byteAt nonempty⟩

theorem forwardCut_least_period (nonempty : 0 < x.size) :
    LeastPeriodOn x.byteAt (forwardCut x).left x.size (forwardCut x).period := by
  obtain ⟨order, scanned, done⟩ := forwardCut_scanned nonempty
  exact scanned.least_period done

theorem forwardCut_fits (nonempty : 0 < x.size) :
    (forwardCut x).left + (forwardCut x).period ≤ x.size := by
  obtain ⟨order, scanned, done⟩ := forwardCut_scanned nonempty
  have le := (forwardCut x).period_le
  omega

theorem leftRecurs_iff (s : SuffixScan) :
    leftRecurs x s = true ↔ ∀ k, k < s.left → x.byteAt k = x.byteAt (s.period + k) :=
  Text.agreeBelow_iff

theorem period_of_leftRecurs (nonempty : 0 < x.size) (recurs : leftRecurs x (forwardCut x) = true) :
    LeastPeriodOn x.byteAt 0 x.size (forwardCut x).period := by
  obtain ⟨positive, right, least⟩ := forwardCut_least_period nonempty
  refine ⟨positive, ?_, fun q hq periodic => least q hq (period_narrows periodic)⟩
  intro i _ inside
  by_cases left : i < (forwardCut x).left
  · rw [(leftRecurs_iff _).mp recurs i left, Nat.add_comm]
  · exact right i (by omega) inside

theorem repeats_of_short_period {c : Nat} (right : PeriodOn x.byteAt c x.size p)
    (periodic : HasPeriod x.byteAt x.size q) (positive : 0 < q) (le : c + q ≤ x.size) :
    Repeats x.byteAt x.size c ((q - 1) % p + 1) := by
  intro i before across inside
  have split := Nat.mod_add_div' (q - 1) p
  have step := period_multiple right ((q - 1) / p) (i := i + ((q - 1) % p + 1)) across (by omega)
  rw [periodic i (Nat.zero_le i) (by omega), step]
  congr 1
  omega

theorem parts_lt_period (nonempty : 0 < x.size) (no : ¬ leftRecurs x (forwardCut x) = true)
    (positive : 0 < q) (periodic : HasPeriod x.byteAt x.size q) :
    max (forwardCut x).left (x.size - (forwardCut x).left) < q := by
  obtain ⟨hp, right, least⟩ := forwardCut_least_period nonempty
  obtain ⟨cut, critical, exceeded⟩ := critical_of_both x.byteAt nonempty forwardCut_left
  have left := exceeded q positive (repeats_of_period periodic)
  have fits := forwardCut_fits nonempty
  apply Nat.max_lt.mpr ⟨left, ?_⟩
  apply Nat.lt_of_not_le
  intro short
  have repeats := repeats_of_short_period right periodic positive (by omega)
  have whole := critical _ (Nat.succ_pos _) repeats
  have le := least _ (Nat.succ_pos _) (period_narrows whole)
  have small := Nat.mod_lt (q - 1) hp
  -- the repetition is a whole period of the right part, so the left part does recur
  have same : (q - 1) % (forwardCut x).period + 1 = (forwardCut x).period := by omega
  rw [Nat.succ_eq_add_one, same] at whole
  apply no
  rw [leftRecurs_iff]
  intro k before
  rw [Nat.add_comm]
  exact whole k (Nat.zero_le k) (by omega)

theorem reverseMaximalSuffix_left (order : ByteOrder) (nonempty : 0 < x.size)
    (periodic : HasPeriod x.byteAt x.size p) :
    (reverseMaximalSuffix order x.byteAt x.size p).left =
      (maximalSuffix order (reversed x.byteAt x.size) x.size).left :=
  (Scanned.start nonempty).run_known_left (reversed_period periodic)

theorem backwardCut_eq (nonempty : 0 < x.size) (periodic : HasPeriod x.byteAt x.size p) :
    backwardCut x p = x.size -
      max (maximalSuffix .ascending (reversed x.byteAt x.size) x.size).left
        (maximalSuffix .descending (reversed x.byteAt x.size) x.size).left := by
  rw [backwardCut, reverseMaximalSuffix_left .ascending nonempty periodic,
    reverseMaximalSuffix_left .descending nonempty periodic]

theorem backwardCut_critical (nonempty : 0 < x.size) (positive : 0 < p)
    (periodic : HasPeriod x.byteAt x.size p) :
    Critical x.byteAt x.size (backwardCut x p) ∧ x.size - backwardCut x p < p := by
  obtain ⟨cut, critical, exceeded⟩ :=
    critical_of_both (reversed x.byteAt x.size) nonempty rfl
  have short := exceeded p positive (repeats_of_period (reversed_period periodic))
  rw [backwardCut_eq nonempty periodic]
  exact ⟨critical_of_reversed critical (by omega), by omega⟩

theorem ofText_sound (nonempty : 0 < x.size) : (ofText x).Sound x := by
  obtain ⟨cut, critical, exceeded⟩ := critical_of_both x.byteAt nonempty forwardCut_left
  have filter : ∀ k, k < x.size → (ByteFilter.ofText x).mayContain (x.byteAt k) = true :=
    fun k inside => ByteFilter.mayContain_ofText x inside
  unfold ofText
  dsimp only
  split
  next recurs =>
    obtain ⟨positive, periodic, least⟩ := period_of_leftRecurs nonempty recurs
    obtain ⟨criticalBack, short⟩ := backwardCut_critical nonempty positive periodic
    exact {
      cut_lt := cut
      critical := critical
      cutBack_le := Nat.sub_le _ _
      criticalBack := criticalBack
      period_le := least
      periodic := fun _ => periodic
      cut_lt_period := fun _ => exceeded _ positive (repeats_of_period periodic)
      cutBack_lt_period := fun _ => short
      filter := filter }
  next no =>
    exact {
      cut_lt := cut
      critical := critical
      cutBack_le := Nat.le_of_lt cut
      criticalBack := critical
      period_le := fun q positive periodic => parts_lt_period nonempty no positive periodic
      periodic := fun short => nomatch short
      cut_lt_period := fun short => nomatch short
      cutBack_lt_period := fun short => nomatch short
      filter := filter }

end Factorization

theorem Needle.sound (d : Needle) : d.factors.Sound d.text :=
  d.factors_eq ▸ Factorization.ofText_sound d.nonempty

end TwoWay
end TextSearch
