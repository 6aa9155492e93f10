import Mathlib.Logic.Function.Iterate
import TextSearch.Proofs.TwoWay.Fence

/-!
The scan for the greatest suffix as a loop: how many comparisons it makes, which bytes these read, and
what it has found when it stops. Told the least period of the sequence it reads backward, it stops
early and still finds the same suffix.
-/
namespace TextSearch
namespace TwoWay
open Text Word
variable {order : ByteOrder} {byte : Nat → UInt8} {size known : Nat} {s : SuffixScan}

namespace SuffixScan

def after (order : ByteOrder) (byte : Nat → UInt8) (rounds : Nat) : SuffixScan :=
  (step order byte)^[rounds] .start

/-- Fewer than two comparisons a byte lead to `s`, and each of them reads two bytes inside the
    sequence. -/
structure Takes (order : ByteOrder) (byte : Nat → UInt8) (size rounds : Nat) (s : SuffixScan) :
    Prop where
  ends : s = after order byte rounds
  few : rounds < 2 * size
  inside : ∀ k, k < rounds →
    (after order byte k).left + (after order byte k).offset < size ∧
      (after order byte k).right + (after order byte k).offset < size

theorem after_succ (order : ByteOrder) (byte : Nat → UInt8) (k : Nat) :
    after order byte (k + 1) = (after order byte k).step order byte :=
  Function.iterate_succ_apply' _ k _

theorem after_advances (order : ByteOrder) (byte : Nat → UInt8) (k : Nat) :
    k < (after order byte k).left + (after order byte k).right + (after order byte k).offset := by
  induction k with
  | zero => exact Nat.zero_lt_one
  | succ k ih =>
    have further := step_advances order byte (after order byte k)
    rw [after_succ]
    omega

theorem run_rounds (known : Option Nat) (s : SuffixScan) :
    ∃ rounds, s.run order byte size known = (step order byte)^[rounds] s ∧
      ∀ k, k < rounds →
        ((step order byte)^[k] s).right + ((step order byte)^[k] s).offset < size := by
  fun_induction run order byte size known s with
  | case1 s room _ =>
    refine ⟨1, rfl, ?_⟩
    intro k first
    obtain rfl : k = 0 := by omega
    exact room
  | case2 s room _ ih =>
    obtain ⟨rounds, ends, inside⟩ := ih
    refine ⟨rounds + 1, ends, ?_⟩
    intro k before
    cases k with
    | zero => exact room
    | succ k => exact inside k (by omega)
  | case3 s _ => exact ⟨0, rfl, fun k before => absurd before (Nat.not_lt_zero k)⟩

theorem exists_takes (order : ByteOrder) (byte : Nat → UInt8) (known : Option Nat)
    (nonempty : 0 < size) :
    ∃ rounds, Takes order byte size rounds (start.run order byte size known) := by
  obtain ⟨rounds, ends, room⟩ := run_rounds known start
  have inside : ∀ k, k < rounds →
      (after order byte k).left + (after order byte k).offset < size ∧
        (after order byte k).right + (after order byte k).offset < size := by
    intro k before
    have le := (after order byte k).period_le
    have right := room k before
    simp only [after] at le ⊢
    exact ⟨by omega, right⟩
  refine ⟨rounds, ends, ?_, inside⟩
  cases rounds with
  | zero => omega
  | succ k =>
    -- the last comparison read two bytes inside, so the sum of the offsets was small
    have advanced := after_advances order byte k
    have last := inside k (Nat.lt_succ_self k)
    omega

end SuffixScan

namespace Fenced

theorem maximalSuffix_congr {x y : Nat → UInt8} (same : ∀ k, k < size → x k = y k) :
    maximalSuffix order x size = maximalSuffix order y size := by
  have left : scan order (fun k => some (x k)) size none .start =
      some (maximalSuffix order x size) := scan_eq fun _ _ => rfl
  have right : scan order (fun k => some (x k)) size none .start =
      some (maximalSuffix order y size) := scan_eq fun k inside => congrArg some (same k inside)
  exact Option.some.inj (left.symm.trans right)

end Fenced
end TwoWay

namespace Word
open TwoWay Text
variable {order : ByteOrder} {x : Text} {a b p rounds : Nat} {s : SuffixScan}

theorem lex_of_suffixBefore (before : SuffixBefore order x.byteAt x.size a b) :
    List.Lex (fun u v => order.before u v) (x.toList.drop a) (x.toList.drop b) := by
  obtain ⟨t, inside, difference⟩ := before
  have drop : ∀ i, i < x.size → x.toList.drop i = x.byteAt i :: x.toList.drop (i + 1) :=
    fun i within => drop_eq_cons within
  induction t generalizing a b with
  | zero =>
    rw [drop b inside]
    rcases difference with ⟨inside_a, _, less⟩ | ⟨stop, _⟩
    · rw [drop a inside_a]
      exact .rel less
    · have none_left : x.toList.drop a = [] := List.drop_eq_nil_of_le (by simp; omega)
      rw [none_left]
      exact .nil
  | succ t ih =>
    have shift : ∀ i m, i + 1 + m = i + (m + 1) := by
      intro i m
      omega
    have head : x.byteAt a = x.byteAt b := by
      rcases difference with ⟨_, agree, _⟩ | ⟨_, agree⟩ <;> exact agree 0 (Nat.succ_pos t)
    rw [drop a (by omega), drop b (by omega), head]
    refine .cons (ih (by omega) ?_)
    rcases difference with ⟨inside_a, agree, less⟩ | ⟨stop, agree⟩
    · refine Or.inl ⟨by omega, ?_, ?_⟩
      · intro m early
        simpa only [shift] using agree (m + 1) (by omega)
      · simpa only [shift] using less
    · refine Or.inr ⟨by omega, ?_⟩
      intro m early
      simpa only [shift] using agree (m + 1) (by omega)

theorem lex_of_greatest (greatest : GreatestSuffix order x.byteAt x.size a) {l : List UInt8}
    (suffix : l <:+ x.toList) (other : l ≠ x.toList.drop a) :
    List.Lex (fun u v => order.before u v) l (x.toList.drop a) := by
  have start : l = x.toList.drop (x.toList.length - l.length) := List.suffix_iff_eq_drop.mp suffix
  generalize x.toList.length - l.length = b at start
  subst start
  rcases Nat.lt_or_ge b x.size with inside | past
  · have ne : b ≠ a := by
      rintro rfl
      exact other rfl
    exact lex_of_suffixBefore (greatest.2 b inside ne)
  · rw [List.drop_eq_nil_of_le (by simpa using past), drop_eq_cons greatest.1]
    exact .nil

theorem scanned_after {y : Nat → UInt8} {n : Nat} (nonempty : 0 < n)
    (takes : s.Takes order y n rounds) : ∀ k, k ≤ rounds → Scanned order y n (.after order y k) := by
  intro k upto
  induction k with
  | zero => exact .start nonempty
  | succ k ih =>
    rw [SuffixScan.after_succ]
    exact (ih (by omega)).step (takes.inside k (by omega)).2

theorem byteAt_reverse {k : Nat} (inside : k < x.size) :
    (Text.ofList x.toList.reverse).byteAt k = reversed x.byteAt x.size k := by
  have mirrored : (Text.ofList x.toList.reverse).toList[k]? = x.toList[x.size - (1 + k)]? := by
    rw [toList_ofList, List.getElem?_reverse (by simpa using inside), length_toList]
    congr 1
    omega
  rw [getElem?_toList _ _ (by simpa using inside), getElem?_toList _ _ (by omega)] at mirrored
  exact Option.some.inj mirrored

end Word

namespace TwoWay
open Text Word

/-- Over a non-empty text the scan comes to its end after fewer than two comparisons a byte, all of
    them inside the text. It has then found the suffix that is greater than all others in
    lexicographic order, where a proper beginning comes first, and the least period of that suffix. -/
theorem maximalSuffix_exact (order : ByteOrder) {x : Text} (nonempty : 0 < x.size) :
    let s := maximalSuffix order x.byteAt x.size
    let best := x.toList.drop s.left
    (∃ rounds, s.Takes order x.byteAt x.size rounds ∧ s.right + s.offset = x.size) ∧
    Fenced.scan order x.bytes x.size none .start = some s ∧
    s.left < x.size ∧
    (∀ l, l <:+ x.toList → l ≠ best → List.Lex (fun u v => order.before u v) l best) ∧
    LeastPeriodOn x.byteAt s.left x.size s.period := by
  intro s best
  obtain ⟨scanned, ended⟩ := scanned_maximalSuffix order x.byteAt nonempty
  have greatest := scanned.greatest ended
  obtain ⟨rounds, takes⟩ := SuffixScan.exists_takes order x.byteAt none nonempty
  exact ⟨⟨rounds, takes, ended⟩, Fenced.scan_eq fun k inside => Fenced.bytes_of_inside inside,
    greatest.1, fun l => lex_of_greatest greatest, scanned.least_period ended⟩

theorem maximalSuffix_exact_of_two_letters :
    let x := Text.ofList [0x61, 0x62, 0x61, 0x61, 0x62]
    let s := maximalSuffix .ascending x.byteAt x.size
    0 < x.size ∧ s.left = 1 ∧ s.period = 3 ∧ LeastPeriodOn x.byteAt s.left x.size s.period ∧
      List.Lex (fun u v => ByteOrder.ascending.before u v) [0x62] (x.toList.drop s.left) := by
  intro x s
  have nonempty : 0 < x.size := by decide
  obtain ⟨_, _, _, greatest, least⟩ := maximalSuffix_exact .ascending nonempty
  have left : s.left = 1 := by decide +kernel
  refine ⟨nonempty, left, by decide +kernel, least, ?_⟩
  apply greatest
  · exact ⟨[0x61, 0x62, 0x61, 0x61], rfl⟩
  · show [0x62] ≠ x.toList.drop s.left
    rw [left]
    decide

/-- Told the least period of a text that it reads backward, the scan finds the same suffix as without
    being told. No period that it sees is longer, and the offsets that it counts from the end of the
    text never reach beyond its front. -/
theorem early_stop_exact (order : ByteOrder) {x : Text} {p : Nat} (nonempty : 0 < x.size)
    (least : LeastPeriodOn x.byteAt 0 x.size p) :
    let s := reverseMaximalSuffix order x.byteAt x.size p
    let y := Text.ofList x.toList.reverse
    let scan := SuffixScan.after order (reversed x.byteAt x.size)
    s.left = (maximalSuffix order y.byteAt y.size).left ∧
    Fenced.scan order (Fenced.backward x) x.size (some p) .start = some s ∧
    ∃ rounds, s.Takes order (reversed x.byteAt x.size) x.size rounds ∧
      (∀ k, k ≤ rounds → (scan k).period ≤ p) ∧
      ∀ k, k < rounds → 1 + (scan k).right + (scan k).offset ≤ x.size ∧
        1 + (scan k).left + (scan k).offset ≤ x.size := by
  intro s y scan
  obtain ⟨positive, periodic, _⟩ := least
  have mirrored : HasPeriod (reversed x.byteAt x.size) x.size p := reversed_period periodic
  have same : maximalSuffix order y.byteAt x.size =
      maximalSuffix order (reversed x.byteAt x.size) x.size :=
    Fenced.maximalSuffix_congr fun k => byteAt_reverse
  have size : y.size = x.size := by simp [y]
  obtain ⟨rounds, takes⟩ :=
    SuffixScan.exists_takes order (reversed x.byteAt x.size) (some p) nonempty
  refine ⟨?_, Fenced.scan_eq fun k inside => ?_, rounds, takes, ?_, ?_⟩
  · rw [size, same]
    exact Factorization.reverseMaximalSuffix_left order nonempty periodic
  · exact Fenced.backward_of_inside inside
  · intro k upto
    exact (scanned_after nonempty takes k upto).period_le_known positive (period_narrows mirrored)
  · intro k before
    obtain ⟨left, right⟩ := takes.inside k before
    exact ⟨by simp only [scan]; omega, by simp only [scan]; omega⟩

theorem early_stop_exact_of_repeated_pair :
    let x := Text.ofList [0x61, 0x62, 0x61, 0x62]
    let s := reverseMaximalSuffix .ascending x.byteAt x.size 2
    (0 < x.size ∧ LeastPeriodOn x.byteAt 0 x.size 2) ∧ s.right + s.offset < x.size ∧
      s.left = (maximalSuffix .ascending (Text.ofList x.toList.reverse).byteAt
        (Text.ofList x.toList.reverse).size).left := by
  intro x s
  have nonempty : 0 < x.size := by decide
  have least : LeastPeriodOn x.byteAt 0 x.size 2 := by
    refine ⟨by decide, ?_, ?_⟩
    · intro i _ inside
      have inside : i + 2 < 4 := inside
      obtain rfl | rfl : i = 0 ∨ i = 1 := by omega
      · rfl
      · rfl
    · intro q positive periodic
      apply Nat.le_of_not_lt
      intro short
      obtain rfl : q = 1 := by omega
      exact absurd (periodic 0 (Nat.le_refl 0) (by decide)) (by decide)
  exact ⟨⟨nonempty, least⟩, by decide +kernel, (early_stop_exact .ascending nonempty least).1⟩

end TwoWay
end TextSearch
