import Mathlib.Data.Nat.Find

/-!
Periods of byte sequences. A sequence of `n` bytes is a function that is read below `n`; a cut in it
is critical if every repetition across the cut is a period of the whole sequence.
-/
namespace TextSearch
namespace Word
variable {x : Nat → UInt8} {n p r c first last : Nat}

/-- Bytes of the stretch from `first` up to `last` recur `p` bytes later, as long as that is inside. -/
def PeriodOn (x : Nat → UInt8) (first last p : Nat) : Prop :=
  ∀ i, first ≤ i → i + p < last → x i = x (i + p)

abbrev HasPeriod (x : Nat → UInt8) (n p : Nat) : Prop := PeriodOn x 0 n p

def LeastPeriodOn (x : Nat → UInt8) (first last p : Nat) : Prop :=
  0 < p ∧ PeriodOn x first last p ∧ ∀ q, 0 < q → PeriodOn x first last q → p ≤ q

/-- The bytes before the cut recur `r` bytes later, as far as that reaches behind the cut and stays
    inside the sequence. -/
def Repeats (x : Nat → UInt8) (n c r : Nat) : Prop :=
  ∀ i, i < c → c ≤ i + r → i + r < n → x i = x (i + r)

/-- The shortest repetition across the cut. -/
def LocalPeriod (x : Nat → UInt8) (n c r : Nat) : Prop :=
  0 < r ∧ Repeats x n c r ∧ ∀ q, 0 < q → Repeats x n c q → r ≤ q

def Critical (x : Nat → UInt8) (n c : Nat) : Prop :=
  ∀ r, 0 < r → Repeats x n c r → HasPeriod x n r

def reversed (x : Nat → UInt8) (n : Nat) : Nat → UInt8 := fun i => x (n - (1 + i))

theorem period_of_size : HasPeriod x n n := by
  intro i _ inside
  omega

theorem repeats_of_period (h : HasPeriod x n r) : Repeats x n c r := by
  intro i _ _ inside
  exact h i (Nat.zero_le i) inside

theorem exists_leastPeriod (nonempty : 0 < n) : ∃ p, LeastPeriodOn x 0 n p := by
  classical
  have exist : ∃ p, 0 < p ∧ HasPeriod x n p := ⟨n, nonempty, period_of_size⟩
  obtain ⟨positive, periodic⟩ := Nat.find_spec exist
  exact ⟨Nat.find exist, positive, periodic,
    fun q hq shorter => Nat.find_min' exist ⟨hq, shorter⟩⟩

theorem localPeriod_of_critical (critical : Critical x n c) (least : LeastPeriodOn x 0 n p) :
    LocalPeriod x n c p := by
  obtain ⟨positive, periodic, shortest⟩ := least
  refine ⟨positive, repeats_of_period periodic, ?_⟩
  intro q hq repeats
  exact shortest q hq (critical q hq repeats)

theorem period_narrows (h : HasPeriod x n p) : PeriodOn x first n p := by
  intro i _ inside
  exact h i (Nat.zero_le i) inside

theorem period_multiple (h : PeriodOn x first last p) (q : Nat) {i : Nat} (from_first : first ≤ i)
    (inside : i + q * p < last) : x i = x (i + q * p) := by
  induction q with
  | zero => simp
  | succ q ih =>
    rw [Nat.succ_mul] at inside ⊢
    have here := ih (by omega)
    have next := h (i + q * p) (by omega) (by omega)
    rw [here, next, Nat.add_assoc]

theorem period_mod (h : PeriodOn x first last p) {u v : Nat} (same : u % p = v % p)
    (hu : first + u < last) (hv : first + v < last) : x (first + u) = x (first + v) := by
  have to_head : ∀ w, first + w < last → x (first + w % p) = x (first + w) := by
    intro w hw
    have split := Nat.mod_add_div' w p
    have step := period_multiple h (w / p) (i := first + w % p) (by omega) (by omega)
    rw [step]
    congr 1
    omega
  rw [← to_head u hu, ← to_head v hv, same]

theorem reversed_reversed {i : Nat} (inside : i < n) : reversed (reversed x n) n i = x i := by
  unfold reversed
  congr 1
  omega

theorem reversed_period (h : HasPeriod x n p) : HasPeriod (reversed x n) n p := by
  intro i _ inside
  have mirror := h (n - (1 + (i + p))) (Nat.zero_le _) (by omega)
  simp only [reversed]
  rw [mirror]
  congr 1
  omega

theorem period_reversed_iff : HasPeriod (reversed x n) n p ↔ HasPeriod x n p := by
  constructor
  · intro h i _ inside
    have twice := reversed_period h i (Nat.zero_le i) inside
    rwa [reversed_reversed (by omega), reversed_reversed inside] at twice
  · exact reversed_period

theorem repeats_reversed (h : Repeats x n c r) (inside : c ≤ n) :
    Repeats (reversed x n) n (n - c) r := by
  intro i before across stays
  have mirror := h (n - (1 + (i + r))) (by omega) (by omega) (by omega)
  simp only [reversed]
  rw [mirror]
  congr 1
  omega

theorem critical_of_reversed (h : Critical (reversed x n) n c) (inside : c ≤ n) :
    Critical x n (n - c) := by
  intro r positive repeats
  have mirror := repeats_reversed repeats (by omega)
  rw [Nat.sub_sub_self inside] at mirror
  exact period_reversed_iff.mp (h r positive mirror)

end Word
end TextSearch
