import TextSearch.TwoWay.MaximalSuffix
import TextSearch.Proofs.Word.Period

/-!
Suffixes of a byte sequence in lexicographic order, where a proper beginning comes before what it
begins. The later one of the greatest suffixes under the two byte orders starts at a critical cut.
-/
namespace TextSearch
open TwoWay
namespace Word
variable {order : ByteOrder} {x : Nat → UInt8} {n a b c r s t : Nat}

def opposite : ByteOrder → ByteOrder
  | .ascending => .descending
  | .descending => .ascending

theorem before_opposite (u v : UInt8) : (opposite order).before u v = order.before v u := by
  cases order <;> rfl

theorem before_irrefl (order : ByteOrder) (u : UInt8) : ¬ order.before u u = true := by
  cases order <;> simp [ByteOrder.before]

theorem before_trans {u v w : UInt8} (left : order.before u v = true)
    (right : order.before v w = true) : order.before u w = true := by
  cases order <;> simp only [ByteOrder.before, decide_eq_true_eq, UInt8.lt_iff_toNat_lt] at * <;>
    omega

theorem before_connected {u v : UInt8} (no : ¬ order.before u v = true) (ne : u ≠ v) :
    order.before v u = true := by
  have distinct : u.toNat ≠ v.toNat := fun same => ne (UInt8.toNat_inj.mp same)
  cases order <;> simp only [ByteOrder.before, decide_eq_true_eq, UInt8.lt_iff_toNat_lt] at * <;>
    omega

theorem before_asymm {u v : UInt8} (h : order.before u v = true) : ¬ order.before v u = true :=
  fun back => before_irrefl order u (before_trans h back)

def Loses (order : ByteOrder) (x : Nat → UInt8) (a b t : Nat) : Prop :=
  (∀ m, m < t → x (a + m) = x (b + m)) ∧ order.before (x (a + t)) (x (b + t)) = true

theorem loses_trans (left : Loses order x a b s) (right : Loses order x b c t) :
    Loses order x a c (min s t) := by
  obtain ⟨agree_ab, less_ab⟩ := left
  obtain ⟨agree_bc, less_bc⟩ := right
  refine ⟨fun m hm => (agree_ab m (by omega)).trans (agree_bc m (by omega)), ?_⟩
  rcases Nat.lt_trichotomy s t with first | same | second
  · rw [Nat.min_eq_left (by omega), ← agree_bc s first]
    exact less_ab
  · subst same
    rw [Nat.min_self]
    exact before_trans less_ab less_bc
  · rw [Nat.min_eq_right (by omega), agree_ab t second]
    exact less_bc

theorem loses_ne (h : Loses order x a b t) : x (a + t) ≠ x (b + t) := by
  intro same
  have less := h.2
  rw [same] at less
  exact before_irrefl order _ less

/-- The suffix at `a` is smaller than the one at `b`: it loses to it inside the sequence, or it ends
    first without a difference. -/
def SuffixBefore (order : ByteOrder) (x : Nat → UInt8) (n a b : Nat) : Prop :=
  ∃ t, b + t < n ∧
    ((a + t < n ∧ Loses order x a b t) ∨ (a + t = n ∧ ∀ m, m < t → x (a + m) = x (b + m)))

def GreatestSuffix (order : ByteOrder) (x : Nat → UInt8) (n c : Nat) : Prop :=
  c < n ∧ ∀ a, a < n → a ≠ c → SuffixBefore order x n a c

theorem tails_before_of_suffix (agree : ∀ m, m < r → x (a + m) = x (b + m)) (room : a + r ≤ n)
    (whole : SuffixBefore order x n a b) : SuffixBefore order x n (a + r) (b + r) := by
  obtain ⟨t, inside, difference⟩ := whole
  have late : r ≤ t := by
    rcases difference with ⟨_, lose⟩ | ⟨stop, _⟩
    · have ne := loses_ne lose
      exact Nat.le_of_not_lt fun early => ne (agree t early)
    · omega
  have shifted : (∀ m, m < t → x (a + m) = x (b + m)) →
      ∀ m, m < t - r → x (a + r + m) = x (b + r + m) := by
    intro all m hm
    rw [Nat.add_assoc, Nat.add_assoc]
    exact all (r + m) (by omega)
  refine ⟨t - r, by omega, ?_⟩
  rcases difference with ⟨inside_a, all, less⟩ | ⟨stop, all⟩
  · have first : a + r + (t - r) = a + t := by omega
    have second : b + r + (t - r) = b + t := by omega
    refine Or.inl ⟨by omega, shifted all, ?_⟩
    rwa [first, second]
  · exact Or.inr ⟨by omega, shifted all⟩

theorem suffix_before_asymm (forth : SuffixBefore order x n a b) :
    ¬ SuffixBefore order x n b a := by
  intro back
  obtain ⟨s, inside_b, first⟩ := forth
  obtain ⟨t, inside_a, second⟩ := back
  rcases first with ⟨_, agree, less⟩ | ⟨stop, agree⟩
  · rcases second with ⟨_, agree', less'⟩ | ⟨stop', agree'⟩
    · rcases Nat.lt_trichotomy s t with early | same | late
      · exact before_irrefl order _ (agree' s early ▸ less)
      · exact before_asymm less (same ▸ less')
      · exact before_irrefl order _ (agree t late ▸ less')
    · have early : s < t := by omega
      exact before_irrefl order _ (agree' s early ▸ less)
  · rcases second with ⟨_, agree', less'⟩ | ⟨stop', agree'⟩
    · have late : t < s := by omega
      exact before_irrefl order _ (agree t late ▸ less')
    · omega

theorem beginning_of_both (up : SuffixBefore order x n a b)
    (down : SuffixBefore (opposite order) x n a b) (m : Nat) (inside : a + m < n) :
    x (a + m) = x (b + m) := by
  obtain ⟨s, inside_b, first⟩ := up
  obtain ⟨t, inside_b', second⟩ := down
  rcases first with ⟨_, agree, less⟩ | ⟨stop, agree⟩
  · rcases second with ⟨_, agree', less'⟩ | ⟨stop', agree'⟩
    · rw [before_opposite] at less'
      rcases Nat.lt_trichotomy s t with early | same | late
      · exact absurd (agree' s early ▸ less) (before_irrefl order _)
      · exact absurd (same ▸ less') (before_asymm less)
      · exact absurd (agree t late ▸ less') (before_irrefl order _)
    · exact agree' m (by omega)
  · exact agree m (by omega)

/-- No repetition reaches past the front of the greatest suffix and stays behind the start: the
    suffix that begins with the repeated part would be greater still. -/
theorem repetition_exceeds_cut (greatest : GreatestSuffix order x n c) (positive : 0 < r)
    (repeats : Repeats x n c r) : c < r := by
  apply Nat.lt_of_not_le
  intro short
  have inside := greatest.1
  have agree : ∀ m, m < r → c + m < n → x (c - r + m) = x (c + m) := by
    intro m hm inside
    have here := repeats (c - r + m) (by omega) (by omega) (by omega)
    have later : c - r + m + r = c + m := by omega
    rwa [later] at here
  have smaller : SuffixBefore order x n (c - r) c := greatest.2 (c - r) (by omega) (by omega)
  by_cases room : c + r < n
  · have tails := tails_before_of_suffix (fun m hm => agree m hm (by omega))
      (by omega) smaller
    rw [Nat.sub_add_cancel short] at tails
    exact suffix_before_asymm tails (greatest.2 (c + r) room (by omega))
  · -- the greatest suffix is shorter than the repetition, hence a beginning of the longer suffix
    have longer : SuffixBefore order x n c (c - r) :=
      ⟨n - c, by omega, Or.inr ⟨by omega,
        fun m hm => (agree m (by omega) (by omega)).symm⟩⟩
    exact suffix_before_asymm smaller longer

theorem critical_of_greatest {e : Nat} (later : GreatestSuffix order x n c)
    (earlier : GreatestSuffix (opposite order) x n e) (le : e ≤ c) : Critical x n c := by
  intro r positive repeats
  have long := repetition_exceeds_cut later positive repeats
  intro i _ inside
  by_cases left : i < c
  · exact repeats i left (by omega) inside
  · have up : SuffixBefore order x n (c + r) c := later.2 (c + r) (by omega) (by omega)
    have agree : ∀ m, m < c - e → x (e + r + m) = x (e + m) := by
      intro m hm
      have here := repeats (e + m) (by omega) (by omega) (by omega)
      rw [here]
      congr 1
      omega
    have whole : SuffixBefore (opposite order) x n (e + r) e :=
      earlier.2 (e + r) (by omega) (by omega)
    have down := tails_before_of_suffix agree (by omega) whole
    have shifted : e + r + (c - e) = c + r := by omega
    rw [shifted, Nat.add_sub_cancel' le] at down
    have same := beginning_of_both up down (i - c) (by omega)
    have there : c + r + (i - c) = i + r := by omega
    have here : c + (i - c) = i := by omega
    rw [there, here] at same
    exact same.symm

end Word
end TextSearch
