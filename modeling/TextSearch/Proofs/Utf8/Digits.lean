import Mathlib.Algebra.Group.Nat.Defs
import TextSearch.Proofs.Utf8.Characters

/-!
The bytes of one character in arithmetic: a lead byte that says how many follow, and digits to the
base 64 behind it. The encoder writes these digits, the decoder reads them, and the validator takes
exactly the sequences that have them.
-/
namespace TextSearch
namespace Utf8

section Words

theorem toNat_or_of_parts {high low : UInt32} {h l : Nat} (k : Nat) (highs : high.toNat = h)
    (lows : low.toNat = l) (multiple : 2 ^ k ∣ h) (small : l < 2 ^ k) :
    (high ||| low).toNat = h + l := by
  obtain ⟨q, rfl⟩ := multiple
  rw [UInt32.toNat_or, highs, lows, Nat.two_pow_add_eq_or_of_lt small]

theorem toNat_shiftLeft_of_lt {u s : UInt32} {n : Nat} (k : Nat) (value : u.toNat = n)
    (amount : s.toNat = k) (shift : k < 32) (fits : n * 2 ^ k < 2 ^ 32) :
    (u <<< s).toNat = n * 2 ^ k := by
  rw [UInt32.toNat_shiftLeft, value, amount, Nat.mod_eq_of_lt shift, Nat.shiftLeft_eq,
    Nat.mod_eq_of_lt fits]

theorem toNat_shiftRight_of_lt {u s : UInt32} (shift : s.toNat < 32) :
    (u >>> s).toNat = u.toNat / 2 ^ s.toNat := by
  rw [UInt32.toNat_shiftRight, Nat.mod_eq_of_lt shift, Nat.shiftRight_eq_div_pow]

theorem toNat_toUInt32_and {b mask : UInt8} (k : Nat) (low : mask.toNat = 2 ^ k - 1) :
    (b &&& mask).toUInt32.toNat = b.toNat % 2 ^ k := by
  rw [UInt8.toNat_toUInt32, UInt8.toNat_and, low, Nat.and_two_pow_sub_one_eq_mod]

theorem toNat_payload {b : UInt8} {digit : Nat} (byte : b.toNat = 0x80 + digit)
    (small : digit < 64) : (payload b).toNat = digit := by
  have low : (payload b).toNat = b.toNat % 2 ^ 6 := toNat_toUInt32_and 6 rfl
  omega

theorem toNat_trail (r : Rune) : (encode.trail r).toNat = 0x80 + r.toNat % 64 := by
  have low : (r &&& 0x3F).toNat = r.toNat % 64 := by
    rw [UInt32.toNat_and]
    exact Nat.and_two_pow_sub_one_eq_mod r.toNat 6
  have small : r.toNat % 64 < 64 := Nat.mod_lt _ (by decide)
  have sum : ((0x80 : Rune) ||| r &&& 0x3F).toNat = 0x80 + r.toNat % 64 :=
    toNat_or_of_parts 6 rfl low (by decide) (by omega)
  rw [encode.trail, UInt32.toNat_toUInt8, sum, Nat.mod_eq_of_lt (by omega)]

theorem toNat_lead {mark digit : UInt32} {m v : Nat} (k : Nat) (marks : mark.toNat = m)
    (digits : digit.toNat = v) (multiple : 2 ^ k ∣ m) (small : v < 2 ^ k) (byte : m + v < 256) :
    (mark ||| digit).toUInt8.toNat = m + v := by
  rw [UInt32.toNat_toUInt8, toNat_or_of_parts k marks digits multiple small,
    Nat.mod_eq_of_lt byte]

end Words

theorem isScalar_iff (r : Rune) : isScalar r = true ↔
    r.toNat < 0xD800 ∨ (0xDFFF < r.toNat ∧ r.toNat ≤ 0x10FFFF) := by
  simp [isScalar, UInt32.lt_iff_toNat_lt, UInt32.le_iff_toNat_le]

theorem isContinuation_iff (b : UInt8) :
    isContinuation b = true ↔ 0x80 ≤ b.toNat ∧ b.toNat ≤ 0xBF := by
  apply every_byte (p := fun b => isContinuation b = true ↔ 0x80 ≤ b.toNat ∧ b.toNat ≤ 0xBF)
  decide +kernel

/-- The bytes of one character, with the number they stand for. Every length has its own range, so
    that no number has two spellings, and no surrogate has one. -/
inductive Denotes : List UInt8 → Nat → Prop where
  | one {a : UInt8} {v : Nat} (lead : a.toNat = v) (range : v < 0x80) : Denotes [a] v
  | two {a b : UInt8} {v : Nat} (lead : a.toNat = 0xC0 + v / 64) (last : b.toNat = 0x80 + v % 64)
      (range : 0x80 ≤ v ∧ v < 0x800) : Denotes [a, b] v
  | three {a b c : UInt8} {v : Nat} (lead : a.toNat = 0xE0 + v / 4096)
      (middle : b.toNat = 0x80 + v / 64 % 64) (last : c.toNat = 0x80 + v % 64)
      (range : 0x800 ≤ v ∧ v < 0x10000) (scalar : v < 0xD800 ∨ 0xDFFF < v) : Denotes [a, b, c] v
  | four {a b c d : UInt8} {v : Nat} (lead : a.toNat = 0xF0 + v / 262144)
      (second : b.toNat = 0x80 + v / 4096 % 64) (third : c.toNat = 0x80 + v / 64 % 64)
      (last : d.toNat = 0x80 + v % 64) (range : 0x10000 ≤ v ∧ v < 0x110000) :
      Denotes [a, b, c, d] v

section Encoder
variable {r : Rune}

theorem denotes_encode (scalar : isScalar r = true) : Denotes (encode r) r.toNat := by
  rw [isScalar_iff] at scalar
  have six : (r >>> 6).toNat = r.toNat / 64 := toNat_shiftRight_of_lt (by decide)
  have twelve : (r >>> 12).toNat = r.toNat / 4096 := toNat_shiftRight_of_lt (by decide)
  have eighteen : (r >>> 18).toNat = r.toNat / 262144 := toNat_shiftRight_of_lt (by decide)
  have second : (encode.trail (r >>> 6)).toNat = 0x80 + r.toNat / 64 % 64 := six ▸ toNat_trail _
  have third : (encode.trail (r >>> 12)).toNat = 0x80 + r.toNat / 4096 % 64 :=
    twelve ▸ toNat_trail _
  simp only [encode, UInt32.lt_iff_toNat_lt, UInt32.le_iff_toNat_le, Bool.and_eq_true,
    decide_eq_true_eq, UInt32.reduceToNat]
  split
  next ascii =>
    exact .one (by rw [UInt32.toNat_toUInt8, Nat.mod_eq_of_lt (by omega)]) ascii
  next =>
    split
    next =>
      exact .two (toNat_lead 5 rfl six (by decide) (by omega) (by omega)) (toNat_trail r) (by omega)
    next =>
      split
      next => omega
      next =>
        split
        next =>
          exact .three (toNat_lead 4 rfl twelve (by decide) (by omega) (by omega)) second
            (toNat_trail r) (by omega) (by omega)
        next =>
          rw [if_pos (by omega)]
          exact .four (toNat_lead 3 rfl eighteen (by decide) (by omega) (by omega)) third second
            (toNat_trail r) (by omega)

end Encoder

namespace Denotes
variable {l l' : List UInt8} {v : Nat}

theorem scalar (h : Denotes l v) : v < 0xD800 ∨ (0xDFFF < v ∧ v ≤ 0x10FFFF) := by
  cases h <;> omega

theorem exists_cons (h : Denotes l v) : ∃ lead trail, l = lead :: trail := by
  cases h <;> exact ⟨_, _, rfl⟩

theorem unique (left : Denotes l v) (right : Denotes l' v) : l = l' := by
  cases left <;> cases right
  all_goals first | omega | simp only [List.cons.injEq, and_true, ← UInt8.toNat_inj]; omega

theorem encode_eq {r : Rune} (h : Denotes l r.toNat) : encode r = l :=
  (denotes_encode ((isScalar_iff r).mpr h.scalar)).unique h

theorem isCharacter {lead : UInt8} {trail : List UInt8} (h : Denotes (lead :: trail) v) :
    IsCharacter lead trail := by
  obtain ⟨kind1, kind2, kind3, kind4⟩ := lead_kind lead
  have continues : ∀ {b : UInt8}, 0x80 ≤ b.toNat ∧ b.toNat ≤ 0xBF → isContinuation b = true :=
    (isContinuation_iff _).mpr
  simp only [UInt8.le_iff_toNat_le, UInt8.reduceToNat] at kind1 kind2 kind3 kind4
  cases h with
  | one value range =>
    obtain ⟨begins, length⟩ := kind1 (by omega)
    refine ⟨begins, length, by simp, fun rest => ?_⟩
    rw [wellFormedBytes.eq_def]
    simp only [UInt8.le_iff_toNat_le, UInt8.reduceToNat]
    exact if_pos (by omega)
  | @two _ b _ value last range =>
    obtain ⟨begins, length⟩ := kind2 (by omega)
    have second := continues (b := b) (by omega)
    refine ⟨begins, length, by simp [second], fun rest => ?_⟩
    rw [wellFormedBytes.eq_def]
    simp only [List.cons_append, List.nil_append, UInt8.le_iff_toNat_le, Bool.and_eq_true,
      decide_eq_true_eq, UInt8.reduceToNat]
    rw [if_neg (by omega), if_pos (by omega), second, Bool.true_and]
  | @three _ b c _ value middle last range scalar =>
    obtain ⟨begins, length⟩ := kind3 (by omega)
    have second := continues (b := b) (by omega)
    have third := continues (b := c) (by omega)
    refine ⟨begins, length, by simp [second, third], fun rest => ?_⟩
    rw [wellFormedBytes.eq_def]
    simp only [List.cons_append, List.nil_append, UInt8.le_iff_toNat_le,
      UInt8.lt_iff_toNat_lt, Bool.and_eq_true, decide_eq_true_eq, UInt8.reduceToNat]
    rw [if_neg (by omega), if_neg (by omega), if_pos (by omega), second, third]
    have whole : (lead == 0xE0 && decide (b.toNat < 0xA0)) = false ∧
        (lead == 0xED && decide (0xA0 ≤ b.toNat)) = false := by
      simp only [Bool.and_eq_false_iff, beq_eq_false_iff_ne, decide_eq_false_iff_not, ne_eq,
        ← UInt8.toNat_inj, UInt8.reduceToNat]
      omega
    simp only [whole, Bool.not_false, Bool.true_and]
  | @four _ b c d _ value second third last range =>
    obtain ⟨begins, length⟩ := kind4 (by omega)
    have cont2 := continues (b := b) (by omega)
    have cont3 := continues (b := c) (by omega)
    have cont4 := continues (b := d) (by omega)
    refine ⟨begins, length, by simp [cont2, cont3, cont4], fun rest => ?_⟩
    rw [wellFormedBytes.eq_def]
    simp only [List.cons_append, List.nil_append, UInt8.le_iff_toNat_le,
      UInt8.lt_iff_toNat_lt, Bool.and_eq_true, decide_eq_true_eq, UInt8.reduceToNat]
    rw [if_neg (by omega), if_neg (by omega), if_neg (by omega), if_pos (by omega), cont2, cont3,
      cont4]
    have whole : (lead == 0xF0 && decide (b.toNat < 0x90)) = false ∧
        (lead == 0xF4 && decide (0x90 ≤ b.toNat)) = false := by
      simp only [Bool.and_eq_false_iff, beq_eq_false_iff_ne, decide_eq_false_iff_not, ne_eq,
        ← UInt8.toNat_inj, UInt8.reduceToNat]
      omega
    simp only [whole, Bool.not_false, Bool.true_and]

theorem rune_toNat (h : Denotes l v) : (UInt32.ofNat v).toNat = v := by
  have scalar := h.scalar
  rw [UInt32.toNat_ofNat', Nat.mod_eq_of_lt (by omega)]

theorem exists_rune (h : Denotes l v) : ∃ r : Rune, isScalar r = true ∧ encode r = l := by
  have same := h.rune_toNat
  exact ⟨UInt32.ofNat v, (isScalar_iff _).mpr (same.symm ▸ h.scalar), encode_eq (same.symm ▸ h)⟩

end Denotes

section Validator
variable {a b c d : UInt8}

theorem denotes_of_two (lead : 0xC2 ≤ a.toNat ∧ a.toNat ≤ 0xDF)
    (second : isContinuation b = true) :
    Denotes [a, b] ((a.toNat - 0xC0) * 64 + (b.toNat - 0x80)) := by
  rw [isContinuation_iff] at second
  exact .two (by omega) (by omega) (by omega)

theorem denotes_of_three (lead : 0xE0 ≤ a.toNat ∧ a.toNat ≤ 0xEF)
    (second : isContinuation b = true) (third : isContinuation c = true)
    (shortest : ¬ a.toNat = 0xE0 ∨ 0xA0 ≤ b.toNat)
    (scalar : ¬ a.toNat = 0xED ∨ b.toNat < 0xA0) :
    Denotes [a, b, c] ((a.toNat - 0xE0) * 4096 + (b.toNat - 0x80) * 64 + (c.toNat - 0x80)) := by
  rw [isContinuation_iff] at second third
  exact .three (by omega) (by omega) (by omega) (by omega) (by omega)

theorem denotes_of_four (lead : 0xF0 ≤ a.toNat ∧ a.toNat ≤ 0xF4)
    (second : isContinuation b = true) (third : isContinuation c = true)
    (fourth : isContinuation d = true) (shortest : ¬ a.toNat = 0xF0 ∨ 0x90 ≤ b.toNat)
    (scalar : ¬ a.toNat = 0xF4 ∨ b.toNat < 0x90) :
    Denotes [a, b, c, d] ((a.toNat - 0xF0) * 262144 + (b.toNat - 0x80) * 4096 +
      (c.toNat - 0x80) * 64 + (d.toNat - 0x80)) := by
  rw [isContinuation_iff] at second third fourth
  exact .four (by omega) (by omega) (by omega) (by omega) (by omega)

end Validator
end Utf8
end TextSearch
