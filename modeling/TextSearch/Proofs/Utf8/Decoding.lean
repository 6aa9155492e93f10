import TextSearch.Proofs.Text.Fence
import TextSearch.Proofs.Utf8.Digits

/-!
The decoder inverts the encoder, and it looks at the bytes of one character only.
-/
namespace TextSearch
open Utf8

namespace Fenced

def withTrail (rune : Rune) (trail : Nat) : Character := ⟨rune, trail + 1, Nat.succ_pos trail⟩

/-- Decodes the character at the head of a source of bytes. A byte that the source refuses spoils
    the answer; an undecodable character does not. -/
def decode (byte : Nat → Option UInt8) : Option (Option Character) := do
  let lead ← byte 0
  match leadLength lead with
  | 0 => some none
  | 1 => some (some (withTrail lead.toUInt32 0))
  | 2 =>
    let second ← byte 1
    some (some (withTrail ((lead &&& 0x1F).toUInt32 <<< 6 ||| payload second) 1))
  | 3 =>
    let second ← byte 1
    let third ← byte 2
    some (some (withTrail
      ((lead &&& 0x0F).toUInt32 <<< 12 ||| payload second <<< 6 ||| payload third) 2))
  | _ =>
    -- four bytes: no character has more
    let second ← byte 1
    let third ← byte 2
    let fourth ← byte 3
    let rune := (lead &&& 0x07).toUInt32 <<< 18 ||| payload second <<< 12 |||
      payload third <<< 6 ||| payload fourth
    some (if rune > 0x10FFFF then none else some (withTrail rune 3))

theorem decode_total (byte : Nat → UInt8) :
    decode (fun k => some (byte k)) = some (Utf8.decode byte) := by
  simp only [decode, Utf8.decode, Option.bind_eq_bind, Option.bind_some]
  have most := leadLength_le (byte 0)
  generalize leadLength (byte 0) = length at most ⊢
  rcases length with _ | _ | _ | _ | _ | _ <;> first | rfl | omega

end Fenced

namespace Utf8

section Values
variable {a b c d : UInt8} {v : Nat}

theorem toNat_two (lead : a.toNat = 0xC0 + v / 64) (last : b.toNat = 0x80 + v % 64)
    (range : v < 0x800) : ((a &&& 0x1F).toUInt32 <<< 6 ||| payload b).toNat = v := by
  have top : (a &&& 0x1F).toUInt32.toNat = v / 64 := by
    rw [toNat_toUInt32_and 5 rfl]
    omega
  have high : ((a &&& 0x1F).toUInt32 <<< 6).toNat = v / 64 * 2 ^ 6 :=
    toNat_shiftLeft_of_lt 6 top rfl (by decide) (by omega)
  rw [toNat_or_of_parts 6 high (toNat_payload last (by omega)) (by omega) (by omega)]
  omega

theorem toNat_three (lead : a.toNat = 0xE0 + v / 4096) (middle : b.toNat = 0x80 + v / 64 % 64)
    (last : c.toNat = 0x80 + v % 64) (range : v < 0x10000) :
    ((a &&& 0x0F).toUInt32 <<< 12 ||| payload b <<< 6 ||| payload c).toNat = v := by
  have top : (a &&& 0x0F).toUInt32.toNat = v / 4096 := by
    rw [toNat_toUInt32_and 4 rfl]
    omega
  have high : ((a &&& 0x0F).toUInt32 <<< 12).toNat = v / 4096 * 2 ^ 12 :=
    toNat_shiftLeft_of_lt 12 top rfl (by decide) (by omega)
  have next : (payload b <<< 6).toNat = v / 64 % 64 * 2 ^ 6 :=
    toNat_shiftLeft_of_lt 6 (toNat_payload middle (by omega)) rfl (by decide) (by omega)
  have upper := toNat_or_of_parts 12 high next (by omega) (by omega)
  rw [toNat_or_of_parts 6 upper (toNat_payload last (by omega)) (by omega) (by omega)]
  omega

theorem toNat_four (lead : a.toNat = 0xF0 + v / 262144)
    (second : b.toNat = 0x80 + v / 4096 % 64) (third : c.toNat = 0x80 + v / 64 % 64)
    (last : d.toNat = 0x80 + v % 64) (range : v < 0x110000) :
    ((a &&& 0x07).toUInt32 <<< 18 ||| payload b <<< 12 ||| payload c <<< 6 |||
      payload d).toNat = v := by
  have top : (a &&& 0x07).toUInt32.toNat = v / 262144 := by
    rw [toNat_toUInt32_and 3 rfl]
    omega
  have high : ((a &&& 0x07).toUInt32 <<< 18).toNat = v / 262144 * 2 ^ 18 :=
    toNat_shiftLeft_of_lt 18 top rfl (by decide) (by omega)
  have next : (payload b <<< 12).toNat = v / 4096 % 64 * 2 ^ 12 :=
    toNat_shiftLeft_of_lt 12 (toNat_payload second (by omega)) rfl (by decide) (by omega)
  have low : (payload c <<< 6).toNat = v / 64 % 64 * 2 ^ 6 :=
    toNat_shiftLeft_of_lt 6 (toNat_payload third (by omega)) rfl (by decide) (by omega)
  have upper := toNat_or_of_parts 18 high next (by omega) (by omega)
  have most := toNat_or_of_parts 12 upper low (by omega) (by omega)
  rw [toNat_or_of_parts 6 most (toNat_payload last (by omega)) (by omega) (by omega)]
  omega

end Values

theorem Denotes.decode {l : List UInt8} {v : Nat} (h : Denotes l v) {source : Nat → Option UInt8}
    (has : ∀ k, k < l.length → source k = l[k]?) :
    ∃ c : Character, Fenced.decode source = some (some c) ∧ c.rune.toNat = v ∧
      c.length = l.length := by
  cases h with
  | @one a _ lead range =>
    have head : source 0 = some a := has 0 (by simp)
    have length := ((lead_kind a).1 (UInt8.le_iff_toNat_le.mpr (by simp; omega))).2
    refine ⟨Fenced.withTrail a.toUInt32 0, ?_, by simpa [Fenced.withTrail] using lead, rfl⟩
    simp [Fenced.decode, head, length]
  | @two a b _ lead last range =>
    have head : source 0 = some a := has 0 (by simp)
    have at1 : source 1 = some b := has 1 (by simp)
    have length := ((lead_kind a).2.1 (by simp [UInt8.le_iff_toNat_le]; omega)).2
    refine ⟨Fenced.withTrail _ 1, ?_, toNat_two lead last range.2, rfl⟩
    simp [Fenced.decode, head, at1, length]
  | @three a b c _ lead middle last range scalar =>
    have head : source 0 = some a := has 0 (by simp)
    have at1 : source 1 = some b := has 1 (by simp)
    have at2 : source 2 = some c := has 2 (by simp)
    have length := ((lead_kind a).2.2.1 (by simp [UInt8.le_iff_toNat_le]; omega)).2
    refine ⟨Fenced.withTrail _ 2, ?_, toNat_three lead middle last range.2, rfl⟩
    simp [Fenced.decode, head, at1, at2, length]
  | @four a b c d _ lead second third last range =>
    have head : source 0 = some a := has 0 (by simp)
    have at1 : source 1 = some b := has 1 (by simp)
    have at2 : source 2 = some c := has 2 (by simp)
    have at3 : source 3 = some d := has 3 (by simp)
    have length := ((lead_kind a).2.2.2 (by simp [UInt8.le_iff_toNat_le]; omega)).2
    have value := toNat_four lead second third last range.2
    refine ⟨Fenced.withTrail _ 3, ?_, value, rfl⟩
    have small : ¬ (a &&& 0x07).toUInt32 <<< 18 ||| payload b <<< 12 ||| payload c <<< 6 |||
        payload d > 0x10FFFF := by
      rw [gt_iff_lt, UInt32.lt_iff_toNat_lt, value]
      simp
      omega
    simp only [Fenced.decode, head, at1, at2, at3, length, Option.bind_eq_bind, Option.bind_some,
      if_neg small]

end Utf8
end TextSearch
