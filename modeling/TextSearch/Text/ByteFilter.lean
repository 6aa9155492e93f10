import TextSearch.Text.Basic

/-!
A filter over the low six bits of bytes, held in one machine word. A miss proves that a byte was
never inserted; a hit is only a hint.
-/
namespace TextSearch

structure ByteFilter where
  bits : UInt64
  deriving DecidableEq, Repr

namespace ByteFilter

def empty : ByteFilter := ⟨0⟩

/-- Bytes that agree modulo 64 share a slot. -/
def slot (b : UInt8) : UInt64 := (b &&& 63).toUInt64

def insert (f : ByteFilter) (b : UInt8) : ByteFilter := ⟨f.bits ||| (1 <<< slot b)⟩

def mayContain (f : ByteFilter) (b : UInt8) : Bool := (f.bits >>> slot b) &&& 1 != 0

def ofList (bytes : List UInt8) : ByteFilter := bytes.foldl insert empty

def ofText (t : Text) : ByteFilter := ofList t.toList

theorem slot_lt (b : UInt8) : (slot b).toNat < 64 := by
  have bound : b.toNat &&& 63 ≤ 63 := Nat.and_le_right
  simp only [slot, UInt8.toNat_toUInt64, UInt8.toNat_and]
  exact Nat.lt_succ_of_le bound

theorem mayContain_eq_testBit (f : ByteFilter) (b : UInt8) :
    f.mayContain b = f.bits.toNat.testBit (slot b).toNat := by
  have small := slot_lt b
  have word : ((f.bits >>> slot b) &&& 1).toNat = 1 &&& (f.bits.toNat >>> (slot b).toNat) := by
    rw [UInt64.toNat_and, UInt64.toNat_shiftRight, Nat.mod_eq_of_lt small, Nat.and_comm]
    rfl
  rw [mayContain, Nat.testBit, ← word]
  rw [Bool.eq_iff_iff, bne_iff_ne, bne_iff_ne, ne_eq, ne_eq, ← UInt64.toNat_inj]
  rfl

theorem bits_insert (f : ByteFilter) (b : UInt8) :
    (f.insert b).bits.toNat = f.bits.toNat ||| 1 <<< (slot b).toNat := by
  have small := slot_lt b
  have power : 2 ^ (slot b).toNat < 2 ^ 64 := Nat.pow_lt_pow_right (by decide) small
  rw [insert, UInt64.toNat_or, UInt64.toNat_shiftLeft, Nat.mod_eq_of_lt small]
  rw [show (1 : UInt64).toNat = 1 from rfl, Nat.one_shiftLeft, Nat.mod_eq_of_lt power]

theorem mayContain_insert (f : ByteFilter) (b c : UInt8) :
    (f.insert b).mayContain c = (f.mayContain c || decide ((slot b).toNat = (slot c).toNat)) := by
  rw [mayContain_eq_testBit, mayContain_eq_testBit, bits_insert, Nat.testBit_or,
    Nat.one_shiftLeft, Nat.testBit_two_pow]

theorem mayContain_ofList {bytes : List UInt8} {b : UInt8} (member : b ∈ bytes) :
    (ofList bytes).mayContain b = true := by
  have run : ∀ (bytes : List UInt8) (f : ByteFilter), f.mayContain b = true ∨ b ∈ bytes →
      (bytes.foldl insert f).mayContain b = true := by
    intro bytes
    induction bytes with
    | nil => simp
    | cons a rest ih =>
      intro f known
      apply ih
      rw [mayContain_insert]
      rcases known with before | member
      · simp [before]
      · rcases List.mem_cons.mp member with rfl | later
        · simp
        · exact Or.inr later
  exact run bytes empty (Or.inr member)

theorem mayContain_ofText (t : Text) {i : Nat} (inside : i < t.size) :
    (ofText t).mayContain (t.byteAt i) = true :=
  mayContain_ofList (List.mem_of_getElem? (Text.getElem?_toList t i inside))

end ByteFilter
end TextSearch
