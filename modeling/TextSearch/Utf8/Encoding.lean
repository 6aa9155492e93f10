import TextSearch.Text.Basic

/-!
Runes and their encoding in one to four bytes. Decoding trusts its input: overlong forms and
surrogates decode to their bits, and only a stray lead byte or a value past U+10FFFF is undecodable.
Encoding writes Unicode scalar values only.
-/
namespace TextSearch

/-- A code point, or any other 32-bit number. -/
abbrev Rune := UInt32

namespace Utf8

def isContinuation (b : UInt8) : Bool := b &&& 0xC0 == 0x80

/-- How many bytes the character takes that begins with this byte; zero if none begins with it. -/
def leadLength (b : UInt8) : Nat :=
  if b < 0x80 then 1
  else if b &&& 0xE0 == 0xC0 then 2
  else if b &&& 0xF0 == 0xE0 then 3
  else if b &&& 0xF8 == 0xF0 then 4
  else 0

theorem leadLength_le (b : UInt8) : leadLength b ≤ 4 := by
  unfold leadLength
  split
  · omega
  · split
    · omega
    · split
      · omega
      · split <;> omega

structure Character where
  rune : Rune
  length : Nat
  length_pos : 0 < length
  deriving DecidableEq, Repr

/-- An undecodable byte counts as one character with the code point zero. -/
def Character.undecodable : Character := ⟨0, 1, Nat.succ_pos _⟩

def payload (b : UInt8) : UInt32 := (b &&& 0x3F).toUInt32

def decode (byte : Nat → UInt8) : Option Character :=
  let lead := byte 0
  match leadLength lead with
  | 1 => some ⟨lead.toUInt32, 1, Nat.succ_pos _⟩
  | 2 => some ⟨(lead &&& 0x1F).toUInt32 <<< 6 ||| payload (byte 1), 2, Nat.succ_pos _⟩
  | 3 =>
    some ⟨(lead &&& 0x0F).toUInt32 <<< 12 ||| payload (byte 1) <<< 6 ||| payload (byte 2), 3,
      Nat.succ_pos _⟩
  | 4 =>
    let rune := (lead &&& 0x07).toUInt32 <<< 18 ||| payload (byte 1) <<< 12 |||
      payload (byte 2) <<< 6 ||| payload (byte 3)
    if rune > 0x10FFFF then none else some ⟨rune, 4, Nat.succ_pos _⟩
  | _ => none

def decodeAt (t : Text) (i : Nat) : Option Character := decode fun k => t.byteAt (i + k)

def characterAt (t : Text) (i : Nat) : Character := (decodeAt t i).getD .undecodable

/-- Decodes the character that ends at `stop`: steps back over at most three continuation bytes. -/
def decodeBefore (t : Text) (stop : Nat) : Option Character :=
  decodeAt t (leadBefore 3 (stop - 1))
where
  /-- The offset of the nearest byte at or before `i`, at most `steps` away, that is no continuation
      byte. -/
  leadBefore : Nat → Nat → Nat
    | 0, i => i
    | _ + 1, 0 => 0
    | steps + 1, i + 1 => if isContinuation (t.byteAt (i + 1)) then leadBefore steps i else i + 1

def isScalar (r : Rune) : Bool := r < 0xD800 || (0xDFFF < r && r ≤ 0x10FFFF)

/-- The bytes of a scalar value; none for a surrogate or a number past U+10FFFF. -/
def encode (r : Rune) : List UInt8 :=
  if r < 0x80 then [r.toUInt8]
  else if r < 0x800 then [((0xC0 : Rune) ||| r >>> 6).toUInt8, trail r]
  else if 0xD800 ≤ r && r ≤ 0xDFFF then []
  else if r < 0x10000 then [((0xE0 : Rune) ||| r >>> 12).toUInt8, trail (r >>> 6), trail r]
  else if r ≤ 0x10FFFF then
    [((0xF0 : Rune) ||| r >>> 18).toUInt8, trail (r >>> 12), trail (r >>> 6), trail r]
  else []
where
  /-- A continuation byte that carries the low six bits. -/
  trail (r : Rune) : UInt8 := ((0x80 : Rune) ||| r &&& 0x3F).toUInt8

def charactersFrom (t : Text) (i : Nat) : List (Nat × Character) :=
  if i < t.size then
    (i, characterAt t i) :: charactersFrom t (i + (characterAt t i).length)
  else []
termination_by t.size - i
decreasing_by have := (characterAt t i).length_pos; omega

def characters (t : Text) : List (Nat × Character) := charactersFrom t 0

end Utf8
end TextSearch
