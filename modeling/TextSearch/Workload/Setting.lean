import TextSearch.Text.Basic

/-!
Numbers read from settings that may be absent, empty or no number at all.
-/
namespace TextSearch
namespace Workload

def wordMax : Nat := 0xFFFFFFFFFFFFFFFF

def isBlank (b : UInt8) : Bool := b == 0x20 || (0x09 ≤ b && b ≤ 0x0D)

def isDigit (b : UInt8) : Bool := 0x30 ≤ b && b ≤ 0x39

def readDigits (bytes : List UInt8) : Nat :=
  (bytes.takeWhile isDigit).foldl (fun n b => 10 * n + (b - 0x30).toNat) 0

/-- Reads an unsigned word. Blanks and a sign may come first, and anything may follow the digits. A
    minus sign negates modulo 2^64; a number too large is the greatest word under either sign. -/
def readWord (bytes : List UInt8) : Nat :=
  match bytes.dropWhile isBlank with
  | 0x2D :: digits =>
    let n := readDigits digits
    if n > wordMax then wordMax else (wordMax + 1 - n) % (wordMax + 1)
  | 0x2B :: digits => min (readDigits digits) wordMax
  | digits => min (readDigits digits) wordMax

/-- A setting that is absent, or does not read as a positive number, takes its fallback. -/
def setting (value : Option Text) (fallback : Nat) : Nat :=
  match value.map fun t => readWord t.untilZero.toList with
  | none | some 0 => fallback
  | some n => n

end Workload
end TextSearch
