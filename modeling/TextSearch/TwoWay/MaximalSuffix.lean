/-!
The lexicographically greatest suffix of a byte sequence and its period, found in one pass with
constant space. The scan compares the best suffix so far with a challenger to its right.
-/
namespace TextSearch
namespace TwoWay

inductive ByteOrder where
  | ascending
  | descending
  deriving DecidableEq, Repr

def ByteOrder.before : ByteOrder → UInt8 → UInt8 → Bool
  | ascending, a, b => a < b
  | descending, a, b => b < a

/-- The suffix at `left` is the best so far and has the period `period` as far as it has been read;
    the challenger at `right` agrees with it on `offset` bytes of the present repetition. -/
structure SuffixScan where
  left : Nat
  right : Nat
  offset : Nat
  period : Nat
  offset_lt : offset < period
  period_le : left + period ≤ right

namespace SuffixScan

def start : SuffixScan := ⟨0, 1, 0, 1, by decide, by decide⟩

/-- The challenger is smaller: everything read belongs to one period of the best suffix. -/
def lengthen (s : SuffixScan) : SuffixScan where
  left := s.left
  right := s.right + (s.offset + 1)
  offset := 0
  period := s.right + (s.offset + 1) - s.left
  offset_lt := by have := s.period_le; omega
  period_le := by have := s.period_le; have := s.offset_lt; omega

/-- The challenger agrees on one byte more, which may complete a repetition of the period. -/
def agree (s : SuffixScan) : SuffixScan :=
  if h : s.offset + 1 = s.period then
    ⟨s.left, s.right + (s.offset + 1), 0, s.period, by omega, by have := s.period_le; omega⟩
  else
    ⟨s.left, s.right, s.offset + 1, s.period, by have := s.offset_lt; omega, s.period_le⟩

/-- The challenger is greater and becomes the best suffix. -/
def replace (s : SuffixScan) : SuffixScan := ⟨s.right, s.right + 1, 0, 1, by decide, Nat.le_refl _⟩

def step (order : ByteOrder) (byte : Nat → UInt8) (s : SuffixScan) : SuffixScan :=
  let challenger := byte (s.right + s.offset)
  let best := byte (s.left + s.offset)
  if order.before challenger best then s.lengthen
  else if challenger = best then s.agree
  else s.replace

theorem step_advances (order : ByteOrder) (byte : Nat → UInt8) (s : SuffixScan) :
    s.left + s.right + s.offset <
      (s.step order byte).left + (s.step order byte).right + (s.step order byte).offset := by
  have lt := s.offset_lt
  have le := s.period_le
  unfold step
  dsimp only
  split
  · simp only [lengthen]; omega
  · split
    · unfold agree
      split <;> dsimp only <;> omega
    · simp only [replace]; omega

/-- Runs to the end of a sequence of `size` bytes, or until the period in view is `known`. -/
def run (order : ByteOrder) (byte : Nat → UInt8) (size : Nat) (known : Option Nat) (s : SuffixScan) :
    SuffixScan :=
  if s.right + s.offset < size then
    if known = some (s.step order byte).period then s.step order byte
    else run order byte size known (s.step order byte)
  else s
termination_by 2 * size - (s.left + s.right + s.offset)
decreasing_by
  have := step_advances order byte s
  have := s.period_le
  have := s.offset_lt
  omega

theorem period_pos (s : SuffixScan) : 0 < s.period := by have := s.offset_lt; omega

end SuffixScan

def maximalSuffix (order : ByteOrder) (byte : Nat → UInt8) (size : Nat) : SuffixScan :=
  SuffixScan.start.run order byte size none

/-- Over the bytes read backward the scan may stop at a period known beforehand. -/
def reverseMaximalSuffix (order : ByteOrder) (byte : Nat → UInt8) (size known : Nat) : SuffixScan :=
  SuffixScan.start.run order (fun i => byte (size - (1 + i))) size (some known)

end TwoWay
end TextSearch
