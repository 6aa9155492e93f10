import TextSearch.Text.ByteFilter
import TextSearch.TwoWay.MaximalSuffix

/-!
A needle is cut at a critical position, where the shortest local repetition is as long as the period
of the whole needle. A mismatch on one side of the cut then allows a shift that skips no occurrence.
-/
namespace TextSearch
namespace TwoWay

/-- Either the left part of the needle repeats inside it, so its period is known, or the period is
    only bounded from below. -/
inductive Periodicity where
  | short
  | long
  deriving DecidableEq, Repr

/-- Where a needle is cut for either direction, how far it shifts after its far side has failed, and
    which bytes it has. -/
structure Factorization where
  cut : Nat
  cutBack : Nat
  period : Nat
  filter : ByteFilter
  periodicity : Periodicity
  period_pos : 0 < period

namespace Factorization

/-- Of the greatest suffixes under both byte orders the shorter one begins at the cut. -/
def forwardCut (x : Text) : SuffixScan :=
  let lesser := maximalSuffix .ascending x.byteAt x.size
  let greater := maximalSuffix .descending x.byteAt x.size
  if lesser.left > greater.left then lesser else greater

/-- The same for the needle read backward, whose period is known. -/
def backwardCut (x : Text) (period : Nat) : Nat :=
  x.size - max (reverseMaximalSuffix .ascending x.byteAt x.size period).left
    (reverseMaximalSuffix .descending x.byteAt x.size period).left

/-- The period of the right part is that of the needle if the left part recurs one period later. -/
def leftRecurs (x : Text) (suffix : SuffixScan) : Bool :=
  Text.agreeBelow x.byteAt (fun k => x.byteAt (suffix.period + k)) suffix.left

def ofText (x : Text) : Factorization :=
  let suffix := forwardCut x
  if leftRecurs x suffix then
    { cut := suffix.left
      cutBack := backwardCut x suffix.period
      period := suffix.period
      filter := .ofText x
      periodicity := .short
      period_pos := suffix.period_pos }
  else
    { cut := suffix.left
      cutBack := suffix.left
      period := max suffix.left (x.size - suffix.left) + 1
      filter := .ofText x
      periodicity := .long
      period_pos := Nat.succ_pos _ }

end Factorization

structure Needle where
  text : Text
  nonempty : 0 < text.size
  factors : Factorization
  factors_eq : factors = Factorization.ofText text

namespace Needle

def ofText (x : Text) (h : 0 < x.size) : Needle := ⟨x, h, Factorization.ofText x, rfl⟩

def ofText? (x : Text) : Option Needle := if h : 0 < x.size then some (ofText x h) else none

/-- How many bytes the next alignment need not compare again. Only a needle of known period
    remembers any. -/
def remember (d : Needle) (count : Nat) : Option Nat :=
  match d.factors.periodicity with
  | .short => some count
  | .long => none

end Needle
end TwoWay
end TextSearch
