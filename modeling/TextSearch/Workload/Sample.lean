import TextSearch.Utf8.Boundary

/-!
Needles for a measurement are cut out of its haystack at a drawn offset.
-/
namespace TextSearch
namespace Workload

/-- The greatest offset that may be drawn leaves room for characters of four bytes each. The
    difference is taken in 64-bit words, and wraps if the haystack is shorter than that. -/
def lastOffset (size characters : Nat) : Nat :=
  (UInt64.ofNat size - UInt64.ofNat characters * 4).toNat

def skipCharacters (t : Text) : Nat → Nat → Nat
  | 0, offset => offset
  | left + 1, offset =>
    if offset = t.size then offset
    else skipCharacters t left (offset + Utf8.leadLength (t.byteAt offset))

def sampleAt (t : Text) (characters offset : Nat) : Text :=
  let start := Utf8.ceilBoundary t offset
  t.slice start (skipCharacters t characters start)

end Workload
end TextSearch
