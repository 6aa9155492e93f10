import TextSearch.Find
import TextSearch.Range.Hits
import TextSearch.Range.Split
import TextSearch.Text.Occurrence

/-!
Ways of counting a needle in a haystack, to be measured against each other: two plain scans, the
bare engine, and the operations built on it.
-/
namespace TextSearch
namespace Workload

inductive Engine where
  /-- Tries every offset. -/
  | offsets
  /-- Tries every suffix. -/
  | suffixes
  /-- Runs the scan of bytes alone. -/
  | scan
  | forward
  | backward
  | pieces
  /-- Looks for the first character of the needle only. -/
  | character
  deriving DecidableEq, Repr

def countSuffixes (needle : List UInt8) : List UInt8 → Nat
  | [] => 0
  | b :: rest =>
    if 0 < needle.length ∧ needle.isPrefixOf (b :: rest) then
      1 + countSuffixes needle ((b :: rest).drop needle.length)
    else countSuffixes needle rest
termination_by bytes => bytes.length
decreasing_by
  · simp only [List.length_drop, List.length_cons]
    omega
  · simp

namespace Engine

def label : Engine → String
  | offsets => "stl"
  | suffixes => "memmem"
  | scan => "two_way"
  | forward => "find"
  | backward => "rfind"
  | pieces => "split"
  | character => "find_char"

def count (e : Engine) (needle hay : Text) : Nat :=
  match e with
  | offsets => (Text.occurrences needle hay).length
  | suffixes => countSuffixes needle.toList hay.toList
  | scan =>
    match TwoWay.Needle.ofText? needle with
    | some d => TwoWay.Scan.hits.count (.start d hay)
    | none => 0
  | forward => hay.count (.substring needle)
  | backward => (hay.rhits (.substring needle)).count
  | pieces => (hay.split (.substring needle)).count
  | character => hay.count (.character (.rune (Utf8.characterAt needle 0).rune))

end Engine
end Workload
end TextSearch
