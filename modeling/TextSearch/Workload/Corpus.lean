import TextSearch.Find
import TextSearch.Utf8.WellFormed
import TextSearch.Workload.Sample
import TextSearch.Workload.Setting

/-!
The texts that measurements run on: random haystacks over a poor, a rich and a mixed alphabet, and
needles cut out of each.
-/
namespace TextSearch
namespace Workload

inductive Dataset where
  | poor
  | rich
  | mixed
  deriving DecidableEq, Repr

namespace Dataset

def label : Dataset → String
  | poor => "[a-d]"
  | rich => "[A-z]"
  | mixed => "utf8"

def alphabet : Dataset → List (List UInt8)
  | poor => (List.range 4).map fun k => [0x61 + k.toUInt8]
  | rich => (List.range 58).map fun k => [0x41 + k.toUInt8]
  | mixed => ["a", "b", "ä", "ö", "中", "华", "🐱", " "].map fun s => s.toUTF8.data.toList

end Dataset

structure Corpus where
  haystack : Text
  needles : List Text

structure Extent where
  size : Nat
  characters : Nat

def Extent.ofSettings (size characters : Option Text) : Extent :=
  ⟨setting size 0x1000000, setting characters 10⟩

def needleCount : Nat := 200

def fill (letters : Array (List UInt8)) (size : Nat) :
    Nat → Array UInt8 → StdGen → Array UInt8 × StdGen
  | 0, bytes, gen => (bytes, gen)
  | fuel + 1, bytes, gen =>
    if size ≤ bytes.size then (bytes, gen)
    else
      let (pick, gen) := randNat gen 0 (letters.size - 1)
      fill letters size fuel (bytes ++ letters.getD pick []) gen

def drawNeedle (hay : Text) (characters : Nat) (gen : StdGen) : Text × StdGen :=
  let (offset, gen) := randNat gen 0 (lastOffset hay.size characters)
  (sampleAt hay characters offset, gen)

/-- A haystack over the alphabet of a dataset. As every letter has a byte at least, `size` letters
    fill it. -/
def drawHaystack (d : Dataset) (size : Nat) (gen : StdGen) : Text × StdGen :=
  let (bytes, gen) := fill d.alphabet.toArray size size #[] gen
  (.ofArray bytes, gen)

def drawNeedles (hay : Text) (characters : Nat) : Nat → StdGen → List Text × StdGen
  | 0, gen => ([], gen)
  | left + 1, gen =>
    let (needle, gen) := drawNeedle hay characters gen
    let (rest, gen) := drawNeedles hay characters left gen
    (needle :: rest, gen)

namespace Corpus

def draw (d : Dataset) (e : Extent) (gen : StdGen) : Corpus × StdGen :=
  let (hay, gen) := drawHaystack d e.size gen
  let (needles, gen) := drawNeedles hay e.characters needleCount gen
  (⟨hay, needles⟩, gen)

def keepsAlphabet (c : Corpus) (d : Dataset) : Bool :=
  let letters := d.alphabet
  c.haystack.toList.all fun b => letters.contains [b]

def fits (c : Corpus) (size : Nat) : Bool :=
  Utf8.wellFormed c.haystack && size ≤ c.haystack.size && c.haystack.size ≤ size + 3

def needlesArePieces (c : Corpus) (characters : Nat) : Bool :=
  c.needles.all fun needle =>
    Utf8.wellFormed needle && c.haystack.contains (.substring needle) && Utf8.count needle ≤ characters

end Corpus
end Workload
end TextSearch
