import TextSearch.Workload.Corpus
import TextSearch.Workload.Engine

/-!
A benchmark runs one engine on one dataset. What a run counts is independent of the clock.
-/
namespace TextSearch
namespace Workload

structure Benchmark where
  engine : Engine
  dataset : Dataset
  deriving DecidableEq, Repr

structure Run where
  counts : List Nat
  bytes : Nat

namespace Benchmark

/-- The plain scans and the bare engine run on all datasets; the others leave some out. -/
def all : List Benchmark :=
  [⟨.offsets, .poor⟩, ⟨.offsets, .rich⟩, ⟨.offsets, .mixed⟩,
    ⟨.suffixes, .poor⟩, ⟨.suffixes, .rich⟩, ⟨.suffixes, .mixed⟩,
    ⟨.scan, .poor⟩, ⟨.scan, .rich⟩, ⟨.scan, .mixed⟩,
    ⟨.forward, .poor⟩, ⟨.forward, .rich⟩, ⟨.forward, .mixed⟩,
    ⟨.backward, .poor⟩, ⟨.backward, .mixed⟩,
    ⟨.pieces, .poor⟩, ⟨.pieces, .mixed⟩,
    ⟨.character, .mixed⟩]

def name (b : Benchmark) : String := b.engine.label ++ "/" ++ b.dataset.label

def minimumTime (_ : Benchmark) : Nat := 1000

def ofName? (name : String) : Option Benchmark := all.find? fun b => b.name == name

/-- The needle is chosen by the number of finished iterations, which is published only after the
    last one: while the run lasts it is zero. -/
def run (b : Benchmark) (corpus : Dataset → Corpus) (iterations : Nat) : Run :=
  let c := corpus b.dataset
  let count := b.engine.count (c.needles.headD .empty) c.haystack
  ⟨List.replicate iterations count, iterations * c.haystack.size⟩

end Benchmark
end Workload
end TextSearch
