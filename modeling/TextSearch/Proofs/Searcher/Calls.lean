import TextSearch.Searcher
import TextSearch.Proofs.Interleaving

/-!
A searcher driven by any sequence of its six calls.
-/
namespace TextSearch
namespace Searcher

inductive Call where
  | steps
  | hits
  | misses
  | stepsBack
  | hitsBack
  | missesBack
  deriving DecidableEq, Repr

def Call.stream : Call → FiniteStream Searcher Step
  | steps => Searcher.steps
  | hits => Searcher.hits
  | misses => Searcher.misses
  | stepsBack => Searcher.stepsBack
  | hitsBack => Searcher.hitsBack
  | missesBack => Searcher.missesBack

def Call.isForward : Call → Bool
  | steps => true
  | hits => true
  | misses => true
  | stepsBack => false
  | hitsBack => false
  | missesBack => false

def reach (hay : Text) (pattern : Pattern) (calls : List Call) : Searcher :=
  FiniteStream.after Call.stream calls (start hay pattern)

def front : Searcher → Nat
  | characters s => s.front
  | boundaries s => s.position
  | occurrences s => s.forward.position

def back : Searcher → Nat
  | characters s => s.back
  | boundaries s => s.stop
  | occurrences s => s.backward.stop

end Searcher
end TextSearch
