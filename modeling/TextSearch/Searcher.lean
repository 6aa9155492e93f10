import TextSearch.Searcher.Boundary
import TextSearch.Searcher.Character
import TextSearch.Searcher.Substring

/-!
One interface to the three ways of searching. A searcher reports every stretch of its haystack,
matches alone, or rejected stretches alone, from either end; all of these move the same cursors.
-/
namespace TextSearch

inductive Searcher where
  | characters (s : CharacterSearcher)
  | boundaries (s : BoundarySearcher)
  | occurrences (s : TwoWay.Scan)

namespace Searcher

def start (hay : Text) : Pattern → Searcher
  | .character m => .characters (.start m hay)
  | .substring needle =>
    match TwoWay.Needle.ofText? needle with
    | some d => .occurrences (.start d hay)
    | none => .boundaries (.start hay)

def haystack : Searcher → Text
  | characters s => s.haystack
  | boundaries s => s.haystack
  | occurrences s => s.haystack

def dispatch (c : FiniteStream CharacterSearcher Step) (b : FiniteStream BoundarySearcher Step)
    (o : FiniteStream TwoWay.Scan Step) : FiniteStream Searcher Step where
  next
    | characters s => ((c.next s).1, characters (c.next s).2)
    | boundaries s => ((b.next s).1, boundaries (b.next s).2)
    | occurrences s => ((o.next s).1, occurrences (o.next s).2)
  remaining
    | characters s => c.remaining s
    | boundaries s => b.remaining s
    | occurrences s => o.remaining s
  spends
    | characters s => c.spends s
    | boundaries s => b.spends s
    | occurrences s => o.spends s

def steps : FiniteStream Searcher Step :=
  dispatch CharacterSearcher.steps BoundarySearcher.steps TwoWay.Scan.wideSteps

def stepsBack : FiniteStream Searcher Step :=
  dispatch CharacterSearcher.stepsBack BoundarySearcher.stepsBack TwoWay.Scan.wideStepsBack

/-- Matches from left to right. Substrings go straight from match to match. -/
def hits : FiniteStream Searcher Step :=
  dispatch (CharacterSearcher.steps.filter Step.isFound) (BoundarySearcher.steps.filter Step.isFound)
    TwoWay.Scan.hits

def hitsBack : FiniteStream Searcher Step :=
  dispatch (CharacterSearcher.stepsBack.filter Step.isFound)
    (BoundarySearcher.stepsBack.filter Step.isFound) TwoWay.Scan.hitsBack

def misses : FiniteStream Searcher Step := steps.filter Step.isRejected

def missesBack : FiniteStream Searcher Step := stepsBack.filter Step.isRejected

end Searcher
end TextSearch
