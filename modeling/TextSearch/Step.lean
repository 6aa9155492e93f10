/-!
What a searcher reports about a stretch of its haystack. A searcher that has nothing left to report
answers `none`.
-/
namespace TextSearch

/-- The bytes from `start` up to `stop` are a match, or hold none. -/
inductive Step where
  | found (start stop : Nat)
  | rejected (start stop : Nat)
  deriving DecidableEq, Repr

namespace Step

def start : Step → Nat
  | found start _ => start
  | rejected start _ => start

def stop : Step → Nat
  | found _ stop => stop
  | rejected _ stop => stop

def isFound : Step → Bool
  | found _ _ => true
  | rejected _ _ => false

def isRejected (s : Step) : Bool := !s.isFound

end Step
end TextSearch
