import TextSearch.Searcher

/-!
Copying a text with some of its matches replaced.
-/
namespace TextSearch
namespace Text

def spliceFrom (t new : Text) (last : Nat) : List Step → List Text
  | [] => [t.slice last t.size]
  | m :: rest => t.slice last m.start :: new :: spliceFrom t new m.stop rest

def replaceAtMost (t : Text) (p : Pattern) (new : Text) (limit : Nat) : Text :=
  join (spliceFrom t new 0 (Searcher.hits.take limit (.start t p)))

/-- No count of matches reaches this limit, which is the greatest 64-bit word. -/
def unlimited : Nat := 0xFFFFFFFFFFFFFFFF

def replace (t : Text) (p : Pattern) (new : Text) : Text := t.replaceAtMost p new unlimited

end Text
end TextSearch
