import TextSearch.Searcher

/-!
Stripping the matches of a pattern from the ends of a text. Both ends at once can be stripped of
characters only, since a substring may match differently from either end.
-/
namespace TextSearch
namespace Text

def trimStartMatches (t : Text) (p : Pattern) : Text :=
  t.slice (((Searcher.misses.next (.start t p)).1.map Step.start).getD t.size) t.size

def trimEndMatches (t : Text) (p : Pattern) : Text :=
  t.slice 0 (((Searcher.missesBack.next (.start t p)).1.map Step.stop).getD 0)

/-- From the first character that is not accepted to the last one. The search from the back goes on
    from where the search from the front has stopped. -/
def trimMatches (t : Text) (m : Matcher) : Text :=
  let first := Searcher.misses.next (.start t (.character m))
  let last := Searcher.missesBack.next first.2
  let start := (first.1.map Step.start).getD 0
  let stop := (first.1.map Step.stop).getD 0
  t.slice start ((last.1.map Step.stop).getD stop)

def trim (t : Text) : Text := t.trimMatches .whitespace

def trimStart (t : Text) : Text := t.trimStartMatches (.character .whitespace)

def trimEnd (t : Text) : Text := t.trimEndMatches (.character .whitespace)

end Text
end TextSearch
