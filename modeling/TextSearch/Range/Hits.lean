import TextSearch.Range.Basic
import TextSearch.Searcher

/-!
The matches of a pattern in a text, without overlap, alone or with their offsets.
-/
namespace TextSearch
namespace Text

def hits (t : Text) (p : Pattern) : Range Searcher Text where
  state := .start t p
  forward := Searcher.hits.map fun s m => s.haystack.slice m.start m.stop
  backward := Searcher.hitsBack.map fun s m => s.haystack.slice m.start m.stop
  doubleEnded := p.doubleEnded

def rhits (t : Text) (p : Pattern) : Range Searcher Text := (t.hits p).reverse

def hitsAt (t : Text) (p : Pattern) : Range Searcher (Nat × Text) where
  state := .start t p
  forward := Searcher.hits.map fun s m => (m.start, s.haystack.slice m.start m.stop)
  backward := Searcher.hitsBack.map fun s m => (m.start, s.haystack.slice m.start m.stop)
  doubleEnded := p.doubleEnded

def rhitsAt (t : Text) (p : Pattern) : Range Searcher (Nat × Text) := (t.hitsAt p).reverse

end Text
end TextSearch
