import TextSearch.Searcher

/-!
Questions about one pattern in one text: where it occurs, whether it does, and how often.
-/
namespace TextSearch
namespace Text

def find (t : Text) (p : Pattern) : Option Nat :=
  (Searcher.hits.next (.start t p)).1.map Step.start

def rfind (t : Text) (p : Pattern) : Option Nat :=
  (Searcher.hitsBack.next (.start t p)).1.map Step.start

def contains (t : Text) (p : Pattern) : Bool := (Searcher.hits.next (.start t p)).1.isSome

/-- Substrings are compared directly, and have to end at a boundary. -/
def startsWith (t : Text) : Pattern → Bool
  | .substring needle =>
    needle.size ≤ t.size && Utf8.isBoundary t needle.size && equalUpTo t needle needle.size
  | .character m =>
    match (Searcher.steps.next (.start t (.character m))).1 with
    | some (.found start _) => start == 0
    | _ => false

def endsWith (t : Text) : Pattern → Bool
  | .substring needle =>
    let offset := t.size - needle.size
    needle.size ≤ t.size && Utf8.isBoundary t offset &&
      equalUpTo (t.slice offset t.size) needle needle.size
  | .character m =>
    match (Searcher.stepsBack.next (.start t (.character m))).1 with
    | some (.found _ stop) => stop == t.size
    | _ => false

def count (t : Text) (p : Pattern) : Nat := Searcher.hits.count (.start t p)

end Text
end TextSearch
