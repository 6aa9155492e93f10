import TextSearch.Failure
import TextSearch.Utf8.WellFormed

/-!
Reading text that nobody has vouched for: what is not well-formed is refused.
-/
namespace TextSearch
namespace Text

def checked (t : Text) : Except Failure Text :=
  if Utf8.wellFormed t then .ok t else .error .invalidUtf8

def runes (t : Text) : Except Failure (List Rune) :=
  t.checked.map fun t => (Utf8.characters t).map fun c => c.2.rune

end Text
end TextSearch
