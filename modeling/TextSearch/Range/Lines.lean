import TextSearch.Range.Split

/-!
The lines and the words of a text, both of them splits at single characters.
-/
namespace TextSearch
namespace Text

/-- A carriage return at the end of a line belongs to its terminator. -/
def dropCarriageReturn (line : Text) : Text :=
  if line.back? = some 0x0D then line.slice 0 (line.size - 1) else line

/-- The lines, ended by a line feed with or without a carriage return before it. The last one need
    not be ended, and is no line if it is empty. -/
def lines (t : Text) : Range Split Text where
  state := .ofText t (.character (.rune 0x0A)) false
  forward := Split.pieces.map fun _ line => line.dropCarriageReturn
  backward := Split.piecesBack.map fun _ line => line.dropCarriageReturn
  doubleEnded := true

def words (t : Text) : Range Split Text where
  state := .ofText t (.character .whitespace) true
  forward := Split.pieces.filter (!·.isEmpty)
  backward := Split.piecesBack.filter (!·.isEmpty)
  doubleEnded := true

end Text
end TextSearch
