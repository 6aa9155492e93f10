import TextSearch.Utf8.Encoding

/-!
The 25 characters with the Unicode property White_Space.
-/
namespace TextSearch
namespace Utf8

/-- Tab to carriage return, the space, and the spaces and separators beyond ASCII. The zero-width
    characters U+200B to U+200D are format characters and no white space. -/
def isWhitespace (r : Rune) : Bool :=
  (0x09 ≤ r && r ≤ 0x0D) || r == 0x20 || r == 0x85 || r == 0xA0 || r == 0x1680 ||
    (0x2000 ≤ r && r ≤ 0x200A) || r == 0x2028 || r == 0x2029 || r == 0x202F || r == 0x205F ||
    r == 0x3000

end Utf8
end TextSearch
