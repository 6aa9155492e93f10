import TextSearch.Utf8.Whitespace

/-!
What is searched for: single characters that a matcher accepts, or a substring.
-/
namespace TextSearch

inductive Matcher where
  | rune (r : Rune)
  | anyOf (members : List Rune)
  | satisfying (test : Rune → Bool)
  | whitespace

namespace Matcher

def accepts : Matcher → Rune → Bool
  | rune r, c => c == r
  | anyOf members, c => members.contains c
  | satisfying test, c => test c
  | whitespace, c => Utf8.isWhitespace c

/-- Is it known beforehand that nothing past ASCII is accepted? -/
def onlyAscii : Matcher → Bool
  | rune r => r < 0x80
  | anyOf members => members.all (· < 0x80)
  | satisfying _ => false
  | whitespace => false

theorem accepts_ascii {m : Matcher} (h : m.onlyAscii = true) {c : Rune}
    (accepted : m.accepts c = true) : c < 0x80 := by
  cases m with
  | rune r =>
    simp only [accepts, beq_iff_eq] at accepted
    simpa [onlyAscii, accepted] using h
  | anyOf members =>
    simp only [accepts, List.contains_iff_mem] at accepted
    simp only [onlyAscii, List.all_eq_true] at h
    simpa using h c accepted
  | satisfying => simp [onlyAscii] at h
  | whitespace => simp [onlyAscii] at h

end Matcher

inductive Pattern where
  | character (matcher : Matcher)
  | substring (needle : Text)

namespace Pattern

/-- Searches from both ends meet without reporting a match twice: true of characters only, since
    substrings may overlap themselves. -/
def doubleEnded : Pattern → Bool
  | character _ => true
  | substring _ => false

end Pattern
end TextSearch
