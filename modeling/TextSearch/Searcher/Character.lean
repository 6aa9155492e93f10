import TextSearch.Pattern
import TextSearch.Step
import TextSearch.FiniteStream
import TextSearch.Utf8.Boundary

/-!
Classifies one character at a time, from either end. Both ends share the text between `front` and
`back`, so that no character is reported twice.
-/
namespace TextSearch

structure CharacterSearcher where
  haystack : Text
  matcher : Matcher
  front : Nat
  back : Nat

namespace CharacterSearcher

def start (matcher : Matcher) (hay : Text) : CharacterSearcher := ⟨hay, matcher, 0, hay.size⟩

def report (accepted : Bool) (first last : Nat) : Step :=
  if accepted then .found first last else .rejected first last

/-- The length of the character at the front, and whether it is accepted. A matcher of ASCII alone
    rejects longer characters by their lead byte. -/
def examine (s : CharacterSearcher) : Nat × Bool :=
  let lead := s.haystack.byteAt s.front
  if s.matcher.onlyAscii && 0x80 ≤ lead then (max 1 (Utf8.leadLength lead), false)
  else
    let c := Utf8.characterAt s.haystack s.front
    (c.length, s.matcher.accepts c.rune)

def examineBack (s : CharacterSearcher) : Bool :=
  if s.matcher.onlyAscii && 0x80 ≤ s.haystack.byteAt (s.back - 1) then false
  else s.matcher.accepts ((Utf8.decodeBefore s.haystack s.back).getD .undecodable).rune

theorem examine_pos (s : CharacterSearcher) : 0 < s.examine.1 := by
  unfold examine
  dsimp only
  split
  · dsimp only; omega
  · exact Utf8.Character.length_pos _

def next (s : CharacterSearcher) : Option Step × CharacterSearcher :=
  if s.back ≤ s.front then (none, s)
  else
    let stop := s.front + s.examine.1
    (some (report s.examine.2 s.front stop), { s with front := stop })

def nextBack (s : CharacterSearcher) : Option Step × CharacterSearcher :=
  if s.back ≤ s.front then (none, s)
  else
    let start := Utf8.floorBoundary s.haystack (s.back - 1)
    (some (report s.examineBack start s.back), { s with back := start })

def steps : FiniteStream CharacterSearcher Step where
  next := next
  remaining s := s.back - s.front
  spends s := by
    have := s.examine_pos
    unfold next
    split
    · simp
    · simp only [Option.toList_some, List.length_singleton]; omega

def stepsBack : FiniteStream CharacterSearcher Step where
  next := nextBack
  remaining s := s.back - s.front
  spends s := by
    have := Utf8.floorBoundary_le s.haystack (s.back - 1)
    unfold nextBack
    split
    · simp
    · simp only [Option.toList_some, List.length_singleton]; omega

end CharacterSearcher
end TextSearch
