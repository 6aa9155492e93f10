import TextSearch.Find
import TextSearch.Range.Lines
import TextSearch.Replace
import TextSearch.Trim
import TextSearch.Utf8.Checked

/-!
The operations as a scripting language sees them: functions called by name, with texts and numbers
as arguments, given in order or by their names. Every text searched for is a substring, except that
`trim_matches` takes the characters of a text as a set.
-/
namespace TextSearch
namespace Scripting

def summary : String := "UTF-8 aware pattern search, built on the bidirectional Two-Way algorithm"

inductive Function where
  | find
  | rfind
  | contains
  | startsWith
  | endsWith
  | count
  | split
  | rsplit
  | splitAtMost
  | rsplitAtMost
  | lines
  | words
  | replace
  | replaceAtMost
  | trimMatches
  | trim
  deriving DecidableEq, Repr

namespace Function

def all : List Function :=
  [find, rfind, contains, startsWith, endsWith, count, split, rsplit, splitAtMost, rsplitAtMost, lines,
    words, replace, replaceAtMost, trimMatches, trim]

def name : Function → String
  | find => "find"
  | rfind => "rfind"
  | contains => "contains"
  | startsWith => "starts_with"
  | endsWith => "ends_with"
  | count => "count"
  | split => "split"
  | rsplit => "rsplit"
  | splitAtMost => "splitn"
  | rsplitAtMost => "rsplitn"
  | lines => "lines"
  | words => "split_whitespace"
  | replace => "replace"
  | replaceAtMost => "replacen"
  | trimMatches => "trim_matches"
  | trim => "trim"

def parameters : Function → List String
  | find | rfind | contains | count => ["haystack", "needle"]
  | startsWith => ["haystack", "prefix"]
  | endsWith => ["haystack", "suffix"]
  | split | rsplit => ["haystack", "separator"]
  | splitAtMost | rsplitAtMost => ["haystack", "limit", "separator"]
  | lines | words | trim => ["haystack"]
  | replace => ["haystack", "needle", "replacement"]
  | replaceAtMost => ["haystack", "needle", "replacement", "limit"]
  | trimMatches => ["haystack", "characters"]

def ofName? (name : String) : Option Function := all.find? fun f => f.name == name

end Function

inductive Argument where
  | text (t : Text)
  | number (n : Nat)

inductive Value where
  | truth (b : Bool)
  | integer (n : Int)
  | text (t : Text)
  | texts (ts : List Text)

/-- A missing offset is reported as minus one. -/
def Value.ofOffset : Option Nat → Value
  | some offset => .integer offset
  | none => .integer (-1)

/-- Calls a function with arguments in order. The outer `none` means that they do not fit it. -/
def call (f : Function) (arguments : List Argument) : Option (Except Failure Value) :=
  match f, arguments with
  | .find, [.text hay, .text needle] => some (.ok (.ofOffset (hay.find (.substring needle))))
  | .rfind, [.text hay, .text needle] => some (.ok (.ofOffset (hay.rfind (.substring needle))))
  | .contains, [.text hay, .text needle] => some (.ok (.truth (hay.contains (.substring needle))))
  | .startsWith, [.text hay, .text needle] => some (.ok (.truth (hay.startsWith (.substring needle))))
  | .endsWith, [.text hay, .text needle] => some (.ok (.truth (hay.endsWith (.substring needle))))
  | .count, [.text hay, .text needle] => some (.ok (.integer (hay.count (.substring needle))))
  | .split, [.text hay, .text needle] => some (.ok (.texts (hay.split (.substring needle)).toList))
  | .rsplit, [.text hay, .text needle] => some (.ok (.texts (hay.rsplit (.substring needle)).toList))
  | .splitAtMost, [.text hay, .number limit, .text needle] =>
    some (.ok (.texts (hay.splitAtMost limit (.substring needle)).toList))
  | .rsplitAtMost, [.text hay, .number limit, .text needle] =>
    some (.ok (.texts (hay.rsplitAtMost limit (.substring needle)).toList))
  | .lines, [.text hay] => some (.ok (.texts hay.lines.toList))
  | .words, [.text hay] => some (.ok (.texts hay.words.toList))
  | .replace, [.text hay, .text needle, .text new] =>
    some (.ok (.text (hay.replace (.substring needle) new)))
  | .replaceAtMost, [.text hay, .text needle, .text new, .number limit] =>
    some (.ok (.text (hay.replaceAtMost (.substring needle) new limit)))
  | .trimMatches, [.text hay, .text characters] =>
    some (characters.runes.map fun members => .text (hay.trimMatches (.anyOf members)))
  | .trim, [.text hay] => some (.ok (.text hay.trim))
  | _, _ => none

def callNamed (f : Function) (arguments : List (String × Argument)) :
    Option (Except Failure Value) := do
  if arguments.length = f.parameters.length then
    call f (← f.parameters.mapM fun p => arguments.lookup p)
  else none

end Scripting
end TextSearch
