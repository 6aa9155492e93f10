import TextSearch.Text.Basic

/-!
Bytes behind a fence and numbers that refuse: a byte outside a stretch, a difference below zero and a
sum past a limit are `none`. What is computed without a refusal has touched nothing else, and every
number in it is exact.
-/
namespace TextSearch

/-- The bytes from `first` up to `last`. Any other offset is refused. -/
def Text.fenced (t : Text) (first last : Nat) : Nat → Option UInt8 :=
  fun i => if first ≤ i ∧ i < last then some (t.byteAt i) else none

def Text.bytes (t : Text) : Nat → Option UInt8 := t.fenced 0 t.size

namespace Fenced
variable {t : Text} {first last limit i m n : Nat}

def minus (m n : Nat) : Option Nat := if n ≤ m then some (m - n) else none

def plus (limit m n : Nat) : Option Nat := if m + n ≤ limit then some (m + n) else none

theorem fenced_of_inside (from_first : first ≤ i) (before : i < last) :
    t.fenced first last i = some (t.byteAt i) := if_pos ⟨from_first, before⟩

theorem bytes_of_inside (inside : i < t.size) : t.bytes i = some (t.byteAt i) :=
  fenced_of_inside (Nat.zero_le i) inside

theorem minus_of_le (le : n ≤ m) : minus m n = some (m - n) := if_pos le

theorem plus_of_le (le : m + n ≤ limit) : plus limit m n = some (m + n) := if_pos le

end Fenced
end TextSearch
