import TextSearch.FiniteStream

/-!
A range is what is left of a finite sequence, to be taken from the front and, where both ends agree
on the elements, from the back.
-/
namespace TextSearch

structure Range (σ α : Type) where
  state : σ
  forward : FiniteStream σ α
  backward : FiniteStream σ α
  doubleEnded : Bool

namespace Range
variable {σ α : Type}

def reverse (r : Range σ α) : Range σ α := { r with forward := r.backward, backward := r.forward }

def next (r : Range σ α) : Option α × Range σ α :=
  ((r.forward.next r.state).1, { r with state := (r.forward.next r.state).2 })

/-- Takes the element at the back; `none` if the range may only be taken from the front. -/
def nextBack? (r : Range σ α) : Option (Option α × Range σ α) :=
  if r.doubleEnded then
    some ((r.backward.next r.state).1, { r with state := (r.backward.next r.state).2 })
  else none

def toList (r : Range σ α) : List α := r.forward.toList r.state

def count (r : Range σ α) : Nat := r.forward.count r.state

/-- The element a walk along a range stands at, if it has not passed the end, and the range behind
    it. -/
structure Walk (σ α : Type) where
  current : Option α
  rest : Range σ α

namespace Walk

/-- Moves on to the next element. A walk at its end asks the range again. -/
def advance (w : Walk σ α) : Walk σ α := ⟨w.rest.next.1, w.rest.next.2⟩

def atEnd (w : Walk σ α) : Bool := w.current.isNone

end Walk

def walk (r : Range σ α) : Walk σ α := ⟨r.next.1, r.next.2⟩

end Range
end TextSearch
