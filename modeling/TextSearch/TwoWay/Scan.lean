import TextSearch.Step
import TextSearch.FiniteStream
import TextSearch.TwoWay.Alignment

/-!
A scan of a haystack for a needle, with one cursor for each direction. Either cursor may be driven
step by step, where the steps cover the haystack without gap or overlap, or straight from match to
match.
-/
namespace TextSearch
namespace TwoWay
namespace Needle

def nextMatch (d : Needle) (hay : Text) (c : Forward) : Option Step × Forward :=
  match _verdict : d.tryForward hay c with
  | .outOfRoom => (none, { c with position := hay.size })
  | .moved after => d.nextMatch hay after
  | .hit after => (some (.found c.position after.position), after)
termination_by hay.size - c.position
decreasing_by have := tryForward_moved _verdict; omega

/-- Moves the forward cursor over one match or one rejected stretch. A cursor without room for
    another window goes to the end of the haystack. -/
def next (d : Needle) (hay : Text) (c : Forward) : Option Step × Forward :=
  match d.tryForward hay c with
  | .outOfRoom =>
    (if hay.size ≤ c.position then none else some (.rejected c.position hay.size),
      { c with position := hay.size })
  | .moved after =>
    if hay.size - after.position < d.text.size then
      (some (.rejected c.position hay.size), { after with position := hay.size })
    else (some (.rejected c.position after.position), after)
  | .hit after => (some (.found c.position after.position), after)

def nextMatchBack (d : Needle) (hay : Text) (c : Backward) : Option Step × Backward :=
  match _verdict : d.tryBackward hay c with
  | .outOfRoom => (none, { c with stop := 0 })
  | .moved after => d.nextMatchBack hay after
  | .hit after => (some (.found after.stop c.stop), after)
termination_by c.stop
decreasing_by exact tryBackward_moved _verdict

def nextBack (d : Needle) (hay : Text) (c : Backward) : Option Step × Backward :=
  match d.tryBackward hay c with
  | .outOfRoom => (if c.stop = 0 then none else some (.rejected 0 c.stop), { c with stop := 0 })
  | .moved after =>
    if after.stop < d.text.size then (some (.rejected 0 c.stop), { after with stop := 0 })
    else (some (.rejected after.stop c.stop), after)
  | .hit after => (some (.found after.stop c.stop), after)

theorem nextMatch_spends (d : Needle) (hay : Text) (c : Forward) :
    (d.nextMatch hay c).1.toList.length + (hay.size - (d.nextMatch hay c).2.position) ≤
      hay.size - c.position := by
  have size := d.nonempty
  fun_induction nextMatch d hay c with
  | case1 c h => simp
  | case2 c after h ih => have := tryForward_moved h; omega
  | case3 c after h =>
    have := tryForward_hit h
    simp only [Option.toList_some, List.length_singleton]
    omega

theorem next_spends (d : Needle) (hay : Text) (c : Forward) :
    (d.next hay c).1.toList.length + (hay.size - (d.next hay c).2.position) ≤
      hay.size - c.position := by
  have size := d.nonempty
  unfold next
  split
  next h =>
    split
    · simp
    · simp only [Option.toList_some, List.length_singleton]; omega
  next after h =>
    have := tryForward_moved h
    split <;> simp only [Option.toList_some, List.length_singleton] <;> omega
  next after h =>
    have := tryForward_hit h
    simp only [Option.toList_some, List.length_singleton]
    omega

theorem nextMatchBack_spends (d : Needle) (hay : Text) (c : Backward) :
    (d.nextMatchBack hay c).1.toList.length + (d.nextMatchBack hay c).2.stop ≤ c.stop := by
  have size := d.nonempty
  fun_induction nextMatchBack d hay c with
  | case1 c h => simp
  | case2 c after h ih => have := tryBackward_moved h; omega
  | case3 c after h =>
    have := tryBackward_hit h
    simp only [Option.toList_some, List.length_singleton]
    omega

theorem nextBack_spends (d : Needle) (hay : Text) (c : Backward) :
    (d.nextBack hay c).1.toList.length + (d.nextBack hay c).2.stop ≤ c.stop := by
  have size := d.nonempty
  unfold nextBack
  split
  next h =>
    split
    · simp
    · simp only [Option.toList_some, List.length_singleton]; omega
  next after h =>
    have := tryBackward_moved h
    split <;> simp only [Option.toList_some, List.length_singleton] <;> omega
  next after h =>
    have := tryBackward_hit h
    simp only [Option.toList_some, List.length_singleton]
    omega

end Needle

/-- The two cursors of a scan do not see each other. -/
structure Scan where
  haystack : Text
  needle : Needle
  forward : Forward
  backward : Backward

namespace Scan

def start (needle : Needle) (hay : Text) : Scan where
  haystack := hay
  needle := needle
  forward := ⟨0, needle.remember 0⟩
  backward := ⟨hay.size, needle.remember needle.text.size⟩

def moveForward (s : Scan) (position : Nat) : Scan :=
  { s with forward := { s.forward with position := position } }

def moveBackward (s : Scan) (stop : Nat) : Scan :=
  { s with backward := { s.backward with stop := stop } }

def steps : FiniteStream Scan Step where
  next s :=
    let answer := s.needle.next s.haystack s.forward
    (answer.1, { s with forward := answer.2 })
  remaining s := s.haystack.size - s.forward.position
  spends s := s.needle.next_spends s.haystack s.forward

def hits : FiniteStream Scan Step where
  next s :=
    let answer := s.needle.nextMatch s.haystack s.forward
    (answer.1, { s with forward := answer.2 })
  remaining s := s.haystack.size - s.forward.position
  spends s := s.needle.nextMatch_spends s.haystack s.forward

def stepsBack : FiniteStream Scan Step where
  next s :=
    let answer := s.needle.nextBack s.haystack s.backward
    (answer.1, { s with backward := answer.2 })
  remaining s := s.backward.stop
  spends s := s.needle.nextBack_spends s.haystack s.backward

def hitsBack : FiniteStream Scan Step where
  next s :=
    let answer := s.needle.nextMatchBack s.haystack s.backward
    (answer.1, { s with backward := answer.2 })
  remaining s := s.backward.stop
  spends s := s.needle.nextMatchBack_spends s.haystack s.backward

end Scan

def findFirst (needle hay : Text) : Option Nat :=
  match Needle.ofText? needle with
  | none => some 0
  | some d => (Scan.hits.next (Scan.start d hay)).1.map Step.start

def findLast (needle hay : Text) : Option Nat :=
  match Needle.ofText? needle with
  | none => some hay.size
  | some d => (Scan.hitsBack.next (Scan.start d hay)).1.map Step.start

end TwoWay
end TextSearch
