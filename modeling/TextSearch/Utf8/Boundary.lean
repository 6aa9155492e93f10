import TextSearch.Utf8.Encoding

/-!
Character boundaries: both ends of a text, and every offset inside it whose byte begins a character.
-/
namespace TextSearch
namespace Utf8

def isBoundary (t : Text) (i : Nat) : Bool :=
  i == 0 || i == t.size || (decide (i < t.size) && !isContinuation (t.byteAt i))

/-- The nearest boundary at or after an offset of the text. No boundary follows an offset past the
    end: counting up from there runs through every larger word and wraps to zero. -/
def ceilBoundary (t : Text) (i : Nat) : Nat :=
  if i < t.size then
    if isBoundary t i then i else ceilBoundary t (i + 1)
  else if i = t.size then i else 0
termination_by t.size - i
decreasing_by omega

def floorBoundary (t : Text) : Nat → Nat
  | 0 => 0
  | i + 1 => if isBoundary t (i + 1) then i + 1 else floorBoundary t i

theorem floorBoundary_le (t : Text) (i : Nat) : floorBoundary t i ≤ i := by
  induction i with
  | zero => simp [floorBoundary]
  | succ i ih =>
    rw [floorBoundary]
    split <;> omega

theorem le_ceilBoundary (t : Text) (i : Nat) (h : i ≤ t.size) : i ≤ ceilBoundary t i := by
  fun_induction ceilBoundary t i with
  | case1 => exact Nat.le_refl _
  | case2 i inside _ ih => have := ih inside; omega
  | case3 => exact Nat.le_refl _
  | case4 i outside past => omega

def count (t : Text) : Nat := t.toList.countP fun b => !isContinuation b

end Utf8
end TextSearch
