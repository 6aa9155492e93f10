import TextSearch.TwoWay.Factorization

/-!
One alignment of a needle with its haystack: the needle is compared outward from its cut, near side
first, and a mismatch says how far the window may move.
-/
namespace TextSearch
namespace TwoWay

/-- The next window begins at `position`; its first `memory` bytes are known to agree. -/
structure Forward where
  position : Nat
  memory : Option Nat
  deriving DecidableEq, Repr

/-- The next window ends at `stop`; its bytes from `memory` on are known to agree. -/
structure Backward where
  stop : Nat
  memory : Option Nat
  deriving DecidableEq, Repr

/-- No window is left, or the window moved on, with or without a match. -/
inductive Verdict (γ : Type) where
  | outOfRoom
  | moved (after : γ)
  | hit (after : γ)

def mismatchFrom (needle window : Nat → UInt8) (stop i : Nat) : Nat :=
  if i < stop ∧ needle i = window i then mismatchFrom needle window stop (i + 1) else i
termination_by stop - i

def mismatchBefore (needle window : Nat → UInt8) (stop : Nat) : Nat → Nat
  | 0 => 0
  | i + 1 =>
    if stop < i + 1 ∧ needle i = window i then mismatchBefore needle window stop i else i + 1

theorem le_mismatchFrom (needle window : Nat → UInt8) (stop i : Nat) :
    i ≤ mismatchFrom needle window stop i := by
  fun_induction mismatchFrom needle window stop i with
  | case1 i _ ih => omega
  | case2 => exact Nat.le_refl _

theorem mismatchBefore_le (needle window : Nat → UInt8) (stop i : Nat) :
    mismatchBefore needle window stop i ≤ i := by
  induction i with
  | zero => simp [mismatchBefore]
  | succ i ih =>
    rw [mismatchBefore]
    split <;> omega

namespace Needle

/-- Compares the window at the forward cursor: first rightward from the cut, then leftward. -/
def tryForward (d : Needle) (hay : Text) (c : Forward) : Verdict Forward :=
  let size := d.text.size
  let known := c.memory.getD 0
  let window k := hay.byteAt (c.position + k)
  if hay.size - c.position < size then .outOfRoom
  else if !d.factors.filter.mayContain (window (size - 1)) then
    .moved ⟨c.position + size, d.remember 0⟩
  else
    let i := mismatchFrom d.text.byteAt window size (max d.factors.cut known)
    if i < size then .moved ⟨c.position + (i - d.factors.cut + 1), d.remember 0⟩
    else if known < mismatchBefore d.text.byteAt window known d.factors.cut then
      .moved ⟨c.position + d.factors.period, d.remember (size - d.factors.period)⟩
    else .hit ⟨c.position + size, d.remember 0⟩

def tryBackward (d : Needle) (hay : Text) (c : Backward) : Verdict Backward :=
  let size := d.text.size
  let known := c.memory.getD size
  let window k := hay.byteAt (c.stop - size + k)
  if c.stop < size then .outOfRoom
  else if !d.factors.filter.mayContain (window 0) then
    .moved ⟨c.stop - size, d.remember size⟩
  else
    let i := mismatchBefore d.text.byteAt window 0 (min d.factors.cutBack known)
    if 0 < i then .moved ⟨c.stop - (d.factors.cutBack - (i - 1)), d.remember size⟩
    else if mismatchFrom d.text.byteAt window known d.factors.cutBack < known then
      .moved ⟨c.stop - d.factors.period, d.remember d.factors.period⟩
    else .hit ⟨c.stop - size, d.remember size⟩

theorem tryForward_moved {d : Needle} {hay : Text} {c after : Forward}
    (h : d.tryForward hay c = .moved after) : c.position < after.position ∧ c.position < hay.size := by
  have size := d.nonempty
  have period := d.factors.period_pos
  simp only [tryForward] at h
  repeat' split at h
  all_goals cases h
  all_goals exact ⟨by dsimp only; omega, by omega⟩

theorem tryForward_hit {d : Needle} {hay : Text} {c after : Forward}
    (h : d.tryForward hay c = .hit after) :
    after.position = c.position + d.text.size ∧ c.position + d.text.size ≤ hay.size := by
  have size := d.nonempty
  simp only [tryForward] at h
  repeat' split at h
  all_goals cases h
  exact ⟨rfl, by omega⟩

theorem tryBackward_moved {d : Needle} {hay : Text} {c after : Backward}
    (h : d.tryBackward hay c = .moved after) : after.stop < c.stop := by
  have size := d.nonempty
  have period := d.factors.period_pos
  have below := mismatchBefore_le d.text.byteAt (fun k => hay.byteAt (c.stop - d.text.size + k)) 0
    (min d.factors.cutBack (c.memory.getD d.text.size))
  simp only [tryBackward] at h
  repeat' split at h
  all_goals cases h
  all_goals (dsimp only; omega)

theorem tryBackward_hit {d : Needle} {hay : Text} {c after : Backward}
    (h : d.tryBackward hay c = .hit after) : after.stop + d.text.size = c.stop := by
  have size := d.nonempty
  simp only [tryBackward] at h
  repeat' split at h
  all_goals cases h
  dsimp only
  omega

end Needle
end TwoWay
end TextSearch
