import TextSearch.Proofs.Text.Fence
import TextSearch.Proofs.TwoWay.Reach

/-!
The search computed behind a fence: each byte of needle and haystack is asked for at its offset, each
difference is refused below zero, each cursor past the end of the haystack, and each round of a loop
that does not move its cursor. Nothing is ever refused.
-/
namespace TextSearch
namespace TwoWay
open Text Word

namespace Fenced
open TextSearch.Fenced

section Comparison

/-- Do two byte sequences agree at every index below the bound? Both are read to the end. -/
def agreeBelow (f g : Nat → Option UInt8) : Nat → Option Bool
  | 0 => some true
  | n + 1 => do
    let a ← f n
    let b ← g n
    let below ← agreeBelow f g n
    some (a == b && below)

def mismatchFrom (needle window : Nat → Option UInt8) (stop i : Nat) : Option Nat :=
  if i < stop then do
    let a ← needle i
    let b ← window i
    if a = b then mismatchFrom needle window stop (i + 1) else some i
  else some i
termination_by stop - i

def mismatchBefore (needle window : Nat → Option UInt8) (stop : Nat) : Nat → Option Nat
  | 0 => some 0
  | i + 1 =>
    if stop < i + 1 then do
      let a ← needle i
      let b ← window i
      if a = b then mismatchBefore needle window stop i else some (i + 1)
    else some (i + 1)

variable {f g : Nat → Option UInt8} {x w : Nat → UInt8} {n stop i : Nat}

theorem agreeBelow_eq (has : ∀ k, k < n → f k = some (x k) ∧ g k = some (w k)) :
    agreeBelow f g n = some (Text.agreeBelow x w n) := by
  induction n with
  | zero => rfl
  | succ n ih =>
    obtain ⟨left, right⟩ := has n (Nat.lt_succ_self n)
    rw [agreeBelow, left, right, ih fun k before => has k (by omega)]
    rfl

theorem mismatchFrom_eq (has : ∀ k, i ≤ k → k < stop → f k = some (x k) ∧ g k = some (w k)) :
    mismatchFrom f g stop i = some (TwoWay.mismatchFrom x w stop i) := by
  fun_induction TwoWay.mismatchFrom x w stop i with
  | case1 i same ih =>
    obtain ⟨left, right⟩ := has i (Nat.le_refl i) same.1
    rw [mismatchFrom, if_pos same.1, left, right]
    simp only [Option.bind_eq_bind, Option.bind_some, if_pos same.2]
    exact ih fun k first before => has k (by omega) before
  | case2 i no =>
    rw [mismatchFrom]
    split
    next inside =>
      obtain ⟨left, right⟩ := has i (Nat.le_refl i) inside
      simp only [left, right, Option.bind_eq_bind, Option.bind_some]
      exact if_neg fun same => no ⟨inside, same⟩
    next => rfl

theorem mismatchBefore_eq (has : ∀ k, stop ≤ k → k < i → f k = some (x k) ∧ g k = some (w k)) :
    mismatchBefore f g stop i = some (TwoWay.mismatchBefore x w stop i) := by
  induction i with
  | zero => rfl
  | succ i ih =>
    rw [mismatchBefore, TwoWay.mismatchBefore]
    by_cases inside : stop < i + 1
    · obtain ⟨left, right⟩ := has i (by omega) (Nat.lt_succ_self i)
      rw [if_pos inside]
      simp only [left, right, Option.bind_eq_bind, Option.bind_some, inside, true_and]
      split
      next => exact ih fun k first before => has k first (by omega)
      next => rfl
    · rw [if_neg inside, if_neg fun both => inside both.1]

end Comparison

section Factorization

def judge (order : ByteOrder) (challenger best : UInt8) (s : SuffixScan) : SuffixScan :=
  if order.before challenger best then s.lengthen
  else if challenger = best then s.agree
  else s.replace

theorem judge_advances (order : ByteOrder) (challenger best : UInt8) (s : SuffixScan) :
    s.left + s.right + s.offset < (judge order challenger best s).left +
      (judge order challenger best s).right + (judge order challenger best s).offset := by
  have le := s.period_le
  have lt := s.offset_lt
  have apart : s.left + s.offset ≠ s.right + s.offset := by omega
  have step : s.step order (fun k => if k = s.right + s.offset then challenger else best) =
      judge order challenger best s := by
    unfold SuffixScan.step
    simp only [if_neg apart, if_true]
    rfl
  exact step ▸ s.step_advances order _

def scan (order : ByteOrder) (byte : Nat → Option UInt8) (size : Nat) (known : Option Nat)
    (s : SuffixScan) : Option SuffixScan :=
  if s.right + s.offset < size then
    match byte (s.right + s.offset), byte (s.left + s.offset) with
    | some challenger, some best =>
      if known = some (judge order challenger best s).period then some (judge order challenger best s)
      else scan order byte size known (judge order challenger best s)
    | _, _ => none
  else some s
termination_by 2 * size - (s.left + s.right + s.offset)
decreasing_by
  have := judge_advances order challenger best s
  have := s.period_le
  have := s.offset_lt
  omega

def backward (x : Text) (i : Nat) : Option UInt8 := do
  let k ← minus x.size (1 + i)
  x.bytes k

def factorization (x : Text) : Option Factorization := do
  let lesser ← scan .ascending x.bytes x.size none .start
  let greater ← scan .descending x.bytes x.size none .start
  let suffix := if lesser.left > greater.left then lesser else greater
  if ← agreeBelow x.bytes (fun k => x.bytes (suffix.period + k)) suffix.left then
    let lesserBack ← scan .ascending (backward x) x.size (some suffix.period) .start
    let greaterBack ← scan .descending (backward x) x.size (some suffix.period) .start
    let cutBack ← minus x.size (max lesserBack.left greaterBack.left)
    some ⟨suffix.left, cutBack, suffix.period, .ofText x, .short, suffix.period_pos⟩
  else
    let behind ← minus x.size suffix.left
    some ⟨suffix.left, suffix.left, max suffix.left behind + 1, .ofText x, .long, Nat.succ_pos _⟩

theorem scan_eq {order : ByteOrder} {byte : Nat → Option UInt8} {x : Nat → UInt8} {size : Nat}
    {known : Option Nat} {s : SuffixScan} (has : ∀ k, k < size → byte k = some (x k)) :
    scan order byte size known s = some (s.run order x size known) := by
  fun_induction SuffixScan.run order x size known s with
  | case1 s room stop =>
    have le := s.period_le
    have lt := s.offset_lt
    rw [scan, if_pos room, has _ room, has _ (by omega)]
    exact if_pos stop
  | case2 s room onward ih =>
    have le := s.period_le
    have lt := s.offset_lt
    rw [scan, if_pos room, has _ room, has _ (by omega)]
    exact (if_neg onward).trans ih
  | case3 s ended => rw [scan, if_neg ended]

theorem backward_of_inside {x : Text} {k : Nat} (inside : k < x.size) :
    backward x k = some (x.byteAt (x.size - (1 + k))) := by
  rw [backward, minus_of_le (by omega)]
  exact bytes_of_inside (by omega)

theorem factorization_eq {x : Text} (nonempty : 0 < x.size) :
    factorization x = some (Factorization.ofText x) := by
  have all : ∀ k, k < x.size → x.bytes k = some (x.byteAt k) := fun k inside =>
    bytes_of_inside inside
  have back : ∀ k, k < x.size → backward x k = some (x.byteAt (x.size - (1 + k))) := fun k inside =>
    backward_of_inside inside
  have fits := Factorization.forwardCut_fits nonempty
  have prefixes : agreeBelow x.bytes (fun k => x.bytes ((Factorization.forwardCut x).period + k))
      (Factorization.forwardCut x).left =
        some (Factorization.leftRecurs x (Factorization.forwardCut x)) :=
    agreeBelow_eq fun k before => ⟨all k (by omega), all _ (by omega)⟩
  unfold factorization Factorization.ofText
  simp only [scan_eq all, scan_eq back, Option.bind_eq_bind, Option.bind_some]
  change Option.bind (agreeBelow x.bytes (fun k => x.bytes ((Factorization.forwardCut x).period + k))
    (Factorization.forwardCut x).left) _ = _
  rw [prefixes, Option.bind_some]
  split
  next recurs =>
    have periodic := (Factorization.period_of_leftRecurs nonempty recurs).2.1
    have inside : max
        (reverseMaximalSuffix .ascending x.byteAt x.size (Factorization.forwardCut x).period).left
        (reverseMaximalSuffix .descending x.byteAt x.size (Factorization.forwardCut x).period).left ≤
        x.size := by
      rw [Factorization.reverseMaximalSuffix_left .ascending nonempty periodic,
        Factorization.reverseMaximalSuffix_left .descending nonempty periodic]
      exact Nat.le_of_lt (critical_of_both (reversed x.byteAt x.size) nonempty rfl).1
    exact congrArg (Option.bind · _) (minus_of_le inside)
  next =>
    have cut : (Factorization.forwardCut x).left ≤ x.size := by omega
    exact congrArg (Option.bind · _) (minus_of_le cut)

end Factorization

section Alignment

def tryForward (d : Needle) (hay : Text) (c : Forward) : Option (Verdict Forward) := do
  let size := d.text.size
  let known := c.memory.getD 0
  let window k := hay.bytes (c.position + k)
  let room ← minus hay.size c.position
  if room < size then some .outOfRoom
  else do
    let last ← minus size 1
    let b ← window last
    if !d.factors.filter.mayContain b then do
      let position ← plus hay.size c.position size
      some (.moved ⟨position, d.remember 0⟩)
    else do
      let i ← mismatchFrom d.text.bytes window size (max d.factors.cut known)
      if i < size then do
        let behind ← minus i d.factors.cut
        let position ← plus hay.size c.position (behind + 1)
        some (.moved ⟨position, d.remember 0⟩)
      else do
        let j ← mismatchBefore d.text.bytes window known d.factors.cut
        if known < j then do
          let position ← plus hay.size c.position d.factors.period
          let count ← minus size d.factors.period
          some (.moved ⟨position, d.remember count⟩)
        else do
          let position ← plus hay.size c.position size
          some (.hit ⟨position, d.remember 0⟩)

def tryBackward (d : Needle) (hay : Text) (c : Backward) : Option (Verdict Backward) :=
  let size := d.text.size
  let known := c.memory.getD size
  if c.stop < size then some .outOfRoom
  else do
    let start ← minus c.stop size
    let window k := hay.bytes (start + k)
    let b ← window 0
    if !d.factors.filter.mayContain b then some (.moved ⟨start, d.remember size⟩)
    else do
      let i ← mismatchBefore d.text.bytes window 0 (min d.factors.cutBack known)
      if 0 < i then do
        let before ← minus i 1
        let beyond ← minus d.factors.cutBack before
        let stop ← minus c.stop beyond
        some (.moved ⟨stop, d.remember size⟩)
      else do
        let j ← mismatchFrom d.text.bytes window known d.factors.cutBack
        if j < known then do
          let stop ← minus c.stop d.factors.period
          some (.moved ⟨stop, d.remember d.factors.period⟩)
        else some (.hit ⟨start, d.remember size⟩)

variable {d : Needle} {hay : Text}

theorem tryForward_eq {c : Forward} (ready : c.Ready d hay) :
    tryForward d hay c = some (d.tryForward hay c) := by
  have inside := ready.position_le
  have size := d.nonempty
  have cut := d.sound.cut_lt
  have period := d.period_le_size
  simp only [tryForward, Needle.tryForward, minus_of_le inside, Option.bind_eq_bind,
    Option.bind_some]
  split
  next => rfl
  next enough =>
    have has : ∀ k, k < d.text.size → d.text.bytes k = some (d.text.byteAt k) ∧
        hay.bytes (c.position + k) = some (hay.byteAt (c.position + k)) :=
      fun k within => ⟨bytes_of_inside within, bytes_of_inside (by omega)⟩
    have move : ∀ m, m ≤ d.text.size → plus hay.size c.position m = some (c.position + m) :=
      fun m le => plus_of_le (by omega)
    have right : mismatchFrom d.text.bytes (fun k => hay.bytes (c.position + k)) d.text.size
        (max d.factors.cut (c.memory.getD 0)) = some _ :=
      mismatchFrom_eq fun k _ before => has k before
    have left : mismatchBefore d.text.bytes (fun k => hay.bytes (c.position + k))
        (c.memory.getD 0) d.factors.cut = some _ :=
      mismatchBefore_eq fun k _ before => has k (by omega)
    have behind := le_mismatchFrom d.text.byteAt (fun k => hay.byteAt (c.position + k)) d.text.size
      (max d.factors.cut (c.memory.getD 0))
    simp only [minus_of_le size, (has (d.text.size - 1) (by omega)).2, right, left,
      Option.bind_some]
    split
    next => rw [move _ (Nat.le_refl _), Option.bind_some]
    next =>
      split
      next early =>
        rw [minus_of_le (by omega), Option.bind_some, move _ (by omega), Option.bind_some]
      next =>
        split
        next =>
          rw [move _ period, Option.bind_some, minus_of_le period, Option.bind_some]
        next => rw [move _ (Nat.le_refl _), Option.bind_some]

theorem tryBackward_eq {c : Backward} (ready : c.Ready d hay) :
    tryBackward d hay c = some (d.tryBackward hay c) := by
  have inside := ready.stop_le
  have size := d.nonempty
  have cut := d.sound.cutBack_le
  have period := d.period_le_size
  have known := ready.known_le
  simp only [tryBackward, Needle.tryBackward, Option.bind_eq_bind]
  split
  next => rfl
  next enough =>
    have room : d.text.size ≤ c.stop := by omega
    have has : ∀ k, k < d.text.size → d.text.bytes k = some (d.text.byteAt k) ∧
        hay.bytes (c.stop - d.text.size + k) = some (hay.byteAt (c.stop - d.text.size + k)) :=
      fun k within => ⟨bytes_of_inside within, bytes_of_inside (by omega)⟩
    have left : mismatchBefore d.text.bytes (fun k => hay.bytes (c.stop - d.text.size + k)) 0
        (min d.factors.cutBack (c.memory.getD d.text.size)) = some _ :=
      mismatchBefore_eq fun k _ before => has k (by omega)
    have right : mismatchFrom d.text.bytes (fun k => hay.bytes (c.stop - d.text.size + k))
        (c.memory.getD d.text.size) d.factors.cutBack = some _ :=
      mismatchFrom_eq fun k _ before => has k (by omega)
    have below := mismatchBefore_le d.text.byteAt
      (fun k => hay.byteAt (c.stop - d.text.size + k)) 0
      (min d.factors.cutBack (c.memory.getD d.text.size))
    simp only [minus_of_le room, (has 0 size).2, left, right, Option.bind_some]
    split
    next => rfl
    next =>
      split
      next late =>
        rw [minus_of_le late, Option.bind_some, minus_of_le (by omega), Option.bind_some,
          minus_of_le (by omega), Option.bind_some]
      next =>
        split
        next => rw [minus_of_le (by omega), Option.bind_some]
        next => rfl

end Alignment

section Calls

def nextMatch (d : Needle) (hay : Text) (c : Forward) : Option (Option Step × Forward) :=
  match tryForward d hay c with
  | some .outOfRoom => some (none, { c with position := hay.size })
  | some (.moved after) =>
    if c.position < after.position ∧ after.position ≤ hay.size then nextMatch d hay after else none
  | some (.hit after) => some (some (.found c.position after.position), after)
  | none => none
termination_by hay.size - c.position

def next (d : Needle) (hay : Text) (c : Forward) : Option (Option Step × Forward) := do
  match ← tryForward d hay c with
  | .outOfRoom =>
    some (if hay.size ≤ c.position then none else some (.rejected c.position hay.size),
      { c with position := hay.size })
  | .moved after =>
    if c.position < after.position then do
      let room ← minus hay.size after.position
      some (if room < d.text.size then
          (some (.rejected c.position hay.size), { after with position := hay.size })
        else (some (.rejected c.position after.position), after))
    else none
  | .hit after => some (some (.found c.position after.position), after)

def nextMatchBack (d : Needle) (hay : Text) (c : Backward) : Option (Option Step × Backward) :=
  match tryBackward d hay c with
  | some .outOfRoom => some (none, { c with stop := 0 })
  | some (.moved after) => if after.stop < c.stop then nextMatchBack d hay after else none
  | some (.hit after) => some (some (.found after.stop c.stop), after)
  | none => none
termination_by c.stop

def nextBack (d : Needle) (hay : Text) (c : Backward) : Option (Option Step × Backward) := do
  match ← tryBackward d hay c with
  | .outOfRoom =>
    some (if c.stop = 0 then none else some (.rejected 0 c.stop), { c with stop := 0 })
  | .moved after =>
    if after.stop < c.stop then
      some (if after.stop < d.text.size then
          (some (.rejected 0 c.stop), { after with stop := 0 })
        else (some (.rejected after.stop c.stop), after))
    else none
  | .hit after => some (some (.found after.stop c.stop), after)

def call (k : Call) (s : Scan) : Option (Option Step × Scan) :=
  match k with
  | .steps => (next s.needle s.haystack s.forward).map fun a => (a.1, { s with forward := a.2 })
  | .hits => (nextMatch s.needle s.haystack s.forward).map fun a => (a.1, { s with forward := a.2 })
  | .stepsBack =>
    (nextBack s.needle s.haystack s.backward).map fun a => (a.1, { s with backward := a.2 })
  | .hitsBack =>
    (nextMatchBack s.needle s.haystack s.backward).map fun a => (a.1, { s with backward := a.2 })

variable {d : Needle} {hay : Text}

theorem nextMatch_eq {c : Forward} (ready : c.Ready d hay) :
    nextMatch d hay c = some (d.nextMatch hay c) := by
  fun_induction Needle.nextMatch d hay c with
  | case1 c verdict => rw [nextMatch, tryForward_eq ready, verdict]
  | case2 c after verdict ih =>
    have ready' := (Needle.ready_of_moved ready verdict).1
    have moved := Needle.tryForward_moved verdict
    rw [nextMatch, tryForward_eq ready, verdict]
    exact (if_pos ⟨moved.1, ready'.position_le⟩).trans (ih ready')
  | case3 c after verdict => rw [nextMatch, tryForward_eq ready, verdict]

theorem next_eq {c : Forward} (ready : c.Ready d hay) : next d hay c = some (d.next hay c) := by
  rw [next, tryForward_eq ready, Needle.next]
  simp only [Option.bind_eq_bind, Option.bind_some]
  cases verdict : d.tryForward hay c with
  | outOfRoom => rfl
  | moved after =>
    have ready' := (Needle.ready_of_moved ready verdict).1
    have moved := Needle.tryForward_moved verdict
    simp only [if_pos moved.1, minus_of_le ready'.position_le, Option.bind_some]
  | hit after => rfl

theorem nextMatchBack_eq {c : Backward} (ready : c.Ready d hay) :
    nextMatchBack d hay c = some (d.nextMatchBack hay c) := by
  fun_induction Needle.nextMatchBack d hay c with
  | case1 c verdict => rw [nextMatchBack, tryBackward_eq ready, verdict]
  | case2 c after verdict ih =>
    have ready' := (Needle.readyBack_of_moved ready verdict).1
    rw [nextMatchBack, tryBackward_eq ready, verdict]
    exact (if_pos (Needle.tryBackward_moved verdict)).trans (ih ready')
  | case3 c after verdict => rw [nextMatchBack, tryBackward_eq ready, verdict]

theorem nextBack_eq {c : Backward} (ready : c.Ready d hay) :
    nextBack d hay c = some (d.nextBack hay c) := by
  rw [nextBack, tryBackward_eq ready, Needle.nextBack]
  simp only [Option.bind_eq_bind, Option.bind_some]
  cases verdict : d.tryBackward hay c with
  | outOfRoom => rfl
  | moved after => exact if_pos (Needle.tryBackward_moved verdict)
  | hit after => rfl

theorem call_eq {s : Scan} (ready : s.Ready d hay) (k : Call) : call k s = some (k.stream.next s) := by
  obtain ⟨rfl, rfl, forward, backward⟩ := ready
  cases k with
  | steps => exact congrArg (Option.map _) (next_eq forward)
  | hits => exact congrArg (Option.map _) (nextMatch_eq forward)
  | stepsBack => exact congrArg (Option.map _) (nextBack_eq backward)
  | hitsBack => exact congrArg (Option.map _) (nextMatchBack_eq backward)

end Calls
end Fenced
end TwoWay
end TextSearch
