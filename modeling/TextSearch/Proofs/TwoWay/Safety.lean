import Mathlib.Logic.Relation
import TextSearch.Proofs.TwoWay.Fence

/-!
The cursors of a scan, after every round of every loop: they stay inside the haystack, move in one
direction only, remember no more than the needle has, and once a direction is done it stays so.
-/
namespace TextSearch
namespace TwoWay
open Text

namespace Needle
variable {d : Needle} {hay : Text}

def Remembers (d : Needle) (memory : Option Nat) : Prop :=
  match d.factors.periodicity with
  | .short => ∃ m, memory = some m ∧ m ≤ d.text.size
  | .long => memory = none

theorem remembers_of_le {m : Nat} (le : m ≤ d.text.size) : d.Remembers (d.remember m) := by
  unfold Remembers remember
  cases d.factors.periodicity with
  | short => exact ⟨m, rfl, le⟩
  | long => rfl

/-- The cursors from which a call looks for the next match: its own, and those that one failed
    alignment after another has left. -/
def Passes (d : Needle) (hay : Text) : Forward → Forward → Prop :=
  Relation.ReflTransGen fun c after => d.tryForward hay c = .moved after

def PassesBack (d : Needle) (hay : Text) : Backward → Backward → Prop :=
  Relation.ReflTransGen fun c after => d.tryBackward hay c = .moved after

theorem ready_of_passes {c c' : Forward} (passes : d.Passes hay c c') (ready : c.Ready d hay) :
    c'.Ready d hay ∧ c.position ≤ c'.position := by
  induction passes with
  | refl => exact ⟨ready, Nat.le_refl _⟩
  | tail _ moved ih =>
    have further := tryForward_moved moved
    exact ⟨(ready_of_moved ih.1 moved).1, by omega⟩

theorem readyBack_of_passesBack {c c' : Backward} (passes : d.PassesBack hay c c')
    (ready : c.Ready d hay) : c'.Ready d hay ∧ c'.stop ≤ c.stop := by
  induction passes with
  | refl => exact ⟨ready, Nat.le_refl _⟩
  | tail _ moved ih =>
    have further := tryBackward_moved moved
    exact ⟨(readyBack_of_moved ih.1 moved).1, by omega⟩

end Needle

theorem Forward.Ready.remembers {d : Needle} {hay : Text} {c : Forward} (ready : c.Ready d hay) :
    d.Remembers c.memory := by
  rcases ready.memory with memory | memory <;> rw [memory] <;>
    exact Needle.remembers_of_le (by omega)

theorem Backward.Ready.remembers {d : Needle} {hay : Text} {c : Backward} (ready : c.Ready d hay) :
    d.Remembers c.memory := by
  have period := d.period_le_size
  rcases ready.memory with memory | memory <;> rw [memory] <;>
    exact Needle.remembers_of_le (by omega)

section Exhaustion
variable {needle hay : Text} {p q : Nat} {answer : Option Step}

theorem firstMatch_ended (jump : FirstMatch needle hay p none q) : q = hay.size := by
  rcases jump with ⟨i, no, _⟩ | ⟨_, ended, _⟩
  · cases no
  · exact ended

theorem lastMatch_ended (jump : LastMatch needle hay q none p) : p = 0 := by
  rcases jump with ⟨i, no, _⟩ | ⟨_, ended, _⟩
  · cases no
  · exact ended

theorem firstMatch_at_end (nonempty : 0 < needle.size)
    (jump : FirstMatch needle hay hay.size answer q) : answer = none ∧ q = hay.size := by
  rcases jump with ⟨i, _, _, first⟩ | ⟨no, ended, _⟩
  · have after := first.1
    have fits := first.2.1.1
    omega
  · exact ⟨no, ended⟩

theorem lastMatch_at_start (nonempty : 0 < needle.size)
    (jump : LastMatch needle hay 0 answer p) : answer = none ∧ p = 0 := by
  rcases jump with ⟨i, _, _, last⟩ | ⟨no, ended, _⟩
  · have before := last.1
    omega
  · exact ⟨no, ended⟩

end Exhaustion

namespace Scan
variable {d : Needle} {hay : Text} {s : Scan}

def Exhausted (hay : Text) (forward : Bool) (s : Scan) : Prop :=
  if forward then s.forward.position = hay.size else s.backward.stop = 0

theorem exhausted_of_none (ready : s.Ready d hay) (k : Call) (none_left : (k.stream.next s).1 = none) :
    (k.stream.next s).2.Exhausted hay k.isForward := by
  cases k with
  | steps => exact ((steps_sweep d hay).ended ready none_left).2
  | hits =>
    have jump := hits_cases ready
    rw [show (hits.next s).1 = none from none_left] at jump
    exact firstMatch_ended jump
  | stepsBack => exact ((stepsBack_sweep d hay).ended ready none_left).2
  | hitsBack =>
    have jump := hitsBack_cases ready
    rw [show (hitsBack.next s).1 = none from none_left] at jump
    exact lastMatch_ended jump

theorem call_exhausted {forward : Bool} (ready : s.Ready d hay) (done : s.Exhausted hay forward)
    (k : Call) :
    (k.isForward = forward → (k.stream.next s).1 = none) ∧
      (k.stream.next s).2.Exhausted hay forward := by
  cases forward with
  | true =>
    have done : s.forward.position = hay.size := done
    cases k with
    | steps =>
      have none_left := ((steps_sweep d hay).none_iff ready).mpr done
      exact ⟨fun _ => none_left, exhausted_of_none ready .steps none_left⟩
    | hits =>
      have jump := hits_cases ready
      rw [done] at jump
      obtain ⟨none_left, ended⟩ := firstMatch_at_end d.nonempty jump
      exact ⟨fun _ => none_left, ended⟩
    | stepsBack => exact ⟨nofun, done⟩
    | hitsBack => exact ⟨nofun, done⟩
  | false =>
    have done : s.backward.stop = 0 := done
    cases k with
    | steps => exact ⟨nofun, done⟩
    | hits => exact ⟨nofun, done⟩
    | stepsBack =>
      have none_left := ((stepsBack_sweep d hay).none_iff ready).mpr done
      exact ⟨fun _ => none_left, exhausted_of_none ready .stepsBack none_left⟩
    | hitsBack =>
      have jump := hitsBack_cases ready
      rw [done] at jump
      obtain ⟨none_left, ended⟩ := lastMatch_at_start d.nonempty jump
      exact ⟨fun _ => none_left, ended⟩

theorem answers_of_exhausted {forward : Bool} (ready : s.Ready d hay)
    (done : s.Exhausted hay forward) (later : List Call) :
    ∀ a ∈ FiniteStream.answers Call.stream later s, a.1.isForward = forward → a.2 = none := by
  refine FiniteStream.answers_keep (P := fun s : Scan => s.Ready d hay ∧ s.Exhausted hay forward)
    (Q := fun k answer => k.isForward = forward → answer = none) ?_ later ⟨ready, done⟩
  intro k s held
  obtain ⟨told, left⟩ := call_exhausted held.1 held.2 k
  exact ⟨told, call_ready k s held.1, left⟩

theorem cursors_move (ready : s.Ready d hay) (k : Call) :
    s.forward.position ≤ (k.stream.next s).2.forward.position ∧
      (k.stream.next s).2.backward.stop ≤ s.backward.stop := by
  have inside' := (call_ready k s ready).forward.position_le
  obtain ⟨rfl, rfl, forward, _⟩ := ready
  have inside := forward.position_le
  have spent : k.stream.remaining (k.stream.next s).2 ≤ k.stream.remaining s :=
    Nat.le_trans (Nat.le_add_left _ _) (k.stream.spends s)
  cases k with
  | steps | hits =>
    have left : s.haystack.size - _ ≤ s.haystack.size - s.forward.position := spent
    exact ⟨by omega, Nat.le_refl _⟩
  | stepsBack | hitsBack => exact ⟨Nat.le_refl _, spent⟩

end Scan

/-- The factorization and, after any calls, each further call are computed without a byte asked for
    beside needle or haystack, a difference below zero, a cursor past the end of the haystack, or a
    round of a loop that leaves its cursor in place. After every round the cursor is inside the
    haystack and has not gone back, and what is remembered fits the needle; no call moves a cursor
    back; and a direction that has answered `none` once answers nothing else, whatever is asked in
    between. As no number exceeds the size of a text, words that hold the sizes hold all of them. -/
theorem engine_safe (d : Needle) (hay : Text) (calls : List Call) :
    let s := Scan.reach d hay calls
    Fenced.factorization d.text = some d.factors ∧
    (∀ k : Call, Fenced.call k s = some (k.stream.next s)) ∧
    (∀ c, d.Passes hay s.forward c →
      s.forward.position ≤ c.position ∧ c.position ≤ hay.size ∧ d.Remembers c.memory ∧
      ∀ after, d.tryForward hay c = .moved after → c.position < after.position) ∧
    (∀ c, d.PassesBack hay s.backward c →
      c.stop ≤ s.backward.stop ∧ c.stop ≤ hay.size ∧ d.Remembers c.memory ∧
      ∀ after, d.tryBackward hay c = .moved after → after.stop < c.stop) ∧
    (∀ k : Call, s.forward.position ≤ (k.stream.next s).2.forward.position ∧
      (k.stream.next s).2.backward.stop ≤ s.backward.stop) ∧
    (∀ k : Call, (k.stream.next s).1 = none → ∀ later,
      ∀ a ∈ FiniteStream.answers Call.stream later (k.stream.next s).2,
        a.1.isForward = k.isForward → a.2 = none) := by
  intro s
  have ready : s.Ready d hay := Scan.reach_ready d hay calls
  have factors := Fenced.factorization_eq d.nonempty
  rw [← d.factors_eq] at factors
  refine ⟨factors, Fenced.call_eq ready, ?_, ?_, Scan.cursors_move ready, ?_⟩
  · intro c passes
    obtain ⟨ready', further⟩ := Needle.ready_of_passes passes ready.forward
    exact ⟨further, ready'.position_le, ready'.remembers,
      fun after moved => (Needle.tryForward_moved moved).1⟩
  · intro c passes
    obtain ⟨ready', further⟩ := Needle.readyBack_of_passesBack passes ready.backward
    exact ⟨further, ready'.stop_le, ready'.remembers,
      fun after moved => Needle.tryBackward_moved moved⟩
  · intro k none_left
    exact Scan.answers_of_exhausted (Scan.call_ready k s ready)
      (Scan.exhausted_of_none ready k none_left)

end TwoWay
end TextSearch
