import TextSearch.Proofs.Text.Sweep
import TextSearch.Proofs.TwoWay.Forward
import TextSearch.Proofs.TwoWay.Backward

/-!
A scan driven by any sequence of calls: both cursors stay ready, and each of the four calls answers
what the bytes between its cursor and the end of the haystack say.
-/
namespace TextSearch
namespace TwoWay
open Text

inductive Call where
  | steps
  | hits
  | stepsBack
  | hitsBack
  deriving DecidableEq, Repr

namespace Call

def stream : Call → FiniteStream Scan Step
  | steps => Scan.steps
  | hits => Scan.hits
  | stepsBack => Scan.stepsBack
  | hitsBack => Scan.hitsBack

def isForward : Call → Bool
  | steps => true
  | hits => true
  | stepsBack => false
  | hitsBack => false

def foundBy (forward : Bool) (k : Call) (answer : Option Step) : Option Nat :=
  if k.isForward = forward then answer.bind Step.foundAt? else none

end Call

namespace Scan

def reach (d : Needle) (hay : Text) (calls : List Call) : Scan :=
  FiniteStream.after Call.stream calls (Scan.start d hay)

structure Ready (d : Needle) (hay : Text) (s : Scan) : Prop where
  haystack : s.haystack = hay
  needle : s.needle = d
  forward : s.forward.Ready d hay
  backward : s.backward.Ready d hay

variable {d : Needle} {hay : Text} {s : Scan}

theorem start_ready (d : Needle) (hay : Text) : (Scan.start d hay).Ready d hay where
  haystack := rfl
  needle := rfl
  forward := Forward.ready_fresh d (Nat.zero_le _)
  backward := Backward.ready_fresh d (Nat.le_refl _)

theorem call_ready (k : Call) (s : Scan) (ready : s.Ready d hay) :
    (k.stream.next s).2.Ready d hay := by
  obtain ⟨rfl, rfl, forward, backward⟩ := ready
  cases k with
  | steps => exact ⟨rfl, rfl, (Needle.next_cases forward).1, backward⟩
  | hits => exact ⟨rfl, rfl, (Needle.nextMatch_cases forward).1, backward⟩
  | stepsBack => exact ⟨rfl, rfl, forward, (Needle.nextBack_cases backward).1⟩
  | hitsBack => exact ⟨rfl, rfl, forward, (Needle.nextMatchBack_cases backward).1⟩

theorem reach_ready (d : Needle) (hay : Text) (calls : List Call) :
    (reach d hay calls).Ready d hay :=
  FiniteStream.after_keeps call_ready calls (start_ready d hay)

theorem hits_cases (ready : s.Ready d hay) :
    FirstMatch d.text hay s.forward.position (hits.next s).1
      (hits.next s).2.forward.position := by
  obtain ⟨rfl, rfl, forward, _⟩ := ready
  exact (Needle.nextMatch_cases forward).2

theorem hitsBack_cases (ready : s.Ready d hay) :
    LastMatch d.text hay s.backward.stop (hitsBack.next s).1
      (hitsBack.next s).2.backward.stop := by
  obtain ⟨rfl, rfl, _, backward⟩ := ready
  exact (Needle.nextMatchBack_cases backward).2

theorem hits_jumps (d : Needle) (hay : Text) :
    Jumps d.text hay hits (Ready d hay) (fun s => s.forward.position) where
  inside _ ready := ready.forward.position_le
  keeps := call_ready .hits
  outcome _ := hits_cases

theorem hitsBack_jumps (d : Needle) (hay : Text) :
    JumpsBack d.text hay hitsBack (Ready d hay) (fun s => s.backward.stop) where
  keeps := call_ready .hitsBack
  outcome _ := hitsBack_cases

theorem toList_hits (d : Needle) (hay : Text) : hits.toList (start d hay) =
    (Text.occurrences d.text hay).map fun i => .found i (i + d.text.size) :=
  (hits_jumps d hay).toList d.nonempty (start_ready d hay)

theorem toList_hitsBack (d : Needle) (hay : Text) : hitsBack.toList (start d hay) =
    (occurrencesBefore d.text hay hay.size).map fun i => .found i (i + d.text.size) :=
  (hitsBack_jumps d hay).toList d.nonempty (start_ready d hay)

theorem steps_sweep (d : Needle) (hay : Text) :
    Sweeps d.text hay steps (Ready d hay) (fun s => s.forward.position) where
  inside s ready := ready.forward.position_le
  keeps := call_ready .steps
  outcome s ready := by
    obtain ⟨rfl, rfl, forward, _⟩ := ready
    rcases (Needle.next_cases forward).2 with ended | ⟨answer, position, occurs⟩ |
      ⟨q, answer, position, advances, none_starts, _⟩
    · exact Or.inl ended
    · refine Or.inr ⟨_, answer, ?_⟩
      simp only [steps, position]
      exact forwardStep_found s.needle.nonempty occurs
    · refine Or.inr ⟨_, answer, ?_⟩
      simp only [steps, position]
      exact forwardStep_rejected advances none_starts

theorem stepsBack_sweep (d : Needle) (hay : Text) :
    SweepsBack d.text hay stepsBack (Ready d hay) (fun s => s.backward.stop) where
  keeps := call_ready .stepsBack
  outcome s ready := by
    obtain ⟨rfl, rfl, _, backward⟩ := ready
    rcases (Needle.nextBack_cases backward).2 with ended | ⟨i, answer, stop, ends, occurs⟩ |
      ⟨q, answer, stop, advances, none_ends, _⟩
    · exact Or.inl ended
    · refine Or.inr ⟨_, answer, ?_⟩
      simp only [stepsBack, stop]
      exact backwardStep_found s.needle.nonempty ends occurs
    · refine Or.inr ⟨_, answer, ?_⟩
      simp only [stepsBack, stop]
      exact backwardStep_rejected advances none_ends

end Scan
end TwoWay
end TextSearch
