import TextSearch.Searcher.Substring
import TextSearch.Proofs.Utf8.Boundary
import TextSearch.Proofs.TwoWay.Reach

/-!
Widening a rejected stretch moves a cursor behind the back of the scan. It skips no occurrence, since
these begin and end at boundaries, and it never moves a cursor that remembers anything, since what is
remembered of a well-formed needle also begins and ends at them.
-/
namespace TextSearch
namespace TwoWay
open Text Utf8
variable {d : Needle} {hay : Text}

section Cursors
variable (wellFormedNeedle : wellFormed d.text = true)
include wellFormedNeedle

theorem Forward.Ready.boundary_of_memory {c : Forward} (ready : c.Ready d hay)
    (room : c.position + d.text.size ≤ hay.size) (remembers : 0 < c.memory.getD 0) :
    isBoundary hay c.position = true := by
  have size := d.nonempty
  have byte := ready.known room 0 remembers
  rw [Nat.add_zero] at byte
  refine isBoundary_iff.mpr (Or.inr (Or.inr ⟨by omega, ?_⟩))
  rw [← byte]
  exact first_byte_begins wellFormedNeedle size

theorem Backward.Ready.boundary_of_memory {c : Backward} (wellFormedHay : wellFormed hay = true)
    (ready : c.Ready d hay) (room : d.text.size ≤ c.stop)
    (remembers : c.memory.getD d.text.size < d.text.size) : isBoundary hay c.stop = true := by
  have inside := ready.stop_le
  have known := ready.known room
  rcases ready.memory with memory | memory
  · rw [memory, d.remember_getD] at remembers
    split at remembers <;> omega
  · rw [memory, d.remember_getD] at remembers known
    cases kind : d.factors.periodicity with
    | long =>
      simp only [kind] at remembers
      omega
    | short =>
      simp only [kind] at remembers known
      have recurs := d.sound.periodic kind 0 (Nat.zero_le 0) (by omega)
      rw [Nat.zero_add] at recurs
      have begins : isContinuation (d.text.byteAt d.factors.period) = false := by
        rw [← recurs]
        exact first_byte_begins wellFormedNeedle d.nonempty
      have ends :=
        boundary_behind_tail wellFormedNeedle wellFormedHay remembers begins (by omega) known
      rwa [Nat.sub_add_cancel room] at ends

theorem Forward.Ready.widened {c : Forward} (ready : c.Ready d hay)
    (reach : c.position = hay.size ∨ c.position + d.text.size ≤ hay.size) :
    Forward.Ready d hay { c with position := ceilBoundary hay c.position } := by
  by_cases boundary : isBoundary hay c.position = true
  · rw [ceilBoundary_of_boundary boundary]
    exact ready
  · -- inside a character the cursor remembers nothing, so there is nothing that moving it could spoil
    have room : c.position + d.text.size ≤ hay.size := by
      rcases reach with last | room
      · exact absurd (last ▸ isBoundary_end) boundary
      · exact room
    have forgets : c.memory.getD 0 = 0 := by
      apply Nat.eq_zero_of_not_pos
      intro remembers
      exact boundary (ready.boundary_of_memory wellFormedNeedle room remembers)
    exact {
      position_le := isBoundary_le (isBoundary_ceilBoundary ready.position_le)
      memory := ready.memory
      known := by
        intro _ k hk
        dsimp only at hk
        omega }

theorem Backward.Ready.widened {c : Backward} (wellFormedHay : wellFormed hay = true)
    (ready : c.Ready d hay) (reach : c.stop = 0 ∨ d.text.size ≤ c.stop) :
    Backward.Ready d hay { c with stop := floorBoundary hay c.stop } := by
  by_cases boundary : isBoundary hay c.stop = true
  · rw [floorBoundary_of_boundary boundary]
    exact ready
  · have room : d.text.size ≤ c.stop := by
      rcases reach with first | room
      · exact absurd (first ▸ isBoundary_start) boundary
      · exact room
    have forgets : d.text.size ≤ c.memory.getD d.text.size := by
      apply Nat.le_of_not_lt
      intro remembers
      exact boundary (ready.boundary_of_memory wellFormedNeedle wellFormedHay room remembers)
    exact {
      stop_le := Nat.le_trans (floorBoundary_le hay c.stop) ready.stop_le
      memory := ready.memory
      known := by
        intro _ k hk inside
        dsimp only at hk
        omega }

theorem noneStarts_widened (q : Nat) : NoneStarts d.text hay q (ceilBoundary hay q) := by
  intro k after before occurs
  have boundary := boundary_before wellFormedNeedle d.nonempty occurs
  have least := ceilBoundary_least boundary after
  omega

theorem noneEnds_widened (wellFormedHay : wellFormed hay = true) (q : Nat) :
    NoneEnds d.text hay (floorBoundary hay q) q := by
  intro k after upto occurs
  have boundary := boundary_behind wellFormedNeedle d.nonempty wellFormedHay occurs
  have greatest := floorBoundary_greatest boundary upto
  omega

end Cursors

namespace Scan
variable {s : Scan}

structure Aligned (d : Needle) (hay : Text) (s : Scan) : Prop extends s.Ready d hay where
  front : isBoundary hay s.forward.position = true
  back : isBoundary hay s.backward.stop = true

theorem start_aligned (d : Needle) (hay : Text) : (Scan.start d hay).Aligned d hay where
  toReady := start_ready d hay
  front := isBoundary_start
  back := isBoundary_end

theorem widen_of_other {answer : Option Step × Scan}
    (other : ∀ p q, answer.1 ≠ some (.rejected p q)) : widen answer = answer := by
  unfold widen
  split
  next => exact absurd rfl (other _ _)
  next => rfl

theorem widenBack_of_other {answer : Option Step × Scan}
    (other : ∀ p q, answer.1 ≠ some (.rejected p q)) : widenBack answer = answer := by
  unfold widenBack
  split
  next => exact absurd rfl (other _ _)
  next => rfl

theorem wideSteps_of_rejected {p q : Nat} (inside : q ≤ s.haystack.size)
    (answer : (steps.next s).1 = some (.rejected p q))
    (position : (steps.next s).2.forward.position = q) :
    wideSteps.next s = (some (.rejected p (ceilBoundary s.haystack q)),
      (steps.next s).2.moveForward (ceilBoundary s.haystack q)) := by
  have le := le_ceilBoundary s.haystack q inside
  have same : (steps.next s).2.haystack = s.haystack := rfl
  rcases given : steps.next s with ⟨a, t⟩
  rw [given] at answer position same
  cases answer
  simp only [wideSteps, given, widen]
  rw [position, same, Nat.max_eq_right le]

theorem wideStepsBack_of_rejected {p q : Nat}
    (answer : (stepsBack.next s).1 = some (.rejected p q))
    (stop : (stepsBack.next s).2.backward.stop = p) :
    wideStepsBack.next s = (some (.rejected (floorBoundary s.haystack p) q),
      (stepsBack.next s).2.moveBackward (floorBoundary s.haystack p)) := by
  have le := floorBoundary_le s.haystack p
  have same : (stepsBack.next s).2.haystack = s.haystack := rfl
  rcases given : stepsBack.next s with ⟨a, t⟩
  rw [given] at answer stop same
  cases answer
  simp only [wideStepsBack, given, widenBack]
  rw [stop, same, Nat.min_eq_right le]

theorem wideSteps_backward (s : Scan) : (wideSteps.next s).2.backward = s.backward := by
  have same : (steps.next s).2.backward = s.backward := rfl
  simp only [wideSteps, widen]
  split
  next given =>
    rw [given] at same
    exact same
  next => exact same

theorem wideStepsBack_forward (s : Scan) : (wideStepsBack.next s).2.forward = s.forward := by
  have same : (stepsBack.next s).2.forward = s.forward := rfl
  simp only [wideStepsBack, widenBack]
  split
  next given =>
    rw [given] at same
    exact same
  next => exact same

variable (wellFormedHay : wellFormed hay = true) (wellFormedNeedle : wellFormed d.text = true)

section Memory
include wellFormedNeedle

theorem wideSteps_of_memory (ready : s.Ready d hay)
    (remembers : 0 < (steps.next s).2.forward.memory.getD 0) :
    wideSteps.next s = steps.next s := by
  obtain ⟨rfl, rfl, forward, _⟩ := ready
  obtain ⟨forward', outcome⟩ := Needle.next_cases forward
  rcases outcome with ⟨answer, _⟩ | ⟨answer, _⟩ | ⟨q, answer, position, _, _, reach⟩
  · exact widen_of_other (by simp [steps, answer])
  · exact widen_of_other (by simp [steps, answer])
  · have boundary : isBoundary s.haystack q = true := by
      rcases reach with last | room
      · exact last ▸ isBoundary_end
      · rw [← position] at room ⊢
        exact forward'.boundary_of_memory wellFormedNeedle room remembers
    rw [wideSteps_of_rejected (isBoundary_le boundary) answer position,
      ceilBoundary_of_boundary boundary]
    subst position
    exact Prod.ext answer.symm rfl

include wellFormedHay in
theorem wideStepsBack_of_memory (ready : s.Ready d hay)
    (remembers : (stepsBack.next s).2.backward.memory.getD d.text.size < d.text.size) :
    wideStepsBack.next s = stepsBack.next s := by
  obtain ⟨rfl, rfl, _, backward⟩ := ready
  obtain ⟨backward', outcome⟩ := Needle.nextBack_cases backward
  rcases outcome with ⟨answer, _⟩ | ⟨_, answer, _⟩ | ⟨q, answer, stop, _, _, reach⟩
  · exact widenBack_of_other (by simp [stepsBack, answer])
  · exact widenBack_of_other (by simp [stepsBack, answer])
  · have boundary : isBoundary s.haystack q = true := by
      rcases reach with first | room
      · exact first ▸ isBoundary_start
      · rw [← stop] at room ⊢
        exact backward'.boundary_of_memory wellFormedNeedle wellFormedHay room remembers
    rw [wideStepsBack_of_rejected answer stop, floorBoundary_of_boundary boundary]
    subst stop
    exact Prod.ext answer.symm rfl

end Memory

include wellFormedHay wellFormedNeedle

theorem wideSteps_cases (aligned : s.Aligned d hay) :
    (wideSteps.next s).2.Aligned d hay ∧
      (((wideSteps.next s).1 = none ∧ s.forward.position = hay.size ∧
          (wideSteps.next s).2.forward.position = hay.size) ∨
        ∃ step, (wideSteps.next s).1 = some step ∧
          ForwardStep d.text hay s.forward.position (wideSteps.next s).2.forward.position step) := by
  have ready := call_ready .steps s aligned.toReady
  obtain ⟨⟨rfl, rfl, forward, backward⟩, _, back⟩ := aligned
  obtain ⟨forward', outcome⟩ := Needle.next_cases forward
  rcases outcome with ⟨answer, ended, position⟩ | ⟨answer, position, occurs⟩ |
    ⟨q, answer, position, advances, none_starts, reach⟩
  · have kept : wideSteps.next s = steps.next s := widen_of_other (by simp [steps, answer])
    rw [kept]
    exact ⟨⟨ready, isBoundary_iff.mpr (Or.inr (Or.inl position)), back⟩,
      Or.inl ⟨answer, ended, position⟩⟩
  · have kept : wideSteps.next s = steps.next s := widen_of_other (by simp [steps, answer])
    rw [kept]
    have boundary := boundary_behind wellFormedNeedle s.needle.nonempty wellFormedHay occurs
    have covers := forwardStep_found s.needle.nonempty occurs
    rw [← position] at boundary covers
    exact ⟨⟨ready, boundary, back⟩, Or.inr ⟨_, answer, position ▸ covers⟩⟩
  · have inside := forward'.position_le
    rw [position] at inside
    rw [wideSteps_of_rejected inside answer position]
    have le := le_ceilBoundary s.haystack q inside
    have widened := forward'.widened wellFormedNeedle (by rw [position]; exact reach)
    rw [position] at widened
    refine ⟨⟨⟨rfl, rfl, widened, backward⟩, isBoundary_ceilBoundary inside, back⟩,
      Or.inr ⟨_, rfl, ?_⟩⟩
    exact forwardStep_rejected (Nat.lt_of_lt_of_le advances le)
      (noneStarts_append none_starts (noneStarts_widened wellFormedNeedle q))

theorem wideStepsBack_cases (aligned : s.Aligned d hay) :
    (wideStepsBack.next s).2.Aligned d hay ∧
      (((wideStepsBack.next s).1 = none ∧ s.backward.stop = 0 ∧
          (wideStepsBack.next s).2.backward.stop = 0) ∨
        ∃ step, (wideStepsBack.next s).1 = some step ∧
          BackwardStep d.text hay (wideStepsBack.next s).2.backward.stop s.backward.stop step) := by
  have ready := call_ready .stepsBack s aligned.toReady
  obtain ⟨⟨rfl, rfl, forward, backward⟩, front, _⟩ := aligned
  obtain ⟨backward', outcome⟩ := Needle.nextBack_cases backward
  rcases outcome with ⟨answer, ended, stop⟩ | ⟨i, answer, stop, ends, occurs⟩ |
    ⟨q, answer, stop, advances, none_ends, reach⟩
  · have kept : wideStepsBack.next s = stepsBack.next s :=
      widenBack_of_other (by simp [stepsBack, answer])
    rw [kept]
    exact ⟨⟨ready, front, isBoundary_iff.mpr (Or.inl stop)⟩, Or.inl ⟨answer, ended, stop⟩⟩
  · have kept : wideStepsBack.next s = stepsBack.next s :=
      widenBack_of_other (by simp [stepsBack, answer])
    rw [kept]
    have boundary := boundary_before wellFormedNeedle s.needle.nonempty occurs
    have covers := backwardStep_found s.needle.nonempty ends occurs
    rw [← stop] at boundary
    exact ⟨⟨ready, front, boundary⟩, Or.inr ⟨_, answer, stop ▸ covers⟩⟩
  · rw [wideStepsBack_of_rejected answer stop]
    have le := floorBoundary_le s.haystack q
    have widened := backward'.widened wellFormedNeedle wellFormedHay (by rw [stop]; exact reach)
    rw [stop] at widened
    refine ⟨⟨⟨rfl, rfl, forward, widened⟩, front, isBoundary_floorBoundary _ q⟩,
      Or.inr ⟨_, rfl, ?_⟩⟩
    exact backwardStep_rejected (Nat.lt_of_le_of_lt le advances)
      (noneEnds_append (noneEnds_widened wellFormedNeedle wellFormedHay q) none_ends)

theorem hits_aligned (aligned : s.Aligned d hay) : (hits.next s).2.Aligned d hay := by
  have ready := call_ready .hits s aligned.toReady
  refine ⟨ready, ?_, aligned.back⟩
  rcases hits_cases aligned.toReady with ⟨i, _, position, _, occurs, _⟩ | ⟨_, position, _⟩
  · rw [position]
    exact boundary_behind wellFormedNeedle d.nonempty wellFormedHay occurs
  · rw [position]
    exact isBoundary_end

omit wellFormedHay in
theorem hitsBack_aligned (aligned : s.Aligned d hay) : (hitsBack.next s).2.Aligned d hay := by
  have ready := call_ready .hitsBack s aligned.toReady
  refine ⟨ready, aligned.front, ?_⟩
  rcases hitsBack_cases aligned.toReady with ⟨i, _, stop, _, occurs, _⟩ | ⟨_, stop, _⟩
  · rw [stop]
    exact boundary_before wellFormedNeedle d.nonempty occurs
  · rw [stop]
    exact isBoundary_start

end Scan
end TwoWay
end TextSearch
