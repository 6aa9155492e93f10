import Mathlib.Data.List.Induction
import Mathlib.Data.List.Infix
import TextSearch.Proofs.Interleaving

/-!
A list as a deque: elements leave it at the front or at the back. Whatever the order, those taken at
the front, those still there and those taken at the back are the list.
-/
namespace TextSearch
namespace Deque
variable {α κ : Type}

def front : FiniteStream (List α) α where
  next l := (l.head?, l.tail)
  remaining := List.length
  spends l := by cases l <;> simp [Nat.add_comm]

def back : FiniteStream (List α) α where
  next l := (l.getLast?, l.dropLast)
  remaining := List.length
  spends l := by
    rcases List.eq_nil_or_concat l with rfl | ⟨rest, x, rfl⟩ <;> simp [Nat.add_comm]

theorem toList_front (l : List α) : front.toList l = l := by
  induction l with
  | nil => exact FiniteStream.toList_of_none rfl
  | cons x rest ih =>
    have next : front.next (x :: rest) = (some x, rest) := rfl
    rw [FiniteStream.toList_of_some next, ih]

theorem back_concat (rest : List α) (x : α) : back.next (rest ++ [x]) = (some x, rest) :=
  Prod.ext List.getLast?_concat List.dropLast_concat

theorem toList_back (l : List α) : back.toList l = l.reverse := by
  induction l using List.reverseRecOn with
  | nil => exact FiniteStream.toList_of_none rfl
  | append_singleton rest x ih =>
    rw [FiniteStream.toList_of_some (back_concat rest x), ih, List.reverse_concat]

section Members
variable {Q : α → Prop}

theorem front_yields : FiniteStream.Yields (fun l => ∀ x ∈ l, Q x) Q front.next := by
  intro l all
  constructor
  · intro x first
    exact all x (List.mem_of_head? first)
  · intro x member
    exact all x (List.mem_of_mem_tail member)

theorem back_yields : FiniteStream.Yields (fun l => ∀ x ∈ l, Q x) Q back.next := by
  intro l all
  constructor
  · intro x last
    exact all x (List.mem_of_getLast? last)
  · intro x member
    exact all x (List.mem_of_mem_dropLast member)

end Members

theorem front_filter (p : α → Bool) :
    FiniteStream.Simulates (fun l kept => l.filter p = kept) (front.filter p) front := by
  rintro l _ rfl
  show (front.findNext p l).1 = _ ∧ (front.findNext p l).2.filter p = _
  induction l with
  | nil =>
    rw [FiniteStream.findNext_of_none p rfl]
    exact ⟨rfl, rfl⟩
  | cons x rest ih =>
    rw [FiniteStream.findNext_of_some p rfl]
    by_cases holds : p x = true
    · rw [if_pos holds, List.filter_cons_of_pos holds]
      exact ⟨rfl, rfl⟩
    · rw [if_neg holds, List.filter_cons_of_neg holds]
      exact ih

theorem back_filter (p : α → Bool) :
    FiniteStream.Simulates (fun l kept => l.filter p = kept) (back.filter p) back := by
  rintro l _ rfl
  show (back.findNext p l).1 = _ ∧ (back.findNext p l).2.filter p = _
  induction l using List.reverseRecOn with
  | nil =>
    rw [FiniteStream.findNext_of_none p rfl]
    exact ⟨rfl, rfl⟩
  | append_singleton rest x ih =>
    rw [FiniteStream.findNext_of_some p (back_concat rest x), List.filter_append]
    by_cases holds : p x = true
    · rw [if_pos holds, List.filter_cons_of_pos holds, List.filter_nil, back_concat]
      exact ⟨rfl, rfl⟩
    · rw [if_neg holds, List.filter_cons_of_neg holds, List.filter_nil, List.append_nil]
      exact ih

theorem taken_apart {stream : κ → FiniteStream (List α) α} (side : κ → Bool) (calls : List κ)
    (ends : ∀ k ∈ calls, stream k = if side k then front else back) (l : List α) :
    (FiniteStream.answers stream calls l).filterMap (fun a => if side a.1 then a.2 else none) ++
        FiniteStream.after stream calls l ++
        ((FiniteStream.answers stream calls l).filterMap
          fun a => if side a.1 then none else a.2).reverse = l := by
  induction calls generalizing l with
  | nil => simp [FiniteStream.answers, FiniteStream.after]
  | cons k calls ih =>
    obtain ⟨here, later⟩ := List.forall_mem_cons.mp ends
    have rest := ih later ((stream k).next l).2
    simp only [FiniteStream.answers, FiniteStream.after, List.filterMap_cons]
    cases forward : side k with
    | true =>
      rw [forward, if_pos rfl] at here
      cases l with
      | nil => simpa [here, front] using rest
      | cons x l => simpa [here, front] using rest
    | false =>
      rw [forward, if_neg Bool.false_ne_true] at here
      rcases List.eq_nil_or_concat l with rfl | ⟨l, x, rfl⟩
      · simpa [here, back] using rest
      · rw [here, List.concat_eq_append, back_concat] at rest ⊢
        simpa [← List.append_assoc] using rest

/-- Two streams over one state take apart, from both ends, the list that the state stands for. -/
structure Behaves {σ : Type} (R : σ → List α → Prop) (forward backward : FiniteStream σ α) :
    Prop where
  front : FiniteStream.Simulates R forward front
  back : FiniteStream.Simulates R backward back

namespace Behaves
variable {σ β : Type} {R : σ → List α → Prop} {forward backward : FiniteStream σ α}
  (both : Behaves R forward backward)
include both

theorem filter (p : α → Bool) :
    Behaves (fun s kept => ∃ l, R s l ∧ l.filter p = kept) (forward.filter p)
      (backward.filter p) where
  front := (both.front.filter p).trans (front_filter p)
  back := (both.back.filter p).trans (back_filter p)

theorem map {f : σ → α → β} {g : α → β} (same : ∀ s l, R s l → ∀ x, f s x = g x) :
    Behaves (fun s turned => ∃ l, R s l ∧ l.map g = turned) (forward.map f) (backward.map f) where
  front := by
    rintro s _ ⟨l, holds, rfl⟩
    obtain ⟨answer, left⟩ := both.front s l holds
    refine ⟨?_, _, left, List.map_tail⟩
    show (forward.next s).1.map (f s) = (l.map g).head?
    rw [answer, funext (same s l holds), List.head?_map]
    rfl
  back := by
    rintro s _ ⟨l, holds, rfl⟩
    obtain ⟨answer, left⟩ := both.back s l holds
    refine ⟨?_, _, left, List.map_dropLast⟩
    show (backward.next s).1.map (f s) = (l.map g).getLast?
    rw [answer, funext (same s l holds), List.getLast?_map]
    rfl

theorem reverse : Behaves (fun s l => R s l.reverse) backward forward where
  front := by
    intro s l holds
    obtain ⟨answer, left⟩ := both.back s _ holds
    have rest : (Deque.back.next l.reverse).2 = (Deque.front.next l).2.reverse :=
      List.dropLast_reverse
    rw [rest] at left
    exact ⟨answer.trans List.getLast?_reverse, left⟩
  back := by
    intro s l holds
    obtain ⟨answer, left⟩ := both.front s _ holds
    have rest : (Deque.front.next l.reverse).2 = (Deque.back.next l).2.reverse := List.tail_reverse
    rw [rest] at left
    exact ⟨answer.trans List.head?_reverse, left⟩

theorem toList {s : σ} {l : List α} (holds : R s l) :
    forward.toList s = l ∧ backward.toList s = l.reverse :=
  ⟨(both.front.toList holds).trans (toList_front l), (both.back.toList holds).trans (toList_back l)⟩

end Behaves
end Deque
end TextSearch
