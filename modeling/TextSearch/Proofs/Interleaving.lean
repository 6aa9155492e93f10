import TextSearch.FiniteStream

/-!
Streams over one state, asked in any order or one of them again and again. A law kept by every single
call holds after all of them; calls that leave a part of the state alone may be left out without
changing what the calls that use this part alone are told. One kind of state may stand for another: if
every single call answers the same over both, every sequence of calls does.
-/
namespace TextSearch
namespace FiniteStream
variable {κ σ τ α : Type}

def after (stream : κ → FiniteStream σ α) : List κ → σ → σ
  | [], s => s
  | k :: calls, s => after stream calls ((stream k).next s).2

def answers (stream : κ → FiniteStream σ α) : List κ → σ → List (κ × Option α)
  | [], _ => []
  | k :: calls, s => (k, ((stream k).next s).1) :: answers stream calls ((stream k).next s).2

variable {stream : κ → FiniteStream σ α}

theorem after_keeps {P : σ → Prop} (keeps : ∀ k s, P s → P ((stream k).next s).2)
    (calls : List κ) {s : σ} (start : P s) : P (after stream calls s) := by
  induction calls generalizing s with
  | nil => exact start
  | cons k calls ih => exact ih (keeps k s start)

theorem answers_keep {P : σ → Prop} {Q : κ → Option α → Prop}
    (keeps : ∀ k s, P s → Q k ((stream k).next s).1 ∧ P ((stream k).next s).2) (calls : List κ)
    {s : σ} (start : P s) : ∀ a ∈ answers stream calls s, Q a.1 a.2 := by
  induction calls generalizing s with
  | nil =>
    intro a none_left
    cases none_left
  | cons k calls ih =>
    obtain ⟨told, left⟩ := keeps k s start
    intro a member
    rcases List.mem_cons.mp member with rfl | later
    · exact told
    · exact ih left a later

section Repetition
variable {S : FiniteStream σ α} {P : σ → Prop} {Q : α → Prop} {s : σ}

theorem findNext_keeps {p : α → Bool} (keeps : ∀ s, P s → P (S.next s).2) (start : P s) :
    P (S.findNext p s).2 := by
  fun_induction findNext S p s with
  | case1 s t answer =>
    have kept := keeps s start
    rwa [answer] at kept
  | case2 s x t answer _ =>
    have kept := keeps s start
    rwa [answer] at kept
  | case3 s x t answer _ ih =>
    have kept := keeps s start
    rw [answer] at kept
    exact ih kept

/-- In states with `P` an answer has `Q`, and the state it leaves has `P` again. -/
def Yields (P : σ → Prop) (Q : α → Prop) (ask : σ → Option α × σ) : Prop :=
  ∀ s, P s → (∀ x, (ask s).1 = some x → Q x) ∧ P (ask s).2

namespace Yields

theorem of_refusal : ∀ x, (none : Option α) = some x → Q x := by
  intro x no
  cases no

theorem of_answer {x : α} (has : Q x) : ∀ y, some x = some y → Q y := by
  rintro _ ⟨⟩
  exact has

variable (yields : Yields P Q S.next)
include yields

theorem toList (start : P s) : ∀ x ∈ S.toList s, Q x := by
  fun_induction FiniteStream.toList S s with
  | case1 s t answer =>
    intro x none_left
    cases none_left
  | case2 s x t answer ih =>
    obtain ⟨told, kept⟩ := yields s start
    rw [answer] at told kept
    exact List.forall_mem_cons.mpr ⟨told x rfl, ih kept⟩

omit yields in
theorem mono {Q' : α → Prop} {ask : σ → Option α × σ} (yields : Yields P Q ask)
    (weaker : ∀ x, Q x → Q' x) : Yields P Q' ask := by
  intro s holds
  obtain ⟨told, left⟩ := yields s holds
  exact ⟨fun x answer => weaker x (told x answer), left⟩

theorem filter (p : α → Bool) : Yields P Q (S.filter p).next := by
  intro s holds
  refine ⟨?_, findNext_keeps (fun s holds => (yields s holds).2) holds⟩
  show ∀ x, (S.findNext p s).1 = some x → Q x
  fun_induction findNext S p s with
  | case1 s t answer => exact of_refusal
  | case2 s x t answer _ =>
    have told := (yields s holds).1
    rwa [answer] at told
  | case3 s x t answer _ ih =>
    have kept := (yields s holds).2
    rw [answer] at kept
    exact ih kept

theorem map {β : Type} {Q' : β → Prop} {f : σ → α → β}
    (turned : ∀ s x, P s → Q x → Q' (f s x)) : Yields P Q' (S.map f).next := by
  intro s holds
  obtain ⟨told, left⟩ := yields s holds
  refine ⟨?_, left⟩
  intro y answer
  obtain ⟨x, given, rfl⟩ := Option.map_eq_some_iff.mp answer
  exact turned s x holds (told x given)

end Yields
end Repetition

section Independence
variable (side : κ → Bool) (view : σ → τ)
  (own : ∀ k s t, side k = true → view s = view t →
    ((stream k).next s).1 = ((stream k).next t).1 ∧
      view ((stream k).next s).2 = view ((stream k).next t).2)
  (other : ∀ k s, side k = false → view ((stream k).next s).2 = view s)
include own other

theorem answers_of_side (calls : List κ) {s t : σ} (same : view s = view t) :
    (answers stream calls s).filter (fun a => side a.1) = answers stream (calls.filter side) t ∧
      view (after stream calls s) = view (after stream (calls.filter side) t) := by
  induction calls generalizing s t with
  | nil => exact ⟨rfl, same⟩
  | cons k calls ih =>
    by_cases mine : side k = true
    · obtain ⟨answer, left⟩ := own k s t mine same
      obtain ⟨later, final⟩ := ih left
      rw [List.filter_cons_of_pos mine]
      simp only [answers, after]
      rw [List.filter_cons_of_pos (by exact mine), later, answer]
      exact ⟨rfl, final⟩
    · have theirs : side k = false := by simpa using mine
      obtain ⟨later, final⟩ := ih ((other k s theirs).trans same)
      rw [List.filter_cons_of_neg mine]
      simp only [answers, after]
      rw [List.filter_cons_of_neg (by exact mine)]
      exact ⟨later, final⟩

end Independence

section Simulation
variable {S : FiniteStream σ α} {T : FiniteStream τ α} {R : σ → τ → Prop} {s s' : σ} {t : τ} {x : α}

theorem findNext_of_none (p : α → Bool) (h : S.next s = (none, s')) :
    S.findNext p s = (none, s') := by
  rw [findNext]
  split <;> simp_all

theorem findNext_of_some (p : α → Bool) (h : S.next s = (some x, s')) :
    S.findNext p s = if p x then (some x, s') else S.findNext p s' := by
  rw [findNext]
  split <;> simp_all

/-- In related states two streams answer the same, and they leave related states. -/
def Simulates (R : σ → τ → Prop) (S : FiniteStream σ α) (T : FiniteStream τ α) : Prop :=
  ∀ s t, R s t → (S.next s).1 = (T.next t).1 ∧ R (S.next s).2 (T.next t).2

theorem Simulates.filter (sim : Simulates R S T) (p : α → Bool) :
    Simulates R (S.filter p) (T.filter p) := by
  intro s t related
  show (S.findNext p s).1 = (T.findNext p t).1 ∧ R (S.findNext p s).2 (T.findNext p t).2
  fun_induction findNext S p s generalizing t with
  | case1 s s' answer =>
    obtain ⟨same, left⟩ := sim s t related
    rw [answer] at same left
    rw [findNext_of_none p (Prod.ext same.symm rfl)]
    exact ⟨rfl, left⟩
  | case2 s x s' answer passes =>
    obtain ⟨same, left⟩ := sim s t related
    rw [answer] at same left
    rw [findNext_of_some p (Prod.ext same.symm rfl), if_pos passes]
    exact ⟨rfl, left⟩
  | case3 s x s' answer fails ih =>
    obtain ⟨same, left⟩ := sim s t related
    rw [answer] at same left
    rw [findNext_of_some p (Prod.ext same.symm rfl), if_neg fails]
    exact ih _ left

theorem Simulates.trans {ρ : Type} {U : FiniteStream ρ α} {Q : τ → ρ → Prop}
    (first : Simulates R S T) (second : Simulates Q T U) :
    Simulates (fun s u => ∃ t, R s t ∧ Q t u) S U := by
  rintro s u ⟨t, related, also⟩
  obtain ⟨same, left⟩ := first s t related
  obtain ⟨same', left'⟩ := second t u also
  exact ⟨same.trans same', _, left, left'⟩

theorem Simulates.toList (sim : Simulates R S T) (related : R s t) : S.toList s = T.toList t := by
  fun_induction FiniteStream.toList S s generalizing t with
  | case1 s s' answer =>
    obtain ⟨same, left⟩ := sim s t related
    rw [answer] at same
    rw [toList_of_none (Prod.ext same.symm rfl)]
  | case2 s x s' answer ih =>
    obtain ⟨same, left⟩ := sim s t related
    rw [answer] at same left
    rw [toList_of_some (Prod.ext same.symm rfl), ih left]

theorem Simulates.yields {P : τ → Prop} {Q : α → Prop} (sim : Simulates R S T)
    (yields : Yields P Q T.next) : Yields (fun s => ∃ t, R s t ∧ P t) Q S.next := by
  rintro s ⟨t, related, holds⟩
  obtain ⟨same, left⟩ := sim s t related
  obtain ⟨told, kept⟩ := yields t holds
  exact ⟨fun x answer => told x (same.symm.trans answer), _, left, kept⟩

theorem Simulates.answers {other : κ → FiniteStream τ α}
    (sim : ∀ k, Simulates R (stream k) (other k)) (calls : List κ) (related : R s t) :
    FiniteStream.answers stream calls s = FiniteStream.answers other calls t ∧
      R (after stream calls s) (after other calls t) := by
  induction calls generalizing s t with
  | nil => exact ⟨rfl, related⟩
  | cons k calls ih =>
    obtain ⟨same, left⟩ := sim k s t related
    obtain ⟨later, final⟩ := ih left
    exact ⟨by rw [FiniteStream.answers, FiniteStream.answers, same, later], final⟩

end Simulation
end FiniteStream
end TextSearch
