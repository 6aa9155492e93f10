import TextSearch.Proofs.Interleaving

/-!
What the list of a drained stream says: its head is the next answer, and streams made from another by
passing over elements or by turning them into others have the list that was to be expected.
-/
namespace TextSearch
namespace FiniteStream
variable {σ α β : Type} {S : FiniteStream σ α} {s t : σ}

theorem next_eq_head? (S : FiniteStream σ α) (s : σ) : (S.next s).1 = (S.toList s).head? := by
  rcases answer : S.next s with ⟨_ | x, t⟩
  · rw [toList_of_none answer, List.head?_nil]
  · rw [toList_of_some answer, List.head?_cons]

theorem toList_of_next_eq (same : S.next s = S.next t) : S.toList s = S.toList t := by
  rcases answer : S.next t with ⟨_ | x, u⟩
  · rw [toList_of_none answer, toList_of_none (same.trans answer)]
  · rw [toList_of_some answer, toList_of_some (same.trans answer)]

theorem toList_filter (S : FiniteStream σ α) (p : α → Bool) (s : σ) :
    (S.filter p).toList s = (S.toList s).filter p := by
  fun_induction toList S s with
  | case1 s t answer =>
    have passed : (S.filter p).next s = (none, t) := findNext_of_none p answer
    rw [toList_of_none passed, List.filter_nil]
  | case2 s x t answer ih =>
    have passed : (S.filter p).next s = if p x then (some x, t) else (S.filter p).next t :=
      findNext_of_some p answer
    by_cases holds : p x = true
    · rw [if_pos holds] at passed
      rw [toList_of_some passed, List.filter_cons_of_pos holds, ih]
    · rw [if_neg holds] at passed
      rw [toList_of_next_eq passed, List.filter_cons_of_neg holds, ih]

theorem findNext_view {τ : Type} (view : σ → τ) (keeps : ∀ s, view (S.next s).2 = view s)
    (p : α → Bool) (s : σ) : view ((S.filter p).next s).2 = view s :=
  findNext_keeps (P := fun t => view t = view s) (fun t same => (keeps t).trans same) rfl

theorem next_of_toList_nil (drained : S.toList s = []) : ∃ t, S.next s = (none, t) := by
  rcases answer : S.next s with ⟨_ | x, t⟩
  · exact ⟨t, rfl⟩
  · rw [toList_of_some answer] at drained
    cases drained

theorem next_of_toList_cons {x : α} {l : List α} (drained : S.toList s = x :: l) :
    ∃ t, S.next s = (some x, t) ∧ S.toList t = l := by
  rcases answer : S.next s with ⟨_ | y, t⟩
  · rw [toList_of_none answer] at drained
    cases drained
  · rw [toList_of_some answer] at drained
    obtain ⟨rfl, rest⟩ := List.cons.inj drained
    exact ⟨t, rfl, rest⟩

theorem toList_map {P : σ → Prop} {f : σ → α → β} {g : α → β}
    (keeps : ∀ s, P s → P (S.next s).2) (same : ∀ s x, P s → f s x = g x) (start : P s) :
    (S.map f).toList s = (S.toList s).map g := by
  fun_induction toList S s with
  | case1 s t answer =>
    have turned : (S.map f).next s = (none, t) := by simp [map, answer]
    rw [toList_of_none turned, List.map_nil]
  | case2 s x t answer ih =>
    have kept := keeps s start
    rw [answer] at kept
    have turned : (S.map f).next s = (some (g x), t) := by simp [map, answer, same s x start]
    rw [toList_of_some turned, List.map_cons, ih kept]

theorem answers_replicate {κ : Type} {stream : κ → FiniteStream σ α} {P : σ → Prop} {k : κ}
    (keeps : ∀ s, P s → P ((stream k).next s).2)
    (final : ∀ s, P s → ((stream k).next s).1 = none →
      ((stream k).next ((stream k).next s).2).1 = none) (n : Nat) (start : P s) :
    (answers stream (List.replicate n k) s).map Prod.snd =
      (List.range n).map fun i => ((stream k).toList s)[i]? := by
  induction n generalizing s with
  | zero => rfl
  | succ n ih =>
    have later := ih (keeps s start)
    rw [List.replicate_succ, answers, List.map_cons, later, List.range_succ_eq_map, List.map_cons,
      List.map_map, next_eq_head?, ← List.head?_eq_getElem?]
    congr 1
    apply List.map_congr_left
    intro i _
    rcases answer : (stream k).next s with ⟨_ | x, t⟩
    · -- a refusal leaves a state without elements
      have refused := final s start (by rw [answer])
      rw [answer, next_eq_head?, List.head?_eq_none_iff] at refused
      rw [toList_of_none answer, refused]
      rfl
    · rw [toList_of_some answer]
      rfl

end FiniteStream
end TextSearch
