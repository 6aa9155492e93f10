/-!
Finite streams: a state is asked for its next element and may run dry. Each element is paid for out
of `remaining`, so a stream can always be drained.
-/
namespace TextSearch

/-- An element costs at least one of what remains, and a refusal gives nothing back. -/
structure FiniteStream (σ α : Type) where
  next : σ → Option α × σ
  remaining : σ → Nat
  spends : ∀ s, (next s).1.toList.length + remaining (next s).2 ≤ remaining s

namespace FiniteStream
variable {σ α β : Type}

theorem remaining_lt {S : FiniteStream σ α} {s t : σ} {x : α} (h : S.next s = (some x, t)) :
    S.remaining t < S.remaining s := by
  have cost := S.spends s
  rw [h] at cost
  simp only [Option.toList_some, List.length_singleton] at cost
  omega

theorem remaining_le {S : FiniteStream σ α} {s t : σ} {answer : Option α}
    (h : S.next s = (answer, t)) : S.remaining t ≤ S.remaining s := by
  have cost := S.spends s
  rw [h] at cost
  simp only at cost
  omega

def findNext (S : FiniteStream σ α) (p : α → Bool) (s : σ) : Option α × σ :=
  match _answer : S.next s with
  | (none, t) => (none, t)
  | (some x, t) => if p x then (some x, t) else S.findNext p t
termination_by S.remaining s
decreasing_by exact remaining_lt _answer

theorem findNext_spends (S : FiniteStream σ α) (p : α → Bool) (s : σ) :
    (S.findNext p s).1.toList.length + S.remaining (S.findNext p s).2 ≤ S.remaining s := by
  fun_induction findNext S p s with
  | case1 s t h => simpa using remaining_le h
  | case2 s x t h _ =>
    have := remaining_lt h
    simp only [Option.toList_some, List.length_singleton]
    omega
  | case3 s x t h _ ih =>
    have := remaining_lt h
    omega

def filter (S : FiniteStream σ α) (p : α → Bool) : FiniteStream σ α where
  next := S.findNext p
  remaining := S.remaining
  spends := S.findNext_spends p

def map (S : FiniteStream σ α) (f : σ → α → β) : FiniteStream σ β where
  next s := ((S.next s).1.map (f s), (S.next s).2)
  remaining := S.remaining
  spends s := by
    have cost := S.spends s
    cases answer : (S.next s).1 <;> simp_all

def toList (S : FiniteStream σ α) (s : σ) : List α :=
  match _answer : S.next s with
  | (none, _) => []
  | (some x, t) => x :: S.toList t
termination_by S.remaining s
decreasing_by exact remaining_lt _answer

/-- Every answer up to and including the first refusal, with the state it leaves. -/
def trace (S : FiniteStream σ α) (s : σ) : List (Option α × σ) :=
  match _answer : S.next s with
  | (none, t) => [(none, t)]
  | (some x, t) => (some x, t) :: S.trace t
termination_by S.remaining s
decreasing_by exact remaining_lt _answer

def fold (S : FiniteStream σ α) (f : β → α → β) (acc : β) (s : σ) : β :=
  match _answer : S.next s with
  | (none, _) => acc
  | (some x, t) => S.fold f (f acc x) t
termination_by S.remaining s
decreasing_by exact remaining_lt _answer

def count (S : FiniteStream σ α) (s : σ) : Nat := S.fold (fun n _ => n + 1) 0 s

def take (S : FiniteStream σ α) : Nat → σ → List α
  | 0, _ => []
  | n + 1, s =>
    match S.next s with
    | (none, _) => []
    | (some x, t) => x :: S.take n t

theorem toList_of_none {S : FiniteStream σ α} {s t : σ} (h : S.next s = (none, t)) :
    S.toList s = [] := by
  rw [toList]
  split <;> simp_all

theorem toList_of_some {S : FiniteStream σ α} {s t : σ} {x : α} (h : S.next s = (some x, t)) :
    S.toList s = x :: S.toList t := by
  rw [toList]
  split <;> simp_all

theorem fold_eq_foldl (S : FiniteStream σ α) (f : β → α → β) (acc : β) (s : σ) :
    S.fold f acc s = (S.toList s).foldl f acc := by
  fun_induction fold S f acc s with
  | case1 acc s t h => rw [toList_of_none h, List.foldl_nil]
  | case2 acc s x t h ih => rw [toList_of_some h, List.foldl_cons, ih]

theorem count_eq_length (S : FiniteStream σ α) (s : σ) : S.count s = (S.toList s).length := by
  rw [count, fold_eq_foldl]
  have run : ∀ (xs : List α) (n : Nat), xs.foldl (fun n _ => n + 1) n = n + xs.length := by
    intro xs
    induction xs with
    | nil => simp
    | cons x xs ih => intro n; simp only [List.foldl_cons, ih, List.length_cons]; omega
  rw [run, Nat.zero_add]

theorem length_toList_le (S : FiniteStream σ α) (s : σ) : (S.toList s).length ≤ S.remaining s := by
  fun_induction toList S s with
  | case1 => simp
  | case2 s x t h ih =>
    have := remaining_lt h
    simp only [List.length_cons]
    omega

theorem take_eq (S : FiniteStream σ α) (n : Nat) (s : σ) : S.take n s = (S.toList s).take n := by
  induction n generalizing s with
  | zero => simp [take]
  | succ n ih =>
    rw [take]
    split
    next h => rw [toList_of_none h, List.take_nil]
    next h => rw [toList_of_some h, List.take_succ_cons, ih]

end FiniteStream
end TextSearch
