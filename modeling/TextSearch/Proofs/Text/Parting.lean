import TextSearch.Step
import TextSearch.Proofs.Text.Occurrence

/-!
A text parted by matches. The pieces beside the matches and the matches themselves, taken in turn, are
the text again, and what is known of every stretch beside them holds of every piece.
-/
namespace TextSearch

def alternate {α : Type} : List α → List α → List α
  | x :: xs, y :: ys => x :: y :: alternate xs ys
  | xs, [] => xs
  | [], ys => ys

namespace Text
variable {t needle hay : Text} {hit gap hit' gap' : Nat → Nat → Prop} {keep : Bool} {i j k : Nat}
  {m : Step} {ms ms' : List Step}

/-- From `i` to `j` the matches stand one behind another. Each of them is a `hit`, and each stretch
    before, between and behind them is a `gap`, even if it is empty. -/
inductive Parted (hit gap : Nat → Nat → Prop) : Nat → List Step → Nat → Prop where
  | nil {i j : Nat} (le : i ≤ j) (clear : gap i j) : Parted hit gap i [] j
  | cons {i j : Nat} {m : Step} {ms : List Step} (le : i ≤ m.start) (clear : gap i m.start)
      (ordered : m.start ≤ m.stop) (matched : hit m.start m.stop)
      (others : Parted hit gap m.stop ms j) : Parted hit gap i (m :: ms) j

def Ordered : Nat → List Step → Nat → Prop := Parted (fun _ _ => True) (fun _ _ => True)

namespace Parted

theorem le (parted : Parted hit gap i ms j) : i ≤ j := by
  induction parted with
  | nil le _ => exact le
  | cons le _ ordered _ _ ih => omega

theorem extend_left (le : i ≤ j) (wider : ∀ l, gap j l → gap i l) (parted : Parted hit gap j ms k) :
    Parted hit gap i ms k := by
  cases parted with
  | nil le' clear => exact .nil (Nat.le_trans le le') (wider _ clear)
  | cons le' clear ordered matched others =>
    exact .cons (Nat.le_trans le le') (wider _ clear) ordered matched others

theorem extend_right (le : j ≤ k) (wider : ∀ l, gap l j → gap l k) (parted : Parted hit gap i ms j) :
    Parted hit gap i ms k := by
  induction parted with
  | nil le' clear => exact .nil (Nat.le_trans le' le) (wider _ clear)
  | cons le' clear ordered matched _ ih => exact .cons le' clear ordered matched (ih le wider)

theorem concat_iff : Parted hit gap i (ms ++ [m]) j ↔
    Parted hit gap i ms m.start ∧ m.start ≤ m.stop ∧ hit m.start m.stop ∧ m.stop ≤ j ∧
      gap m.stop j := by
  induction ms generalizing i with
  | nil =>
    constructor
    · intro parted
      cases parted with
      | cons le clear ordered matched others =>
        cases others with
        | nil le' clear' => exact ⟨.nil le clear, ordered, matched, le', clear'⟩
    · rintro ⟨parted, ordered, matched, le', clear'⟩
      cases parted with
      | nil le clear => exact .cons le clear ordered matched (.nil le' clear')
  | cons m' ms ih =>
    constructor
    · intro parted
      cases parted with
      | cons le clear ordered matched others =>
        obtain ⟨before, last⟩ := ih.mp others
        exact ⟨.cons le clear ordered matched before, last⟩
    · rintro ⟨parted, last⟩
      cases parted with
      | cons le clear ordered matched others =>
        exact .cons le clear ordered matched (ih.mpr ⟨others, last⟩)

theorem mono (hits : ∀ a b, hit a b → hit' a b) (gaps : ∀ a b, gap a b → gap' a b)
    (parted : Parted hit gap i ms j) : Parted hit' gap' i ms j := by
  induction parted with
  | nil le clear => exact .nil le (gaps _ _ clear)
  | cons le clear ordered matched _ ih =>
    exact .cons le (gaps _ _ clear) ordered (hits _ _ matched) ih

theorem ordered (parted : Parted hit gap i ms j) : Ordered i ms j :=
  parted.mono (fun _ _ _ => trivial) (fun _ _ _ => trivial)

theorem sublist (fewer : ms'.Sublist ms) (parted : Parted hit gap i ms j) :
    Parted hit (fun _ _ => True) i ms' j := by
  induction fewer generalizing i with
  | slnil =>
    cases parted with
    | nil le _ => exact .nil le trivial
  | cons m _ ih =>
    cases parted with
    | cons le _ ordered _ others =>
      exact (ih others).extend_left (Nat.le_trans le ordered) fun _ _ => trivial
  | cons_cons m _ ih =>
    cases parted with
    | cons le _ ordered matched others => exact .cons le trivial ordered matched (ih others)

theorem hit_of_mem (parted : Parted hit gap i ms j) : ∀ m ∈ ms, hit m.start m.stop := by
  induction parted with
  | nil =>
    intro m none_left
    cases none_left
  | cons _ _ _ matched _ ih =>
    intro m member
    rcases List.mem_cons.mp member with rfl | later
    · exact matched
    · exact ih m later

theorem stop_le (parted : Parted hit gap i ms j) : ∀ m ∈ ms, m.stop ≤ j := by
  induction parted with
  | nil =>
    intro m none_left
    cases none_left
  | cons _ _ _ _ others ih =>
    intro m member
    rcases List.mem_cons.mp member with rfl | later
    · exact others.le
    · exact ih m later

end Parted

/-- The pieces of a text beside the matches that lie between `first` and `last`. An empty tail is no
    piece unless it is to be kept. -/
def cut (t : Text) (keepEmptyTail : Bool) (first last : Nat) : List Step → List Text
  | [] => if !keepEmptyTail && last == first then [] else [t.slice first last]
  | m :: ms => t.slice first m.start :: cut t keepEmptyTail m.stop last ms

@[simp] theorem cut_nil (t : Text) (i j : Nat) : t.cut true i j [] = [t.slice i j] := rfl

theorem cut_cons (t : Text) (keep : Bool) (i j : Nat) (m : Step) (ms : List Step) :
    t.cut keep i j (m :: ms) = t.slice i m.start :: t.cut keep m.stop j ms := rfl

theorem length_cut (t : Text) (i j : Nat) (ms : List Step) :
    (t.cut true i j ms).length = ms.length + 1 := by
  induction ms generalizing i with
  | nil => rfl
  | cons m ms ih => rw [cut_cons, List.length_cons, List.length_cons, ih]

theorem cut_concat (t : Text) (keep : Bool) (i j : Nat) (ms : List Step) (m : Step) :
    t.cut keep i j (ms ++ [m]) = t.cut true i m.start ms ++ t.cut keep m.stop j [] := by
  induction ms generalizing i with
  | nil => rfl
  | cons m' ms ih => rw [List.cons_append, cut_cons, ih, cut_cons, List.cons_append]

theorem reverse_cut_cons (t : Text) (i j : Nat) (m : Step) (ms : List Step) :
    (t.cut true i j (m :: ms).reverse).reverse =
      t.slice m.stop j :: (t.cut true i m.start ms.reverse).reverse := by
  rw [List.reverse_cons, cut_concat, cut_nil, List.reverse_append, List.reverse_singleton,
    List.singleton_append]

theorem cut_take (parted : Parted hit gap i ms j) (few : k ≤ ms.length) : ∃ a b, a ≤ b ∧ b ≤ j ∧
    (t.cut true i j ms)[k]? = some (t.slice a b) ∧
    t.cut true i j (ms.take k) = (t.cut true i j ms).take k ++ [t.slice a j] := by
  induction k generalizing i ms with
  | zero =>
    cases parted with
    | nil le _ => exact ⟨i, j, le, Nat.le_refl j, rfl, rfl⟩
    | cons le _ ordered _ others =>
      exact ⟨i, _, le, Nat.le_trans ordered others.le, rfl, rfl⟩
  | succ k ih =>
    cases parted with
    | nil => cases few
    | cons _ _ _ _ others =>
      obtain ⟨a, b, le, inside, piece, short⟩ := ih others (Nat.le_of_succ_le_succ few)
      refine ⟨a, b, le, inside, piece, ?_⟩
      rw [List.take_succ_cons, cut_cons, cut_cons, short, List.take_succ_cons, List.cons_append]

theorem reverse_cut_take (parted : Parted hit gap i ms.reverse j) (few : k ≤ ms.length) :
    ∃ a b, a ≤ b ∧ b ≤ j ∧ (t.cut true i j ms.reverse).reverse[k]? = some (t.slice a b) ∧
      (t.cut true i j (ms.take k).reverse).reverse =
        (t.cut true i j ms.reverse).reverse.take k ++ [t.slice i b] := by
  induction k generalizing j ms with
  | zero =>
    cases ms with
    | nil => exact ⟨i, j, parted.le, Nat.le_refl j, rfl, rfl⟩
    | cons m ms =>
      rw [List.reverse_cons] at parted
      obtain ⟨_, _, _, behind, _⟩ := Parted.concat_iff.mp parted
      refine ⟨m.stop, j, behind, Nat.le_refl j, ?_, rfl⟩
      rw [reverse_cut_cons, List.getElem?_cons_zero]
  | succ k ih =>
    cases ms with
    | nil => cases few
    | cons m ms =>
      rw [List.reverse_cons] at parted
      obtain ⟨before, ordered, _, behind, _⟩ := Parted.concat_iff.mp parted
      obtain ⟨a, b, le, inside, piece, short⟩ := ih before (Nat.le_of_succ_le_succ few)
      refine ⟨a, b, le, Nat.le_trans inside (Nat.le_trans ordered behind), ?_, ?_⟩
      · rw [reverse_cut_cons, List.getElem?_cons_succ, piece]
      · rw [List.take_succ_cons, reverse_cut_cons, reverse_cut_cons, short, List.take_succ_cons,
          List.cons_append]

theorem mem_cut (parted : Parted hit gap i ms j) {piece : Text} (member : piece ∈ t.cut true i j ms) :
    ∃ a b, a ≤ b ∧ b ≤ j ∧ gap a b ∧ piece = t.slice a b := by
  induction parted with
  | @nil i j le clear => exact ⟨i, j, le, Nat.le_refl j, clear, List.mem_singleton.mp member⟩
  | @cons i j m ms le clear ordered _ others ih =>
    have before := others.le
    rcases List.mem_cons.mp member with here | later
    · exact ⟨i, m.start, le, by omega, clear, here⟩
    · exact ih later

theorem rebuild (shown : Step → Text)
    (same : ∀ m ∈ ms, (shown m).toList = (t.slice m.start m.stop).toList)
    (parted : Parted hit gap i ms j) :
    (join (alternate (t.cut true i j ms) (ms.map shown))).toList = (t.slice i j).toList := by
  rw [toList_join]
  induction parted with
  | nil le clear => simp [alternate]
  | @cons i j m ms le clear ordered _ others ih =>
    obtain ⟨here, later⟩ := List.forall_mem_cons.mp same
    have rest := ih later
    rw [cut_cons, List.map_cons, alternate, List.flatMap_cons, List.flatMap_cons, rest, here,
      slice_append t ordered others.le, slice_append t le (Nat.le_trans ordered others.le)]

theorem intersperse_cut (t needle : Text) (i j : Nat) (ms : List Step) :
    (t.cut true i j ms).intersperse needle =
      alternate (t.cut true i j ms) (ms.map fun _ => needle) := by
  induction ms generalizing i with
  | nil => rfl
  | cons m ms ih =>
    obtain ⟨piece, pieces, behind⟩ : ∃ piece pieces, t.cut true m.stop j ms = piece :: pieces := by
      cases ms with
      | nil => exact ⟨_, _, rfl⟩
      | cons => exact ⟨_, _, rfl⟩
    have rest := ih m.stop
    rw [behind] at rest
    rw [cut_cons, behind, List.intersperse_cons_cons, rest, List.map_cons, alternate]

section Occurrences

def Clear (needle hay : Text) (i j : Nat) : Prop :=
  ∀ k, i ≤ k → k + needle.size ≤ j → ¬ OccursAt needle hay k

def Occurrence (needle hay : Text) (i j : Nat) : Prop :=
  OccursAt needle hay i ∧ j = i + needle.size

variable (nonempty : 0 < needle.size)
include nonempty

theorem clear_self (i : Nat) : Clear needle hay i i := by
  intro k after upto
  omega

theorem parted_occurrencesFrom (inside : i ≤ hay.size) :
    Parted (Occurrence needle hay) (Clear needle hay) i
      ((occurrencesFrom needle hay i).map fun k => .found k (k + needle.size)) hay.size := by
  fun_induction occurrencesFrom needle hay i with
  | case1 i room occurs ih =>
    exact .cons (Nat.le_refl i) (clear_self nonempty i) (Nat.le_add_right _ _)
      ⟨occurs, rfl⟩ (ih room.2)
  | case2 i room differs ih =>
    apply (ih (by omega)).extend_left (Nat.le_succ i)
    intro l clear k after upto
    by_cases here : k = i
    · exact here ▸ differs
    · exact clear k (by omega) upto
  | case3 i no_room =>
    refine .nil inside ?_
    intro k after upto
    omega

theorem parted_occurrencesBefore (j : Nat) :
    Parted (Occurrence needle hay) (Clear needle hay) 0
      ((occurrencesBefore needle hay j).map fun k => .found k (k + needle.size)).reverse j := by
  fun_induction occurrencesBefore needle hay j with
  | case1 j room occurs ih =>
    rw [List.map_cons, List.reverse_cons, Parted.concat_iff]
    have ends : j - needle.size + needle.size = j := by omega
    refine ⟨ih, Nat.le_add_right _ _, ⟨occurs, rfl⟩, ?_, ?_⟩
    · exact Nat.le_of_eq ends
    · simp only [Step.stop, ends]
      exact clear_self nonempty j
  | case2 j room differs ih =>
    apply ih.extend_right (Nat.sub_le j 1)
    intro l clear k after upto
    by_cases here : k = j - needle.size
    · exact here ▸ differs
    · exact clear k after (by omega)
  | case3 j no_room =>
    refine .nil (Nat.zero_le j) ?_
    intro k after upto
    omega

end Occurrences
end Text
end TextSearch
