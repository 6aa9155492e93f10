import TextSearch.Text.Occurrence

/-!
Stretches of a haystack without an occurrence, the nearest occurrence on either side, and how the
plain scans pass over them.
-/
namespace TextSearch
namespace Text
variable {needle hay : Text} {i j k : Nat}

def NoneStarts (needle hay : Text) (i j : Nat) : Prop :=
  ∀ k, i ≤ k → k < j → ¬ OccursAt needle hay k

def NoneEnds (needle hay : Text) (i j : Nat) : Prop :=
  ∀ k, i < k + needle.size → k + needle.size ≤ j → ¬ OccursAt needle hay k

/-- The occurrence at `i` is the one with the smallest start at or after `first`. -/
def Leftmost (needle hay : Text) (first i : Nat) : Prop :=
  first ≤ i ∧ OccursAt needle hay i ∧ NoneStarts needle hay first i

/-- The occurrence at `i` is the one with the greatest end at or before `last`. -/
def Rightmost (needle hay : Text) (last i : Nat) : Prop :=
  i + needle.size ≤ last ∧ OccursAt needle hay i ∧ NoneEnds needle hay (i + needle.size) last

theorem drop_of_occursAt (occurs : OccursAt needle hay i) :
    hay.toList.drop i = needle.toList ++ hay.toList.drop (i + needle.size) := by
  have fits := occurs.1
  apply List.ext_getElem
  · simp only [List.length_drop, List.length_append, length_toList]
    omega
  · intro k left right
    rw [List.getElem_drop, getElem_toList]
    by_cases inside : k < needle.size
    · rw [List.getElem_append_left (by rw [length_toList]; exact inside), getElem_toList]
      exact occurs.2 k inside
    · rw [List.getElem_append_right (by rw [length_toList]; omega), List.getElem_drop,
        getElem_toList, length_toList]
      congr 1
      omega

theorem occursAt_of_drop {rest : List UInt8} (inside : i ≤ hay.size)
    (begins : hay.toList.drop i = needle.toList ++ rest) : OccursAt needle hay i := by
  have sizes := congrArg List.length begins
  rw [List.length_append, List.length_drop, length_toList, length_toList] at sizes
  refine ⟨by omega, ?_⟩
  intro k below
  have byte := congrArg (·[k]?) begins
  simp only [List.getElem?_drop] at byte
  rw [List.getElem?_append_left (by rw [length_toList]; exact below), getElem?_toList _ _ below,
    getElem?_toList _ _ (by omega)] at byte
  exact Option.some.inj byte

theorem slice_append (t : Text) (left : i ≤ j) (right : j ≤ k) :
    (t.slice i j).toList ++ (t.slice j k).toList = (t.slice i k).toList := by
  have drop : t.toList.drop j = (t.toList.drop i).drop (j - i) := by
    rw [List.drop_drop]
    congr 1
    omega
  have size : k - i = (j - i) + (k - j) := by omega
  rw [toList_slice, toList_slice, toList_slice, size, List.take_add, drop]

theorem size_slice (t : Text) (i : Nat) (inside : j ≤ t.size) : (t.slice i j).size = j - i := by
  simp only [slice]
  omega

theorem slice_self (t : Text) : t.slice 0 t.size = t := by
  cases t
  simp [slice]

theorem isEmpty_toList (t : Text) : t.toList.isEmpty = t.isEmpty := by
  rw [Bool.eq_iff_iff, List.isEmpty_iff_length_eq_zero, length_toList, isEmpty, beq_iff_eq]

theorem slice_of_occursAt (occurs : OccursAt needle hay i) :
    (hay.slice i (i + needle.size)).SameBytes needle := by
  have cut : i + needle.size - i = needle.toList.length := by
    rw [length_toList]
    omega
  rw [SameBytes, toList_slice, drop_of_occursAt occurs, cut, List.take_left]

theorem occursAt_slice (le : i ≤ j) (inside : j ≤ hay.size) :
    OccursAt needle (hay.slice i j) k ↔ OccursAt needle hay (i + k) ∧ i + k + needle.size ≤ j := by
  have size : (hay.slice i j).size = j - i := size_slice hay i inside
  have byte : ∀ l, (hay.slice i j).byteAt l = hay.byteAt (i + l) := by
    intro l
    simp only [byteAt, slice, Nat.min_eq_left (Nat.le_trans le inside), Nat.add_assoc]
  simp only [OccursAt, size, byte, ← Nat.add_assoc]
  constructor
  · rintro ⟨fits, bytes⟩
    exact ⟨⟨by omega, bytes⟩, by omega⟩
  · rintro ⟨⟨_, bytes⟩, ends⟩
    exact ⟨by omega, bytes⟩

theorem noneStarts_append (left : NoneStarts needle hay i j) (right : NoneStarts needle hay j k) :
    NoneStarts needle hay i k := by
  intro m after before
  by_cases early : m < j
  · exact left m after early
  · exact right m (by omega) before

theorem noneEnds_append (left : NoneEnds needle hay i j) (right : NoneEnds needle hay j k) :
    NoneEnds needle hay i k := by
  intro m after before
  by_cases early : m + needle.size ≤ j
  · exact left m after early
  · exact right m (by omega) before

theorem noneStarts_of_no_room (short : hay.size < i + needle.size) : NoneStarts needle hay i j := by
  intro k after _ occurs
  have := occurs.1
  omega

theorem noneEnds_of_no_room (short : j < needle.size) : NoneEnds needle hay i j := by
  intro k _ before
  omega

theorem leftmost_unique (left : Leftmost needle hay i j) (right : Leftmost needle hay i k) :
    j = k := by
  rcases Nat.lt_trichotomy j k with early | same | late
  · exact absurd left.2.1 (right.2.2 j left.1 early)
  · exact same
  · exact absurd right.2.1 (left.2.2 k right.1 late)

theorem rightmost_unique (left : Rightmost needle hay i j) (right : Rightmost needle hay i k) :
    j = k := by
  rcases Nat.lt_trichotomy j k with early | same | late
  · exact absurd right.2.1 (left.2.2 k (by omega) right.1)
  · exact same
  · exact absurd left.2.1 (right.2.2 j (by omega) left.1)

theorem leftmost_of_skip (le : i ≤ j) (skip : NoneStarts needle hay i j)
    (next : Leftmost needle hay j k) : Leftmost needle hay i k :=
  ⟨Nat.le_trans le next.1, next.2.1, noneStarts_append skip next.2.2⟩

theorem rightmost_of_skip (le : i ≤ j) (skip : NoneEnds needle hay i j)
    (next : Rightmost needle hay i k) : Rightmost needle hay j k :=
  ⟨Nat.le_trans next.1 le, next.2.1, noneEnds_append next.2.2 skip⟩

theorem leftmost_here (occurs : OccursAt needle hay i) : Leftmost needle hay i i :=
  ⟨Nat.le_refl i, occurs, fun k after before => by omega⟩

theorem rightmost_here (occurs : OccursAt needle hay i) (ends : i + needle.size = j) :
    Rightmost needle hay j i :=
  ⟨Nat.le_of_eq ends, occurs, fun k after before => by omega⟩

section Scans
variable (nonempty : 0 < needle.size)
include nonempty

theorem occurrencesFrom_of_occursAt (occurs : OccursAt needle hay i) :
    occurrencesFrom needle hay i = i :: occurrencesFrom needle hay (i + needle.size) := by
  rw [occurrencesFrom, if_pos ⟨nonempty, occurs.1⟩, if_pos occurs]

theorem occurrencesFrom_of_noneStarts (le : i ≤ j) (skip : NoneStarts needle hay i j) :
    occurrencesFrom needle hay i = occurrencesFrom needle hay j := by
  obtain ⟨gap, rfl⟩ : ∃ gap, j = i + gap := ⟨j - i, by omega⟩
  induction gap generalizing i with
  | zero => rfl
  | succ gap ih =>
    have here : ¬ OccursAt needle hay i := skip i (Nat.le_refl i) (by omega)
    have rest : NoneStarts needle hay (i + 1) (i + 1 + gap) :=
      fun k after before => skip k (by omega) (by omega)
    have regroup : i + (gap + 1) = i + 1 + gap := by omega
    rw [regroup, ← ih (by omega) rest]
    by_cases room : i + needle.size ≤ hay.size
    · rw [occurrencesFrom, if_pos ⟨nonempty, room⟩, if_neg here]
    · rw [occurrencesFrom, if_neg (by omega), occurrencesFrom, if_neg (by omega)]

theorem occurrencesFrom_of_leftmost (first : Leftmost needle hay i j) :
    occurrencesFrom needle hay i = j :: occurrencesFrom needle hay (j + needle.size) := by
  rw [occurrencesFrom_of_noneStarts nonempty first.1 first.2.2,
    occurrencesFrom_of_occursAt nonempty first.2.1]

theorem occurrencesFrom_at_end : occurrencesFrom needle hay hay.size = [] := by
  rw [occurrencesFrom, if_neg (by omega)]

theorem occurrencesBefore_of_occursAt (occurs : OccursAt needle hay i)
    (ends : i + needle.size = j) :
    occurrencesBefore needle hay j = i :: occurrencesBefore needle hay i := by
  subst ends
  rw [occurrencesBefore, if_pos ⟨nonempty, by omega⟩, Nat.add_sub_cancel, if_pos occurs]

theorem occurrencesBefore_of_noneEnds (le : i ≤ j) (skip : NoneEnds needle hay i j) :
    occurrencesBefore needle hay j = occurrencesBefore needle hay i := by
  obtain ⟨gap, rfl⟩ : ∃ gap, j = i + gap := ⟨j - i, by omega⟩
  induction gap with
  | zero => rfl
  | succ gap ih =>
    have rest : NoneEnds needle hay i (i + gap) :=
      fun k after before => skip k after (by omega)
    rw [← ih (by omega) rest]
    by_cases room : needle.size ≤ i + (gap + 1)
    · have here : ¬ OccursAt needle hay (i + (gap + 1) - needle.size) :=
        skip _ (by omega) (by omega)
      rw [occurrencesBefore, if_pos ⟨nonempty, room⟩, if_neg here]
      congr 1
    · rw [occurrencesBefore, if_neg (by omega), occurrencesBefore, if_neg (by omega)]

theorem occurrencesBefore_of_rightmost (last : Rightmost needle hay j i) :
    occurrencesBefore needle hay j = i :: occurrencesBefore needle hay i := by
  rw [occurrencesBefore_of_noneEnds nonempty last.1 last.2.2,
    occurrencesBefore_of_occursAt nonempty last.2.1 rfl]

theorem occurrencesBefore_at_start : occurrencesBefore needle hay 0 = [] := by
  rw [occurrencesBefore, if_neg (by omega)]

end Scans
end Text
end TextSearch
