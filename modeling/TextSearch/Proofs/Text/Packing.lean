import TextSearch.Proofs.Text.Parting

/-!
How many occurrences a text has room for, none overlapping another. The plain scan from the left takes
as many as any choice of them, and so does the scan from the right; hence both take the same number,
though they may take different ones.
-/
namespace TextSearch
namespace Text
variable {needle hay : Text} {gap : Nat → Nat → Prop} {i j : Nat} {ms : List Step}

/-- Occurrences one behind another, whatever is left out beside them. -/
def Packed (needle hay : Text) : Nat → List Step → Nat → Prop :=
  Parted (Occurrence needle hay) fun _ _ => True

theorem Parted.packed (parted : Parted (Occurrence needle hay) gap i ms j) :
    Packed needle hay i ms j :=
  parted.mono (fun _ _ hit => hit) (fun _ _ _ => trivial)

/-- No choice of occurrences behind an offset has more of them than the scan from the left takes. The
    first one taken ends no later than the first one chosen, so the others chosen are still ahead. -/
theorem length_le_occurrencesFrom (packed : Packed needle hay i ms j) (nonempty : 0 < needle.size) :
    ms.length ≤ (occurrencesFrom needle hay i).length := by
  fun_induction occurrencesFrom needle hay i generalizing ms with
  | case1 i room occurs ih =>
    cases packed with
    | nil => exact Nat.zero_le _
    | cons le _ _ matched others =>
      have ahead := others.extend_left (i := i + needle.size) (by have := matched.2; omega)
        (fun _ _ => trivial)
      exact Nat.succ_le_succ (ih ahead)
  | case2 i room differs ih =>
    cases packed with
    | nil => exact Nat.zero_le _
    | @cons _ _ m _ le _ ordered matched others =>
      have elsewhere : i ≠ m.start := by
        rintro rfl
        exact differs matched.1
      exact ih (.cons (by omega) trivial ordered matched others)
  | case3 i no_room =>
    cases packed with
    | nil => exact Nat.zero_le _
    | cons le _ _ matched _ =>
      have fits := matched.1.1
      omega

theorem length_le_occurrencesBefore (packed : Packed needle hay i ms j)
    (nonempty : 0 < needle.size) : ms.length ≤ (occurrencesBefore needle hay j).length := by
  fun_induction occurrencesBefore needle hay j generalizing ms with
  | case1 j room occurs ih =>
    rcases List.eq_nil_or_concat ms with rfl | ⟨before, m, rfl⟩
    · exact Nat.zero_le _
    · rw [List.concat_eq_append] at packed ⊢
      obtain ⟨earlier, _, matched, upto, _⟩ := Parted.concat_iff.mp packed
      have ahead := earlier.extend_right (k := j - needle.size) (by have := matched.2; omega)
        (fun _ _ => trivial)
      rw [List.length_append, List.length_cons]
      exact Nat.succ_le_succ (ih ahead)
  | case2 j room differs ih =>
    rcases List.eq_nil_or_concat ms with rfl | ⟨before, m, rfl⟩
    · exact Nat.zero_le _
    · rw [List.concat_eq_append] at packed ⊢
      obtain ⟨earlier, ordered, matched, upto, _⟩ := Parted.concat_iff.mp packed
      have elsewhere : m.start ≠ j - needle.size := by
        intro here
        exact differs (here ▸ matched.1)
      have ends := matched.2
      exact ih (Parted.concat_iff.mpr ⟨earlier, ordered, matched, by omega, trivial⟩)
  | case3 j no_room =>
    rcases List.eq_nil_or_concat ms with rfl | ⟨before, m, rfl⟩
    · exact Nat.zero_le _
    · rw [List.concat_eq_append] at packed
      obtain ⟨_, _, matched, upto, _⟩ := Parted.concat_iff.mp packed
      have ends := matched.2
      omega

theorem length_occurrencesBefore (nonempty : 0 < needle.size) (hay : Text) :
    (occurrencesBefore needle hay hay.size).length = (occurrences needle hay).length := by
  have forth : Packed needle hay 0 _ hay.size :=
    (parted_occurrencesFrom nonempty (Nat.zero_le _)).packed
  have back : Packed needle hay 0 _ hay.size :=
    (parted_occurrencesBefore nonempty hay.size).packed
  have upper := length_le_occurrencesFrom back nonempty
  have lower := length_le_occurrencesBefore forth nonempty
  rw [List.length_map] at lower
  rw [List.length_reverse, List.length_map] at upper
  exact Nat.le_antisymm upper lower

theorem scans_may_differ : ∃ needle hay : Text, 0 < needle.size ∧
    occurrences needle hay ≠ (occurrencesBefore needle hay hay.size).reverse := by
  let needle := ofList [0x61, 0x61]
  let hay := ofList [0x61, 0x61, 0x61]
  have nonempty : 0 < needle.size := by decide
  have forth : occurrences needle hay = [0] := by
    rw [occurrences, occurrencesFrom_of_occursAt nonempty (by decide), occurrencesFrom,
      if_neg (by decide)]
  have back : occurrencesBefore needle hay hay.size = [1] := by
    have last : OccursAt needle hay 1 := by decide
    rw [occurrencesBefore_of_occursAt nonempty (j := hay.size) last rfl, occurrencesBefore,
      if_neg (by decide)]
  refine ⟨needle, hay, nonempty, ?_⟩
  rw [forth, back]
  decide

end Text
end TextSearch
