import TextSearch.Workload.Engine
import TextSearch.Proofs.Range.Pieces
import TextSearch.Proofs.Text.Packing

/-!
Whichever way a needle is counted, the number is the same: by the plain scans, by any search for the
next occurrence, by the bare engine from either end, and by the operations built on it.
-/
namespace TextSearch
namespace Workload
open Text
variable {needle hay : Text} {i : Nat}

section Suffixes

theorem isPrefixOf_drop_iff (inside : i ≤ hay.size) :
    needle.toList.isPrefixOf (hay.toList.drop i) = true ↔ OccursAt needle hay i := by
  rw [List.isPrefixOf_iff_prefix]
  constructor
  · rintro ⟨rest, begins⟩
    exact occursAt_of_drop inside begins.symm
  · intro occurs
    rw [drop_of_occursAt occurs]
    exact List.prefix_append _ _

theorem countSuffixes_of_short {pattern bytes : List UInt8} (short : bytes.length < pattern.length) :
    countSuffixes pattern bytes = 0 := by
  induction bytes with
  | nil => rw [countSuffixes]
  | cons b rest ih =>
    have differs : ¬ pattern <+: b :: rest := by
      intro begins
      have fits := begins.length_le
      omega
    rw [List.length_cons] at short
    rw [countSuffixes, if_neg, ih (by omega)]
    rintro ⟨_, begins⟩
    exact differs (List.isPrefixOf_iff_prefix.mp begins)

theorem countSuffixes_eq (inside : i ≤ hay.size) (nonempty : 0 < needle.size) :
    countSuffixes needle.toList (hay.toList.drop i) = (occurrencesFrom needle hay i).length := by
  fun_induction occurrencesFrom needle hay i with
  | case1 i room occurs ih =>
    have begins := (isPrefixOf_drop_iff inside).mpr occurs
    rw [drop_eq_cons (by omega)] at begins ⊢
    rw [countSuffixes, if_pos ⟨by rwa [length_toList], begins⟩, ← drop_eq_cons (by omega),
      List.drop_drop, length_toList, ih room.2, List.length_cons, Nat.add_comm]
  | case2 i room differs ih =>
    have no := mt (isPrefixOf_drop_iff inside).mp differs
    rw [drop_eq_cons (by omega)] at no ⊢
    rw [countSuffixes, if_neg (fun both => no both.2), ih (by omega)]
  | case3 i no_room =>
    rw [countSuffixes_of_short]
    · rfl
    · rw [List.length_drop, length_toList, length_toList]
      omega

end Suffixes

/-- A search for the first occurrence at or after an offset, of which nothing else is known. -/
structure Locator (needle hay : Text) where
  locate : Nat → Option Nat
  answers : ∀ first, (∃ i, locate first = some i ∧ Leftmost needle hay first i) ∨
    (locate first = none ∧ ∀ i, first ≤ i → ¬ OccursAt needle hay i)

namespace Locator

theorem plain_answers (nonempty : 0 < needle.size) (hay : Text) (first : Nat) :
    (∃ i, (occurrencesFrom needle hay first).head? = some i ∧ Leftmost needle hay first i) ∨
      ((occurrencesFrom needle hay first).head? = none ∧
        ∀ i, first ≤ i → ¬ OccursAt needle hay i) := by
  fun_induction occurrencesFrom needle hay first with
  | case1 i room occurs _ => exact Or.inl ⟨i, rfl, leftmost_here occurs⟩
  | case2 i room differs ih =>
    rcases ih with ⟨j, answer, first⟩ | ⟨answer, none_left⟩
    · refine Or.inl ⟨j, answer, leftmost_of_skip (Nat.le_succ i) ?_ first⟩
      intro k after before
      have here : k = i := by omega
      exact here ▸ differs
    · refine Or.inr ⟨answer, ?_⟩
      intro k after
      by_cases here : k = i
      · exact here ▸ differs
      · exact none_left k (by omega)
  | case3 i no_room =>
    refine Or.inr ⟨rfl, ?_⟩
    intro k after occurs
    have fits := occurs.1
    omega

def plain (nonempty : 0 < needle.size) (hay : Text) : Locator needle hay where
  locate first := (occurrencesFrom needle hay first).head?
  answers := plain_answers nonempty hay

variable (l : Locator needle hay) (nonempty : 0 < needle.size)

def next (first : Nat) : Option Step × Nat :=
  match l.locate first with
  | some i => (some (.found i (i + needle.size)), i + needle.size)
  | none => (none, hay.size)

theorem next_firstMatch (first : Nat) :
    FirstMatch needle hay first (l.next first).1 (l.next first).2 := by
  unfold next
  rcases l.answers first with ⟨i, answer, leftmost⟩ | ⟨answer, none_left⟩
  · rw [answer]
    exact Or.inl ⟨i, rfl, rfl, leftmost⟩
  · rw [answer]
    exact Or.inr ⟨rfl, rfl, none_left⟩

include nonempty in
theorem next_spends (first : Nat) :
    (l.next first).1.toList.length + (hay.size - (l.next first).2) ≤ hay.size - first := by
  rcases l.next_firstMatch first with ⟨i, answer, stop, after, occurs, _⟩ | ⟨answer, stop, _⟩
  · have fits := occurs.1
    rw [answer, stop, Option.toList_some, List.length_singleton]
    omega
  · rw [answer, stop, Option.toList_none, List.length_nil]
    omega

def hits : FiniteStream Nat Step where
  next := l.next
  remaining first := hay.size - first
  spends := l.next_spends nonempty

theorem hits_jumps : Jumps needle hay (l.hits nonempty) (fun first => first ≤ hay.size) id where
  inside first le := le
  keeps first le := by
    rcases l.next_firstMatch first with ⟨i, _, stop, _, occurs, _⟩ | ⟨_, stop, _⟩
    · exact Nat.le_trans (Nat.le_of_eq stop) occurs.1
    · exact Nat.le_of_eq stop
  outcome first _ := l.next_firstMatch first

theorem count_hits : (l.hits nonempty).count 0 = (occurrences needle hay).length := by
  rw [FiniteStream.count_eq_length, (l.hits_jumps nonempty).toList nonempty (Nat.zero_le _),
    List.length_map]
  rfl

end Locator
namespace Engine

section Counts
variable (nonempty : 0 < needle.size) (hay : Text)
include nonempty

theorem count_forward : hay.count (.substring needle) = (occurrences needle hay).length := by
  rw [Text.count_eq_length, Searcher.hits_of_nonempty nonempty, List.length_map]

theorem count_backward :
    (hay.rhits (.substring needle)).count = (occurrences needle hay).length := by
  rw [count_rhits, Searcher.hitsBack_of_nonempty nonempty, List.length_map,
    length_occurrencesBefore nonempty]

theorem count_pieces :
    (hay.split (.substring needle)).count = (occurrences needle hay).length + 1 ∧
      (hay.rsplit (.substring needle)).count = (occurrences needle hay).length + 1 := by
  have front : (hay.split (.substring needle)).count = _ := FiniteStream.count_eq_length _ _
  have rear : (hay.rsplit (.substring needle)).count = _ := FiniteStream.count_eq_length _ _
  rw [front, rear]
  have forth := length_split hay (.substring needle)
  have back := length_rsplit hay (.substring needle)
  rw [count_forward nonempty] at forth
  rw [count_backward nonempty] at back
  exact ⟨forth, back⟩

theorem count_scan : Engine.scan.count needle hay = (occurrences needle hay).length := by
  simp only [count, TwoWay.Needle.ofText?, dif_pos nonempty]
  rw [FiniteStream.count_eq_length, TwoWay.Scan.toList_hits, List.length_map]
  rfl

theorem count_suffixes : Engine.suffixes.count needle hay = (occurrences needle hay).length :=
  countSuffixes_eq (Nat.zero_le _) nonempty

end Counts

/-- A non-empty needle is found equally often from either end, in any bytes, though not always at the
    same offsets. The operations built on either direction count that number, with one piece more than
    there are matches; and so does every engine, and any search that goes on behind the first
    occurrence it finds. -/
theorem engines_agree :
    (∀ (needle hay : Text) (nonempty : 0 < needle.size),
      let p := Pattern.substring needle
      let fresh := TwoWay.Scan.start (TwoWay.Needle.ofText needle nonempty) hay
      let number := (TwoWay.Scan.hits.toList fresh).length
      (TwoWay.Scan.hitsBack.toList fresh).length = number ∧
      (hay.count p = number ∧ (hay.rhits p).count = number ∧
        (hay.split p).count = number + 1 ∧ (hay.rsplit p).count = number + 1) ∧
      (∀ e ∈ [offsets, suffixes, scan, forward, backward], e.count needle hay = number) ∧
      pieces.count needle hay = number + 1 ∧
      ∀ l : Locator needle hay, (l.hits nonempty).count 0 = number) ∧
    ∃ (d : TwoWay.Needle) (hay : Text), TwoWay.Scan.hits.toList (.start d hay) ≠
      (TwoWay.Scan.hitsBack.toList (.start d hay)).reverse := by
  constructor
  · intro needle hay nonempty p fresh number
    have scanned : number = (occurrences needle hay).length := by
      simp only [number, fresh, TwoWay.Scan.toList_hits, List.length_map]
      rfl
    have scannedBack : (TwoWay.Scan.hitsBack.toList fresh).length = number := by
      rw [scanned, TwoWay.Scan.toList_hitsBack, List.length_map]
      exact length_occurrencesBefore nonempty hay
    have front := count_forward nonempty hay
    have rear := count_backward nonempty hay
    obtain ⟨split, rsplit⟩ := count_pieces nonempty hay
    rw [← scanned] at front rear split rsplit
    refine ⟨scannedBack, ⟨front, rear, split, rsplit⟩, ?_, split, ?_⟩
    · simp only [List.forall_mem_cons, List.not_mem_nil, false_imp_iff, implies_true, and_true]
      refine ⟨scanned.symm, ?_, ?_, front, rear⟩
      · rw [count_suffixes nonempty, scanned]
      · rw [count_scan nonempty, scanned]
    · intro l
      rw [l.count_hits nonempty, scanned]
  · obtain ⟨needle, hay, nonempty, differ⟩ := scans_may_differ
    refine ⟨TwoWay.Needle.ofText needle nonempty, hay, ?_⟩
    have one_match : ∀ i j, Step.found i (i + needle.size) = .found j (j + needle.size) → i = j := by
      intro i j same
      exact congrArg Step.start same
    rw [TwoWay.Scan.toList_hits, TwoWay.Scan.toList_hitsBack, ← List.map_reverse]
    exact mt (List.map_inj_right one_match).mp differ

theorem engines_agree_of_overlap :
    let hay := Text.ofList [0x61, 0x61, 0x61, 0x61, 0xFF]
    let needle := Text.ofList [0x61, 0x61]
    ∃ nonempty : 0 < needle.size,
      (hay.split (.substring needle)).count = hay.count (.substring needle) + 1 ∧
      suffixes.count needle hay = backward.count needle hay ∧
      ((Locator.plain nonempty hay).hits nonempty).count 0 = offsets.count needle hay := by
  intro hay needle
  have nonempty : 0 < needle.size := by decide
  obtain ⟨_, ⟨front, _, split, _⟩, counts, _, located⟩ := engines_agree.1 needle hay nonempty
  refine ⟨nonempty, ?_, ?_, ?_⟩
  · rw [split, front]
  · rw [counts .suffixes (by decide), counts .backward (by decide)]
  · rw [located, counts .offsets (by decide)]

end Engine
end Workload
end TextSearch
