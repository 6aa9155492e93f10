import TextSearch.Proofs.Interleaving
import TextSearch.Proofs.Text.Coverage

/-!
A stream whose every step moves one cursor over a stretch that it describes rightly. Whatever finds
these stretches, the stream tiles what lies ahead of the cursor, and its matches are those of the
plain scan.
-/
namespace TextSearch
namespace Text
variable {needle hay : Text} {σ : Type} {S : FiniteStream σ Step} {P : σ → Prop} {cursor : σ → Nat}
  {s : σ}

/-- In states with `P` the stream goes from left to right and is over at the end of the haystack. -/
structure Sweeps (needle hay : Text) (S : FiniteStream σ Step) (P : σ → Prop) (cursor : σ → Nat) :
    Prop where
  inside : ∀ s, P s → cursor s ≤ hay.size
  keeps : ∀ s, P s → P (S.next s).2
  outcome : ∀ s, P s →
    ((S.next s).1 = none ∧ cursor s = hay.size ∧ cursor (S.next s).2 = hay.size) ∨
      ∃ step, (S.next s).1 = some step ∧
        ForwardStep needle hay (cursor s) (cursor (S.next s).2) step

structure SweepsBack (needle hay : Text) (S : FiniteStream σ Step) (P : σ → Prop)
    (cursor : σ → Nat) : Prop where
  keeps : ∀ s, P s → P (S.next s).2
  outcome : ∀ s, P s →
    ((S.next s).1 = none ∧ cursor s = 0 ∧ cursor (S.next s).2 = 0) ∨
      ∃ step, (S.next s).1 = some step ∧
        BackwardStep needle hay (cursor (S.next s).2) (cursor s) step

namespace Sweeps
variable (sweep : Sweeps needle hay S P cursor) (holds : P s)
include sweep holds

theorem ended (none_left : (S.next s).1 = none) :
    cursor s = hay.size ∧ cursor (S.next s).2 = hay.size := by
  rcases sweep.outcome s holds with ⟨_, ended⟩ | ⟨step, answer, _⟩
  · exact ended
  · rw [none_left] at answer
    cases answer

theorem covers (step : Step) (answer : (S.next s).1 = some step) :
    ForwardStep needle hay (cursor s) (cursor (S.next s).2) step := by
  rcases sweep.outcome s holds with ⟨none_left, _⟩ | ⟨other, some_step, covers⟩
  · rw [answer] at none_left
    cases none_left
  · rw [answer] at some_step
    exact Option.some.inj some_step ▸ covers

theorem none_iff : (S.next s).1 = none ↔ cursor s = hay.size := by
  constructor
  · intro none_left
    exact (sweep.ended holds none_left).1
  · intro ended
    cases answer : (S.next s).1 with
    | none => rfl
    | some step =>
      have advances := (sweep.covers holds step answer).advances
      have inside := sweep.inside _ (sweep.keeps s holds)
      omega

theorem found_here_iff (nonempty : 0 < needle.size) :
    (∃ stop, (S.next s).1 = some (.found (cursor s) stop)) ↔ OccursAt needle hay (cursor s) := by
  constructor
  · rintro ⟨stop, answer⟩
    exact (sweep.covers holds _ answer).found_iff.mp rfl
  · intro occurs
    rcases sweep.outcome s holds with ⟨_, ended, _⟩ | ⟨step, answer, covers⟩
    · have fits := occurs.1
      omega
    · exact ⟨_, by rw [answer, covers.eq_found (covers.found_iff.mpr occurs)]⟩

theorem tiles : Tiles (S.toList s) (cursor s) hay.size := by
  fun_induction FiniteStream.toList S s with
  | case1 s t answer => exact (sweep.ended holds (by rw [answer])).1
  | case2 s step t answer ih =>
    have kept := sweep.keeps s holds
    have covers := sweep.covers holds step (by rw [answer])
    rw [answer] at kept covers
    refine ⟨covers.start, covers.stop ▸ covers.advances, ?_⟩
    rw [covers.stop]
    exact ih kept

omit holds in
theorem yields (Q : Nat → Prop) (stands : ∀ s, P s → Q (cursor s)) :
    FiniteStream.Yields P (fun step => Q step.start ∧ Q step.stop) S.next := by
  intro s holds
  have kept := sweep.keeps s holds
  refine ⟨?_, kept⟩
  intro step answer
  have covers := sweep.covers holds step answer
  rw [covers.start, covers.stop]
  exact ⟨stands s holds, stands _ kept⟩

theorem ends_at (Q : Nat → Prop) (stands : ∀ s, P s → Q (cursor s)) :
    ∀ step ∈ S.toList s, Q step.start ∧ Q step.stop :=
  (sweep.yields Q stands).toList holds

variable (nonempty : 0 < needle.size)
include nonempty

theorem then_rest : ((S.next s).1.bind Step.foundAt?).toList ++
    occurrencesFrom needle hay (cursor (S.next s).2) = occurrencesFrom needle hay (cursor s) := by
  rcases sweep.outcome s holds with ⟨none_left, ended, stays⟩ | ⟨step, answer, covers⟩
  · rw [none_left, ended, stays]
    rfl
  · rw [answer]
    exact forwardStep_then_rest nonempty covers

theorem found : (S.toList s).filter Step.isFound =
    (occurrencesFrom needle hay (cursor s)).map fun i => .found i (i + needle.size) := by
  fun_induction FiniteStream.toList S s with
  | case1 s t answer =>
    rw [(sweep.ended holds (by rw [answer])).1, occurrencesFrom_at_end nonempty]
    rfl
  | case2 s step t answer ih =>
    have kept := sweep.keeps s holds
    have covers := sweep.covers holds step (by rw [answer])
    rw [answer] at kept covers
    by_cases found : step.isFound = true
    · rw [List.filter_cons_of_pos found, ih kept,
        occurrencesFrom_of_occursAt nonempty (covers.found_iff.mp found), List.map_cons,
        covers.found_size found, covers.eq_found found]
    · rw [List.filter_cons_of_neg found, ih kept,
        occurrencesFrom_of_noneStarts nonempty (Nat.le_of_lt covers.advances)
          (covers.rejected (by simpa using found))]

theorem firstMatch : FirstMatch needle hay (cursor s) ((S.filter Step.isFound).next s).1
    (cursor ((S.filter Step.isFound).next s).2) := by
  simp only [FiniteStream.filter]
  fun_induction FiniteStream.findNext S Step.isFound s with
  | case1 s t answer =>
    have ended := sweep.ended holds (by rw [answer])
    rw [answer] at ended
    refine Or.inr ⟨rfl, ended.2, ?_⟩
    intro i from_s occurs
    have fits := occurs.1
    omega
  | case2 s step t answer found =>
    have covers := sweep.covers holds step (by rw [answer])
    rw [answer] at covers
    have here := firstMatch_here (covers.found_iff.mp found)
    rwa [← covers.eq_found found, ← covers.found_size found] at here
  | case3 s step t answer rejected ih =>
    have kept := sweep.keeps s holds
    have covers := sweep.covers holds step (by rw [answer])
    rw [answer] at kept covers
    exact firstMatch_of_skip (Nat.le_of_lt covers.advances)
      (covers.rejected (by simpa using rejected)) (ih kept)

end Sweeps

namespace SweepsBack
variable (sweep : SweepsBack needle hay S P cursor) (holds : P s)
include sweep holds

theorem ended (none_left : (S.next s).1 = none) : cursor s = 0 ∧ cursor (S.next s).2 = 0 := by
  rcases sweep.outcome s holds with ⟨_, ended⟩ | ⟨step, answer, _⟩
  · exact ended
  · rw [none_left] at answer
    cases answer

theorem covers (step : Step) (answer : (S.next s).1 = some step) :
    BackwardStep needle hay (cursor (S.next s).2) (cursor s) step := by
  rcases sweep.outcome s holds with ⟨none_left, _⟩ | ⟨other, some_step, covers⟩
  · rw [answer] at none_left
    cases none_left
  · rw [answer] at some_step
    exact Option.some.inj some_step ▸ covers

theorem none_iff : (S.next s).1 = none ↔ cursor s = 0 := by
  constructor
  · intro none_left
    exact (sweep.ended holds none_left).1
  · intro ended
    cases answer : (S.next s).1 with
    | none => rfl
    | some step =>
      have advances := (sweep.covers holds step answer).advances
      omega

theorem found_here_iff (nonempty : 0 < needle.size) :
    (∃ start, (S.next s).1 = some (.found start (cursor s))) ↔
      needle.size ≤ cursor s ∧ OccursAt needle hay (cursor s - needle.size) := by
  constructor
  · rintro ⟨start, answer⟩
    exact (sweep.covers holds _ answer).found_iff.mp rfl
  · intro ends
    rcases sweep.outcome s holds with ⟨_, ended, _⟩ | ⟨step, answer, covers⟩
    · omega
    · have found := covers.found_iff.mpr ends
      exact ⟨_, by rw [answer, covers.eq_found found, covers.found_size found]⟩

theorem tiles : Tiles (S.toList s).reverse 0 (cursor s) := by
  fun_induction FiniteStream.toList S s with
  | case1 s t answer => exact (sweep.ended holds (by rw [answer])).1.symm
  | case2 s step t answer ih =>
    have kept := sweep.keeps s holds
    have covers := sweep.covers holds step (by rw [answer])
    rw [answer] at kept covers
    have rest := ih kept
    have advances : step.start < step.stop := by
      rw [covers.start, covers.stop]
      exact covers.advances
    rw [← covers.start] at rest
    rw [List.reverse_cons, ← covers.stop]
    exact tiles_append rest (tiles_singleton advances)

omit holds in
theorem yields (Q : Nat → Prop) (stands : ∀ s, P s → Q (cursor s)) :
    FiniteStream.Yields P (fun step => Q step.start ∧ Q step.stop) S.next := by
  intro s holds
  have kept := sweep.keeps s holds
  refine ⟨?_, kept⟩
  intro step answer
  have covers := sweep.covers holds step answer
  rw [covers.start, covers.stop]
  exact ⟨stands _ kept, stands s holds⟩

theorem ends_at (Q : Nat → Prop) (stands : ∀ s, P s → Q (cursor s)) :
    ∀ step ∈ S.toList s, Q step.start ∧ Q step.stop :=
  (sweep.yields Q stands).toList holds

variable (nonempty : 0 < needle.size)
include nonempty

theorem then_rest : ((S.next s).1.bind Step.foundAt?).toList ++
    occurrencesBefore needle hay (cursor (S.next s).2) = occurrencesBefore needle hay (cursor s) := by
  rcases sweep.outcome s holds with ⟨none_left, ended, stays⟩ | ⟨step, answer, covers⟩
  · rw [none_left, ended, stays]
    rfl
  · rw [answer]
    exact backwardStep_then_rest nonempty covers

theorem found : (S.toList s).filter Step.isFound =
    (occurrencesBefore needle hay (cursor s)).map fun i => .found i (i + needle.size) := by
  fun_induction FiniteStream.toList S s with
  | case1 s t answer =>
    rw [(sweep.ended holds (by rw [answer])).1, occurrencesBefore_at_start nonempty]
    rfl
  | case2 s step t answer ih =>
    have kept := sweep.keeps s holds
    have covers := sweep.covers holds step (by rw [answer])
    rw [answer] at kept covers
    by_cases found : step.isFound = true
    · rw [List.filter_cons_of_pos found, ih kept,
        occurrencesBefore_of_occursAt nonempty (covers.occurs found) (covers.found_size found),
        List.map_cons, covers.eq_found found]
    · rw [List.filter_cons_of_neg found, ih kept,
        occurrencesBefore_of_noneEnds nonempty (Nat.le_of_lt covers.advances)
          (covers.rejected (by simpa using found))]

theorem lastMatch : LastMatch needle hay (cursor s) ((S.filter Step.isFound).next s).1
    (cursor ((S.filter Step.isFound).next s).2) := by
  simp only [FiniteStream.filter]
  fun_induction FiniteStream.findNext S Step.isFound s with
  | case1 s t answer =>
    have ended := sweep.ended holds (by rw [answer])
    rw [answer] at ended
    refine Or.inr ⟨rfl, ended.2, ?_⟩
    intro i upto
    omega
  | case2 s step t answer found =>
    have covers := sweep.covers holds step (by rw [answer])
    rw [answer] at covers
    have here := lastMatch_here (covers.occurs found) (covers.found_size found)
    rwa [← covers.eq_found found] at here
  | case3 s step t answer rejected ih =>
    have kept := sweep.keeps s holds
    have covers := sweep.covers holds step (by rw [answer])
    rw [answer] at kept covers
    exact lastMatch_of_skip (Nat.le_of_lt covers.advances)
      (covers.rejected (by simpa using rejected)) (ih kept)

end SweepsBack

/-- In states with `P` the stream goes straight from match to match. -/
structure Jumps (needle hay : Text) (S : FiniteStream σ Step) (P : σ → Prop) (cursor : σ → Nat) :
    Prop where
  inside : ∀ s, P s → cursor s ≤ hay.size
  keeps : ∀ s, P s → P (S.next s).2
  outcome : ∀ s, P s → FirstMatch needle hay (cursor s) (S.next s).1 (cursor (S.next s).2)

structure JumpsBack (needle hay : Text) (S : FiniteStream σ Step) (P : σ → Prop)
    (cursor : σ → Nat) : Prop where
  keeps : ∀ s, P s → P (S.next s).2
  outcome : ∀ s, P s → LastMatch needle hay (cursor s) (S.next s).1 (cursor (S.next s).2)

theorem Jumps.yields (jumps : Jumps needle hay S P cursor) : FiniteStream.Yields P
    (fun step => ∃ i, step = .found i (i + needle.size) ∧ OccursAt needle hay i) S.next := by
  intro s holds
  refine ⟨?_, jumps.keeps s holds⟩
  intro step answer
  rcases jumps.outcome s holds with ⟨i, found, _, first⟩ | ⟨none_left, _⟩
  · exact ⟨i, Option.some.inj (answer.symm.trans found), first.2.1⟩
  · rw [answer] at none_left
    cases none_left

theorem JumpsBack.yields (jumps : JumpsBack needle hay S P cursor) : FiniteStream.Yields P
    (fun step => ∃ i, step = .found i (i + needle.size) ∧ OccursAt needle hay i) S.next := by
  intro s holds
  refine ⟨?_, jumps.keeps s holds⟩
  intro step answer
  rcases jumps.outcome s holds with ⟨i, found, _, last⟩ | ⟨none_left, _⟩
  · exact ⟨i, Option.some.inj (answer.symm.trans found), last.2.1⟩
  · rw [answer] at none_left
    cases none_left

section Drained
variable (nonempty : 0 < needle.size)
include nonempty

theorem Jumps.toList (jumps : Jumps needle hay S P cursor) (holds : P s) : S.toList s =
    (occurrencesFrom needle hay (cursor s)).map fun i => .found i (i + needle.size) := by
  fun_induction FiniteStream.toList S s with
  | case1 s t answer =>
    have jump := jumps.outcome s holds
    rw [answer] at jump
    rcases jump with ⟨i, no, _⟩ | ⟨_, stop, none_left⟩
    · cases no
    · rw [occurrencesFrom_of_noneStarts nonempty (jumps.inside s holds)
        (fun i after _ => none_left i after), occurrencesFrom_at_end nonempty]
      rfl
  | case2 s step t answer ih =>
    have kept := jumps.keeps s holds
    have jump := jumps.outcome s holds
    rw [answer] at kept jump
    rcases jump with ⟨i, found, stop, first⟩ | ⟨no, _⟩
    · simp only at stop
      rw [ih kept, occurrencesFrom_of_leftmost nonempty first, stop, List.map_cons,
        Option.some.inj found]
    · cases no

theorem JumpsBack.toList (jumps : JumpsBack needle hay S P cursor) (holds : P s) : S.toList s =
    (occurrencesBefore needle hay (cursor s)).map fun i => .found i (i + needle.size) := by
  fun_induction FiniteStream.toList S s with
  | case1 s t answer =>
    have jump := jumps.outcome s holds
    rw [answer] at jump
    rcases jump with ⟨i, no, _⟩ | ⟨_, _, none_left⟩
    · cases no
    · rw [occurrencesBefore_of_noneEnds nonempty (Nat.zero_le _)
        (fun i _ upto => none_left i upto), occurrencesBefore_at_start nonempty]
      rfl
  | case2 s step t answer ih =>
    have kept := jumps.keeps s holds
    have jump := jumps.outcome s holds
    rw [answer] at kept jump
    rcases jump with ⟨i, found, start, last⟩ | ⟨no, _⟩
    · simp only at start
      rw [ih kept, occurrencesBefore_of_rightmost nonempty last, start, List.map_cons,
        Option.some.inj found]
    · cases no

end Drained
end Text
end TextSearch
