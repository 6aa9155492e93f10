import TextSearch.Proofs.Text.Sweep

/-!
Copies of a needle that stand one behind another at an end of a text: whichever stream of steps is
asked for the first stretch it rejects, that stretch begins where the copies end.
-/
namespace TextSearch
namespace Text
variable {needle hay : Text} {i j : Nat}

/-- The offset behind the copies of a non-empty needle that stand one behind another from `i` on. -/
def behindCopies (needle hay : Text) (i : Nat) : Nat :=
  if 0 < needle.size ∧ OccursAt needle hay i then behindCopies needle hay (i + needle.size) else i
termination_by hay.size - i
decreasing_by
  rename_i copy
  have fits := copy.2.1
  omega

def beforeCopies (needle hay : Text) (j : Nat) : Nat :=
  if 0 < needle.size ∧ needle.size ≤ j ∧ OccursAt needle hay (j - needle.size) then
    beforeCopies needle hay (j - needle.size)
  else j

theorem behindCopies_of_occursAt (nonempty : 0 < needle.size) (occurs : OccursAt needle hay i) :
    behindCopies needle hay i = behindCopies needle hay (i + needle.size) := by
  rw [behindCopies, if_pos ⟨nonempty, occurs⟩]

theorem behindCopies_of_differs (differs : ¬ OccursAt needle hay i) :
    behindCopies needle hay i = i := by
  rw [behindCopies, if_neg fun copy => differs copy.2]

theorem beforeCopies_of_occursAt (nonempty : 0 < needle.size) (occurs : OccursAt needle hay i) :
    beforeCopies needle hay (i + needle.size) = beforeCopies needle hay i := by
  have start : i + needle.size - needle.size = i := Nat.add_sub_cancel i needle.size
  rw [beforeCopies, start, if_pos ⟨nonempty, Nat.le_add_left _ _, occurs⟩]

theorem beforeCopies_of_differs
    (differs : ¬ (needle.size ≤ j ∧ OccursAt needle hay (j - needle.size))) :
    beforeCopies needle hay j = j := by
  rw [beforeCopies, if_neg fun copy => differs copy.2]

section Streams
variable {σ : Type} {S : FiniteStream σ Step} {P : σ → Prop} {cursor : σ → Nat} {s : σ}

theorem Sweeps.firstMiss (sweep : Sweeps needle hay S P cursor) (nonempty : 0 < needle.size)
    (holds : P s) : (((S.filter Step.isRejected).next s).1.map Step.start).getD hay.size =
      behindCopies needle hay (cursor s) := by
  show ((S.findNext Step.isRejected s).1.map Step.start).getD hay.size = _
  fun_induction FiniteStream.findNext S Step.isRejected s with
  | case1 s t answer =>
    have ended := (sweep.ended holds (by rw [answer])).1
    have differs : ¬ OccursAt needle hay hay.size := by
      intro occurs
      have fits := occurs.1
      omega
    rw [ended, behindCopies_of_differs differs]
    rfl
  | case2 s step t answer rejected =>
    have covers := sweep.covers holds step (by rw [answer])
    have differs : ¬ OccursAt needle hay (cursor s) := by
      rw [← covers.found_iff]
      simpa [Step.isRejected] using rejected
    rw [behindCopies_of_differs differs]
    exact covers.start
  | case3 s step t answer matched ih =>
    have kept := sweep.keeps s holds
    have covers := sweep.covers holds step (by rw [answer])
    rw [answer] at kept covers
    have found : step.isFound = true := by simpa [Step.isRejected] using matched
    rw [ih kept, behindCopies_of_occursAt nonempty (covers.found_iff.mp found),
      covers.found_size found]

theorem SweepsBack.lastMiss (sweep : SweepsBack needle hay S P cursor) (nonempty : 0 < needle.size)
    (holds : P s) : (((S.filter Step.isRejected).next s).1.map Step.stop).getD 0 =
      beforeCopies needle hay (cursor s) := by
  show ((S.findNext Step.isRejected s).1.map Step.stop).getD 0 = _
  fun_induction FiniteStream.findNext S Step.isRejected s with
  | case1 s t answer =>
    have ended := (sweep.ended holds (by rw [answer])).1
    rw [ended, beforeCopies_of_differs (by omega)]
    rfl
  | case2 s step t answer rejected =>
    have covers := sweep.covers holds step (by rw [answer])
    have differs : ¬ (needle.size ≤ cursor s ∧ OccursAt needle hay (cursor s - needle.size)) := by
      rw [← covers.found_iff]
      simpa [Step.isRejected] using rejected
    rw [beforeCopies_of_differs differs]
    exact covers.stop
  | case3 s step t answer matched ih =>
    have kept := sweep.keeps s holds
    have covers := sweep.covers holds step (by rw [answer])
    rw [answer] at kept covers
    have found : step.isFound = true := by simpa [Step.isRejected] using matched
    have same := beforeCopies_of_occursAt nonempty (covers.occurs found)
    rw [covers.found_size found] at same
    rw [ih kept, same]

end Streams
end Text
end TextSearch
