import TextSearch.Text.Basic

/-!
What it means that a needle occurs in a haystack, and the plain scans that list the occurrences one
after another without overlap, from the left and from the right.
-/
namespace TextSearch
namespace Text

/-- The bytes of `needle` stand in `hay` from offset `i` on. -/
def OccursAt (needle hay : Text) (i : Nat) : Prop :=
  i + needle.size ≤ hay.size ∧ ∀ k, k < needle.size → hay.byteAt (i + k) = needle.byteAt k

def occursAt (needle hay : Text) (i : Nat) : Bool :=
  decide (i + needle.size ≤ hay.size) &&
    agreeBelow (fun k => hay.byteAt (i + k)) needle.byteAt needle.size

theorem occursAt_iff {needle hay : Text} {i : Nat} :
    occursAt needle hay i = true ↔ OccursAt needle hay i := by
  simp [occursAt, OccursAt, agreeBelow_iff]

instance (needle hay : Text) (i : Nat) : Decidable (OccursAt needle hay i) :=
  decidable_of_iff _ occursAt_iff

/-- The leftmost occurrence of a non-empty needle at or after `i`, then the leftmost one behind it,
    and so on. -/
def occurrencesFrom (needle hay : Text) (i : Nat) : List Nat :=
  if 0 < needle.size ∧ i + needle.size ≤ hay.size then
    if OccursAt needle hay i then i :: occurrencesFrom needle hay (i + needle.size)
    else occurrencesFrom needle hay (i + 1)
  else []
termination_by hay.size + 1 - i
decreasing_by all_goals omega

/-- The rightmost occurrence of a non-empty needle that ends at or before `stop`, then the rightmost
    one before it, and so on. -/
def occurrencesBefore (needle hay : Text) (stop : Nat) : List Nat :=
  if 0 < needle.size ∧ needle.size ≤ stop then
    if OccursAt needle hay (stop - needle.size) then
      (stop - needle.size) :: occurrencesBefore needle hay (stop - needle.size)
    else occurrencesBefore needle hay (stop - 1)
  else []
termination_by stop
decreasing_by all_goals omega

def occurrences (needle hay : Text) : List Nat := occurrencesFrom needle hay 0

end Text
end TextSearch
