import TextSearch.Proofs.Find
import TextSearch.Proofs.Workload.Sample

/-!
Drawn corpora pass their own checks, whatever the generator draws. A haystack is filled letter by letter,
and what every letter keeps the whole haystack has; its needles are stretches of it.
-/
namespace TextSearch
namespace Workload
open Text Utf8
variable {d : Dataset} {size : Nat} {gen : StdGen}

section Fill
variable {letters : Array (List UInt8)} {bytes : Array UInt8} {fuel : Nat}

theorem fill_of_full (full : size ≤ bytes.size) : fill letters size fuel bytes gen = (bytes, gen) := by
  cases fuel with
  | zero => rfl
  | succ fuel => rw [fill, if_pos full]

theorem fill_of_few (few : bytes.size < size) : fill letters size (fuel + 1) bytes gen =
    fill letters size fuel (bytes ++ letters.getD (randNat gen 0 (letters.size - 1)).1 [])
      (randNat gen 0 (letters.size - 1)).2 := by
  rw [fill, if_neg (Nat.not_le_of_lt few)]

theorem size_append (bytes : Array UInt8) (letter : List UInt8) :
    (bytes ++ letter).size = bytes.size + letter.length := by
  rw [← Array.length_toList, Array.toList_appendList, List.length_append, Array.length_toList]

variable (nonempty : 0 < letters.size)
include nonempty

theorem letter_drawn (gen : StdGen) :
    letters.getD (randNat gen 0 (letters.size - 1)).1 [] ∈ letters := by
  have picked : (randNat gen 0 (letters.size - 1)).1 < letters.size :=
    Nat.lt_of_le_of_lt (randNat_le gen _) (Nat.sub_one_lt_of_lt nonempty)
  rw [Array.getD_eq_getD_getElem?, Array.getElem?_eq_getElem picked]
  exact Array.getElem_mem _

theorem fill_keeps {P : Array UInt8 → Prop}
    (keeps : ∀ bytes, P bytes → bytes.size < size → ∀ letter ∈ letters, P (bytes ++ letter))
    (start : P bytes) : P (fill letters size fuel bytes gen).1 := by
  induction fuel generalizing bytes gen with
  | zero => exact start
  | succ fuel ih =>
    rcases Nat.lt_or_ge bytes.size size with few | full
    · rw [fill_of_few few]
      exact ih (keeps bytes start few _ (letter_drawn nonempty gen))
    · rw [fill_of_full full]
      exact start

theorem size_le_fill (visible : ∀ letter ∈ letters, 0 < letter.length)
    (enough : size ≤ bytes.size + fuel) : size ≤ (fill letters size fuel bytes gen).1.size := by
  induction fuel generalizing bytes gen with
  | zero => exact enough
  | succ fuel ih =>
    rcases Nat.lt_or_ge bytes.size size with few | full
    · have grows := visible _ (letter_drawn nonempty gen)
      rw [fill_of_few few]
      apply ih
      rw [size_append]
      omega
    · rw [fill_of_full full]
      exact full

end Fill

section Haystack
variable (d) (size) (gen : StdGen)

theorem letters_wellFormed : ∀ letter ∈ d.alphabet,
    wellFormedBytes letter = true ∧ 0 < letter.length ∧ letter.length ≤ 4 := by
  cases d <;> decide

theorem letters_single (plain : d ≠ .mixed) : ∀ letter ∈ d.alphabet, ∃ b, letter = [b] := by
  intro letter member
  apply List.length_eq_one_iff.mp
  revert letter
  cases d with
  | poor => decide
  | rich => decide
  | mixed => exact absurd rfl plain

theorem exists_letter : 0 < d.alphabet.toArray.size := by cases d <;> decide

theorem drawHaystack_keeps {P : Array UInt8 → Prop} (start : P #[])
    (keeps : ∀ bytes, P bytes → bytes.size < size → ∀ letter ∈ d.alphabet, P (bytes ++ letter)) :
    ∃ bytes, P bytes ∧ (drawHaystack d size gen).1 = .ofArray bytes :=
  ⟨_, fill_keeps (exists_letter d) (fun bytes here few letter member =>
    keeps bytes here few letter (List.mem_toArray.mp member)) start, rfl⟩

theorem wellFormed_drawHaystack : wellFormed (drawHaystack d size gen).1 = true := by
  obtain ⟨bytes, accepted, drawn⟩ := drawHaystack_keeps d size gen
    (P := fun bytes => wellFormedBytes bytes.toList = true) rfl
    (fun bytes front _ letter member => by
      rw [Array.toList_appendList, ← whole_iff, (whole_of_wellFormed front).append_iff, whole_iff]
      exact (letters_wellFormed d letter member).1)
  rw [drawn, wellFormed, toList_ofArray]
  exact accepted

theorem size_drawHaystack : size ≤ (drawHaystack d size gen).1.size ∧
    (drawHaystack d size gen).1.size ≤ size + 3 := by
  constructor
  · apply size_le_fill (exists_letter d)
    · intro letter member
      exact (letters_wellFormed d letter (List.mem_toArray.mp member)).2.1
    · exact Nat.le_add_left _ _
  · obtain ⟨bytes, most, drawn⟩ := drawHaystack_keeps d size gen
      (P := fun bytes => bytes.size ≤ size + 3) (Nat.zero_le _)
      (fun bytes _ few letter member => by
        have short := (letters_wellFormed d letter member).2.2
        rw [size_append]
        omega)
    rw [drawn]
    exact most

theorem drawHaystack_alphabet (plain : d ≠ .mixed) :
    (∀ b ∈ (drawHaystack d size gen).1.toList, [b] ∈ d.alphabet) ∧
      (drawHaystack d size gen).1.size = size := by
  obtain ⟨bytes, ⟨kept, most⟩, drawn⟩ := drawHaystack_keeps d size gen
    (P := fun bytes => (∀ b ∈ bytes.toList, [b] ∈ d.alphabet) ∧ bytes.size ≤ size)
    ⟨by simp, Nat.zero_le _⟩
    (fun bytes ⟨front, _⟩ few letter member => by
      obtain ⟨b, rfl⟩ := letters_single d plain letter member
      rw [Array.toList_appendList, size_append, List.length_singleton]
      refine ⟨?_, few⟩
      rw [List.forall_mem_append, List.forall_mem_singleton]
      exact ⟨front, member⟩)
  have least := (size_drawHaystack d size gen).1
  rw [drawn] at least ⊢
  rw [toList_ofArray]
  exact ⟨kept, Nat.le_antisymm most least⟩

end Haystack

section Needles
variable {hay needle : Text} {characters offset : Nat}

theorem length_drawNeedles (n : Nat) (gen : StdGen) :
    (drawNeedles hay characters n gen).1.length = n := by
  induction n generalizing gen with
  | zero => rfl
  | succ n ih => exact congrArg Nat.succ (ih _)

variable (stretch : IsStretch hay characters offset needle)
include stretch

theorem IsStretch.wellFormed (accepted : wellFormed hay = true) : wellFormed needle = true := by
  obtain ⟨stop, _, boundary, rfl, _⟩ := stretch.stops
  exact wellFormed_slice accepted stretch.starts boundary

theorem IsStretch.contains : hay.contains (.substring needle) = true := by
  obtain ⟨stop, _, _, rfl, _⟩ := stretch.stops
  have begins : hay.toList.drop (ceilBoundary hay offset) =
      (hay.slice (ceilBoundary hay offset) stop).toList ++
        (hay.toList.drop (ceilBoundary hay offset)).drop (stop - ceilBoundary hay offset) := by
    rw [toList_slice, List.take_append_drop]
  exact contains_substring_iff.mpr ⟨_, occursAt_of_drop (isBoundary_le stretch.starts) begins⟩

end Needles

namespace Corpus
variable (d : Dataset) (e : Extent) (gen : StdGen)

theorem haystack_draw : (draw d e gen).1.haystack = (drawHaystack d e.size gen).1 := by
  rw [draw]

theorem needles_draw : (draw d e gen).1.needles =
    (drawNeedles (drawHaystack d e.size gen).1 e.characters needleCount
      (drawHaystack d e.size gen).2).1 := by
  rw [draw]

theorem fits_draw : (draw d e gen).1.fits e.size = true := by
  obtain ⟨least, most⟩ := size_drawHaystack d e.size gen
  rw [fits, haystack_draw, wellFormed_drawHaystack, decide_eq_true least, decide_eq_true most]
  rfl

theorem keepsAlphabet_draw (plain : d ≠ .mixed) : (draw d e gen).1.keepsAlphabet d = true := by
  rw [keepsAlphabet, haystack_draw, List.all_eq_true]
  intro b member
  exact List.contains_iff_mem.mpr ((drawHaystack_alphabet d e.size gen plain).1 b member)

theorem needlesArePieces_draw : (draw d e gen).1.needlesArePieces e.characters = true := by
  rw [needlesArePieces, haystack_draw, needles_draw, List.all_eq_true]
  intro needle member
  obtain ⟨offset, _, rfl⟩ := drawNeedles_sampled _ _ _ _ needle member
  have accepted := wellFormed_drawHaystack d e.size gen
  have stretch := isStretch_sampleAt accepted e.characters offset
  rw [stretch.wellFormed accepted, stretch.contains, decide_eq_true stretch.most]
  rfl

/-- Every corpus that is drawn passes its checks, and it has as many needles as it should. Its haystack
    has exactly as many bytes as asked for, where all letters have one. -/
theorem draw_passes_checks :
    (draw d e gen).1.fits e.size = true ∧
      (draw d e gen).1.needlesArePieces e.characters = true ∧
      (draw d e gen).1.needles.length = needleCount ∧
      (d ≠ .mixed →
        (draw d e gen).1.keepsAlphabet d = true ∧ (draw d e gen).1.haystack.size = e.size) := by
  refine ⟨fits_draw d e gen, needlesArePieces_draw d e gen, ?_, ?_⟩
  · rw [needles_draw, length_drawNeedles]
  · intro plain
    refine ⟨keepsAlphabet_draw d e gen plain, ?_⟩
    rw [haystack_draw]
    exact (drawHaystack_alphabet d e.size gen plain).2

end Corpus
end Workload
end TextSearch
