import TextSearch.Proofs.Utf8.Boundary
import TextSearch.Proofs.Utf8.Spelling

/-!
Characters where they stand in a text. From either end of a character its bytes tell how long it is
and what it is, and no other byte has to be read for that.
-/
namespace TextSearch
open Utf8

namespace Fenced
variable {byte : Nat → Option UInt8} {t : Text} {i l n : Nat}

/-- The offset of the nearest byte at or before an offset, at most so many steps away, that is no
    continuation byte. The last byte is read too, though the walk ends there whatever it is. -/
def leadBefore (byte : Nat → Option UInt8) : Nat → Nat → Option Nat
  | _, 0 => some 0
  | 0, i + 1 => (byte (i + 1)).map fun _ => i + 1
  | steps + 1, i + 1 => do
    let b ← byte (i + 1)
    if isContinuation b then leadBefore byte steps i else some (i + 1)

/-- The nearest boundary at or before an offset. Both ends of the text are boundaries whatever stands
    there. -/
def floorBoundary (byte : Nat → Option UInt8) (size : Nat) : Nat → Option Nat
  | 0 => some 0
  | i + 1 =>
    if i + 1 = size then some (i + 1)
    else if size < i + 1 then floorBoundary byte size i
    else do
      let b ← byte (i + 1)
      if isContinuation b then floorBoundary byte size i else some (i + 1)

theorem leadBefore_total (t : Text) (n i : Nat) :
    leadBefore (fun k => some (t.byteAt k)) n i = some (decodeBefore.leadBefore t n i) := by
  induction i generalizing n with
  | zero => cases n <;> rfl
  | succ i ih =>
    cases n with
    | zero => rfl
    | succ n =>
      simp only [leadBefore, decodeBefore.leadBefore, Option.bind_eq_bind, Option.bind_some]
      split
      next => exact ih n
      next => rfl

theorem floorBoundary_total (t : Text) (i : Nat) :
    floorBoundary (fun k => some (t.byteAt k)) t.size i = some (Utf8.floorBoundary t i) := by
  induction i with
  | zero => rfl
  | succ i ih =>
    simp only [floorBoundary, Utf8.floorBoundary, Option.bind_eq_bind, Option.bind_some, ih]
    by_cases last : i + 1 = t.size
    · rw [if_pos last, if_pos (isBoundary_iff.mpr (Or.inr (Or.inl last)))]
    · rw [if_neg last]
      by_cases past : t.size < i + 1
      · rw [if_pos past, if_neg (fun boundary => by have := isBoundary_le boundary; omega)]
      · rw [if_neg past]
        have inside : i + 1 < t.size := by omega
        cases byte : isContinuation (t.byteAt (i + 1)) with
        | true => simp [isBoundary, last, byte]
        | false => simp [isBoundary, inside, byte]

section Trail
variable (has : ∀ k, i ≤ k → k ≤ l → byte k = some (t.byteAt k)) (le : i ≤ l)
  (begins : isContinuation (t.byteAt i) = false)
  (continues : ∀ k, i < k → k ≤ l → isContinuation (t.byteAt k) = true)
include has le begins continues

theorem leadBefore_of_trail (near : l ≤ i + n) : leadBefore byte n l = some i := by
  -- the walk goes down from `l` over bytes that continue the one at `i`
  induction l generalizing n with
  | zero =>
    obtain rfl : i = 0 := by omega
    cases n <;> rfl
  | succ l ih =>
    have here := has (l + 1) (by omega) (by omega)
    by_cases lead : i = l + 1
    · subst lead
      cases n with
      | zero => simp [leadBefore, here]
      | succ n => simp [leadBefore, here, begins]
    · obtain ⟨m, rfl⟩ : ∃ m, n = m + 1 := ⟨n - 1, by omega⟩
      have behind := continues (l + 1) (by omega) (by omega)
      simp only [leadBefore, here, Option.bind_eq_bind, Option.bind_some, behind, if_true]
      exact ih (fun k first last => has k first (by omega)) (by omega)
        (fun k first last => continues k first (by omega)) (by omega)

theorem floorBoundary_of_trail (inside : l < n) : floorBoundary byte n l = some i := by
  induction l with
  | zero =>
    obtain rfl : i = 0 := by omega
    rfl
  | succ l ih =>
    have here := has (l + 1) (by omega) (by omega)
    simp only [floorBoundary, here, Option.bind_eq_bind, Option.bind_some]
    rw [if_neg (by omega), if_neg (by omega)]
    by_cases lead : i = l + 1
    · subst lead
      rw [begins]
      rfl
    · rw [continues (l + 1) (by omega) (by omega), if_pos rfl]
      exact ih (fun k first last => has k first (by omega)) (by omega)
        (fun k first last => continues k first (by omega)) (by omega)

end Trail
end Fenced

namespace Utf8
open Text
variable {t : Text} {i j k l : Nat} {c : Rune} {cs ds : List Rune}

theorem Denotes.high_iff {l : List UInt8} {v : Nat} (h : Denotes l v) :
    ∀ b ∈ l, 0x80 ≤ b.toNat ↔ 0x80 ≤ v := by
  cases h <;> simp only [List.forall_mem_cons, List.not_mem_nil, false_implies, implies_true,
    and_true] <;> omega

/-- The character `c` stands in the text from `i` up to `j`. -/
structure Stands (t : Text) (i : Nat) (c : Rune) (j : Nat) : Prop where
  scalar : isScalar c = true
  stop : j = i + (encode c).length
  bytes : t.toList.drop i = encode c ++ t.toList.drop j

namespace Stands
variable (stands : Stands t i c j)
include stands

theorem length_pos : 0 < (encode c).length := by
  obtain ⟨lead, trail, same⟩ := (denotes_encode stands.scalar).exists_cons
  simp [same]

theorem advances : i < j := by
  have := stands.stop
  have := stands.length_pos
  omega

theorem inside : j ≤ t.size := by
  have stop := stands.stop
  have positive := stands.length_pos
  have length := congrArg List.length stands.bytes
  simp only [List.length_drop, length_toList, List.length_append] at length
  omega

theorem getElem?_encode (first : i ≤ k) (before : k < j) :
    (encode c)[k - i]? = some (t.byteAt k) := by
  have stop := stands.stop
  have inside := stands.inside
  rw [← getElem?_toList t k (by omega), ← List.getElem?_append_left (by omega), ← stands.bytes,
    List.getElem?_drop]
  congr 1
  omega

theorem high_iff (first : i ≤ k) (before : k < j) : 0x80 ≤ t.byteAt k ↔ 0x80 ≤ c := by
  have member := List.mem_of_getElem? (stands.getElem?_encode first before)
  rw [UInt8.le_iff_toNat_le, UInt32.le_iff_toNat_le]
  exact (denotes_encode stands.scalar).high_iff _ member

theorem lead : isContinuation (t.byteAt i) = false ∧ leadLength (t.byteAt i) = j - i := by
  obtain ⟨lead, trail, same, character⟩ := Spells.isCharacter_encode stands.scalar
  have stop := stands.stop
  have head := stands.getElem?_encode (Nat.le_refl i) stands.advances
  rw [same, Nat.sub_self, List.getElem?_cons_zero] at head
  rw [← Option.some.inj head]
  rw [same, List.length_cons] at stop
  exact ⟨character.begins, by rw [character.length]; omega⟩

theorem lead_stop : i + leadLength (t.byteAt i) = j := by
  have advances := stands.advances
  rw [stands.lead.2]
  omega

theorem boundary : isBoundary t i = true := by
  have advances := stands.advances
  have inside := stands.inside
  exact isBoundary_iff.mpr (Or.inr (Or.inr ⟨by omega, stands.lead.1⟩))

theorem continues (first : i < k) (before : k < j) : isContinuation (t.byteAt k) = true := by
  obtain ⟨lead, trail, same, character⟩ := Spells.isCharacter_encode stands.scalar
  have byte := stands.getElem?_encode (Nat.le_of_lt first) before
  obtain ⟨n, offset⟩ : ∃ n, k - i = n + 1 := ⟨k - i - 1, by omega⟩
  rw [same, offset, List.getElem?_cons_succ] at byte
  exact character.continues _ (List.mem_of_getElem? byte)

theorem le_of_boundary (boundary : isBoundary t k = true) (behind : i < k) : j ≤ k := by
  have inside := stands.inside
  rcases Nat.lt_or_ge k j with within | le
  · rcases isBoundary_iff.mp boundary with start | stop | ⟨_, begins⟩
    · omega
    · omega
    · rw [stands.continues behind within] at begins
      cases begins
  · exact le

theorem next_behind {d : Rune} {l : Nat} (other : Stands t k d l) (behind : i < k) : j ≤ k :=
  stands.le_of_boundary other.boundary behind

theorem unique {d : Rune} {l : Nat} (other : Stands t i d l) : c = d ∧ j = l := by
  obtain rfl : c = d :=
    Spells.head_unique stands.scalar other.scalar (stands.bytes.symm.trans other.bytes)
  exact ⟨rfl, stands.stop.trans other.stop.symm⟩

theorem shift : Stands (t.slice i t.size) 0 c (j - i) where
  scalar := stands.scalar
  stop := by
    have stop := stands.stop
    omega
  bytes := by
    have advances := stands.advances
    have same : i + (j - i) = j := by omega
    have behind : (t.slice i t.size).toList = t.toList.drop i := by
      rw [toList_slice, List.take_of_length_le (by simp)]
    rw [behind, List.drop_zero, List.drop_drop, same]
    exact stands.bytes

section Reading
variable {byte : Nat → Option UInt8} (has : ∀ k, i ≤ k → k < j → byte k = some (t.byteAt k))
include has

theorem decode : ∃ found : Character, found.rune = c ∧ found.length = j - i ∧
    Fenced.decode (fun k => byte (i + k)) = some (some found) := by
  have stop := stands.stop
  have bytes : ∀ k, k < (encode c).length → byte (i + k) = (encode c)[k]? := by
    intro k within
    rw [has (i + k) (by omega) (by omega),
      ← stands.getElem?_encode (Nat.le_add_right i k) (by omega), Nat.add_sub_cancel_left]
  obtain ⟨found, answer, value, length⟩ := (denotes_encode stands.scalar).decode bytes
  exact ⟨found, UInt32.toNat_inj.mp value, by omega, answer⟩

theorem leadBefore : Fenced.leadBefore byte 3 (j - 1) = some i := by
  have advances := stands.advances
  obtain ⟨begins, length⟩ := stands.lead
  have most := leadLength_le (t.byteAt i)
  exact Fenced.leadBefore_of_trail (fun k first last => has k first (by omega)) (by omega) begins
    (fun k first last => stands.continues first (by omega)) (by omega)

theorem floorBoundary : Fenced.floorBoundary byte t.size (j - 1) = some i := by
  have advances := stands.advances
  have inside := stands.inside
  exact Fenced.floorBoundary_of_trail (fun k first last => has k first (by omega)) (by omega)
    stands.lead.1 (fun k first last => stands.continues first (by omega)) (by omega)

end Reading

theorem decodeAt : ∃ found : Character, found.rune = c ∧ found.length = j - i ∧
    Utf8.decodeAt t i = some found := by
  obtain ⟨found, value, length, answer⟩ := stands.decode fun k _ _ => rfl
  rw [Fenced.decode_total] at answer
  exact ⟨found, value, length, Option.some.inj answer⟩

theorem characterAt : (characterAt t i).rune = c ∧ (Utf8.characterAt t i).length = j - i := by
  obtain ⟨found, value, length, decoded⟩ := stands.decodeAt
  rw [Utf8.characterAt, decoded]
  exact ⟨value, length⟩

theorem floorBoundary_last : Utf8.floorBoundary t (j - 1) = i := by
  have walked := stands.floorBoundary fun _ _ _ => rfl
  rw [Fenced.floorBoundary_total] at walked
  exact Option.some.inj walked

theorem decodeBefore : Utf8.decodeBefore t j = Utf8.decodeAt t i := by
  have walked := stands.leadBefore fun _ _ _ => rfl
  rw [Fenced.leadBefore_total] at walked
  rw [Utf8.decodeBefore, Option.some.inj walked]

end Stands

theorem slice_of_stands (stands : Stands t i c j) : (t.slice i j).toList = encode c := by
  have stop := stands.stop
  have length : j - i = (encode c).length := by omega
  rw [toList_slice, stands.bytes, length, List.take_left]

/-- The characters stand in the text one behind another, from `i` up to `j`. -/
inductive Run (t : Text) : Nat → List Rune → Nat → Prop where
  | nil {i : Nat} : Run t i [] i
  | cons {i j k : Nat} {c : Rune} {cs : List Rune} (first : Stands t i c j) (others : Run t j cs k) :
    Run t i (c :: cs) k

namespace Run

theorem le (run : Run t i cs j) : i ≤ j := by
  induction run with
  | nil => exact Nat.le_refl _
  | cons first _ ih => exact Nat.le_trans (Nat.le_of_lt first.advances) ih

theorem eq_nil (run : Run t i cs i) : cs = [] := by
  cases run with
  | nil => rfl
  | cons first others =>
    have advances := first.advances
    have le := others.le
    omega

theorem append_iff : Run t i (cs ++ ds) k ↔ ∃ j, Run t i cs j ∧ Run t j ds k := by
  induction cs generalizing i with
  | nil =>
    constructor
    · exact fun run => ⟨i, .nil, run⟩
    · rintro ⟨j, run, behind⟩
      cases run
      exact behind
  | cons c cs ih =>
    constructor
    · intro run
      cases run with
      | cons first others =>
        obtain ⟨j, before, behind⟩ := ih.mp others
        exact ⟨j, .cons first before, behind⟩
    · rintro ⟨j, run, behind⟩
      cases run with
      | cons first others => exact .cons first (ih.mpr ⟨j, others, behind⟩)

theorem concat_iff : Run t i (cs ++ [c]) k ↔ ∃ j, Run t i cs j ∧ Stands t j c k := by
  rw [append_iff]
  constructor
  · rintro ⟨j, others, last⟩
    cases last with
    | cons stands none_left =>
      cases none_left
      exact ⟨j, others, stands⟩
  · rintro ⟨j, others, stands⟩
    exact ⟨j, others, .cons stands .nil⟩

theorem cases_last (run : Run t i cs k) :
    (cs = [] ∧ i = k) ∨ ∃ ds d j, cs = ds ++ [d] ∧ Run t i ds j ∧ Stands t j d k := by
  rcases List.eq_nil_or_concat cs with rfl | ⟨ds, d, rfl⟩
  · cases run
    exact Or.inl ⟨rfl, rfl⟩
  · rw [List.concat_eq_append] at run ⊢
    obtain ⟨j, others, stands⟩ := concat_iff.mp run
    exact Or.inr ⟨ds, d, j, rfl, others, stands⟩

theorem of_spells (spelled : Spells cs (t.toList.drop i)) (inside : i ≤ t.size) :
    Run t i cs t.size := by
  induction cs generalizing i with
  | nil =>
    have none_left : (t.toList.drop i).length = 0 := by rw [← spelled.2]; rfl
    rw [List.length_drop, length_toList] at none_left
    obtain rfl : i = t.size := by omega
    exact .nil
  | cons c cs ih =>
    obtain ⟨scalar, rest, bytes, others⟩ := spelled.split
    have behind : t.toList.drop (i + (encode c).length) = rest := by
      rw [← List.drop_drop, bytes, List.drop_left]
    have first : Stands t i c (i + (encode c).length) := ⟨scalar, rfl, behind ▸ bytes⟩
    exact .cons first (ih (behind ▸ others) first.inside)

theorem spells (run : Run t i cs j) : Spells cs (t.slice i j).toList := by
  induction run with
  | @nil i =>
    have none_left : (t.slice i i).toList = [] := by
      rw [toList_slice, Nat.sub_self, List.take_zero]
    rw [none_left]
    exact .nil
  | cons first others ih =>
    rw [← slice_append t (Nat.le_of_lt first.advances) others.le, slice_of_stands first]
    exact .cons first.scalar ih

theorem whole_iff : Run t 0 cs t.size ↔ Spells cs t.toList := by
  constructor
  · intro run
    have spelled := run.spells
    rwa [slice_self] at spelled
  · exact fun spelled => of_spells spelled (Nat.zero_le _)

theorem mem_of_stands (run : Run t i cs k) (stands : Stands t j c l) (from_i : i ≤ j)
    (before : j < k) : c ∈ cs := by
  induction run with
  | nil => omega
  | @cons i n k d cs first others ih =>
    by_cases here : i = j
    · subst here
      rw [(stands.unique first).1]
      exact List.mem_cons_self
    · have behind : n ≤ j := first.next_behind stands (by omega)
      exact List.mem_cons_of_mem d (ih behind before)

end Run

theorem exists_stands (accepted : wellFormed t = true) (boundary : isBoundary t i = true)
    (before : i < t.size) : ∃ c j, Stands t i c j := by
  obtain ⟨cs, spelled⟩ := wellFormedBytes_iff.mp (whole_iff.mp (whole_behind accepted boundary))
  have run : Run t i cs t.size := Run.of_spells spelled (isBoundary_le boundary)
  cases run with
  | nil => omega
  | cons first _ => exact ⟨_, _, first⟩

end Utf8
end TextSearch
