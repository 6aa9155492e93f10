import TextSearch.Proofs.Deque
import TextSearch.Proofs.Text.Coverage
import TextSearch.Proofs.Utf8.Roundtrip
import TextSearch.Proofs.Searcher.Calls

/-!
Character by character a searcher takes its haystack apart like a deque. Whether it decodes a character
or judges it by a single byte cannot be told from its answers, and no answer takes a byte beside the
character it is about.
-/
namespace TextSearch
open Utf8

def Text.bytesOf (t : Text) : Option Step → Nat → Option UInt8
  | some step => t.fenced step.start step.stop
  | none => fun _ => none

namespace Fenced
open CharacterSearcher
variable {byte : Nat → Option UInt8}

/-- What a searcher finds at its front, if its bytes come from this source. -/
def examine (byte : Nat → Option UInt8) (s : CharacterSearcher) : Option (Nat × Bool) := do
  let lead ← byte s.front
  if s.matcher.onlyAscii && 0x80 ≤ lead then some (max 1 (leadLength lead), false)
  else do
    let found ← decode fun k => byte (s.front + k)
    let c := found.getD .undecodable
    some (c.length, s.matcher.accepts c.rune)

def examineBack (byte : Nat → Option UInt8) (s : CharacterSearcher) : Option Bool := do
  let last ← byte (s.back - 1)
  if s.matcher.onlyAscii && 0x80 ≤ last then some false
  else do
    let lead ← leadBefore byte 3 (s.back - 1)
    let found ← decode fun k => byte (lead + k)
    some (s.matcher.accepts (found.getD .undecodable).rune)

def nextCharacter (byte : Nat → Option UInt8) (s : CharacterSearcher) :
    Option (Option Step × CharacterSearcher) :=
  if s.back ≤ s.front then some (none, s)
  else do
    let (length, accepted) ← examine byte s
    let stop := s.front + length
    some (some (report accepted s.front stop), { s with front := stop })

def nextCharacterBack (byte : Nat → Option UInt8) (s : CharacterSearcher) :
    Option (Option Step × CharacterSearcher) :=
  if s.back ≤ s.front then some (none, s)
  else do
    let accepted ← examineBack byte s
    let start ← floorBoundary byte s.haystack.size (s.back - 1)
    some (some (report accepted start s.back), { s with back := start })

section Total
variable (s : CharacterSearcher)

theorem nextCharacter_total :
    nextCharacter (fun k => some (s.haystack.byteAt k)) s = some (CharacterSearcher.next s) := by
  unfold nextCharacter CharacterSearcher.next
  split
  next => rfl
  next =>
    simp only [examine, CharacterSearcher.examine, decode_total, characterAt, decodeAt,
      Option.bind_eq_bind, Option.bind_some]
    split <;> rfl

theorem nextCharacterBack_total :
    nextCharacterBack (fun k => some (s.haystack.byteAt k)) s = some (CharacterSearcher.nextBack s) := by
  unfold nextCharacterBack CharacterSearcher.nextBack
  split
  next => rfl
  next =>
    simp only [examineBack, CharacterSearcher.examineBack, decodeBefore, decode_total, decodeAt,
      leadBefore_total, floorBoundary_total, Option.bind_eq_bind, Option.bind_some]
    split <;> rfl

end Total

section Characters
variable {hay : Text} {m : Matcher} {i j k : Nat} {c : Rune}

theorem accepts_of_high (ascii : m.onlyAscii = true) (high : 0x80 ≤ c) : m.accepts c = false := by
  by_contra accepted
  have low := Matcher.accepts_ascii ascii (by simpa using accepted)
  exact absurd high (UInt32.not_le.mpr low)

theorem nextCharacter_of_stands (stands : Stands hay i c k) (inside : k ≤ j)
    (has : ∀ n, i ≤ n → n < k → byte n = some (hay.byteAt n)) :
    nextCharacter byte ⟨hay, m, i, j⟩ =
      some (some (report (m.accepts c) i k), ⟨hay, m, k, j⟩) := by
  have advances := stands.advances
  have head := has i (Nat.le_refl i) advances
  have judged : examine byte ⟨hay, m, i, j⟩ = some (k - i, m.accepts c) := by
    simp only [examine, head, Option.bind_eq_bind, Option.bind_some]
    split
    next fast =>
      simp only [Bool.and_eq_true, decide_eq_true_eq] at fast
      rw [accepts_of_high fast.1 ((stands.high_iff (Nat.le_refl i) advances).mp fast.2),
        stands.lead.2, Nat.max_eq_right (by omega)]
    next =>
      obtain ⟨found, rfl, length, answer⟩ := stands.decode has
      rw [answer, ← length]
      rfl
  have stop : i + (k - i) = k := by omega
  unfold nextCharacter
  rw [if_neg (by simp only; omega), judged]
  simp only [Option.bind_eq_bind, Option.bind_some, stop]

theorem nextCharacterBack_of_stands (stands : Stands hay k c j) (inside : i ≤ k)
    (has : ∀ n, k ≤ n → n < j → byte n = some (hay.byteAt n)) :
    nextCharacterBack byte ⟨hay, m, i, j⟩ =
      some (some (report (m.accepts c) k j), ⟨hay, m, i, k⟩) := by
  have advances := stands.advances
  have last := has (j - 1) (by omega) (by omega)
  have judged : examineBack byte ⟨hay, m, i, j⟩ = some (m.accepts c) := by
    simp only [examineBack, last, Option.bind_eq_bind, Option.bind_some]
    split
    next fast =>
      simp only [Bool.and_eq_true, decide_eq_true_eq] at fast
      rw [accepts_of_high fast.1 ((stands.high_iff (by omega) (by omega)).mp fast.2)]
    next =>
      obtain ⟨found, rfl, length, answer⟩ := stands.decode has
      rw [stands.leadBefore has, Option.bind_some, answer]
      rfl
  unfold nextCharacterBack
  rw [if_neg (by simp only; omega), judged]
  simp only [stands.floorBoundary has, Option.bind_eq_bind, Option.bind_some]

end Characters
end Fenced

namespace CharacterSearcher
variable {hay : Text} {m : Matcher} {i j k : Nat} {c : Rune} {cs ds : List Rune}

def reportsFrom (m : Matcher) (i : Nat) : List Rune → List Step
  | [] => []
  | c :: cs =>
    report (m.accepts c) i (i + (encode c).length) :: reportsFrom m (i + (encode c).length) cs

theorem reportsFrom_accepts (m : Matcher) (i : Nat) (cs : List Rune) :
    reportsFrom (.satisfying m.accepts) i cs = reportsFrom m i cs := by
  induction cs generalizing i with
  | nil => rfl
  | cons c cs ih =>
    rw [reportsFrom, ih]
    rfl

theorem reportsFrom_append (run : Run hay i cs j) :
    reportsFrom m i (cs ++ ds) = reportsFrom m i cs ++ reportsFrom m j ds := by
  induction run with
  | nil => rfl
  | cons first _ ih =>
    rw [first.stop] at ih
    simp only [List.cons_append, reportsFrom, ih]

theorem report_start (accepted : Bool) (i j : Nat) : (report accepted i j).start = i := by
  cases accepted <;> rfl

theorem report_stop (accepted : Bool) (i j : Nat) : (report accepted i j).stop = j := by
  cases accepted <;> rfl

theorem tiles_reportsFrom (run : Run hay i cs j) : Tiles (reportsFrom m i cs) i j := by
  induction run with
  | nil => rfl
  | cons first _ ih =>
    have advances := first.advances
    rw [first.stop] at ih advances
    rw [reportsFrom, Tiles, report_start, report_stop]
    exact ⟨rfl, advances, ih⟩

theorem next_of_stands (stands : Stands hay i c k) (inside : k ≤ j) :
    next ⟨hay, m, i, j⟩ = (some (report (m.accepts c) i k), ⟨hay, m, k, j⟩) := by
  have total := Fenced.nextCharacter_total ⟨hay, m, i, j⟩
  rw [Fenced.nextCharacter_of_stands stands inside (fun n _ _ => rfl)] at total
  exact (Option.some.inj total).symm

theorem nextBack_of_stands (stands : Stands hay k c j) (inside : i ≤ k) :
    nextBack ⟨hay, m, i, j⟩ = (some (report (m.accepts c) k j), ⟨hay, m, i, k⟩) := by
  have total := Fenced.nextCharacterBack_total ⟨hay, m, i, j⟩
  rw [Fenced.nextCharacterBack_of_stands stands inside (fun n _ _ => rfl)] at total
  exact (Option.some.inj total).symm

theorem next_of_met (i : Nat) : next ⟨hay, m, i, i⟩ = (none, ⟨hay, m, i, i⟩) :=
  if_pos (Nat.le_refl i)

theorem nextBack_of_met (i : Nat) : nextBack ⟨hay, m, i, i⟩ = (none, ⟨hay, m, i, i⟩) :=
  if_pos (Nat.le_refl i)

/-- A searcher holds what is to be said about the characters between its cursors. -/
inductive Holds (m : Matcher) (hay : Text) : CharacterSearcher → List Step → Prop where
  | run {i j : Nat} {cs : List Rune} (run : Run hay i cs j) :
    Holds m hay ⟨hay, m, i, j⟩ (reportsFrom m i cs)

theorem steps_simulate : FiniteStream.Simulates (Holds m hay) steps Deque.front := by
  rintro _ _ ⟨run⟩
  next i j cs =>
  show (next _).1 = _ ∧ Holds m hay (next _).2 _
  cases run with
  | nil =>
    rw [next_of_met]
    exact ⟨rfl, .run .nil⟩
  | cons first others =>
    rw [next_of_stands first others.le, reportsFrom, ← first.stop]
    exact ⟨rfl, .run others⟩

theorem stepsBack_simulate : FiniteStream.Simulates (Holds m hay) stepsBack Deque.back := by
  rintro _ _ ⟨run⟩
  next i k cs =>
  show (nextBack _).1 = _ ∧ Holds m hay (nextBack _).2 _
  rcases run.cases_last with ⟨rfl, rfl⟩ | ⟨ds, d, j, rfl, others, stands⟩
  · rw [nextBack_of_met]
    exact ⟨rfl, .run .nil⟩
  · rw [nextBack_of_stands stands others.le, reportsFrom_append others, reportsFrom, reportsFrom,
      Deque.back_concat, ← stands.stop]
    exact ⟨rfl, .run others⟩

section Held
variable {s : CharacterSearcher} {l : List Step}

theorem tiles_of_holds (held : Holds m hay s l) : Tiles l s.front s.back := by
  obtain ⟨run⟩ := held
  exact tiles_reportsFrom run

theorem eq_nil_of_met (held : Holds m hay s l) (met : s.front = s.back) : l = [] := by
  obtain ⟨run⟩ := held
  next i j cs =>
  obtain rfl : i = j := met
  rw [run.eq_nil]
  rfl

theorem next_fenced (held : Holds m hay s l) :
    Fenced.nextCharacter (hay.bytesOf s.next.1) s = some s.next := by
  obtain ⟨run⟩ := held
  cases run with
  | nil =>
    rw [next_of_met]
    exact if_pos (Nat.le_refl _)
  | cons first others =>
    rw [next_of_stands first others.le, Text.bytesOf, report_start, report_stop]
    exact Fenced.nextCharacter_of_stands first others.le fun n from_first before =>
      Fenced.fenced_of_inside from_first before

theorem nextBack_fenced (held : Holds m hay s l) :
    Fenced.nextCharacterBack (hay.bytesOf s.nextBack.1) s = some s.nextBack := by
  obtain ⟨run⟩ := held
  rcases run.cases_last with ⟨rfl, rfl⟩ | ⟨ds, d, j, rfl, others, stands⟩
  · rw [nextBack_of_met]
    exact if_pos (Nat.le_refl _)
  · rw [nextBack_of_stands stands others.le, Text.bytesOf, report_start, report_stop]
    exact Fenced.nextCharacterBack_of_stands stands others.le fun n from_first before =>
      Fenced.fenced_of_inside from_first before

end Held
end CharacterSearcher

namespace Searcher
variable {hay : Text} {m : Matcher}

section Steps
variable {i j k : Nat} {c : Rune}

theorem steps_of_stands (stands : Stands hay i c k) (inside : k ≤ j) :
    steps.next (characters ⟨hay, m, i, j⟩) =
      (some (CharacterSearcher.report (m.accepts c) i k), characters ⟨hay, m, k, j⟩) := by
  show ((CharacterSearcher.next _).1, characters (CharacterSearcher.next _).2) = _
  rw [CharacterSearcher.next_of_stands stands inside]

theorem stepsBack_of_stands (stands : Stands hay k c j) (inside : i ≤ k) :
    stepsBack.next (characters ⟨hay, m, i, j⟩) =
      (some (CharacterSearcher.report (m.accepts c) k j), characters ⟨hay, m, i, k⟩) := by
  show ((CharacterSearcher.nextBack _).1, characters (CharacterSearcher.nextBack _).2) = _
  rw [CharacterSearcher.nextBack_of_stands stands inside]

theorem steps_of_met (i : Nat) :
    steps.next (characters ⟨hay, m, i, i⟩) = (none, characters ⟨hay, m, i, i⟩) := by
  show ((CharacterSearcher.next _).1, characters (CharacterSearcher.next _).2) = _
  rw [CharacterSearcher.next_of_met]

theorem stepsBack_of_met (i : Nat) :
    stepsBack.next (characters ⟨hay, m, i, i⟩) = (none, characters ⟨hay, m, i, i⟩) := by
  show ((CharacterSearcher.nextBack _).1, characters (CharacterSearcher.nextBack _).2) = _
  rw [CharacterSearcher.nextBack_of_met]

end Steps

inductive Holds (m : Matcher) (hay : Text) : Searcher → List Step → Prop where
  | characters {s : CharacterSearcher} {l : List Step} (h : CharacterSearcher.Holds m hay s l) :
    Holds m hay (.characters s) l

theorem dispatch_simulates {c : FiniteStream CharacterSearcher Step}
    {b : FiniteStream BoundarySearcher Step} {o : FiniteStream TwoWay.Scan Step}
    {T : FiniteStream (List Step) Step}
    (sim : FiniteStream.Simulates (CharacterSearcher.Holds m hay) c T) :
    FiniteStream.Simulates (Holds m hay) (dispatch c b o) T := by
  rintro _ _ ⟨held⟩
  obtain ⟨same, left⟩ := sim _ _ held
  exact ⟨same, .characters left⟩

def Call.ofDeque : Call → FiniteStream (List Step) Step
  | steps => Deque.front
  | hits => Deque.front.filter Step.isFound
  | misses => Deque.front.filter Step.isRejected
  | stepsBack => Deque.back
  | hitsBack => Deque.back.filter Step.isFound
  | missesBack => Deque.back.filter Step.isRejected

theorem call_simulates (k : Call) : FiniteStream.Simulates (Holds m hay) k.stream k.ofDeque := by
  have forward : FiniteStream.Simulates (CharacterSearcher.Holds m hay) CharacterSearcher.steps
      Deque.front := CharacterSearcher.steps_simulate
  have backward : FiniteStream.Simulates (CharacterSearcher.Holds m hay) CharacterSearcher.stepsBack
      Deque.back := CharacterSearcher.stepsBack_simulate
  cases k with
  | steps => exact dispatch_simulates forward
  | hits => exact dispatch_simulates (forward.filter _)
  | misses => exact (dispatch_simulates forward).filter _
  | stepsBack => exact dispatch_simulates backward
  | hitsBack => exact dispatch_simulates (backward.filter _)
  | missesBack => exact (dispatch_simulates backward).filter _

theorem start_holds {cs : List Rune} (m : Matcher) (spelled : Spells cs hay.toList) :
    Holds m hay (start hay (.character m)) (CharacterSearcher.reportsFrom m 0 cs) :=
  .characters (.run (Run.whole_iff.mpr spelled))

section Held
variable {s : Searcher} {l : List Step} (held : Holds m hay s l)
include held

theorem toList_of_holds : steps.toList s = l ∧ stepsBack.toList s = l.reverse := by
  have forward := (call_simulates .steps).toList held
  have backward := (call_simulates .stepsBack).toList held
  exact ⟨forward.trans (Deque.toList_front l), backward.trans (Deque.toList_back l)⟩

theorem tiles_of_holds : Tiles l s.front s.back := by
  obtain ⟨run⟩ := held
  exact CharacterSearcher.tiles_of_holds run

theorem fenced_of_holds : ∃ c : CharacterSearcher, s = .characters c ∧
    Fenced.nextCharacter (hay.bytesOf c.next.1) c = some c.next ∧
    Fenced.nextCharacterBack (hay.bytesOf c.nextBack.1) c = some c.nextBack := by
  obtain ⟨run⟩ := held
  exact ⟨_, rfl, CharacterSearcher.next_fenced run, CharacterSearcher.nextBack_fenced run⟩

theorem answers_of_met (met : s.front = s.back) (later : List Call) :
    ∀ a ∈ FiniteStream.answers Call.stream later s, a.2 = none := by
  obtain ⟨inner⟩ := held
  obtain rfl := CharacterSearcher.eq_nil_of_met inner met
  rw [(FiniteStream.Simulates.answers call_simulates later (.characters inner)).1]
  refine FiniteStream.answers_keep (P := fun l => l = []) (Q := fun _ answer => answer = none) ?_
    later rfl
  rintro k _ rfl
  cases k with
  | steps => exact ⟨rfl, rfl⟩
  | stepsBack => exact ⟨rfl, rfl⟩
  | hits | misses | hitsBack | missesBack =>
    simp only [Call.ofDeque, FiniteStream.filter]
    rw [FiniteStream.findNext_of_none _ rfl]
    exact ⟨rfl, rfl⟩

end Held

/-- Over a well-formed haystack any calls are answered as by a deque of reports, one for each of the
    decoded characters, which says whether the matcher accepts it. What has not been reported lies
    between the cursors, is the same from both sides, and is nothing once they have met. The answers
    depend on what the matcher accepts and not on whether it is known to accept ASCII alone, and each
    of them is given in view of the bytes it is about. -/
theorem character_search_exact {hay : Text} (wellFormedHay : wellFormed hay = true) (m : Matcher)
    (calls : List Call) :
    ∃ cs, Spells cs hay.toList ∧ hay.runes = .ok cs ∧
      let reports := CharacterSearcher.reportsFrom m 0 cs
      let told := FiniteStream.answers Call.stream calls (start hay (.character m))
      let s := reach hay (.character m) calls
      let rest := FiniteStream.after Call.ofDeque calls reports
      Tiles reports 0 hay.size ∧
      told = FiniteStream.answers Call.ofDeque calls reports ∧
      ((∀ k ∈ calls, k = .steps ∨ k = .stepsBack) →
        told.filterMap (fun a => if a.1.isForward then a.2 else none) ++ rest ++
          (told.filterMap fun a => if a.1.isForward then none else a.2).reverse = reports) ∧
      Tiles rest s.front s.back ∧
      (steps.toList s = rest ∧ stepsBack.toList s = rest.reverse) ∧
      (s.front = s.back → ∀ later, ∀ a ∈ FiniteStream.answers Call.stream later s, a.2 = none) ∧
      told = FiniteStream.answers Call.stream calls
        (start hay (.character (.satisfying m.accepts))) ∧
      ∃ c : CharacterSearcher, s = .characters c ∧
        Fenced.nextCharacter (hay.bytesOf c.next.1) c = some c.next ∧
        Fenced.nextCharacterBack (hay.bytesOf c.nextBack.1) c = some c.nextBack := by
  obtain ⟨cs, spelled⟩ := wellFormedBytes_iff.mp wellFormedHay
  refine ⟨cs, spelled, (runes_of_spells spelled).2, ?_⟩
  intro reports told s rest
  obtain ⟨same, held⟩ :=
    FiniteStream.Simulates.answers call_simulates calls (start_holds m spelled)
  have plain := FiniteStream.Simulates.answers call_simulates calls
    (start_holds (.satisfying m.accepts) spelled)
  rw [CharacterSearcher.reportsFrom_accepts] at plain
  refine ⟨tiles_of_holds (start_holds m spelled), same, ?_, tiles_of_holds held,
    toList_of_holds held, answers_of_met held, same.trans plain.1.symm, fenced_of_holds held⟩
  intro single
  have ends : ∀ k ∈ calls, k.ofDeque = if k.isForward then Deque.front else Deque.back := by
    intro k member
    rcases single k member with rfl | rfl <;> rfl
  have apart := Deque.taken_apart Call.isForward calls ends reports
  rwa [← same] at apart

theorem character_search_of_accent :
    let hay := Text.ofList [0x61, 0xC3, 0xA9]
    let calls : List Call := [.stepsBack, .hits, .stepsBack]
    wellFormed hay = true ∧
      FiniteStream.answers Call.stream calls (start hay (.character (.rune 0x61))) =
        FiniteStream.answers Call.ofDeque calls [.found 0 1, .rejected 1 3] := by
  intro hay calls
  have wellFormedHay : wellFormed hay = true := by decide
  obtain ⟨cs, spelled, _, _, told, _⟩ := character_search_exact wellFormedHay (.rune 0x61) calls
  have known : Spells [0x61, 0xE9] hay.toList := ⟨by simp [isScalar], by decide⟩
  obtain rfl := spelled.unique known
  exact ⟨wellFormedHay, told⟩

end Searcher
end TextSearch
