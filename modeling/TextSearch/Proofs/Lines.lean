import TextSearch.Proofs.Range.Terminated
import TextSearch.Proofs.Utf8.Cuts

/-!
Lines as they are written and read: a line may hold anything but a line feed, may not end in a carriage
return, and is ended by a line feed with or without a carriage return before it. The last one need not
be ended if it is not empty. Reading gives back what was written; and of any text the lines are told by
its line feeds alone.
-/
namespace TextSearch
open Utf8 Text

def chomp (line : List UInt8) : List UInt8 :=
  if line.getLast? = some 0x0D then line.dropLast else line

def dropEmptyLast (pieces : List (List UInt8)) : List (List UInt8) :=
  if pieces.getLast? = some [] then pieces.dropLast else pieces

theorem chomp_of_returned (line : List UInt8) : chomp (line ++ [0x0D]) = line := by
  simp [chomp]

theorem chomp_of_bare {line : List UInt8} (bare : line.getLast? ≠ some 0x0D) : chomp line = line := by
  simp [chomp, bare]

theorem splitOn_of_unbroken {line : List UInt8} (unbroken : 0x0A ∉ line) (rest : List UInt8) :
    (line ++ 0x0A :: rest).splitOn 0x0A = line :: rest.splitOn 0x0A := by
  apply List.splitOnP_append_cons_of_forall_mem
  · intro b member
    exact beq_false_of_ne fun feed => unbroken (feed ▸ member)
  · rfl

theorem dropEmptyLast_append (pieces : List (List UInt8)) (last : List UInt8) :
    dropEmptyLast (pieces ++ [last]) = if last.isEmpty then pieces else pieces ++ [last] := by
  cases last <;> simp [dropEmptyLast]

inductive LineEnd where
  | feed
  | returnAndFeed
  deriving DecidableEq, Repr

namespace LineEnd

def returned : LineEnd → List UInt8
  | feed => []
  | returnAndFeed => [0x0D]

def text (e : LineEnd) : Text := .ofList (e.returned ++ [0x0A])

theorem unbroken_returned (e : LineEnd) : 0x0A ∉ e.returned := by
  cases e <;> decide

theorem chomp_returned {line : List UInt8} (bare : line.getLast? ≠ some 0x0D) (e : LineEnd) :
    chomp (line ++ e.returned) = line := by
  cases e with
  | feed => simp [returned, chomp_of_bare bare]
  | returnAndFeed => exact chomp_of_returned line

end LineEnd

namespace Text
variable {hay : Text} {m : Matcher} {i j : Nat} {ms : List Step}

structure IsLine (t : Text) : Prop where
  accepted : wellFormed t = true
  unbroken : 0x0A ∉ t.toList
  bare : t.toList.getLast? ≠ some 0x0D

/-- Lines with what ends each of them, and behind them one that is not ended, if there is any. -/
def writeLines (ended : List (Text × LineEnd)) (last : Option Text) : Text :=
  join (ended.flatMap (fun l => [l.1, l.2.text]) ++ last.toList)

section LineFeeds

theorem lineFeed_of_mem_encode {c : Rune} (scalar : isScalar c = true) (member : 0x0A ∈ encode c) :
    c = 0x0A := by
  have digits := denotes_encode scalar
  have low : ¬ 0x80 ≤ c.toNat := fun high => absurd ((digits.high_iff _ member).mpr high) (by decide)
  have ascii : c < 0x80 := UInt32.lt_iff_toNat_lt.mpr (Nat.lt_of_not_le low)
  simp only [encode, ascii, if_true, List.mem_singleton] at member
  have same := congrArg UInt8.toNat member
  rw [UInt32.toNat_toUInt8, Nat.mod_eq_of_lt (by omega)] at same
  exact UInt32.toNat_inj.mp same.symm

theorem lineFeed_not_mem (refused : Searcher.Refused (.rune 0x0A) hay i j) :
    0x0A ∉ (hay.slice i j).toList := by
  obtain ⟨cs, run, others⟩ := refused
  have spelled := run.spells
  rw [← spelled.2, List.mem_flatMap]
  rintro ⟨c, member, byte⟩
  have feed := lineFeed_of_mem_encode (spelled.1 c member) byte
  have differs := others c member
  rw [feed] at differs
  cases differs

theorem slice_of_lineFeed (accepted : Searcher.Accepted (.rune 0x0A) hay i j) :
    (hay.slice i j).toList = [0x0A] := by
  obtain ⟨c, stands, same⟩ := accepted
  obtain rfl : c = 0x0A := by simpa [Matcher.accepts] using same
  exact slice_of_stands stands

theorem cut_at_lineFeeds (parted : Parted (Searcher.Accepted (.rune 0x0A) hay)
      (Searcher.Refused (.rune 0x0A) hay) i ms j) :
    (hay.cut true i j ms).map toList = (hay.slice i j).toList.splitOn 0x0A := by
  induction parted with
  | nil _ clear =>
    rw [List.splitOn_eq_singleton (lineFeed_not_mem clear)]
    rfl
  | cons le clear ordered matched others ih =>
    rw [cut_cons, List.map_cons, ih, ← slice_append hay le (Nat.le_trans ordered others.le),
      ← slice_append hay ordered others.le, slice_of_lineFeed matched, List.singleton_append,
      splitOn_of_unbroken (lineFeed_not_mem clear)]

end LineFeeds

section Reading

theorem back?_eq_getLast? (t : Text) : t.back? = t.toList.getLast? := by
  unfold back?
  split
  next empty =>
    have nothing : t.toList = [] := List.eq_nil_of_length_eq_zero (by simpa using empty)
    rw [nothing, List.getLast?_nil]
  next nonempty =>
    rw [List.getLast?_eq_getElem?, length_toList, getElem?_toList t _ (by omega)]

theorem toList_dropCarriageReturn (line : Text) :
    line.dropCarriageReturn.toList = chomp line.toList := by
  unfold dropCarriageReturn chomp
  rw [back?_eq_getLast?]
  split
  · rw [toList_slice, List.drop_zero, Nat.sub_zero, List.dropLast_eq_take, length_toList]
  · rfl

theorem toList_lines (hay : Text) : hay.lines.toList =
    (hay.splitTerminator (.character (.rune 0x0A))).toList.map dropCarriageReturn :=
  FiniteStream.toList_map (P := fun _ => True) (fun _ _ => trivial) (fun _ _ _ => rfl) trivial

theorem lines_of_wellFormed (wellFormedHay : wellFormed hay = true) :
    hay.lines.toList.map toList = (dropEmptyLast (hay.toList.splitOn 0x0A)).map chomp := by
  obtain ⟨parted, _⟩ := Searcher.parted_of_character wellFormedHay (.rune 0x0A)
  have bytes := cut_at_lineFeeds parted
  obtain ⟨pieces, tail, whole, short⟩ := exists_tail parted.ordered (Nat.le_refl hay.size)
  rw [whole, slice_self, List.map_append, List.map_singleton] at bytes
  rw [toList_lines, toList_splitTerminator, short, ← bytes, dropEmptyLast_append, List.map_map]
  have read : toList ∘ dropCarriageReturn = chomp ∘ toList := funext toList_dropCarriageReturn
  rw [read, isEmpty_toList, ← List.map_map]
  cases tail.isEmpty <;> simp

end Reading

section Writing
variable {ended : List (Text × LineEnd)} {last : Option Text}

theorem toList_writeLines_nil (last : Option Text) :
    (writeLines [] last).toList = last.toList.flatMap toList := by
  simp [writeLines]

theorem toList_writeLines_cons (l : Text × LineEnd) (ended : List (Text × LineEnd))
    (last : Option Text) : (writeLines (l :: ended) last).toList =
      (l.1.toList ++ l.2.returned) ++ 0x0A :: (writeLines ended last).toList := by
  simp [writeLines, LineEnd.text]

variable (each : ∀ t ∈ ended.map Prod.fst ++ last.toList, IsLine t)
include each

theorem splitOn_writeLines : (writeLines ended last).toList.splitOn 0x0A =
    ended.map (fun l => l.1.toList ++ l.2.returned) ++ [last.toList.flatMap toList] := by
  induction ended with
  | nil =>
    rw [toList_writeLines_nil, List.splitOn_eq_singleton]
    · rfl
    · rw [List.mem_flatMap]
      rintro ⟨t, member, feed⟩
      exact (each t (by simpa using member)).unbroken feed
  | cons l ended ih =>
    obtain ⟨here, later⟩ := List.forall_mem_cons.mp each
    have unbroken : 0x0A ∉ l.1.toList ++ l.2.returned := by
      simp [here.unbroken, l.2.unbroken_returned]
    rw [toList_writeLines_cons, splitOn_of_unbroken unbroken, ih later, List.map_cons,
      List.cons_append]

theorem wellFormed_writeLines : wellFormed (writeLines ended last) = true := by
  have ends : ∀ e : LineEnd, wellFormed e.text = true := by
    intro e
    cases e <;> decide
  apply wellFormed_join
  intro part member
  rcases List.mem_append.mp member with terminated | rest
  · obtain ⟨l, among, either⟩ := List.mem_flatMap.mp terminated
    rcases List.mem_pair.mp either with line | terminator
    · rw [line]
      exact (each _ (List.mem_append_left _ (List.mem_map_of_mem among))).accepted
    · rw [terminator]
      exact ends l.2
  · exact (each part (List.mem_append_right _ rest)).accepted

theorem lines_of_written (nonempty : ∀ t ∈ last, 0 < t.size) (hay : Text)
    (written : hay.SameBytes (writeLines ended last)) :
    hay.lines.toList.map toList = (ended.map Prod.fst ++ last.toList).map toList := by
  have bytes : hay.toList = (writeLines ended last).toList := written
  have accepted : wellFormed hay = true := by
    rw [wellFormed, bytes]
    exact wellFormed_writeLines each
  have chomped : ∀ l ∈ ended, chomp (l.1.toList ++ l.2.returned) = l.1.toList := by
    intro l member
    have line := each l.1 (List.mem_append_left _ (List.mem_map_of_mem member))
    exact LineEnd.chomp_returned line.bare l.2
  rw [lines_of_wellFormed accepted, bytes, splitOn_writeLines each, dropEmptyLast_append]
  cases last with
  | none => simpa using chomped
  | some t =>
    have line := each t (List.mem_append_right _ (List.mem_singleton.mpr rfl))
    have kept : t.toList.isEmpty = false := by
      have := nonempty t rfl
      rw [isEmpty_toList, isEmpty]
      exact beq_false_of_ne (by omega)
    simpa [kept, chomp_of_bare line.bare] using chomped

end Writing

/-- Lines that are written one behind another, each ended in either way and the last one perhaps not at
    all, are read back as they are. The lines of any well-formed text are what stands between its line
    feeds, without the last piece if it is empty, and each piece without one carriage return at its
    end. -/
theorem lines_undo_writing :
    (∀ (ended : List (Text × LineEnd)) (last : Option Text) (hay : Text),
      (∀ t ∈ ended.map Prod.fst ++ last.toList, IsLine t) → (∀ t ∈ last, 0 < t.size) →
      hay.SameBytes (writeLines ended last) →
      hay.lines.toList.map toList = (ended.map Prod.fst ++ last.toList).map toList) ∧
    ∀ hay : Text, wellFormed hay = true →
      hay.lines.toList.map toList = (dropEmptyLast (hay.toList.splitOn 0x0A)).map chomp :=
  ⟨fun _ _ hay each nonempty written => lines_of_written each nonempty hay written,
    fun _ => lines_of_wellFormed⟩

theorem lines_undo_writing_of_mixed_ends :
    let ended := [(Text.ofList [0x61, 0x0D, 0x62], LineEnd.feed), (.empty, .returnAndFeed),
      (.ofList [0xC3, 0xA9], .returnAndFeed)]
    let last := some (Text.ofList [0x7A])
    let hay := writeLines ended last
    (∀ t ∈ ended.map Prod.fst ++ last.toList, IsLine t) ∧ (∀ t ∈ last, 0 < t.size) ∧
      wellFormed hay = true ∧
      hay.toList = [0x61, 0x0D, 0x62, 0x0A, 0x0D, 0x0A, 0xC3, 0xA9, 0x0D, 0x0A, 0x7A] ∧
      hay.lines.toList.map toList = [[0x61, 0x0D, 0x62], [], [0xC3, 0xA9], [0x7A]] ∧
      hay.lines.toList.map toList = (dropEmptyLast (hay.toList.splitOn 0x0A)).map chomp := by
  intro ended last hay
  have each : ∀ t ∈ ended.map Prod.fst ++ last.toList, IsLine t := by
    intro t member
    have among : t = .ofList [0x61, 0x0D, 0x62] ∨ t = .empty ∨ t = .ofList [0xC3, 0xA9] ∨
        t = .ofList [0x7A] := by simpa [ended, last] using member
    rcases among with rfl | rfl | rfl | rfl <;> exact ⟨by decide, by decide, by decide⟩
  have nonempty : ∀ t ∈ last, 0 < t.size := by
    intro t member
    obtain rfl : Text.ofList [0x7A] = t := by simpa [last] using member
    decide
  have accepted : wellFormed hay = true := wellFormed_writeLines each
  exact ⟨each, nonempty, accepted, by decide,
    lines_undo_writing.1 ended last hay each nonempty rfl, lines_undo_writing.2 hay accepted⟩

end Text
end TextSearch
