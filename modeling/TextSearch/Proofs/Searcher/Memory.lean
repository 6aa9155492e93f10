import TextSearch.Proofs.TwoWay.Safety
import TextSearch.Proofs.Searcher.Substring

/-!
What a search for a substring remembers of its windows. A needle of known period recurs one period
later, and the part that does so is remembered from one window to the next; after any calls, and at
every window that a call looks at, the remembered bytes are those of the needle.
-/
namespace TextSearch
open Text Utf8

namespace TwoWay
variable {d : Needle} {hay : Text}

/-- The first `m` bytes of the window are known, no more of them than recur one period later, and they
    are those of the needle. -/
structure Forward.Recalls (d : Needle) (hay : Text) (c : Forward) (m : Nat) : Prop where
  memory : c.memory = some m
  recurs : m + d.factors.period ≤ d.text.size
  known : c.position + d.text.size ≤ hay.size →
    ∀ k, k < m → d.text.byteAt k = hay.byteAt (c.position + k)

/-- The bytes of the window from `m` on are known, the first period not among them, and they are those
    of the needle. -/
structure Backward.Recalls (d : Needle) (hay : Text) (c : Backward) (m : Nat) : Prop where
  memory : c.memory = some m
  recurs : d.factors.period ≤ m ∧ m ≤ d.text.size
  known : d.text.size ≤ c.stop →
    ∀ k, m ≤ k → k < d.text.size → d.text.byteAt k = hay.byteAt (c.stop - d.text.size + k)

theorem Needle.remember_of_short (short : d.factors.periodicity = .short) (count : Nat) :
    d.remember count = some count := by simp [Needle.remember, short]

section Short
variable (short : d.factors.periodicity = .short)
include short

theorem Forward.Ready.recalls {c : Forward} (ready : c.Ready d hay) : ∃ m, c.Recalls d hay m := by
  have period := d.period_le_size
  have known := ready.known
  obtain ⟨m, memory, recurs⟩ : ∃ m, c.memory = some m ∧ m + d.factors.period ≤ d.text.size := by
    rcases ready.memory with nothing | rest
    · exact ⟨0, nothing.trans (Needle.remember_of_short short _), by omega⟩
    · exact ⟨_, rest.trans (Needle.remember_of_short short _), by omega⟩
  rw [memory] at known
  exact ⟨m, memory, recurs, known⟩

theorem Backward.Ready.recalls {c : Backward} (ready : c.Ready d hay) : ∃ m, c.Recalls d hay m := by
  have period := d.period_le_size
  have known := ready.known
  obtain ⟨m, memory, recurs⟩ :
      ∃ m, c.memory = some m ∧ d.factors.period ≤ m ∧ m ≤ d.text.size := by
    rcases ready.memory with nothing | rest
    · exact ⟨_, nothing.trans (Needle.remember_of_short short _), period, Nat.le_refl _⟩
    · exact ⟨_, rest.trans (Needle.remember_of_short short _), Nat.le_refl _, period⟩
  rw [memory] at known
  exact ⟨m, memory, recurs, known⟩

end Short
end TwoWay

namespace Searcher
open TwoWay

/-- A search in a well-formed text for a well-formed needle of known period, after any calls: each
    cursor remembers part of its window, no more than the period allows, and remembers it rightly.
    Widening leaves alone a cursor that remembers anything. So every window that a further call looks
    at, the one at the cursor or one that failed alignments lead to, has the bytes that are not
    compared again. -/
theorem remembered_bytes_hold {hay needle : Text} (wellFormedHay : wellFormed hay = true)
    (wellFormedNeedle : wellFormed needle = true) (nonempty : 0 < needle.size)
    (short : (Needle.ofText needle nonempty).factors.periodicity = .short) (calls : List Call) :
    let d := Needle.ofText needle nonempty
    let n := needle.size
    ∃ scan : Scan, reach hay (.substring needle) calls = occurrences scan ∧
      (∃ m, scan.forward.Recalls d hay m) ∧
      (∃ m, scan.backward.Recalls d hay m) ∧
      (0 < (Scan.steps.next scan).2.forward.memory.getD 0 →
        Scan.wideSteps.next scan = Scan.steps.next scan) ∧
      ((Scan.stepsBack.next scan).2.backward.memory.getD n < n →
        Scan.wideStepsBack.next scan = Scan.stepsBack.next scan) ∧
      (∀ c, d.Passes hay scan.forward c → ∃ m, c.Recalls d hay m) ∧
      (∀ c, d.PassesBack hay scan.backward c → ∃ m, c.Recalls d hay m) := by
  intro d n
  obtain ⟨scan, reached, aligned⟩ : Scanning d hay (reach hay (.substring needle) calls) :=
    reach_scanning nonempty wellFormedHay wellFormedNeedle
  have ready := aligned.toReady
  refine ⟨scan, reached, ready.forward.recalls short, ready.backward.recalls short,
    Scan.wideSteps_of_memory wellFormedNeedle ready,
    Scan.wideStepsBack_of_memory wellFormedHay wellFormedNeedle ready, ?_, ?_⟩
  · intro c passes
    exact (Needle.ready_of_passes passes ready.forward).1.recalls short
  · intro c passes
    exact (Needle.readyBack_of_passesBack passes ready.backward).1.recalls short

theorem remembered_bytes_hold_of_repeated_accents :
    let hay := Text.ofList [0x62, 0x62, 0x61, 0xC3, 0xA9, 0x61, 0xC3, 0xA9, 0x62]
    let needle := Text.ofList [0xC3, 0xA9, 0x61, 0xC3, 0xA9, 0x61]
    let d := Needle.ofText needle (by decide)
    (wellFormed hay = true ∧ wellFormed needle = true ∧ d.factors.periodicity = .short) ∧
      ∃ scan : Scan, reach hay (.substring needle) [.stepsBack] = occurrences scan ∧
        scan.backward.memory = some 3 ∧ (∃ m, scan.backward.Recalls d hay m) ∧
        (Scan.steps.next scan).2.forward.memory = some 3 ∧
        Scan.wideSteps.next scan = Scan.steps.next scan := by
  intro hay needle d
  have wellFormedHay : wellFormed hay = true := by decide
  have wellFormedNeedle : wellFormed needle = true := by decide
  have short : d.factors.periodicity = .short := by decide +kernel
  obtain ⟨scan, reached, _, recalls, widened, _⟩ :=
    remembered_bytes_hold wellFormedHay wellFormedNeedle (by decide) short [.stepsBack]
  have memories : (match reach hay (.substring needle) [.stepsBack] with
      | occurrences s => (s.backward.memory, (Scan.steps.next s).2.forward.memory)
      | _ => (none, none)) = (some 3, some 3) := by decide +kernel
  rw [reached, Prod.mk.injEq] at memories
  obtain ⟨back, forth⟩ := memories
  exact ⟨⟨wellFormedHay, wellFormedNeedle, short⟩, scan, reached, back, recalls, forth,
    widened (by rw [forth]; decide)⟩

end Searcher
end TextSearch
