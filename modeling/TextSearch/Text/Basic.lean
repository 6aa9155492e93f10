/-!
A text is a window over a buffer of bytes. Slicing moves the window and copies nothing; the bytes in
view are `toList`, and every operation below is described through it.
-/
namespace TextSearch

/-- The `size` bytes of `buffer` that begin at `start`. -/
structure Text where
  buffer : Array UInt8
  start : Nat
  size : Nat
  fits : start + size ≤ buffer.size

namespace Text

def ofArray (bytes : Array UInt8) : Text := ⟨bytes, 0, bytes.size, by omega⟩

def ofList (bytes : List UInt8) : Text := ofArray bytes.toArray

def ofString (s : String) : Text := ofArray s.toUTF8.data

def empty : Text := ofArray #[]

instance : Inhabited Text := ⟨empty⟩

def isEmpty (t : Text) : Bool := t.size == 0

/-- Offsets count from the start of the window. Behind the window stands the rest of the buffer, and
    zero bytes behind that. -/
def byteAt (t : Text) (i : Nat) : UInt8 := t.buffer.getD (t.start + i) 0

def toArray (t : Text) : Array UInt8 := t.buffer.extract t.start (t.start + t.size)

def toList (t : Text) : List UInt8 := t.toArray.toList

def front? (t : Text) : Option UInt8 := if t.size = 0 then none else some (t.byteAt 0)

def back? (t : Text) : Option UInt8 := if t.size = 0 then none else some (t.byteAt (t.size - 1))

/-- The bytes from `first` up to, not including, `last`. Both ends are clipped to the window. -/
def slice (t : Text) (first last : Nat) : Text where
  buffer := t.buffer
  start := t.start + min first t.size
  size := min last t.size - min first t.size
  fits := by have := t.fits; omega

def append (a b : Text) : Text := ofArray (a.toArray ++ b.toArray)

instance : Append Text := ⟨append⟩

def join (ts : List Text) : Text := ofArray (ts.foldl (fun bytes t => bytes ++ t.toArray) #[])

def replicate (n : Nat) (t : Text) : Text := join (List.replicate n t)

def untilZero (t : Text) : Text := t.slice 0 (t.toList.takeWhile (· != 0)).length

def agreeBelow (f g : Nat → UInt8) : Nat → Bool
  | 0 => true
  | n + 1 => f n == g n && agreeBelow f g n

theorem agreeBelow_iff {f g : Nat → UInt8} {n : Nat} :
    agreeBelow f g n = true ↔ ∀ k, k < n → f k = g k := by
  induction n with
  | zero => simp [agreeBelow]
  | succ n ih =>
    simp only [agreeBelow, Bool.and_eq_true, beq_iff_eq, ih]
    constructor
    · rintro ⟨last, below⟩ k hk
      by_cases same : k = n
      · exact same ▸ last
      · exact below k (by omega)
    · intro all
      exact ⟨all n (by omega), fun k hk => all k (by omega)⟩

def equalUpTo (a b : Text) (n : Nat) : Bool := agreeBelow a.byteAt b.byteAt n

/-- Texts are equal when they show the same bytes, wherever these stand in their buffers. -/
instance : BEq Text := ⟨fun a b => a.size == b.size && equalUpTo a b a.size⟩

def SameBytes (a b : Text) : Prop := a.toList = b.toList

@[simp] theorem size_toArray (t : Text) : t.toArray.size = t.size := by
  have := t.fits
  simp only [toArray, Array.size_extract]
  omega

@[simp] theorem length_toList (t : Text) : t.toList.length = t.size := by simp [toList]

theorem getElem_toList (t : Text) (i : Nat) (h : i < t.toList.length) :
    t.toList[i] = t.byteAt i := by
  have inside : i < t.size := by simpa using h
  have := t.fits
  have reach : t.start + i < t.buffer.size := by omega
  simp [toList, toArray, byteAt, Array.getD, reach]

theorem getElem?_toList (t : Text) (i : Nat) (h : i < t.size) : t.toList[i]? = some (t.byteAt i) := by
  rw [List.getElem?_eq_getElem (by simpa using h), getElem_toList]

theorem drop_eq_cons {t : Text} {i : Nat} (inside : i < t.size) :
    t.toList.drop i = t.byteAt i :: t.toList.drop (i + 1) := by
  rw [List.drop_eq_getElem_cons (by simpa using inside), getElem_toList]

@[simp] theorem toList_ofArray (bytes : Array UInt8) : (ofArray bytes).toList = bytes.toList := by
  simp [toList, toArray, ofArray]

@[simp] theorem toList_ofList (bytes : List UInt8) : (ofList bytes).toList = bytes := by
  simp [ofList]

@[simp] theorem size_ofList (bytes : List UInt8) : (ofList bytes).size = bytes.length := by
  simp [ofList, ofArray]

@[simp] theorem toList_append (a b : Text) : (a ++ b).toList = a.toList ++ b.toList := by
  show (ofArray (a.toArray ++ b.toArray)).toList = _
  rw [toList_ofArray, Array.toList_append]
  rfl

theorem toList_slice (t : Text) (first last : Nat) :
    (t.slice first last).toList = (t.toList.drop first).take (last - first) := by
  have := t.fits
  apply List.ext_getElem
  · simp only [length_toList, slice, List.length_take, List.length_drop]
    omega
  · intro i h₁ h₂
    simp only [length_toList, slice] at h₁
    simp only [getElem_toList, List.getElem_take, List.getElem_drop, byteAt, slice]
    congr 1
    omega

@[simp] theorem toList_join (ts : List Text) : (join ts).toList = ts.flatMap toList := by
  have run : ∀ (bytes : Array UInt8), (ts.foldl (fun bytes t => bytes ++ t.toArray) bytes).toList =
      bytes.toList ++ ts.flatMap toList := by
    induction ts with
    | nil => simp
    | cons t rest ih =>
      intro bytes
      simp [ih, toList, List.append_assoc]
  simp [join, run]

theorem beq_iff (a b : Text) : (a == b) = true ↔ SameBytes a b := by
  show (a.size == b.size && equalUpTo a b a.size) = true ↔ _
  simp only [Bool.and_eq_true, beq_iff_eq, equalUpTo, agreeBelow_iff, SameBytes]
  constructor
  · rintro ⟨sizes, bytes⟩
    apply List.ext_getElem (by simpa using sizes)
    intro i h₁ h₂
    rw [getElem_toList, getElem_toList]
    exact bytes i (by simpa using h₁)
  · intro same
    have sizes : a.size = b.size := by
      rw [← length_toList a, ← length_toList b, same]
    refine ⟨sizes, fun k hk => ?_⟩
    have left := getElem?_toList a k hk
    have right := getElem?_toList b k (by omega)
    rw [same, right] at left
    exact (Option.some.inj left).symm

end Text
end TextSearch
