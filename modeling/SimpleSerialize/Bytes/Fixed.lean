import SimpleSerialize.Bytes

/-! Byte strings whose width is part of their type. -/

namespace SimpleSerialize

/-- A byte string of exactly `width` bytes. -/
structure FixedBytes (width : Nat) where
  toList : Bytes
  length_toList : toList.length = width
deriving DecidableEq

/-- A byte string does not have the width asked for. -/
inductive WidthError where
  | wrongWidth
deriving DecidableEq, Repr

def WidthError.message : WidthError → String
  | .wrongWidth => "could not convert slice to array"

namespace FixedBytes

variable {width : Nat}

attribute [simp] length_toList

@[ext] theorem ext {a b : FixedBytes width} (h : a.toList = b.toList) : a = b := by
  cases a; cases b; simp_all

def ofList? (bs : Bytes) : Option (FixedBytes width) :=
  if h : bs.length = width then some ⟨bs, h⟩ else none

def ofList (bs : Bytes) : Except WidthError (FixedBytes width) :=
  match ofList? bs with
  | some fixed => .ok fixed
  | none => .error .wrongWidth

theorem ofList?_eq_some_iff {bs : Bytes} {fixed : FixedBytes width} :
    ofList? bs = some fixed ↔ fixed.toList = bs := by
  constructor
  · intro h
    simp only [ofList?] at h
    split at h
    · cases h; rfl
    · cases h
  · rintro rfl
    simp [ofList?]

protected def zero : FixedBytes width := ⟨List.replicate width 0, List.length_replicate⟩

/-- A number in little-endian form; its bytes past `width` are dropped. -/
def ofNat (n : Nat) : FixedBytes width :=
  ⟨Bytes.littleEndian width n, Bytes.length_littleEndian width n⟩

/-- The first `width` bytes of a string, filled with zeros at the end if it is shorter. -/
def ofPadded (bs : Bytes) : FixedBytes width :=
  ⟨bs.take width ++ List.replicate (width - bs.length) 0, by simp; omega⟩

theorem toList_ofPadded {bs : Bytes} (hlength : bs.length ≤ width) :
    (ofPadded bs : FixedBytes width).toList = bs ++ List.replicate (width - bs.length) 0 := by
  simp only [ofPadded, List.take_of_length_le hlength]

@[simp] theorem ofPadded_toList (fixed : FixedBytes width) : ofPadded fixed.toList = fixed := by
  apply FixedBytes.ext
  rw [toList_ofPadded (Nat.le_of_eq fixed.length_toList), fixed.length_toList, Nat.sub_self,
    List.replicate_zero, List.append_nil]

/-- Replaces the first byte, if there is one. -/
def setHead (b : UInt8) (fixed : FixedBytes width) : FixedBytes width :=
  ⟨fixed.toList.set 0 b, by simp⟩

/-- The order in which the first differing byte decides. -/
instance : Ord (FixedBytes width) where
  compare a b := List.compareLex compare a.toList b.toList

instance : Inhabited (FixedBytes width) := ⟨.zero⟩

end FixedBytes

end SimpleSerialize
