import SimpleSerialize.Value

/-!
A series of parts. Its head holds each part of fixed size and, in place of any other, a four-byte
offset counted from the start of the series; the parts that are not in the head follow it without
gaps, in order.
-/

namespace SimpleSerialize

/-- A part of a series, of a fixed size or behind an offset. -/
structure Entry (α : Type) where
  size? : Option Nat
  content : α

namespace Entry

variable {α : Type}

/-- A part of the size that its shape has. -/
def ofShape (shape : Shape) (content : α) : Except Halt (Entry α) := do
  return ⟨← shape.fixedSize?, content⟩

def headSize (entry : Entry α) : Nat := entry.size?.getD offsetSize

end Entry

namespace Series

def headSize {α : Type} (entries : List (Entry α)) : Except Halt Nat :=
  entries.foldlM (fun sum entry => addWord sum entry.headSize) 0

/-- Head and tail of the entries, the tail starting `offset` bytes into the series. -/
def layOut (offset : Nat) :
    List (Entry (Except FitError Bytes)) → Except FitError (Bytes × Bytes)
  | [] => .ok ([], [])
  | ⟨some _, content⟩ :: entries => do
    let bs ← content
    let (head, tail) ← layOut offset entries
    return (bs ++ head, tail)
  | ⟨none, content⟩ :: entries =>
    if offset < 2 ^ (8 * offsetSize) then do
      let bs ← content
      let (head, tail) ← layOut (offset + bs.length) entries
      return (Bytes.littleEndian offsetSize offset ++ head, bs ++ tail)
    else .error (.offsetOverflow offset)

def write (entries : List (Entry (Except FitError Bytes))) : Except FitError Bytes := do
  let headLength ← (headSize entries).mapError .halted
  let (head, tail) ← layOut headLength entries
  return head ++ tail

/-- How a part is read from the bytes that are its own. -/
abbrev Reader := Bytes → Except DecodeError Value

/-- What the head says of a part: the part itself, or where it starts. -/
inductive Slot where
  | filled (v : Value)
  | pending (offset : Nat) (read : Reader)

def Slot.offset? : Slot → Option Nat
  | filled _ => none
  | pending offset _ => some offset

/-- The offset that `rest` starts with, where `rest` starts `position` bytes into the series. -/
def readOffset (length position : Nat) (rest : Bytes) : Except DecodeError Nat :=
  let field := rest.take offsetSize
  if field.length = offsetSize then .ok (Bytes.ofLittleEndian field)
  else .error (.truncated (position + offsetSize) length)

/-- Reads the head of a series of `length` bytes, of which those from `position` on are left. -/
def readHead (length position : Nat) (rest : Bytes) :
    List (Entry Reader) → Except DecodeError (List Slot)
  | [] => .ok []
  | ⟨some size, read⟩ :: entries => do
    let v ← read (rest.take size)
    let slots ← readHead length (position + size) (rest.drop size) entries
    return .filled v :: slots
  | ⟨none, read⟩ :: entries => do
    let offset ← readOffset length position rest
    let slots ← readHead length (position + offsetSize) (rest.drop offsetSize) entries
    return .pending offset read :: slots

/-- The first part behind the head starts where the head ends; without one the head is all. -/
def checkFirst (head length : Nat) (slots : List Slot) : Except DecodeError Unit :=
  match slots.findSome? Slot.offset? with
  | none => if length = head then .ok () else .error (.lengthMismatch head length)
  | some first => if first = head then .ok () else .error (.firstOffset head first)

/--
Reads the pending parts of a series of `length` bytes, of which those from `previous` on are left.
Each part ends where the next one starts, the last at the end of the series.
-/
def fill (length previous : Nat) (rest : Bytes) : List Slot → Except DecodeError (List Value)
  | [] => .ok []
  | .filled v :: slots => do
    let vs ← fill length previous rest slots
    return v :: vs
  | .pending offset read :: slots =>
    let stop := (slots.findSome? Slot.offset?).getD length
    if offset < previous then .error (.offsetDecreasing previous offset)
    else if length < offset ∨ length < stop then
      .error (.offsetOutOfRange (max offset stop) length)
    else if stop < offset then .error (.offsetDecreasing offset stop)
    else do
      let rest := rest.drop (offset - previous)
      let v ← read (rest.take (stop - offset))
      let vs ← fill length offset rest slots
      return v :: vs

def requireHead (head : Nat) (bs : Bytes) : Except DecodeError Unit :=
  if bs.length < head then .error (.truncated head bs.length) else .ok ()

/-- Reads a series whose head of size `head` is there. -/
def readFrom (head : Nat) (entries : List (Entry Reader)) (bs : Bytes) :
    Except DecodeError (List Value) := do
  let slots ← readHead bs.length 0 bs entries
  checkFirst head bs.length slots
  fill bs.length head (bs.drop head) slots

def read (entries : List (Entry Reader)) (bs : Bytes) : Except DecodeError (List Value) := do
  let head ← (headSize entries).mapError .halted
  requireHead head bs
  readFrom head entries bs

end Series

end SimpleSerialize
