import SimpleSerialize.Wire.Decode

/-!
Decoding by places. The input is cut and indexed at places computed from it, and a step that would
reach outside of what is there faults. `Shape.decode` takes bytes off the front of its input and has
nothing to reach outside of. Lengths are exact: no memory holds more bytes than a word counts bits.
-/

namespace SimpleSerialize

/-- What a step can do wrong. -/
inductive Fault where
  | slice (start stop length : Nat)
  | index (i length : Nat)
  | subtraction (a b : Nat)
  | shift (amount : Nat)
  | zeroStride
  | unfilled (slot : Nat)
  | halted (halt : Halt)
deriving DecidableEq

/-- Decoding stops where the input is refused, or at a step that goes wrong. -/
inductive Stop where
  | refused (error : DecodeError)
  | faulted (fault : Fault)
deriving DecidableEq

/-- What is no refusal has gone wrong. -/
def Stop.ofError : DecodeError → Stop
  | .halted halt => .faulted (.halted halt)
  | e => .refused e

abbrev Guarded (α : Type) := Except Stop α

namespace Guarded

variable {α : Type}

def ofExcept (x : Except DecodeError α) : Guarded α := x.mapError .ofError

def ofWords (x : Except Halt α) : Guarded α := x.mapError fun halt => .faulted (.halted halt)

def refuse (e : DecodeError) : Guarded α := .error (.refused e)

def fault (e : Fault) : Guarded α := .error (.faulted e)

def slice (bs : Bytes) (start stop : Nat) : Guarded Bytes :=
  if start ≤ stop ∧ stop ≤ bs.length then .ok ((bs.drop start).take (stop - start))
  else fault (.slice start stop bs.length)

def get (xs : List α) (i : Nat) : Guarded α :=
  match xs[i]? with
  | some x => .ok x
  | none => fault (.index i xs.length)

def set (xs : List α) (i : Nat) (x : α) : Guarded (List α) :=
  if i < xs.length then .ok (xs.set i x) else fault (.index i xs.length)

def sub (a b : Nat) : Guarded Nat :=
  if b ≤ a then .ok (a - b) else fault (.subtraction a b)

def shiftRight (b : UInt8) (amount : Nat) : Guarded UInt8 :=
  if amount < 8 then .ok (b >>> UInt8.ofNat amount) else fault (.shift amount)

def div (n stride : Nat) : Guarded Nat :=
  if stride = 0 then fault .zeroStride else .ok (n / stride)

def mod (n stride : Nat) : Guarded Nat :=
  if stride = 0 then fault .zeroStride else .ok (n % stride)

/-- Runs of one size; what is left behind the last is not looked at. -/
def chunks (size : Nat) (bs : Bytes) : Guarded (List Bytes) := do
  let count ← div bs.length size
  return Bytes.runs size count bs

/-- The first `count` bytes. -/
def readArray (count : Nat) (bs : Bytes) : Guarded Bytes := slice bs 0 count

/-! ### Bits -/

def bit (bs : Bytes) (i : Nat) : Guarded Bool := do
  let b ← get bs (i / 8)
  let low ← shiftRight b (i % 8)
  return low &&& 1 == 1

def bits (bs : Bytes) (count : Nat) : Guarded (List Bool) :=
  (List.range count).mapM (bit bs)

/-- The bits that fill the last byte have to be zero. -/
def checkPadding (length : Nat) (bs : Bytes) : Guarded Unit := do
  let padding ← sub (8 * bs.length) length
  if padding > 0 then
    let last ← get bs (← sub bs.length 1)
    let high ← shiftRight last (← sub 8 padding)
    if high = 0 then .ok () else refuse .nonZeroPadding
  else .ok ()

def readBitvector (length : Nat) (bs : Bytes) : Guarded Value := do
  ofExcept (expectLength (Bytes.ceilDiv length 8) bs)
  checkPadding length bs
  return .bits (← bits bs length)

/-- Zeros above the highest bit set. -/
def leadingZeros (b : UInt8) : Nat := if b = 0 then 8 else 7 - Nat.log2 b.toNat

def readBitlist (limit : Nat) (bs : Bytes) : Guarded Value :=
  match bs.getLast? with
  | none => refuse .missingDelimiter
  | some last =>
    if last = 0 then refuse .missingDelimiter
    else do
      let before ← sub bs.length 1
      let highest ← sub 7 (leadingZeros last)
      let count := 8 * before + highest
      ofExcept (requireCount limit count)
      return .bits (← bits bs count)

def readBool (bs : Bytes) : Guarded Value := do
  let b ← get bs 0
  if b = 0 then .ok (.bool false)
  else if b = 1 then .ok (.bool true)
  else refuse (.invalidBool b)

def readNumber (width : UIntWidth) (bs : Bytes) : Guarded Nat :=
  match width with
  | .w8 => do
    let b ← get bs 0
    return b.toNat
  | .w16 => do
    let low ← get bs 0
    let high ← get bs 1
    return Bytes.ofLittleEndian [low, high]
  | width => do
    let field ← readArray width.size bs
    return Bytes.ofLittleEndian field

def readScalar (kind : Scalar) (bs : Bytes) : Guarded Value := do
  ofExcept (expectLength kind.size bs)
  match kind with
  | .bool => readBool bs
  | .uint width => return .uint width (BitVec.ofNat width.bits (← readNumber width bs))

/-! ### Series -/

abbrev Reader := Bytes → Guarded Value

/-- The offset at a place of the head. -/
def readOffset (bs : Bytes) (position : Nat) : Guarded Nat :=
  if position + offsetSize ≤ bs.length then do
    let field ← readArray offsetSize ((bs.drop position).take offsetSize)
    return Bytes.ofLittleEndian field
  else refuse (.truncated (position + offsetSize) bs.length)

def readStrided (size : Nat) (read : Reader) (bs : Bytes) : Guarded (List Value) := do
  let parts ← chunks size bs
  parts.mapM read

/-- A slot for each part, filled if the part is in the head; where the others start, by slot. -/
structure Head where
  slots : List (Option Value)
  starts : List (Nat × Nat)

/-- Reads the rest of a head, from a position on, behind what was read of it before. -/
def readHead (bs : Bytes) (position : Nat) (done : Head) : List (Entry Reader) → Guarded Head
  | [] => .ok done
  | ⟨some size, read⟩ :: entries => do
    let part ← slice bs position (position + size)
    let v ← read part
    readHead bs (position + size) ⟨done.slots ++ [some v], done.starts⟩ entries
  | ⟨none, _⟩ :: entries => do
    let start ← readOffset bs position
    let starts := done.starts ++ [(done.slots.length, start)]
    readHead bs (position + offsetSize) ⟨done.slots ++ [none], starts⟩ entries

def checkFirst (head length : Nat) : (starts : List (Nat × Nat)) → Guarded Unit
  | [] => if length = head then .ok () else refuse (.lengthMismatch head length)
  | (_, first) :: _ => if first = head then .ok () else refuse (.firstOffset head first)

/-- Where the next part starts, or the end of the series. -/
def stopOf (length : Nat) : (later : List (Nat × Nat)) → Nat
  | [] => length
  | (_, next) :: _ => next

/-- Fills the slots of the parts behind the head, each of which ends where the next one starts. -/
def fill (entries : List (Entry Reader)) (bs : Bytes) (previous : Nat)
    (slots : List (Option Value)) : (starts : List (Nat × Nat)) → Guarded (List (Option Value))
  | [] => .ok slots
  | (slot, start) :: starts => do
    let stop := stopOf bs.length starts
    if start < previous then refuse (.offsetDecreasing previous start)
    else if bs.length < start ∨ bs.length < stop then
      refuse (.offsetOutOfRange (max start stop) bs.length)
    else if stop < start then refuse (.offsetDecreasing start stop)
    else
      let entry ← get entries slot
      let part ← slice bs start stop
      let v ← entry.content part
      let slots ← set slots slot (some v)
      fill entries bs start slots starts

/-- The parts, in order, of which none may be missing. -/
def collect (slots : List (Option Value)) : Guarded (List Value) :=
  slots.zipIdx.mapM fun
    | (some v, _) => .ok v
    | (none, i) => fault (.unfilled i)

/-- Reads a series whose head of size `head` is there. -/
def readFrom (head : Nat) (entries : List (Entry Reader)) (bs : Bytes) : Guarded (List Value) := do
  let done ← readHead bs 0 ⟨[], []⟩ entries
  checkFirst head bs.length done.starts
  let slots ← fill entries bs head done.slots done.starts
  collect slots

def readSeries (entries : List (Entry Reader)) (bs : Bytes) : Guarded (List Value) := do
  let head ← ofWords (Series.headSize entries)
  ofExcept (Series.requireHead head bs)
  readFrom head entries bs

/-- Elements behind offsets. Their shape is pointed to once for each of them. -/
def readOffsets (count : Nat) (read : Reader) (bs : Bytes) : Guarded (List Value) := do
  ofWords (reserve pointerSize count)
  readSeries (List.replicate count ⟨none, read⟩) bs

def readVector (size? : Option Nat) (length : Nat) (read : Reader) (bs : Bytes) :
    Guarded (List Value) :=
  match size? with
  | some size => do
    let total ← ofWords (mulWord size length)
    ofExcept (expectLength total bs)
    readStrided size read bs
  | none => readOffsets length read bs

def readList (size? : Option Nat) (limit : Nat) (read : Reader) (bs : Bytes) :
    Guarded (List Value) :=
  match size? with
  | some size => do
    let left ← mod bs.length size
    if left ≠ 0 then refuse (.strideMismatch bs.length size)
    else
      let count ← div bs.length size
      ofExcept (requireCount limit count)
      readStrided size read bs
  | none =>
    if bs.isEmpty then .ok []
    else do
      let first ← readOffset bs 0
      let count ← ofExcept (Wire.countOfOffset first bs.length)
      ofExcept (requireCount limit count)
      readOffsets count read bs

end Guarded

namespace Shape

open Guarded

mutual

def decodeGuarded : Shape → Bytes → Guarded Value
  | .scalar kind, bs => readScalar kind bs
  | .byteVector length, bs => do
    ofExcept (expectLength length bs)
    return .bytes bs
  | .byteList limit, bs => do
    ofExcept (requireCount limit bs.length)
    return .bytes bs
  | .bitvector length, bs => readBitvector length bs
  | .bitlist limit, bs => readBitlist limit bs
  | .vector element length, bs => do
    let size? ← ofWords element.fixedSize?
    let items ← readVector size? length (fun part => element.decodeGuarded part) bs
    return .vector items
  | .list element limit, bs => do
    let size? ← ofWords element.fixedSize?
    let items ← readList size? limit (fun part => element.decodeGuarded part) bs
    return .list items
  | .container fields, bs => do
    let entries ← ofWords (guardedFields fields)
    let values ← readSeries entries bs
    return .container values

def guardedFields : List (String × Shape) → Except Halt (List (Entry Guarded.Reader))
  | [] => .ok []
  | (_, shape) :: fields => do
    let entry ← Entry.ofShape shape fun part => shape.decodeGuarded part
    let entries ← guardedFields fields
    return entry :: entries

end

end Shape

end SimpleSerialize
