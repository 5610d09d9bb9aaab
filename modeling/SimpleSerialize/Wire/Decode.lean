import SimpleSerialize.Wire.Encode

/-! Decoding. Every byte of the input belongs to exactly one part of the value. -/

namespace SimpleSerialize

def requireCount (limit count : Nat) : Except DecodeError Unit :=
  if count ≤ limit then .ok () else .error (.tooManyElements count limit)

namespace Wire

/-- Bits of a known number; those that fill the last byte are zero. -/
def readBitvector (length : Nat) (bs : Bytes) : Except DecodeError Value := do
  expectLength (Bytes.ceilDiv length 8) bs
  let bits := Bytes.toBits bs
  if (bits.drop length).any id then .error .nonZeroPadding else .ok (.bits (bits.take length))

/-- Bits up to the highest one set, which only ends them. -/
def readBitlist (limit : Nat) (bs : Bytes) : Except DecodeError Value :=
  match bs.getLast? with
  | none => .error .missingDelimiter
  | some last =>
    if last = 0 then .error .missingDelimiter
    else do
      let count := 8 * (bs.length - 1) + Nat.log2 last.toNat
      requireCount limit count
      return .bits ((Bytes.toBits bs).take count)

/-- Elements of one fixed size, one behind the other. -/
def readRuns (size count : Nat) (read : Series.Reader) (bs : Bytes) :
    Except DecodeError (List Value) :=
  (Bytes.runs size count bs).mapM read

/-- Elements behind offsets. Their shape is pointed to once for each of them. -/
def readOffsets (count : Nat) (read : Series.Reader) (bs : Bytes) :
    Except DecodeError (List Value) := do
  (reserve pointerSize count).mapError .halted
  -- Where there are as many pointers, a word holds the size of as many offsets.
  let head := count * offsetSize
  Series.requireHead head bs
  Series.readFrom head (List.replicate count ⟨none, read⟩) bs

/-- The number of elements of a list whose first offset is `first`: the head is all offsets. -/
def countOfOffset (first length : Nat) : Except DecodeError Nat :=
  let count := first / offsetSize
  if count = 0 ∨ first % offsetSize ≠ 0 then
    .error (.firstOffset (max count 1 * offsetSize) first)
  else if length < first then .error (.offsetOutOfRange first length)
  else .ok count

def readVector (size? : Option Nat) (length : Nat) (read : Series.Reader) (bs : Bytes) :
    Except DecodeError (List Value) :=
  match size? with
  | some size => do
    let total ← (mulWord size length).mapError .halted
    expectLength total bs
    readRuns size length read bs
  | none => readOffsets length read bs

def readList (size? : Option Nat) (limit : Nat) (read : Series.Reader) (bs : Bytes) :
    Except DecodeError (List Value) :=
  match size? with
  | some size =>
    if bs.length % size ≠ 0 then .error (.strideMismatch bs.length size)
    else do
      requireCount limit (bs.length / size)
      readRuns size (bs.length / size) read bs
  | none =>
    if bs.isEmpty then .ok []
    else do
      let first ← Series.readOffset bs.length 0 bs
      let count ← countOfOffset first bs.length
      requireCount limit count
      readOffsets count read bs

end Wire

namespace Shape

mutual

def decode : Shape → Bytes → Except DecodeError Value
  | .scalar kind, bs => kind.decode bs
  | .byteVector length, bs => do
    expectLength length bs
    return .bytes bs
  | .byteList limit, bs => do
    requireCount limit bs.length
    return .bytes bs
  | .bitvector length, bs => Wire.readBitvector length bs
  | .bitlist limit, bs => Wire.readBitlist limit bs
  | .vector element length, bs => do
    let size? ← element.fixedSize?.mapError .halted
    let items ← Wire.readVector size? length (fun part => element.decode part) bs
    return .vector items
  | .list element limit, bs => do
    let size? ← element.fixedSize?.mapError .halted
    let items ← Wire.readList size? limit (fun part => element.decode part) bs
    return .list items
  | .container fields, bs => do
    let entries ← (decodeFields fields).mapError .halted
    let values ← Series.read entries bs
    return .container values

def decodeFields : List (String × Shape) → Except Halt (List (Entry Series.Reader))
  | [] => .ok []
  | (_, shape) :: fields => do
    let entry ← Entry.ofShape shape fun part => shape.decode part
    let entries ← decodeFields fields
    return entry :: entries

end

end Shape

end SimpleSerialize
