import SimpleSerialize.Wire.Scalar
import SimpleSerialize.Wire.Series

/-! The encoding of a value against a shape, and its size without writing it. -/

namespace SimpleSerialize

def requireLength (expected got : Nat) : Except FitError Unit :=
  if got = expected then .ok () else .error (.lengthMismatch expected got)

def requireCapacity (limit length : Nat) : Except FitError Unit :=
  if length ≤ limit then .ok () else .error (.overCapacity length limit)

namespace Shape

def misfit (shape : Shape) (v : Value) : FitError := .kindMismatch shape.name v.kindName

mutual

def encode : Shape → Value → Except FitError Bytes
  | .scalar kind, v => kind.encode v
  | shape@(.byteVector length), v =>
    match v with
    | .bytes bs => do
      requireLength length bs.length
      return bs
    | v => .error (shape.misfit v)
  | shape@(.byteList limit), v =>
    match v with
    | .bytes bs => do
      requireCapacity limit bs.length
      return bs
    | v => .error (shape.misfit v)
  | shape@(.bitvector length), v =>
    match v with
    | .bits bits => do
      requireLength length bits.length
      return Bytes.ofBits bits
    | v => .error (shape.misfit v)
  | shape@(.bitlist limit), v =>
    match v with
    | .bits bits => do
      requireCapacity limit bits.length
      return Bytes.ofBits (bits ++ [true])
    | v => .error (shape.misfit v)
  | shape@(.vector element length), v =>
    match v with
    | .vector items => do
      requireLength length items.length
      let entries ← (items.mapM fun item =>
        Entry.ofShape element (element.encode item)).mapError .halted
      Series.write entries
    | v => .error (shape.misfit v)
  | shape@(.list element limit), v =>
    match v with
    | .list items => do
      requireCapacity limit items.length
      let entries ← (items.mapM fun item =>
        Entry.ofShape element (element.encode item)).mapError .halted
      Series.write entries
    | v => .error (shape.misfit v)
  | shape@(.container fields), v =>
    match v with
    | .container values => do
      requireLength fields.length values.length
      let entries ← (encodeFields fields values).mapError .halted
      Series.write entries
    | v => .error (shape.misfit v)

def encodeFields :
    List (String × Shape) → List Value → Except Halt (List (Entry (Except FitError Bytes)))
  | (_, shape) :: fields, v :: values => do
    let entry ← Entry.ofShape shape (shape.encode v)
    let entries ← encodeFields fields values
    return entry :: entries
  | _, _ => .ok []

end

/-- Sizes added to those in front of them, up to the first error. -/
def sumSizes (sum : Nat) : List (Except FitError Nat) → Except FitError Nat
  | [] => .ok sum
  | size :: sizes => do
    let n ← size
    sumSizes (← (addWord sum n).mapError .halted) sizes

/-- What a part adds to a series: itself, and the offset in front of it unless its size is fixed. -/
def entrySize (size? : Except Halt (Option Nat)) (own : Except FitError Nat) :
    Except FitError Nat := do
  match ← size?.mapError .halted with
  | some size => return size
  | none =>
    let n ← own
    (addWord offsetSize n).mapError .halted

/-- The size as far as the shape alone gives it. -/
def sizeWithout (shape : Shape) (v : Value) : Except FitError Nat := do
  match ← shape.fixedSize?.mapError .halted with
  | some size => return size
  | none => .error (shape.misfit v)

mutual

/-- The size of the encoding. Of a value of fixed size only the shape is looked at. -/
def encodedSize : Shape → Value → Except FitError Nat
  | shape@(.byteList limit), v =>
    match v with
    | .bytes bs => do
      requireCapacity limit bs.length
      return bs.length
    | v => shape.sizeWithout v
  | shape@(.bitlist limit), v =>
    match v with
    | .bits bits => do
      requireCapacity limit bits.length
      return bits.length / 8 + 1
    | v => shape.sizeWithout v
  | shape@(.vector element length), v =>
    match v with
    | .vector items => do
      if ← element.isFixed.mapError .halted then shape.sizeWithout v
      else
        requireLength length items.length
        sumSizes 0 (items.map fun item =>
          entrySize element.fixedSize? (element.encodedSize item))
    | v => shape.sizeWithout v
  | shape@(.list element limit), v =>
    match v with
    | .list items => do
      requireCapacity limit items.length
      sumSizes 0 (items.map fun item => entrySize element.fixedSize? (element.encodedSize item))
    | v => shape.sizeWithout v
  | shape@(.container fields), v =>
    match v with
    | .container values => do
      if ← shape.isFixed.mapError .halted then shape.sizeWithout v
      else
        requireLength fields.length values.length
        sumSizes 0 (fieldSizes fields values)
    | v => shape.sizeWithout v
  | shape, v => shape.sizeWithout v

def fieldSizes : List (String × Shape) → List Value → List (Except FitError Nat)
  | (_, shape) :: fields, v :: values =>
    entrySize shape.fixedSize? (shape.encodedSize v) :: fieldSizes fields values
  | _, _ => []

end

end Shape

end SimpleSerialize
