import SimpleSerialize.Wire.Error

/-! Values. They carry no limits; the shape they are written against decides whether they fit. -/

namespace SimpleSerialize

inductive Value where
  | bool (b : Bool)
  | uint (width : UIntWidth) (n : BitVec width.bits)
  | bytes (bs : Bytes)
  | bits (bs : List Bool)
  | vector (items : List Value)
  | list (items : List Value)
  | container (fields : List Value)

namespace Value

mutual

def beq : Value → Value → Bool
  | bool b, bool b' => b == b'
  | uint width n, uint width' n' => width == width' && n.toNat == n'.toNat
  | bytes bs, bytes bs' => bs == bs'
  | bits bs, bits bs' => bs == bs'
  | vector vs, vector vs' | list vs, list vs' | container vs, container vs' => beqAll vs vs'
  | _, _ => false

def beqAll : List Value → List Value → Bool
  | [], [] => true
  | v :: vs, v' :: vs' => beq v v' && beqAll vs vs'
  | _, _ => false

end

theorem uint_eq_iff {width width' : UIntWidth} {n : BitVec width.bits} {n' : BitVec width'.bits} :
    uint width n = uint width' n' ↔ width = width' ∧ n.toNat = n'.toNat := by
  constructor
  · rintro h
    cases h
    exact ⟨rfl, rfl⟩
  · rintro ⟨rfl, h⟩
    rw [BitVec.eq_of_toNat_eq h]

mutual

theorem beq_eq_true_iff : (a b : Value) → (a.beq b = true ↔ a = b)
  | bool _, b => by cases b <;> simp [beq]
  | uint _ _, b => by
    cases b with
    | uint _ _ => rw [uint_eq_iff]; simp [beq]
    | _ => simp [beq]
  | bytes _, b => by cases b <;> simp [beq]
  | bits _, b => by cases b <;> simp [beq]
  | vector vs, b => by cases b <;> simp [beq, beqAll_eq_true_iff vs]
  | list vs, b => by cases b <;> simp [beq, beqAll_eq_true_iff vs]
  | container vs, b => by cases b <;> simp [beq, beqAll_eq_true_iff vs]

theorem beqAll_eq_true_iff : (as bs : List Value) → (beqAll as bs = true ↔ as = bs)
  | [], bs => by cases bs <;> simp [beqAll]
  | v :: vs, bs => by cases bs <;> simp [beqAll, beq_eq_true_iff v, beqAll_eq_true_iff vs]

end

instance : DecidableEq Value := fun a b => decidable_of_iff _ (beq_eq_true_iff a b)

def kindName : Value → String
  | bool _ => "bool"
  | uint width _ => width.name
  | bytes _ => "bytes"
  | bits _ => "bits"
  | vector _ => "vector"
  | list _ => "list"
  | container _ => "container"

def ofUInt8 (n : UInt8) : Value := uint .w8 n.toBitVec

def ofUInt16 (n : UInt16) : Value := uint .w16 n.toBitVec

def ofUInt32 (n : UInt32) : Value := uint .w32 n.toBitVec

def ofUInt64 (n : UInt64) : Value := uint .w64 n.toBitVec

mutual

/--
Zeros throughout; lists are empty. Room is asked for as the value is put together, `slot` bytes for
each value that stands in another.
-/
def defaultFor (slot : Nat) : Shape → Except Halt Value
  | .scalar .bool => .ok (bool false)
  | .scalar (.uint width) => .ok (uint width 0)
  | .byteVector length => do
    reserve 1 length
    return bytes (List.replicate length 0)
  | .byteList _ => .ok (bytes [])
  | .bitvector length => do
    reserve 1 length
    return bits (List.replicate length false)
  | .bitlist _ => .ok (bits [])
  | .vector element length => do
    let item ← defaultFor slot element
    reserve slot length
    return vector (List.replicate length item)
  | .list _ _ => .ok (list [])
  | .container fields => do
    let values ← defaultsFor slot fields
    return container values

def defaultsFor (slot : Nat) : List (String × Shape) → Except Halt (List Value)
  | [] => .ok []
  | (_, shape) :: fields => do
    let v ← defaultFor slot shape
    let values ← defaultsFor slot fields
    return v :: values

end

def notA (expected : String) (v : Value) : DecodeError :=
  .kindMismatch expected v.kindName

def toBool : Value → Except DecodeError Bool
  | bool b => .ok b
  | v => .error (v.notA "bool")

def toUInt (width : UIntWidth) : Value → Except DecodeError (BitVec width.bits)
  | v@(uint width' n) => if h : width' = width then .ok (h ▸ n) else .error (v.notA width.name)
  | v => .error (v.notA width.name)

def toUInt8 (v : Value) : Except DecodeError UInt8 := (v.toUInt .w8).map UInt8.ofBitVec

def toUInt16 (v : Value) : Except DecodeError UInt16 := (v.toUInt .w16).map UInt16.ofBitVec

def toUInt32 (v : Value) : Except DecodeError UInt32 := (v.toUInt .w32).map UInt32.ofBitVec

def toUInt64 (v : Value) : Except DecodeError UInt64 := (v.toUInt .w64).map UInt64.ofBitVec

def toBytes : Value → Except DecodeError Bytes
  | bytes bs => .ok bs
  | v => .error (v.notA "bytes")

/-- Exactly `width` bytes. -/
def toFixedBytes (width : Nat) (v : Value) : Except DecodeError (FixedBytes width) :=
  match v.toBytes with
  | .error e => .error e
  | .ok bs =>
    match FixedBytes.ofList? bs with
    | some fixed => .ok fixed
    | none => .error (.lengthMismatch width bs.length)

def toBits : Value → Except DecodeError (List Bool)
  | bits bs => .ok bs
  | v => .error (v.notA "bits")

/-- The elements of a vector or of a list. -/
def toItems : Value → Except DecodeError (List Value)
  | vector items | list items => .ok items
  | v => .error (v.notA "vector or list")

/-- Exactly `count` fields, in the order of the declaration. -/
def toFields (count : Nat) : Value → Except DecodeError (Vector Value count)
  | container fields =>
    if h : fields.length = count then .ok ⟨fields.toArray, by simpa using h⟩
    else .error (.lengthMismatch count fields.length)
  | v => .error (v.notA "container")

end Value

end SimpleSerialize
