import SimpleSerialize.Bytes
import SimpleSerialize.Merkle.Gindex

/-!
Shapes: what a value is made of, and so how it is written and where its parts stand in its tree.
A shape is built from parts that were checked and then checked itself (`Shape.check`).
-/

namespace SimpleSerialize

/-- Sizes are held in 64-bit words. -/
def wordBound : Nat := 2 ^ 64

/-- What a computation with words comes to a halt at, without a result or an error to return. -/
inductive Halt where
  | sum
  | product
  | allocation
deriving DecidableEq, Repr

def Halt.message : Halt → String
  | .sum => "attempt to add with overflow"
  | .product => "attempt to multiply with overflow"
  | .allocation => "capacity overflow"

/-- A sum of sizes, where a word holds it. -/
def addWord (a b : Nat) : Except Halt Nat :=
  if a + b < wordBound then .ok (a + b) else .error .sum

/-- A product of sizes, where a word holds it. -/
def mulWord (a b : Nat) : Except Halt Nat :=
  if a * b < wordBound then .ok (a * b) else .error .product

/-- The most bytes that can be asked for at once. -/
def maxAllocation : Nat := 2 ^ 63 - 1

/-- Asks for room for `count` entries of `width` bytes each. -/
def reserve (width count : Nat) : Except Halt Unit :=
  if width * count ≤ maxAllocation then .ok () else .error .allocation

/-- Bytes of a pointer. -/
def pointerSize : Nat := 8

/-- Bytes of an offset. -/
def offsetSize : Nat := 4

/-- Bytes of a leaf. -/
def chunkSize : Nat := 32

inductive UIntWidth where
  | w8
  | w16
  | w32
  | w64
  | w128
  | w256
deriving DecidableEq, Repr

namespace UIntWidth

def size : UIntWidth → Nat
  | w8 => 1
  | w16 => 2
  | w32 => 4
  | w64 => 8
  | w128 => 16
  | w256 => 32

def bits (width : UIntWidth) : Nat := 8 * width.size

def name : UIntWidth → String
  | w8 => "uint8"
  | w16 => "uint16"
  | w32 => "uint32"
  | w64 => "uint64"
  | w128 => "uint128"
  | w256 => "uint256"

end UIntWidth

inductive Scalar where
  | bool
  | uint (width : UIntWidth)
deriving DecidableEq, Repr

namespace Scalar

def size : Scalar → Nat
  | bool => 1
  | uint width => width.size

def name : Scalar → String
  | bool => "bool"
  | uint width => width.name

end Scalar

inductive Shape where
  | scalar (kind : Scalar)
  | byteVector (length : Nat)
  | byteList (limit : Nat)
  | bitvector (length : Nat)
  | bitlist (limit : Nat)
  | vector (element : Shape) (length : Nat)
  | list (element : Shape) (limit : Nat)
  | container (fields : List (String × Shape))

/-- Why there is no shape; `halted` where its check did not come to an end. -/
inductive ShapeError where
  | zeroLimit
  | zeroLength
  | emptyContainer
  | limitTooLarge (declared : Nat)
  | halted (halt : Halt)
deriving DecidableEq, Repr

def ShapeError.message : ShapeError → String
  | .zeroLimit => "list limit must be non-zero"
  | .zeroLength => "fixed length must be non-zero"
  | .emptyContainer => "container must have at least one field"
  | .limitTooLarge declared =>
    s!"limit {declared} needs a deeper tree than a 64-bit gindex can address"
  | .halted halt => halt.message

namespace Shape

mutual

def beq : Shape → Shape → Bool
  | scalar kind, scalar kind' => kind == kind'
  | byteVector n, byteVector n' | byteList n, byteList n' => n == n'
  | bitvector n, bitvector n' | bitlist n, bitlist n' => n == n'
  | vector element n, vector element' n' => beq element element' && n == n'
  | list element n, list element' n' => beq element element' && n == n'
  | container fields, container fields' => beqFields fields fields'
  | _, _ => false

def beqFields : List (String × Shape) → List (String × Shape) → Bool
  | [], [] => true
  | (name, shape) :: fields, (name', shape') :: fields' =>
    name == name' && beq shape shape' && beqFields fields fields'
  | _, _ => false

end

mutual

theorem beq_eq_true_iff : (a b : Shape) → (a.beq b = true ↔ a = b)
  | scalar _, b => by cases b <;> simp [beq]
  | byteVector _, b => by cases b <;> simp [beq]
  | byteList _, b => by cases b <;> simp [beq]
  | bitvector _, b => by cases b <;> simp [beq]
  | bitlist _, b => by cases b <;> simp [beq]
  | vector element _, b => by cases b <;> simp [beq, beq_eq_true_iff element]
  | list element _, b => by cases b <;> simp [beq, beq_eq_true_iff element]
  | container fields, b => by cases b <;> simp [beq, beqFields_eq_true_iff fields]

theorem beqFields_eq_true_iff : (as bs : List (String × Shape)) → (beqFields as bs = true ↔ as = bs)
  | [], bs => by cases bs <;> simp [beqFields]
  | (name, shape) :: fields, bs => by
    cases bs <;> simp [beqFields, beq_eq_true_iff shape, beqFields_eq_true_iff fields, Prod.ext_iff]

end

instance : DecidableEq Shape := fun a b => decidable_of_iff _ (beq_eq_true_iff a b)

def uint64 : Shape := .scalar (.uint .w64)

def bytes32 : Shape := .byteVector 32

def name : Shape → String
  | scalar kind => kind.name
  | byteVector _ => "byte vector"
  | byteList _ => "byte list"
  | bitvector _ => "bitvector"
  | bitlist _ => "bitlist"
  | vector _ _ => "vector"
  | list _ _ => "list"
  | container _ => "container"

def scalar? : Shape → Option Scalar
  | scalar kind => some kind
  | _ => none

mutual

/-- The size of every encoding, where it does not depend on the value. -/
def fixedSize? : Shape → Except Halt (Option Nat)
  | scalar kind => .ok (some kind.size)
  | byteVector length => .ok (some length)
  | byteList _ => .ok none
  | bitvector length => .ok (some (Bytes.ceilDiv length 8))
  | bitlist _ => .ok none
  | vector element length => do
    match ← element.fixedSize? with
    | some size => return some (← mulWord size length)
    | none => return none
  | list _ _ => .ok none
  | container fields => fixedSizes? 0 fields

/-- Sizes of fields added to those in front of them, up to the first field of no fixed size. -/
def fixedSizes? (sum : Nat) : List (String × Shape) → Except Halt (Option Nat)
  | [] => .ok (some sum)
  | (_, shape) :: fields => do
    match ← shape.fixedSize? with
    | some size => fixedSizes? (← addWord sum size) fields
    | none => return none

end

def isFixed (shape : Shape) : Except Halt Bool := do return (← shape.fixedSize?).isSome

/-- The size of the entry in an enclosing head: the value itself, or the offset of its place. -/
def headSize (shape : Shape) : Except Halt Nat := do return (← shape.fixedSize?).getD offsetSize

/-- Leaves for `count` parts of a shape: scalars share leaves, everything else has its own. -/
def leafCount (element : Shape) (count : Nat) : Nat :=
  match element.scalar? with
  | some kind => Bytes.ceilDiv (count * kind.size) chunkSize
  | none => count

/-- The number of leaves there is room for, whatever the value. -/
def chunkLimit : Shape → Nat
  | scalar _ => 1
  | byteVector length => Bytes.ceilDiv length chunkSize
  | byteList limit => Bytes.ceilDiv limit chunkSize
  | bitvector length => Bytes.ceilDiv length (8 * chunkSize)
  | bitlist limit => Bytes.ceilDiv limit (8 * chunkSize)
  | vector element length => element.leafCount length
  | list element limit => element.leafCount limit
  | container fields => fields.length

/-- Whether the root covers the number of elements beside the elements. -/
def mixesInCount : Shape → Bool
  | byteList _ | bitlist _ | list _ _ => true
  | _ => false

def treeDepth (shape : Shape) : Nat :=
  coverDepth shape.chunkLimit + if shape.mixesInCount then 1 else 0

/-- The number that a shape was declared with; where it has none, the largest word. -/
def declared : Shape → Nat
  | byteVector n | byteList n | bitvector n | bitlist n | vector _ n | list _ n => n
  | scalar _ | container _ => wordBound - 1

/-- Whether all elements of a vector together have a size that a word holds. -/
def sizeFits : Shape → Except Halt Bool
  | vector element length => do
    match ← element.fixedSize? with
    | some size => return size * length < wordBound
    | none => return true
  | _ => .ok true

def emptiness : Shape → Option ShapeError
  | byteVector 0 | bitvector 0 | vector _ 0 => some .zeroLength
  | byteList 0 | bitlist 0 | list _ 0 => some .zeroLimit
  | container [] => some .emptyContainer
  | _ => none

/--
Accepts a shape whose parts were accepted. Its tree, with a count mixed in, has to stay within the
levels that a gindex reaches.
-/
def check (shape : Shape) : Except ShapeError Shape :=
  match shape.emptiness with
  | some e => .error e
  | none => do
    let fits ← shape.sizeFits.mapError .halted
    if !fits || shape.declared ≥ wordBound || shape.chunkLimit > 2 ^ (maxDepth - 1) then
      .error (.limitTooLarge shape.declared)
    else .ok shape

end Shape

end SimpleSerialize
