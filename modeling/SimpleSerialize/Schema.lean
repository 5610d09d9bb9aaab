import SimpleSerialize.Merkle.Layout
import SimpleSerialize.Preset
import SimpleSerialize.Wire.Decode

/-!
Types whose values have a shape under every preset, and with it an encoding, a root and proofs.
-/

namespace SimpleSerialize

class Schema (α : Type) where
  shape : Preset → Except ShapeError Shape
  toValue : α → Value
  ofValue : Preset → Value → Except DecodeError α

namespace Schema

variable {α : Type} [Schema α]

def encode (preset : Preset) (a : α) : Except FitError Bytes := do
  let shape ← (shape α preset).mapError .shape
  shape.encode (toValue a)

def decode (preset : Preset) (bs : Bytes) : Except DecodeError α := do
  let shape ← (shape α preset).mapError .shape
  ofValue preset (← shape.decode bs)

def encodedSize (preset : Preset) (a : α) : Except FitError Nat := do
  let shape ← (shape α preset).mapError .shape
  shape.encodedSize (toValue a)

def hashTreeRoot (h : HashFunction) (preset : Preset) (a : α) : Except FitError Root := do
  let shape ← (shape α preset).mapError .shape
  shape.hashTreeRoot h (toValue a)

def prove (h : HashFunction) (preset : Preset) (a : α) (gindex : Gindex) :
    Except ProofError (List Root) := do
  let shape ← (shape α preset).mapError .shape
  shape.prove h (toValue a) gindex

instance : Schema Bool where
  shape _ := .ok (.scalar .bool)
  toValue := .bool
  ofValue _ := Value.toBool

instance : Schema UInt8 where
  shape _ := .ok (.scalar (.uint .w8))
  toValue := .ofUInt8
  ofValue _ := Value.toUInt8

instance : Schema UInt16 where
  shape _ := .ok (.scalar (.uint .w16))
  toValue := .ofUInt16
  ofValue _ := Value.toUInt16

instance : Schema UInt32 where
  shape _ := .ok (.scalar (.uint .w32))
  toValue := .ofUInt32
  ofValue _ := Value.toUInt32

instance : Schema UInt64 where
  shape _ := .ok .uint64
  toValue := .ofUInt64
  ofValue _ := Value.toUInt64

instance {width : Nat} : Schema (FixedBytes width) where
  shape _ := (Shape.byteVector width).check
  toValue fixed := .bytes fixed.toList
  ofValue _ := Value.toFixedBytes width

end Schema

/-- A list whose limit comes from the preset. -/
structure LimitedList (limit : Preset → UInt64) (α : Type) where
  items : List α
deriving DecidableEq

namespace LimitedList

variable {limit : Preset → UInt64} {α : Type}

instance : Inhabited (LimitedList limit α) := ⟨⟨[]⟩⟩

instance [Schema α] : Schema (LimitedList limit α) where
  shape preset := do
    let element ← Schema.shape α preset
    (Shape.list element (limit preset).toNat).check
  toValue list := .list (list.items.map Schema.toValue)
  ofValue preset v := do
    let items ← v.toItems
    requireCount (limit preset).toNat items.length
    return ⟨← items.mapM (Schema.ofValue preset)⟩

instance [JsonForm α] : JsonForm (LimitedList limit α) where
  write list := JsonForm.write list.items
  read? tree := do return ⟨← JsonForm.read? tree⟩

end LimitedList

end SimpleSerialize
