import SimpleSerialize.Schema

/-! Blobs and the roots that stand for them. -/

namespace SimpleSerialize

/-- A position in a block. -/
abbrev BlobIndex := UInt64

/-- Bytes of any length; only a preset says how many there have to be. -/
structure Blob where
  bytes : Bytes
deriving DecidableEq, Inhabited

abbrev Blobs := LimitedList Preset.maxBlobCommitmentsPerBlock Blob

abbrev BlobRoots := LimitedList Preset.maxBlobCommitmentsPerBlock Root

namespace Blob

def zeroed (preset : Preset) : Except Halt Blob := do
  reserve 1 preset.blobSize
  return ⟨List.replicate preset.blobSize 0⟩

def summary (blob : Blob) : String := s!"Blob({blob.bytes.length} bytes)"

instance : Schema Blob where
  shape preset := (Shape.byteVector preset.blobSize).check
  toValue blob := .bytes blob.bytes
  ofValue _ v := do return ⟨← v.toBytes⟩

instance : JsonForm Blob where
  write blob := Json.writeString (Hex.encode .standard blob.bytes)
  read? tree := do return ⟨← (Hex.decode .standard (← tree.string?)).toOption⟩

end Blob

/-- The root of every blob, in order. -/
def Blobs.roots (h : HashFunction) (preset : Preset) (blobs : Blobs) :
    Except FitError BlobRoots := do
  return ⟨← blobs.items.mapM (Schema.hashTreeRoot h preset)⟩

end SimpleSerialize
