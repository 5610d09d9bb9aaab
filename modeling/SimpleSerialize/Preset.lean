import SimpleSerialize.Block.BodyTree
import SimpleSerialize.Json.Text
import SimpleSerialize.Shape

/-!
Presets: the constants that sizes and limits of the blob types depend on. No limit is global;
whatever depends on one takes a preset.
-/

namespace SimpleSerialize

structure Preset where
  presetBase : String
  fieldElementsPerBlob : UInt64
  maxBlobCommitmentsPerBlock : UInt64
  maxBlobsPerBlock : UInt64
  kzgCommitmentInclusionProofDepth : UInt32
  maxBytesPerTransaction : UInt64
  maxTransactionsPerPayload : UInt64
deriving DecidableEq

inductive PresetError where
  | zeroLimit (name : String)
  | blobLimit (blobs commitments : Nat)
  | blobSize (fieldElements : Nat)
  | inclusionDepth (expected got : Nat)
  | invalidJson
  | unreadable
deriving DecidableEq, Repr

def PresetError.message : PresetError → String
  | .zeroLimit name => name ++ " must be non-zero"
  | .blobLimit blobs commitments =>
    s!"MAX_BLOBS_PER_BLOCK {blobs} exceeds MAX_BLOB_COMMITMENTS_PER_BLOCK {commitments}"
  | .blobSize fieldElements =>
    s!"FIELD_ELEMENTS_PER_BLOB {fieldElements} overflows the blob byte size"
  | .inclusionDepth expected got =>
    s!"KZG_COMMITMENT_INCLUSION_PROOF_DEPTH must be {expected}, got {got}"
  | .invalidJson => "invalid preset JSON"
  | .unreadable => "cannot read preset"

namespace Preset

def bytesPerFieldElement : Nat := 32

/-- The preset of test networks. -/
def minimal : Preset where
  presetBase := "minimal"
  fieldElementsPerBlob := 4096
  maxBlobCommitmentsPerBlock := 16
  maxBlobsPerBlock := 6
  kzgCommitmentInclusionProofDepth := 9
  maxBytesPerTransaction := 1073741824
  maxTransactionsPerPayload := 1048576

def mainnet : Preset where
  presetBase := "mainnet"
  fieldElementsPerBlob := 4096
  maxBlobCommitmentsPerBlock := 4096
  maxBlobsPerBlock := 6
  kzgCommitmentInclusionProofDepth := 17
  maxBytesPerTransaction := 1073741824
  maxTransactionsPerPayload := 1048576

/-- The minimal preset with blobs of two field elements. -/
def small : Preset :=
  { minimal with presetBase := "small", fieldElementsPerBlob := 2 }

instance : Inhabited Preset := ⟨mainnet⟩

/-- Bytes of a blob; the largest word where a word does not hold the product. -/
def blobSize (preset : Preset) : Nat :=
  min (preset.fieldElementsPerBlob.toNat * bytesPerFieldElement) (wordBound - 1)

/-- The levels of the commitment list, of its length, and of the body above it. -/
def expectedInclusionDepth (preset : Preset) : Nat :=
  coverDepth preset.maxBlobCommitmentsPerBlock.toNat + 1 + BodyTree.depth

/-- The limits that must not be zero, in the order in which they are looked at. -/
def limits (preset : Preset) : List (String × UInt64) :=
  [("FIELD_ELEMENTS_PER_BLOB", preset.fieldElementsPerBlob),
    ("MAX_BLOB_COMMITMENTS_PER_BLOCK", preset.maxBlobCommitmentsPerBlock),
    ("MAX_BLOBS_PER_BLOCK", preset.maxBlobsPerBlock),
    ("MAX_BYTES_PER_TRANSACTION", preset.maxBytesPerTransaction),
    ("MAX_TRANSACTIONS_PER_PAYLOAD", preset.maxTransactionsPerPayload)]

/-- The first reason not to use a preset, if there is one. -/
def defect? (preset : Preset) : Option PresetError :=
  match preset.limits.find? (·.2 == 0) with
  | some (name, _) => some (.zeroLimit name)
  | none =>
    let elements := preset.fieldElementsPerBlob.toNat
    let blobs := preset.maxBlobsPerBlock.toNat
    let commitments := preset.maxBlobCommitmentsPerBlock.toNat
    let depth := preset.kzgCommitmentInclusionProofDepth.toNat
    if elements * bytesPerFieldElement ≥ wordBound then some (.blobSize elements)
    else if blobs > commitments then some (.blobLimit blobs commitments)
    else if depth ≠ preset.expectedInclusionDepth then
      some (.inclusionDepth preset.expectedInclusionDepth depth)
    else none

instance : JsonForm Preset where
  write preset := Json.writeRecord
    [("PRESET_BASE", JsonForm.write preset.presetBase),
      ("FIELD_ELEMENTS_PER_BLOB", JsonForm.write preset.fieldElementsPerBlob),
      ("MAX_BLOB_COMMITMENTS_PER_BLOCK", JsonForm.write preset.maxBlobCommitmentsPerBlock),
      ("MAX_BLOBS_PER_BLOCK", JsonForm.write preset.maxBlobsPerBlock),
      ("KZG_COMMITMENT_INCLUSION_PROOF_DEPTH",
        JsonForm.write preset.kzgCommitmentInclusionProofDepth),
      ("MAX_BYTES_PER_TRANSACTION", JsonForm.write preset.maxBytesPerTransaction),
      ("MAX_TRANSACTIONS_PER_PAYLOAD", JsonForm.write preset.maxTransactionsPerPayload)]
  read? tree := do
    match ← tree.record?
      ["PRESET_BASE", "FIELD_ELEMENTS_PER_BLOB", "MAX_BLOB_COMMITMENTS_PER_BLOCK",
        "MAX_BLOBS_PER_BLOCK", "KZG_COMMITMENT_INCLUSION_PROOF_DEPTH", "MAX_BYTES_PER_TRANSACTION",
        "MAX_TRANSACTIONS_PER_PAYLOAD"] .refused with
    | [base, elements, commitments, blobs, depth, bytes, transactions] =>
      return {
        presetBase := ← JsonForm.read? base
        fieldElementsPerBlob := ← JsonForm.read? elements
        maxBlobCommitmentsPerBlock := ← JsonForm.read? commitments
        maxBlobsPerBlock := ← JsonForm.read? blobs
        kzgCommitmentInclusionProofDepth := ← JsonForm.read? depth
        maxBytesPerTransaction := ← JsonForm.read? bytes
        maxTransactionsPerPayload := ← JsonForm.read? transactions }
    | _ => none

/-- A preset that is read is also fit for use. -/
def ofJson (text : String) : Except PresetError Preset :=
  match (Json.parse? text : Option Preset) with
  | none => .error .invalidJson
  | some preset =>
    match preset.defect? with
    | none => .ok preset
    | some e => .error e

/-- A preset from what a file holds, which is nothing if it could not be read. -/
def ofContents (contents? : Option ByteArray) : Except PresetError Preset :=
  match contents?.bind String.fromUTF8? with
  | none => .error .unreadable
  | some text => ofJson text

end Preset

end SimpleSerialize
