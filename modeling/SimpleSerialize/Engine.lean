import SimpleSerialize.Blob.Bundle
import SimpleSerialize.Blob.Sidecar
import SimpleSerialize.Payload.Binding

/-! An engine: a preset that was found fit for use, with the hash that trees are built with. -/

namespace SimpleSerialize

inductive EngineError where
  | shape (error : ShapeError)
  | decode (error : DecodeError)
  | fit (error : FitError)
  | proof (error : ProofError)
  | text (error : HexError)
  | preset (error : PresetError)
  | transaction (error : TransactionError)
  | binding (error : BindingError)
  | sidecar (error : SidecarError)
  | bundleMismatch (commitments proofs blobs : Nat)
deriving DecidableEq

def EngineError.message : EngineError → String
  | .shape error => "shape error: " ++ error.message
  | .decode error => "decode error: " ++ error.message
  | .fit error => "ssz error: " ++ error.message
  | .proof error => "proof error: " ++ error.message
  | .text error => "text error: " ++ error.message
  | .preset error => "spec error: " ++ error.message
  | .transaction error => "transaction error: " ++ error.message
  | .binding error => "binding error: " ++ error.message
  | .sidecar error => "sidecar error: " ++ error.message
  | .bundleMismatch commitments proofs blobs =>
    s!"bundle has {commitments} commitments, {proofs} proofs and {blobs} blobs"

structure EngineConfig where
  preset : Preset
deriving DecidableEq

namespace EngineConfig

def minimal : EngineConfig := ⟨.minimal⟩

def mainnet : EngineConfig := ⟨.mainnet⟩

instance : Inhabited EngineConfig := ⟨mainnet⟩

/-- The preset alone is what a file holds. -/
def ofContents (contents? : Option ByteArray) : Except EngineError EngineConfig := do
  return ⟨← (Preset.ofContents contents?).mapError .preset⟩

instance : JsonForm EngineConfig where
  write config := Json.writeRecord [("spec", JsonForm.write config.preset)]
  read? tree := do
    match ← tree.record? ["spec"] .ignored with
    | [preset] => return ⟨← JsonForm.read? preset⟩
    | _ => none

end EngineConfig

structure Engine where
  hash : HashFunction
  config : EngineConfig
  usable : config.preset.defect? = none

namespace Engine

def create (hash : HashFunction) (config : EngineConfig) : Except EngineError Engine :=
  match h : config.preset.defect? with
  | none => .ok ⟨hash, config, h⟩
  | some e => .error (.preset e)

def preset (engine : Engine) : Preset := engine.config.preset

section

variable {α : Type} [Schema α]

def encode (engine : Engine) (a : α) : Except EngineError Bytes :=
  (Schema.encode engine.preset a).mapError .fit

def decode (engine : Engine) (bs : Bytes) : Except EngineError α :=
  (Schema.decode engine.preset bs).mapError .decode

def hashTreeRoot (engine : Engine) (a : α) : Except EngineError Root :=
  (Schema.hashTreeRoot engine.hash engine.preset a).mapError .fit

def prove (engine : Engine) (a : α) (gindex : Gindex) : Except EngineError (List Root) :=
  (Schema.prove engine.hash engine.preset a gindex).mapError .proof

end

def verify (engine : Engine) (branch : List Root) (gindex : Gindex) (root leaf : Root) :
    Except EngineError Bool :=
  (Merkle.verify engine.hash branch gindex root leaf).mapError .proof

/-- The blob transactions refer to exactly these commitments. -/
def checkCommitments (engine : Engine) (txs : List Transaction)
    (commitments : List KzgCommitment) : Except EngineError Unit :=
  (Binding.check engine.hash txs commitments).mapError .binding

def blindBundle (engine : Engine) (bundle : BlobsBundle) :
    Except EngineError BlindedBlobsBundle :=
  (bundle.blinded engine.hash engine.preset).mapError .fit

/-- The sidecar of a blob, with the commitment that the body holds at its index. -/
def buildSidecar (engine : Engine) (index : BlobIndex) (blob : Blob) (kzgProof : KzgProof)
    (header : SignedBlockHeader) (body : BlockBody) : Except EngineError BlobSidecar :=
  let commitments := body.blobKzgCommitments.items
  match commitments[index.toNat]? with
  | none => .error (.sidecar (.indexOutOfRange index.toNat commitments.length))
  | some kzgCommitment =>
    let bare : BlobSidecar := ⟨index, blob, kzgCommitment, kzgProof, header, ⟨[]⟩⟩
    (bare.includeProof engine.hash engine.preset body).mapError .sidecar

/-- One sidecar for each blob of a bundle, in order. -/
def buildSidecars (engine : Engine) (bundle : BlobsBundle) (header : SignedBlockHeader)
    (body : BlockBody) : Except EngineError (List BlobSidecar) :=
  let commitments := bundle.commitments.items
  let proofs := bundle.proofs.items
  let blobs := bundle.blobs.items
  if commitments.length = proofs.length ∧ commitments.length = blobs.length then
    (blobs.zip proofs).zipIdx.mapM fun ((blob, kzgProof), i) =>
      engine.buildSidecar (UInt64.ofNat i) blob kzgProof header body
  else .error (.bundleMismatch commitments.length proofs.length blobs.length)

def verifySidecar (engine : Engine) (sidecar : BlobSidecar) : Except EngineError Bool :=
  (sidecar.verifyInclusion engine.hash engine.preset).mapError .sidecar

end Engine

end SimpleSerialize
