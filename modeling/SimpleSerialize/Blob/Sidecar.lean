import SimpleSerialize.Blob.Data
import SimpleSerialize.Blob.Inclusion
import SimpleSerialize.Block.Header

/-!
Sidecars: one blob on its own, with the header of its block and the proof that the body under that
header holds the commitment at the blob's index.
-/

namespace SimpleSerialize

inductive SidecarError where
  | bodyRootMismatch (header body : Root)
  | indexOutOfRange (index count : Nat)
  | commitmentMismatch (index : Nat)
  | proofDepth (expected got : Nat)
  | proof (error : ProofError)
  | fit (error : FitError)
deriving DecidableEq

def SidecarError.message : SidecarError → String
  | .bodyRootMismatch header body =>
    "block body root " ++ body.toHex ++ " does not match header body root " ++ header.toHex
  | .indexOutOfRange index count => s!"blob index {index} out of range for {count} commitments"
  | .commitmentMismatch index => s!"sidecar commitment does not match body commitment {index}"
  | .proofDepth expected got => s!"inclusion proof has {got} nodes, expected {expected}"
  | .proof error => "proof error: " ++ error.message
  | .fit error => "merkleization error: " ++ error.message

structure BlobSidecar where
  index : BlobIndex
  blob : Blob
  kzgCommitment : KzgCommitment
  kzgProof : KzgProof
  signedBlockHeader : SignedBlockHeader
  inclusionProof : InclusionProof
deriving DecidableEq

namespace BlobSidecar

/-- The root that the proof has to lead to. -/
def bodyRoot (sidecar : BlobSidecar) : Root := sidecar.signedBlockHeader.message.bodyRoot

def requireDepth (preset : Preset) (nodes : List Root) : Except SidecarError Unit :=
  let expected := preset.kzgCommitmentInclusionProofDepth.toNat
  if nodes.length = expected then .ok () else .error (.proofDepth expected nodes.length)

/-- The body holds the commitment of the sidecar at its index. -/
def requireCommitment (sidecar : BlobSidecar) (body : BlockBody) : Except SidecarError Unit :=
  let commitments := body.blobKzgCommitments.items
  let index := sidecar.index.toNat
  match commitments[index]? with
  | none => .error (.indexOutOfRange index commitments.length)
  | some commitment =>
    if commitment = sidecar.kzgCommitment then .ok () else .error (.commitmentMismatch index)

/-- The proof that a body gives, once the body is known to be that of the header. -/
def buildProof (h : HashFunction) (preset : Preset) (sidecar : BlobSidecar) (body : BlockBody) :
    Except SidecarError InclusionProof := do
  sidecar.requireCommitment body
  let root ← (body.hashTreeRoot h preset).mapError .fit
  if root ≠ sidecar.bodyRoot then .error (.bodyRootMismatch sidecar.bodyRoot root)
  else do
    let field ← Inclusion.fieldGindex.mapError (.proof ∘ .gindex)
    let outer ← (body.prove h preset field).mapError .proof
    let element ←
      (Inclusion.elementGindex preset sidecar.index.toNat).mapError (.proof ∘ .gindex)
    let inner ← (Schema.prove h preset body.blobKzgCommitments element).mapError .proof
    let list ← (Schema.hashTreeRoot h preset body.blobKzgCommitments).mapError .fit
    let (_, branch) ←
      (Merkle.joinVerified h inner element list outer field root).mapError .proof
    requireDepth preset branch
    return ⟨branch⟩

/-- What may fail after it has changed a sidecar. -/
abbrev Update := ExceptT SidecarError (StateM BlobSidecar)

/-- How an update ends, and the sidecar it leaves. -/
def Update.runOn {α : Type} (update : Update α) (sidecar : BlobSidecar) :
    Except SidecarError α × BlobSidecar :=
  update.run.run sidecar

/-- The line that is logged about a stored proof. -/
def storedLine (preset : Preset) (sidecar : BlobSidecar) : Except SidecarError String := do
  let index := sidecar.index.toNat
  let gindex ← (Inclusion.commitmentGindex preset index).mapError (.proof ∘ .gindex)
  return s!"Included commitment proof for blob {index} at gindex {gindex.toNat}"

/-- Stores the proof that a body gives, and only then makes the line to log, if it is `logged`. -/
def storeProof (h : HashFunction) (preset : Preset) (body : BlockBody) (logged : Bool) :
    Update (Option String) := do
  let proof ← MonadExcept.ofExcept ((← get).buildProof h preset body)
  modify fun sidecar => { sidecar with inclusionProof := proof }
  if logged then return some (← MonadExcept.ofExcept (storedLine preset (← get)))
  else return none

/-- The sidecar with the proof that a body gives. -/
def includeProof (h : HashFunction) (preset : Preset) (sidecar : BlobSidecar) (body : BlockBody) :
    Except SidecarError BlobSidecar :=
  match (storeProof h preset body false).runOn sidecar with
  | (.ok _, stored) => .ok stored
  | (.error e, _) => .error e

/-- The proof leads from the commitment to the header; one of the wrong length is an error. -/
def verifyInclusion (h : HashFunction) (preset : Preset) (sidecar : BlobSidecar) :
    Except SidecarError Bool := do
  requireDepth preset sidecar.inclusionProof.nodes
  let gindex ←
    (Inclusion.commitmentGindex preset sidecar.index.toNat).mapError (.proof ∘ .gindex)
  let leaf ← (Schema.hashTreeRoot h preset sidecar.kzgCommitment).mapError .fit
  (Merkle.verify h sidecar.inclusionProof.nodes gindex sidecar.bodyRoot leaf).mapError .proof

/-- The proof is the one that the body gives. -/
def verifyAgainstBody (h : HashFunction) (preset : Preset) (sidecar : BlobSidecar)
    (body : BlockBody) : Except SidecarError Bool := do
  let proof ← sidecar.buildProof h preset body
  return proof == sidecar.inclusionProof

instance : Schema BlobSidecar where
  shape preset := do
    let index ← Schema.shape BlobIndex preset
    let blob ← Schema.shape Blob preset
    let commitment ← Schema.shape KzgCommitment preset
    let proof ← Schema.shape KzgProof preset
    let header ← Schema.shape SignedBlockHeader preset
    let inclusionProof ← Schema.shape InclusionProof preset
    (Shape.container
      [("index", index), ("blob", blob), ("kzg_commitment", commitment), ("kzg_proof", proof),
        ("signed_block_header", header), ("kzg_commitment_inclusion_proof", inclusionProof)]).check
  toValue sidecar := .container
    [Schema.toValue sidecar.index, Schema.toValue sidecar.blob,
      Schema.toValue sidecar.kzgCommitment, Schema.toValue sidecar.kzgProof,
      Schema.toValue sidecar.signedBlockHeader, Schema.toValue sidecar.inclusionProof]
  ofValue preset v := do
    let fields ← v.toFields 6
    return {
      index := ← Schema.ofValue preset fields[0]
      blob := ← Schema.ofValue preset fields[1]
      kzgCommitment := ← Schema.ofValue preset fields[2]
      kzgProof := ← Schema.ofValue preset fields[3]
      signedBlockHeader := ← Schema.ofValue preset fields[4]
      inclusionProof := ← Schema.ofValue preset fields[5] }

instance : JsonForm BlobSidecar where
  write sidecar := Json.writeRecord
    [("index", JsonForm.write sidecar.index), ("blob", JsonForm.write sidecar.blob),
      ("kzg_commitment", JsonForm.write sidecar.kzgCommitment),
      ("kzg_proof", JsonForm.write sidecar.kzgProof),
      ("signed_block_header", JsonForm.write sidecar.signedBlockHeader),
      ("kzg_commitment_inclusion_proof", JsonForm.write sidecar.inclusionProof)]
  read? tree := do
    match ← tree.record?
      ["index", "blob", "kzg_commitment", "kzg_proof", "signed_block_header",
        "kzg_commitment_inclusion_proof"] .ignored with
    | [index, blob, kzgCommitment, kzgProof, signedBlockHeader, inclusionProof] =>
      return {
        index := ← JsonForm.read? index
        blob := ← JsonForm.read? blob
        kzgCommitment := ← JsonForm.read? kzgCommitment
        kzgProof := ← JsonForm.read? kzgProof
        signedBlockHeader := ← JsonForm.read? signedBlockHeader
        inclusionProof := ← JsonForm.read? inclusionProof }
    | _ => none

end BlobSidecar

end SimpleSerialize
