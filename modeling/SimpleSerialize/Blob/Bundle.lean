import SimpleSerialize.Blob.Commitment
import SimpleSerialize.Blob.Data

/-! The blobs of a block with their commitments and proofs, entry by entry. -/

namespace SimpleSerialize

structure BlobsBundle where
  commitments : KzgCommitments
  proofs : KzgProofs
  blobs : Blobs
deriving DecidableEq, Inhabited

/-- A bundle in which a root stands for each blob. -/
structure BlindedBlobsBundle where
  commitments : KzgCommitments
  proofs : KzgProofs
  blobRoots : BlobRoots
deriving DecidableEq, Inhabited

namespace BlobsBundle

def blinded (h : HashFunction) (preset : Preset) (bundle : BlobsBundle) :
    Except FitError BlindedBlobsBundle := do
  return ⟨bundle.commitments, bundle.proofs, ← bundle.blobs.roots h preset⟩

instance : Schema BlobsBundle where
  shape preset := do
    let commitments ← Schema.shape KzgCommitments preset
    let proofs ← Schema.shape KzgProofs preset
    let blobs ← Schema.shape Blobs preset
    (Shape.container [("commitments", commitments), ("proofs", proofs), ("blobs", blobs)]).check
  toValue bundle := .container
    [Schema.toValue bundle.commitments, Schema.toValue bundle.proofs, Schema.toValue bundle.blobs]
  ofValue preset v := do
    let fields ← v.toFields 3
    return {
      commitments := ← Schema.ofValue preset fields[0]
      proofs := ← Schema.ofValue preset fields[1]
      blobs := ← Schema.ofValue preset fields[2] }

instance : JsonForm BlobsBundle where
  write bundle := Json.writeRecord
    [("commitments", JsonForm.write bundle.commitments),
      ("proofs", JsonForm.write bundle.proofs), ("blobs", JsonForm.write bundle.blobs)]
  read? tree := do
    match ← tree.record? ["commitments", "proofs", "blobs"] .ignored with
    | [commitments, proofs, blobs] =>
      return {
        commitments := ← JsonForm.read? commitments
        proofs := ← JsonForm.read? proofs
        blobs := ← JsonForm.read? blobs }
    | _ => none

end BlobsBundle

namespace BlindedBlobsBundle

instance : Schema BlindedBlobsBundle where
  shape preset := do
    let commitments ← Schema.shape KzgCommitments preset
    let proofs ← Schema.shape KzgProofs preset
    let blobRoots ← Schema.shape BlobRoots preset
    (Shape.container
      [("commitments", commitments), ("proofs", proofs), ("blob_roots", blobRoots)]).check
  toValue bundle := .container
    [Schema.toValue bundle.commitments, Schema.toValue bundle.proofs,
      Schema.toValue bundle.blobRoots]
  ofValue preset v := do
    let fields ← v.toFields 3
    return {
      commitments := ← Schema.ofValue preset fields[0]
      proofs := ← Schema.ofValue preset fields[1]
      blobRoots := ← Schema.ofValue preset fields[2] }

instance : JsonForm BlindedBlobsBundle where
  write bundle := Json.writeRecord
    [("commitments", JsonForm.write bundle.commitments),
      ("proofs", JsonForm.write bundle.proofs), ("blob_roots", JsonForm.write bundle.blobRoots)]
  read? tree := do
    match ← tree.record? ["commitments", "proofs", "blob_roots"] .ignored with
    | [commitments, proofs, blobRoots] =>
      return {
        commitments := ← JsonForm.read? commitments
        proofs := ← JsonForm.read? proofs
        blobRoots := ← JsonForm.read? blobRoots }
    | _ => none

end BlindedBlobsBundle

end SimpleSerialize
