import SimpleSerialize.Blob.Commitment
import SimpleSerialize.Block.BodyTree

/-!
Block bodies in which a root stands for every field but the blob commitments. The root is that of
the full body.
-/

namespace SimpleSerialize

structure BlockBody where
  randaoReveal : Root
  eth1Data : Root
  graffiti : Root
  proposerSlashings : Root
  attesterSlashings : Root
  attestations : Root
  deposits : Root
  voluntaryExits : Root
  syncAggregate : Root
  executionPayload : Root
  blsToExecutionChanges : Root
  blobKzgCommitments : KzgCommitments
deriving DecidableEq, Inhabited

namespace BlockBody

/-- The fields of which only the root is kept. -/
def fieldRoots (body : BlockBody) : List Root :=
  [body.randaoReveal, body.eth1Data, body.graffiti, body.proposerSlashings,
    body.attesterSlashings, body.attestations, body.deposits, body.voluntaryExits,
    body.syncAggregate, body.executionPayload, body.blsToExecutionChanges]

def leaves (h : HashFunction) (preset : Preset) (body : BlockBody) :
    Except FitError (List Root) := do
  let commitments ← Schema.hashTreeRoot h preset body.blobKzgCommitments
  return body.fieldRoots ++ [commitments]

def hashTreeRoot (h : HashFunction) (preset : Preset) (body : BlockBody) :
    Except FitError Root := do
  Merkle.merkleize h (← body.leaves h preset) (some BodyTree.fieldCount)

/--
The branch of a node. Of the fields only the commitments have nodes below them, and there an
unreachable one is named by its gindex in the list.
-/
def prove (h : HashFunction) (preset : Preset) (body : BlockBody) (gindex : Gindex) :
    Except ProofError (List Root) := do
  let leaves ← (body.leaves h preset).mapError .fit
  Merkle.branchInTree h leaves BodyTree.depth gindex fun field below =>
    if field = BodyTree.commitmentsField then
      Schema.prove h preset body.blobKzgCommitments below
    else .error (.unreachable gindex)

def fieldNames : List String :=
  ["randao_reveal", "eth1_data", "graffiti", "proposer_slashings", "attester_slashings",
    "attestations", "deposits", "voluntary_exits", "sync_aggregate", "execution_payload",
    "bls_to_execution_changes", "blob_kzg_commitments"]

instance : JsonForm BlockBody where
  write body := Json.writeRecord <| fieldNames.zip <|
    body.fieldRoots.map JsonForm.write ++ [JsonForm.write body.blobKzgCommitments]
  read? tree := do
    match ← tree.record? fieldNames .ignored with
    | [randaoReveal, eth1Data, graffiti, proposerSlashings, attesterSlashings, attestations,
        deposits, voluntaryExits, syncAggregate, executionPayload, blsToExecutionChanges,
        blobKzgCommitments] =>
      return {
        randaoReveal := ← JsonForm.read? randaoReveal
        eth1Data := ← JsonForm.read? eth1Data
        graffiti := ← JsonForm.read? graffiti
        proposerSlashings := ← JsonForm.read? proposerSlashings
        attesterSlashings := ← JsonForm.read? attesterSlashings
        attestations := ← JsonForm.read? attestations
        deposits := ← JsonForm.read? deposits
        voluntaryExits := ← JsonForm.read? voluntaryExits
        syncAggregate := ← JsonForm.read? syncAggregate
        executionPayload := ← JsonForm.read? executionPayload
        blsToExecutionChanges := ← JsonForm.read? blsToExecutionChanges
        blobKzgCommitments := ← JsonForm.read? blobKzgCommitments }
    | _ => none

end BlockBody

end SimpleSerialize
