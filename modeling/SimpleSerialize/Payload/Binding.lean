import SimpleSerialize.Payload.BlobTransaction

/-!
A block names its blobs twice, by the versioned hashes of its blob transactions and by the
commitments in its body. The two have to agree entry by entry, in the order of the transactions.
-/

namespace SimpleSerialize

inductive BindingError where
  | countMismatch (hashes commitments : Nat)
  | hashMismatch (index : Nat) (expected got : VersionedHash)
  | malformedTransaction (index : Nat) (error : TransactionError)
deriving DecidableEq

def BindingError.message : BindingError → String
  | .countMismatch hashes commitments =>
    s!"got {hashes} versioned hashes but {commitments} commitments"
  | .hashMismatch index expected got =>
    let expected := expected.toHex
    let got := got.toHex
    s!"entry {index}: versioned hash {expected} does not match {got} computed from the commitment"
  | .malformedTransaction index error => s!"transaction {index} is malformed: " ++ error.message

namespace Binding

/-- The versioned hashes of the blob transactions, the first of them being number `index`. -/
def collect (index : Nat) : List Transaction → Except BindingError (List VersionedHash)
  | [] => .ok []
  | tx :: txs =>
    if tx.isBlob then
      match BlobTransaction.versionedHashes tx with
      | .error e => .error (.malformedTransaction index e)
      | .ok hashes => (collect (index + 1) txs).map (hashes ++ ·)
    else collect (index + 1) txs

/-- Finds the first entry that differs, the first of them being number `index`. -/
def compare (h : HashFunction) (index : Nat) :
    List VersionedHash → List KzgCommitment → Except BindingError Unit
  | expected :: hashes, commitment :: commitments =>
    let got := versionedHash h commitment
    if got = expected then compare h (index + 1) hashes commitments
    else .error (.hashMismatch index expected got)
  | _, _ => .ok ()

def check (h : HashFunction) (txs : List Transaction) (commitments : List KzgCommitment) :
    Except BindingError Unit := do
  let hashes ← collect 0 txs
  if hashes.length = commitments.length then compare h 0 hashes commitments
  else .error (.countMismatch hashes.length commitments.length)

end Binding

end SimpleSerialize
