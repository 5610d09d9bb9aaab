import SimpleSerialize.Blob.Commitment
import SimpleSerialize.Payload.Transaction

/-!
The layout of a signed blob transaction, as far as it takes to find the versioned hashes: the type,
an offset of the message, the signature, and the message, whose last part in the layout read here
is the versioned hashes, up to the end.
-/

namespace SimpleSerialize

inductive TransactionError where
  | tooShort (length minimum : Nat)
  | notBlob (type : UInt8)
  | messageOffset (got expected : Nat)
  | partialHash (start length : Nat)
deriving DecidableEq, Repr

def TransactionError.message : TransactionError → String
  | .tooShort length minimum =>
    s!"blob tx is too small: {length} bytes, need at least {minimum}"
  | .notBlob type => "tx is not a blob tx: type " ++ Hex.ofByte type
  | .messageOffset got expected => s!"blob tx has message offset {got}, expected {expected}"
  | .partialHash start length =>
    s!"versioned hashes start at byte {start} of {length}, leaving a partial hash"

namespace BlobTransaction

/-- The message stands behind its own offset and the three parts of the signature. -/
def messageOffset : Nat := 4 + (1 + 32 + 32)

/--
Chain, nonce, priority fee, fee, gas, recipient, amount, the offsets of the data and of the access
list, and the blob fee.
-/
def bytesBeforeHashesOffset : Nat := 32 + 8 + 32 + 32 + 8 + 4 + 32 + 4 + 4 + 32

/-- Where the offset of the versioned hashes, counted from the message, is found. -/
def hashesOffsetPosition : Nat := 1 + messageOffset + bytesBeforeHashesOffset

def minLength : Nat := hashesOffsetPosition + offsetSize

def offsetAt (bs : Bytes) (position : Nat) : Nat :=
  Bytes.ofLittleEndian ((bs.drop position).take offsetSize)

/-- The first byte of the versioned hashes, as the transaction tells it. -/
def hashesStart (bs : Bytes) : Nat := 1 + messageOffset + offsetAt bs hashesOffsetPosition

def versionedHashes (tx : Transaction) : Except TransactionError (List VersionedHash) :=
  let bs := tx.bytes
  let type := bs.headD 0
  let start := hashesStart bs
  if bs.length < minLength then .error (.tooShort bs.length minLength)
  else if type ≠ Transaction.blobType then .error (.notBlob type)
  else if offsetAt bs 1 ≠ messageOffset then
    .error (.messageOffset (offsetAt bs 1) messageOffset)
  else if bs.length < start ∨ (bs.length - start) % 32 ≠ 0 then
    .error (.partialHash start bs.length)
  else .ok ((Bytes.runs 32 ((bs.length - start) / 32) (bs.drop start)).map FixedBytes.ofPadded)

/-- A transaction with nothing in its message but versioned hashes. -/
def ofHashes (hashes : List VersionedHash) : Transaction :=
  ⟨Transaction.blobType :: Bytes.littleEndian offsetSize messageOffset ++
    List.replicate (hashesOffsetPosition - 1 - offsetSize) 0 ++
    Bytes.littleEndian offsetSize (minLength - 1 - messageOffset) ++
    hashes.flatMap FixedBytes.toList⟩

end BlobTransaction

end SimpleSerialize
