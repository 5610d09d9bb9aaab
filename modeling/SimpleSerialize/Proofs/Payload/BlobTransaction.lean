import SimpleSerialize.Payload.BlobTransaction
import SimpleSerialize.Proofs.Bytes.Runs
import SimpleSerialize.Proofs.Except

/-!
Which versioned hashes a blob transaction tells. They are the bytes from the place that the
transaction names up to its end, and an envelope of hashes tells these hashes.
-/

namespace SimpleSerialize.BlobTransaction

/-- The transaction is laid out as far as its versioned hashes, and these make up all the rest. -/
structure Tells (bs : Bytes) (hashes : List VersionedHash) : Prop where
  length_le : 262 ≤ bs.length
  type_eq : bs[0]? = some 3
  message_eq : (bs.drop 1).take 4 = Bytes.littleEndian 4 69
  start_le : 70 + Bytes.ofLittleEndian ((bs.drop 258).take 4) ≤ bs.length
  hashes_eq : hashes.flatMap FixedBytes.toList
    = bs.drop (70 + Bytes.ofLittleEndian ((bs.drop 258).take 4))

variable {tx : Transaction} {bs : Bytes} {hashes : List VersionedHash}

theorem offsetAt_eq_iff {position offset : Nat} (hlength : position + 4 ≤ bs.length)
    (hoffset : offset < 256 ^ 4) :
    offsetAt bs position = offset ↔
      (bs.drop position).take 4 = Bytes.littleEndian 4 offset := by
  have hfield : ((bs.drop position).take 4).length = 4 := by
    rw [List.length_take, List.length_drop]
    omega
  rw [offsetAt, offsetSize, Bytes.ofLittleEndian_eq_iff hfield, and_iff_left hoffset]

/-- The rest of a transaction is made of whole hashes in one way. -/
theorem map_runs_eq_iff (rest : Bytes) (hashes : List VersionedHash) :
    (rest.length % 32 = 0 ∧
      (Bytes.runs 32 (rest.length / 32) rest).map FixedBytes.ofPadded = hashes) ↔
      hashes.flatMap FixedBytes.toList = rest := by
  constructor
  · rintro ⟨hwhole, hruns⟩
    have hlength : rest.length = 32 * (rest.length / 32) := by omega
    exact (Bytes.map_ofPadded_runs_eq_iff hlength (by decide)).mp hruns
  · intro hflat
    have hlength : rest.length = hashes.length * 32 := by
      rw [← hflat, List.length_flatMap]
      simp only [FixedBytes.length_toList, List.map_const', List.sum_replicate_nat]
    have hwhole : rest.length = 32 * (rest.length / 32) := by omega
    exact ⟨by omega, (Bytes.map_ofPadded_runs_eq_iff hwhole (by decide)).mpr hflat⟩

theorem headD_eq_blobType_iff :
    bs.headD 0 = Transaction.blobType ↔ bs[0]? = some 3 := by
  cases bs with
  | nil => decide
  | cons first rest => simp [Transaction.blobType]

/-- The hashes of a transaction are found where it tells hashes, and they are those it tells. -/
theorem versionedHashes_eq_ok_iff : versionedHashes tx = .ok hashes ↔ Tells tx.bytes hashes := by
  have hrest : (tx.bytes.drop (hashesStart tx.bytes)).length
      = tx.bytes.length - hashesStart tx.bytes := List.length_drop
  have hruns := map_runs_eq_iff (tx.bytes.drop (hashesStart tx.bytes)) hashes
  rw [hrest] at hruns
  simp only [versionedHashes, ite_error_eq_ok_iff, Except.ok.injEq, not_or, ne_eq,
    Decidable.not_not, Nat.not_lt]
  constructor
  · rintro ⟨hlength, htype, hmessage, ⟨hstart, hwhole⟩, hfound⟩
    have hlength : 262 ≤ tx.bytes.length := hlength
    exact {
      length_le := hlength
      type_eq := headD_eq_blobType_iff.mp htype
      message_eq := (offsetAt_eq_iff (by omega) (by decide)).mp hmessage
      start_le := hstart
      hashes_eq := hruns.mp ⟨hwhole, hfound⟩ }
  · rintro ⟨hlength, htype, hmessage, hstart, hhashes⟩
    obtain ⟨hwhole, hfound⟩ := hruns.mpr hhashes
    refine ⟨hlength, headD_eq_blobType_iff.mpr htype, ?_, ⟨hstart, hwhole⟩, hfound⟩
    exact (offsetAt_eq_iff (by omega) (by decide)).mpr hmessage

/-- What a transaction with nothing but hashes in its message has before them. -/
def envelopeHead : Bytes :=
  Transaction.blobType :: Bytes.littleEndian offsetSize messageOffset ++
    List.replicate (hashesOffsetPosition - 1 - offsetSize) 0 ++
    Bytes.littleEndian offsetSize (minLength - 1 - messageOffset)

theorem length_envelopeHead : envelopeHead.length = 262 := by
  simp only [envelopeHead, List.length_append, List.length_cons, List.length_replicate,
    Bytes.length_littleEndian]
  rfl

theorem bytes_ofHashes (hashes : List VersionedHash) :
    (ofHashes hashes).bytes = envelopeHead ++ hashes.flatMap FixedBytes.toList := rfl

theorem tells_ofHashes (hashes : List VersionedHash) : Tells (ofHashes hashes).bytes hashes := by
  have hoffset : ((ofHashes hashes).bytes.drop 258).take 4 = Bytes.littleEndian 4 192 := rfl
  have hstart : 70 + Bytes.ofLittleEndian (Bytes.littleEndian 4 192) = 262 := by decide
  have hlength : 262 ≤ (ofHashes hashes).bytes.length := by
    rw [bytes_ofHashes, List.length_append, length_envelopeHead]
    omega
  exact {
    length_le := hlength
    type_eq := rfl
    message_eq := rfl
    start_le := by rwa [hoffset, hstart]
    hashes_eq := by
      rw [hoffset, hstart, bytes_ofHashes, List.drop_left' length_envelopeHead] }

/-- An envelope of hashes is read back. -/
theorem versionedHashes_ofHashes (hashes : List VersionedHash) :
    versionedHashes (ofHashes hashes) = .ok hashes :=
  versionedHashes_eq_ok_iff.mpr (tells_ofHashes hashes)

theorem isBlob_ofHashes (hashes : List VersionedHash) : (ofHashes hashes).isBlob = true := rfl

end SimpleSerialize.BlobTransaction
