import SimpleSerialize.Schema

/-! KZG commitments and proofs. They are opaque bytes here; nothing is computed on the curve. -/

namespace SimpleSerialize

abbrev KzgCommitment := FixedBytes 48

abbrev KzgProof := FixedBytes 48

/-- A commitment as a transaction refers to it. -/
abbrev VersionedHash := FixedBytes 32

abbrev KzgCommitments := LimitedList Preset.maxBlobCommitmentsPerBlock KzgCommitment

abbrev KzgProofs := LimitedList Preset.maxBlobCommitmentsPerBlock KzgProof

/-- The first byte of the versioned hash of a KZG commitment. -/
def versionedHashTag : UInt8 := 1

/-- The hash of a commitment, tagged with the scheme it belongs to. -/
def versionedHash (h : HashFunction) (commitment : KzgCommitment) : VersionedHash :=
  (h.hash commitment.toList).setHead versionedHashTag

end SimpleSerialize
