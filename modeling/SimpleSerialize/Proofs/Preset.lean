import SimpleSerialize.Preset
import SimpleSerialize.Proofs.Merkle.Gindex

/-! What is known of a preset that was found fit for use. -/

namespace SimpleSerialize

namespace Preset

variable {preset : Preset}

/-- Defects are looked for one after the other. -/
theorem ite_some_eq_none_iff {ε : Type} {p : Prop} [Decidable p] {e : ε} {next : Option ε} :
    (if p then some e else next) = none ↔ ¬p ∧ next = none := by
  by_cases hp : p <;> simp [hp]

theorem defect?_eq_none_iff :
    preset.defect? = none ↔ (∀ limit ∈ preset.limits, limit.2 ≠ 0) ∧
      preset.fieldElementsPerBlob.toNat * bytesPerFieldElement < wordBound ∧
      preset.maxBlobsPerBlock.toNat ≤ preset.maxBlobCommitmentsPerBlock.toNat ∧
      preset.kzgCommitmentInclusionProofDepth.toNat = preset.expectedInclusionDepth := by
  unfold defect?
  cases hzero : preset.limits.find? (·.2 == 0) with
  | some limit =>
    have hlimit := List.find?_some hzero
    refine iff_of_false (Option.some_ne_none _) ?_
    rintro ⟨hnonzero, -⟩
    exact hnonzero limit (List.mem_of_find?_eq_some hzero) (by simpa using hlimit)
  | none =>
    have hnonzero : ∀ limit ∈ preset.limits, limit.2 ≠ 0 := by simpa using hzero
    simp only [ite_some_eq_none_iff, and_iff_right hnonzero, ge_iff_le, gt_iff_lt, Nat.not_le,
      Nat.not_lt, Decidable.not_not, and_true]

/-- No list of a preset is without room. -/
structure LimitsPos (preset : Preset) : Prop where
  fieldElements : 0 < preset.fieldElementsPerBlob.toNat
  commitments : 0 < preset.maxBlobCommitmentsPerBlock.toNat
  blobs : 0 < preset.maxBlobsPerBlock.toNat
  bytes : 0 < preset.maxBytesPerTransaction.toNat
  transactions : 0 < preset.maxTransactionsPerPayload.toNat

section Usable

variable (husable : preset.defect? = none)

include husable

theorem limitsPos : preset.LimitsPos := by
  have hpos : ∀ limit ∈ preset.limits, 0 < limit.2.toNat := by
    intro limit hlimit
    apply Nat.pos_of_ne_zero
    intro hzero
    exact (defect?_eq_none_iff.mp husable).1 limit hlimit (UInt64.toNat.inj hzero)
  simp only [limits, List.forall_mem_cons] at hpos
  obtain ⟨helements, hcommitments, hblobs, hbytes, htransactions, -⟩ := hpos
  exact ⟨helements, hcommitments, hblobs, hbytes, htransactions⟩

theorem blobSize_eq :
    preset.blobSize = preset.fieldElementsPerBlob.toNat * bytesPerFieldElement := by
  obtain ⟨-, hsize, -⟩ := defect?_eq_none_iff.mp husable
  exact Nat.min_eq_left (Nat.le_sub_one_of_lt hsize)

theorem blobSize_lt : preset.blobSize < wordBound := by
  rw [blobSize_eq husable]
  exact (defect?_eq_none_iff.mp husable).2.1

theorem blobSize_pos : 0 < preset.blobSize := by
  rw [blobSize_eq husable]
  apply Nat.mul_pos _ (by decide)
  exact (limitsPos husable).fieldElements

theorem inclusionProofDepth_eq :
    preset.kzgCommitmentInclusionProofDepth.toNat
      = coverDepth preset.maxBlobCommitmentsPerBlock.toNat + 1 + BodyTree.depth :=
  (defect?_eq_none_iff.mp husable).2.2.2

theorem inclusionProofDepth_le : preset.kzgCommitmentInclusionProofDepth.toNat ≤ 69 := by
  have hlist : coverDepth preset.maxBlobCommitmentsPerBlock.toNat ≤ 64 :=
    coverDepth_le_iff.mpr (Nat.le_of_lt preset.maxBlobCommitmentsPerBlock.toNat_lt)
  rw [inclusionProofDepth_eq husable]
  unfold BodyTree.depth
  omega

end Usable

end Preset

end SimpleSerialize
