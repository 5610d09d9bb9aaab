import SimpleSerialize.Blob.Sidecar
import SimpleSerialize.Proofs.Blob.Inclusion
import SimpleSerialize.Proofs.Merkle.Joined

/-!
When a sidecar's proof is accepted, and when a body gives one. The proof that a body gives is always
`Inclusion.branch` (`BlobSidecar.buildProof_eq_ok_iff`).
-/

namespace SimpleSerialize

/-- The two parts of the way from a commitment to the body join at the root of the commitments. -/
theorem Inclusion.joinVerified_branch {h : HashFunction} {preset : Preset} {body : BlockBody}
    {index : Nat} {element g : Gindex} {root : Root}
    (hroot : body.hashTreeRoot h preset = .ok root)
    (helement : elementGindex preset index = .ok element)
    (hconcat : field.concat element = .ok g) :
    Merkle.joinVerified h (listBranch h preset body index) element
        (body.commitmentsRoot h preset) (bodyBranch h preset body) field root
      = .ok (g, branch h preset body index) := by
  obtain ⟨-, rfl⟩ := BlockBody.hashTreeRoot_eq_ok_iff.mp hroot
  have hplaced : Merkle.verify h (bodyBranch h preset body) field
      (Merkle.foldUp h .zero BodyTree.depth (body.fields h preset))
      (body.commitmentsRoot h preset) = .ok true :=
    Merkle.verify_eq_true_iff.mpr ⟨Merkle.length_siblings _ _ _, climb_bodyBranch⟩
  have hlength : (listBranch h preset body index).length = element.depth := by
    rw [length_listBranch, depth_elementGindex helement]
  exact Merkle.joinVerified_eq_ok_iff.mpr ⟨hplaced, hlength, hconcat, rfl⟩

namespace BlobSidecar

variable {h : HashFunction} {preset : Preset} {sidecar : BlobSidecar} {body : BlockBody}

theorem requireDepth_eq_ok_iff {nodes : List Root} {u : Unit} :
    requireDepth preset nodes = .ok u ↔
      nodes.length = preset.kzgCommitmentInclusionProofDepth.toNat := by
  rw [requireDepth]
  by_cases hlength : nodes.length = preset.kzgCommitmentInclusionProofDepth.toNat <;>
    simp [hlength]

theorem requireCommitment_eq_ok_iff {u : Unit} :
    sidecar.requireCommitment body = .ok u ↔
      body.blobKzgCommitments.items[sidecar.index.toNat]? = some sidecar.kzgCommitment := by
  unfold requireCommitment
  cases hget : body.blobKzgCommitments.items[sidecar.index.toNat]? with
  | none => simp [hget]
  | some commitment => by_cases hsame : commitment = sidecar.kzgCommitment <;> simp [hget, hsame]

theorem verifyInclusion_eq_true_iff :
    sidecar.verifyInclusion h preset = .ok true ↔
      sidecar.inclusionProof.nodes.length = preset.kzgCommitmentInclusionProofDepth.toNat ∧
      ∃ g, Inclusion.commitmentGindex preset sidecar.index.toNat = .ok g ∧
        sidecar.inclusionProof.nodes.length = g.depth ∧
        Merkle.climb h g.toNat (Inclusion.commitmentRoot h sidecar.kzgCommitment)
          sidecar.inclusionProof.nodes = sidecar.bodyRoot := by
  simp only [verifyInclusion, bind_eq_ok_iff, mapError_eq_ok_iff, requireDepth_eq_ok_iff,
    Inclusion.hashTreeRoot_commitment, Except.ok.injEq, exists_eq_left', Merkle.verify_eq_true_iff]
  constructor
  · rintro ⟨-, hlength, hverify⟩
    exact ⟨hlength, hverify⟩
  · rintro ⟨hlength, hverify⟩
    exact ⟨(), hlength, hverify⟩

theorem buildProof_eq_ok_iff {proof : InclusionProof} :
    sidecar.buildProof h preset body = .ok proof ↔
      body.blobKzgCommitments.items[sidecar.index.toNat]? = some sidecar.kzgCommitment ∧
      body.hashTreeRoot h preset = .ok sidecar.bodyRoot ∧
      (∃ g, Inclusion.commitmentGindex preset sidecar.index.toNat = .ok g) ∧
      preset.expectedInclusionDepth = preset.kzgCommitmentInclusionProofDepth.toNat ∧
      proof = ⟨Inclusion.branch h preset body sidecar.index.toNat⟩ := by
  simp only [buildProof, bind_eq_ok_iff, mapError_eq_ok_iff, requireCommitment_eq_ok_iff]
  constructor
  · rintro ⟨-, hcommitment, root, hroot, hrest⟩
    by_cases hsame : root = sidecar.bodyRoot
    · rw [if_neg (not_not_intro hsame)] at hrest
      simp only [bind_eq_ok_iff, mapError_eq_ok_iff, Inclusion.fieldGindex_eq, Except.ok.injEq,
        exists_eq_left', requireDepth_eq_ok_iff, pure_eq_ok_iff] at hrest
      obtain ⟨outer, houter, element, helement, inner, hinner, list, -, joined, hjoin, -, hdepth,
        rfl⟩ := hrest
      obtain ⟨hfits, -⟩ := BlockBody.hashTreeRoot_eq_ok_iff.mp hroot
      obtain ⟨hindex, -⟩ := List.getElem?_eq_some_iff.mp hcommitment
      obtain ⟨-, -, hconcat, hbranch⟩ := Merkle.joinVerified_eq_ok_iff.mp hjoin
      rw [BlockBody.prove_field hfits] at houter
      rw [Inclusion.prove_commitments hfits hindex helement] at hinner
      cases houter
      cases hinner
      have hgindex := Inclusion.commitmentGindex_eq_ok_iff.mpr ⟨element, helement, hconcat⟩
      rw [← hbranch] at hdepth ⊢
      exact ⟨hcommitment, hsame ▸ hroot, ⟨_, hgindex⟩, Inclusion.length_branch.symm.trans hdepth,
        rfl⟩
    · rw [if_pos hsame] at hrest
      cases hrest
  · rintro ⟨hcommitment, hroot, ⟨g, hgindex⟩, hdepth, rfl⟩
    obtain ⟨hfits, -⟩ := BlockBody.hashTreeRoot_eq_ok_iff.mp hroot
    obtain ⟨hindex, -⟩ := List.getElem?_eq_some_iff.mp hcommitment
    obtain ⟨element, helement, hconcat⟩ := Inclusion.commitmentGindex_eq_ok_iff.mp hgindex
    have hjoin := Inclusion.joinVerified_branch hroot helement hconcat
    refine ⟨(), hcommitment, sidecar.bodyRoot, hroot, ?_⟩
    rw [if_neg (not_not_intro rfl)]
    simp only [bind_eq_ok_iff, mapError_eq_ok_iff, Inclusion.fieldGindex_eq, Except.ok.injEq,
      exists_eq_left', requireDepth_eq_ok_iff, pure_eq_ok_iff]
    refine ⟨_, BlockBody.prove_field hfits, element, helement, _,
      Inclusion.prove_commitments hfits hindex helement, _,
      Inclusion.hashTreeRoot_commitments_eq_ok_iff.mpr ⟨hfits, rfl⟩, _, hjoin, (), ?_, rfl⟩
    rw [← hdepth]
    exact Inclusion.length_branch

/-- The proof that a body gives is accepted. -/
theorem verifyInclusion_of_buildProof
    (hbuild : sidecar.buildProof h preset body = .ok sidecar.inclusionProof) :
    sidecar.verifyInclusion h preset = .ok true := by
  obtain ⟨hcommitment, hbody, ⟨g, hgindex⟩, hdepth, hproof⟩ := buildProof_eq_ok_iff.mp hbuild
  obtain ⟨-, hroot⟩ := BlockBody.hashTreeRoot_eq_ok_iff.mp hbody
  have hclimb : Merkle.climb h g.toNat _ (Inclusion.branch h preset body sidecar.index.toNat) = _ :=
    Inclusion.climb_branch hgindex
  rw [Inclusion.subtreeRoot_commitment hcommitment, ← hroot] at hclimb
  rw [verifyInclusion_eq_true_iff, hproof]
  refine ⟨Inclusion.length_branch.trans hdepth, g, hgindex, ?_, hclimb⟩
  rw [Inclusion.length_branch, Inclusion.depth_commitmentGindex hgindex]

/-- Blocks of at most two commitments. -/
def twoBlobs : Preset :=
  { Preset.small with
    maxBlobCommitmentsPerBlock := 2
    maxBlobsPerBlock := 2
    kzgCommitmentInclusionProofDepth := 6 }

def oneBlobBody : BlockBody :=
  { (default : BlockBody) with blobKzgCommitments := ⟨[.ofNat 5]⟩ }

theorem fits_oneBlobBody : oneBlobBody.Fits twoBlobs := ⟨by decide, by decide⟩

def oneBlobHeader : SignedBlockHeader :=
  let bodyRoot := Merkle.foldUp .sha256 .zero BodyTree.depth (oneBlobBody.fields .sha256 twoBlobs)
  ⟨{ (default : BlockHeader) with bodyRoot := bodyRoot }, .zero⟩

def oneBlobSidecar : BlobSidecar :=
  ⟨0, ⟨[]⟩, .ofNat 5, .zero, oneBlobHeader, ⟨Inclusion.branch .sha256 twoBlobs oneBlobBody 0⟩⟩

theorem hashTreeRoot_oneBlobBody :
    oneBlobBody.hashTreeRoot .sha256 twoBlobs = .ok oneBlobSidecar.bodyRoot :=
  BlockBody.hashTreeRoot_eq_ok_iff.mpr ⟨fits_oneBlobBody, rfl⟩

theorem buildProof_oneBlobSidecar :
    oneBlobSidecar.buildProof .sha256 twoBlobs oneBlobBody
      = .ok oneBlobSidecar.inclusionProof :=
  buildProof_eq_ok_iff.mpr ⟨rfl, hashTreeRoot_oneBlobBody, ⟨_, rfl⟩, by decide +kernel, rfl⟩

end BlobSidecar

end SimpleSerialize
