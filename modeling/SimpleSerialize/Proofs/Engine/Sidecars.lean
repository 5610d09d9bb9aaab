import SimpleSerialize.Engine
import SimpleSerialize.Proofs.Blob.Stored
import SimpleSerialize.Proofs.Preset

/-!
The sidecars an engine builds. The preset of an engine gives a proof as many nodes as a branch from
a commitment has, so the only things that can be missing are the commitments and the body itself.
-/

namespace SimpleSerialize

namespace Engine

variable {engine : Engine} {index : BlobIndex} {blob : Blob} {kzgProof : KzgProof}
  {header : SignedBlockHeader} {body : BlockBody}

theorem expectedDepth_eq (engine : Engine) :
    engine.preset.expectedInclusionDepth
      = engine.preset.kzgCommitmentInclusionProofDepth.toNat :=
  (Preset.defect?_eq_none_iff.mp engine.usable).2.2.2.symm

/-- What the sidecar of the `i`-th blob of a bundle is. -/
structure IsSidecarAt (engine : Engine) (bundle : BlobsBundle) (header : SignedBlockHeader)
    (body : BlockBody) (i : Nat) (sidecar : BlobSidecar) : Prop where
  index_eq : sidecar.index.toNat = i
  blob_eq : bundle.blobs.items[i]? = some sidecar.blob
  kzgProof_eq : bundle.proofs.items[i]? = some sidecar.kzgProof
  header_eq : sidecar.signedBlockHeader = header
  commitment_eq : body.blobKzgCommitments.items[i]? = some sidecar.kzgCommitment
  length_nodes : sidecar.inclusionProof.nodes.length
    = engine.preset.kzgCommitmentInclusionProofDepth.toNat
  proved : ∃ g, Inclusion.commitmentGindex engine.preset i = .ok g ∧
    body.prove engine.hash engine.preset g = .ok sidecar.inclusionProof.nodes
  verified : engine.verifySidecar sidecar = .ok true

/-- A sidecar is built from the body, as far as the commitment has a place that gindices reach. -/
theorem buildSidecar_eq_ok_iff_placed {sidecar : BlobSidecar} :
    engine.buildSidecar index blob kzgProof header body = .ok sidecar ↔
      ∃ commitment, body.blobKzgCommitments.items[index.toNat]? = some commitment ∧
        body.hashTreeRoot engine.hash engine.preset = .ok header.message.bodyRoot ∧
        (∃ g, Inclusion.commitmentGindex engine.preset index.toNat = .ok g) ∧
        sidecar = ⟨index, blob, commitment, kzgProof, header,
          ⟨Inclusion.branch engine.hash engine.preset body index.toNat⟩⟩ := by
  unfold buildSidecar
  cases hget : body.blobKzgCommitments.items[index.toNat]? with
  | none => simp [hget]
  | some commitment =>
    simp only [hget, mapError_eq_ok_iff, BlobSidecar.includeProof_eq_ok_iff,
      BlobSidecar.buildProof_eq_ok_iff, Option.some.injEq, exists_eq_left', true_and]
    constructor
    · rintro ⟨proof, ⟨hbody, hgindex, -, rfl⟩, rfl⟩
      exact ⟨hbody, hgindex, rfl⟩
    · rintro ⟨hbody, hgindex, rfl⟩
      exact ⟨_, ⟨hbody, hgindex, engine.expectedDepth_eq, rfl⟩, rfl⟩

variable (hlimit : engine.preset.maxBlobCommitmentsPerBlock.toNat ≤ 2 ^ 58)

include hlimit

/-- No commitment that there is room for stands too deep. -/
theorem exists_commitmentGindex {i : Nat}
    (hi : i < engine.preset.maxBlobCommitmentsPerBlock.toNat) :
    ∃ g, Inclusion.commitmentGindex engine.preset i = .ok g := by
  have hroom := le_two_pow_coverDepth engine.preset.maxBlobCommitmentsPerBlock.toNat
  exact Inclusion.exists_commitmentGindex (Nat.lt_of_lt_of_le hi hroom)
    (Inclusion.expectedInclusionDepth_le_iff.mpr hlimit)

theorem buildSidecar_eq_ok_iff {sidecar : BlobSidecar} :
    engine.buildSidecar index blob kzgProof header body = .ok sidecar ↔
      ∃ commitment, body.blobKzgCommitments.items[index.toNat]? = some commitment ∧
        body.hashTreeRoot engine.hash engine.preset = .ok header.message.bodyRoot ∧
        sidecar = ⟨index, blob, commitment, kzgProof, header,
          ⟨Inclusion.branch engine.hash engine.preset body index.toNat⟩⟩ := by
  rw [buildSidecar_eq_ok_iff_placed]
  refine exists_congr fun commitment => and_congr_right fun hget => and_congr_right fun hbody => ?_
  obtain ⟨hfits, -⟩ := BlockBody.hashTreeRoot_eq_ok_iff.mp hbody
  obtain ⟨hindex, -⟩ := List.getElem?_eq_some_iff.mp hget
  exact and_iff_right (exists_commitmentGindex hlimit (Nat.lt_of_lt_of_le hindex hfits.length_le))

theorem isSidecarAt_of_buildSidecar {bundle : BlobsBundle} {i : Nat} {sidecar : BlobSidecar}
    (hindex : index.toNat = i) (hblob : bundle.blobs.items[i]? = some blob)
    (hkzgProof : bundle.proofs.items[i]? = some kzgProof)
    (hbuild : engine.buildSidecar index blob kzgProof header body = .ok sidecar) :
    engine.IsSidecarAt bundle header body i sidecar := by
  subst hindex
  obtain ⟨commitment, hcommitment, hbody, rfl⟩ := (buildSidecar_eq_ok_iff hlimit).mp hbuild
  obtain ⟨hfits, -⟩ := BlockBody.hashTreeRoot_eq_ok_iff.mp hbody
  obtain ⟨hi, -⟩ := List.getElem?_eq_some_iff.mp hcommitment
  obtain ⟨g, hgindex⟩ := exists_commitmentGindex hlimit (Nat.lt_of_lt_of_le hi hfits.length_le)
  refine ⟨rfl, hblob, hkzgProof, rfl, hcommitment, ?_, ?_, ?_⟩
  · exact Inclusion.length_branch.trans engine.expectedDepth_eq
  · exact ⟨g, hgindex, BlockBody.prove_commitment hfits hi hgindex⟩
  · rw [verifySidecar, mapError_eq_ok_iff]
    apply BlobSidecar.verifyInclusion_of_buildProof
    exact BlobSidecar.buildProof_eq_ok_iff.mpr
      ⟨hcommitment, hbody, ⟨g, hgindex⟩, engine.expectedDepth_eq, rfl⟩

omit hlimit

/-- Building goes blob by blob, each with the proof and the index that stand beside it. -/
theorem buildSidecars_eq_ok_iff {bundle : BlobsBundle} {sidecars : List BlobSidecar} :
    engine.buildSidecars bundle header body = .ok sidecars ↔
      bundle.commitments.items.length = bundle.blobs.items.length ∧
      bundle.proofs.items.length = bundle.blobs.items.length ∧
      ((bundle.blobs.items.zip bundle.proofs.items).zipIdx.map fun ((blob, kzgProof), i) =>
        engine.buildSidecar (UInt64.ofNat i) blob kzgProof header body) = sidecars.map .ok := by
  unfold buildSidecars
  by_cases hlengths : bundle.commitments.items.length = bundle.proofs.items.length ∧
    bundle.commitments.items.length = bundle.blobs.items.length
  · simp only [if_pos hlengths, mapM_eq_ok_iff]
    rw [and_iff_right hlengths.2, and_iff_right (hlengths.1.symm.trans hlengths.2)]
  · simp only [if_neg hlengths, reduceCtorEq, false_iff]
    rintro ⟨hblobs, hproofs, -⟩
    exact hlengths ⟨hblobs.trans hproofs.symm, hblobs⟩

/-- Every number up to a word is the index it is given as. -/
theorem toNat_ofNat_of_le {i : Nat} {n : UInt64} (hi : i ≤ n.toNat) : (UInt64.ofNat i).toNat = i :=
  UInt64.toNat_ofNat_of_lt' (Nat.lt_of_le_of_lt hi n.toNat_lt)

theorem mem_entries_iff {bundle : BlobsBundle} {i : Nat} :
    ((blob, kzgProof), i) ∈ (bundle.blobs.items.zip bundle.proofs.items).zipIdx ↔
      bundle.blobs.items[i]? = some blob ∧ bundle.proofs.items[i]? = some kzgProof := by
  rw [List.mk_mem_zipIdx_iff_getElem?, List.getElem?_zip_eq_some]

section Built

variable {bundle : BlobsBundle} {sidecars : List BlobSidecar}
  (hbuild : engine.buildSidecars bundle header body = .ok sidecars)

include hbuild

theorem length_of_buildSidecars : sidecars.length = bundle.blobs.items.length := by
  obtain ⟨-, hproofs, hmap⟩ := buildSidecars_eq_ok_iff.mp hbuild
  have hlength := congrArg List.length hmap
  simp only [List.length_map, List.length_zipIdx, List.length_zip] at hlength
  omega

theorem exists_buildSidecar {i : Nat} {sidecar : BlobSidecar}
    (hsidecar : sidecars[i]? = some sidecar) :
    ∃ blob kzgProof, bundle.blobs.items[i]? = some blob ∧
      bundle.proofs.items[i]? = some kzgProof ∧
      engine.buildSidecar (UInt64.ofNat i) blob kzgProof header body = .ok sidecar := by
  obtain ⟨-, -, hmap⟩ := buildSidecars_eq_ok_iff.mp hbuild
  have hentry := congrArg (·[i]?) hmap
  simp only [List.getElem?_map, hsidecar, Option.map_some, Option.map_eq_some_iff,
    List.getElem?_zipIdx, Nat.zero_add] at hentry
  obtain ⟨-, ⟨⟨blob, kzgProof⟩, hget, rfl⟩, hown⟩ := hentry
  obtain ⟨hblob, hkzgProof⟩ := List.getElem?_zip_eq_some.mp hget
  exact ⟨blob, kzgProof, hblob, hkzgProof, hown⟩

/-- The body has a commitment for each of the blobs. -/
theorem body_of_buildSidecars :
    bundle.blobs.items.length = 0 ∨
      bundle.blobs.items.length ≤ body.blobKzgCommitments.items.length ∧
      body.blobKzgCommitments.items.length
        ≤ engine.preset.maxBlobCommitmentsPerBlock.toNat ∧
      body.hashTreeRoot engine.hash engine.preset = .ok header.message.bodyRoot := by
  have hlength := length_of_buildSidecars hbuild
  have hbuilt (i : Nat) (hi : i < bundle.blobs.items.length) :
      ∃ commitment, body.blobKzgCommitments.items[(UInt64.ofNat i).toNat]? = some commitment ∧
        body.hashTreeRoot engine.hash engine.preset = .ok header.message.bodyRoot := by
    obtain ⟨blob, kzgProof, -, -, hown⟩ :=
      exists_buildSidecar hbuild (List.getElem?_eq_getElem (hlength ▸ hi))
    obtain ⟨commitment, hcommitment, hbody, -⟩ := buildSidecar_eq_ok_iff_placed.mp hown
    exact ⟨commitment, hcommitment, hbody⟩
  by_cases hempty : bundle.blobs.items.length = 0
  · exact .inl hempty
  · obtain ⟨-, -, hbody⟩ := hbuilt 0 (Nat.pos_of_ne_zero hempty)
    obtain ⟨hfits, -⟩ := BlockBody.hashTreeRoot_eq_ok_iff.mp hbody
    refine .inr ⟨Nat.le_of_not_lt ?_, hfits.length_le, hbody⟩
    -- The first blob without a commitment has an index that a word holds.
    intro hfew
    obtain ⟨commitment, hcommitment, -⟩ := hbuilt _ hfew
    rw [toNat_ofNat_of_le hfits.length_le] at hcommitment
    obtain ⟨hlt, -⟩ := List.getElem?_eq_some_iff.mp hcommitment
    exact absurd hlt (Nat.lt_irrefl _)

theorem toNat_ofNat_of_buildSidecars {i : Nat} (hi : i < sidecars.length) :
    (UInt64.ofNat i).toNat = i := by
  rw [length_of_buildSidecars hbuild] at hi
  rcases body_of_buildSidecars hbuild with hempty | ⟨hfew, hroom, -⟩
  · omega
  · apply toNat_ofNat_of_le (Nat.le_trans _ hroom)
    omega

end Built

include hlimit

theorem exists_buildSidecars_iff {bundle : BlobsBundle} :
    (∃ sidecars, engine.buildSidecars bundle header body = .ok sidecars) ↔
      bundle.commitments.items.length = bundle.blobs.items.length ∧
      bundle.proofs.items.length = bundle.blobs.items.length ∧
      (bundle.blobs.items.length = 0 ∨
        bundle.blobs.items.length ≤ body.blobKzgCommitments.items.length ∧
        body.blobKzgCommitments.items.length
          ≤ engine.preset.maxBlobCommitmentsPerBlock.toNat ∧
        body.hashTreeRoot engine.hash engine.preset = .ok header.message.bodyRoot) := by
  constructor
  · rintro ⟨sidecars, hbuild⟩
    obtain ⟨hcommitments, hproofs, -⟩ := buildSidecars_eq_ok_iff.mp hbuild
    exact ⟨hcommitments, hproofs, body_of_buildSidecars hbuild⟩
  · rintro ⟨hcommitments, hproofs, hcase⟩
    simp only [buildSidecars_eq_ok_iff, exists_and_left, exists_map_eq_ok_iff]
    refine ⟨hcommitments, hproofs, ?_⟩
    rintro ⟨⟨blob, kzgProof⟩, i⟩ hmem
    obtain ⟨hblob, -⟩ := mem_entries_iff.mp hmem
    obtain ⟨hi, -⟩ := List.getElem?_eq_some_iff.mp hblob
    rcases hcase with hempty | ⟨hcount, hroom, hbody⟩
    · omega
    · have hlt := Nat.lt_of_lt_of_le hi hcount
      have hindex := toNat_ofNat_of_le (Nat.le_trans (Nat.le_of_lt hlt) hroom)
      have hcommitment : body.blobKzgCommitments.items[(UInt64.ofNat i).toNat]?
          = some body.blobKzgCommitments.items[i] := by
        rw [hindex, List.getElem?_eq_getElem hlt]
      exact ⟨_, (buildSidecar_eq_ok_iff hlimit).mpr ⟨_, hcommitment, hbody, rfl⟩⟩

theorem isSidecarAt_of_buildSidecars {bundle : BlobsBundle} {sidecars : List BlobSidecar}
    (hbuild : engine.buildSidecars bundle header body = .ok sidecars) :
    sidecars.length = bundle.blobs.items.length ∧
      ∀ i sidecar, sidecars[i]? = some sidecar →
        engine.IsSidecarAt bundle header body i sidecar := by
  refine ⟨length_of_buildSidecars hbuild, ?_⟩
  intro i sidecar hsidecar
  obtain ⟨blob, kzgProof, hblob, hkzgProof, hown⟩ := exists_buildSidecar hbuild hsidecar
  obtain ⟨hi, -⟩ := List.getElem?_eq_some_iff.mp hsidecar
  have hindex := toNat_ofNat_of_buildSidecars hbuild hi
  exact isSidecarAt_of_buildSidecar hlimit hindex hblob hkzgProof hown

/--
Sidecars are built exactly when the lists of a bundle are of one length and, if they are not empty,
the body has as many commitments, no more than there is room for, and is the body of the header.
-/
theorem buildSidecars_correct (bundle : BlobsBundle) (header : SignedBlockHeader)
    (body : BlockBody) :
    ((∃ sidecars, engine.buildSidecars bundle header body = .ok sidecars) ↔
      bundle.commitments.items.length = bundle.blobs.items.length ∧
      bundle.proofs.items.length = bundle.blobs.items.length ∧
      (bundle.blobs.items.length = 0 ∨
        bundle.blobs.items.length ≤ body.blobKzgCommitments.items.length ∧
        body.blobKzgCommitments.items.length
          ≤ engine.preset.maxBlobCommitmentsPerBlock.toNat ∧
        body.hashTreeRoot engine.hash engine.preset = .ok header.message.bodyRoot)) ∧
    ∀ sidecars, engine.buildSidecars bundle header body = .ok sidecars →
      sidecars.length = bundle.blobs.items.length ∧
      ∀ i sidecar, sidecars[i]? = some sidecar →
        engine.IsSidecarAt bundle header body i sidecar :=
  ⟨exists_buildSidecars_iff hlimit, fun _ => isSidecarAt_of_buildSidecars hlimit⟩

section OneBlob

omit hlimit

open BlobSidecar

def twoBlobs : Engine := ⟨.sha256, ⟨BlobSidecar.twoBlobs⟩, by decide⟩

def oneBlob : BlobsBundle := ⟨⟨[.ofNat 5]⟩, ⟨[.zero]⟩, ⟨[⟨[]⟩]⟩⟩

theorem buildSidecars_correct_oneBlob :
    ∃ sidecar, twoBlobs.buildSidecars oneBlob oneBlobHeader oneBlobBody = .ok [sidecar] ∧
      twoBlobs.IsSidecarAt oneBlob oneBlobHeader oneBlobBody 0 sidecar := by
  have hlimit : twoBlobs.preset.maxBlobCommitmentsPerBlock.toNat ≤ 2 ^ 58 := by decide
  obtain ⟨hbuilds, hbuilt⟩ := buildSidecars_correct hlimit oneBlob oneBlobHeader oneBlobBody
  obtain ⟨sidecars, hbuild⟩ := hbuilds.mpr
    ⟨rfl, rfl, .inr ⟨by decide, by decide, hashTreeRoot_oneBlobBody⟩⟩
  obtain ⟨hlength, hsidecar⟩ := hbuilt sidecars hbuild
  match sidecars, hlength with
  | [sidecar], _ => exact ⟨sidecar, hbuild, hsidecar 0 sidecar rfl⟩

end OneBlob

end Engine

end SimpleSerialize
