import SimpleSerialize.Proofs.Blob.Sidecar
import SimpleSerialize.Proofs.Merkle.Binding
import SimpleSerialize.Proofs.Merkle.Climb

/-!
A sidecar whose proof is accepted against the root of a body carries the commitment that the body
holds at its index, and the proof that the body gives. The check sees neither the body nor how many
commitments there are: the branch of the body at that index, over zeros if there is no commitment,
ends at the same root, and two branches that end at the same root are the same unless two of the
pairs hashed for them collide. A place without a commitment is a zero leaf, which no pair hashes to.
-/

namespace SimpleSerialize

namespace Schema

variable {α : Type} [Schema α]

/-- The pairs hashed for the root of a value. -/
def hashedPairs (h : HashFunction) (preset : Preset) (a : α) : List (Root × Root) :=
  match shape α preset with
  | .ok shape => shape.hashedPairs h (toValue a)
  | .error _ => []

end Schema

namespace BlockBody

/-- The pairs hashed for the root of a body. -/
def hashedPairs (h : HashFunction) (preset : Preset) (body : BlockBody) : List (Root × Root) :=
  Schema.hashedPairs h preset body.blobKzgCommitments ++
    match body.leaves h preset with
    | .ok leaves => Merkle.merkleizePairs h leaves BodyTree.fieldCount
    | .error _ => []

end BlockBody

namespace BlobSidecar

/-- The pairs hashed when the proof of a sidecar is checked. -/
def hashedPairs (h : HashFunction) (preset : Preset) (sidecar : BlobSidecar) :
    List (Root × Root) :=
  let nodes := sidecar.inclusionProof.nodes
  match requireDepth preset nodes, Inclusion.commitmentGindex preset sidecar.index.toNat with
  | .ok (), .ok gindex =>
    Schema.hashedPairs h preset sidecar.kzgCommitment ++
      match Schema.hashTreeRoot h preset sidecar.kzgCommitment with
      | .ok leaf => Merkle.rootFromPairs h nodes gindex leaf
      | .error _ => []
  | _, _ => []

end BlobSidecar

namespace Inclusion

variable {h : HashFunction} {preset : Preset} {body : BlockBody}

theorem length_pack_commitment (commitment : KzgCommitment) :
    (Merkle.pack commitment.toList).length = 2 := by
  rw [Merkle.length_pack, commitment.length_toList]
  rfl

theorem hashedPairs_commitment (preset : Preset) (commitment : KzgCommitment) :
    Schema.hashedPairs h preset commitment
      = Merkle.foldPairs h .zero 1 (Merkle.pack commitment.toList) := by
  have hdepth : coverDepth (Bytes.ceilDiv 48 chunkSize) = 1 := by decide +kernel
  have hroom : (Merkle.pack commitment.toList).length ≤ Bytes.ceilDiv 48 chunkSize :=
    Nat.le_of_eq (length_pack_commitment commitment)
  change (Layout.of (.byteVector 48) (.bytes commitment.toList)).pairs h = _
  rw [Layout.of_byteVector commitment.length_toList, Layout.pairs, Layout.pairsOver_of_fits hroom,
    hdepth]
  exact List.append_nil _

/-- The root of a commitment is the hash of its two chunks. -/
theorem exists_pair_commitmentRoot (preset : Preset) (commitment : KzgCommitment) :
    ∃ p ∈ Schema.hashedPairs h preset commitment,
      h.pair p.1 p.2 = commitmentRoot h commitment := by
  rw [hashedPairs_commitment]
  have hchunks := length_pack_commitment commitment
  unfold commitmentRoot
  generalize Merkle.pack commitment.toList = chunks at hchunks ⊢
  match chunks, hchunks with
  | [first, second], _ =>
    exact ⟨(first, second), by simp [Merkle.foldPairs, Merkle.layerPairs], rfl⟩

theorem commitmentRoot_injective {pairs : List (Root × Root)} (hinj : h.InjectiveOn pairs)
    {c c' : KzgCommitment} (hc : Schema.hashedPairs h preset c ⊆ pairs)
    (hc' : Schema.hashedPairs h preset c' ⊆ pairs)
    (hroot : commitmentRoot h c = commitmentRoot h c') : c = c' := by
  rw [hashedPairs_commitment] at hc hc'
  have hchunks : Merkle.pack c.toList = Merkle.pack c'.toList := by
    apply Merkle.foldUp_injective hinj _ _ hc hc' hroot
    · rw [length_pack_commitment, length_pack_commitment]
    · exact Nat.le_of_eq (length_pack_commitment c)
  apply FixedBytes.ext
  apply Merkle.pack_injective _ hchunks
  rw [c.length_toList, c'.length_toList]

theorem hashedPairs_commitments (hfits : body.Fits preset) :
    Schema.hashedPairs h preset body.blobKzgCommitments
      = Layout.pairsOfParts h (parts body) ++
        (Merkle.foldPairs h .zero (listDepth preset) (body.commitmentRoots h) ++
          [(Merkle.foldUp h .zero (listDepth preset) (body.commitmentRoots h),
            Merkle.countRoot body.blobKzgCommitments.items.length)]) := by
  have hshape : Schema.shape KzgCommitments preset = (commitmentsShape preset).check := rfl
  have hroom := hfits.length_le
  rw [← length_commitmentRoots h] at hroom
  rw [Schema.hashedPairs, hshape, hfits.check_shape]
  change (Layout.of _ _).pairs h = _
  rw [layout_commitments hfits.length_le, Layout.pairs_composite (roots_parts h body),
    Layout.pairsOver_of_fits hroom]
  rfl

theorem hashedPairs_body (hfits : body.Fits preset) :
    body.hashedPairs h preset
      = Schema.hashedPairs h preset body.blobKzgCommitments
        ++ Merkle.foldPairs h .zero BodyTree.depth (body.fields h preset) := by
  have hleaves : body.leaves h preset = .ok (body.fields h preset) :=
    BlockBody.leaves_eq_ok_iff.mpr ⟨hfits, rfl⟩
  have hroom : (body.fields h preset).length ≤ BodyTree.fieldCount := Nat.le_refl 12
  rw [BlockBody.hashedPairs, hleaves]
  simp only [Merkle.merkleizePairs, if_pos hroom, BodyTree.coverDepth_fieldCount]

theorem hashedPairs_commitment_subset (hfits : body.Fits preset) {commitment : KzgCommitment}
    (hmem : commitment ∈ body.blobKzgCommitments.items) :
    Schema.hashedPairs h preset commitment ⊆ body.hashedPairs h preset := by
  have hpart := Layout.pairs_subset_pairsOfParts (roots_parts h body) _
    (List.mem_map_of_mem hmem)
  rw [hashedPairs_body hfits, hashedPairs_commitments hfits, List.append_assoc]
  exact List.Subset.trans hpart (List.subset_append_left _ _)

/-- Whatever place in the list is proved, its branch takes the pairs of the body's own tree. -/
theorem climbPairs_branch_subset (hfits : body.Fits preset) {index : Nat} {g : Gindex}
    (hgindex : commitmentGindex preset index = .ok g) :
    Merkle.climbPairs h g.toNat (Merkle.subtreeRoot h (body.commitmentRoots h) 0 index)
      (branch h preset body index) ⊆ body.hashedPairs h preset := by
  obtain ⟨element, helement, hconcat⟩ := commitmentGindex_eq_ok_iff.mp hgindex
  obtain ⟨data, slot, htwo, hslot, hdata⟩ := elementGindex_eq_ok_iff.mp helement
  have hlist : (listBranch h preset body index).length = element.depth := by
    rw [length_listBranch, depth_elementGindex helement]
  have hslots : (Merkle.siblings h (body.commitmentRoots h) 0 (listDepth preset)
      index).length = slot.depth := by
    rw [Merkle.length_siblings, (Gindex.ofSlot_eq_ok_iff.mp hslot).1]
  rw [branch, Merkle.climbPairs_concat hconcat hlist, climb_listBranch helement, listBranch,
    Merkle.climbPairs_concat hdata hslots, Merkle.climb_from_slot hslot, htwo]
  rw [hashedPairs_body hfits, hashedPairs_commitments hfits, List.append_assoc,
    List.append_subset, List.append_subset]
  have hbelow := Merkle.climbPairs_from_slot_subset hslot h (body.commitmentRoots h)
  have habove := Merkle.climbPairs_from_slot_subset slot_field h (body.fields h preset)
  rw [subtreeRoot_fields] at habove
  refine ⟨List.subset_append_of_subset_left _ ?_, List.subset_append_of_subset_left _ ?_,
    List.subset_append_of_subset_right _ habove⟩
  · exact List.subset_append_of_subset_right _ (List.subset_append_of_subset_left _ hbelow)
  · exact List.subset_append_of_subset_right _ (List.subset_append_right _ _)

/-- A leaf of the list that is the root of a commitment is there because of that commitment. -/
theorem commitment_of_leaf {pairs : List (Root × Root)} (hinj : h.InjectiveOn pairs)
    (hnonzero : ∀ p ∈ pairs, h.pair p.1 p.2 ≠ .zero) (hfits : body.Fits preset)
    (hbody : body.hashedPairs h preset ⊆ pairs) {commitment : KzgCommitment}
    (hcommitment : Schema.hashedPairs h preset commitment ⊆ pairs) {index : Nat}
    (hleaf : commitmentRoot h commitment
      = Merkle.subtreeRoot h (body.commitmentRoots h) 0 index) :
    body.blobKzgCommitments.items[index]? = some commitment := by
  cases hget : body.blobKzgCommitments.items[index]? with
  | none =>
    -- Past the last commitment the leaves are zero.
    rw [Merkle.subtreeRoot_height_zero, BlockBody.commitmentRoots, List.getElem?_map, hget,
      Option.map_none, Option.getD_none] at hleaf
    obtain ⟨p, hp, hhash⟩ := exists_pair_commitmentRoot preset commitment
    exact absurd (hhash.trans hleaf) (hnonzero p (hcommitment hp))
  | some held =>
    rw [subtreeRoot_commitment hget] at hleaf
    have hheld : Schema.hashedPairs h preset held ⊆ body.hashedPairs h preset :=
      hashedPairs_commitment_subset hfits (List.mem_of_getElem? hget)
    rw [commitmentRoot_injective hinj hcommitment (List.Subset.trans hheld hbody) hleaf]

end Inclusion

namespace BlobSidecar

variable {h : HashFunction} {preset : Preset} {sidecar : BlobSidecar} {body : BlockBody}

theorem hashedPairs_of_gindex (h : HashFunction) {g : Gindex}
    (hdepth : sidecar.inclusionProof.nodes.length = preset.kzgCommitmentInclusionProofDepth.toNat)
    (hgindex : Inclusion.commitmentGindex preset sidecar.index.toNat = .ok g)
    (hlength : sidecar.inclusionProof.nodes.length = g.depth) :
    sidecar.hashedPairs h preset
      = Schema.hashedPairs h preset sidecar.kzgCommitment
        ++ Merkle.climbPairs h g.toNat (Inclusion.commitmentRoot h sidecar.kzgCommitment)
            sidecar.inclusionProof.nodes := by
  have hrequire : requireDepth preset sidecar.inclusionProof.nodes = .ok () :=
    requireDepth_eq_ok_iff.mpr hdepth
  simp only [hashedPairs, hrequire, hgindex, Inclusion.hashTreeRoot_commitment,
    Merkle.rootFromPairs, if_pos hlength]

/-- Checking the proof that a body gives takes no pair that the root of the body does not. -/
theorem hashedPairs_subset_of_buildProof
    (hbuild : sidecar.buildProof h preset body = .ok sidecar.inclusionProof) :
    sidecar.hashedPairs h preset ⊆ body.hashedPairs h preset := by
  obtain ⟨hcommitment, hbody, ⟨g, hgindex⟩, hdepth, hproof⟩ := buildProof_eq_ok_iff.mp hbuild
  obtain ⟨hfits, -⟩ := BlockBody.hashTreeRoot_eq_ok_iff.mp hbody
  have hlength : sidecar.inclusionProof.nodes.length = preset.expectedInclusionDepth := by
    rw [hproof, Inclusion.length_branch]
  have hclimb := Inclusion.climbPairs_branch_subset (h := h) hfits hgindex
  rw [Inclusion.subtreeRoot_commitment hcommitment] at hclimb
  rw [hashedPairs_of_gindex h (hlength.trans hdepth) hgindex
    (hlength.trans (Inclusion.depth_commitmentGindex hgindex).symm), hproof, List.append_subset]
  exact ⟨Inclusion.hashedPairs_commitment_subset hfits (List.mem_of_getElem? hcommitment), hclimb⟩

/--
An accepted proof shows that the body holds the commitment at the index of the sidecar, and is the
proof that the body gives.
-/
theorem verifyInclusion_sound (hverify : sidecar.verifyInclusion h preset = .ok true)
    (hbody : body.hashTreeRoot h preset = .ok sidecar.bodyRoot)
    (hinj : h.InjectiveOn (sidecar.hashedPairs h preset ++ body.hashedPairs h preset))
    (hnonzero : ∀ p ∈ sidecar.hashedPairs h preset ++ body.hashedPairs h preset,
      h.pair p.1 p.2 ≠ .zero) :
    sidecar.index.toNat < body.blobKzgCommitments.items.length ∧
      body.blobKzgCommitments.items[sidecar.index.toNat]? = some sidecar.kzgCommitment ∧
      sidecar.verifyAgainstBody h preset body = .ok true := by
  obtain ⟨hdepth, g, hgindex, hlength, hclimb⟩ := verifyInclusion_eq_true_iff.mp hverify
  obtain ⟨hfits, hroot⟩ := BlockBody.hashTreeRoot_eq_ok_iff.mp hbody
  have hlengths := Inclusion.depth_commitmentGindex hgindex
  generalize hall : sidecar.hashedPairs h preset ++ body.hashedPairs h preset = pairs
    at hinj hnonzero
  obtain ⟨hown, hbodyPairs⟩ : sidecar.hashedPairs h preset ⊆ pairs ∧
      body.hashedPairs h preset ⊆ pairs := by
    rw [← List.append_subset, hall]
    exact List.Subset.refl _
  rw [hashedPairs_of_gindex h hdepth hgindex hlength, List.append_subset] at hown
  -- The branch of the body at this index ends at the same root, so it is the one in the sidecar.
  obtain ⟨hleaf, hnodes⟩ : Inclusion.commitmentRoot h sidecar.kzgCommitment
        = Merkle.subtreeRoot h (body.commitmentRoots h) 0 sidecar.index.toNat ∧
      sidecar.inclusionProof.nodes = Inclusion.branch h preset body sidecar.index.toNat := by
    have hbranch := Inclusion.climbPairs_branch_subset (h := h) hfits hgindex
    apply Merkle.climb_injective hinj _ hown.2 (List.Subset.trans hbranch hbodyPairs)
    · rw [hclimb, Inclusion.climb_branch hgindex, hroot]
    · rw [hlength, hlengths, Inclusion.length_branch]
  have hcommitment := Inclusion.commitment_of_leaf hinj hnonzero hfits hbodyPairs hown.1 hleaf
  have hbuild : sidecar.buildProof h preset body = .ok sidecar.inclusionProof := by
    refine buildProof_eq_ok_iff.mpr ⟨hcommitment, hbody, ⟨g, hgindex⟩, ?_, ?_⟩
    · rw [← hdepth, hlength, hlengths]
    · rw [← hnodes]
  refine ⟨(List.getElem?_eq_some_iff.mp hcommitment).1, hcommitment, ?_⟩
  rw [verifyAgainstBody, hbuild]
  exact congrArg Except.ok (beq_self_eq_true _)

theorem verifyInclusion_sound_oneBlob :
    oneBlobSidecar.verifyInclusion .sha256 twoBlobs = .ok true ∧
      oneBlobBody.blobKzgCommitments.items[0]? = some (.ofNat 5) ∧
      oneBlobSidecar.verifyAgainstBody .sha256 twoBlobs oneBlobBody = .ok true := by
  have hverify := verifyInclusion_of_buildProof buildProof_oneBlobSidecar
  have hsub := hashedPairs_subset_of_buildProof buildProof_oneBlobSidecar
  have hfields : oneBlobBody.fields .sha256 twoBlobs
      = List.replicate 11 .zero ++ [oneBlobBody.commitmentsRoot .sha256 twoBlobs] := rfl
  have hbody : HashFunction.sha256.InjectiveOn (oneBlobBody.hashedPairs .sha256 twoBlobs) ∧
      ∀ p ∈ oneBlobBody.hashedPairs .sha256 twoBlobs,
        HashFunction.sha256.pair p.1 p.2 ≠ .zero := by
    -- Written out, equal nodes are one term, which the kernel hashes once.
    rw [Inclusion.hashedPairs_body fits_oneBlobBody, hfields,
      Inclusion.hashedPairs_commitments fits_oneBlobBody]
    decide +kernel
  have hall := List.append_subset.mpr ⟨hsub, List.Subset.refl _⟩
  obtain ⟨-, hcommitment, hagainst⟩ := verifyInclusion_sound hverify hashTreeRoot_oneBlobBody
    (hbody.1.mono hall) fun p hp => hbody.2 p (hall hp)
  exact ⟨hverify, hcommitment, hagainst⟩

end BlobSidecar

end SimpleSerialize
