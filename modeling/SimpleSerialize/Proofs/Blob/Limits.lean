import SimpleSerialize.Blob.Sidecar
import SimpleSerialize.Payload.Transaction
import SimpleSerialize.Proofs.Blob.Blinded
import SimpleSerialize.Proofs.Preset

/-!
The types under a preset that was found fit for use. Whatever is a string of bytes or a vector of
roots has a shape of a size that a word holds. A list has one as far as the deepest tree has leaves,
and a commitment has a place in the body as far as the tree of the body leaves room for the list;
beyond, the list is refused with its limit and the place with its depth.
-/

namespace SimpleSerialize

namespace Preset

/-- A type has a shape, and if all its values are of one size, then a word holds that size. -/
def Supports (preset : Preset) (α : Type) [Schema α] : Prop :=
  ∃ shape, Schema.shape α preset = .ok shape ∧ ∀ size ∈ shape.exactSize?, size < wordBound

/-- A type is supported as long as there are leaves enough for `limit` parts, and refused beyond. -/
def SupportsUpTo (preset : Preset) (α : Type) [Schema α] (limit : UInt64) : Prop :=
  (limit.toNat ≤ 2 ^ (maxDepth - 1) → preset.Supports α) ∧
    (2 ^ (maxDepth - 1) < limit.toNat →
      Schema.shape α preset = .error (.limitTooLarge limit.toNat))

variable {preset : Preset} {α : Type} [Schema α] {shape : Shape}

theorem supports_of_fixed {size : Nat} (hshape : Schema.shape α preset = .ok shape)
    (hsize : shape.exactSize? = some size) (hfits : size < wordBound) : preset.Supports α := by
  refine ⟨shape, hshape, ?_⟩
  intro size' hsize'
  cases hsize.symm.trans hsize'
  exact hfits

theorem supports_of_variable (hshape : Schema.shape α preset = .ok shape)
    (hsize : shape.exactSize? = none) : preset.Supports α := by
  refine ⟨shape, hshape, ?_⟩
  intro size hsize'
  cases hsize.symm.trans hsize'

theorem supportsUpTo_limitedList {limit : Preset → UInt64} {element : Shape}
    (helement : Schema.shape α preset = .ok element) (hscalar : element.scalar? = none)
    (hpos : 0 < (limit preset).toNat) :
    preset.SupportsUpTo (LimitedList limit α) (limit preset) := by
  constructor
  · intro hlimit
    have hcheck := (Shape.check_list_eq_ok_iff hscalar).mpr ⟨hpos, hlimit, rfl⟩
    exact supports_of_variable (LimitedList.shape_eq_ok_iff.mpr ⟨element, helement, hcheck⟩) rfl
  · intro hdeep
    have hshape : Schema.shape (LimitedList limit α) preset
        = (Schema.shape α preset).bind fun element =>
            (Shape.list element (limit preset).toNat).check := rfl
    rw [hshape, helement]
    exact Shape.check_list_of_deep hscalar hdeep

/-- A blob and a proof, and beside them what does not depend on the preset. -/
def sidecarShape (preset : Preset) (header : Shape) : Shape :=
  .container
    [("index", .uint64), ("blob", .byteVector preset.blobSize), ("kzg_commitment", .byteVector 48),
      ("kzg_proof", .byteVector 48), ("signed_block_header", header),
      ("kzg_commitment_inclusion_proof",
        .vector .bytes32 preset.kzgCommitmentInclusionProofDepth.toNat)]

/-- The size of a sidecar as a number without bound. -/
def sidecarSize (preset : Preset) : Nat :=
  bytesPerFieldElement * preset.fieldElementsPerBlob.toNat
    + chunkSize * preset.kzgCommitmentInclusionProofDepth.toNat + 312

section Usable

variable (husable : preset.defect? = none)

include husable

theorem shape_blob : Schema.shape Blob preset = .ok (.byteVector preset.blobSize) :=
  Shape.check_byteVector (blobSize_pos husable) (blobSize_lt husable)

theorem shape_transaction :
    Schema.shape Transaction preset = .ok (.byteList preset.maxBytesPerTransaction.toNat) := by
  apply Shape.check_byteList _ preset.maxBytesPerTransaction.toNat_lt
  exact (limitsPos husable).bytes

theorem shape_inclusionProof :
    Schema.shape InclusionProof preset
      = .ok (.vector .bytes32 preset.kzgCommitmentInclusionProofDepth.toNat) := by
  have hdepth := inclusionProofDepth_eq husable
  have hle := inclusionProofDepth_le husable
  refine Shape.check_eq_ok_iff.mpr ⟨?_, ?_, ?_, ?_⟩
  · obtain ⟨rest, hrest⟩ : ∃ rest, preset.kzgCommitmentInclusionProofDepth.toNat = rest + 1 :=
      Nat.exists_eq_add_one_of_ne_zero (by unfold BodyTree.depth at hdepth; omega)
    rw [hrest]
    rfl
  · change Except.ok (decide (32 * preset.kzgCommitmentInclusionProofDepth.toNat < wordBound))
      = .ok true
    rw [Except.ok.injEq, decide_eq_true_eq]
    unfold wordBound
    omega
  · change preset.kzgCommitmentInclusionProofDepth.toNat < wordBound
    unfold wordBound
    omega
  · change preset.kzgCommitmentInclusionProofDepth.toNat ≤ 2 ^ (maxDepth - 1)
    unfold maxDepth
    omega

theorem shape_sidecar {header : Shape}
    (hheader : Schema.shape SignedBlockHeader preset = .ok header) :
    Schema.shape BlobSidecar preset = .ok (sidecarShape preset header) := by
  have hparts : Schema.shape BlobSidecar preset = (do
      let blob ← Schema.shape Blob preset
      let header ← Schema.shape SignedBlockHeader preset
      let inclusionProof ← Schema.shape InclusionProof preset
      (Shape.container
        [("index", .uint64), ("blob", blob), ("kzg_commitment", .byteVector 48),
          ("kzg_proof", .byteVector 48), ("signed_block_header", header),
          ("kzg_commitment_inclusion_proof", inclusionProof)]).check) := rfl
  have hfew : 6 ≤ 2 ^ (maxDepth - 1) := by decide
  have hcheck : (sidecarShape preset header).check = .ok (sidecarShape preset header) :=
    Shape.check_container (List.cons_ne_nil _ _) hfew
  rw [hparts, shape_blob husable, hheader, shape_inclusionProof husable]
  exact hcheck

theorem exactSize?_sidecarShape {header : Shape} (hheader : header.exactSize? = some 208) :
    (sidecarShape preset header).exactSize?
      = some preset.sidecarSize := by
  have hindex : Shape.uint64.exactSize? = some 8 := rfl
  simp only [sidecarShape, Shape.exactSize?, Shape.exactSizes?, hindex, hheader, Option.map_some,
    blobSize_eq husable, Shape.bytes32, sidecarSize]
  congr 1
  unfold bytesPerFieldElement chunkSize
  omega

/-- Computing the size of a sidecar comes to an end if a word holds it. -/
theorem exists_shape_sidecar :
    ∃ shape, Schema.shape BlobSidecar preset = .ok shape ∧
      shape.exactSize? = some preset.sidecarSize ∧
      ((∃ size?, shape.fixedSize? = .ok size?) ↔ preset.sidecarSize < wordBound) := by
  obtain ⟨header, hheader, hsize, hexact⟩ :
      ∃ header, Schema.shape SignedBlockHeader preset = .ok header ∧
        header.fixedSize? = .ok (some 208) ∧ header.exactSize? = some 208 := ⟨_, rfl, rfl, rfl⟩
  have hexactSize := exactSize?_sidecarShape husable hexact
  refine ⟨_, shape_sidecar husable hheader, hexactSize, ?_⟩
  rw [← Shape.sized_iff, sidecarShape]
  refine Shape.sized_container_iff ?_ hexactSize
  have hheaderSized : header.Sized := Shape.sized_iff.mpr ⟨_, hsize⟩
  have hproofSized := Shape.sized_iff.mpr
    (Shape.exists_fixedSize?_of_check (shape_inclusionProof husable))
  simp only [List.forall_mem_cons, hheaderSized, hproofSized, List.not_mem_nil, IsEmpty.forall_iff,
    implies_true, and_true]
  exact ⟨rfl, rfl, rfl, rfl⟩

/-- Nothing compares the size of a sidecar with what a word holds. -/
theorem supports_sidecar_iff : preset.Supports BlobSidecar ↔ preset.sidecarSize < wordBound := by
  obtain ⟨shape, hshape, hsize, -⟩ := exists_shape_sidecar husable
  constructor
  · rintro ⟨shape', hshape', hfits⟩
    obtain rfl : shape = shape' := Except.ok.inj (hshape.symm.trans hshape')
    exact hfits _ hsize
  · exact supports_of_fixed hshape hsize

theorem supports_blob : preset.Supports Blob :=
  supports_of_fixed (shape_blob husable) rfl (blobSize_lt husable)

theorem supports_transaction : preset.Supports Transaction :=
  supports_of_variable (shape_transaction husable) rfl

theorem supports_inclusionProof : preset.Supports InclusionProof := by
  have hdepth := inclusionProofDepth_le husable
  have hfits : 32 * preset.kzgCommitmentInclusionProofDepth.toNat < wordBound := by
    unfold wordBound
    omega
  exact supports_of_fixed (shape_inclusionProof husable) rfl hfits

theorem supportsUpTo_commitments :
    preset.SupportsUpTo KzgCommitments preset.maxBlobCommitmentsPerBlock := by
  have helement : Schema.shape KzgCommitment preset = .ok (.byteVector 48) := rfl
  apply supportsUpTo_limitedList helement rfl
  exact (limitsPos husable).commitments

theorem supportsUpTo_blobRoots :
    preset.SupportsUpTo BlobRoots preset.maxBlobCommitmentsPerBlock := by
  have helement : Schema.shape Root preset = .ok .bytes32 := rfl
  apply supportsUpTo_limitedList helement rfl
  exact (limitsPos husable).commitments

theorem supportsUpTo_blobs :
    preset.SupportsUpTo Blobs preset.maxBlobCommitmentsPerBlock := by
  apply supportsUpTo_limitedList (shape_blob husable) rfl
  exact (limitsPos husable).commitments

theorem supportsUpTo_transactions :
    preset.SupportsUpTo Transactions preset.maxTransactionsPerPayload := by
  apply supportsUpTo_limitedList (shape_transaction husable) rfl
  exact (limitsPos husable).transactions

theorem supportsUpTo_inclusionProofs :
    preset.SupportsUpTo InclusionProofs preset.maxBlobsPerBlock := by
  apply supportsUpTo_limitedList (shape_inclusionProof husable) rfl
  exact (limitsPos husable).blobs

theorem shape_blobRoots
    (hlimit : preset.maxBlobCommitmentsPerBlock.toNat ≤ 2 ^ (maxDepth - 1)) :
    Schema.shape BlobRoots preset = .ok (Blobs.rootsShape preset) :=
  Blobs.rootsShape_eq_ok_iff.mpr ⟨(limitsPos husable).commitments, hlimit, rfl⟩

/-- A bundle is refused with its first list. -/
theorem supportsUpTo_bundle :
    preset.SupportsUpTo BlobsBundle preset.maxBlobCommitmentsPerBlock := by
  constructor
  · intro hlimit
    have hshape := BlobsBundle.shape_eq_ok_iff.mpr
      ⟨⟨_, shape_blob husable⟩, shape_blobRoots husable hlimit, rfl⟩
    exact supports_of_variable hshape rfl
  · intro hdeep
    change (Schema.shape KzgCommitments preset).bind _ = _
    rw [(supportsUpTo_commitments husable).2 hdeep]
    rfl

theorem supportsUpTo_blindedBundle :
    preset.SupportsUpTo BlindedBlobsBundle preset.maxBlobCommitmentsPerBlock := by
  constructor
  · intro hlimit
    have hshape := BlobsBundle.shape_blinded_eq_ok_iff.mpr
      ⟨shape_blobRoots husable hlimit, rfl⟩
    exact supports_of_variable hshape rfl
  · intro hdeep
    change (Schema.shape KzgCommitments preset).bind _ = _
    rw [(supportsUpTo_commitments husable).2 hdeep]
    rfl

section Place

variable {i : Nat} (hi : i < preset.maxBlobCommitmentsPerBlock.toNat)

include hi

theorem exists_place (hlimit : preset.maxBlobCommitmentsPerBlock.toNat ≤ 2 ^ 58) :
    ∃ g, Inclusion.commitmentGindex preset i = .ok g ∧
      g.depth = preset.kzgCommitmentInclusionProofDepth.toNat := by
  have hroom := Nat.lt_of_lt_of_le hi (le_two_pow_coverDepth _)
  obtain ⟨g, hgindex⟩ := Inclusion.exists_commitmentGindex hroom
    (Inclusion.expectedInclusionDepth_le_iff.mpr hlimit)
  refine ⟨g, hgindex, ?_⟩
  rw [Inclusion.depth_commitmentGindex hgindex]
  exact (defect?_eq_none_iff.mp husable).2.2.2.symm

omit husable in
theorem place_of_deep (hdeep : 2 ^ 58 < preset.maxBlobCommitmentsPerBlock.toNat) :
    ∃ depth, Inclusion.commitmentGindex preset i = .error (.tooDeep depth) := by
  apply Inclusion.commitmentGindex_of_deep (Nat.lt_of_lt_of_le hi (le_two_pow_coverDepth _))
  apply Nat.lt_of_not_le
  intro hdepth
  exact Nat.not_le_of_lt hdeep (Inclusion.expectedInclusionDepth_le_iff.mp hdepth)

end Place

/--
What a preset is good for once it was found fit for use. The limits themselves are not compared with
the depth that trees can have; the types that are too large for it are refused one by one.
-/
theorem supports_of_usable :
    (preset.Supports Blob ∧ preset.Supports Transaction ∧ preset.Supports InclusionProof) ∧
    ((∃ shape, Schema.shape BlobSidecar preset = .ok shape ∧
        shape.exactSize? = some (bytesPerFieldElement * preset.fieldElementsPerBlob.toNat
          + chunkSize * preset.kzgCommitmentInclusionProofDepth.toNat + 312) ∧
        ((∃ size?, shape.fixedSize? = .ok size?) ↔ preset.sidecarSize < wordBound)) ∧
      (preset.Supports BlobSidecar ↔ preset.sidecarSize < wordBound)) ∧
    (preset.SupportsUpTo KzgCommitments preset.maxBlobCommitmentsPerBlock ∧
      preset.SupportsUpTo KzgProofs preset.maxBlobCommitmentsPerBlock ∧
      preset.SupportsUpTo Blobs preset.maxBlobCommitmentsPerBlock ∧
      preset.SupportsUpTo BlobRoots preset.maxBlobCommitmentsPerBlock ∧
      preset.SupportsUpTo BlobsBundle preset.maxBlobCommitmentsPerBlock ∧
      preset.SupportsUpTo BlindedBlobsBundle preset.maxBlobCommitmentsPerBlock) ∧
    preset.SupportsUpTo Transactions preset.maxTransactionsPerPayload ∧
    preset.SupportsUpTo InclusionProofs preset.maxBlobsPerBlock ∧
    ∀ i < preset.maxBlobCommitmentsPerBlock.toNat,
      (preset.maxBlobCommitmentsPerBlock.toNat ≤ 2 ^ 58 →
        ∃ g, Inclusion.commitmentGindex preset i = .ok g ∧
          g.depth = preset.kzgCommitmentInclusionProofDepth.toNat) ∧
      (2 ^ 58 < preset.maxBlobCommitmentsPerBlock.toNat →
        ∃ depth, Inclusion.commitmentGindex preset i = .error (.tooDeep depth)) := by
  have hcommitments := supportsUpTo_commitments husable
  refine ⟨⟨supports_blob husable, supports_transaction husable, supports_inclusionProof husable⟩,
    ⟨exists_shape_sidecar husable, supports_sidecar_iff husable⟩,
    ⟨hcommitments, hcommitments, supportsUpTo_blobs husable, supportsUpTo_blobRoots husable,
      supportsUpTo_bundle husable, supportsUpTo_blindedBundle husable⟩,
    supportsUpTo_transactions husable, supportsUpTo_inclusionProofs husable, ?_⟩
  intro i hi
  exact ⟨exists_place husable hi, place_of_deep hi⟩

end Usable

theorem supports_minimal :
    minimal.Supports KzgCommitments ∧ minimal.Supports BlobsBundle ∧
      minimal.Supports Transactions ∧
      ∃ g, Inclusion.commitmentGindex minimal 15 = .ok g ∧ g.depth = 9 := by
  obtain ⟨-, -, ⟨hcommitments, -, -, -, hbundle, -⟩, htransactions, -, hplaces⟩ :=
    supports_of_usable (by decide +kernel : minimal.defect? = none)
  exact ⟨hcommitments.1 (by decide), hbundle.1 (by decide), htransactions.1 (by decide),
    (hplaces 15 (by decide)).1 (by decide)⟩

/-- Lists of more parts than trees have leaves, consistent with one another. -/
def oversized : Preset :=
  { minimal with
    maxBlobCommitmentsPerBlock := 9223372036854775808
    maxBlobsPerBlock := 9223372036854775808
    kzgCommitmentInclusionProofDepth := 68
    maxTransactionsPerPayload := 9223372036854775808 }

/-- Blobs of a size that a word holds, with no room in it for the rest of a sidecar. -/
def overlong : Preset := { minimal with fieldElementsPerBlob := 576460752303423487 }

theorem oversized_unsupported :
    (oversized.defect? = none ∧
      Schema.shape KzgCommitments oversized = .error (.limitTooLarge (2 ^ 63)) ∧
      Schema.shape BlobsBundle oversized = .error (.limitTooLarge (2 ^ 63)) ∧
      Schema.shape Transactions oversized = .error (.limitTooLarge (2 ^ 63)) ∧
      ∃ depth, Inclusion.commitmentGindex oversized 0 = .error (.tooDeep depth)) ∧
    overlong.defect? = none ∧
      ∃ shape, Schema.shape BlobSidecar overlong = .ok shape ∧
        shape.exactSize? = some (2 ^ 64 + 568) ∧ ¬∃ size?, shape.fixedSize? = .ok size? := by
  have husable : oversized.defect? = none := by decide +kernel
  have hcommitments : oversized.maxBlobCommitmentsPerBlock.toNat = 2 ^ 63 := by decide +kernel
  have htransactions : oversized.maxTransactionsPerPayload.toNat = 2 ^ 63 := by decide +kernel
  have hoverlong : overlong.defect? = none := by decide +kernel
  have hsidecar : overlong.sidecarSize = 2 ^ 64 + 568 := by decide +kernel
  obtain ⟨shape, hshape, hsize, hsized⟩ := exists_shape_sidecar hoverlong
  rw [hsidecar] at hsize hsized
  refine ⟨⟨husable, ?_, ?_, ?_, Inclusion.commitmentGindex_of_deep ?_ ?_⟩, hoverlong, shape, hshape,
    hsize, ?_⟩
  · rw [← hcommitments]
    exact (supportsUpTo_commitments husable).2 (by decide +kernel)
  · rw [← hcommitments]
    exact (supportsUpTo_bundle husable).2 (by decide +kernel)
  · rw [← htransactions]
    exact (supportsUpTo_transactions husable).2 (by decide +kernel)
  · exact Nat.two_pow_pos _
  · decide +kernel
  · rw [hsized]
    decide

end Preset

end SimpleSerialize
