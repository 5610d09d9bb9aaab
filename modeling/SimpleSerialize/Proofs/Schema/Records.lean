import SimpleSerialize.Blob.Bundle
import SimpleSerialize.Blob.Sidecar
import SimpleSerialize.Proofs.Schema.Faithful

/-!
Records of typed values. A record names its fields three times, for its shape, on the way to a value
and on the way back; it is faithful because the three agree on their order.
-/

namespace SimpleSerialize.Schema

open Shape (built_of_check fits_container_iff)

variable {preset : Preset} {shape : Shape}

theorem faithful_inclusionProof : Faithful InclusionProof where
  built hshape := by
    refine built_of_check ?_ hshape
    have hroot : Schema.shape Root .minimal = .ok .bytes32 := rfl
    simpa using (faithful_fixedBytes 32).built hroot
  toValue_injective {a b} hsame := by
    have hinj : Function.Injective (toValue : Root → Value) :=
      fun _ _ => (faithful_fixedBytes 32).toValue_injective
    rw [InclusionProof.mk.injEq]
    exact hinj.list_map (Value.vector.inj hsame)
  exists_of_fits {preset _ _} hshape hfits := by
    obtain rfl := Shape.eq_of_check hshape
    have hroot : Schema.shape Root preset = .ok .bytes32 := rfl
    cases hfits with
    | vector _ hitems =>
      obtain ⟨nodes, rfl, hread⟩ := (faithful_fixedBytes 32).exists_of_all_fit hroot hitems
      refine ⟨⟨nodes⟩, rfl, ?_⟩
      have hsteps : (ofValue preset (.vector (nodes.map toValue)) : Except _ InclusionProof)
          = (do return ⟨← (nodes.map toValue).mapM (ofValue preset)⟩) := rfl
      rw [hsteps, hread]
      rfl

theorem shape_blockHeader_eq_ok_iff :
    Schema.shape BlockHeader preset = .ok shape ↔
      ∃ number, Schema.shape UInt64 preset = .ok number ∧
      ∃ root, Schema.shape Root preset = .ok root ∧
        (Shape.container [("slot", number), ("proposer_index", number), ("parent_root", root),
          ("state_root", root), ("body_root", root)]).check = .ok shape := by
  simp only [← bind_eq_ok_iff]
  rfl

theorem faithful_blockHeader : Faithful BlockHeader where
  built hshape := by
    obtain ⟨number, hnumber, root, hroot, hcheck⟩ := shape_blockHeader_eq_ok_iff.mp hshape
    refine built_of_check ?_ hcheck
    simp [faithful_uint64.built hnumber, (faithful_fixedBytes 32).built hroot]
  toValue_injective {a b} hsame := by
    have hfields := Value.container.inj hsame
    simp only [List.cons.injEq, and_true] at hfields
    obtain ⟨hslot, hproposer, hparent, hstate, hbody⟩ := hfields
    cases a
    cases b
    rw [BlockHeader.mk.injEq]
    exact ⟨faithful_uint64.toValue_injective hslot, faithful_uint64.toValue_injective hproposer,
      (faithful_fixedBytes 32).toValue_injective hparent,
      (faithful_fixedBytes 32).toValue_injective hstate,
      (faithful_fixedBytes 32).toValue_injective hbody⟩
  exists_of_fits {preset _ _} hshape hfits := by
    obtain ⟨number, hnumber, root, hroot, hcheck⟩ := shape_blockHeader_eq_ok_iff.mp hshape
    obtain rfl := Shape.eq_of_check hcheck
    obtain ⟨values, rfl, hvalues⟩ := fits_container_iff.mp hfits
    obtain _ | ⟨hslot, _ | ⟨hproposer, _ | ⟨hparent, _ | ⟨hstate, _ | ⟨hbody, _ | _⟩⟩⟩⟩⟩ := hvalues
    obtain ⟨slot, rfl, hslot⟩ := faithful_uint64.exists_of_fits hnumber hslot
    obtain ⟨proposer, rfl, hproposer⟩ := faithful_uint64.exists_of_fits hnumber hproposer
    obtain ⟨parent, rfl, hparent⟩ := (faithful_fixedBytes 32).exists_of_fits hroot hparent
    obtain ⟨state, rfl, hstate⟩ := (faithful_fixedBytes 32).exists_of_fits hroot hstate
    obtain ⟨body, rfl, hbody⟩ := (faithful_fixedBytes 32).exists_of_fits hroot hbody
    refine ⟨⟨slot, proposer, parent, state, body⟩, rfl, ?_⟩
    have hsteps : (ofValue preset (.container [toValue slot, toValue proposer, toValue parent,
        toValue state, toValue body]) : Except _ BlockHeader) = (do
          return ⟨← ofValue preset (toValue slot), ← ofValue preset (toValue proposer),
            ← ofValue preset (toValue parent), ← ofValue preset (toValue state),
            ← ofValue preset (toValue body)⟩) := rfl
    rw [hsteps, hslot, hproposer, hparent, hstate, hbody]
    rfl

theorem shape_signedBlockHeader_eq_ok_iff :
    Schema.shape SignedBlockHeader preset = .ok shape ↔
      ∃ message, Schema.shape BlockHeader preset = .ok message ∧
      ∃ signature, Schema.shape BlsSignature preset = .ok signature ∧
        (Shape.container [("message", message), ("signature", signature)]).check = .ok shape := by
  simp only [← bind_eq_ok_iff]
  rfl

theorem faithful_signedBlockHeader : Faithful SignedBlockHeader where
  built hshape := by
    obtain ⟨message, hmessage, signature, hsignature, hcheck⟩ :=
      shape_signedBlockHeader_eq_ok_iff.mp hshape
    refine built_of_check ?_ hcheck
    simp [faithful_blockHeader.built hmessage, (faithful_fixedBytes 96).built hsignature]
  toValue_injective {a b} hsame := by
    have hfields := Value.container.inj hsame
    simp only [List.cons.injEq, and_true] at hfields
    obtain ⟨hmessage, hsignature⟩ := hfields
    cases a
    cases b
    rw [SignedBlockHeader.mk.injEq]
    exact ⟨faithful_blockHeader.toValue_injective hmessage,
      (faithful_fixedBytes 96).toValue_injective hsignature⟩
  exists_of_fits {preset _ _} hshape hfits := by
    obtain ⟨_, hmessage, _, hsignature, hcheck⟩ := shape_signedBlockHeader_eq_ok_iff.mp hshape
    obtain rfl := Shape.eq_of_check hcheck
    obtain ⟨values, rfl, hvalues⟩ := fits_container_iff.mp hfits
    obtain _ | ⟨hfirst, _ | ⟨hsecond, _ | _⟩⟩ := hvalues
    obtain ⟨message, rfl, hmessage⟩ := faithful_blockHeader.exists_of_fits hmessage hfirst
    obtain ⟨signature, rfl, hsignature⟩ :=
      (faithful_fixedBytes 96).exists_of_fits hsignature hsecond
    refine ⟨⟨message, signature⟩, rfl, ?_⟩
    have hsteps : (ofValue preset (.container [toValue message, toValue signature]) :
        Except _ SignedBlockHeader) = (do
          return ⟨← ofValue preset (toValue message), ← ofValue preset (toValue signature)⟩) := rfl
    rw [hsteps, hmessage, hsignature]
    rfl

theorem faithful_commitments : Faithful KzgCommitments :=
  faithful_limitedList (faithful_fixedBytes 48)

theorem faithful_proofs : Faithful KzgProofs :=
  faithful_limitedList (faithful_fixedBytes 48)

theorem faithful_blobs : Faithful Blobs :=
  faithful_limitedList faithful_blob

theorem faithful_blobRoots : Faithful BlobRoots :=
  faithful_limitedList (faithful_fixedBytes 32)

theorem faithful_transactions : Faithful Transactions :=
  faithful_limitedList faithful_transaction

theorem faithful_inclusionProofs : Faithful InclusionProofs :=
  faithful_limitedList faithful_inclusionProof

theorem shape_blobsBundle_eq_ok_iff :
    Schema.shape BlobsBundle preset = .ok shape ↔
      ∃ commitments, Schema.shape KzgCommitments preset = .ok commitments ∧
      ∃ proofs, Schema.shape KzgProofs preset = .ok proofs ∧
      ∃ blobs, Schema.shape Blobs preset = .ok blobs ∧
        (Shape.container [("commitments", commitments), ("proofs", proofs),
          ("blobs", blobs)]).check = .ok shape := by
  simp only [← bind_eq_ok_iff]
  rfl

theorem faithful_blobsBundle : Faithful BlobsBundle where
  built hshape := by
    obtain ⟨_, hcommitments, _, hproofs, _, hblobs, hcheck⟩ := shape_blobsBundle_eq_ok_iff.mp hshape
    refine built_of_check ?_ hcheck
    simp [faithful_commitments.built hcommitments, faithful_proofs.built hproofs,
      faithful_blobs.built hblobs]
  toValue_injective {a b} hsame := by
    have hfields := Value.container.inj hsame
    simp only [List.cons.injEq, and_true] at hfields
    obtain ⟨hcommitments, hproofs, hblobs⟩ := hfields
    cases a
    cases b
    rw [BlobsBundle.mk.injEq]
    exact ⟨faithful_commitments.toValue_injective hcommitments,
      faithful_proofs.toValue_injective hproofs, faithful_blobs.toValue_injective hblobs⟩
  exists_of_fits {preset _ _} hshape hfits := by
    obtain ⟨_, hcommitments, _, hproofs, _, hblobs, hcheck⟩ := shape_blobsBundle_eq_ok_iff.mp hshape
    obtain rfl := Shape.eq_of_check hcheck
    obtain ⟨values, rfl, hvalues⟩ := fits_container_iff.mp hfits
    obtain _ | ⟨hfirst, _ | ⟨hsecond, _ | ⟨hthird, _ | _⟩⟩⟩ := hvalues
    obtain ⟨commitments, rfl, hcommitments⟩ :=
      faithful_commitments.exists_of_fits hcommitments hfirst
    obtain ⟨proofs, rfl, hproofs⟩ := faithful_proofs.exists_of_fits hproofs hsecond
    obtain ⟨blobs, rfl, hblobs⟩ := faithful_blobs.exists_of_fits hblobs hthird
    refine ⟨⟨commitments, proofs, blobs⟩, rfl, ?_⟩
    have hsteps : (ofValue preset (.container [toValue commitments, toValue proofs,
        toValue blobs]) : Except _ BlobsBundle) = (do
          return ⟨← ofValue preset (toValue commitments), ← ofValue preset (toValue proofs),
            ← ofValue preset (toValue blobs)⟩) := rfl
    rw [hsteps, hcommitments, hproofs, hblobs]
    rfl

theorem shape_blindedBlobsBundle_eq_ok_iff :
    Schema.shape BlindedBlobsBundle preset = .ok shape ↔
      ∃ commitments, Schema.shape KzgCommitments preset = .ok commitments ∧
      ∃ proofs, Schema.shape KzgProofs preset = .ok proofs ∧
      ∃ blobRoots, Schema.shape BlobRoots preset = .ok blobRoots ∧
        (Shape.container [("commitments", commitments), ("proofs", proofs),
          ("blob_roots", blobRoots)]).check = .ok shape := by
  simp only [← bind_eq_ok_iff]
  rfl

theorem faithful_blindedBlobsBundle : Faithful BlindedBlobsBundle where
  built hshape := by
    obtain ⟨_, hcommitments, _, hproofs, _, hblobRoots, hcheck⟩ :=
      shape_blindedBlobsBundle_eq_ok_iff.mp hshape
    refine built_of_check ?_ hcheck
    simp [faithful_commitments.built hcommitments, faithful_proofs.built hproofs,
      faithful_blobRoots.built hblobRoots]
  toValue_injective {a b} hsame := by
    have hfields := Value.container.inj hsame
    simp only [List.cons.injEq, and_true] at hfields
    obtain ⟨hcommitments, hproofs, hblobRoots⟩ := hfields
    cases a
    cases b
    rw [BlindedBlobsBundle.mk.injEq]
    exact ⟨faithful_commitments.toValue_injective hcommitments,
      faithful_proofs.toValue_injective hproofs, faithful_blobRoots.toValue_injective hblobRoots⟩
  exists_of_fits {preset _ _} hshape hfits := by
    obtain ⟨_, hcommitments, _, hproofs, _, hblobRoots, hcheck⟩ :=
      shape_blindedBlobsBundle_eq_ok_iff.mp hshape
    obtain rfl := Shape.eq_of_check hcheck
    obtain ⟨values, rfl, hvalues⟩ := fits_container_iff.mp hfits
    obtain _ | ⟨hfirst, _ | ⟨hsecond, _ | ⟨hthird, _ | _⟩⟩⟩ := hvalues
    obtain ⟨commitments, rfl, hcommitments⟩ :=
      faithful_commitments.exists_of_fits hcommitments hfirst
    obtain ⟨proofs, rfl, hproofs⟩ := faithful_proofs.exists_of_fits hproofs hsecond
    obtain ⟨blobRoots, rfl, hblobRoots⟩ := faithful_blobRoots.exists_of_fits hblobRoots hthird
    refine ⟨⟨commitments, proofs, blobRoots⟩, rfl, ?_⟩
    have hsteps : (ofValue preset (.container [toValue commitments, toValue proofs,
        toValue blobRoots]) : Except _ BlindedBlobsBundle) = (do
          return ⟨← ofValue preset (toValue commitments), ← ofValue preset (toValue proofs),
            ← ofValue preset (toValue blobRoots)⟩) := rfl
    rw [hsteps, hcommitments, hproofs, hblobRoots]
    rfl

theorem shape_blobSidecar_eq_ok_iff :
    Schema.shape BlobSidecar preset = .ok shape ↔
      ∃ index, Schema.shape BlobIndex preset = .ok index ∧
      ∃ blob, Schema.shape Blob preset = .ok blob ∧
      ∃ commitment, Schema.shape KzgCommitment preset = .ok commitment ∧
      ∃ proof, Schema.shape KzgProof preset = .ok proof ∧
      ∃ header, Schema.shape SignedBlockHeader preset = .ok header ∧
      ∃ inclusion, Schema.shape InclusionProof preset = .ok inclusion ∧
        (Shape.container [("index", index), ("blob", blob), ("kzg_commitment", commitment),
          ("kzg_proof", proof), ("signed_block_header", header),
          ("kzg_commitment_inclusion_proof", inclusion)]).check = .ok shape := by
  simp only [← bind_eq_ok_iff]
  rfl

theorem faithful_blobSidecar : Faithful BlobSidecar where
  built hshape := by
    obtain ⟨_, hindex, _, hblob, _, hcommitment, _, hproof, _, hheader, _, hinclusion, hcheck⟩ :=
      shape_blobSidecar_eq_ok_iff.mp hshape
    refine built_of_check ?_ hcheck
    simp [faithful_uint64.built hindex, faithful_blob.built hblob,
      (faithful_fixedBytes 48).built hcommitment, (faithful_fixedBytes 48).built hproof,
      faithful_signedBlockHeader.built hheader, faithful_inclusionProof.built hinclusion]
  toValue_injective {a b} hsame := by
    have hfields := Value.container.inj hsame
    simp only [List.cons.injEq, and_true] at hfields
    obtain ⟨hindex, hblob, hcommitment, hproof, hheader, hinclusion⟩ := hfields
    cases a
    cases b
    rw [BlobSidecar.mk.injEq]
    exact ⟨faithful_uint64.toValue_injective hindex, faithful_blob.toValue_injective hblob,
      (faithful_fixedBytes 48).toValue_injective hcommitment,
      (faithful_fixedBytes 48).toValue_injective hproof,
      faithful_signedBlockHeader.toValue_injective hheader,
      faithful_inclusionProof.toValue_injective hinclusion⟩
  exists_of_fits {preset _ _} hshape hfits := by
    obtain ⟨_, hindex, _, hblob, _, hcommitment, _, hproof, _, hheader, _, hinclusion, hcheck⟩ :=
      shape_blobSidecar_eq_ok_iff.mp hshape
    obtain rfl := Shape.eq_of_check hcheck
    obtain ⟨values, rfl, hvalues⟩ := fits_container_iff.mp hfits
    obtain _ | ⟨hfirst, _ | ⟨hsecond, _ | ⟨hthird, _ | ⟨hfourth, _ | ⟨hfifth, _ | ⟨hsixth,
      _ | _⟩⟩⟩⟩⟩⟩ := hvalues
    obtain ⟨index, rfl, hindex⟩ := faithful_uint64.exists_of_fits hindex hfirst
    obtain ⟨blob, rfl, hblob⟩ := faithful_blob.exists_of_fits hblob hsecond
    obtain ⟨commitment, rfl, hcommitment⟩ :=
      (faithful_fixedBytes 48).exists_of_fits hcommitment hthird
    obtain ⟨proof, rfl, hproof⟩ := (faithful_fixedBytes 48).exists_of_fits hproof hfourth
    obtain ⟨header, rfl, hheader⟩ := faithful_signedBlockHeader.exists_of_fits hheader hfifth
    obtain ⟨inclusion, rfl, hinclusion⟩ :=
      faithful_inclusionProof.exists_of_fits hinclusion hsixth
    refine ⟨⟨index, blob, commitment, proof, header, inclusion⟩, rfl, ?_⟩
    have hsteps : (ofValue preset (.container [toValue index, toValue blob, toValue commitment,
        toValue proof, toValue header, toValue inclusion]) : Except _ BlobSidecar) = (do
          return ⟨← ofValue preset (toValue index), ← ofValue preset (toValue blob),
            ← ofValue preset (toValue commitment), ← ofValue preset (toValue proof),
            ← ofValue preset (toValue header), ← ofValue preset (toValue inclusion)⟩) := rfl
    rw [hsteps, hindex, hblob, hcommitment, hproof, hheader, hinclusion]
    rfl

/--
Typed values round trip in both directions, whatever the type: numbers, byte strings of a fixed
width, blobs and transactions, lists with a limit, headers, bundles and sidecars. Their readers
refuse nothing that was read against the shape.
-/
theorem types_round_trip :
    (AlwaysRoundTrips Bool ∧ AlwaysRoundTrips UInt8 ∧ AlwaysRoundTrips UInt16 ∧
      AlwaysRoundTrips UInt32 ∧ AlwaysRoundTrips UInt64 ∧ AlwaysRoundTrips BlobIndex) ∧
    ((∀ width, AlwaysRoundTrips (FixedBytes width)) ∧ AlwaysRoundTrips Root ∧
      AlwaysRoundTrips KzgCommitment ∧ AlwaysRoundTrips KzgProof ∧
      AlwaysRoundTrips VersionedHash ∧ AlwaysRoundTrips BlsSignature ∧
      AlwaysRoundTrips Blob ∧ AlwaysRoundTrips Transaction) ∧
    (AlwaysRoundTrips KzgCommitments ∧ AlwaysRoundTrips KzgProofs ∧ AlwaysRoundTrips Blobs ∧
      AlwaysRoundTrips BlobRoots ∧ AlwaysRoundTrips Transactions ∧
      AlwaysRoundTrips InclusionProofs) ∧
    AlwaysRoundTrips InclusionProof ∧ AlwaysRoundTrips BlockHeader ∧
      AlwaysRoundTrips SignedBlockHeader ∧ AlwaysRoundTrips BlobsBundle ∧
      AlwaysRoundTrips BlindedBlobsBundle ∧ AlwaysRoundTrips BlobSidecar := by
  have hbytes (width : Nat) : AlwaysRoundTrips (FixedBytes width) :=
    (faithful_fixedBytes width).roundTrips
  refine ⟨?_, ?_, ?_, ?_⟩
  · exact ⟨faithful_bool.roundTrips, faithful_uint8.roundTrips, faithful_uint16.roundTrips,
      faithful_uint32.roundTrips, faithful_uint64.roundTrips, faithful_uint64.roundTrips⟩
  · exact ⟨hbytes, hbytes 32, hbytes 48, hbytes 48, hbytes 32, hbytes 96,
      faithful_blob.roundTrips, faithful_transaction.roundTrips⟩
  · exact ⟨faithful_commitments.roundTrips, faithful_proofs.roundTrips, faithful_blobs.roundTrips,
      faithful_blobRoots.roundTrips, faithful_transactions.roundTrips,
      faithful_inclusionProofs.roundTrips⟩
  · exact ⟨faithful_inclusionProof.roundTrips, faithful_blockHeader.roundTrips,
      faithful_signedBlockHeader.roundTrips, faithful_blobsBundle.roundTrips,
      faithful_blindedBlobsBundle.roundTrips, faithful_blobSidecar.roundTrips⟩

/-- A sidecar in which no two fields are the same. -/
def numberedSidecar : BlobSidecar :=
  ⟨1, ⟨List.replicate 64 2⟩, .ofNat 3, .ofNat 4,
    ⟨⟨5, 6, .ofNat 7, .ofNat 8, .ofNat 9⟩, .ofNat 10⟩, ⟨List.replicate 9 (.ofNat 11)⟩⟩

theorem types_round_trip_sidecar :
    ∃ shape bs, Schema.shape BlobSidecar .small = .ok shape ∧ shape.SizesFit ∧
      bs.length < wordBound ∧ encode .small numberedSidecar = .ok bs ∧
      decode .small bs = .ok numberedSidecar ∧ ∃ v, shape.decode bs = .ok v := by
  obtain ⟨-, -, -, -, -, -, -, -, hsidecar⟩ := types_round_trip
  obtain ⟨shape, hshape, hsizes, hsize⟩ : ∃ shape, Schema.shape BlobSidecar .small = .ok shape ∧
      shape.SizesFit ∧ shape.exactSize? = some 664 := ⟨_, rfl, by decide, rfl⟩
  obtain ⟨bs, hencode⟩ : ∃ bs, encode .small numberedSidecar = .ok bs := ⟨_, rfl⟩
  have hlength : bs.length = 664 :=
    shape.keepsSize _ _ _ hsize ((encode_eq_ok_iff hshape).mp hencode)
  have hmemory : bs.length < wordBound := by
    rw [hlength]
    decide
  have htrips := hsidecar _ shape hshape hsizes
  have hdecode := htrips.decode_of_encode _ bs hmemory hencode
  exact ⟨shape, bs, hshape, hsizes, hmemory, hencode, hdecode,
    (htrips.accepts_iff bs).mp ⟨_, hdecode⟩⟩

end SimpleSerialize.Schema
