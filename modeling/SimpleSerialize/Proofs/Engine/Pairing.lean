import SimpleSerialize.Proofs.Engine.Sidecars

/-!
The commitment that a blob is paired with. A bundle gives one beside each of its blobs, the body
gives one at each index, and a sidecar is built with that of the body: those of the bundle are only
counted (`Engine.buildSidecars_congr`). The two are the same if the commitments of the bundle are
the first ones of the body, and otherwise some sidecar has a commitment that its bundle does not
give to its blob (`Engine.commitments_eq_iff_isPrefix`).
-/

namespace SimpleSerialize.Engine

variable {engine : Engine} {bundle : BlobsBundle} {header : SignedBlockHeader} {body : BlockBody}

theorem buildSidecars_congr {commitments : KzgCommitments}
    (hlength : commitments.items.length = bundle.commitments.items.length) :
    engine.buildSidecars { bundle with commitments } header body
      = engine.buildSidecars bundle header body := by
  unfold buildSidecars
  simp only [hlength]

section Built

variable {sidecars : List BlobSidecar}
  (hbuild : engine.buildSidecars bundle header body = .ok sidecars)

include hbuild

theorem parts_of_buildSidecars {i : Nat} {sidecar : BlobSidecar}
    (hsidecar : sidecars[i]? = some sidecar) :
    sidecar.index.toNat = i ∧ bundle.blobs.items[i]? = some sidecar.blob ∧
      bundle.proofs.items[i]? = some sidecar.kzgProof ∧
      body.blobKzgCommitments.items[i]? = some sidecar.kzgCommitment := by
  obtain ⟨blob, kzgProof, hblob, hkzgProof, hown⟩ := exists_buildSidecar hbuild hsidecar
  obtain ⟨hi, -⟩ := List.getElem?_eq_some_iff.mp hsidecar
  have hindex := toNat_ofNat_of_buildSidecars hbuild hi
  obtain ⟨commitment, hcommitment, -, -, rfl⟩ := buildSidecar_eq_ok_iff_placed.mp hown
  rw [hindex] at hcommitment
  exact ⟨hindex, hblob, hkzgProof, hcommitment⟩

theorem commitments_eq_iff_isPrefix :
    (∀ (i : Nat) (sidecar : BlobSidecar), sidecars[i]? = some sidecar →
        bundle.commitments.items[i]? = some sidecar.kzgCommitment) ↔
      bundle.commitments.items <+: body.blobKzgCommitments.items := by
  have hcount : bundle.commitments.items.length = sidecars.length :=
    (buildSidecars_eq_ok_iff.mp hbuild).1.trans (length_of_buildSidecars hbuild).symm
  rw [List.prefix_iff_getElem?]
  constructor
  · intro hsame i hi
    have hbuilt : i < sidecars.length := hcount ▸ hi
    have hsidecar := List.getElem?_eq_getElem hbuilt
    obtain ⟨-, -, -, hcommitment⟩ := parts_of_buildSidecars hbuild hsidecar
    rw [hcommitment, ← hsame i _ hsidecar, List.getElem?_eq_getElem hi]
  · intro hprefix i sidecar hsidecar
    obtain ⟨hi, -⟩ := List.getElem?_eq_some_iff.mp hsidecar
    obtain ⟨-, -, -, hcommitment⟩ := parts_of_buildSidecars hbuild hsidecar
    rw [List.getElem?_eq_getElem (hcount ▸ hi), ← hprefix i (hcount ▸ hi), hcommitment]

end Built

/--
A sidecar has the blob and the proof that its bundle puts at its index, and the commitment that the
body puts there. That is the one of the bundle as long as the bundle agrees with the body, which is
not looked at: with any other commitments, as many of them, the bundle gives the same sidecars.
-/
theorem buildSidecars_pairing {sidecars : List BlobSidecar}
    (hbuild : engine.buildSidecars bundle header body = .ok sidecars) :
    sidecars.length = bundle.blobs.items.length ∧
    (∀ (i : Nat) (sidecar : BlobSidecar), sidecars[i]? = some sidecar →
      sidecar.index.toNat = i ∧ bundle.blobs.items[i]? = some sidecar.blob ∧
        bundle.proofs.items[i]? = some sidecar.kzgProof ∧
        body.blobKzgCommitments.items[i]? = some sidecar.kzgCommitment) ∧
    ((∀ (i : Nat) (sidecar : BlobSidecar), sidecars[i]? = some sidecar →
        bundle.commitments.items[i]? = some sidecar.kzgCommitment) ↔
      bundle.commitments.items <+: body.blobKzgCommitments.items) ∧
    ∀ commitments : KzgCommitments,
      commitments.items.length = bundle.commitments.items.length →
        engine.buildSidecars { bundle with commitments } header body = .ok sidecars := by
  refine ⟨length_of_buildSidecars hbuild, fun _ _ => parts_of_buildSidecars hbuild,
    commitments_eq_iff_isPrefix hbuild, ?_⟩
  intro commitments hlength
  exact (buildSidecars_congr hlength).trans hbuild

section OneBlob

open BlobSidecar

theorem buildSidecars_single (commitment : KzgCommitment) (kzgProof : KzgProof) (blob : Blob) :
    twoBlobs.buildSidecars ⟨⟨[commitment]⟩, ⟨[kzgProof]⟩, ⟨[blob]⟩⟩ oneBlobHeader oneBlobBody
      = .ok [{ oneBlobSidecar with blob, kzgProof }] := by
  refine buildSidecars_eq_ok_iff.mpr ⟨rfl, rfl, ?_⟩
  have hown : twoBlobs.buildSidecar 0 blob kzgProof oneBlobHeader oneBlobBody
      = .ok { oneBlobSidecar with blob, kzgProof } :=
    buildSidecar_eq_ok_iff_placed.mpr ⟨_, rfl, hashTreeRoot_oneBlobBody, ⟨_, rfl⟩, rfl⟩
  exact congrArg (fun sidecar => [sidecar]) hown

/-- The commitment of the bundle is that of the body, so it is the one in the sidecar. -/
theorem buildSidecars_pairing_oneBlob :
    oneBlob.commitments.items[0]? = some oneBlobSidecar.kzgCommitment := by
  obtain ⟨-, -, hagree, -⟩ := buildSidecars_pairing (buildSidecars_single (.ofNat 5) .zero ⟨[]⟩)
  apply hagree.mpr _ 0 oneBlobSidecar rfl
  exact List.prefix_refl _

/-- The sidecar of a bundle whose commitment is not the one in the body. -/
theorem buildSidecars_strayCommitment :
    ∃ sidecar : BlobSidecar,
      twoBlobs.buildSidecars ⟨⟨[.ofNat 6]⟩, ⟨[.zero]⟩, ⟨[⟨List.replicate 64 0⟩]⟩⟩ oneBlobHeader
          oneBlobBody = .ok [sidecar] ∧
        sidecar.kzgCommitment ≠ .ofNat 6 :=
  ⟨_, buildSidecars_single _ _ _, by decide⟩

end OneBlob

end SimpleSerialize.Engine
