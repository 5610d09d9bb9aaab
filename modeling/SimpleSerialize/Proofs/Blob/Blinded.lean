import SimpleSerialize.Blob.Bundle
import SimpleSerialize.Proofs.Blob.Inclusion
import SimpleSerialize.Proofs.Merkle.Standing

/-!
Bundles with the blobs blinded. The roots that stand for the blobs are the leaves that the blobs
themselves have in the tree of a bundle, so the root of the bundle stays what it was.
-/

namespace SimpleSerialize

variable {h : HashFunction} {preset : Preset}

namespace Blob

theorem shape_eq_ok_iff {shape : Shape} :
    Schema.shape Blob preset = .ok shape ↔
      (Shape.byteVector preset.blobSize).check = .ok (.byteVector preset.blobSize) ∧
        shape = .byteVector preset.blobSize := by
  constructor
  · intro hcheck
    obtain rfl := Shape.eq_of_check hcheck
    exact ⟨hcheck, rfl⟩
  · rintro ⟨hcheck, rfl⟩
    exact hcheck

theorem hashTreeRoot_eq_ok_iff {blob : Blob} {root : Root} :
    Schema.hashTreeRoot h preset blob = .ok root ↔
      (∃ shape, Schema.shape Blob preset = .ok shape) ∧
        (Layout.of (.byteVector preset.blobSize) (.bytes blob.bytes)).root h = .ok root := by
  rw [Schema.hashTreeRoot_eq_ok_iff]
  constructor
  · rintro ⟨shape, hshape, hroot⟩
    obtain ⟨-, rfl⟩ := shape_eq_ok_iff.mp hshape
    exact ⟨⟨_, hshape⟩, hroot⟩
  · rintro ⟨⟨shape, hshape⟩, hroot⟩
    obtain ⟨-, rfl⟩ := shape_eq_ok_iff.mp hshape
    exact ⟨_, hshape, hroot⟩

end Blob

namespace Blobs

/-- The blobs of a block, each a leaf. -/
def listShape (preset : Preset) : Shape :=
  .list (.byteVector preset.blobSize) preset.maxBlobCommitmentsPerBlock.toNat

/-- The roots of the blobs of a block. -/
def rootsShape (preset : Preset) : Shape :=
  .list .bytes32 preset.maxBlobCommitmentsPerBlock.toNat

theorem rootsShape_eq_ok_iff {shape : Shape} :
    Schema.shape BlobRoots preset = .ok shape ↔
      0 < preset.maxBlobCommitmentsPerBlock.toNat ∧
        preset.maxBlobCommitmentsPerBlock.toNat ≤ 2 ^ (maxDepth - 1) ∧
        shape = rootsShape preset :=
  Shape.check_list_eq_ok_iff rfl

/-- A list of blobs has a shape where a blob has one and a list of their roots has one. -/
theorem shape_eq_ok_iff {shape : Shape} :
    Schema.shape Blobs preset = .ok shape ↔
      (∃ element, Schema.shape Blob preset = .ok element) ∧
        Schema.shape BlobRoots preset = .ok (rootsShape preset) ∧ shape = listShape preset := by
  rw [LimitedList.shape_eq_ok_iff, rootsShape_eq_ok_iff]
  constructor
  · rintro ⟨element, helement, hcheck⟩
    obtain ⟨-, rfl⟩ := Blob.shape_eq_ok_iff.mp helement
    obtain ⟨hpos, hlimit, rfl⟩ := (Shape.check_list_eq_ok_iff rfl).mp hcheck
    exact ⟨⟨_, helement⟩, ⟨hpos, hlimit, rfl⟩, rfl⟩
  · rintro ⟨⟨element, helement⟩, ⟨hpos, hlimit, -⟩, rfl⟩
    obtain ⟨-, rfl⟩ := Blob.shape_eq_ok_iff.mp helement
    exact ⟨_, helement, (Shape.check_list_eq_ok_iff rfl).mpr ⟨hpos, hlimit, rfl⟩⟩

theorem roots_eq_ok_iff {blobs : Blobs} {roots : BlobRoots} :
    blobs.roots h preset = .ok roots ↔
      List.Forall₂ (fun blob root => Schema.hashTreeRoot h preset blob = .ok root)
        blobs.items roots.items := by
  simp only [Blobs.roots, bind_eq_ok_iff, pure_eq_ok_iff, mapM_eq_ok_iff,
    ← List.forall₂_eq_eq_eq, List.forall₂_map_left_iff, List.forall₂_map_right_iff]
  constructor
  · rintro ⟨items, hitems, rfl⟩
    exact hitems
  · intro hitems
    exact ⟨roots.items, hitems, rfl⟩

/-- The list of the roots stands for the list of the blobs. -/
theorem standsFor_roots {blobs : Blobs} {roots : BlobRoots}
    (hroots : blobs.roots h preset = .ok roots) :
    Layout.StandsFor h (.of (rootsShape preset) (Schema.toValue roots))
      (.of (listShape preset) (Schema.toValue blobs)) := by
  have hroots := roots_eq_ok_iff.mp hroots
  change Layout.StandsFor h (.of (rootsShape preset) (.list (roots.items.map Schema.toValue)))
    (.of (listShape preset) (.list (blobs.items.map Schema.toValue)))
  rw [rootsShape, listShape, Layout.of, Layout.of, List.length_map, List.length_map,
    hroots.length_eq]
  apply Layout.StandsFor.ifFits
  apply Layout.standsFor_composite
  simp only [List.map_map, List.forall₂_map_left_iff, List.forall₂_map_right_iff]
  refine hroots.flip.imp ?_
  intro root blob hroot
  obtain ⟨-, hblob⟩ := Blob.hashTreeRoot_eq_ok_iff.mp hroot
  have hchunk : Layout.of .bytes32 (Schema.toValue root) = .packed [root] 1 none :=
    Layout.of_bytes32 root
  rw [Function.comp_apply, Function.comp_apply, hchunk]
  exact Layout.standsFor_chunk hblob

/-- A list of blobs with a root is made of blobs with roots. -/
theorem exists_roots {blobs : Blobs} {root : Root}
    (hblob : ∃ element, Schema.shape Blob preset = .ok element)
    (hroot : (Layout.of (listShape preset) (Schema.toValue blobs)).root h = .ok root) :
    ∃ roots, blobs.roots h preset = .ok roots := by
  change (Layout.of (listShape preset) (.list (blobs.items.map Schema.toValue))).root h
    = .ok root at hroot
  cases Shape.fits_of_root hroot with
  | list hlimit _ =>
    rw [listShape, Layout.of_list hlimit, Layout.ofItems_composite rfl] at hroot
    have hleaves := Layout.exists_root_of_composite hroot
    rw [List.forall_mem_map] at hleaves
    obtain ⟨items, hitems⟩ := exists_map_eq_ok_iff.mpr fun blob hmem => by
      obtain ⟨leaf, hleaf⟩ := hleaves blob hmem
      exact ⟨leaf, Blob.hashTreeRoot_eq_ok_iff.mpr ⟨hblob, hleaf⟩⟩
    refine ⟨⟨items⟩, ?_⟩
    rw [Blobs.roots, mapM_eq_ok_iff.mpr hitems]
    rfl

end Blobs

namespace BlobsBundle

/-- The commitments and the proofs of a bundle, and what stands for the blobs. -/
def shapeWith (preset : Preset) (name : String) (third : Shape) : Shape :=
  .container [("commitments", Inclusion.commitmentsShape preset),
    ("proofs", Inclusion.commitmentsShape preset), (name, third)]

theorem check_shapeWith (preset : Preset) (name : String) (third : Shape) :
    (shapeWith preset name third).check = .ok (shapeWith preset name third) := by
  have hchunks : 3 ≤ 2 ^ (maxDepth - 1) := by decide
  exact Shape.check_container (List.cons_ne_nil _ _) hchunks

theorem shape_commitments_eq_ok_iff {shape : Shape} :
    Schema.shape KzgCommitments preset = .ok shape ↔
      Schema.shape BlobRoots preset = .ok (Blobs.rootsShape preset) ∧
        shape = Inclusion.commitmentsShape preset := by
  have hlist : Schema.shape KzgCommitments preset = .ok shape ↔ _ :=
    Shape.check_list_eq_ok_iff rfl
  rw [hlist, Blobs.rootsShape_eq_ok_iff]
  simp only [and_true, and_assoc]
  rfl

/-- Every bundle has a shape where its lists have one. -/
theorem shape_eq_ok_iff {shape : Shape} :
    Schema.shape BlobsBundle preset = .ok shape ↔
      (∃ element, Schema.shape Blob preset = .ok element) ∧
        Schema.shape BlobRoots preset = .ok (Blobs.rootsShape preset) ∧
        shape = shapeWith preset "blobs" (Blobs.listShape preset) := by
  have hlists : Schema.shape BlobsBundle preset = (do
      let commitments ← Schema.shape KzgCommitments preset
      let proofs ← Schema.shape KzgCommitments preset
      let blobs ← Schema.shape Blobs preset
      (Shape.container
        [("commitments", commitments), ("proofs", proofs), ("blobs", blobs)]).check) := rfl
  simp only [hlists, bind_eq_ok_iff, shape_commitments_eq_ok_iff, Blobs.shape_eq_ok_iff]
  constructor
  · rintro ⟨_, ⟨hlist, rfl⟩, _, ⟨-, rfl⟩, _, ⟨hblob, -, rfl⟩, hcheck⟩
    exact ⟨hblob, hlist, Shape.eq_of_check hcheck⟩
  · rintro ⟨hblob, hlist, rfl⟩
    exact ⟨_, ⟨hlist, rfl⟩, _, ⟨hlist, rfl⟩, _, ⟨hblob, hlist, rfl⟩, check_shapeWith ..⟩

theorem shape_blinded_eq_ok_iff {shape : Shape} :
    Schema.shape BlindedBlobsBundle preset = .ok shape ↔
      Schema.shape BlobRoots preset = .ok (Blobs.rootsShape preset) ∧
        shape = shapeWith preset "blob_roots" (Blobs.rootsShape preset) := by
  have hlists : Schema.shape BlindedBlobsBundle preset = (do
      let commitments ← Schema.shape KzgCommitments preset
      let proofs ← Schema.shape KzgCommitments preset
      let blobRoots ← Schema.shape BlobRoots preset
      (Shape.container
        [("commitments", commitments), ("proofs", proofs), ("blob_roots", blobRoots)]).check) := rfl
  simp only [hlists, bind_eq_ok_iff, shape_commitments_eq_ok_iff]
  constructor
  · rintro ⟨_, ⟨hlist, rfl⟩, _, ⟨-, rfl⟩, _, hroots, hcheck⟩
    obtain ⟨-, -, rfl⟩ := Blobs.rootsShape_eq_ok_iff.mp hroots
    exact ⟨hlist, Shape.eq_of_check hcheck⟩
  · rintro ⟨hlist, rfl⟩
    exact ⟨_, ⟨hlist, rfl⟩, _, ⟨hlist, rfl⟩, _, hlist, check_shapeWith ..⟩

variable {bundle : BlobsBundle} {blinded : BlindedBlobsBundle}

theorem blinded_eq_ok_iff :
    bundle.blinded h preset = .ok blinded ↔
      ∃ roots, bundle.blobs.roots h preset = .ok roots ∧
        ⟨bundle.commitments, bundle.proofs, roots⟩ = blinded := by
  simp only [BlobsBundle.blinded, bind_eq_ok_iff, pure_eq_ok_iff]

theorem of_shapeWith (preset : Preset) (name : String) (third : Shape)
    (commitments proofs blobs : Value) :
    Layout.of (shapeWith preset name third) (.container [commitments, proofs, blobs])
      = .composite [.of (Inclusion.commitmentsShape preset) commitments,
          .of (Inclusion.commitmentsShape preset) proofs, .of third blobs] 3 none :=
  Layout.of_container rfl

/-- The blinded bundle stands for the bundle. -/
theorem standsFor_blinded (hblinded : bundle.blinded h preset = .ok blinded) :
    Layout.StandsFor h
      (.of (shapeWith preset "blob_roots" (Blobs.rootsShape preset)) (Schema.toValue blinded))
      (.of (shapeWith preset "blobs" (Blobs.listShape preset)) (Schema.toValue bundle)) := by
  obtain ⟨roots, hroots, rfl⟩ := blinded_eq_ok_iff.mp hblinded
  change Layout.StandsFor h (.of _ (.container [_, _, _])) (.of _ (.container [_, _, _]))
  rw [of_shapeWith, of_shapeWith]
  apply Layout.standsFor_composite
  exact .cons (.refl _) (.cons (.refl _) (.cons (Blobs.standsFor_roots hroots) .nil))

/-- A bundle with a root can be blinded. -/
theorem exists_blinded {root : Root} (hblob : ∃ element, Schema.shape Blob preset = .ok element)
    (hroot : (Layout.of (shapeWith preset "blobs" (Blobs.listShape preset))
      (Schema.toValue bundle)).root h = .ok root) :
    ∃ blinded, bundle.blinded h preset = .ok blinded := by
  change (Layout.of _ (.container [_, _, Schema.toValue bundle.blobs])).root h = _ at hroot
  rw [of_shapeWith, Layout.root_composite_eq_ok_iff] at hroot
  obtain ⟨leaves, hleaves, -⟩ := hroot
  obtain ⟨leaf, -, hleaf⟩ := Layout.root_of_getElem? (i := 2) hleaves rfl
  obtain ⟨roots, hroots⟩ := Blobs.exists_roots hblob hleaf
  exact ⟨_, blinded_eq_ok_iff.mpr ⟨roots, hroots, rfl⟩⟩

/--
Blinding a bundle that has a root gives a bundle of the same root, whose branches are branches of
the bundle it comes from. Where blobs have a shape, a bundle has the root that it has blinded.
-/
theorem blinded_keeps_root_and_branches (h : HashFunction) (preset : Preset)
    (bundle : BlobsBundle) :
    (∀ root, Schema.hashTreeRoot h preset bundle = .ok root →
      ∃ blinded, bundle.blinded h preset = .ok blinded ∧
        Schema.hashTreeRoot h preset blinded = .ok root ∧
        ∀ g branch, Schema.prove h preset blinded g = .ok branch →
          Schema.prove h preset bundle g = .ok branch) ∧
    ∀ blobShape blinded root, Schema.shape Blob preset = .ok blobShape →
      bundle.blinded h preset = .ok blinded → Schema.hashTreeRoot h preset blinded = .ok root →
      Schema.hashTreeRoot h preset bundle = .ok root := by
  refine ⟨?_, ?_⟩
  · intro root hroot
    obtain ⟨shape, hshape, hroot⟩ := Schema.hashTreeRoot_eq_ok_iff.mp hroot
    obtain ⟨hblob, hlist, rfl⟩ := shape_eq_ok_iff.mp hshape
    obtain ⟨blinded, hblinded⟩ := exists_blinded hblob hroot
    have hstands := standsFor_blinded hblinded
    have hshort := shape_blinded_eq_ok_iff.mpr ⟨hlist, rfl⟩
    refine ⟨blinded, hblinded, ?_, ?_⟩
    · exact Schema.hashTreeRoot_eq_ok_iff.mpr ⟨_, hshort, hstands.root_eq.trans hroot⟩
    · intro g branch hbranch
      obtain ⟨short, hshape', hbranch⟩ := Schema.prove_eq_ok_iff.mp hbranch
      obtain ⟨-, rfl⟩ := shape_blinded_eq_ok_iff.mp hshape'
      have hfull := hstands.branch_of (mapError_eq_ok_iff.mp hbranch)
      exact Schema.prove_eq_ok_iff.mpr ⟨_, hshape, mapError_eq_ok_iff.mpr hfull⟩
  · intro blobShape blinded root hblob hblinded hroot
    obtain ⟨short, hshape, hroot⟩ := Schema.hashTreeRoot_eq_ok_iff.mp hroot
    obtain ⟨hlist, rfl⟩ := shape_blinded_eq_ok_iff.mp hshape
    have hfull := shape_eq_ok_iff.mpr ⟨⟨blobShape, hblob⟩, hlist, rfl⟩
    have hstands := standsFor_blinded hblinded
    exact Schema.hashTreeRoot_eq_ok_iff.mpr ⟨_, hfull, hstands.root_eq.symm.trans hroot⟩

/-- A blob of the size that the preset gives it. -/
def oneSmallBlob : BlobsBundle :=
  ⟨⟨[.ofNat 5]⟩, ⟨[.ofNat 7]⟩, ⟨[⟨List.replicate 64 1⟩]⟩⟩

def oneSmallRoot : BlindedBlobsBundle :=
  ⟨⟨[.ofNat 5]⟩, ⟨[.ofNat 7]⟩,
    ⟨[Merkle.foldUp .sha256 .zero 1 (Merkle.pack (List.replicate 64 1))]⟩⟩

/-- The leaf of the first blob. -/
def firstBlobGindex : Gindex := ⟨192, by decide, by decide⟩

theorem blinded_keeps_root_and_branches_small :
    ∃ root branch, Schema.hashTreeRoot .sha256 .small oneSmallBlob = .ok root ∧
      oneSmallBlob.blinded .sha256 .small = .ok oneSmallRoot ∧
      Schema.hashTreeRoot .sha256 .small oneSmallRoot = .ok root ∧
      Schema.prove .sha256 .small oneSmallRoot firstBlobGindex = .ok branch ∧
      Schema.prove .sha256 .small oneSmallBlob firstBlobGindex = .ok branch ∧
      ∀ root', Schema.hashTreeRoot .sha256 .small oneSmallRoot = .ok root' →
        Schema.hashTreeRoot .sha256 .small oneSmallBlob = .ok root' := by
  obtain ⟨hkeeps, hback⟩ := blinded_keeps_root_and_branches .sha256 .small oneSmallBlob
  have hroot : Schema.hashTreeRoot .sha256 .small oneSmallBlob = .ok _ := rfl
  have hblinded : oneSmallBlob.blinded .sha256 .small = .ok oneSmallRoot := rfl
  have hshape : Schema.shape Blob .small = .ok (.byteVector 64) := rfl
  have hbranch : Schema.prove .sha256 .small oneSmallRoot firstBlobGindex = .ok _ := rfl
  obtain ⟨blinded, hblinded', hsame, hbranches⟩ := hkeeps _ hroot
  obtain rfl := Except.ok.inj (hblinded.symm.trans hblinded')
  exact ⟨_, _, hroot, hblinded, hsame, hbranch, hbranches _ _ hbranch,
    fun root' => hback _ _ root' hshape hblinded⟩

end BlobsBundle

end SimpleSerialize
