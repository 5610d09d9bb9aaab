import SimpleSerialize.Blob.Inclusion
import SimpleSerialize.Proofs.Merkle.Placed
import SimpleSerialize.Proofs.Merkle.Rooted
import SimpleSerialize.Proofs.Schema

/-!
The way from a blob commitment up to the body: through the tree of the list, past the number of
commitments, and through the tree of the fields. `Inclusion.branch` is the branch of that way, and
climbing it reaches the root of the body (`Inclusion.climb_branch`).
-/

namespace SimpleSerialize

namespace Inclusion

/-- The root of a commitment, which takes up two chunks. -/
def commitmentRoot (h : HashFunction) (commitment : KzgCommitment) : Root :=
  Merkle.foldUp h .zero 1 (Merkle.pack commitment.toList)

/-- Levels of the tree of commitments. -/
def listDepth (preset : Preset) : Nat := coverDepth preset.maxBlobCommitmentsPerBlock.toNat

def commitmentsShape (preset : Preset) : Shape :=
  .list (.byteVector 48) preset.maxBlobCommitmentsPerBlock.toNat

end Inclusion

namespace BlockBody

def commitmentRoots (h : HashFunction) (body : BlockBody) : List Root :=
  body.blobKzgCommitments.items.map (Inclusion.commitmentRoot h)

def commitmentsRoot (h : HashFunction) (preset : Preset) (body : BlockBody) : Root :=
  Merkle.mixInCount h
    (Merkle.foldUp h .zero (Inclusion.listDepth preset) (body.commitmentRoots h))
    body.blobKzgCommitments.items.length

/-- The fields of a body whose commitments fit. -/
def fields (h : HashFunction) (preset : Preset) (body : BlockBody) : List Root :=
  body.fieldRoots ++ [body.commitmentsRoot h preset]

/-- There is a shape for the commitments, and it has room for those of the body. -/
structure Fits (preset : Preset) (body : BlockBody) : Prop where
  check_shape :
    (Inclusion.commitmentsShape preset).check = .ok (Inclusion.commitmentsShape preset)
  length_le : body.blobKzgCommitments.items.length ≤ preset.maxBlobCommitmentsPerBlock.toNat

end BlockBody

namespace Inclusion

variable {h : HashFunction} {preset : Preset} {body : BlockBody}

theorem root_commitment (h : HashFunction) (commitment : KzgCommitment) :
    (Layout.of (.byteVector 48) (.bytes commitment.toList)).root h
      = .ok (commitmentRoot h commitment) := by
  have hdepth : coverDepth (Bytes.ceilDiv 48 chunkSize) = 1 := by decide +kernel
  have hchunks : (Merkle.pack commitment.toList).length = Bytes.ceilDiv 48 chunkSize := by
    rw [Merkle.length_pack, commitment.length_toList]
  rw [Layout.of_byteVector commitment.length_toList, Layout.root, Layout.rootOver_eq_ok_iff, hdepth]
  exact ⟨Nat.le_of_eq hchunks, rfl⟩

theorem hashTreeRoot_commitment (commitment : KzgCommitment) :
    Schema.hashTreeRoot h preset commitment = .ok (commitmentRoot h commitment) :=
  root_commitment h commitment

section List

/-- The trees of the commitments. -/
def parts (body : BlockBody) : List Layout :=
  body.blobKzgCommitments.items.map fun commitment =>
    .of (.byteVector 48) (.bytes commitment.toList)

theorem length_parts (body : BlockBody) :
    (parts body).length = body.blobKzgCommitments.items.length :=
  List.length_map _

theorem roots_parts (h : HashFunction) (body : BlockBody) :
    Layout.roots h (parts body) = .ok (body.commitmentRoots h) := by
  rw [Layout.roots_eq_ok_iff, parts, BlockBody.commitmentRoots, List.map_map, List.map_map]
  apply List.map_congr_left
  intro commitment _
  exact root_commitment h commitment

theorem length_commitmentRoots (h : HashFunction) (body : BlockBody) :
    (body.commitmentRoots h).length = body.blobKzgCommitments.items.length :=
  List.length_map _

theorem layout_commitments
    (hlimit : body.blobKzgCommitments.items.length ≤ preset.maxBlobCommitmentsPerBlock.toNat) :
    Layout.of (commitmentsShape preset) (Schema.toValue body.blobKzgCommitments)
      = .composite (parts body) preset.maxBlobCommitmentsPerBlock.toNat
          (some body.blobKzgCommitments.items.length) := by
  change Layout.of (commitmentsShape preset)
    (.list (body.blobKzgCommitments.items.map Schema.toValue)) = _
  rw [commitmentsShape, Layout.of_list (by rwa [List.length_map]), Layout.ofItems_composite rfl,
    List.map_map, List.length_map]
  rfl

theorem hashTreeRoot_commitments_eq_ok_iff {root : Root} :
    Schema.hashTreeRoot h preset body.blobKzgCommitments = .ok root ↔
      body.Fits preset ∧ root = body.commitmentsRoot h preset := by
  rw [Schema.hashTreeRoot_eq_ok_iff]
  constructor
  · rintro ⟨shape, hshape, hroot⟩
    have hcheck : (commitmentsShape preset).check = .ok shape := hshape
    obtain rfl := Shape.eq_of_check hcheck
    have hfits : (Shape.list (.byteVector 48) preset.maxBlobCommitmentsPerBlock.toNat).Fits
        (.list (body.blobKzgCommitments.items.map Schema.toValue)) := Shape.fits_of_root hroot
    cases hfits with
    | list hlimit _ =>
      rw [List.length_map] at hlimit
      rw [Shape.hashTreeRoot, layout_commitments hlimit, Layout.root_composite_eq_ok_iff] at hroot
      obtain ⟨leaves, hroots, -, rfl⟩ := hroot
      rw [roots_parts] at hroots
      cases hroots
      exact ⟨⟨hcheck, hlimit⟩, rfl⟩
  · rintro ⟨⟨hcheck, hlimit⟩, rfl⟩
    refine ⟨_, hcheck, ?_⟩
    rw [Shape.hashTreeRoot, layout_commitments hlimit, Layout.root_composite_eq_ok_iff]
    refine ⟨_, roots_parts h body, ?_, rfl⟩
    rwa [length_commitmentRoots]

end List

section Gindices

variable {index : Nat} {element g : Gindex}

/-- The list of commitments is the last field. -/
def field : Gindex := ⟨27, by decide, by decide⟩

theorem slot_field : Gindex.ofSlot BodyTree.commitmentsField BodyTree.depth = .ok field := rfl

theorem fieldGindex_eq : fieldGindex = .ok field := slot_field

theorem elementGindex_eq_ok_iff :
    elementGindex preset index = .ok element ↔ ∃ data slot : Gindex, data.toNat = 2 ∧
      Gindex.ofSlot index (listDepth preset) = .ok slot ∧ data.concat slot = .ok element := by
  have hleft : Gindex.root.left = .ok ⟨2, by decide, by decide⟩ := rfl
  simp only [elementGindex, bind_eq_ok_iff, hleft, Except.ok.injEq, listDepth]
  constructor
  · rintro ⟨data, rfl, slot, hslot, hconcat⟩
    exact ⟨_, slot, rfl, hslot, hconcat⟩
  · rintro ⟨data, slot, htwo, hslot, hconcat⟩
    exact ⟨data, Gindex.ext htwo.symm, slot, hslot, hconcat⟩

theorem commitmentGindex_eq_ok_iff :
    commitmentGindex preset index = .ok g ↔
      ∃ element, elementGindex preset index = .ok element ∧ field.concat element = .ok g := by
  simp only [commitmentGindex, bind_eq_ok_iff, fieldGindex_eq, Except.ok.injEq, exists_eq_left']

theorem depth_elementGindex (helement : elementGindex preset index = .ok element) :
    element.depth = listDepth preset + 1 := by
  obtain ⟨data, slot, htwo, hslot, hconcat⟩ := elementGindex_eq_ok_iff.mp helement
  rw [Gindex.depth_of_concat hconcat, Gindex.depth_of_toNat_eq_two htwo,
    (Gindex.ofSlot_eq_ok_iff.mp hslot).1, Nat.add_comm]

theorem depth_commitmentGindex (hgindex : commitmentGindex preset index = .ok g) :
    g.depth = preset.expectedInclusionDepth := by
  obtain ⟨element, helement, hconcat⟩ := commitmentGindex_eq_ok_iff.mp hgindex
  have hfield : field.depth = BodyTree.depth := rfl
  rw [Gindex.depth_of_concat hconcat, depth_elementGindex helement, hfield, Nat.add_comm]
  rfl

theorem exists_elementGindex (hindex : index < 2 ^ listDepth preset)
    (hdepth : listDepth preset < maxDepth) :
    ∃ element, elementGindex preset index = .ok element := by
  obtain ⟨slot, hslot⟩ := Gindex.exists_ofSlot (Nat.le_of_lt hdepth) hindex
  obtain ⟨hslotDepth, -⟩ := Gindex.ofSlot_eq_ok_iff.mp hslot
  let data : Gindex := ⟨2, by decide, by decide⟩
  have hdata : data.depth = 1 := Gindex.depth_of_toNat_eq_two rfl
  obtain ⟨element, hconcat⟩ : ∃ element, data.concat slot = .ok element :=
    Gindex.exists_concat (by omega)
  exact ⟨element, elementGindex_eq_ok_iff.mpr ⟨data, slot, rfl, hslot, hconcat⟩⟩

theorem elementGindex_of_deep (hindex : index < 2 ^ listDepth preset)
    (hdeep : maxDepth ≤ listDepth preset) :
    ∃ depth, elementGindex preset index = .error (.tooDeep depth) := by
  have hsteps : elementGindex preset index = (do
      let slot ← Gindex.ofSlot index (listDepth preset)
      Gindex.concat ⟨2, by decide, by decide⟩ slot) := rfl
  rw [hsteps]
  by_cases hlist : maxDepth < listDepth preset
  · rw [Gindex.ofSlot_of_deep hlist]
    exact ⟨_, rfl⟩
  · obtain ⟨slot, hslot⟩ := Gindex.exists_ofSlot (Nat.le_of_not_lt hlist) hindex
    rw [hslot]
    refine ⟨_, Gindex.concat_of_deep ?_⟩
    rw [Gindex.depth_of_toNat_eq_two rfl, (Gindex.ofSlot_eq_ok_iff.mp hslot).1]
    omega

theorem exists_commitmentGindex (hindex : index < 2 ^ listDepth preset)
    (hdepth : preset.expectedInclusionDepth ≤ maxDepth) :
    ∃ g, commitmentGindex preset index = .ok g := by
  have hsum : preset.expectedInclusionDepth = listDepth preset + 1 + BodyTree.depth := rfl
  have hfield : field.depth = BodyTree.depth := rfl
  obtain ⟨element, helement⟩ := exists_elementGindex hindex (by omega)
  obtain ⟨g, hg⟩ : ∃ g, field.concat element = .ok g := by
    apply Gindex.exists_concat
    rw [depth_elementGindex helement]
    omega
  exact ⟨g, commitmentGindex_eq_ok_iff.mpr ⟨element, helement, hg⟩⟩

theorem commitmentGindex_of_deep (hindex : index < 2 ^ listDepth preset)
    (hdepth : maxDepth < preset.expectedInclusionDepth) :
    ∃ depth, commitmentGindex preset index = .error (.tooDeep depth) := by
  have hsum : preset.expectedInclusionDepth = listDepth preset + 1 + BodyTree.depth := rfl
  have hfield : field.depth = BodyTree.depth := rfl
  rw [commitmentGindex, fieldGindex_eq]
  by_cases hlist : maxDepth ≤ listDepth preset
  · obtain ⟨depth, helement⟩ := elementGindex_of_deep hindex hlist
    exact ⟨depth, by rw [helement]; rfl⟩
  · obtain ⟨element, helement⟩ := exists_elementGindex hindex (Nat.lt_of_not_le hlist)
    have hdeep : maxDepth < field.depth + element.depth := by
      rw [depth_elementGindex helement]
      omega
    exact ⟨_, by rw [helement]; exact Gindex.concat_of_deep hdeep⟩

/-- As many commitments as leave room for the body above them. -/
theorem expectedInclusionDepth_le_iff :
    preset.expectedInclusionDepth ≤ maxDepth ↔
      preset.maxBlobCommitmentsPerBlock.toNat ≤ 2 ^ 58 := by
  rw [← coverDepth_le_iff]
  unfold Preset.expectedInclusionDepth BodyTree.depth maxDepth
  omega

end Gindices

section Branch

variable {index : Nat} {element g : Gindex}

/-- The branch of a commitment in the list of them. -/
def listBranch (h : HashFunction) (preset : Preset) (body : BlockBody) (index : Nat) :
    List Root :=
  Merkle.siblings h (body.commitmentRoots h) 0 (listDepth preset) index
    ++ [Merkle.countRoot body.blobKzgCommitments.items.length]

/-- The branch of the list in the body. -/
def bodyBranch (h : HashFunction) (preset : Preset) (body : BlockBody) : List Root :=
  Merkle.siblings h (body.fields h preset) 0 BodyTree.depth BodyTree.commitmentsField

/-- The branch of a place in the list, whether or not there is a commitment in that place. -/
def branch (h : HashFunction) (preset : Preset) (body : BlockBody) (index : Nat) : List Root :=
  listBranch h preset body index ++ bodyBranch h preset body

theorem length_listBranch :
    (listBranch h preset body index).length = listDepth preset + 1 := by
  rw [listBranch, List.length_append, Merkle.length_siblings, List.length_singleton]

theorem length_branch :
    (branch h preset body index).length = preset.expectedInclusionDepth := by
  rw [branch, List.length_append, length_listBranch, bodyBranch, Merkle.length_siblings]
  rfl

theorem subtreeRoot_commitment {commitment : KzgCommitment}
    (hget : body.blobKzgCommitments.items[index]? = some commitment) :
    Merkle.subtreeRoot h (body.commitmentRoots h) 0 index = commitmentRoot h commitment := by
  apply Merkle.subtreeRoot_leaf
  rw [BlockBody.commitmentRoots, List.getElem?_map, hget, Option.map_some]

theorem climb_listBranch (helement : elementGindex preset index = .ok element) :
    Merkle.climb h element.toNat (Merkle.subtreeRoot h (body.commitmentRoots h) 0 index)
      (listBranch h preset body index) = body.commitmentsRoot h preset := by
  obtain ⟨data, slot, htwo, hslot, hconcat⟩ := elementGindex_eq_ok_iff.mp helement
  have hlength : (Merkle.siblings h (body.commitmentRoots h) 0 (listDepth preset)
      index).length = slot.depth := by
    rw [Merkle.length_siblings, (Gindex.ofSlot_eq_ok_iff.mp hslot).1]
  rw [listBranch, Merkle.climb_concat hconcat hlength, Merkle.climb_from_slot hslot, htwo]
  rfl

theorem subtreeRoot_fields :
    Merkle.subtreeRoot h (body.fields h preset) 0 BodyTree.commitmentsField
      = body.commitmentsRoot h preset :=
  Merkle.subtreeRoot_leaf rfl

theorem climb_bodyBranch :
    Merkle.climb h field.toNat (body.commitmentsRoot h preset) (bodyBranch h preset body)
      = Merkle.foldUp h .zero BodyTree.depth (body.fields h preset) := by
  rw [bodyBranch, ← subtreeRoot_fields]
  exact Merkle.climb_from_slot slot_field _ _

theorem climb_branch (hgindex : commitmentGindex preset index = .ok g) :
    Merkle.climb h g.toNat (Merkle.subtreeRoot h (body.commitmentRoots h) 0 index)
        (branch h preset body index)
      = Merkle.foldUp h .zero BodyTree.depth (body.fields h preset) := by
  obtain ⟨element, helement, hconcat⟩ := commitmentGindex_eq_ok_iff.mp hgindex
  have hlength : (listBranch h preset body index).length = element.depth := by
    rw [length_listBranch, depth_elementGindex helement]
  rw [branch, Merkle.climb_concat hconcat hlength, climb_listBranch helement, climb_bodyBranch]

theorem prove_eq (hfits : body.Fits preset) (g : Gindex) :
    Schema.prove h preset body.blobKzgCommitments g
      = ((Layout.of (commitmentsShape preset) (Schema.toValue body.blobKzgCommitments)).branch h
          g).mapError (.reachedFrom g) := by
  have hshape : Schema.shape KzgCommitments preset = (commitmentsShape preset).check := rfl
  rw [Schema.prove, hshape, hfits.check_shape]
  rfl

theorem prove_commitments (hfits : body.Fits preset)
    (hindex : index < body.blobKzgCommitments.items.length)
    (helement : elementGindex preset index = .ok element) :
    Schema.prove h preset body.blobKzgCommitments element
      = .ok (listBranch h preset body index) := by
  obtain ⟨data, slot, htwo, hslot, hconcat⟩ := elementGindex_eq_ok_iff.mp helement
  rw [← length_parts body] at hindex
  have hpart : (parts body)[index]? = some (parts body)[index] := List.getElem?_eq_getElem _
  have hroom := hfits.length_le
  rw [← length_commitmentRoots h] at hroom
  have hdata := Layout.placed_data (roots_parts h body) hroom htwo
    body.blobKzgCommitments.items.length
  have hplaced := (hdata _).trans
    (Layout.placed_slot (roots_parts h body) hroom hpart hslot (parts body)[index]) hconcat
  rw [prove_eq hfits, layout_commitments hfits.length_le, hplaced.branch_place]
  rfl

end Branch

end Inclusion

namespace BlockBody

variable {h : HashFunction} {preset : Preset} {body : BlockBody}

theorem leaves_eq_ok_iff {leaves : List Root} :
    body.leaves h preset = .ok leaves ↔
      body.Fits preset ∧ leaves = body.fields h preset := by
  simp only [BlockBody.leaves, bind_eq_ok_iff, pure_eq_ok_iff,
    Inclusion.hashTreeRoot_commitments_eq_ok_iff]
  constructor
  · rintro ⟨root, ⟨hfits, rfl⟩, rfl⟩
    exact ⟨hfits, rfl⟩
  · rintro ⟨hfits, rfl⟩
    exact ⟨_, ⟨hfits, rfl⟩, rfl⟩

theorem hashTreeRoot_eq_ok_iff {root : Root} :
    body.hashTreeRoot h preset = .ok root ↔
      body.Fits preset ∧ root = Merkle.foldUp h .zero BodyTree.depth (body.fields h preset) := by
  have hmerkleize : Merkle.merkleize h (body.fields h preset) (some BodyTree.fieldCount)
      = .ok (Merkle.foldUp h .zero BodyTree.depth (body.fields h preset)) := by
    rw [Layout.merkleize_of_fits (Nat.le_refl 12), BodyTree.coverDepth_fieldCount]
  rw [BlockBody.hashTreeRoot, bind_eq_ok_iff]
  constructor
  · rintro ⟨leaves, hleaves, hroot⟩
    obtain ⟨hfits, rfl⟩ := leaves_eq_ok_iff.mp hleaves
    rw [hmerkleize] at hroot
    exact ⟨hfits, (Except.ok.inj hroot).symm⟩
  · rintro ⟨hfits, rfl⟩
    exact ⟨_, leaves_eq_ok_iff.mpr ⟨hfits, rfl⟩, hmerkleize⟩

theorem prove_root (hfits : body.Fits preset) :
    Schema.prove h preset body.blobKzgCommitments .root = .ok [] := by
  rw [Inclusion.prove_eq hfits, Layout.branch_root]
  rfl

/-- The walk through the tree of the fields, and on into the commitments. -/
theorem prove_eq_inTree (hfits : body.Fits preset) (g : Gindex) :
    body.prove h preset g
      = Merkle.branchInTree h (body.fields h preset) BodyTree.depth g fun field below =>
          if field = BodyTree.commitmentsField then
            Schema.prove h preset body.blobKzgCommitments below
          else .error (.unreachable g) := by
  have hleaves : body.leaves h preset = .ok (body.fields h preset) :=
    leaves_eq_ok_iff.mpr ⟨hfits, rfl⟩
  rw [BlockBody.prove, hleaves]
  rfl

/-- Below the list, the branches of the body are those of the list with the way up from it. -/
theorem prove_of_concat (hfits : body.Fits preset) {below g : Gindex}
    (hconcat : Inclusion.field.concat below = .ok g) :
    body.prove h preset g
      = (Schema.prove h preset body.blobKzgCommitments below).bind fun inner =>
          .ok (inner ++ Inclusion.bodyBranch h preset body) := by
  have hleaf : BodyTree.commitmentsField < (body.fields h preset).length := Nat.le_refl 12
  rw [prove_eq_inTree hfits, Merkle.branchInTree_of_slot Inclusion.slot_field hconcat hleaf
    (by rw [if_pos rfl, prove_root hfits]), if_pos rfl]
  rfl

theorem prove_field (hfits : body.Fits preset) :
    body.prove h preset Inclusion.field = .ok (Inclusion.bodyBranch h preset body) := by
  rw [prove_of_concat hfits (Gindex.concat_root _), prove_root hfits]
  rfl

/-- The branch of a commitment that there is. -/
theorem prove_commitment (hfits : body.Fits preset) {index : Nat} {g : Gindex}
    (hindex : index < body.blobKzgCommitments.items.length)
    (hgindex : Inclusion.commitmentGindex preset index = .ok g) :
    body.prove h preset g = .ok (Inclusion.branch h preset body index) := by
  obtain ⟨element, helement, hconcat⟩ := Inclusion.commitmentGindex_eq_ok_iff.mp hgindex
  rw [prove_of_concat hfits hconcat, Inclusion.prove_commitments hfits hindex helement]
  rfl

end BlockBody

end SimpleSerialize
