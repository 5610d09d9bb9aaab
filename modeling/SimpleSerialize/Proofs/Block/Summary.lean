import SimpleSerialize.Proofs.Blob.Inclusion
import SimpleSerialize.Proofs.Merkle.Standing

/-!
Bodies as summaries. A body keeps the roots of the fields in front of the commitments, whatever
shapes these fields have. It has the root of the full body, and all branches but those into a field
that it keeps only the root of.
-/

namespace SimpleSerialize

/-- A node that lies below a field, and the field is not the list of commitments. -/
def BodyTree.BelowRoot (g : Gindex) : Prop :=
  ∃ field below : Gindex, field.depth = depth ∧ field.position < commitmentsField ∧
    below ≠ .root ∧ field.concat below = .ok g

namespace BlockBody

/-- A body with the roots of the fields in front of the last one, and the last field itself. -/
def Summarizes (h : HashFunction) (body : BlockBody) (front : List (String × Shape))
    (v : Value) : Prop :=
  ∃ values : List Value,
    v = .container (values ++ [Schema.toValue body.blobKzgCommitments]) ∧
    (front.zip values).map (fun entry => entry.1.2.hashTreeRoot h entry.2)
      = body.fieldRoots.map .ok

variable {h : HashFunction} {preset : Preset} {body : BlockBody} {front : List (String × Shape)}
  {name : String} {list : Shape} {v : Value} {root : Root}

/-- The fields of a body with a shape for each of them, the commitments last. -/
def fullShape (front : List (String × Shape)) (name : String) (list : Shape) : Shape :=
  .container (front ++ [(name, list)])

theorem of_fullShape {values : List Value} (hlength : values.length = front.length)
    (last : Value) :
    Layout.of (fullShape front name list) (.container (values ++ [last]))
      = .composite ((front.zip values).map (fun entry => .of entry.1.2 entry.2) ++ [.of list last])
          (front.length + 1) none := by
  rw [fullShape, Layout.of_container (by simp [hlength]), List.zip_append hlength.symm,
    List.map_append, List.length_append]
  rfl

/-- A value of a full body is made of a value for each field. -/
theorem exists_values (hroot : (fullShape front name list).hashTreeRoot h v = .ok root) :
    ∃ values last, values.length = front.length ∧ v = .container (values ++ [last]) := by
  have hfits : (Shape.container (front ++ [(name, list)])).Fits v := Shape.fits_of_root hroot
  cases hfits with
  | @container _ all hlength _ =>
    rw [List.length_append, List.length_singleton] at hlength
    rcases List.eq_nil_or_concat' all with rfl | ⟨values, last, rfl⟩
    · cases hlength
    · rw [List.length_append, List.length_singleton] at hlength
      exact ⟨values, last, Nat.add_right_cancel hlength, rfl⟩

/-- Every field of a value with a root has a root. -/
theorem exists_field_roots {values : List Value} {last : Value}
    (hlength : values.length = front.length)
    (hroot : (fullShape front name list).hashTreeRoot h (.container (values ++ [last]))
      = .ok root) :
    (∃ roots : List Root, roots.length = front.length ∧
      (front.zip values).map (fun entry => entry.1.2.hashTreeRoot h entry.2) = roots.map .ok) ∧
    ∃ leaf, list.hashTreeRoot h last = .ok leaf := by
  rw [Shape.hashTreeRoot, of_fullShape hlength, Layout.root_composite_eq_ok_iff] at hroot
  obtain ⟨leaves, hleaves, -⟩ := hroot
  rw [Layout.roots_eq_ok_iff, List.map_append, List.map_map] at hleaves
  obtain ⟨roots, rest, rfl, hroots, hrest⟩ := List.append_eq_map_iff.mp hleaves
  have hcount := congrArg List.length hroots
  simp only [List.length_map, List.length_zip, hlength, Nat.min_self] at hcount
  refine ⟨⟨roots, hcount, hroots.symm⟩, ?_⟩
  cases rest with
  | nil => cases hrest
  | cons leaf rest => exact ⟨leaf, (List.cons.inj hrest).1.symm⟩

theorem exists_fieldRoots {roots : List Root} (hcount : roots.length = BodyTree.commitmentsField)
    (commitments : KzgCommitments) :
    ∃ body : BlockBody, body.fieldRoots = roots ∧ body.blobKzgCommitments = commitments := by
  match roots, hcount with
  | [a, b, c, d, e, f, g, i, j, k, l], _ =>
    exact ⟨⟨a, b, c, d, e, f, g, i, j, k, l, commitments⟩, rfl, rfl⟩

theorem exists_map_toValue {width : Nat} {items : List Value}
    (hfit : ∀ item ∈ items, (Shape.byteVector width).Fits item) :
    ∃ fixed : List (FixedBytes width), fixed.map Schema.toValue = items := by
  induction items with
  | nil => exact ⟨[], rfl⟩
  | cons item items ih =>
    rw [List.forall_mem_cons] at hfit
    obtain ⟨fixed, rfl⟩ := ih hfit.2
    cases hfit.1 with
    | @byteVector _ bs hlength => exact ⟨⟨bs, hlength⟩ :: fixed, rfl⟩

section Summary

variable (hcount : front.length = BodyTree.commitmentsField)
  (hlist : Schema.shape KzgCommitments preset = .ok list)
  (hroot : (fullShape front name list).hashTreeRoot h v = .ok root)

include hcount hlist hroot

/-- The full body has the leaves of the body that summarizes it. -/
theorem exists_parts (hsummary : body.Summarizes h front v) :
    body.Fits preset ∧ ∃ parts,
      Layout.of (fullShape front name list) v = .composite parts BodyTree.fieldCount none ∧
      Layout.roots h parts = .ok (body.fields h preset) ∧
      parts[BodyTree.commitmentsField]?
        = some (.of (Inclusion.commitmentsShape preset)
            (Schema.toValue body.blobKzgCommitments)) := by
  obtain ⟨values, rfl, hroots⟩ := hsummary
  obtain ⟨values', last, hlength, hsame⟩ := exists_values hroot
  obtain ⟨rfl, -⟩ := List.append_inj' (Value.container.inj hsame) rfl
  obtain ⟨-, leaf, hleaf⟩ := exists_field_roots hlength hroot
  have hlast : Schema.hashTreeRoot h preset body.blobKzgCommitments = .ok leaf :=
    Schema.hashTreeRoot_eq_ok_iff.mpr ⟨list, hlist, hleaf⟩
  obtain ⟨hfits, rfl⟩ := Inclusion.hashTreeRoot_commitments_eq_ok_iff.mp hlast
  obtain rfl := Shape.eq_of_check hlist
  have hfront : ((front.zip values).map fun entry => Layout.of entry.1.2 entry.2).length
      = BodyTree.commitmentsField := by
    rw [List.length_map, List.length_zip, hlength, Nat.min_self, hcount]
  refine ⟨hfits, _, (of_fullShape hlength _).trans (by rw [hcount]; rfl), ?_, ?_⟩
  · rw [Layout.roots_eq_ok_iff, List.map_append, List.map_map, BlockBody.fields, List.map_append,
      ← hroots, List.map_singleton, List.map_singleton, ← hleaf]
    rfl
  · rw [List.getElem?_append_right (Nat.le_of_eq hfront), hfront]
    rfl

theorem hashTreeRoot_of_summarizes (hsummary : body.Summarizes h front v) :
    body.hashTreeRoot h preset = .ok root := by
  obtain ⟨hfits, parts, hlayout, hroots, -⟩ := exists_parts hcount hlist hroot hsummary
  rw [Shape.hashTreeRoot, hlayout, Layout.root_composite_eq_ok_iff] at hroot
  obtain ⟨leaves, hleaves, -, rfl⟩ := hroot
  rw [hroots] at hleaves
  cases hleaves
  rw [hashTreeRoot_eq_ok_iff, BodyTree.coverDepth_fieldCount]
  exact ⟨hfits, rfl⟩

/-- Only into the commitments the walks through a body and through the full body go on. -/
theorem prove_iff_of_summarizes (hsummary : body.Summarizes h front v) {g : Gindex}
    (hbelow : ¬BodyTree.BelowRoot g) {branch : List Root} :
    body.prove h preset g = .ok branch ↔
      (fullShape front name list).prove h v g = .ok branch := by
  obtain ⟨hfits, parts, hlayout, hroots, hpart⟩ := exists_parts hcount hlist hroot hsummary
  have hfields : (body.fields h preset).length = BodyTree.fieldCount := rfl
  rw [prove_eq_inTree hfits, Shape.prove, mapError_eq_ok_iff, hlayout,
    Layout.branch_composite hroots, BodyTree.coverDepth_fieldCount]
  apply Merkle.branchInTree_eq_ok_congr
  intro slot below inner hdepth hposition hdown hconcat
  -- Below a leaf there is only one place left where the ways can lead.
  have hfield : slot.position = BodyTree.commitmentsField := by
    by_contra hfield
    refine hbelow ⟨slot, below, hdepth, ?_, hdown, hconcat⟩
    rw [hfields] at hposition
    unfold BodyTree.fieldCount at hposition
    unfold BodyTree.commitmentsField at hfield ⊢
    omega
  rw [hfield, if_pos rfl, Layout.branchOfPart_eq hpart, Inclusion.prove_eq hfits,
    mapError_eq_ok_iff]

/-- Of every full body with a root there is a summary. -/
theorem exists_summary : ∃ body : BlockBody, body.Summarizes h front v := by
  obtain ⟨values, last, hlength, rfl⟩ := exists_values hroot
  obtain ⟨⟨roots, hroots, hfields⟩, leaf, hleaf⟩ := exists_field_roots hlength hroot
  obtain rfl := Shape.eq_of_check hlist
  cases Shape.fits_of_root hleaf with
  | list _ hitems =>
    obtain ⟨commitments, hcommitments⟩ := exists_map_toValue hitems
    obtain ⟨body, hbody, hsame⟩ := exists_fieldRoots (hroots.trans hcount) ⟨commitments⟩
    refine ⟨body, values, ?_, ?_⟩
    · rw [hsame, ← hcommitments]
      rfl
    · rw [hfields, hbody]

/--
A full body is a container of twelve fields, the last of them the list of commitments. It has a
summary, and every summary has its root and all its branches of nodes that are not below one of the
first eleven fields.
-/
theorem summary_stands_for_body :
    (∃ body : BlockBody, body.Summarizes h front v) ∧
    ∀ body : BlockBody, body.Summarizes h front v →
      body.hashTreeRoot h preset = .ok root ∧
      ∀ g, ¬BodyTree.BelowRoot g → ∀ branch,
        body.prove h preset g = .ok branch ↔
          (fullShape front name list).prove h v g = .ok branch := by
  refine ⟨exists_summary hcount hlist hroot, ?_⟩
  intro body hsummary
  refine ⟨hashTreeRoot_of_summarizes hcount hlist hroot hsummary, ?_⟩
  intro g hbelow branch
  exact prove_iff_of_summarizes hcount hlist hroot hsummary hbelow

end Summary

section Tags

/-- Eleven fields that are lists of byte strings. -/
def tagFields : List (String × Shape) :=
  (fieldNames.take BodyTree.commitmentsField).map fun name => (name, .list (.byteList 4) 3)

def taggedBody : Value :=
  .container (List.replicate BodyTree.commitmentsField (.list [.bytes [3], .bytes []])
    ++ [.list [.bytes (List.replicate 48 5)]])

/-- The leaf of the first commitment. -/
def firstCommitmentGindex : Gindex := ⟨864, by decide, by decide⟩

theorem not_belowRoot_firstCommitment : ¬BodyTree.BelowRoot firstCommitmentGindex := by
  rintro ⟨field, below, hdepth, hposition, -, hconcat⟩
  have hsum := Gindex.depth_of_concat hconcat
  have hdiv := Gindex.toNat_div_of_concat hconcat
  have hfirst : firstCommitmentGindex.depth = 9 := by decide +kernel
  have hbelow : below.depth = 5 := by
    rw [hfirst, hdepth] at hsum
    unfold BodyTree.depth at hsum
    omega
  have hnumber : firstCommitmentGindex.toNat = 864 := rfl
  have hfield := field.toNat_eq
  rw [← hdiv, hbelow, hdepth, hnumber] at hfield
  unfold BodyTree.depth at hfield
  unfold BodyTree.commitmentsField at hposition
  omega

theorem summary_stands_for_body_tagged :
    ∃ root branch, ∃ body : BlockBody,
      (fullShape tagFields "blob_kzg_commitments" (Inclusion.commitmentsShape .small)).hashTreeRoot
        .sha256 taggedBody = .ok root ∧
      (fullShape tagFields "blob_kzg_commitments" (Inclusion.commitmentsShape .small)).prove
        .sha256 taggedBody firstCommitmentGindex = .ok branch ∧
      body.Summarizes .sha256 tagFields taggedBody ∧
      body.hashTreeRoot .sha256 .small = .ok root ∧
      body.prove .sha256 .small firstCommitmentGindex = .ok branch := by
  have hcount : tagFields.length = BodyTree.commitmentsField := rfl
  have hlist : Schema.shape KzgCommitments .small = .ok (Inclusion.commitmentsShape .small) := rfl
  have hroot : (fullShape tagFields "blob_kzg_commitments"
    (Inclusion.commitmentsShape .small)).hashTreeRoot .sha256 taggedBody = .ok _ := rfl
  have hbranch : (fullShape tagFields "blob_kzg_commitments"
    (Inclusion.commitmentsShape .small)).prove .sha256 taggedBody firstCommitmentGindex = .ok _ :=
    rfl
  obtain ⟨⟨body, hsummary⟩, hstands⟩ := summary_stands_for_body hcount hlist hroot
  obtain ⟨hsame, hbranches⟩ := hstands body hsummary
  have hproved := (hbranches _ not_belowRoot_firstCommitment _).mpr hbranch
  exact ⟨_, _, body, hroot, hbranch, hsummary, hsame, hproved⟩

end Tags

end BlockBody

end SimpleSerialize
