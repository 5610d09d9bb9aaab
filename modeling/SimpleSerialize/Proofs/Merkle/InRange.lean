import SimpleSerialize.Proofs.Merkle.Rooted
import SimpleSerialize.Proofs.Merkle.Subtrees
import SimpleSerialize.Proofs.Shape.ChunkLimit

/-!
Walks stay in range. No layout of a value of an accepted shape has room for more leaves than a tree
of 62 levels holds, nor has any below it (`Layout.withinReach_of`). A walk in such a tree finds with
words what it finds with numbers, so that no step of it overruns
(`Shape.tree_arithmetic_in_range`).
-/

namespace SimpleSerialize

namespace Ranged

open Merkle

variable {α β : Type} {h : HashFunction} {leaves : List Root} {depth : Nat} {g : Gindex}

/-- A level of a tree is even in width, so the place beside the last one is on it too. -/
theorem beside_lt {position levels : Nat} (hposition : position < 2 ^ (levels + 1)) :
    beside position < 2 ^ (levels + 1) := by
  rw [Nat.pow_succ] at hposition ⊢
  unfold beside
  split <;> omega

theorem width_le (hdepth : depth < maxDepth) : 2 ^ depth ≤ ShiftRange.tree.result :=
  Nat.pow_le_pow_right (by decide) (Nat.le_pred_of_lt hdepth)

/-- The first slot below a node of a level. -/
theorem slot_lt {level position : Nat} (hlevel : level ≤ depth) (hposition : position < 2 ^ level) :
    position * 2 ^ (depth - level) < 2 ^ depth :=
  calc position * 2 ^ (depth - level)
      < 2 ^ level * 2 ^ (depth - level) :=
        Nat.mul_lt_mul_of_pos_right hposition (Nat.two_pow_pos _)
    _ = 2 ^ depth := by rw [← Nat.pow_add, Nat.add_sub_cancel' hlevel]

/-- Where a subtree starts that is on a level of a tree. -/
theorem start_le {height position : Nat} (hheight : height ≤ depth) (hdepth : depth < maxDepth)
    (hposition : position < 2 ^ (depth - height)) :
    position * 2 ^ height ≤ ShiftRange.tree.result := by
  have hslot := slot_lt (Nat.sub_le depth height) hposition
  rw [Nat.sub_sub_self hheight] at hslot
  exact Nat.le_trans (Nat.le_of_lt hslot) (width_le hdepth)

section Sibling

variable {leaf height : Nat} (hdepth : depth < maxDepth) (hleaf : leaf < 2 ^ depth)

include hdepth hleaf

/-- One step up the branch of a leaf. -/
theorem sibling_eq (hheight : height < depth) :
    (do
      let position ← shiftRight .tree leaf height
      Ranged.subtreeRoot h leaves height (position ^^^ 1) : Ranged Root)
      = .ok (Merkle.subtreeRoot h leaves height (beside (leaf / 2 ^ height))) := by
  obtain ⟨levels, hlevels⟩ : ∃ levels, depth - height = levels + 1 := ⟨depth - height - 1, by omega⟩
  have hshift : height ≤ ShiftRange.tree.amount := Nat.le_pred_of_lt (Nat.lt_trans hheight hdepth)
  have hword : leaf ≤ ShiftRange.tree.result :=
    Nat.le_trans (Nat.le_of_lt hleaf) (width_le hdepth)
  have hposition : leaf / 2 ^ height < 2 ^ (depth - height) := by
    rw [Nat.div_lt_iff_lt_mul (Nat.two_pow_pos height), ← Nat.pow_add,
      Nat.sub_add_cancel (Nat.le_of_lt hheight)]
    exact hleaf
  have hbeside : beside (leaf / 2 ^ height) < 2 ^ (depth - height) := by
    rw [hlevels] at hposition ⊢
    exact beside_lt hposition
  have hstart := start_le (Nat.le_of_lt hheight) hdepth hbeside
  rw [shiftRight_of_le hshift hword, ok_bind, xor_one_eq_beside]
  exact subtreeRoot_eq h leaves (Nat.lt_trans hheight hdepth) hstart

theorem siblings_eq {level : Nat} (hlevel : level ≤ depth) :
    ((List.range' (depth - level) level).mapM fun height => do
      let position ← shiftRight .tree leaf height
      Ranged.subtreeRoot h leaves height (position ^^^ 1) : Ranged (List Root))
      = .ok ((List.range' (depth - level) level).map fun height =>
          Merkle.subtreeRoot h leaves height (beside (leaf / 2 ^ height))) := by
  rw [mapM_eq_ok_iff, List.map_map]
  apply List.map_congr_left
  intro height hheight
  obtain ⟨i, hi, rfl⟩ := List.mem_range'.mp hheight
  exact sibling_eq hdepth hleaf (by omega)

end Sibling

section Walks

variable (hdepth : depth < maxDepth) (g : Gindex)

include hdepth

/-- The leaf that a walk starts from, or the first one below the node it looks for. -/
theorem slot_eq :
    shiftLeft .tree (g.splitAt (min g.depth depth)).1.position (depth - min g.depth depth)
      = .ok ((g.splitAt (min g.depth depth)).1.position * 2 ^ (depth - min g.depth depth)) ∧
    (g.splitAt (min g.depth depth)).1.position * 2 ^ (depth - min g.depth depth) < 2 ^ depth := by
  have hposition := (g.splitAt (min g.depth depth)).1.position_lt
  rw [Gindex.depth_splitAt_fst (Nat.min_le_left _ _)] at hposition
  have hslot := slot_lt (Nat.min_le_right _ _) hposition
  refine ⟨shiftLeft_of_le ?_ (Nat.le_trans (Nat.le_of_lt hslot) (width_le hdepth)), hslot⟩
  exact Nat.le_trans (Nat.sub_le _ _) (Nat.le_pred_of_lt hdepth)

theorem branchInTree_eq {descend : Nat → Gindex → Except ProofError (List Root)}
    {descend' : Nat → Gindex → Ranged (List Root)}
    (hdescend : ∀ i below, descend' i below = ofExcept (descend i below)) :
    Ranged.branchInTree h leaves depth g descend'
      = ofExcept (Merkle.branchInTree h leaves depth g descend) := by
  obtain ⟨hslot, hlt⟩ := slot_eq hdepth g
  unfold Ranged.branchInTree Merkle.branchInTree
  by_cases hroot : g = .root
  · rw [if_pos hroot, if_pos hroot]
    rfl
  · simp only [if_neg hroot, depth_eq, ok_bind, splitAt_eq (Nat.min_le_left g.depth depth),
      sub_of_le (Nat.min_le_right g.depth depth), position_eq, hslot, hdescend,
      siblings_eq hdepth hlt (Nat.min_le_right g.depth depth)]
    split
    · rfl
    · split
      · rfl
      · rw [ofExcept_bind]
        rfl

theorem nodeInTree_eq {descend : Nat → Gindex → Except ProofError Root}
    {descend' : Nat → Gindex → Ranged Root}
    (hdescend : ∀ i below, descend' i below = ofExcept (descend i below)) :
    Ranged.nodeInTree h leaves depth g descend'
      = ofExcept (Merkle.nodeInTree h leaves depth g descend) := by
  obtain ⟨hslot, hlt⟩ := slot_eq hdepth g
  have hposition := (g.splitAt (min g.depth depth)).1.position_lt
  rw [Gindex.depth_splitAt_fst (Nat.min_le_left _ _)] at hposition
  have hstart : (g.splitAt (min g.depth depth)).1.position * 2 ^ (depth - min g.depth depth)
      ≤ ShiftRange.tree.result :=
    start_le (Nat.sub_le _ _) hdepth (by rwa [Nat.sub_sub_self (Nat.min_le_right _ _)])
  have hheight : depth - min g.depth depth < maxDepth :=
    Nat.lt_of_le_of_lt (Nat.sub_le _ _) hdepth
  unfold Ranged.nodeInTree Merkle.nodeInTree
  simp only [depth_eq, ok_bind, splitAt_eq (Nat.min_le_left g.depth depth),
    sub_of_le (Nat.min_le_right g.depth depth), position_eq, hslot, hdescend,
    subtreeRoot_eq h leaves hheight hstart]
  split
  · rfl
  · split
    · rfl
    · rfl

end Walks

end Ranged

namespace Layout

open Ranged

variable {h : HashFunction} {leaves : List Root} {capacity : Nat} {count? : Option Nat} {g : Gindex}

section Over

variable (leaves? : Except FitError (List Root)) (count? : Option Nat)
  (hcapacity : capacity ≤ 2 ^ (maxDepth - 1))

include hcapacity

theorem toNat_capacity : (UInt64.ofNat capacity).toNat = capacity := by
  rw [UInt64.toNat_ofNat']
  exact Nat.mod_eq_of_lt (Nat.lt_of_le_of_lt hcapacity (by decide))

/-- The depth of the tree of a layout, as it is found in a walk. -/
theorem coverDepth_capacity :
    Ranged.coverDepth (UInt64.ofNat capacity) = .ok (SimpleSerialize.coverDepth capacity) ∧
      SimpleSerialize.coverDepth capacity < maxDepth := by
  refine ⟨?_, Nat.lt_succ_of_le (coverDepth_le_iff.mpr hcapacity)⟩
  rw [coverDepth_eq, toNat_capacity hcapacity]

theorem merkleizeOver_eq :
    (do Ranged.merkleize h (← ofFit leaves?) (UInt64.ofNat capacity) : Ranged Root)
      = ofFit (do Merkle.merkleize h (← leaves?) (some capacity)) := by
  cases leaves? with
  | error e => rfl
  | ok leaves =>
    change Ranged.merkleize h leaves (UInt64.ofNat capacity) = _
    rw [merkleize_eq, toNat_capacity hcapacity]
    rfl

section Descent

variable (hroot : g ≠ .root)

include hroot

theorem branchOverRanged_eq {descend : Nat → Gindex → Except ProofError (List Root)}
    {descend' : Nat → Gindex → Ranged (List Root)}
    (hdescend : ∀ i below, descend' i below = ofExcept (descend i below)) :
    branchOverRanged h leaves? capacity count? g descend'
      = ofExcept (branchOver h leaves? capacity count? g descend) := by
  obtain ⟨hcover, hdepth⟩ := coverDepth_capacity hcapacity
  have hlevel : 1 ≤ g.depth := Nat.one_le_iff_ne_zero.mpr (mt Gindex.eq_root_iff.mpr hroot)
  have hwalk (leaves : List Root) (g : Gindex) :
      Ranged.branchInTree h leaves _ g descend'
        = ofExcept (Merkle.branchInTree h leaves _ g descend) :=
    branchInTree_eq hdepth g hdescend
  unfold branchOverRanged branchOver
  cases count? with
  | none =>
    simp only [hcover, ok_bind, hwalk, ofExcept_bind]
    rfl
  | some count =>
    simp only [splitAt_eq hlevel, ok_bind, hcover, hwalk]
    split
    · simp only [ofExcept_bind]
      rfl
    · split
      · rw [← bind_assoc, merkleizeOver_eq leaves? hcapacity, ofExcept_bind]
        rfl
      · rfl

theorem nodeOverRanged_eq {descend : Nat → Gindex → Except ProofError Root}
    {descend' : Nat → Gindex → Ranged Root}
    (hdescend : ∀ i below, descend' i below = ofExcept (descend i below)) :
    nodeOverRanged h leaves? capacity count? g descend'
      = ofExcept (nodeOver h leaves? capacity count? g descend) := by
  obtain ⟨hcover, hdepth⟩ := coverDepth_capacity hcapacity
  have hlevel : 1 ≤ g.depth := Nat.one_le_iff_ne_zero.mpr (mt Gindex.eq_root_iff.mpr hroot)
  have hwalk (leaves : List Root) (g : Gindex) :
      Ranged.nodeInTree h leaves _ g descend' = ofExcept (Merkle.nodeInTree h leaves _ g descend) :=
    nodeInTree_eq hdepth g hdescend
  unfold nodeOverRanged nodeOver
  cases count? with
  | none =>
    simp only [hcover, ok_bind, hwalk, ofExcept_bind]
    rfl
  | some count =>
    simp only [splitAt_eq hlevel, ok_bind, hcover, hwalk]
    split
    · split
      · exact merkleizeOver_eq leaves? hcapacity
      · simp only [ofExcept_bind]
        rfl
    · split <;> rfl

end Descent

end Over

/-- Nothing in the layout has room for more leaves than a tree of 62 levels holds. -/
inductive WithinReach : Layout → Prop
  | packed {chunks : List Root} {capacity : Nat} {count? : Option Nat}
      (hcapacity : capacity ≤ 2 ^ (maxDepth - 1)) : WithinReach (.packed chunks capacity count?)
  | composite {parts : List Layout} {capacity : Nat} {count? : Option Nat}
      (hcapacity : capacity ≤ 2 ^ (maxDepth - 1)) (hparts : ∀ part ∈ parts, WithinReach part) :
      WithinReach (.composite parts capacity count?)
  | misfit (e : FitError) : WithinReach (.misfit e)

theorem branchOfPartRanged_eq {parts : List Layout}
    (hparts : ∀ part ∈ parts, ∀ g, part.branchRanged h g = ofExcept (part.branch h g))
    (i : Nat) (g : Gindex) :
    branchOfPartRanged h parts i g = ofExcept (branchOfPart h parts i g) := by
  induction parts generalizing i with
  | nil =>
    rw [branchOfPartRanged, branchOfPart]
    rfl
  | cons part parts ih =>
    rw [List.forall_mem_cons] at hparts
    cases i with
    | zero =>
      rw [branchOfPartRanged, branchOfPart]
      exact hparts.1 g
    | succ i =>
      rw [branchOfPartRanged, branchOfPart]
      exact ih hparts.2 i

theorem nodeOfPartRanged_eq {parts : List Layout}
    (hparts : ∀ part ∈ parts, ∀ g, part.nodeRanged h g = ofExcept (part.node h g))
    (i : Nat) (g : Gindex) :
    nodeOfPartRanged h parts i g = ofExcept (nodeOfPart h parts i g) := by
  induction parts generalizing i with
  | nil =>
    rw [nodeOfPartRanged, nodeOfPart]
    rfl
  | cons part parts ih =>
    rw [List.forall_mem_cons] at hparts
    cases i with
    | zero =>
      rw [nodeOfPartRanged, nodeOfPart]
      exact hparts.1 g
    | succ i =>
      rw [nodeOfPartRanged, nodeOfPart]
      exact ih hparts.2 i

section Reach

variable {layout : Layout} (hreach : layout.WithinReach) (g : Gindex)

include hreach

/-- No step of a walk overruns, whatever leaves there are and wherever it goes. -/
theorem branchRanged_eq : layout.branchRanged h g = ofExcept (layout.branch h g) := by
  induction hreach generalizing g with
  | packed hcapacity =>
    rw [branchRanged, branch]
    split
    · rfl
    next hroot => exact branchOverRanged_eq _ _ hcapacity hroot fun _ _ => rfl
  | composite hcapacity hparts ih =>
    rw [branchRanged, branch]
    split
    · rfl
    next hroot =>
      exact branchOverRanged_eq _ _ hcapacity hroot (branchOfPartRanged_eq ih)
  | misfit e =>
    rw [branchRanged, branch]
    split <;> rfl

theorem nodeRanged_eq : layout.nodeRanged h g = ofExcept (layout.node h g) := by
  induction hreach generalizing g with
  | packed hcapacity =>
    rw [nodeRanged, node]
    split
    · rfl
    next hroot => exact nodeOverRanged_eq _ _ hcapacity hroot fun _ _ => rfl
  | composite hcapacity hparts ih =>
    rw [nodeRanged, node]
    split
    · rfl
    next hroot => exact nodeOverRanged_eq _ _ hcapacity hroot (nodeOfPartRanged_eq ih)
  | misfit e =>
    rw [nodeRanged, node]
    rfl

end Reach

theorem WithinReach.ofPacked (hcapacity : capacity ≤ 2 ^ (maxDepth - 1))
    (chunks : Except FitError (List Root)) (count? : Option Nat) :
    (Layout.ofPacked chunks capacity count?).WithinReach := by
  cases chunks with
  | ok chunks => exact .packed hcapacity
  | error e => exact .misfit e

theorem WithinReach.ifFits {layout : Layout} (hreach : layout.WithinReach)
    (fits : Except FitError Unit) : (Layout.ifFits fits layout).WithinReach := by
  cases fits with
  | ok => exact hreach
  | error e => exact .misfit e

/-- Elements have room for a leaf each, or for chunks of them, in the tree of their sequence. -/
theorem WithinReach.items {element : Shape}
    (helement : ∀ v, (of element v).WithinReach) (hcapacity : capacity ≤ 2 ^ (maxDepth - 1))
    (items : List Value) (count? : Option Nat) :
    (ofItems element items capacity count?).WithinReach := by
  unfold ofItems
  split
  · exact .ofPacked hcapacity _ _
  · refine .composite hcapacity ?_
    rw [List.forall_mem_map]
    exact fun item _ => helement item

/-- The room of every layout is the chunk limit of a shape that was accepted. -/
theorem withinReach_of {shape : Shape} (hbuilt : shape.Built) (v : Value) :
    (of shape v).WithinReach := by
  induction hbuilt generalizing v with
  | @intro shape own _ ih =>
    have hcapacity := Shape.chunkLimit_le own
    cases shape with
    | scalar kind =>
      rw [of]
      exact .ofPacked hcapacity _ _
    | byteVector n | byteList n | bitvector n | bitlist n =>
      unfold of
      split
      · exact .ifFits (.packed hcapacity) _
      · exact .misfit _
    | vector element n | list element n =>
      rw [Shape.parts] at ih
      rw [List.forall_mem_singleton] at ih
      unfold of
      split
      · exact .ifFits (.items ih hcapacity _ _) _
      · exact .misfit _
    | container fields =>
      rw [Shape.parts_container, List.forall_mem_map] at ih
      unfold of
      split
      · refine .ifFits (.composite hcapacity ?_) _
        rw [ofFields_eq_map_zip, List.forall_mem_map]
        exact fun entry hentry => ih entry.1 (List.of_mem_zip hentry).1 entry.2
      · exact .misfit _

end Layout

namespace Shape

section Walks

variable {shape : Shape} (hbuilt : shape.Built) (h : HashFunction) (v : Value) (g : Gindex)

include hbuilt

theorem proveRanged_eq : shape.proveRanged h v g = Ranged.ofExcept (shape.prove h v g) := by
  rw [proveRanged, prove, Layout.branchRanged_eq (Layout.withinReach_of hbuilt v)]
  cases (Layout.of shape v).branch h g <;> rfl

theorem nodeRootRanged_eq :
    shape.nodeRootRanged h v g = Ranged.ofExcept (shape.nodeRoot h v g) := by
  rw [nodeRootRanged, nodeRoot, Layout.nodeRanged_eq (Layout.withinReach_of hbuilt v)]
  cases (Layout.of shape v).node h g <;> rfl

end Walks

/--
The tree of an accepted shape is no deeper than gindices reach. The number of its leaves, computed
in two words, fits in one and is between 1 and `2 ^ 62`, every leaf has a gindex on the last of at
most 63 levels, and what is found at any gindex, a branch or a node or a refusal, is found without
an overrun.
-/
theorem tree_arithmetic_in_range {shape : Shape} (hbuilt : shape.Built) :
    (shape.chunkLimitWide.toNat = shape.chunkLimit ∧
      shape.chunkLimitWord.toNat = shape.chunkLimit) ∧
    (1 ≤ shape.chunkLimit ∧ shape.chunkLimit ≤ 2 ^ 62) ∧
    shape.treeDepth ≤ 63 ∧
    (∀ i < shape.chunkLimit, ∃ g, shape.leafGindexRanged i = .ok g ∧
      shape.partGindex i = .ok g ∧ g.depth = shape.treeDepth) ∧
    (∀ h v g, shape.proveRanged h v g = Ranged.ofExcept (shape.prove h v g) ∧
      shape.nodeRootRanged h v g = Ranged.ofExcept (shape.nodeRoot h v g)) ∧
    ∀ n : UInt64, ∃ depth, Ranged.coverDepth n = .ok depth ∧
      n.toNat ≤ 2 ^ depth ∧ ∀ depth', n.toNat ≤ 2 ^ depth' → depth ≤ depth' := by
  have hcheck := (everywhere_iff.mp hbuilt).1
  refine ⟨⟨toNat_chunkLimitWide hcheck, toNat_chunkLimitWord hcheck⟩,
    ⟨chunkLimit_pos hcheck, chunkLimit_le hcheck⟩, treeDepth_le hcheck, ?_, ?_,
    Ranged.coverDepth_least⟩
  · intro i hi
    obtain ⟨g, hgindex, hwords, hdepth⟩ := exists_leafGindex hcheck hi
    exact ⟨g, hwords, hgindex, hdepth⟩
  · intro h v g
    exact ⟨proveRanged_eq hbuilt h v g, nodeRootRanged_eq hbuilt h v g⟩

/-- No list of roots may be longer. -/
def longest : Shape := .list .bytes32 (2 ^ 62)

/-- The last leaf is on the last level that gindices reach, and missing from an empty list. -/
theorem tree_arithmetic_in_range_longest :
    longest.Built ∧ longest.chunkLimitWord.toNat = 2 ^ 62 ∧ longest.treeDepth = 63 ∧
      ∃ g, g.toNat = 2 ^ 63 + 2 ^ 62 - 1 ∧ longest.leafGindexRanged (2 ^ 62 - 1) = .ok g ∧
        longest.proveRanged .sha256 (.list []) g = Ranged.refuse (.unreachable g) := by
  have hbuilt : longest.Built := by decide +kernel
  obtain ⟨⟨-, hword⟩, -, -, hleaf, hwalk, -⟩ := tree_arithmetic_in_range hbuilt
  obtain ⟨g, hwords, hgindex, -⟩ := hleaf (2 ^ 62 - 1) (by decide +kernel)
  cases hgindex
  refine ⟨hbuilt, hword, rfl, _, rfl, hwords, ?_⟩
  rw [(hwalk .sha256 (.list []) _).1]
  rfl

end Shape

end SimpleSerialize
