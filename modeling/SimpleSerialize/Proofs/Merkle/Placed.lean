import SimpleSerialize.Proofs.Merkle.Layout

/-!
Where a layout stands within another (`Layout.Placed`). A part of a layout stands at its slot, below
node 2 if there is a count, and a part of a part stands at the two gindices joined. What stands
there can be replaced without a change of the branch.
-/

namespace SimpleSerialize

namespace Merkle

section InTree

variable {h : HashFunction} {leaves : List Root} {depth i : Nat} {slot below g : Gindex}
  {findBranch : Nat → Gindex → Except ProofError (List Root)}
  {findNode : Nat → Gindex → Except ProofError Root}

/-- The way through a leaf goes on below it. -/
theorem branchInTree_of_slot (hslot : Gindex.ofSlot i depth = .ok slot)
    (hconcat : slot.concat below = .ok g) (hleaf : i < leaves.length)
    (hfind : findBranch i .root = .ok []) :
    branchInTree h leaves depth g findBranch =
      (findBranch i below).bind fun inner => .ok (inner ++ siblings h leaves 0 depth i) := by
  obtain ⟨hdepth, rfl⟩ := Gindex.ofSlot_eq_ok_iff.mp hslot
  have hsum := Gindex.depth_of_concat hconcat
  by_cases hroot : g = .root
  · have hzero := Gindex.eq_root_iff.mp hroot
    have hbelow : below = .root := Gindex.eq_root_iff.mpr (by omega)
    have hempty : depth = 0 := by omega
    rw [hbelow, hfind, hempty, branchInTree, if_pos hroot]
    rfl
  · rw [branchInTree_of_concat hconcat (by omega) hroot, hdepth, Nat.sub_self, Nat.pow_zero,
      Nat.mul_one, if_neg (by omega)]
    by_cases hbelow : below = .root
    · rw [if_pos hbelow, hbelow, hfind]
    · rw [if_neg hbelow]

theorem nodeInTree_of_slot (hslot : Gindex.ofSlot i depth = .ok slot)
    (hconcat : slot.concat below = .ok g) {leaf : Root} (hleaf : leaves[i]? = some leaf)
    (hfind : findNode i .root = .ok leaf) :
    nodeInTree h leaves depth g findNode = findNode i below := by
  obtain ⟨hdepth, rfl⟩ := Gindex.ofSlot_eq_ok_iff.mp hslot
  obtain ⟨hlt, -⟩ := List.getElem?_eq_some_iff.mp hleaf
  have hsum := Gindex.depth_of_concat hconcat
  rw [nodeInTree_of_concat hconcat (by omega), hdepth, Nat.sub_self, Nat.pow_zero, Nat.mul_one,
    if_neg (by omega)]
  by_cases hbelow : below = .root
  · rw [if_pos hbelow, subtreeRoot_leaf hleaf, hbelow, hfind]
  · rw [if_neg hbelow]

theorem climb_of_slot (hslot : Gindex.ofSlot i depth = .ok slot) (hleaf : i < leaves.length)
    (leaf : Root) :
    climb h slot.toNat leaf (siblings h leaves 0 depth i)
      = foldUp h .zero depth (leaves.set i leaf) := by
  have hget : (leaves.set i leaf)[i]? = some leaf := List.getElem?_set_self hleaf
  have hclimb := climb_from_slot hslot h (leaves.set i leaf)
  have hbeside := siblings_set h leaves i 0 depth leaf
  rw [Nat.pow_zero, Nat.div_one] at hbeside
  rwa [subtreeRoot_leaf hget, hbeside] at hclimb

end InTree

end Merkle

namespace Layout

/--
A part stands at a place of a layout with a branch up from there, and the layout with another part
in that place has the root that the branch gives.
-/
structure Placed (h : HashFunction) (layout layout' : Layout) (place : Gindex)
    (part part' : Layout) (outer : List Root) : Prop where
  length_outer : outer.length = place.depth
  branch_eq {below g : Gindex} (hconcat : place.concat below = .ok g) :
    layout.branch h g = (part.branch h below).bind fun inner => .ok (inner ++ outer)
  node_eq {below g : Gindex} (hconcat : place.concat below = .ok g) :
    layout.node h g = part.node h below
  root_eq {leaf : Root} (hroot : part'.root h = .ok leaf) :
    layout'.root h = .ok (Merkle.climb h place.toNat leaf outer)

variable {h : HashFunction}

theorem Placed.self (layout layout' : Layout) :
    Placed h layout layout' .root layout layout' [] where
  length_outer := by rw [Gindex.depth_root, List.length_nil]
  branch_eq hconcat := by
    rw [Gindex.eq_of_root_concat hconcat]
    cases layout.branch h _ with
    | error e => rfl
    | ok branch => simp [Except.bind]
  node_eq hconcat := by rw [Gindex.eq_of_root_concat hconcat]
  root_eq hroot := hroot

/-- A part of a part is a part. -/
theorem Placed.trans {layout layout' part part' sub sub' : Layout} {top below place : Gindex}
    {outer inner : List Root} (houter : Placed h layout layout' top part part' outer)
    (hinner : Placed h part part' below sub sub' inner) (hconcat : top.concat below = .ok place) :
    Placed h layout layout' place sub sub' (inner ++ outer) where
  length_outer := by
    rw [List.length_append, houter.length_outer, hinner.length_outer,
      Gindex.depth_of_concat hconcat, Nat.add_comm]
  branch_eq hrest := by
    obtain ⟨rest, hbelow, htop⟩ := Gindex.concat_assoc hconcat hrest
    rw [houter.branch_eq htop, hinner.branch_eq hbelow]
    cases sub.branch h _ with
    | error e => rfl
    | ok branch => simp [Except.bind]
  node_eq hrest := by
    obtain ⟨rest, hbelow, htop⟩ := Gindex.concat_assoc hconcat hrest
    rw [houter.node_eq htop, hinner.node_eq hbelow]
  root_eq hroot := by
    rw [houter.root_eq (hinner.root_eq hroot), Merkle.climb_concat hconcat hinner.length_outer]

section Place

variable {layout layout' part part' : Layout} {place : Gindex} {outer : List Root} {root : Root}

theorem Placed.branch_place (hplaced : Placed h layout layout' place part part' outer) :
    layout.branch h place = .ok outer := by
  rw [hplaced.branch_eq (Gindex.concat_root place), branch_root]
  rfl

/-- A part of a layout with a root has a root, which the branch of its place leads up from. -/
theorem Placed.exists_root (hplaced : Placed h layout layout' place part part' outer)
    (hroot : layout.root h = .ok root) :
    ∃ leaf, part.root h = .ok leaf ∧ Merkle.climb h place.toNat leaf outer = root := by
  have hopens := opens layout hroot place
  rw [hplaced.branch_place, hplaced.node_eq (Gindex.concat_root place), node_root] at hopens
  generalize part.root h = leaf? at hopens ⊢
  cases leaf? with
  | error e => cases hopens
  | ok leaf =>
    cases hopens with
    | found _ hclimb => exact ⟨leaf, rfl, hclimb⟩

end Place

section Composite

variable {parts : List Layout} {leaves : List Root} {capacity : Nat}

theorem branch_composite (hroots : roots h parts = .ok leaves) (g : Gindex) :
    (composite parts capacity none).branch h g =
      Merkle.branchInTree h leaves (coverDepth capacity) g fun i below =>
        branchOfPart h parts i below := by
  rw [branch, hroots]
  by_cases hg : g = .root
  · rw [if_pos hg, Merkle.branchInTree, if_pos hg]
  · rw [if_neg hg]
    rfl

theorem node_composite (hroots : roots h parts = .ok leaves) (hfits : leaves.length ≤ capacity)
    (g : Gindex) :
    (composite parts capacity none).node h g =
      Merkle.nodeInTree h leaves (coverDepth capacity) g fun i below =>
        nodeOfPart h parts i below := by
  by_cases hg : g = .root
  · have hroot : (composite parts capacity none).root h = .ok _ :=
      root_composite_eq_ok_iff.mpr ⟨leaves, hroots, hfits, rfl⟩
    rw [hg, node_root, hroot, Merkle.nodeInTree_root]
    rfl
  · rw [node, hroots, if_neg hg]
    rfl

/-- Beside a count, the parts stand under node 2. -/
theorem placed_data (hroots : roots h parts = .ok leaves) (hfits : leaves.length ≤ capacity)
    {two : Gindex} (htwo : two.toNat = 2) (count : Nat) (parts' : List Layout) :
    Placed h (composite parts capacity (some count)) (composite parts' capacity (some count)) two
      (composite parts capacity none) (composite parts' capacity none)
      [Merkle.countRoot count] where
  length_outer := (Gindex.depth_of_toNat_eq_two htwo).symm
  branch_eq {below g} hconcat := by
    have hdepth := Gindex.depth_of_toNat_eq_two htwo
    have hg : g ≠ .root := Gindex.ne_root_of_concat hconcat (by omega)
    rw [branch, if_neg hg, hroots, branchOver_of_concat hconcat htwo, branch_composite hroots]
  node_eq {below g} hconcat := by
    have hdepth := Gindex.depth_of_toNat_eq_two htwo
    have hg : g ≠ .root := Gindex.ne_root_of_concat hconcat (by omega)
    rw [node, if_neg hg, hroots, nodeOver_of_concat hconcat htwo hfits,
      node_composite hroots hfits]
  root_eq hroot := by
    obtain ⟨leaves', hroots', hfits', rfl⟩ := root_composite_eq_ok_iff.mp hroot
    rw [htwo]
    exact root_composite_eq_ok_iff.mpr ⟨leaves', hroots', hfits', rfl⟩

/-- A part stands at its slot. -/
theorem placed_slot (hroots : roots h parts = .ok leaves) (hfits : leaves.length ≤ capacity)
    {i : Nat} {part : Layout} (hpart : parts[i]? = some part) {slot : Gindex}
    (hslot : Gindex.ofSlot i (coverDepth capacity) = .ok slot) (part' : Layout) :
    Placed h (composite parts capacity none) (composite (parts.set i part') capacity none) slot
      part part' (Merkle.siblings h leaves 0 (coverDepth capacity) i) where
  length_outer := by
    rw [Merkle.length_siblings, (Gindex.ofSlot_eq_ok_iff.mp hslot).1]
  branch_eq hconcat := by
    obtain ⟨leaf, hleaf, -⟩ := root_of_getElem? hroots hpart
    obtain ⟨hlt, -⟩ := List.getElem?_eq_some_iff.mp hleaf
    have hfind : branchOfPart h parts i .root = .ok [] := by
      rw [branchOfPart_eq hpart, branch_root]
    rw [branch_composite hroots, Merkle.branchInTree_of_slot hslot hconcat hlt hfind,
      branchOfPart_eq hpart]
  node_eq hconcat := by
    obtain ⟨leaf, hleaf, hroot⟩ := root_of_getElem? hroots hpart
    have hfind : nodeOfPart h parts i .root = .ok leaf := by
      rw [nodeOfPart_eq hpart, node_root, hroot]
      rfl
    rw [node_composite hroots hfits, Merkle.nodeInTree_of_slot hslot hconcat hleaf hfind,
      nodeOfPart_eq hpart]
  root_eq hroot := by
    obtain ⟨leaf, hleaf, -⟩ := root_of_getElem? hroots hpart
    obtain ⟨hlt, -⟩ := List.getElem?_eq_some_iff.mp hleaf
    rw [Merkle.climb_of_slot hslot hlt]
    refine root_composite_eq_ok_iff.mpr ⟨_, roots_set hroots hroot, ?_, rfl⟩
    rwa [List.length_set]

end Composite

end Layout

end SimpleSerialize
