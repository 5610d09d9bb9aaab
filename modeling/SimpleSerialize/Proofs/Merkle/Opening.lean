import SimpleSerialize.Proofs.Merkle.Tree

/-!
A branch and a node belong together if climbing the branch from the node gives the root
(`Merkle.Opens`). The two walks through a tree agree on which places there are, and what they find
there belongs together, whatever stands below the leaves.
-/

namespace SimpleSerialize.Merkle

variable {h : HashFunction}

/-- What two walks to the same place of a tree with a given root come back with. -/
inductive Opens (h : HashFunction) (root : Root) (g : Gindex) :
    Except ProofError (List Root) → Except ProofError Root → Prop
  | found {branch : List Root} {node : Root} (length_branch : branch.length = g.depth)
    (climb_branch : climb h g.toNat node branch = root) : Opens h root g (.ok branch) (.ok node)
  | unreachable (g₁ g₂ : Gindex) :
    Opens h root g (.error (.unreachable g₁)) (.error (.unreachable g₂))

theorem opens_root (root : Root) : Opens h root .root (.ok []) (.ok root) :=
  .found (by simp) rfl

theorem Opens.length_branch {root : Root} {g : Gindex} {branch : List Root}
    {node? : Except ProofError Root} (hopens : Opens h root g (.ok branch) node?) :
    branch.length = g.depth := by
  cases hopens with
  | found hlength _ => exact hlength

/-- Nothing else is found at the root. -/
theorem Opens.eq_root {root node : Root} {branch? : Except ProofError (List Root)}
    (hopens : Opens h root .root branch? (.ok node)) : node = root := by
  cases hopens with
  | found hlength hclimb =>
    rw [Gindex.depth_root, List.length_eq_zero_iff] at hlength
    rwa [hlength, climb] at hclimb

/-- What is found below a node is found from the root above by going on from that node. -/
theorem Opens.above {top below g : Gindex} (hconcat : top.concat below = .ok g) {node root : Root}
    {branch? : Except ProofError (List Root)} {node? : Except ProofError Root}
    (hbelow : Opens h node below branch? node?) {outer : List Root}
    (hlength : outer.length = top.depth) (hclimb : climb h top.toNat node outer = root) :
    Opens h root g (branch?.bind fun inner => .ok (inner ++ outer)) node? := by
  cases hbelow with
  | found hinner hnode =>
    refine .found ?_ ?_
    · rw [List.length_append, hinner, hlength, Gindex.depth_of_concat hconcat, Nat.add_comm]
    · rw [climb_concat hconcat hinner, hnode, hclimb]
  | unreachable g₁ g₂ => exact .unreachable g₁ g₂

section InTree

variable {leaves : List Root} {depth : Nat}
  {findBranch : Nat → Gindex → Except ProofError (List Root)}
  {findNode : Nat → Gindex → Except ProofError Root}

/-- The walk to a branch, once it is known where the way leaves the tree. -/
theorem branchInTree_of_concat {top below g : Gindex} (hconcat : top.concat below = .ok g)
    (htop : top.depth = min g.depth depth) (hroot : g ≠ .root) :
    branchInTree h leaves depth g findBranch =
      if leaves.length ≤ top.position * 2 ^ (depth - top.depth) then .error (.unreachable g)
      else (if below = .root then .ok []
        else findBranch (top.position * 2 ^ (depth - top.depth)) below).bind fun inner =>
          .ok (inner ++ siblings h leaves (depth - top.depth) top.depth top.position) := by
  have hmap := map_range'_eq_siblings h leaves
    (top.position * 2 ^ (depth - top.depth)) (depth - top.depth) top.depth
  rw [Nat.mul_div_cancel _ (Nat.two_pow_pos _)] at hmap
  unfold branchInTree
  rw [if_neg hroot, ← htop, ← hmap]
  simp only [Gindex.splitAt_of_concat hconcat]
  by_cases hbelow : below = .root
  · simp only [if_pos hbelow]
    rfl
  · simp only [if_neg hbelow]
    rfl

/-- The walk to a node, once it is known where the way leaves the tree. -/
theorem nodeInTree_of_concat {top below g : Gindex} (hconcat : top.concat below = .ok g)
    (htop : top.depth = min g.depth depth) :
    nodeInTree h leaves depth g findNode =
      if leaves.length ≤ top.position * 2 ^ (depth - top.depth) ∧ g ≠ .root then
        .error (.unreachable g)
      else if below = .root then .ok (subtreeRoot h leaves (depth - top.depth) top.position)
      else findNode (top.position * 2 ^ (depth - top.depth)) below := by
  unfold nodeInTree
  rw [← htop]
  simp only [Gindex.splitAt_of_concat hconcat, ne_eq, ite_not]

/-- A node either is in the tree of the leaves or stands below a slot of it. -/
theorem within_or_below (g : Gindex) (depth : Nat) :
    g.depth ≤ depth ∨ ∃ slot below : Gindex,
      slot.concat below = .ok g ∧ slot.depth = depth ∧ below ≠ .root := by
  by_cases hle : g.depth ≤ depth
  · exact .inl hle
  · have hlevel : depth ≤ g.depth := Nat.le_of_not_le hle
    refine .inr ⟨_, _, Gindex.concat_splitAt hlevel, Gindex.depth_splitAt_fst hlevel, ?_⟩
    rw [ne_eq, Gindex.eq_root_iff, Gindex.depth_splitAt_snd]
    omega

section Within

variable {g : Gindex} (hle : g.depth ≤ depth)

include hle

theorem branchInTree_within (hroot : g ≠ .root) :
    branchInTree h leaves depth g findBranch =
      if leaves.length ≤ g.position * 2 ^ (depth - g.depth) then .error (.unreachable g)
      else .ok (siblings h leaves (depth - g.depth) g.depth g.position) := by
  rw [branchInTree_of_concat (Gindex.concat_root g) (Nat.min_eq_left hle).symm hroot, if_pos rfl]
  rfl

theorem nodeInTree_within :
    nodeInTree h leaves depth g findNode =
      if leaves.length ≤ g.position * 2 ^ (depth - g.depth) ∧ g ≠ .root then
        .error (.unreachable g)
      else .ok (subtreeRoot h leaves (depth - g.depth) g.position) := by
  rw [nodeInTree_of_concat (Gindex.concat_root g) (Nat.min_eq_left hle).symm, if_pos rfl]

end Within

section Below

variable {slot below g : Gindex} (hconcat : slot.concat below = .ok g) (hslot : slot.depth = depth)
  (hbelow : below ≠ .root)

include hconcat hslot hbelow

theorem branchInTree_below :
    branchInTree h leaves depth g findBranch =
      if leaves.length ≤ slot.position then .error (.unreachable g)
      else (findBranch slot.position below).bind fun inner =>
        .ok (inner ++ siblings h leaves 0 depth slot.position) := by
  have hsum := Gindex.depth_of_concat hconcat
  have hdeep := mt Gindex.eq_root_iff.mpr hbelow
  have hroot : g ≠ .root := by
    rw [ne_eq, Gindex.eq_root_iff]
    omega
  rw [branchInTree_of_concat hconcat (by omega) hroot, if_neg hbelow, hslot, Nat.sub_self,
    Nat.pow_zero, Nat.mul_one]

theorem nodeInTree_below :
    nodeInTree h leaves depth g findNode =
      if leaves.length ≤ slot.position then .error (.unreachable g)
      else findNode slot.position below := by
  have hsum := Gindex.depth_of_concat hconcat
  have hdeep := mt Gindex.eq_root_iff.mpr hbelow
  have hroot : g ≠ .root := by
    rw [ne_eq, Gindex.eq_root_iff]
    omega
  rw [nodeInTree_of_concat hconcat (by omega), if_neg hbelow, hslot, Nat.sub_self, Nat.pow_zero,
    Nat.mul_one]
  simp only [ne_eq, hroot, not_false_eq_true, and_true]

theorem branchInTree_below_eq_ok_iff {branch : List Root} :
    branchInTree h leaves depth g findBranch = .ok branch ↔ slot.position < leaves.length ∧
      ∃ inner, findBranch slot.position below = .ok inner ∧
        inner ++ siblings h leaves 0 depth slot.position = branch := by
  rw [branchInTree_below hconcat hslot hbelow, ite_error_eq_ok_iff, Nat.not_le]
  refine and_congr_right fun _ => bind_eq_ok_iff.trans ?_
  simp only [Except.ok.injEq]

theorem nodeInTree_below_eq_ok_iff {node : Root} :
    nodeInTree h leaves depth g findNode = .ok node ↔
      slot.position < leaves.length ∧ findNode slot.position below = .ok node := by
  rw [nodeInTree_below hconcat hslot hbelow, ite_error_eq_ok_iff, Nat.not_le]

end Below

theorem nodeInTree_root :
    nodeInTree h leaves depth .root findNode = .ok (foldUp h .zero depth leaves) := by
  have hconcat : Gindex.root.concat .root = .ok .root := rfl
  rw [nodeInTree_of_concat hconcat (by simp), if_neg (by simp), if_pos rfl]
  rw [Gindex.depth_root, Gindex.position_root, subtreeRoot_position_zero, Nat.sub_zero]

theorem climb_to_root (h : HashFunction) (leaves : List Root) {top : Gindex}
    (htop : top.depth ≤ depth) :
    climb h top.toNat (subtreeRoot h leaves (depth - top.depth) top.position)
      (siblings h leaves (depth - top.depth) top.depth top.position)
      = foldUp h .zero depth leaves := by
  have hpath : top.toNat % 2 ^ top.depth = top.position % 2 ^ top.depth := by
    rw [top.toNat_eq, Nat.add_mod_left]
  rw [climb_siblings hpath, Nat.div_eq_of_lt top.position_lt, Nat.sub_add_cancel htop,
    subtreeRoot_position_zero]

/-- The way up from a slot of the lowest layer, filled or not. -/
theorem climb_from_slot {i : Nat} {slot : Gindex} (hslot : Gindex.ofSlot i depth = .ok slot)
    (h : HashFunction) (leaves : List Root) :
    climb h slot.toNat (subtreeRoot h leaves 0 i) (siblings h leaves 0 depth i)
      = foldUp h .zero depth leaves := by
  obtain ⟨hdepth, rfl⟩ := Gindex.ofSlot_eq_ok_iff.mp hslot
  have hclimb := climb_to_root h leaves (Nat.le_of_eq hdepth)
  rwa [hdepth, Nat.sub_self] at hclimb

/-- The walk to a branch and the walk to a node take the same way through a tree. -/
theorem opens_inTree
    (hdescend : ∀ i leaf below, leaves[i]? = some leaf → below ≠ .root →
      Opens h leaf below (findBranch i below) (findNode i below)) (g : Gindex) :
    Opens h (foldUp h .zero depth leaves) g (branchInTree h leaves depth g findBranch)
      (nodeInTree h leaves depth g findNode) := by
  by_cases hroot : g = .root
  · subst hroot
    rw [nodeInTree_root, branchInTree, if_pos rfl]
    exact opens_root _
  rcases within_or_below g depth with hle | ⟨slot, below, hconcat, hslot, hbelow⟩
  · rw [branchInTree_within hle hroot, nodeInTree_within hle]
    by_cases hpast : leaves.length ≤ g.position * 2 ^ (depth - g.depth)
    · rw [if_pos hpast, if_pos ⟨hpast, hroot⟩]
      exact .unreachable g g
    · rw [if_neg hpast, if_neg (mt And.left hpast)]
      exact .found (length_siblings _ _ _) (climb_to_root h leaves hle)
  · rw [branchInTree_below hconcat hslot hbelow, nodeInTree_below hconcat hslot hbelow]
    split
    · exact .unreachable g g
    · obtain ⟨leaf, hget⟩ : ∃ leaf, leaves[slot.position]? = some leaf :=
        ⟨_, List.getElem?_eq_getElem (by omega)⟩
      have hclimb := climb_to_root h leaves (Nat.le_of_eq hslot)
      rw [hslot, Nat.sub_self, subtreeRoot_leaf hget] at hclimb
      refine (hdescend _ leaf below hget hbelow).above hconcat ?_ hclimb
      rw [length_siblings, hslot]

end InTree

end SimpleSerialize.Merkle
