import SimpleSerialize.Proofs.Merkle.Joined

/-!
Trees whose leaves stand for trees of their own. What is below a leaf is asked of two functions, one
for branches and one for nodes. Whatever they are, if their answers prove the leaves then the two
walks prove the root over the leaves, and neither walk asks for anything but what is below the leaf
on its way (`Merkle.walks_prove_root`).
-/

namespace SimpleSerialize

namespace Gindex

variable {depth slot slot' : Nat} {rest rest' g : Gindex}

/-- The first slot of a level below a node, or the one that the way to a deeper node passes. -/
def firstSlot (depth : Nat) (g : Gindex) : Nat :=
  if g.depth ≤ depth then g.position * 2 ^ (depth - g.depth)
  else g.position / 2 ^ (g.depth - depth)

theorem firstSlot_root (depth : Nat) : Gindex.root.firstSlot depth = 0 := by
  rw [firstSlot, depth_root, if_pos (Nat.zero_le depth), position_root, Nat.zero_mul]

/-- A node deeper than the slots of a level, and the rest of the way to it from one of them. -/
structure StandsBelow (g : Gindex) (depth slot : Nat) (rest : Gindex) : Prop where
  deeper : depth < g.depth
  way : ∃ top, ofSlot slot depth = .ok top ∧ top.concat rest = .ok g

theorem exists_standsBelow (hdeeper : depth < g.depth) :
    ∃ rest, g.StandsBelow depth (g.firstSlot depth) rest := by
  have hlevel : depth ≤ g.depth := Nat.le_of_lt hdeeper
  have hconcat := concat_splitAt hlevel
  refine ⟨_, hdeeper, _, ofSlot_eq_ok_iff.mpr ⟨depth_splitAt_fst hlevel, ?_⟩, hconcat⟩
  rw [firstSlot, if_neg (Nat.not_le_of_lt hdeeper), ← position_div_of_concat hconcat,
    depth_splitAt_snd]

theorem StandsBelow.rest_ne_root (hbelow : g.StandsBelow depth slot rest) : rest ≠ .root := by
  obtain ⟨top, hslot, hconcat⟩ := hbelow.way
  have hdepth := depth_of_concat hconcat
  have hdeeper := hbelow.deeper
  rw [(ofSlot_eq_ok_iff.mp hslot).1] at hdepth
  rw [ne_eq, eq_root_iff]
  omega

/-- The way to a node passes one slot of a level and goes on from there in one way. -/
theorem StandsBelow.unique (hbelow : g.StandsBelow depth slot rest)
    (hbelow' : g.StandsBelow depth slot' rest') : slot = slot' ∧ rest = rest' := by
  obtain ⟨top, hslot, hconcat⟩ := hbelow.way
  obtain ⟨top', hslot', hconcat'⟩ := hbelow'.way
  obtain ⟨hdepth, rfl⟩ := ofSlot_eq_ok_iff.mp hslot
  obtain ⟨hdepth', rfl⟩ := ofSlot_eq_ok_iff.mp hslot'
  have hsplit := splitAt_of_concat hconcat
  rw [hdepth, ← hdepth', splitAt_of_concat hconcat', Prod.mk.injEq] at hsplit
  obtain ⟨rfl, rfl⟩ := hsplit
  exact ⟨rfl, rfl⟩

theorem StandsBelow.slot_eq (hbelow : g.StandsBelow depth slot rest) :
    slot = g.firstSlot depth := by
  obtain ⟨rest', hfirst⟩ := exists_standsBelow hbelow.deeper
  exact (hbelow.unique hfirst).1

theorem StandsBelow.ne_root (hbelow : g.StandsBelow depth slot rest) : g ≠ .root := by
  have hdeeper := hbelow.deeper
  rw [ne_eq, eq_root_iff]
  omega

end Gindex

namespace Merkle

variable {h : HashFunction} {leaves : List Root} {depth count i : Nat} {rest g : Gindex}

section Asks

variable {α β : Type} {walk : (Nat → Gindex → Except ProofError α) → Except ProofError β}

/-- A walk that asks for what is at one place below the leaves, and goes by the answer alone. -/
structure AsksFor (walk : (Nat → Gindex → Except ProofError α) → Except ProofError β) (i : Nat)
    (rest : Gindex) : Prop where
  congr : ∀ find find', find i rest = find' i rest → walk find = walk find'
  refused : ∀ find e, find i rest = .error e → walk find = .error e

/-- A walk that ends the same way whatever is below the leaves. -/
def AsksNothing (walk : (Nat → Gindex → Except ProofError α) → Except ProofError β) : Prop :=
  ∀ find find', walk find = walk find'

theorem AsksFor.not_asksNothing (hasks : AsksFor walk i rest) : ¬AsksNothing walk := by
  intro hnothing
  let refuse (length : Nat) : Nat → Gindex → Except ProofError α := fun _ _ =>
    .error (.branchLength length length)
  have hsame := hnothing (refuse 0) (refuse 1)
  rw [hasks.refused (refuse 0) _ rfl, hasks.refused (refuse 1) _ rfl] at hsame
  cases hsame

theorem AsksFor.unique {i' : Nat} {rest' : Gindex} (hasks : AsksFor walk i rest)
    (hasks' : AsksFor walk i' rest') : i' = i ∧ rest' = rest := by
  -- A function that refuses one place in its own way is found out only by asking for that place.
  let find : Nat → Gindex → Except ProofError α := fun j below =>
    if j = i ∧ below = rest then .error (.branchLength 0 0) else .error (.branchLength 1 1)
  have hown : walk find = .error (.branchLength 0 0) := hasks.refused find _ (by simp [find])
  apply Decidable.byContradiction
  intro hother
  have hrefused := hasks'.refused find (.branchLength 1 1) (by simp [find, hother])
  rw [hown] at hrefused
  cases hrefused

theorem asksFor_bind (i : Nat) (rest : Gindex) (goOn : α → Except ProofError β) :
    AsksFor (fun find => (find i rest).bind goOn) i rest where
  congr find find' hsame := by simp only [hsame]
  refused find e hrefused := by simp only [hrefused]; rfl

/-- Where a node stands to the leaves of a tree. -/
inductive Place (count depth : Nat) (g : Gindex) : Prop
  | past (ne_root : g ≠ .root) (past_leaves : count ≤ g.firstSlot depth)
  | within (le_depth : g.depth ≤ depth) (there : g = .root ∨ g.firstSlot depth < count)
  | below {rest : Gindex} (stands_below : g.StandsBelow depth (g.firstSlot depth) rest)
    (slot_lt : g.firstSlot depth < count)

theorem place (count depth : Nat) (g : Gindex) : Place count depth g := by
  by_cases hroot : g = .root
  · exact .within (by rw [hroot, Gindex.depth_root]; exact Nat.zero_le _) (.inl hroot)
  by_cases hpast : count ≤ g.firstSlot depth
  · exact .past hroot hpast
  have hlt := Nat.lt_of_not_le hpast
  by_cases hle : g.depth ≤ depth
  · exact .within hle (.inr hlt)
  · obtain ⟨rest, hbelow⟩ := Gindex.exists_standsBelow (Nat.lt_of_not_le hle)
    exact .below hbelow hlt

/--
How a walk ends: nowhere past the leaves, with `found` down to the leaves, and below a leaf with
what is found there, taken up to the root by `lift`.
-/
structure Ends (count depth : Nat) (g : Gindex) (found : β) (lift : α → β)
    (walk : (Nat → Gindex → Except ProofError α) → Except ProofError β) : Prop where
  past : g ≠ .root → count ≤ g.firstSlot depth → ∀ find, walk find = .error (.unreachable g)
  within : g.depth ≤ depth → g = .root ∨ g.firstSlot depth < count → ∀ find, walk find = .ok found
  below : ∀ i rest, g.StandsBelow depth i rest → i < count →
    ∀ find, walk find = (find i rest).bind fun inner => .ok (lift inner)

/-- A walk asks for what is below the leaf on its way, if its node is deeper than the leaves and the
leaf is there, and for nothing else. -/
structure AsksBelow (count depth : Nat) (g : Gindex)
    (walk : (Nat → Gindex → Except ProofError α) → Except ProofError β) : Prop where
  asksFor_iff : ∀ i rest, AsksFor walk i rest ↔ i < count ∧ g.StandsBelow depth i rest
  asksNothing_iff : AsksNothing walk ↔ ¬∃ i rest, i < count ∧ g.StandsBelow depth i rest

section Ends

variable {found : β} {lift : α → β} (hends : Ends count depth g found lift walk)

include hends

theorem Ends.asksBelow : AsksBelow count depth g walk := by
  have hnothing (hsame : AsksNothing walk)
      (hnone : ∀ i rest, i < count → ¬g.StandsBelow depth i rest) :
      AsksBelow count depth g walk := by
    refine ⟨fun i rest => iff_of_false (fun hasks => hasks.not_asksNothing hsame) ?_,
      iff_of_true hsame ?_⟩
    · rintro ⟨hi, hbelow⟩
      exact hnone i rest hi hbelow
    · rintro ⟨i, rest, hi, hbelow⟩
      exact hnone i rest hi hbelow
  cases place count depth g with
  | past hroot hpast =>
    refine hnothing (fun find find' => ?_) ?_
    · rw [hends.past hroot hpast, hends.past hroot hpast]
    · intro i rest hi hbelow
      rw [hbelow.slot_eq] at hi
      omega
  | within hle hthere =>
    refine hnothing (fun find find' => ?_) ?_
    · rw [hends.within hle hthere, hends.within hle hthere]
    · intro i rest _ hbelow
      exact absurd hbelow.deeper (Nat.not_lt_of_le hle)
  | @below rest hbelow hlt =>
    have hasks : AsksFor walk (g.firstSlot depth) rest := by
      have hwalk : walk = _ := funext (hends.below _ _ hbelow hlt)
      rw [hwalk]
      exact asksFor_bind _ _ _
    refine ⟨fun i rest' => ⟨?_, ?_⟩,
      iff_of_false hasks.not_asksNothing (not_not_intro ⟨_, rest, hlt, hbelow⟩)⟩
    · intro hasks'
      obtain ⟨rfl, rfl⟩ := hasks.unique hasks'
      exact ⟨hlt, hbelow⟩
    · rintro ⟨-, hbelow'⟩
      obtain ⟨rfl, rfl⟩ := hbelow.unique hbelow'
      exact hasks

/-- Something is found wherever there is a leaf, and below a leaf if something is found there. -/
theorem Ends.exists_ok_iff {find : Nat → Gindex → Except ProofError α} :
    (∃ b, walk find = .ok b) ↔ (g = .root ∨ g.firstSlot depth < count) ∧
      ∀ i rest, g.StandsBelow depth i rest → ∃ inner, find i rest = .ok inner := by
  cases place count depth g with
  | past hroot hpast =>
    rw [hends.past hroot hpast]
    simp [hroot, Nat.not_lt_of_le hpast]
  | within hle hthere =>
    rw [hends.within hle hthere]
    refine iff_of_true ⟨found, rfl⟩ ⟨hthere, ?_⟩
    intro i rest hbelow
    exact absurd hbelow.deeper (Nat.not_lt_of_le hle)
  | @below rest hbelow hlt =>
    rw [hends.below _ _ hbelow hlt, exists_bind_ok_eq_ok_iff, and_iff_right (.inr hlt)]
    constructor
    · intro hinner i rest' hbelow'
      obtain ⟨rfl, rfl⟩ := hbelow.unique hbelow'
      exact hinner
    · intro hall
      exact hall _ _ hbelow

end Ends

end Asks

section InTree

theorem ends_branchInTree (h : HashFunction) (leaves : List Root) (depth : Nat) (g : Gindex) :
    Ends leaves.length depth g (siblings h leaves (depth - g.depth) g.depth g.position)
      (· ++ siblings h leaves 0 depth (g.firstSlot depth)) (branchInTree h leaves depth g) where
  past hroot hpast find := by
    by_cases hle : g.depth ≤ depth
    · rw [Gindex.firstSlot, if_pos hle] at hpast
      rw [branchInTree_within hle hroot, if_pos hpast]
    · obtain ⟨rest, hbelow⟩ := Gindex.exists_standsBelow (Nat.lt_of_not_le hle)
      obtain ⟨top, hslot, hconcat⟩ := hbelow.way
      obtain ⟨hdepth, hposition⟩ := Gindex.ofSlot_eq_ok_iff.mp hslot
      rw [branchInTree_below hconcat hdepth hbelow.rest_ne_root, hposition, if_pos hpast]
  within hle hthere find := by
    by_cases hroot : g = .root
    · subst hroot
      rw [branchInTree, if_pos rfl]
      rfl
    · have hlt := hthere.resolve_left hroot
      rw [Gindex.firstSlot, if_pos hle] at hlt
      rw [branchInTree_within hle hroot, if_neg (Nat.not_le_of_lt hlt)]
  below i rest hbelow hi find := by
    rw [← hbelow.slot_eq]
    obtain ⟨top, hslot, hconcat⟩ := hbelow.way
    obtain ⟨hdepth, rfl⟩ := Gindex.ofSlot_eq_ok_iff.mp hslot
    rw [branchInTree_below hconcat hdepth hbelow.rest_ne_root, if_neg (Nat.not_le_of_lt hi)]

theorem ends_nodeInTree (h : HashFunction) (leaves : List Root) (depth : Nat) (g : Gindex) :
    Ends leaves.length depth g (subtreeRoot h leaves (depth - g.depth) g.position) id
      (nodeInTree h leaves depth g) where
  past hroot hpast find := by
    by_cases hle : g.depth ≤ depth
    · rw [Gindex.firstSlot, if_pos hle] at hpast
      rw [nodeInTree_within hle, if_pos ⟨hpast, hroot⟩]
    · obtain ⟨rest, hbelow⟩ := Gindex.exists_standsBelow (Nat.lt_of_not_le hle)
      obtain ⟨top, hslot, hconcat⟩ := hbelow.way
      obtain ⟨hdepth, hposition⟩ := Gindex.ofSlot_eq_ok_iff.mp hslot
      rw [nodeInTree_below hconcat hdepth hbelow.rest_ne_root, hposition, if_pos hpast]
  within hle hthere find := by
    rw [nodeInTree_within hle, if_neg]
    rintro ⟨hpast, hroot⟩
    have hlt := hthere.resolve_left hroot
    rw [Gindex.firstSlot, if_pos hle] at hlt
    omega
  below i rest hbelow hi find := by
    obtain ⟨top, hslot, hconcat⟩ := hbelow.way
    obtain ⟨hdepth, rfl⟩ := Gindex.ofSlot_eq_ok_iff.mp hslot
    rw [nodeInTree_below hconcat hdepth hbelow.rest_ne_root, if_neg (Nat.not_le_of_lt hi)]
    exact (bind_pure _).symm

/-- Wherever something stands below a leaf, its branch and its node are found and give the leaf. -/
structure ProvesLeaves (h : HashFunction) (leaves : List Root)
    (findBranch : Nat → Gindex → Except ProofError (List Root))
    (findNode : Nat → Gindex → Except ProofError Root) : Prop where
  together : ∀ i rest, i < leaves.length → rest ≠ .root →
    ((∃ branch, findBranch i rest = .ok branch) ↔ ∃ node, findNode i rest = .ok node)
  proves : ∀ i rest leaf branch node, leaves[i]? = some leaf → rest ≠ .root →
    findBranch i rest = .ok branch → findNode i rest = .ok node →
    rootFrom h branch rest node = .ok leaf

variable {findBranch : Nat → Gindex → Except ProofError (List Root)}
  {findNode : Nat → Gindex → Except ProofError Root}
  (hleaves : ProvesLeaves h leaves findBranch findNode)

include hleaves

theorem exists_branchInTree_iff_node :
    (∃ branch, branchInTree h leaves depth g findBranch = .ok branch) ↔
      ∃ node, nodeInTree h leaves depth g findNode = .ok node := by
  rw [(ends_branchInTree h leaves depth g).exists_ok_iff,
    (ends_nodeInTree h leaves depth g).exists_ok_iff]
  refine and_congr_right fun hthere => forall_congr' fun i => forall_congr' fun rest => ?_
  refine imp_congr_right fun hbelow => hleaves.together i rest ?_ hbelow.rest_ne_root
  rw [hbelow.slot_eq]
  exact hthere.resolve_left hbelow.ne_root

theorem climb_inTree {branch : List Root} {node : Root}
    (hbranch : branchInTree h leaves depth g findBranch = .ok branch)
    (hnode : nodeInTree h leaves depth g findNode = .ok node) :
    branch.length = g.depth ∧ climb h g.toNat node branch = foldUp h .zero depth leaves := by
  have hends := ends_branchInTree h leaves depth g
  have hends' := ends_nodeInTree h leaves depth g
  cases place leaves.length depth g with
  | past hroot hpast =>
    rw [hends.past hroot hpast] at hbranch
    cases hbranch
  | within hle hthere =>
    rw [hends.within hle hthere] at hbranch
    rw [hends'.within hle hthere] at hnode
    cases hbranch
    cases hnode
    exact ⟨length_siblings _ _ _, climb_to_root h leaves hle⟩
  | @below rest hbelow hlt =>
    rw [hends.below _ _ hbelow hlt] at hbranch
    rw [hends'.below _ _ hbelow hlt] at hnode
    obtain ⟨inner, hinner, hbranch⟩ := bind_eq_ok_iff.mp hbranch
    obtain ⟨node', hnode', hnode⟩ := bind_eq_ok_iff.mp hnode
    cases hbranch
    cases hnode
    obtain ⟨leaf, hleaf⟩ : ∃ leaf, leaves[g.firstSlot depth]? = some leaf :=
      ⟨_, List.getElem?_eq_getElem hlt⟩
    have hproves := hleaves.proves _ rest leaf _ _ hleaf hbelow.rest_ne_root hinner hnode'
    obtain ⟨hlength, hclimb⟩ := rootFrom_eq_ok_iff.mp hproves
    obtain ⟨top, hslot, hconcat⟩ := hbelow.way
    refine ⟨?_, ?_⟩
    · rw [List.length_append, hlength, length_siblings, Gindex.depth_of_concat hconcat,
        (Gindex.ofSlot_eq_ok_iff.mp hslot).1, Nat.add_comm]
    · have hroot := climb_from_slot hslot h leaves
      rw [subtreeRoot_leaf hleaf] at hroot
      rw [climb_concat hconcat hlength]
      exact (congrArg (climb h top.toNat · _) hclimb).trans hroot

/--
The two walks find something for the same nodes, wherever there is a leaf and something is found
below it. What they find proves the root over the leaves; past the leaves they report the node.
-/
theorem walks_prove_root (hroom : leaves.length ≤ 2 ^ depth) (g : Gindex) :
    ((∃ branch, branchInTree h leaves depth g findBranch = .ok branch) ↔
      (g = .root ∨ g.firstSlot depth < leaves.length) ∧
        ∀ i rest, g.StandsBelow depth i rest → ∃ inner, findBranch i rest = .ok inner) ∧
    ((∃ branch, branchInTree h leaves depth g findBranch = .ok branch) ↔
      ∃ node, nodeInTree h leaves depth g findNode = .ok node) ∧
    (∀ branch node, branchInTree h leaves depth g findBranch = .ok branch →
      nodeInTree h leaves depth g findNode = .ok node →
      branch.length = g.depth ∧ ∃ root, merkleize h leaves (some (2 ^ depth)) = .ok root ∧
        rootFrom h branch g node = .ok root) ∧
    AsksBelow leaves.length depth g (branchInTree h leaves depth g) ∧
    AsksBelow leaves.length depth g (nodeInTree h leaves depth g) ∧
    (g ≠ .root → leaves.length ≤ g.firstSlot depth →
      branchInTree h leaves depth g findBranch = .error (.unreachable g) ∧
        nodeInTree h leaves depth g findNode = .error (.unreachable g)) := by
  have hends := ends_branchInTree h leaves depth g
  have hends' := ends_nodeInTree h leaves depth g
  refine ⟨hends.exists_ok_iff, exists_branchInTree_iff_node hleaves, ?_, hends.asksBelow,
    hends'.asksBelow, fun hroot hpast => ⟨hends.past hroot hpast _, hends'.past hroot hpast _⟩⟩
  intro branch node hbranch hnode
  obtain ⟨hlength, hclimb⟩ := climb_inTree hleaves hbranch hnode
  refine ⟨hlength, _, Layout.merkleize_of_fits hroom, ?_⟩
  rw [coverDepth_two_pow]
  exact rootFrom_eq_ok_iff.mpr ⟨hlength, hclimb⟩

end InTree

/-- Answers that open every leaf prove it. -/
theorem ProvesLeaves.of_opens {findBranch : Nat → Gindex → Except ProofError (List Root)}
    {findNode : Nat → Gindex → Except ProofError Root}
    (hopens : ∀ i leaf rest, leaves[i]? = some leaf → rest ≠ .root →
      Opens h leaf rest (findBranch i rest) (findNode i rest)) :
    ProvesLeaves h leaves findBranch findNode where
  together i rest hi hrest := by
    have hopen := hopens i _ rest (List.getElem?_eq_getElem hi) hrest
    generalize findBranch i rest = branch? at hopen ⊢
    generalize findNode i rest = node? at hopen ⊢
    cases hopen with
    | found hlength hclimb => exact iff_of_true ⟨_, rfl⟩ ⟨_, rfl⟩
    | unreachable g₁ g₂ => simp
  proves i rest leaf branch node hget hrest hbranch hnode := by
    have hopen := hopens i leaf rest hget hrest
    rw [hbranch, hnode] at hopen
    cases hopen with
    | found hlength hclimb => exact rootFrom_eq_ok_iff.mpr ⟨hlength, hclimb⟩

section Trees

variable (h : HashFunction) (depth : Nat) (trees : List (List Root))

/-- The leaves that stand for trees of one depth. -/
def treeRoots : List Root := trees.map (foldUp h .zero depth)

def branchOfTree (i : Nat) (rest : Gindex) : Except ProofError (List Root) :=
  branchInTree h (trees.getD i []) depth rest fun _ below => .error (.unreachable below)

def nodeOfTree (i : Nat) (rest : Gindex) : Except ProofError Root :=
  nodeInTree h (trees.getD i []) depth rest fun _ below => .error (.unreachable below)

theorem provesLeaves_treeRoots :
    ProvesLeaves h (treeRoots h depth trees) (branchOfTree h depth trees)
      (nodeOfTree h depth trees) := by
  refine .of_opens fun i leaf rest hget _ => ?_
  rw [treeRoots, List.getElem?_map, Option.map_eq_some_iff] at hget
  obtain ⟨tree, htree, rfl⟩ := hget
  have hown : trees.getD i [] = tree := by rw [List.getD_eq_getElem?_getD, htree, Option.getD_some]
  rw [branchOfTree, nodeOfTree, hown]
  exact opens_inTree (fun _ _ below _ _ => .unreachable below below) rest

end Trees

def threeTrees : List (List Root) := [[.ofNat 1], [.ofNat 2, .ofNat 3], []]

/-- The last leaf of the second tree, if the trees have two leaves each and there is room for four
of them. -/
def lastLeafGindex : Gindex := ⟨11, by decide, by decide⟩

theorem walks_prove_root_three_trees :
    ∃ branch root, ProvesLeaves .sha256 (treeRoots .sha256 1 threeTrees)
        (branchOfTree .sha256 1 threeTrees) (nodeOfTree .sha256 1 threeTrees) ∧
      branchInTree .sha256 (treeRoots .sha256 1 threeTrees) 2 lastLeafGindex
        (branchOfTree .sha256 1 threeTrees) = .ok branch ∧
      nodeInTree .sha256 (treeRoots .sha256 1 threeTrees) 2 lastLeafGindex
        (nodeOfTree .sha256 1 threeTrees) = .ok (.ofNat 3) ∧
      branch.length = 3 ∧
      merkleize .sha256 (treeRoots .sha256 1 threeTrees) (some 4) = .ok root ∧
      rootFrom .sha256 branch lastLeafGindex (.ofNat 3) = .ok root := by
  have hleaves := provesLeaves_treeRoots .sha256 1 threeTrees
  have hnode : nodeInTree .sha256 (treeRoots .sha256 1 threeTrees) 2 lastLeafGindex
      (nodeOfTree .sha256 1 threeTrees) = .ok (.ofNat 3) := rfl
  have hroom : (treeRoots .sha256 1 threeTrees).length ≤ 2 ^ 2 := by decide
  obtain ⟨-, htogether, hproves, -⟩ := walks_prove_root hleaves hroom lastLeafGindex
  obtain ⟨branch, hbranch⟩ := htogether.mpr ⟨_, hnode⟩
  obtain ⟨hlength, root, hroot, hfrom⟩ := hproves _ _ hbranch hnode
  exact ⟨branch, root, hleaves, hbranch, hnode, hlength, hroot, hfrom⟩

end Merkle

end SimpleSerialize
