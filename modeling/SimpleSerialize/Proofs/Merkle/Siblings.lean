import SimpleSerialize.Proofs.Merkle.Walk

/-!
What stands in a branch: beside every node on the way up its sibling, as the walk to a node finds
it or, where nothing is to be found, the root of as many levels of zeros as there are down to the
leaves of the tree that the sibling is in (`Shape.Height`). That a branch verifies would not tell
this of every hash function, and neither that a node is the pair of its children.
-/

namespace SimpleSerialize

open Merkle (turns dataTurns)

namespace Merkle

variable {h : HashFunction}

/-- The entry of a branch for a place: the node that is there, or zeros of the place's height. -/
inductive Entry (h : HashFunction) (height : Nat → Prop) (entry : Root) :
    Except ProofError Root → Prop
  | node : Entry h height entry (.ok entry)
  | zeros {m : Nat} (height_eq : height m) (g : Gindex) (entry_eq : entry = h.zeroRoot m) :
    Entry h height entry (.error (.unreachable g))

theorem Entry.imp {height height' : Nat → Prop} {entry : Root} {node? : Except ProofError Root}
    (hentry : Entry h height entry node?) (himp : ∀ m, height m → height' m) :
    Entry h height' entry node? := by
  cases hentry with
  | node => exact .node
  | zeros hheight g heq => exact .zeros (himp _ hheight) g heq

/--
Two walks that read one tree: a branch has an entry for the sibling of every node on the way up, and
where both children of a node are found, the node is their pair.
-/
structure Treelike (h : HashFunction) (height : List Bool → Nat → Prop) (root : Root)
    (findBranch : Gindex → Except ProofError (List Root))
    (findNode : Gindex → Except ProofError Root) : Prop where
  opens (g : Gindex) : Opens h root g (findBranch g) (findNode g)
  entry {g s : Gindex} {branch : List Root} {front rest : List Bool} {turn : Bool}
    (hbranch : findBranch g = .ok branch) (hway : g.way = front ++ turn :: rest)
    (hsibling : s.way = front ++ [!turn]) :
    ∃ entry, branch[rest.length]? = some entry ∧ Entry h (height s.way) entry (findNode s)
  pair {g left right : Gindex} {leftNode rightNode : Root} (hleft : left.way = g.way ++ [false])
    (hright : right.way = g.way ++ [true]) (hleftNode : findNode left = .ok leftNode)
    (hrightNode : findNode right = .ok rightNode) :
    findNode g = .ok (h.pair leftNode rightNode)

theorem Treelike.imp {height height' : List Bool → Nat → Prop} {root : Root}
    {findBranch : Gindex → Except ProofError (List Root)}
    {findNode : Gindex → Except ProofError Root}
    (htree : Treelike h height root findBranch findNode)
    (himp : ∀ way m, height way m → height' way m) :
    Treelike h height' root findBranch findNode where
  opens := htree.opens
  entry {g s _ _ _ _} hbranch hway hsibling := by
    obtain ⟨entry, hentry, hnode⟩ := htree.entry hbranch hway hsibling
    exact ⟨entry, hentry, hnode.imp (himp s.way)⟩
  pair := htree.pair

/-- Walks that never find anything. -/
theorem treelike_unreachable (height : List Bool → Nat → Prop) (root : Root) :
    Treelike h height root (fun g => .error (.unreachable g)) fun g => .error (.unreachable g) where
  opens g := .unreachable g g
  entry hbranch := by cases hbranch
  pair _ _ hleftNode := by cases hleftNode

section InTree

variable {leaves : List Root} {depth : Nat} {height : List Bool → Nat → Prop}
  {findBranch : Nat → Gindex → Except ProofError (List Root)}
  {findNode : Nat → Gindex → Except ProofError Root} {g s : Gindex} {branch : List Root}
  {front rest : List Bool} {turn : Bool}

/-- Nodes whose ways part at the last turn stand beside each other. -/
theorem position_of_flip {top : Gindex} (htop : top.way = front ++ [turn])
    (hsibling : s.way = front ++ [!turn]) : s.position = beside top.position := by
  obtain ⟨parent, -, -, rfl, -⟩ := Gindex.exists_of_way_eq_append htop
  rw [Gindex.position_of_turn htop, Gindex.position_of_turn hsibling, beside]
  cases turn with
  | false =>
    simp only [Bool.not_false, Bool.toNat_true, Bool.toNat_false]
    rw [if_pos (by omega)]
  | true =>
    simp only [Bool.not_true, Bool.toNat_true, Bool.toNat_false]
    rw [if_neg (by omega), Nat.add_sub_cancel]
    rfl

/-- The subtree beside a node of a tree is where its sibling leads. -/
theorem getElem?_siblings_of_way (h : HashFunction) (leaves : List Root) (hle : g.depth ≤ depth)
    (hway : g.way = front ++ turn :: rest) (hsibling : s.way = front ++ [!turn]) :
    s.depth ≤ depth ∧ (siblings h leaves (depth - g.depth) g.depth g.position)[rest.length]?
      = some (subtreeRoot h leaves (depth - s.depth) s.position) := by
  have hway' : g.way = (front ++ [turn]) ++ rest := by rw [hway, List.append_assoc]; rfl
  obtain ⟨top, below, hconcat, htop, rfl⟩ := Gindex.exists_of_way_eq_append hway'
  have hdepth := Gindex.depth_of_concat hconcat
  have htopDepth := Gindex.depth_of_way_append htop
  have hsDepth := Gindex.depth_of_way_append hsibling
  rw [List.length_singleton] at htopDepth hsDepth
  have hheight : depth - g.depth + below.depth = depth - s.depth := by omega
  refine ⟨by omega, ?_⟩
  rw [Gindex.length_way, getElem?_siblings (by omega), Gindex.position_div_of_concat hconcat,
    hheight, position_of_flip htop hsibling]

/-- In a tree the entry for a node is its subtree, which is all zeros if it is past the leaves. -/
theorem entry_within (hle : g.depth ≤ depth) (hheight : height g.way (depth - g.depth)) :
    Entry h (height g.way) (subtreeRoot h leaves (depth - g.depth) g.position)
      (nodeInTree h leaves depth g findNode) := by
  rw [nodeInTree_within hle]
  split
  · rename_i hpast
    exact .zeros hheight g (subtreeRoot_of_past hpast.1)
  · exact .node

variable {heightBelow : Nat → List Bool → Nat → Prop}
  (hbelow : ∀ i leaf, leaves[i]? = some leaf →
    Treelike h (heightBelow i) leaf (findBranch i) (findNode i))

include hbelow

theorem opens_inTree_of_treelike (g : Gindex) :
    Opens h (foldUp h .zero depth leaves) g (branchInTree h leaves depth g findBranch)
      (nodeInTree h leaves depth g findNode) :=
  opens_inTree (fun i leaf below hleaf _ => (hbelow i leaf hleaf).opens below) g

/-- The walk may go on from a slot as if from the root of what stands there. -/
theorem nodeInTree_from_slot {slot below : Gindex} (hconcat : slot.concat below = .ok g)
    (hslot : slot.depth = depth) (hlt : slot.position < leaves.length) {node : Root}
    (hnode : findNode slot.position below = .ok node) :
    nodeInTree h leaves depth g findNode = .ok node := by
  by_cases hroot : below = .root
  · have hleaf := List.getElem?_eq_getElem hlt
    have hopens := (hbelow _ _ hleaf).opens below
    subst hroot
    obtain rfl : slot = g := Except.ok.inj ((Gindex.concat_root slot).symm.trans hconcat)
    rw [hnode] at hopens
    have hpast : ¬leaves.length ≤ slot.position * 2 ^ 0 := by omega
    rw [nodeInTree_within (Nat.le_of_eq hslot), hslot, Nat.sub_self, if_neg (mt And.left hpast),
      subtreeRoot_leaf hleaf, hopens.eq_root]
  · exact (nodeInTree_below_eq_ok_iff hconcat hslot hroot).mpr ⟨hlt, hnode⟩

theorem entry_inTree (hown : ∀ way, way.length ≤ depth → height way (depth - way.length))
    (hpart : ∀ i way m, i < leaves.length → way ≠ [] → heightBelow i way m →
      height (turns depth i ++ way) m)
    (hbranch : branchInTree h leaves depth g findBranch = .ok branch)
    (hway : g.way = front ++ turn :: rest) (hsibling : s.way = front ++ [!turn]) :
    ∃ entry, branch[rest.length]? = some entry ∧
      Entry h (height s.way) entry (nodeInTree h leaves depth s findNode) := by
  have hownHeight (hle : s.depth ≤ depth) : height s.way (depth - s.depth) := by
    rw [← Gindex.length_way] at hle ⊢
    exact hown _ hle
  rcases within_or_below g depth with hle | ⟨slot, below, hconcat, hslot, hne⟩
  · obtain ⟨hsle, hentry⟩ := getElem?_siblings_of_way h leaves hle hway hsibling
    rw [branchInTree_within hle (Gindex.ne_root_of_way hway (by simp)), ite_error_eq_ok_iff,
      Except.ok.injEq] at hbranch
    obtain ⟨-, rfl⟩ := hbranch
    exact ⟨_, hentry, entry_within hsle (hownHeight hsle)⟩
  obtain ⟨hlt, inner, hinner, rfl⟩ :=
    (branchInTree_below_eq_ok_iff hconcat hslot hne).mp hbranch
  have htree := hbelow _ _ (List.getElem?_eq_getElem hlt)
  -- The turn is taken in what stands at the slot, or on the way there.
  rcases Gindex.turn_of_concat hconcat hway with ⟨onward, rfl, hbelowWay⟩ | ⟨onward, hslotWay, rfl⟩
  · rw [List.append_assoc] at hsibling
    obtain ⟨s', hsConcat, hs'⟩ := Gindex.exists_concat_of_way hsibling
    have hs'ne := Gindex.ne_root_of_way hs' (by simp)
    obtain ⟨entry, hentry, hnode⟩ := htree.entry hinner hbelowWay hs'
    refine ⟨entry, ?_, ?_⟩
    · rwa [List.getElem?_append_left (List.getElem?_eq_some_iff.mp hentry).1]
    · rw [nodeInTree_below hsConcat hslot hs'ne, if_neg (Nat.not_le_of_lt hlt)]
      refine hnode.imp fun m hm => ?_
      rw [Gindex.way_of_concat hsConcat, Gindex.way, hslot]
      exact hpart _ _ _ hlt (mt Gindex.way_eq_nil_iff.mp hs'ne) hm
  · obtain ⟨hsle, hentry⟩ :=
      getElem?_siblings_of_way h leaves (Nat.le_of_eq hslot) hslotWay hsibling
    refine ⟨_, ?_, entry_within hsle (hownHeight hsle)⟩
    have hopens := htree.opens below
    rw [hinner] at hopens
    rw [List.length_append, Gindex.length_way, ← hopens.length_branch,
      List.getElem?_append_right (Nat.le_add_left _ _), Nat.add_sub_cancel, ← hentry, hslot,
      Nat.sub_self]

theorem pair_inTree {left right : Gindex} {leftNode rightNode : Root}
    (hleft : left.way = g.way ++ [false]) (hright : right.way = g.way ++ [true])
    (hleftNode : nodeInTree h leaves depth left findNode = .ok leftNode)
    (hrightNode : nodeInTree h leaves depth right findNode = .ok rightNode) :
    nodeInTree h leaves depth g findNode = .ok (h.pair leftNode rightNode) := by
  rcases within_or_below left depth with hle | ⟨slot, below, hconcat, hslot, hne⟩
  · have hleftDepth := Gindex.depth_of_way_append hleft
    have hrightDepth := Gindex.depth_of_way_append hright
    rw [Gindex.length_way, List.length_singleton] at hleftDepth hrightDepth
    have hheight : depth - g.depth = depth - left.depth + 1 := by omega
    rw [nodeInTree_within hle, ite_error_eq_ok_iff, Except.ok.injEq,
      Gindex.position_of_turn hleft] at hleftNode
    rw [nodeInTree_within (by omega), ite_error_eq_ok_iff, Except.ok.injEq, hrightDepth,
      ← hleftDepth, Gindex.position_of_turn hright] at hrightNode
    obtain ⟨hfilled, rfl⟩ := hleftNode
    obtain ⟨-, rfl⟩ := hrightNode
    -- The first slot below a node is the first one below its left child.
    have hfirst : g.position * 2 ^ (depth - g.depth)
        = (2 * g.position + false.toNat) * 2 ^ (depth - left.depth) := by
      rw [hheight, Nat.pow_succ, Bool.toNat_false, Nat.add_zero, Nat.mul_comm 2, Nat.mul_assoc,
        Nat.mul_comm 2]
    rw [nodeInTree_within (by omega), hfirst, hheight, subtreeRoot_succ,
      if_neg fun hpast => hfilled ⟨hpast.1, Gindex.ne_root_of_way hleft (by simp)⟩]
    rfl
  · rcases Gindex.turn_of_concat hconcat hleft with ⟨onward, hg, hbelowWay⟩ | ⟨_, _, hnil⟩
    · rw [hg, List.append_assoc] at hright
      obtain ⟨g', hgConcat, hg'⟩ := Gindex.exists_concat_of_way hg
      obtain ⟨right', hrightConcat, hright'⟩ := Gindex.exists_concat_of_way hright
      have hrightNe := Gindex.ne_root_of_way hright' (by simp)
      rw [nodeInTree_below_eq_ok_iff hconcat hslot hne] at hleftNode
      rw [nodeInTree_below_eq_ok_iff hrightConcat hslot hrightNe] at hrightNode
      obtain ⟨hlt, hleftNode⟩ := hleftNode
      rw [← hg'] at hbelowWay hright'
      exact nodeInTree_from_slot hbelow hgConcat hslot hlt
        ((hbelow _ _ (List.getElem?_eq_getElem hlt)).pair hbelowWay hright' hleftNode
          hrightNode.2)
    · obtain ⟨-, hway⟩ := List.append_eq_nil_iff.mp hnil.symm
      exact absurd (Gindex.way_eq_nil_iff.mp hway) hne

theorem treelike_inTree (hown : ∀ way, way.length ≤ depth → height way (depth - way.length))
    (hpart : ∀ i way m, i < leaves.length → way ≠ [] → heightBelow i way m →
      height (turns depth i ++ way) m) :
    Treelike h height (foldUp h .zero depth leaves)
      (fun g => branchInTree h leaves depth g findBranch)
      fun g => nodeInTree h leaves depth g findNode where
  opens := opens_inTree_of_treelike hbelow
  entry := entry_inTree hbelow hown hpart
  pair := pair_inTree hbelow

end InTree

end Merkle

namespace Shape

/-- The levels of its own tree that are below a node. In the tree of a part they count anew. -/
inductive Height : Shape → Value → List Bool → Nat → Prop
  | own {shape : Shape} {way : List Bool} (le : way.length ≤ coverDepth shape.chunkLimit)
    (v : Value) :
    Height shape v (dataTurns shape.mixesInCount ++ way) (coverDepth shape.chunkLimit - way.length)
  | part {shape part : Shape} {v w : Value} {i : Nat} {below : List Bool} {m : Nat}
    (part_eq : shape.partOf? v i = some (part, w)) (below_ne : below ≠ [])
    (below_height : Height part w below m) : Height shape v (shape.leafWay i ++ below) m

end Shape

namespace Layout

open Merkle (Treelike branchInTree nodeInTree foldUp countRoot)

variable {h : HashFunction} {shape : Shape} {v : Value} {root : Root} {leaves : List Root}
  {findBranch : Nat → Gindex → Except ProofError (List Root)}
  {findNode : Nat → Gindex → Except ProofError Root} {g s : Gindex} {branch : List Root}
  {front rest : List Bool} {turn : Bool}

/-- Above the parts, the tree of the leaves. -/
theorem Walks.treelike_data {count? : Option Nat}
    (hwalks : Walks h shape v leaves count? findBranch findNode)
    (hparts : ∀ i part w leaf, shape.partOf? v i = some (part, w) → (of part w).root h = .ok leaf →
      Treelike h (part.Height w) leaf ((of part w).branch h) ((of part w).node h)) :
    Treelike h (fun way => shape.Height v (dataTurns shape.mixesInCount ++ way))
      (foldUp h .zero (coverDepth shape.chunkLimit) leaves)
      (fun g => branchInTree h leaves (coverDepth shape.chunkLimit) g findBranch)
      fun g => nodeInTree h leaves (coverDepth shape.chunkLimit) g findNode := by
  have hbelow (i : Nat) (leaf : Root) (hleaf : leaves[i]? = some leaf) :
      Treelike h (fun way m => ∃ part w, shape.partOf? v i = some (part, w) ∧ part.Height w way m)
        leaf (findBranch i) (findNode i) := by
    cases hpart : shape.partOf? v i with
    | none =>
      have hbranch := funext fun g => (hwalks.find_none hpart g).1
      have hnode := funext fun g => (hwalks.find_none hpart g).2
      rw [hbranch, hnode]
      exact Merkle.treelike_unreachable _ leaf
    | some entry =>
      obtain ⟨part, w⟩ := entry
      have hbranch := funext fun g => (hwalks.find_part hpart g).1
      have hnode := funext fun g => (hwalks.find_part hpart g).2
      obtain ⟨leaf', hleaf', hroot⟩ := hwalks.part hpart
      obtain rfl : leaf' = leaf := Option.some.inj (hleaf'.symm.trans hleaf)
      rw [hbranch, hnode]
      exact (hparts i part w leaf' hpart hroot).imp fun way m hheight => ⟨part, w, rfl, hheight⟩
  refine Merkle.treelike_inTree hbelow (fun way hle => .own hle v) ?_
  intro i way m _ hne hheight
  obtain ⟨part, w, hpart, hheight⟩ := hheight
  rw [← List.append_assoc]
  exact .part hpart hne hheight

section Counted

variable {count : Nat} (hwalks : Walks h shape v leaves (some count) findBranch findNode)
  (hdata : Treelike h (fun way => shape.Height v (dataTurns shape.mixesInCount ++ way))
    (foldUp h .zero (coverDepth shape.chunkLimit) leaves)
    (fun g => branchInTree h leaves (coverDepth shape.chunkLimit) g findBranch)
    fun g => nodeInTree h leaves (coverDepth shape.chunkLimit) g findNode)

include hwalks hdata

theorem Walks.entry_counted (hbranch : (of shape v).branch h g = .ok branch)
    (hway : g.way = front ++ turn :: rest) (hsibling : s.way = front ++ [!turn]) :
    ∃ entry, branch[rest.length]? = some entry ∧
      Merkle.Entry h (shape.Height v s.way) entry ((of shape v).node h s) := by
  have hcounted := hwalks.counted
  match front with
  | [] =>
    -- The data and the count stand beside each other.
    cases turn with
    | false =>
      obtain ⟨below, rfl, hleft, -⟩ := hwalks.left_of_count hway
      rw [hleft] at hbranch
      obtain ⟨inner, hinner, hbranch⟩ := bind_eq_ok_iff.mp hbranch
      cases hbranch
      have hopens := hdata.opens below
      rw [hinner] at hopens
      refine ⟨countRoot count, ?_, ?_⟩
      · rw [Gindex.length_way, ← hopens.length_branch, List.getElem?_concat_length]
      · rw [(hwalks.right_of_data hsibling).2, if_pos rfl]
        exact .node
    | true =>
      rw [(hwalks.right_of_data hway).1] at hbranch
      split at hbranch
      · rename_i hrest
        cases hbranch
        subst hrest
        obtain ⟨below, hbelow, -, hnode⟩ := hwalks.left_of_count hsibling
        obtain rfl := Gindex.way_eq_nil_iff.mp hbelow
        refine ⟨_, rfl, ?_⟩
        rw [hnode, Merkle.nodeInTree_root]
        exact .node
      · cases hbranch
  | true :: front =>
    rw [(hwalks.right_of_data hway).1, if_neg (by simp)] at hbranch
    cases hbranch
  | false :: front =>
    obtain ⟨below, hbelow, hleft, -⟩ := hwalks.left_of_count hway
    obtain ⟨s', hs', -, hnode⟩ := hwalks.left_of_count hsibling
    rw [hleft] at hbranch
    obtain ⟨inner, hinner, hbranch⟩ := bind_eq_ok_iff.mp hbranch
    cases hbranch
    obtain ⟨entry, hentry, hfound⟩ := hdata.entry hinner hbelow hs'
    refine ⟨entry, ?_, ?_⟩
    · rwa [List.getElem?_append_left (List.getElem?_eq_some_iff.mp hentry).1]
    · rw [hnode, hsibling]
      rwa [← hcounted, hs'] at hfound

theorem Walks.pair_counted {left right : Gindex} {leftNode rightNode : Root}
    (hleft : left.way = g.way ++ [false]) (hright : right.way = g.way ++ [true])
    (hleftNode : (of shape v).node h left = .ok leftNode)
    (hrightNode : (of shape v).node h right = .ok rightNode) :
    (of shape v).node h g = .ok (h.pair leftNode rightNode) := by
  match hway : g.way with
  | [] =>
    rw [hway] at hleft hright
    obtain ⟨below, hbelow, -, hnode⟩ := hwalks.left_of_count hleft
    obtain rfl := Gindex.way_eq_nil_iff.mp hbelow
    rw [hnode, Merkle.nodeInTree_root] at hleftNode
    rw [(hwalks.right_of_data hright).2, if_pos rfl] at hrightNode
    cases hleftNode
    cases hrightNode
    rw [Gindex.way_eq_nil_iff.mp hway, node_root, hwalks.root_eq]
    rfl
  | true :: rest =>
    rw [hway] at hleft
    rw [(hwalks.right_of_data hleft).2, if_neg (by simp)] at hleftNode
    cases hleftNode
  | false :: rest =>
    rw [hway] at hleft hright
    obtain ⟨below, rfl, -, hnode⟩ := hwalks.left_of_count hway
    obtain ⟨left', hleft', -, hleftEq⟩ := hwalks.left_of_count hleft
    obtain ⟨right', hright', -, hrightEq⟩ := hwalks.left_of_count hright
    rw [hleftEq] at hleftNode
    rw [hrightEq] at hrightNode
    rw [hnode]
    exact hdata.pair hleft' hright' hleftNode hrightNode

end Counted

theorem Walks.treelike {count? : Option Nat}
    (hwalks : Walks h shape v leaves count? findBranch findNode)
    (hroot : (of shape v).root h = .ok root)
    (hdata : Treelike h (fun way => shape.Height v (dataTurns shape.mixesInCount ++ way))
      (foldUp h .zero (coverDepth shape.chunkLimit) leaves)
      (fun g => branchInTree h leaves (coverDepth shape.chunkLimit) g findBranch)
      fun g => nodeInTree h leaves (coverDepth shape.chunkLimit) g findNode) :
    Treelike h (shape.Height v) root ((of shape v).branch h) ((of shape v).node h) := by
  cases count? with
  | none =>
    have hroot' := hroot.symm.trans hwalks.root_eq
    rw [← hwalks.counted] at hdata
    rw [funext hwalks.branch_eq_inTree, funext hwalks.node_eq_inTree, Except.ok.inj hroot']
    exact hdata
  | some count =>
    exact ⟨opens _ hroot, hwalks.entry_counted hdata, hwalks.pair_counted hdata⟩

end Layout

namespace Shape

variable {h : HashFunction} {shape : Shape} {v : Value} {root : Root}

theorem treelike (hroot : (Layout.of shape v).root h = .ok root) :
    Merkle.Treelike h (shape.Height v) root ((Layout.of shape v).branch h)
      ((Layout.of shape v).node h) := by
  induction shape using Shape.induction_on_parts generalizing v root with
  | step shape ih =>
    obtain ⟨leaves, count?, findBranch, findNode, hwalks⟩ := Layout.exists_walks hroot
    refine hwalks.treelike hroot (hwalks.treelike_data ?_)
    intro i part w leaf hpart hleaf
    exact ih part (mem_parts_of_partOf? hpart) hleaf

/-- What is below a slot is deeper than the tree of the slots. -/
theorem ne_of_below_slot {way below : List Bool} (hle : way.length ≤ coverDepth shape.chunkLimit)
    (hne : below ≠ []) (i : Nat) :
    dataTurns shape.mixesInCount ++ way ≠ shape.leafWay i ++ below := by
  intro hsame
  rw [leafWay, List.append_assoc] at hsame
  have hlength := congrArg List.length (List.append_cancel_left hsame)
  rw [List.length_append, Merkle.length_turns] at hlength
  have hpos := List.length_pos_iff.mpr hne
  omega

theorem leafWay_append_inj {i j : Nat} {below below' : List Bool}
    (hi : i < 2 ^ coverDepth shape.chunkLimit) (hj : j < 2 ^ coverDepth shape.chunkLimit)
    (hsame : shape.leafWay i ++ below = shape.leafWay j ++ below') : i = j ∧ below = below' := by
  obtain ⟨hleaf, hbelow⟩ := List.append_inj hsame (by simp [leafWay])
  exact ⟨Merkle.turns_injective hi hj (List.append_cancel_left hleaf), hbelow⟩

/-- A node is in one tree only. -/
theorem Height.unique (hroot : (Layout.of shape v).root h = .ok root) {way : List Bool} {m m' : Nat}
    (hheight : shape.Height v way m) (hheight' : shape.Height v way m') : m' = m := by
  induction hheight generalizing root m' with
  | @own shape way hle v =>
    generalize hway : dataTurns shape.mixesInCount ++ way = way' at hheight'
    cases hheight' with
    | own => rw [List.append_cancel_left hway]
    | @part _ _ _ _ i _ _ _ hne _ => exact absurd hway (ne_of_below_slot hle hne i)
  | @part shape part v w i below m hpart hne _ ih =>
    obtain ⟨leaves, count?, findBranch, findNode, hwalks⟩ := Layout.exists_walks hroot
    generalize hway : shape.leafWay i ++ below = way' at hheight'
    cases hheight' with
    | own hle => exact absurd hway.symm (ne_of_below_slot hle hne i)
    | part hpart' _ hheight' =>
      obtain ⟨rfl, rfl⟩ :=
        leafWay_append_inj (hwalks.lt_slots hpart) (hwalks.lt_slots hpart') hway
      cases hpart.symm.trans hpart'
      obtain ⟨leaf, -, hleaf⟩ := hwalks.part hpart
      exact ih hleaf hheight'

/--
A branch lists the siblings on the way up: each is the node that is there or, where nothing is to be
found, the root of zeros of its height, which is one only. And a node is the pair of its children.
-/
theorem branch_lists_siblings (hroot : shape.hashTreeRoot h v = .ok root) :
    (∀ g branch, shape.prove h v g = .ok branch → ∀ k < g.depth, ∃ (top s : Gindex) (entry : Root),
      top.toNat = g.toNat / 2 ^ k ∧ top.sibling? = some s ∧ branch[k]? = some entry ∧
      (shape.nodeRoot h v s = .ok entry ∨ shape.nodeRoot h v s = .error (.unreachable s) ∧
        ∃ m, (∀ m', shape.Height v s.way m' ↔ m' = m) ∧ (h.zeroRoots m)[m]? = some entry)) ∧
    ∀ g left right : Gindex, g.left = .ok left → g.right = .ok right →
      (∃ branch, shape.prove h v left = .ok branch) →
      (∃ branch, shape.prove h v right = .ok branch) →
      ∃ leftNode rightNode, shape.nodeRoot h v left = .ok leftNode ∧
        shape.nodeRoot h v right = .ok rightNode ∧
        shape.nodeRoot h v g = .ok (h.pair leftNode rightNode) := by
  have htree := treelike hroot
  constructor
  · intro g branch hbranch k hk
    obtain ⟨top, s, front, rest, turn, htop, hsibling, hway, hsway, rfl⟩ :=
      Gindex.exists_sibling_above hk
    obtain ⟨entry, hentry, hnode⟩ := htree.entry (mapError_eq_ok_iff.mp hbranch) hway hsway
    refine ⟨top, s, entry, htop, hsibling, hentry, ?_⟩
    unfold nodeRoot
    generalize (Layout.of shape v).node h s = node? at hnode ⊢
    cases hnode with
    | node => exact .inl rfl
    | @zeros m hheight _ hzero =>
      refine .inr ⟨rfl, m, fun m' => ⟨Height.unique hroot hheight, ?_⟩, ?_⟩
      · intro hm
        rwa [hm]
      · rw [h.getElem?_zeroRoots (Nat.le_refl m), hzero]
  · intro g left right hleft hright hleftBranch hrightBranch
    have hfound {s : Gindex} (hbranch : ∃ branch, shape.prove h v s = .ok branch) :
        ∃ node, (Layout.of shape v).node h s = .ok node := by
      obtain ⟨branch, hbranch⟩ := hbranch
      have hopens := htree.opens s
      rw [mapError_eq_ok_iff.mp hbranch] at hopens
      generalize (Layout.of shape v).node h s = node? at hopens
      cases hopens with
      | found => exact ⟨_, rfl⟩
    obtain ⟨leftNode, hleftNode⟩ := hfound hleftBranch
    obtain ⟨rightNode, hrightNode⟩ := hfound hrightBranch
    have hpair := htree.pair (Gindex.way_of_child hleft) (Gindex.way_of_child hright) hleftNode
      hrightNode
    exact ⟨leftNode, rightNode, mapError_eq_ok_iff.mpr hleftNode, mapError_eq_ok_iff.mpr hrightNode,
      mapError_eq_ok_iff.mpr hpair⟩

/-- The second tag of the second record, which is empty. -/
def secondTagGindex : Gindex := ⟨281, by decide, by decide⟩

theorem branch_lists_siblings_registry :
    ∃ root branch, registry.hashTreeRoot .sha256 registryValue = .ok root ∧
      registry.prove .sha256 registryValue tagGindex = .ok branch ∧
      branch[5]? = (HashFunction.sha256.zeroRoots 1)[1]? ∧
      ∃ tags tag secondTag, tags.left = .ok tagGindex ∧
        registry.nodeRoot .sha256 registryValue tagGindex = .ok tag ∧
        registry.nodeRoot .sha256 registryValue secondTagGindex = .ok secondTag ∧
        registry.nodeRoot .sha256 registryValue tags
          = .ok (HashFunction.sha256.pair tag secondTag) := by
  have hroot : registry.hashTreeRoot .sha256 registryValue = .ok _ := rfl
  have hbranch : registry.prove .sha256 registryValue tagGindex = .ok _ := rfl
  obtain ⟨hlists, hpairs⟩ := branch_lists_siblings hroot
  refine ⟨_, _, hroot, hbranch, ?_, ?_⟩
  · -- Beside the first two records there is room for two others.
    obtain ⟨top, s, entry, htop, hsibling, hentry, hfound⟩ :=
      hlists tagGindex _ hbranch 5 (by decide)
    obtain rfl : top = ⟨8, by decide, by decide⟩ := Gindex.ext htop
    obtain rfl : ⟨9, by decide, by decide⟩ = s := Option.some.inj hsibling
    rw [hentry]
    rcases hfound with hnode | ⟨-, m, hheight, hzero⟩
    · cases hnode
    · have hown : registry.Height registryValue ([false] ++ [false, true]) 1 :=
        .own (by decide) registryValue
      obtain rfl := (hheight 1).mp hown
      exact hzero.symm
  · have htags : Gindex.left ⟨140, by decide, by decide⟩ = .ok tagGindex := rfl
    obtain ⟨tag, secondTag, hnodes⟩ :=
      hpairs _ tagGindex secondTagGindex htags rfl ⟨_, rfl⟩ ⟨_, rfl⟩
    exact ⟨_, tag, secondTag, htags, hnodes⟩

end Shape

end SimpleSerialize
