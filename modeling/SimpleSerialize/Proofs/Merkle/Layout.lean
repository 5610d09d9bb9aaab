import SimpleSerialize.Merkle.Layout
import SimpleSerialize.Proofs.Merkle.Opening

/-!
The roots, branches and nodes of a layout. Wherever a layout has a root, its branches and its nodes
belong together at every gindex (`Layout.opens`), so a branch that is handed out always proves the
node that is there.
-/

namespace SimpleSerialize

namespace Layout

variable {h : HashFunction} {leaves : List Root} {capacity : Nat} {count? : Option Nat}

/-- The root over the leaves of a tree and the count beside them, where there is one. -/
def withCount (h : HashFunction) (data : Root) : (count? : Option Nat) → Root
  | none => data
  | some count => Merkle.mixInCount h data count

theorem merkleize_of_fits (hfits : leaves.length ≤ capacity) :
    Merkle.merkleize h leaves (some capacity)
      = .ok (Merkle.foldUp h .zero (coverDepth capacity) leaves) := by
  rw [Merkle.merkleize, Option.getD_some, if_pos hfits]

theorem rootOver_eq_ok_iff {root : Root} :
    rootOver h leaves capacity count? = .ok root ↔ leaves.length ≤ capacity ∧
      root = withCount h (Merkle.foldUp h .zero (coverDepth capacity) leaves) count? := by
  unfold rootOver
  by_cases hfits : leaves.length ≤ capacity
  · rw [merkleize_of_fits hfits]
    cases count? <;> simp [withCount, hfits, bind, Except.bind, pure, Except.pure, eq_comm]
  · simp [Merkle.merkleize, hfits, bind, Except.bind]

theorem roots_eq_ok_iff {parts : List Layout} :
    roots h parts = .ok leaves ↔ parts.map (root h) = leaves.map .ok := by
  induction parts generalizing leaves with
  | nil => cases leaves <;> simp [roots]
  | cons part parts ih =>
    simp only [roots, bind_eq_ok_iff, pure_eq_ok_iff, ih]
    constructor
    · rintro ⟨first, hfirst, rest, hrest, rfl⟩
      rw [List.map_cons, List.map_cons, hfirst, hrest]
    · intro hmap
      cases leaves with
      | nil => cases hmap
      | cons first rest =>
        rw [List.map_cons, List.map_cons, List.cons.injEq] at hmap
        exact ⟨first, hmap.1, rest, hmap.2, rfl⟩

theorem length_of_roots {parts : List Layout} (hroots : roots h parts = .ok leaves) :
    parts.length = leaves.length := by
  have hlength := congrArg List.length (roots_eq_ok_iff.mp hroots)
  rwa [List.length_map, List.length_map] at hlength

theorem root_composite_eq_ok_iff {parts : List Layout} {root : Root} :
    (composite parts capacity count?).root h = .ok root ↔ ∃ leaves, roots h parts = .ok leaves ∧
      leaves.length ≤ capacity ∧
      root = withCount h (Merkle.foldUp h .zero (coverDepth capacity) leaves) count? := by
  simp only [Layout.root, bind_eq_ok_iff, rootOver_eq_ok_iff]

theorem fits_of_root {fits : Except FitError Unit} {layout : Layout}
    {root : Root}
    (hroot : (ifFits fits layout).root h = .ok root) : fits = .ok () := by
  cases fits with
  | error e => cases hroot
  | ok => rfl

section Parts

variable {parts : List Layout} {i : Nat} {part : Layout}

theorem root_of_getElem? (hroots : roots h parts = .ok leaves) (hpart : parts[i]? = some part) :
    ∃ leaf, leaves[i]? = some leaf ∧ part.root h = .ok leaf := by
  have hget := congrArg (·[i]?) (roots_eq_ok_iff.mp hroots)
  simp only [List.getElem?_map, hpart, Option.map_some] at hget
  obtain ⟨leaf, hleaf, hroot⟩ := Option.map_eq_some_iff.mp hget.symm
  exact ⟨leaf, hleaf, hroot.symm⟩

theorem roots_set (hroots : roots h parts = .ok leaves) {leaf : Root}
    (hroot : part.root h = .ok leaf) : roots h (parts.set i part) = .ok (leaves.set i leaf) := by
  rw [roots_eq_ok_iff] at hroots ⊢
  rw [List.map_set, List.map_set, hroots, hroot]

theorem branchOfPart_eq (hpart : parts[i]? = some part) (g : Gindex) :
    branchOfPart h parts i g = part.branch h g := by
  induction parts generalizing i with
  | nil => cases hpart
  | cons first parts ih =>
    cases i with
    | zero =>
      cases hpart
      rw [branchOfPart]
    | succ i =>
      rw [branchOfPart]
      exact ih hpart

theorem nodeOfPart_eq (hpart : parts[i]? = some part) (g : Gindex) :
    nodeOfPart h parts i g = part.node h g := by
  induction parts generalizing i with
  | nil => cases hpart
  | cons first parts ih =>
    cases i with
    | zero =>
      cases hpart
      rw [nodeOfPart]
    | succ i =>
      rw [nodeOfPart]
      exact ih hpart

end Parts

mutual

/-- Whether there is a root does not depend on the hash function. -/
theorem exists_root (h' : HashFunction) :
    (layout : Layout) → {root : Root} → layout.root h = .ok root →
    ∃ root', layout.root h' = .ok root'
  | packed chunks capacity count?, root, hroot => by
    obtain ⟨hfits, -⟩ := rootOver_eq_ok_iff.mp hroot
    exact ⟨_, rootOver_eq_ok_iff.mpr ⟨hfits, rfl⟩⟩
  | composite parts capacity count?, root, hroot => by
    obtain ⟨leaves, hroots, hfits, -⟩ := root_composite_eq_ok_iff.mp hroot
    obtain ⟨leaves', hroots', hlength⟩ := exists_roots h' parts hroots
    exact ⟨_, root_composite_eq_ok_iff.mpr ⟨leaves', hroots', hlength ▸ hfits, rfl⟩⟩
  | misfit e, root, hroot => by cases hroot

theorem exists_roots (h' : HashFunction) :
    (parts : List Layout) → {leaves : List Root} → roots h parts = .ok leaves →
    ∃ leaves', roots h' parts = .ok leaves' ∧ leaves.length = leaves'.length
  | [], leaves, hroots => by
    cases hroots
    exact ⟨[], rfl, rfl⟩
  | part :: parts, leaves, hroots => by
    simp only [roots, bind_eq_ok_iff, pure_eq_ok_iff] at hroots
    obtain ⟨first, hfirst, rest, hrest, rfl⟩ := hroots
    obtain ⟨first', hfirst'⟩ := exists_root h' part hfirst
    obtain ⟨rest', hrest', hlength⟩ := exists_roots h' parts hrest
    refine ⟨first' :: rest', ?_, by rw [List.length_cons, List.length_cons, hlength]⟩
    rw [roots, hfirst', hrest']
    rfl

end

@[simp] theorem branch_root (layout : Layout) : layout.branch h .root = .ok [] := by
  cases layout <;> simp [branch]

@[simp] theorem node_root (layout : Layout) :
    layout.node h .root = (layout.root h).mapError .fit := by
  cases layout <;> simp [node, Layout.root]

section Over

variable {findBranch : Nat → Gindex → Except ProofError (List Root)}
  {findNode : Nat → Gindex → Except ProofError Root}

/-- Beside a count, the leaves are found under node 2. -/
theorem branchOver_of_concat {top rest g : Gindex} (hconcat : top.concat rest = .ok g)
    (htop : top.toNat = 2) (count : Nat) :
    branchOver h (.ok leaves) capacity (some count) g findBranch =
      (Merkle.branchInTree h leaves (coverDepth capacity) rest findBranch).bind fun inner =>
        .ok (inner ++ [Merkle.countRoot count]) := by
  have hdepth := Gindex.depth_of_toNat_eq_two htop
  have hleft := Gindex.isLeft_of_toNat_eq_two htop
  unfold branchOver
  simp only [← hdepth, Gindex.splitAt_of_concat hconcat, hleft, if_true]
  rfl

theorem nodeOver_of_concat {top rest g : Gindex} (hconcat : top.concat rest = .ok g)
    (htop : top.toNat = 2) (hfits : leaves.length ≤ capacity) (count : Nat) :
    nodeOver h (.ok leaves) capacity (some count) g findNode =
      Merkle.nodeInTree h leaves (coverDepth capacity) rest findNode := by
  have hdepth := Gindex.depth_of_toNat_eq_two htop
  have hleft := Gindex.isLeft_of_toNat_eq_two htop
  unfold nodeOver
  simp only [← hdepth, Gindex.splitAt_of_concat hconcat, hleft, if_true]
  by_cases hrest : rest = .root
  · subst hrest
    rw [if_pos rfl, Merkle.nodeInTree_root]
    change (Merkle.merkleize h leaves (some capacity)).mapError ProofError.fit = _
    rw [merkleize_of_fits hfits]
    rfl
  · rw [if_neg hrest]
    rfl

/-- Node 3 is the count, and nothing stands below it. -/
theorem branchOver_of_concat_right {top rest g : Gindex} (hconcat : top.concat rest = .ok g)
    (htop : top.toNat = 3) (hfits : leaves.length ≤ capacity) (count : Nat) :
    branchOver h (.ok leaves) capacity (some count) g findBranch =
      if rest = .root then .ok [Merkle.foldUp h .zero (coverDepth capacity) leaves]
      else .error (.unreachable g) := by
  have hdepth := Gindex.depth_of_toNat_eq_three htop
  have hright := Gindex.isLeft_of_toNat_eq_three htop
  unfold branchOver
  simp only [← hdepth, Gindex.splitAt_of_concat hconcat, hright, Bool.false_eq_true, if_false]
  by_cases hrest : rest = .root
  · rw [if_pos hrest, if_pos hrest]
    change ((Merkle.merkleize h leaves (some capacity)).mapError ProofError.fit).bind _ = _
    rw [merkleize_of_fits hfits]
    rfl
  · rw [if_neg hrest, if_neg hrest]

theorem nodeOver_of_concat_right {top rest g : Gindex} (hconcat : top.concat rest = .ok g)
    (htop : top.toNat = 3) (count : Nat) :
    nodeOver h (.ok leaves) capacity (some count) g findNode =
      if rest = .root then .ok (Merkle.countRoot count) else .error (.unreachable g) := by
  have hdepth := Gindex.depth_of_toNat_eq_three htop
  have hright := Gindex.isLeft_of_toNat_eq_three htop
  unfold nodeOver
  simp only [← hdepth, Gindex.splitAt_of_concat hconcat, hright, Bool.false_eq_true, if_false]

/-- The walks over leaves and a count agree if those below the leaves do. -/
theorem opens_over (hfits : leaves.length ≤ capacity)
    (hdescend : ∀ i leaf below, leaves[i]? = some leaf → below ≠ .root →
      Merkle.Opens h leaf below (findBranch i below) (findNode i below))
    {g : Gindex} (hroot : g ≠ .root) :
    Merkle.Opens h (withCount h (Merkle.foldUp h .zero (coverDepth capacity) leaves) count?) g
      (branchOver h (.ok leaves) capacity count? g findBranch)
      (nodeOver h (.ok leaves) capacity count? g findNode) := by
  cases count? with
  | none => exact Merkle.opens_inTree hdescend g
  | some count =>
    have hlevel : 1 ≤ g.depth := Nat.pos_of_ne_zero (mt Gindex.eq_root_iff.mpr hroot)
    have hconcat := Gindex.concat_splitAt hlevel
    have htop := Gindex.depth_splitAt_fst hlevel
    generalize g.splitAt 1 = split at hconcat htop
    obtain ⟨top, rest⟩ := split
    have hside := top.position_lt
    have htoNat := top.toNat_eq
    rw [htop] at hside htoNat
    have hcases : top.toNat = 2 ∨ top.toNat = 3 := by omega
    rcases hcases with hleft | hright
    · rw [branchOver_of_concat hconcat hleft, nodeOver_of_concat hconcat hleft hfits]
      refine (Merkle.opens_inTree hdescend rest).above hconcat htop.symm ?_
      rw [hleft]
      rfl
    · rw [branchOver_of_concat_right hconcat hright hfits,
        nodeOver_of_concat_right hconcat hright]
      by_cases hrest : rest = .root
      · subst hrest
        rw [if_pos rfl, if_pos rfl]
        refine (Merkle.opens_root (Merkle.countRoot count)).above hconcat htop.symm ?_
        rw [hright]
        rfl
      · rw [if_neg hrest, if_neg hrest]
        exact .unreachable g g

end Over

mutual

theorem opens : (layout : Layout) → {root : Root} → layout.root h = .ok root → (g : Gindex) →
    Merkle.Opens h root g (layout.branch h g) (layout.node h g)
  | layout, root, hroot, g => by
    by_cases hg : g = .root
    · subst hg
      rw [branch_root, node_root, hroot]
      exact Merkle.opens_root root
    match layout with
    | packed chunks capacity count? =>
      obtain ⟨hfits, rfl⟩ := rootOver_eq_ok_iff.mp hroot
      rw [branch, node, if_neg hg, if_neg hg]
      exact opens_over hfits (fun _ _ below _ _ => .unreachable below below) hg
    | composite parts capacity count? =>
      obtain ⟨leaves, hroots, hfits, rfl⟩ := root_composite_eq_ok_iff.mp hroot
      rw [branch, node, if_neg hg, if_neg hg, hroots]
      exact opens_over hfits (fun i leaf below hleaf _ => opens_part parts hroots hleaf below) hg
    | misfit e => cases hroot

theorem opens_part : (parts : List Layout) → {leaves : List Root} → roots h parts = .ok leaves →
    {i : Nat} → {leaf : Root} → leaves[i]? = some leaf → (g : Gindex) →
    Merkle.Opens h leaf g (branchOfPart h parts i g) (nodeOfPart h parts i g)
  | [], leaves, hroots, i, leaf, hleaf, g => by
    cases hroots
    cases hleaf
  | part :: parts, leaves, hroots, i, leaf, hleaf, g => by
    simp only [roots, bind_eq_ok_iff, pure_eq_ok_iff] at hroots
    obtain ⟨first, hfirst, rest, hrest, rfl⟩ := hroots
    cases i with
    | zero =>
      cases hleaf
      exact opens part hfirst g
    | succ i => exact opens_part parts hrest hleaf g

end

/-- A branch has one node for each level. -/
theorem length_of_branch {layout : Layout} {root : Root} (hroot : layout.root h = .ok root)
    {g : Gindex} {branch : List Root} (hbranch : layout.branch h g = .ok branch) :
    branch.length = g.depth := by
  have hopens := opens layout hroot g
  rw [hbranch] at hopens
  exact hopens.length_branch

end Layout

end SimpleSerialize
