import SimpleSerialize.Proofs.Merkle.Path

/-!
Branches joined at the root of a subtree. A joined branch climbs through the subtree and then on to
the root above it, and the branch of a part joined with the branch of its place is the branch that
the whole value gives.
-/

namespace SimpleSerialize

namespace Merkle

variable {h : HashFunction} {gindex innerGindex outerGindex : Gindex}
  {inner outer branch : List Root} {root subtree leaf : Root}

theorem rootFrom_eq_ok_iff :
    rootFrom h branch gindex leaf = .ok root ↔
      branch.length = gindex.depth ∧ climb h gindex.toNat leaf branch = root := by
  unfold rootFrom
  by_cases hlength : branch.length = gindex.depth <;> simp [hlength]

theorem verify_eq_true_iff :
    verify h branch gindex root leaf = .ok true ↔
      branch.length = gindex.depth ∧ climb h gindex.toNat leaf branch = root := by
  rw [verify, map_eq_ok_iff]
  simp only [beq_iff_eq, exists_eq_right, rootFrom_eq_ok_iff]

theorem joinVerified_eq_ok_iff :
    joinVerified h inner innerGindex subtree outer outerGindex root = .ok (gindex, branch) ↔
      verify h outer outerGindex root subtree = .ok true ∧ inner.length = innerGindex.depth ∧
        outerGindex.concat innerGindex = .ok gindex ∧ inner ++ outer = branch := by
  rw [joinVerified, bind_eq_ok_iff]
  constructor
  · rintro ⟨placed, hplaced, hjoin⟩
    cases placed with
    | false => cases hjoin
    | true =>
      rw [if_pos rfl] at hjoin
      split at hjoin
      next hlength =>
        simp only [bind_eq_ok_iff, mapError_eq_ok_iff, pure_eq_ok_iff, Prod.mk.injEq] at hjoin
        obtain ⟨g, hconcat, rfl, hbranch⟩ := hjoin
        exact ⟨hplaced, hlength, hconcat, hbranch⟩
      next => cases hjoin
  · rintro ⟨hplaced, hlength, hconcat, rfl⟩
    refine ⟨true, hplaced, ?_⟩
    rw [if_pos rfl, if_pos hlength, hconcat]
    rfl

theorem exists_joinVerified_iff :
    (∃ gindex branch,
        joinVerified h inner innerGindex subtree outer outerGindex root = .ok (gindex, branch)) ↔
      verify h outer outerGindex root subtree = .ok true ∧ inner.length = innerGindex.depth ∧
        outerGindex.depth + innerGindex.depth ≤ maxDepth := by
  simp only [joinVerified_eq_ok_iff]
  constructor
  · rintro ⟨gindex, branch, hplaced, hlength, hconcat, -⟩
    exact ⟨hplaced, hlength, (Gindex.concat_eq_ok_iff.mp hconcat).1⟩
  · rintro ⟨hplaced, hlength, hdepth⟩
    obtain ⟨gindex, hconcat⟩ := Gindex.exists_concat hdepth
    exact ⟨gindex, inner ++ outer, hplaced, hlength, hconcat, rfl⟩

/-- What stands below a subtree is hashed up to the subtree first, and from there to the root. -/
theorem rootFrom_joinBranches (hconcat : outerGindex.concat innerGindex = .ok gindex)
    (hinner : inner.length = innerGindex.depth) (houter : outer.length = outerGindex.depth)
    (leaf : Root) :
    ∃ node top, rootFrom h inner innerGindex leaf = .ok node ∧
      rootFrom h outer outerGindex node = .ok top ∧
      rootFrom h (joinBranches inner outer) gindex leaf = .ok top := by
  have hlength : (joinBranches inner outer).length = gindex.depth := by
    rw [joinBranches, List.length_append, hinner, houter, Gindex.depth_of_concat hconcat,
      Nat.add_comm]
  refine ⟨climb h innerGindex.toNat leaf inner,
    climb h outerGindex.toNat (climb h innerGindex.toNat leaf inner) outer, ?_, ?_, ?_⟩
  · exact rootFrom_eq_ok_iff.mpr ⟨hinner, rfl⟩
  · exact rootFrom_eq_ok_iff.mpr ⟨houter, rfl⟩
  · exact rootFrom_eq_ok_iff.mpr ⟨hlength, climb_concat hconcat hinner leaf outer⟩

end Merkle

namespace Shape

variable {h : HashFunction} {shape target : Shape} {v c : Value} {path : List Nat}
  {place below g : Gindex} {inner : List Root} {root : Root}

/-- The branch of a part goes on with the branch of the place where the part stands. -/
theorem prove_of_part (hroot : shape.hashTreeRoot h v = .ok root)
    (hshape : shape.at? path = some target) (hvalue : v.at? path = some c)
    (hplace : shape.gindexAt? path = some place) (hconcat : place.concat below = .ok g)
    (hinner : target.prove h c below = .ok inner) :
    ∃ outer subtree, shape.prove h v place = .ok outer ∧ target.hashTreeRoot h c = .ok subtree ∧
      Merkle.joinVerified h inner below subtree outer place root
        = .ok (g, Merkle.joinBranches inner outer) ∧
      shape.prove h v g = .ok (Merkle.joinBranches inner outer) := by
  obtain ⟨outer, hall⟩ := Layout.placed_path hroot hshape hvalue hplace
  have hplaced := hall c
  obtain ⟨subtree, hsubtree, hclimb⟩ := hplaced.exists_root hroot
  have hbranch := mapError_eq_ok_iff.mp hinner
  have hlength := Layout.length_of_branch hsubtree hbranch
  have hverify : Merkle.verify h outer place root subtree = .ok true :=
    Merkle.verify_eq_true_iff.mpr ⟨hplaced.length_outer, hclimb⟩
  refine ⟨outer, subtree, mapError_eq_ok_iff.mpr hplaced.branch_place, hsubtree, ?_, ?_⟩
  · exact Merkle.joinVerified_eq_ok_iff.mpr ⟨hverify, hlength, hconcat, rfl⟩
  · rw [prove, hplaced.branch_eq hconcat, hbranch]
    rfl

/--
Branches join exactly when the outer one places the subtree, the inner one has the length of its
gindex and the two gindices join, and then every leaf is hashed through the subtree to the root. The
branches of a part of a value and of its place join to the branch that the value itself gives.
-/
theorem joined_proof_is_direct (h : HashFunction) :
    (∀ (inner outer : List Root) (innerGindex outerGindex : Gindex) (subtree root : Root),
      ((∃ gindex branch, Merkle.joinVerified h inner innerGindex subtree outer outerGindex root
          = .ok (gindex, branch)) ↔
        Merkle.verify h outer outerGindex root subtree = .ok true ∧
          inner.length = innerGindex.depth ∧
          outerGindex.depth + innerGindex.depth ≤ maxDepth) ∧
      ∀ gindex branch, Merkle.joinVerified h inner innerGindex subtree outer outerGindex root
          = .ok (gindex, branch) →
        outerGindex.concat innerGindex = .ok gindex ∧
          ∀ leaf, ∃ node top, Merkle.rootFrom h inner innerGindex leaf = .ok node ∧
            Merkle.rootFrom h outer outerGindex node = .ok top ∧
            Merkle.rootFrom h branch gindex leaf = .ok top) ∧
    ∀ (shape target : Shape) (v c : Value) (root : Root) (path : List Nat)
      (place below : Gindex) (inner : List Root),
      shape.hashTreeRoot h v = .ok root → shape.at? path = some target → v.at? path = some c →
      shape.gindexAt? path = some place → place.depth + below.depth ≤ maxDepth →
      target.prove h c below = .ok inner →
      ∃ outer subtree g branch, shape.prove h v place = .ok outer ∧
        target.hashTreeRoot h c = .ok subtree ∧ place.concat below = .ok g ∧
        Merkle.joinVerified h inner below subtree outer place root = .ok (g, branch) ∧
        shape.prove h v g = .ok branch := by
  refine ⟨?_, ?_⟩
  · intro inner outer innerGindex outerGindex subtree root
    refine ⟨Merkle.exists_joinVerified_iff, ?_⟩
    intro gindex branch hjoined
    obtain ⟨hplaced, hinner, hconcat, rfl⟩ := Merkle.joinVerified_eq_ok_iff.mp hjoined
    obtain ⟨houter, -⟩ := Merkle.verify_eq_true_iff.mp hplaced
    exact ⟨hconcat, Merkle.rootFrom_joinBranches hconcat hinner houter⟩
  · intro shape target v c root path place below inner hroot hshape hvalue hplace hdepth hinner
    obtain ⟨g, hconcat⟩ := Gindex.exists_concat hdepth
    obtain ⟨outer, subtree, houter, hsubtree, hjoined, hdirect⟩ :=
      prove_of_part hroot hshape hvalue hplace hconcat hinner
    exact ⟨outer, subtree, g, _, houter, hsubtree, hconcat, hjoined, hdirect⟩

/-- The tags of the second record. -/
def tagsGindex : Gindex := ⟨35, by decide, by decide⟩

/-- The first of them, in the list that they are. -/
def firstTagGindex : Gindex := ⟨8, by decide, by decide⟩

theorem joined_proof_is_direct_registry :
    ∃ root subtree inner outer branch, registry.hashTreeRoot .sha256 registryValue = .ok root ∧
      registry.gindexAt? [1, 1] = some tagsGindex ∧
      tagsGindex.concat firstTagGindex = .ok tagGindex ∧
      (list (byteList 4) 3).prove .sha256 (.list [.bytes [3], .bytes []]) firstTagGindex
        = .ok inner ∧
      registry.prove .sha256 registryValue tagsGindex = .ok outer ∧
      Merkle.joinVerified .sha256 inner firstTagGindex subtree outer tagsGindex root
        = .ok (tagGindex, branch) ∧
      registry.prove .sha256 registryValue tagGindex = .ok branch ∧
      ∀ leaf, ∃ node top, Merkle.rootFrom .sha256 inner firstTagGindex leaf = .ok node ∧
        Merkle.rootFrom .sha256 outer tagsGindex node = .ok top ∧
        Merkle.rootFrom .sha256 branch tagGindex leaf = .ok top := by
  obtain ⟨hjoins, hparts⟩ := joined_proof_is_direct .sha256
  have hroot : registry.hashTreeRoot .sha256 registryValue = .ok _ := rfl
  have hshape : registry.at? [1, 1] = some (list (byteList 4) 3) := by decide
  have hvalue : registryValue.at? [1, 1] = some (.list [.bytes [3], .bytes []]) := by decide
  have hplace : registry.gindexAt? [1, 1] = some tagsGindex := by decide
  have hinner : (list (byteList 4) 3).prove .sha256 (.list [.bytes [3], .bytes []]) firstTagGindex
      = .ok _ := rfl
  have hconcat : tagsGindex.concat firstTagGindex = .ok tagGindex := rfl
  obtain ⟨outer, subtree, g, branch, houter, -, hg, hjoined, hdirect⟩ :=
    hparts _ _ _ _ _ _ _ _ _ hroot hshape hvalue hplace (by decide) hinner
  obtain rfl := Except.ok.inj (hconcat.symm.trans hg)
  obtain ⟨-, hleaf⟩ := (hjoins _ _ _ _ _ _).2 _ _ hjoined
  exact ⟨_, subtree, _, outer, branch, hroot, hplace, hconcat, hinner, houter, hjoined, hdirect,
    hleaf⟩

end Shape

end SimpleSerialize
