import SimpleSerialize.Proofs.Merkle.Climb
import SimpleSerialize.Proofs.Merkle.Joined

/-!
Two branches for one position. Nothing is asked of the hash function: whoever has two leaves, or two
branches, that give the same root has two pairs that collide, and they are pairs of the same level
(`Merkle.branches_bind_leaf`). That some two pairs collide is true of every hash function, so the
pairs have to be those of the two runs.
-/

namespace SimpleSerialize.Merkle

variable {h : HashFunction} {g : Gindex} {leaf leaf' : Root} {branch branch' : List Root}

theorem lt_depth_of_collidesAt {level : Nat}
    (hcollides : h.CollidesAt level (rootFromPairs h branch g leaf)
      (rootFromPairs h branch' g leaf')) :
    level < g.depth := by
  obtain ⟨p, -, hp, -⟩ := hcollides
  unfold rootFromPairs at hp
  split at hp
  next hlength =>
    rw [getElem?_climbPairs] at hp
    obtain ⟨sibling, hsibling, -⟩ := Option.map_eq_some_iff.mp hp
    obtain ⟨hlevel, -⟩ := List.getElem?_eq_some_iff.mp hsibling
    exact hlength ▸ hlevel
  next => cases hp

/-- Leaves and branches that give the same root are the same, up to a collision. -/
theorem rootFrom_eq_or_collides (hlength : branch.length = g.depth)
    (hlength' : branch'.length = g.depth)
    (hroot : rootFrom h branch g leaf = rootFrom h branch' g leaf') :
    (leaf = leaf' ∧ branch = branch') ∨
      ∃ level < g.depth,
        h.CollidesAt level (rootFromPairs h branch g leaf) (rootFromPairs h branch' g leaf') := by
  rw [rootFrom, rootFrom, if_pos hlength, if_pos hlength'] at hroot
  apply (climb_eq_or_collides (hlength.trans hlength'.symm) (Except.ok.inj hroot)).imp_right
  intro hcollides
  obtain ⟨level, hlevel⟩ := hcollides
  have hpairs : h.CollidesAt level (rootFromPairs h branch g leaf)
      (rootFromPairs h branch' g leaf') := by
    rwa [rootFromPairs, rootFromPairs, if_pos hlength, if_pos hlength']
  exact ⟨level, lt_depth_of_collidesAt hpairs, hpairs⟩

theorem rootFrom_of_verify {root : Root} (hverify : verify h branch g root leaf = .ok true) :
    branch.length = g.depth ∧ rootFrom h branch g leaf = .ok root := by
  have hclimb := verify_eq_true_iff.mp hverify
  exact ⟨hclimb.1, rootFrom_eq_ok_iff.mpr hclimb⟩

/--
A root binds what stands at a position, and the siblings on the way up. Whatever else is changed in
the leaf or in the branch, if the change is still accepted then the two runs hash different pairs to
one node at some level.
-/
theorem branches_bind_leaf (hlength : branch.length = g.depth)
    (hlength' : branch'.length = g.depth) :
    (rootFrom h branch g leaf = rootFrom h branch' g leaf' →
      (leaf = leaf' ∧ branch = branch') ∨
        ∃ level < g.depth,
          h.CollidesAt level (rootFromPairs h branch g leaf)
            (rootFromPairs h branch' g leaf')) ∧
    ∀ root, verify h branch g root leaf = .ok true →
      ¬(leaf' = leaf ∧ branch' = branch) → verify h branch' g root leaf' = .ok true →
        ∃ level < g.depth,
          h.CollidesAt level (rootFromPairs h branch g leaf)
            (rootFromPairs h branch' g leaf') := by
  refine ⟨rootFrom_eq_or_collides hlength hlength', ?_⟩
  intro root hverify hchanged hverify'
  obtain ⟨-, hroot⟩ := rootFrom_of_verify hverify
  obtain ⟨-, hroot'⟩ := rootFrom_of_verify hverify'
  apply (rootFrom_eq_or_collides hlength hlength' (hroot.trans hroot'.symm)).resolve_left
  intro hsame
  exact hchanged ⟨hsame.1.symm, hsame.2.symm⟩

/-- Keeps the left node of a pair, so that pairs collide whenever they agree on the left. -/
def leftmost : HashFunction where
  hash := .ofPadded
  pair left _ := left

/-- A right child under a left child, so that the outer sibling is hashed on the right. -/
def crossed : Gindex := .atDepth 2 1 (by decide) (by decide)

theorem branches_bind_leaf_leftmost :
    verify leftmost [.zero, .zero] crossed .zero .zero = .ok true ∧
      verify leftmost [.zero, .ofNat 1] crossed .zero .zero = .ok true ∧
      ∃ level < crossed.depth,
        leftmost.CollidesAt level (rootFromPairs leftmost [.zero, .zero] crossed .zero)
          (rootFromPairs leftmost [.zero, .ofNat 1] crossed .zero) := by
  have hverify : verify leftmost [.zero, .zero] crossed .zero .zero = .ok true := rfl
  have hverify' : verify leftmost [.zero, .ofNat 1] crossed .zero .zero = .ok true := rfl
  refine ⟨hverify, hverify', ?_⟩
  apply (branches_bind_leaf (by decide) (by decide)).2 .zero hverify _ hverify'
  decide

end SimpleSerialize.Merkle
