import SimpleSerialize.Proofs.Merkle.Hashed
import SimpleSerialize.Proofs.Merkle.Tree

/-!
Climbing hashes one pair a level (`Merkle.getElem?_climbPairs`). Two climbs of the same path that
end at the same node started at the same node, beside the same siblings, unless the two pairs of
some level collide (`Merkle.climb_eq_or_collides`). The climb beside the subtrees of a tree hashes
pairs of that tree only, also where the tree has no leaves any more
(`Merkle.climbPairs_siblings_subset`).
-/

namespace SimpleSerialize.Merkle

variable {h : HashFunction} {zero : Root} {pairs : List (Root × Root)}

theorem climbPairs_append (path : Nat) (node : Root) (inner outer : List Root) :
    climbPairs h path node (inner ++ outer)
      = climbPairs h path node inner
        ++ climbPairs h (path / 2 ^ inner.length) (climb h path node inner) outer := by
  induction inner generalizing path node with
  | nil => simp [climbPairs, climb]
  | cons sibling inner ih =>
    rw [List.cons_append, climbPairs, ih, climbPairs, climb_cons, List.cons_append,
      List.length_cons, Nat.pow_succ', Nat.div_div_eq_div_mul]

theorem climbPairs_congr {path path' : Nat} {branch : List Root}
    (hpath : path % 2 ^ branch.length = path' % 2 ^ branch.length) (node : Root) :
    climbPairs h path node branch = climbPairs h path' node branch := by
  induction branch generalizing path path' node with
  | nil => rfl
  | cons sibling branch ih =>
    obtain ⟨hbit, hrest⟩ := lastBit_and_rest hpath
    rw [climbPairs, climbPairs, inOrder, inOrder, hbit, ih hrest]

theorem climbPairs_concat {outer inner g : Gindex} (hconcat : outer.concat inner = .ok g)
    {branch : List Root} (hlength : branch.length = inner.depth) (node : Root)
    (outerBranch : List Root) :
    climbPairs h g.toNat node (branch ++ outerBranch)
      = climbPairs h inner.toNat node branch
        ++ climbPairs h outer.toNat (climb h inner.toNat node branch) outerBranch := by
  have htop := Gindex.toNat_div_of_concat hconcat
  have hbelow := Gindex.toNat_mod_of_concat hconcat
  rw [← hlength] at htop hbelow
  rw [climbPairs_append, htop, climbPairs_congr hbelow, climb_congr hbelow]

theorem inOrder_injective {path : Nat} {node node' sibling sibling' : Root}
    (hpair : inOrder path node sibling = inOrder path node' sibling') :
    node = node' ∧ sibling = sibling' := by
  unfold inOrder at hpair
  split at hpair
  · cases hpair
    exact ⟨rfl, rfl⟩
  · cases hpair
    exact ⟨rfl, rfl⟩

/-- The pair of a level is the node reached so far and its sibling, in the order that the path
gives them there. -/
theorem getElem?_climbPairs (path : Nat) (node : Root) (branch : List Root) (level : Nat) :
    (climbPairs h path node branch)[level]?
      = branch[level]?.map
          (inOrder (path / 2 ^ level) (climb h path node (branch.take level))) := by
  induction branch generalizing path node level with
  | nil => rfl
  | cons sibling branch ih =>
    cases level with
    | zero => rw [climbPairs, Nat.pow_zero, Nat.div_one]; rfl
    | succ level =>
      rw [climbPairs, List.getElem?_cons_succ, ih, List.getElem?_cons_succ, List.take_succ_cons,
        climb_cons, Nat.pow_succ', Nat.div_div_eq_div_mul]

theorem climb_eq_or_collides {path : Nat} {node node' : Root} {branch branch' : List Root}
    (hlength : branch.length = branch'.length)
    (hroot : climb h path node branch = climb h path node' branch') :
    (node = node' ∧ branch = branch') ∨
      ∃ level, h.CollidesAt level (climbPairs h path node branch)
        (climbPairs h path node' branch') := by
  induction branch generalizing path node node' branch' with
  | nil =>
    obtain rfl := List.length_eq_zero_iff.mp hlength.symm
    exact .inl ⟨hroot, rfl⟩
  | cons sibling branch ih =>
    match branch' with
    | [] => cases hlength
    | sibling' :: branch' =>
      rw [climb_cons, climb_cons] at hroot
      rw [climbPairs, climbPairs]
      -- The levels above come first: only if nothing collides there do both runs hash to one node.
      rcases ih (Nat.succ.inj hlength) hroot with ⟨habove, hbranch⟩ | ⟨level, hcollides⟩
      · by_cases hpair : inOrder path node sibling = inOrder path node' sibling'
        · obtain ⟨hnode, hsibling⟩ := inOrder_injective hpair
          rw [hsibling, hbranch]
          exact .inl ⟨hnode, rfl⟩
        · exact .inr ⟨0, _, _, rfl, rfl, hpair, habove⟩
      · exact .inr ⟨level + 1, hcollides⟩

theorem climb_injective (hinj : h.InjectiveOn pairs) {path : Nat} {node node' : Root}
    {branch branch' : List Root} (hlength : branch.length = branch'.length)
    (hpairs : climbPairs h path node branch ⊆ pairs)
    (hpairs' : climbPairs h path node' branch' ⊆ pairs)
    (hroot : climb h path node branch = climb h path node' branch') :
    node = node' ∧ branch = branch' := by
  refine (climb_eq_or_collides hlength hroot).resolve_right ?_
  intro hcollides
  obtain ⟨level, hlevel⟩ := hcollides
  exact hinj.not_collidesAt hpairs hpairs' level hlevel

/-- Past the last node, the pairs of a layer are pairs of zeros. -/
theorem headD_drop_mem_layerPairs (layer : List Root) (position : Nat) :
    ((layer.drop (2 * position)).headD zero, (layer.drop (2 * position + 1)).headD zero)
      ∈ (zero, zero) :: layerPairs zero layer := by
  induction layer using layerPairs.induct generalizing position with
  | case1 => simp
  | case2 node => cases position <;> simp [layerPairs, Nat.mul_succ]
  | case3 left right nodes ih =>
    cases position with
    | zero => simp [layerPairs]
    | succ position =>
      have hrest := ih position
      rw [List.mem_cons] at hrest
      rw [layerPairs, Nat.mul_succ, List.mem_cons, List.mem_cons]
      exact hrest.imp_right .inr

theorem foldUp_mem_foldPairs {height levels : Nat} (hheight : height < levels) (layer : List Root)
    (position : Nat) :
    (foldUp h zero height (layer.drop (2 * position * 2 ^ height)),
      foldUp h zero height (layer.drop ((2 * position + 1) * 2 ^ height)))
      ∈ foldPairs h zero levels layer := by
  induction height generalizing zero levels layer with
  | zero =>
    cases levels with
    | zero => omega
    | succ levels =>
      rw [Nat.pow_zero, Nat.mul_one, Nat.mul_one, foldUp, foldUp, foldPairs]
      exact List.mem_append_left _ (headD_drop_mem_layerPairs layer position)
  | succ height ih =>
    cases levels with
    | zero => omega
    | succ levels =>
      have hup (count : Nat) : foldUp h zero (height + 1) (layer.drop (count * 2 ^ (height + 1)))
          = foldUp h (h.pair zero zero) height
              ((pairUp h zero layer).drop (count * 2 ^ height)) := by
        rw [foldUp, drop_pairUp, Nat.pow_succ', Nat.mul_left_comm]
      rw [hup, hup, foldPairs]
      exact List.mem_append_right _ (ih (Nat.lt_of_succ_lt_succ hheight) (pairUp h zero layer))

variable {leaves : List Root}

/-- Whatever the place of the first subtree, all pairs on the way up are pairs of the tree. -/
theorem climbPairs_siblings_subset {path height climbed levels position : Nat}
    (hpath : path % 2 ^ climbed = position % 2 ^ climbed) (hlevels : height + climbed ≤ levels) :
    climbPairs h path (subtreeRoot h leaves height position)
        (siblings h leaves height climbed position)
      ⊆ foldPairs h .zero levels leaves := by
  induction climbed generalizing path height position with
  | zero => exact List.nil_subset _
  | succ climbed ih =>
    obtain ⟨hbit, hrest⟩ := lastBit_and_rest hpath
    rw [siblings, climbPairs, inOrder_beside hbit, ← subtreeRoot_succ, List.cons_subset]
    refine ⟨?_, ih hrest (by omega)⟩
    rw [subtreeRoot_eq, subtreeRoot_eq]
    exact foldUp_mem_foldPairs (by omega) leaves (position / 2)

theorem climbPairs_from_slot_subset {i depth : Nat} {slot : Gindex}
    (hslot : Gindex.ofSlot i depth = .ok slot) (h : HashFunction) (leaves : List Root) :
    climbPairs h slot.toNat (subtreeRoot h leaves 0 i) (siblings h leaves 0 depth i)
      ⊆ foldPairs h .zero depth leaves := by
  obtain ⟨rfl, rfl⟩ := Gindex.ofSlot_eq_ok_iff.mp hslot
  apply climbPairs_siblings_subset _ (Nat.le_of_eq (Nat.zero_add _))
  rw [slot.toNat_eq, Nat.add_mod_left]

end SimpleSerialize.Merkle
