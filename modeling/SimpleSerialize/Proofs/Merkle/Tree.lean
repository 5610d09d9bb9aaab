import SimpleSerialize.Merkle.Branch
import SimpleSerialize.Proofs.Merkle.Gindex

/-!
Folding layer by layer gives the root that halving gives, so every subtree is the pair of its two
halves (`subtreeRoot_succ`). Climbing from a subtree with the subtrees beside the way reaches the
root above it (`climb_siblings`).
-/

namespace SimpleSerialize.Merkle

variable {h : HashFunction} {zero : Root} {leaves : List Root}

theorem take_pairUp (count : Nat) (layer : List Root) :
    (pairUp h zero layer).take count = pairUp h zero (layer.take (2 * count)) := by
  induction count generalizing layer with
  | zero => rfl
  | succ count ih =>
    match layer with
    | [] => rfl
    | [node] => simp [pairUp, Nat.mul_succ]
    | left :: right :: nodes =>
      rw [pairUp, List.take_succ_cons, ih, Nat.mul_succ, List.take_succ_cons, List.take_succ_cons,
        pairUp]

theorem drop_pairUp (count : Nat) (layer : List Root) :
    (pairUp h zero layer).drop count = pairUp h zero (layer.drop (2 * count)) := by
  induction count generalizing layer with
  | zero => rfl
  | succ count ih =>
    match layer with
    | [] => rfl
    | [node] => simp [pairUp, Nat.mul_succ]
    | left :: right :: nodes =>
      rw [pairUp, List.drop_succ_cons, ih, Nat.mul_succ, List.drop_succ_cons, List.drop_succ_cons]

/-- Folding a layer pairs what its two halves fold to. -/
theorem foldUp_succ (levels : Nat) (layer : List Root) :
    foldUp h zero (levels + 1) layer =
      h.pair (foldUp h zero levels layer) (foldUp h zero levels (layer.drop (2 ^ levels))) := by
  induction levels generalizing zero layer with
  | zero =>
    match layer with
    | [] => rfl
    | [node] => rfl
    | left :: right :: nodes => rfl
  | succ levels ih =>
    rw [foldUp, ih, drop_pairUp, Nat.mul_comm, ← Nat.pow_succ]
    rfl

/-- Folding looks at the slots of its tree only. -/
theorem foldUp_take (levels : Nat) (layer : List Root) :
    foldUp h zero levels (layer.take (2 ^ levels)) = foldUp h zero levels layer := by
  induction levels generalizing zero layer with
  | zero => cases layer <;> rfl
  | succ levels ih =>
    rw [foldUp, foldUp, Nat.pow_succ, Nat.mul_comm, ← take_pairUp, ih]

theorem subtreeRoot_eq (height position : Nat) :
    subtreeRoot h leaves height position
      = foldUp h .zero height (leaves.drop (position * 2 ^ height)) :=
  foldUp_take height _

theorem subtreeRoot_position_zero (height : Nat) :
    subtreeRoot h leaves height 0 = foldUp h .zero height leaves := by
  rw [subtreeRoot_eq, Nat.zero_mul, List.drop_zero]

theorem subtreeRoot_succ (height position : Nat) :
    subtreeRoot h leaves (height + 1) position =
      h.pair (subtreeRoot h leaves height (2 * position))
        (subtreeRoot h leaves height (2 * position + 1)) := by
  have hleft : 2 * position * 2 ^ height = position * 2 ^ (height + 1) := by
    rw [Nat.pow_succ, Nat.mul_comm 2, Nat.mul_assoc, Nat.mul_comm 2]
  have hright : (2 * position + 1) * 2 ^ height = position * 2 ^ (height + 1) + 2 ^ height := by
    rw [Nat.add_mul, hleft, Nat.one_mul]
  rw [subtreeRoot_eq, subtreeRoot_eq, subtreeRoot_eq, foldUp_succ, List.drop_drop, hleft, hright]

/-- Past the leaves there are only zeros. -/
theorem subtreeRoot_of_past {height position : Nat}
    (hpast : leaves.length ≤ position * 2 ^ height) :
    subtreeRoot h leaves height position = h.zeroRoot height := by
  rw [subtreeRoot_eq, List.drop_of_length_le hpast]
  clear hpast
  induction height with
  | zero => rfl
  | succ height ih => rw [foldUp_succ, List.drop_nil, ih, HashFunction.zeroRoot]

theorem subtreeRoot_height_zero (position : Nat) :
    subtreeRoot h leaves 0 position = leaves[position]?.getD .zero := by
  rw [subtreeRoot_eq, Nat.pow_zero, Nat.mul_one, foldUp, List.headD_eq_head?_getD,
    List.head?_drop]

theorem subtreeRoot_leaf {position : Nat} {leaf : Root} (hleaf : leaves[position]? = some leaf) :
    subtreeRoot h leaves 0 position = leaf := by
  rw [subtreeRoot_height_zero, hleaf, Option.getD_some]

/-- The other place under the same parent. -/
def beside (position : Nat) : Nat := if position % 2 = 0 then position + 1 else position - 1

/-- The subtrees beside the way up from the `position`-th subtree of a height. -/
def siblings (h : HashFunction) (leaves : List Root) : (height levels position : Nat) → List Root
  | _, 0, _ => []
  | height, levels + 1, position =>
    subtreeRoot h leaves height (beside position) ::
      siblings h leaves (height + 1) levels (position / 2)

@[simp] theorem length_siblings (height levels position : Nat) :
    (siblings h leaves height levels position).length = levels := by
  induction levels generalizing height position with
  | zero => rfl
  | succ levels ih => rw [siblings, List.length_cons, ih]

theorem getElem?_siblings {height levels position k : Nat} (hk : k < levels) :
    (siblings h leaves height levels position)[k]?
      = some (subtreeRoot h leaves (height + k) (beside (position / 2 ^ k))) := by
  induction levels generalizing height position k with
  | zero => exact absurd hk (Nat.not_lt_zero k)
  | succ levels ih =>
    cases k with
    | zero => rw [siblings, List.getElem?_cons_zero, Nat.pow_zero, Nat.div_one, Nat.add_zero]
    | succ k =>
      rw [siblings, List.getElem?_cons_succ, ih (Nat.lt_of_succ_lt_succ hk),
        Nat.div_div_eq_div_mul, Nat.mul_comm 2, ← Nat.pow_succ, Nat.add_right_comm, Nat.add_assoc]

theorem map_range'_eq_siblings (h : HashFunction) (leaves : List Root) (leaf height levels : Nat) :
    ((List.range' height levels).map fun height =>
      subtreeRoot h leaves height (beside (leaf / 2 ^ height)))
      = siblings h leaves height levels (leaf / 2 ^ height) := by
  induction levels generalizing height with
  | zero => rfl
  | succ levels ih =>
    rw [List.range'_succ, List.map_cons, ih, siblings, Nat.pow_succ, Nat.div_div_eq_div_mul]

theorem beside_ne (position : Nat) : beside position ≠ position := by
  unfold beside
  split <;> omega

/-- The last bit tells a place from the one beside it. -/
theorem xor_one_eq_beside (n : Nat) : n ^^^ 1 = beside n := by
  have hhalf : (n ^^^ 1) / 2 = n / 2 := by
    rw [Nat.xor_div_two]
    exact Nat.xor_zero _
  have hbit : (n ^^^ 1) % 2 = 1 ↔ _ := Nat.xor_mod_two_eq_one
  unfold beside
  split <;> omega

theorem subtreeRoot_set {i height position : Nat} (hne : position ≠ i / 2 ^ height) (leaf : Root) :
    subtreeRoot h (leaves.set i leaf) height position = subtreeRoot h leaves height position := by
  unfold subtreeRoot
  congr 1
  rw [List.drop_set]
  by_cases hbefore : i < position * 2 ^ height
  · rw [if_pos hbefore]
  · have hpast : position + 1 ≤ i / 2 ^ height := by
      have := (Nat.le_div_iff_mul_le (Nat.two_pow_pos height)).mpr (Nat.le_of_not_lt hbefore)
      omega
    rw [Nat.le_div_iff_mul_le (Nat.two_pow_pos height), Nat.add_mul, Nat.one_mul] at hpast
    rw [if_neg hbefore, List.take_set, List.set_eq_of_length_le]
    rw [List.length_take]
    omega

/-- The subtrees beside the way up from a leaf do not contain it. -/
theorem siblings_set (h : HashFunction) (leaves : List Root) (i height levels : Nat) (leaf : Root) :
    siblings h (leaves.set i leaf) height levels (i / 2 ^ height)
      = siblings h leaves height levels (i / 2 ^ height) := by
  induction levels generalizing height with
  | zero => rfl
  | succ levels ih =>
    rw [siblings, siblings, subtreeRoot_set (beside_ne _), Nat.div_div_eq_div_mul,
      ← Nat.pow_succ, ih]

/-- A node and its sibling, the left one first. -/
def inOrder (path : Nat) (node sibling : Root) : Root × Root :=
  if path % 2 = 1 then (sibling, node) else (node, sibling)

theorem climb_cons (path : Nat) (node sibling : Root) (branch : List Root) :
    climb h path node (sibling :: branch)
      = climb h (path / 2) (h.pair (inOrder path node sibling).1 (inOrder path node sibling).2)
          branch := by
  rw [climb, inOrder]
  split <;> rfl

/-- A subtree and the one beside it, in order, are the two halves of the one above. -/
theorem inOrder_beside {path position : Nat} (hbit : path % 2 = position % 2) (height : Nat) :
    inOrder path (subtreeRoot h leaves height position)
        (subtreeRoot h leaves height (beside position))
      = (subtreeRoot h leaves height (2 * (position / 2)),
          subtreeRoot h leaves height (2 * (position / 2) + 1)) := by
  unfold inOrder beside
  by_cases hodd : position % 2 = 1
  · have hleft : position - 1 = 2 * (position / 2) := by omega
    have hright : position = 2 * (position / 2) + 1 := by omega
    rw [hbit, if_pos hodd, if_neg (by omega), hleft, ← hright]
  · have hleft : position = 2 * (position / 2) := by omega
    rw [hbit, if_neg hodd, if_pos (by omega), ← hleft]

/-- Paths that agree on some bits agree on the last of them and on the others. -/
theorem lastBit_and_rest {path path' levels : Nat}
    (hpath : path % 2 ^ (levels + 1) = path' % 2 ^ (levels + 1)) :
    path % 2 = path' % 2 ∧ path / 2 % 2 ^ levels = path' / 2 % 2 ^ levels := by
  rw [Nat.pow_succ] at hpath
  have hbit := congrArg (· % 2) hpath
  simp only [Nat.mod_mul_left_mod] at hbit
  refine ⟨hbit, ?_⟩
  rw [← Nat.mod_mul_left_div_self, ← Nat.mod_mul_left_div_self, hpath]

theorem climb_siblings {path height levels position : Nat}
    (hpath : path % 2 ^ levels = position % 2 ^ levels) :
    climb h path (subtreeRoot h leaves height position) (siblings h leaves height levels position)
      = subtreeRoot h leaves (height + levels) (position / 2 ^ levels) := by
  induction levels generalizing path height position with
  | zero => rw [siblings, climb, Nat.pow_zero, Nat.div_one, Nat.add_zero]
  | succ levels ih =>
    obtain ⟨hbit, hrest⟩ := lastBit_and_rest hpath
    calc climb h path (subtreeRoot h leaves height position)
          (siblings h leaves height (levels + 1) position)
        = climb h (path / 2) (subtreeRoot h leaves (height + 1) (position / 2))
            (siblings h leaves (height + 1) levels (position / 2)) := by
          rw [siblings, climb_cons, inOrder_beside hbit, ← subtreeRoot_succ]
      _ = subtreeRoot h leaves (height + 1 + levels) (position / 2 / 2 ^ levels) := ih hrest
      _ = subtreeRoot h leaves (height + (levels + 1)) (position / 2 ^ (levels + 1)) := by
          rw [Nat.div_div_eq_div_mul, Nat.mul_comm 2, ← Nat.pow_succ, Nat.add_right_comm,
            Nat.add_assoc]

theorem climb_append (path : Nat) (node : Root) (inner outer : List Root) :
    climb h path node (inner ++ outer)
      = climb h (path / 2 ^ inner.length) (climb h path node inner) outer := by
  induction inner generalizing path node with
  | nil => rw [List.nil_append, List.length_nil, Nat.pow_zero, Nat.div_one, climb]
  | cons sibling inner ih =>
    rw [List.cons_append, climb, ih, climb, List.length_cons, Nat.pow_succ, Nat.mul_comm,
      Nat.div_div_eq_div_mul]

/-- Only as many bits of the path matter as there are levels to climb. -/
theorem climb_congr {path path' : Nat} {branch : List Root}
    (hpath : path % 2 ^ branch.length = path' % 2 ^ branch.length) (node : Root) :
    climb h path node branch = climb h path' node branch := by
  induction branch generalizing path path' node with
  | nil => rfl
  | cons sibling branch ih =>
    obtain ⟨hbit, hrest⟩ := lastBit_and_rest hpath
    rw [climb, climb, hbit, ih hrest]

theorem climb_concat {outer inner g : Gindex} (hconcat : outer.concat inner = .ok g)
    {branch : List Root} (hlength : branch.length = inner.depth) (node : Root)
    (outerBranch : List Root) :
    climb h g.toNat node (branch ++ outerBranch)
      = climb h outer.toNat (climb h inner.toNat node branch) outerBranch := by
  have htop := Gindex.toNat_div_of_concat hconcat
  have hbelow := Gindex.toNat_mod_of_concat hconcat
  rw [← hlength] at htop hbelow
  calc climb h g.toNat node (branch ++ outerBranch)
      = climb h (g.toNat / 2 ^ branch.length) (climb h g.toNat node branch) outerBranch :=
        climb_append _ _ _ _
    _ = climb h outer.toNat (climb h inner.toNat node branch) outerBranch := by
        rw [htop, climb_congr hbelow]

end SimpleSerialize.Merkle
