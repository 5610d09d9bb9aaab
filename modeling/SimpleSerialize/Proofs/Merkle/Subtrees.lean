import SimpleSerialize.Proofs.Merkle.Layout
import SimpleSerialize.Proofs.Merkle.Ranged

/-!
Subtrees cut out of a list of leaves. A layer folded along the zero roots of its heights comes to
what it folds to without them, and the leaves between two shifted places are those of the subtree,
so the subtrees of all heights are the nodes of one tree (`Merkle.subtrees_form_tree`).
-/

namespace SimpleSerialize

namespace Merkle

variable {h : HashFunction} {leaves layer : List Root}

theorem pairUp_ne_nil (zero : Root) (hlayer : layer ≠ []) : pairUp h zero layer ≠ [] := by
  match layer with
  | [] => exact absurd rfl hlayer
  | [node] => exact List.cons_ne_nil _ _
  | left :: right :: nodes => exact List.cons_ne_nil _ _

theorem foldUp_nil (h : HashFunction) (height : Nat) :
    foldUp h .zero height [] = h.zeroRoot height := by
  rw [← subtreeRoot_position_zero, subtreeRoot_of_past (Nat.zero_le _)]

/-- A zero root is used up at each level, and is the node that a missing one counts as there. -/
theorem foldl_doublings (zero : Root) (levels : Nat) (hlayer : layer ≠ []) :
    ((((h.doublings zero levels).take levels).foldl (fun layer zero => pairUp h zero layer)
      layer)[0]?) = some (foldUp h zero levels layer) := by
  induction levels generalizing zero layer with
  | zero =>
    match layer with
    | [] => exact absurd rfl hlayer
    | node :: nodes => rfl
  | succ levels ih =>
    rw [HashFunction.doublings, List.take_succ_cons, List.foldl_cons, foldUp]
    exact ih (h.pair zero zero) (pairUp_ne_nil zero hlayer)

end Merkle

namespace Ranged

open Merkle

variable {h : HashFunction} {leaves layer : List Root} {height position : Nat}

theorem fold_eq (h : HashFunction) (layer : List Root) (height : Nat) :
    fold h layer (h.zeroRoots height) = .ok (foldUp h .zero height layer) := by
  have hdepth : (h.zeroRoots height).length - 1 = height := by
    rw [HashFunction.zeroRoots, HashFunction.length_doublings, Nat.add_sub_cancel]
  rw [fold, sub_of_le (by rw [HashFunction.zeroRoots, HashFunction.length_doublings]; omega),
    hdepth, ok_bind]
  cases layer with
  | nil =>
    rw [foldUp_nil]
    exact get_of_getElem? (h.getElem?_zeroRoots (Nat.le_refl height))
  | cons node nodes =>
    exact get_of_getElem? (foldl_doublings .zero height (List.cons_ne_nil node nodes))

/-- A slice that starts past the end, and so ends before it starts, is empty as it should be. -/
theorem slice_min_length {α : Type} (xs : List α) {start stop : Nat} (hle : start ≤ stop) :
    slice xs start (min stop xs.length) = (xs.drop start).take (stop - start) := by
  unfold slice
  by_cases hstart : start ≤ xs.length
  · rw [if_pos ⟨Nat.le_min.mpr ⟨hle, hstart⟩, Nat.min_le_right _ _⟩]
    rcases Nat.le_total stop xs.length with hstop | hstop
    · rw [Nat.min_eq_left hstop]
    · have hlength : (xs.drop start).length = xs.length - start := List.length_drop
      rw [Nat.min_eq_right hstop, List.take_of_length_le (Nat.le_of_eq hlength),
        List.take_of_length_le (by omega)]
  · rw [if_neg (by omega), List.drop_of_length_le (by omega), List.take_nil]

/-- In a tree that gindices reach, no place that a subtree starts or ends at overruns. -/
theorem subtreeRoot_eq (h : HashFunction) (leaves : List Root) (hheight : height < maxDepth)
    (hstart : position * 2 ^ height ≤ 2 ^ (maxDepth - 1)) :
    Ranged.subtreeRoot h leaves height position
      = .ok (Merkle.subtreeRoot h leaves height position) := by
  have hamount : height ≤ ShiftRange.tree.amount := Nat.le_pred_of_lt hheight
  have hwidth : 2 ^ height ≤ 2 ^ (maxDepth - 1) := Nat.pow_le_pow_right (by decide) hamount
  have hstop : addSaturating (position * 2 ^ height) (2 ^ height)
      = position * 2 ^ height + 2 ^ height := by
    apply Nat.min_eq_left
    simp only [maxDepth, wordBound] at hstart hwidth ⊢
    omega
  rw [Ranged.subtreeRoot, shiftLeft_of_le hamount hstart, ok_bind,
    shiftLeft_of_le hamount (by rwa [Nat.one_mul]), ok_bind, Nat.one_mul, hstop]
  dsimp only
  rw [slice_min_length leaves (Nat.le_add_right _ _), Nat.add_sub_cancel_left, fold_eq,
    Merkle.subtreeRoot]

theorem merkleize_eq (h : HashFunction) (leaves : List Root) (limit : UInt64) :
    Ranged.merkleize h leaves limit = ofFit (Merkle.merkleize h leaves (some limit.toNat)) := by
  unfold Ranged.merkleize
  by_cases hroom : leaves.length ≤ limit.toNat
  · rw [if_neg (Nat.not_lt.mpr hroom), coverDepth_eq, ok_bind, fold_eq,
      Layout.merkleize_of_fits hroom]
    rfl
  · rw [if_pos (Nat.not_le.mp hroom), Merkle.merkleize, Option.getD_some, if_neg hroom]
    rfl

end Ranged

namespace Merkle

/--
The subtrees of a list of leaves are the nodes of one tree: each is the pair of the two below it,
those of height zero are the leaves, and zeros past the end, those past the last leaf are the zero
roots, and the one that covers all leaves is what they come to. What is found with words is the
same.
-/
theorem subtrees_form_tree (h : HashFunction) (leaves : List Root) :
    (∀ height position, height ≤ 62 → position * 2 ^ height ≤ 2 ^ 62 →
      Ranged.subtreeRoot h leaves height position = .ok (subtreeRoot h leaves height position)) ∧
    (∀ height position, subtreeRoot h leaves (height + 1) position =
      h.pair (subtreeRoot h leaves height (2 * position))
        (subtreeRoot h leaves height (2 * position + 1))) ∧
    (∀ position, subtreeRoot h leaves 0 position = leaves[position]?.getD .zero) ∧
    (∀ height position, leaves.length ≤ position * 2 ^ height →
      (h.zeroRoots height)[height]? = some (subtreeRoot h leaves height position)) ∧
    ∀ depth, leaves.length ≤ 2 ^ depth →
      merkleize h leaves (some (2 ^ depth)) = .ok (subtreeRoot h leaves depth 0) ∧
      (depth ≤ 62 → Ranged.merkleize h leaves (UInt64.ofNat (2 ^ depth))
        = .ok (subtreeRoot h leaves depth 0)) := by
  refine ⟨?_, fun _ _ => subtreeRoot_succ _ _, subtreeRoot_height_zero, ?_, ?_⟩
  · intro height position hheight hstart
    exact Ranged.subtreeRoot_eq h leaves (Nat.lt_succ_of_le hheight) hstart
  · intro height position hpast
    rw [subtreeRoot_of_past hpast]
    exact h.getElem?_zeroRoots (Nat.le_refl height)
  · intro depth hroom
    have hroot : merkleize h leaves (some (2 ^ depth)) = .ok (subtreeRoot h leaves depth 0) := by
      rw [Layout.merkleize_of_fits hroom, coverDepth_two_pow, subtreeRoot_position_zero]
    refine ⟨hroot, ?_⟩
    intro hdepth
    have hpow : 2 ^ depth ≤ 2 ^ 62 := Nat.pow_le_pow_right (by decide) hdepth
    have hword : (UInt64.ofNat (2 ^ depth)).toNat = 2 ^ depth := by
      rw [UInt64.toNat_ofNat']
      exact Nat.mod_eq_of_lt (by omega)
    rw [Ranged.merkleize_eq, hword, hroot]
    rfl

def threeLeaves : List Root := [.ofNat 1, .ofNat 2, .ofNat 3]

/-- The right half of the tree is not full, and nothing is left for the tree beside it. -/
theorem subtrees_form_tree_three_leaves :
    threeLeaves.length ≤ 2 ^ 2 ∧ threeLeaves.length ≤ 1 * 2 ^ 2 ∧
      ∃ root zero, HashFunction.sha256.pair (HashFunction.sha256.pair (.ofNat 1) (.ofNat 2))
          (HashFunction.sha256.pair (.ofNat 3) .zero) = root ∧
        merkleize .sha256 threeLeaves (some (2 ^ 2)) = .ok root ∧
        Ranged.subtreeRoot .sha256 threeLeaves 2 0 = .ok root ∧
        (HashFunction.sha256.zeroRoots 2)[2]? = some zero ∧
        Ranged.subtreeRoot .sha256 threeLeaves 2 1 = .ok zero := by
  have hroom : threeLeaves.length ≤ 2 ^ 2 := by decide
  have hpast : threeLeaves.length ≤ 1 * 2 ^ 2 := by decide
  obtain ⟨hwords, hpair, hleaf, hzero, hall⟩ := subtrees_form_tree .sha256 threeLeaves
  refine ⟨hroom, hpast, _, _, ?_, (hall 2 hroom).1, hwords 2 0 (by decide) (by decide),
    hzero 2 1 hpast, hwords 2 1 (by decide) (by decide)⟩
  simp only [hpair, hleaf]
  rfl

end Merkle

end SimpleSerialize
