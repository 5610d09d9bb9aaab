import SimpleSerialize.Merkle.Layout
import SimpleSerialize.Proofs.Except
import SimpleSerialize.Proofs.Merkle.Tree

/-!
The pairs of nodes that are hashed on the way to a root, zeros included. Nothing else about the
hash function matters for the root (`Layout.root_eq_of_agree`), so whatever is asked of a hash
function is asked on these pairs only (`HashFunction.InjectiveOn`).
-/

namespace SimpleSerialize

namespace HashFunction

variable {h : HashFunction} {pairs pairs' : List (Root × Root)}

/-- No two of the pairs collide. -/
def InjectiveOn (h : HashFunction) (pairs : List (Root × Root)) : Prop :=
  ∀ p ∈ pairs, ∀ q ∈ pairs, h.pair p.1 p.2 = h.pair q.1 q.2 → p = q

instance : DecidablePred h.InjectiveOn := fun pairs =>
  inferInstanceAs (Decidable (∀ p ∈ pairs, ∀ q ∈ pairs, h.pair p.1 p.2 = h.pair q.1 q.2 → p = q))

/-- Two runs hash different pairs at the same level and get the same node. -/
def CollidesAt (h : HashFunction) (level : Nat) (run run' : List (Root × Root)) : Prop :=
  ∃ p p', run[level]? = some p ∧ run'[level]? = some p' ∧ p ≠ p' ∧
    h.pair p.1 p.2 = h.pair p'.1 p'.2

theorem InjectiveOn.mono (hinj : h.InjectiveOn pairs') (hsub : pairs ⊆ pairs') :
    h.InjectiveOn pairs :=
  fun p hp q hq => hinj p (hsub hp) q (hsub hq)

theorem InjectiveOn.not_collidesAt (hinj : h.InjectiveOn pairs) {run run' : List (Root × Root)}
    (hrun : run ⊆ pairs) (hrun' : run' ⊆ pairs) (level : Nat) : ¬h.CollidesAt level run run' := by
  intro hcollides
  obtain ⟨p, p', hp, hp', hne, hsame⟩ := hcollides
  have hmem := hrun (List.mem_of_getElem? hp)
  have hmem' := hrun' (List.mem_of_getElem? hp')
  exact hne (hinj p hmem p' hmem' hsame)

/-- Two hash functions give every one of the pairs the same hash. -/
def AgreeOn (h h' : HashFunction) (pairs : List (Root × Root)) : Prop :=
  ∀ p ∈ pairs, h'.pair p.1 p.2 = h.pair p.1 p.2

theorem AgreeOn.mono {h' : HashFunction} (hagree : h.AgreeOn h' pairs') (hsub : pairs ⊆ pairs') :
    h.AgreeOn h' pairs :=
  fun p hp => hagree p (hsub hp)

end HashFunction

namespace Merkle

/-- The nodes of a layer two by two; `zero` stands beside a last node without a partner. -/
def layerPairs (zero : Root) : List Root → List (Root × Root)
  | [] => []
  | [node] => [(node, zero)]
  | left :: right :: nodes => (left, right) :: layerPairs zero nodes

/-- The pairs hashed while a layer is folded up, those that give the zero of each level among
them. -/
def foldPairs (h : HashFunction) (zero : Root) : (levels : Nat) → List Root → List (Root × Root)
  | 0, _ => []
  | levels + 1, layer =>
    (zero, zero) :: layerPairs zero layer
      ++ foldPairs h (h.pair zero zero) levels (pairUp h zero layer)

/-- The pairs hashed for the root of a tree with room for `capacity` leaves. -/
def merkleizePairs (h : HashFunction) (leaves : List Root) (capacity : Nat) :
    List (Root × Root) :=
  if leaves.length ≤ capacity then foldPairs h .zero (coverDepth capacity) leaves else []

/-- The pairs hashed while a branch is climbed from a node. -/
def climbPairs (h : HashFunction) (path : Nat) (node : Root) :
    (branch : List Root) → List (Root × Root)
  | [] => []
  | sibling :: branch =>
    let pair := inOrder path node sibling
    pair :: climbPairs h (path / 2) (h.pair pair.1 pair.2) branch

/-- The pairs hashed for the root that a leaf and its branch give. -/
def rootFromPairs (h : HashFunction) (branch : List Root) (gindex : Gindex) (leaf : Root) :
    List (Root × Root) :=
  if branch.length = gindex.depth then climbPairs h gindex.toNat leaf branch else []

variable {h h' : HashFunction} {zero : Root}

theorem pairUp_eq_map (layer : List Root) :
    pairUp h zero layer = (layerPairs zero layer).map fun p => h.pair p.1 p.2 := by
  induction layer using layerPairs.induct with
  | case1 => rfl
  | case2 node => rfl
  | case3 left right nodes ih => rw [pairUp, layerPairs, List.map_cons, ih]

theorem foldUp_eq_of_agree {levels : Nat} {layer : List Root}
    (hagree : h.AgreeOn h' (foldPairs h zero levels layer)) :
    foldUp h' zero levels layer = foldUp h zero levels layer := by
  induction levels generalizing zero layer with
  | zero => rfl
  | succ levels ih =>
    have hzero : h'.pair zero zero = h.pair zero zero := hagree (zero, zero) (by simp [foldPairs])
    have hlayer : pairUp h' zero layer = pairUp h zero layer := by
      rw [pairUp_eq_map, pairUp_eq_map]
      apply List.map_congr_left
      intro p hp
      exact hagree p (by simp [foldPairs, hp])
    rw [foldUp, foldUp, hzero, hlayer]
    apply ih
    apply hagree.mono
    simp [foldPairs]

theorem merkleize_eq_of_agree {leaves : List Root} {capacity : Nat}
    (hagree : h.AgreeOn h' (merkleizePairs h leaves capacity)) :
    merkleize h' leaves (some capacity) = merkleize h leaves (some capacity) := by
  unfold merkleizePairs at hagree
  unfold merkleize
  by_cases hfits : leaves.length ≤ capacity
  · rw [if_pos hfits] at hagree
    simp only [Option.getD_some, if_pos hfits, foldUp_eq_of_agree hagree]
  · simp only [Option.getD_some, if_neg hfits]

end Merkle

namespace Layout

/-- The pairs hashed for a root over leaves, with the count beside them. -/
def pairsOver (h : HashFunction) (leaves : List Root) (capacity : Nat) (count? : Option Nat) :
    List (Root × Root) :=
  Merkle.merkleizePairs h leaves capacity ++
    match Merkle.merkleize h leaves (some capacity), count? with
    | .ok data, some count => [(data, Merkle.countRoot count)]
    | _, _ => []

mutual

/-- The pairs hashed for the root of a layout; after an error no more are hashed. -/
def pairs (h : HashFunction) : Layout → List (Root × Root)
  | packed chunks capacity count? => pairsOver h chunks capacity count?
  | composite parts capacity count? =>
    pairsOfParts h parts ++
      match roots h parts with
      | .ok leaves => pairsOver h leaves capacity count?
      | .error _ => []
  | misfit _ => []

def pairsOfParts (h : HashFunction) : List Layout → List (Root × Root)
  | [] => []
  | part :: parts =>
    pairs h part ++
      match root h part with
      | .ok _ => pairsOfParts h parts
      | .error _ => []

end

variable {h h' : HashFunction}

theorem rootOver_eq_of_agree {leaves : List Root} {capacity : Nat} {count? : Option Nat}
    (hagree : h.AgreeOn h' (pairsOver h leaves capacity count?)) :
    rootOver h' leaves capacity count? = rootOver h leaves capacity count? := by
  unfold pairsOver at hagree
  have hdata := Merkle.merkleize_eq_of_agree (hagree.mono (List.subset_append_left _ _))
  unfold rootOver
  rw [hdata]
  cases hmerkleize : Merkle.merkleize h leaves (some capacity) with
  | error e => rfl
  | ok data =>
    cases count? with
    | none => rfl
    | some count =>
      rw [hmerkleize] at hagree
      have hcount := hagree _ (List.mem_append_right _ (List.mem_singleton_self _))
      exact congrArg Except.ok hcount

mutual

/-- The root depends on the hash function at the pairs hashed only. -/
theorem root_eq_of_agree :
    (layout : Layout) → (hagree : h.AgreeOn h' (layout.pairs h)) → layout.root h' = layout.root h
  | packed chunks capacity count?, hagree => rootOver_eq_of_agree hagree
  | composite parts capacity count?, hagree => by
    rw [pairs] at hagree
    have hroots := roots_eq_of_agree parts (hagree.mono (List.subset_append_left _ _))
    rw [Layout.root, Layout.root, hroots]
    cases hleaves : roots h parts with
    | error e => rfl
    | ok leaves =>
      rw [hleaves] at hagree
      exact rootOver_eq_of_agree (hagree.mono (List.subset_append_right _ _))
  | misfit e, hagree => rfl

theorem roots_eq_of_agree : (parts : List Layout) →
    (hagree : h.AgreeOn h' (pairsOfParts h parts)) → roots h' parts = roots h parts
  | [], hagree => rfl
  | part :: parts, hagree => by
    rw [pairsOfParts] at hagree
    have hroot := root_eq_of_agree part (hagree.mono (List.subset_append_left _ _))
    rw [roots, roots, hroot]
    cases hleaf : root h part with
    | error e => rfl
    | ok leaf =>
      rw [hleaf] at hagree
      have hrest := roots_eq_of_agree parts (hagree.mono (List.subset_append_right _ _))
      rw [hrest]

end

end Layout

namespace Shape

/-- The pairs hashed for the root of a value. -/
def hashedPairs (h : HashFunction) (shape : Shape) (v : Value) : List (Root × Root) :=
  (Layout.of shape v).pairs h

end Shape

end SimpleSerialize
