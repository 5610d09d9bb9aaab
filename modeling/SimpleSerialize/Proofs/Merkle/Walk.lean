import SimpleSerialize.Proofs.Merkle.Path
import SimpleSerialize.Proofs.Merkle.Rooted
import SimpleSerialize.Proofs.Merkle.Way

/-!
What the walks through a value with a root meet: as many leaves as the value fills, a count beside
them in a list, and below a leaf the part that has it, if it is not a chunk (`Layout.exists_walks`).
-/

namespace SimpleSerialize

open Merkle (turns dataTurns)

namespace Shape

/-- The leaves that a value fills: chunks of its bytes, bits or scalars, or one for each part. -/
def leavesOf : Shape → Value → Nat
  | scalar _, _ => 1
  | byteVector _, .bytes bs | byteList _, .bytes bs => Bytes.ceilDiv bs.length chunkSize
  | bitvector _, .bits bits | bitlist _, .bits bits => Bytes.ceilDiv bits.length (8 * chunkSize)
  | vector element _, .vector items | list element _, .list items =>
    element.leafCount items.length
  | container _, .container values => values.length
  | _, _ => 0

/-- The way to the `i`-th leaf; beside a count the leaves stand to the left. -/
def leafWay (shape : Shape) (i : Nat) : List Bool :=
  dataTurns shape.mixesInCount ++ turns (coverDepth shape.chunkLimit) i

/-- A part with a leaf of its own, and its shape. -/
def partOf? (shape : Shape) (v : Value) (i : Nat) : Option (Shape × Value) := do
  return (← shape.part? i, ← v.part? i)

variable {shape part : Shape} {v w : Value} {i : Nat}

theorem partOf?_eq_some_iff :
    shape.partOf? v i = some (part, w) ↔ shape.part? i = some part ∧ v.part? i = some w := by
  simp [partOf?, Option.bind_eq_some_iff]

theorem mem_parts_of_partOf? (hpart : shape.partOf? v i = some (part, w)) :
    part ∈ shape.parts := by
  obtain ⟨hpart, -⟩ := partOf?_eq_some_iff.mp hpart
  cases shape with
  | vector element length | list element limit =>
    simp only [part?, Option.ite_none_right_eq_some, Option.some.injEq] at hpart
    simp [hpart.2]
  | container fields =>
    obtain ⟨field, hfield, rfl⟩ := Option.map_eq_some_iff.mp hpart
    exact List.mem_map_of_mem (List.mem_of_getElem? hfield)
  | _ => cases hpart

/-- The elements of a vector or a list, where they have leaves of their own. -/
def itemOf? (element : Shape) (items : List Value) (i : Nat) : Option (Shape × Value) :=
  if element.scalar? = none then items[i]?.map fun item => (element, item) else none

theorem partOf?_vector (element : Shape) (length : Nat) (items : List Value) (i : Nat) :
    (vector element length).partOf? (.vector items) i = element.itemOf? items i := by
  have hitem : (Value.vector items).part? i = items[i]? := rfl
  by_cases hscalar : element.scalar? = none
  · have hpart : (vector element length).part? i = some element := if_pos hscalar
    rw [partOf?, itemOf?, if_pos hscalar, hpart, hitem]
    cases items[i]? <;> rfl
  · have hpart : (vector element length).part? i = none := if_neg hscalar
    rw [partOf?, itemOf?, if_neg hscalar, hpart]
    rfl

theorem partOf?_list (element : Shape) (limit : Nat) (items : List Value) (i : Nat) :
    (list element limit).partOf? (.list items) i = element.itemOf? items i :=
  partOf?_vector element limit items i

theorem partOf?_container (fields : List (String × Shape)) (values : List Value) (i : Nat) :
    (container fields).partOf? (.container values) i
      = (fields.zip values)[i]?.map fun entry => (entry.1.2, entry.2) := by
  rw [List.zip, List.getElem?_zipWith]
  simp only [partOf?, part?, Value.part?]
  cases fields[i]? with
  | none => rfl
  | some field => cases values[i]? <;> rfl

end Shape

namespace Layout

open Shape (partOf?)

variable {h : HashFunction} {shape : Shape} {v : Value} {chunks leaves : List Root}
  {parts : List Layout} {count? : Option Nat} {root : Root}

/-- The leaves of a value with a root, and what the two walks find below them. -/
structure Walks (h : HashFunction) (shape : Shape) (v : Value) (leaves : List Root)
    (count? : Option Nat) (findBranch : Nat → Gindex → Except ProofError (List Root))
    (findNode : Nat → Gindex → Except ProofError Root) : Prop where
  length_eq : leaves.length = shape.leavesOf v
  length_le : leaves.length ≤ shape.chunkLimit
  counted : count?.isSome = shape.mixesInCount
  root_eq : (of shape v).root h
    = .ok (withCount h (Merkle.foldUp h .zero (coverDepth shape.chunkLimit) leaves) count?)
  branch_eq {g : Gindex} (hg : g ≠ .root) :
    (of shape v).branch h g = branchOver h (.ok leaves) shape.chunkLimit count? g findBranch
  node_eq {g : Gindex} (hg : g ≠ .root) :
    (of shape v).node h g = nodeOver h (.ok leaves) shape.chunkLimit count? g findNode
  part {i : Nat} {part : Shape} {w : Value} (hpart : shape.partOf? v i = some (part, w)) :
    ∃ leaf, leaves[i]? = some leaf ∧ (of part w).root h = .ok leaf
  find_part {i : Nat} {part : Shape} {w : Value} (hpart : shape.partOf? v i = some (part, w))
    (g : Gindex) : findBranch i g = (of part w).branch h g ∧ findNode i g = (of part w).node h g
  find_none {i : Nat} (hnone : shape.partOf? v i = none) (g : Gindex) :
    findBranch i g = .error (.unreachable g) ∧ findNode i g = .error (.unreachable g)

section Slots

variable {findBranch : Nat → Gindex → Except ProofError (List Root)}
  {findNode : Nat → Gindex → Except ProofError Root}
  (hwalks : Walks h shape v leaves count? findBranch findNode) {i : Nat} {part : Shape} {w : Value}
  (hpart : shape.partOf? v i = some (part, w))

include hwalks

theorem Walks.length_le_slots : leaves.length ≤ 2 ^ coverDepth shape.chunkLimit :=
  Nat.le_trans hwalks.length_le (le_two_pow_coverDepth _)

include hpart

theorem Walks.lt_leavesOf : i < shape.leavesOf v := by
  obtain ⟨leaf, hleaf, -⟩ := hwalks.part hpart
  rw [← hwalks.length_eq]
  exact (List.getElem?_eq_some_iff.mp hleaf).1

theorem Walks.lt_slots : i < 2 ^ coverDepth shape.chunkLimit := by
  have hlt := hwalks.lt_leavesOf hpart
  rw [← hwalks.length_eq] at hlt
  exact Nat.lt_of_lt_of_le hlt hwalks.length_le_slots

end Slots

theorem walks_packed (hlayout : of shape v = .packed chunks shape.chunkLimit count?)
    (hlength : chunks.length = shape.leavesOf v) (hcounted : count?.isSome = shape.mixesInCount)
    (hnone : ∀ i, shape.partOf? v i = none) (hroot : (of shape v).root h = .ok root) :
    Walks h shape v chunks count? (fun _ below => .error (.unreachable below))
      fun _ below => .error (.unreachable below) := by
  rw [hlayout] at hroot
  obtain ⟨hfits, hvalue⟩ := rootOver_eq_ok_iff.mp hroot
  refine ⟨hlength, hfits, hcounted, ?_, ?_, ?_, ?_, ?_, fun _ _ => ⟨rfl, rfl⟩⟩
  · rw [hlayout, hroot, hvalue]
  · intro g hg
    rw [hlayout, branch, if_neg hg]
  · intro g hg
    rw [hlayout, node, if_neg hg]
  · intro i part w hpart
    rw [hnone] at hpart
    cases hpart
  · intro i part w hpart
    rw [hnone] at hpart
    cases hpart

theorem find_of_getElem?_none {i : Nat} (hnone : parts[i]? = none) (g : Gindex) :
    branchOfPart h parts i g = .error (.unreachable g) ∧
      nodeOfPart h parts i g = .error (.unreachable g) := by
  induction parts generalizing i with
  | nil => exact ⟨rfl, rfl⟩
  | cons first parts ih =>
    cases i with
    | zero => cases hnone
    | succ i =>
      rw [branchOfPart, nodeOfPart]
      exact ih hnone

theorem walks_composite (hlayout : of shape v = .composite parts shape.chunkLimit count?)
    (hlength : parts.length = shape.leavesOf v) (hcounted : count?.isSome = shape.mixesInCount)
    (hparts : ∀ i, parts[i]? = (shape.partOf? v i).map fun entry => of entry.1 entry.2)
    (hroot : (of shape v).root h = .ok root) :
    ∃ leaves, Walks h shape v leaves count? (branchOfPart h parts) (nodeOfPart h parts) := by
  rw [hlayout] at hroot
  obtain ⟨leaves, hroots, hfits, hvalue⟩ := root_composite_eq_ok_iff.mp hroot
  have hget {i : Nat} {part : Shape} {w : Value} (hpart : shape.partOf? v i = some (part, w)) :
      parts[i]? = some (of part w) := by rw [hparts, hpart, Option.map_some]
  refine ⟨leaves, ?_, hfits, hcounted, ?_, ?_, ?_, ?_, ?_, ?_⟩
  · rw [← length_of_roots hroots, hlength]
  · rw [hlayout, hroot, hvalue]
  · intro g hg
    rw [hlayout, branch, if_neg hg, hroots]
  · intro g hg
    rw [hlayout, node, if_neg hg, hroots]
  · intro i part w hpart
    exact root_of_getElem? hroots (hget hpart)
  · intro i part w hpart g
    exact ⟨branchOfPart_eq (hget hpart) g, nodeOfPart_eq (hget hpart) g⟩
  · intro i hnone g
    exact find_of_getElem?_none (by rw [hparts, hnone, Option.map_none]) g

theorem walks_items {element : Shape} {items : List Value}
    (hlayout : of shape v = ofItems element items shape.chunkLimit count?)
    (hlength : shape.leavesOf v = element.leafCount items.length)
    (hcounted : count?.isSome = shape.mixesInCount)
    (hparts : ∀ i, shape.partOf? v i = element.itemOf? items i)
    (hroot : (of shape v).root h = .ok root) :
    ∃ leaves findBranch findNode, Walks h shape v leaves count? findBranch findNode := by
  cases hscalar : element.scalar? with
  | some kind =>
    obtain rfl := Shape.scalar?_eq_some_iff.mp hscalar
    have hitems := hroot
    rw [hlayout] at hitems
    obtain ⟨chunks, hchunks⟩ := exists_chunks_of_root hitems
    rw [ofItems_scalar hchunks] at hlayout
    refine ⟨chunks, _, _, walks_packed hlayout ?_ hcounted ?_ hroot⟩
    · rw [hlength, length_packElements hchunks]
      rfl
    · intro i
      rw [hparts]
      rfl
  | none =>
    rw [ofItems_composite hscalar] at hlayout
    have hcount : (items.map fun item => of element item).length = shape.leavesOf v := by
      rw [hlength, Shape.leafCount, hscalar, List.length_map]
    obtain ⟨leaves, hwalks⟩ := walks_composite hlayout hcount hcounted (fun i => by
      rw [hparts, Shape.itemOf?, if_pos hscalar, List.getElem?_map, Option.map_map]
      rfl) hroot
    exact ⟨leaves, _, _, hwalks⟩

theorem exists_walks_scalar {kind : Scalar} (hfits : (Shape.scalar kind).Fits v)
    (hroot : (of (.scalar kind) v).root h = .ok root) :
    ∃ leaves count? findBranch findNode,
      Walks h (.scalar kind) v leaves count? findBranch findNode := by
  obtain ⟨bs, hencode⟩ := Scalar.exists_encode_iff_fits.mpr hfits
  refine ⟨_, _, _, _, walks_packed (of_scalar hencode) ?_ rfl (fun _ => rfl) hroot⟩
  rw [Merkle.length_pack, Scalar.length_of_encode hencode, kind.ceilDiv_size, Shape.leavesOf]

/-- Every value with a root has leaves that the walks go through. -/
theorem exists_walks (hroot : (of shape v).root h = .ok root) :
    ∃ leaves count? findBranch findNode, Walks h shape v leaves count? findBranch findNode := by
  cases Shape.fits_of_root hroot with
  | bool b => exact exists_walks_scalar (.bool b) hroot
  | uint width n => exact exists_walks_scalar (.uint width n) hroot
  | byteVector hlength =>
    exact ⟨_, _, _, _, walks_packed (of_byteVector hlength) (Merkle.length_pack _) rfl
      (fun _ => rfl) hroot⟩
  | byteList hlimit =>
    exact ⟨_, _, _, _, walks_packed (of_byteList hlimit) (Merkle.length_pack _) rfl
      (fun _ => rfl) hroot⟩
  | bitvector hlength =>
    exact ⟨_, _, _, _, walks_packed (of_bitvector hlength) (Merkle.length_packBits _) rfl
      (fun _ => rfl) hroot⟩
  | bitlist hlimit =>
    exact ⟨_, _, _, _, walks_packed (of_bitlist hlimit) (Merkle.length_packBits _) rfl
      (fun _ => rfl) hroot⟩
  | vector hlength _ =>
    obtain ⟨leaves, hwalks⟩ := walks_items (of_vector hlength) rfl rfl
      (Shape.partOf?_vector _ _ _) hroot
    exact ⟨leaves, _, hwalks⟩
  | list hlimit _ =>
    obtain ⟨leaves, hwalks⟩ := walks_items (of_list hlimit) rfl rfl
      (Shape.partOf?_list _ _ _) hroot
    exact ⟨leaves, _, hwalks⟩
  | container hlength _ =>
    obtain ⟨leaves, hwalks⟩ := walks_composite (of_container hlength)
      (by rw [List.length_map, List.length_zip, Shape.leavesOf, hlength, Nat.min_self]) rfl
      (fun i => by
        rw [Shape.partOf?_container, List.getElem?_map, Option.map_map]
        rfl) hroot
    exact ⟨leaves, _, _, _, hwalks⟩

section Over

open Merkle (branchInTree nodeInTree foldUp countRoot)

variable {leaves : List Root} {findBranch : Nat → Gindex → Except ProofError (List Root)}
  {findNode : Nat → Gindex → Except ProofError Root} {g : Gindex} {rest : List Bool}

section Uncounted

variable (hwalks : Walks h shape v leaves none findBranch findNode)

include hwalks

theorem Walks.branch_eq_inTree (g : Gindex) : (of shape v).branch h g
    = branchInTree h leaves (coverDepth shape.chunkLimit) g findBranch := by
  by_cases hg : g = .root
  · rw [hg, branch_root, branchInTree, if_pos rfl]
  · exact hwalks.branch_eq hg

theorem Walks.node_eq_inTree (g : Gindex) : (of shape v).node h g
    = nodeInTree h leaves (coverDepth shape.chunkLimit) g findNode := by
  by_cases hg : g = .root
  · rw [hg, node_root, hwalks.root_eq, Merkle.nodeInTree_root]
    rfl
  · exact hwalks.node_eq hg

end Uncounted

section Counted

variable {count : Nat} (hwalks : Walks h shape v leaves (some count) findBranch findNode)

include hwalks

/-- To the left of a count, the walks go on in the tree of the leaves. -/
theorem Walks.left_of_count (hway : g.way = false :: rest) :
    ∃ below : Gindex, below.way = rest ∧
      (of shape v).branch h g =
        (branchInTree h leaves (coverDepth shape.chunkLimit) below findBranch).bind
          (fun inner => .ok (inner ++ [countRoot count])) ∧
      (of shape v).node h g
        = nodeInTree h leaves (coverDepth shape.chunkLimit) below findNode := by
  have hg := Gindex.ne_root_of_way hway (List.cons_ne_nil _ _)
  obtain ⟨top, below, hconcat, htop, hbelow⟩ := Gindex.exists_of_way_eq_cons hway
  refine ⟨below, hbelow, ?_, ?_⟩
  · rw [hwalks.branch_eq hg, branchOver_of_concat hconcat htop]
  · rw [hwalks.node_eq hg, nodeOver_of_concat hconcat htop hwalks.length_le]

/-- On the right there is only the count. -/
theorem Walks.right_of_data (hway : g.way = true :: rest) :
    (of shape v).branch h g =
        (if rest = [] then .ok [foldUp h .zero (coverDepth shape.chunkLimit) leaves]
        else .error (.unreachable g)) ∧
      (of shape v).node h g =
        if rest = [] then .ok (countRoot count) else .error (.unreachable g) := by
  have hg := Gindex.ne_root_of_way hway (List.cons_ne_nil _ _)
  obtain ⟨top, below, hconcat, htop, rfl⟩ := Gindex.exists_of_way_eq_cons hway
  simp only [Gindex.way_eq_nil_iff]
  constructor
  · rw [hwalks.branch_eq hg, branchOver_of_concat_right hconcat htop hwalks.length_le]
  · rw [hwalks.node_eq hg, nodeOver_of_concat_right hconcat htop]

end Counted

end Over

end Layout

end SimpleSerialize
