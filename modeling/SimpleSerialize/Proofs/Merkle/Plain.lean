import SimpleSerialize.Proofs.Merkle.Rooted
import SimpleSerialize.Proofs.Merkle.Subtrees

/-!
Roots the plain way: every leaf of the tree is written out, those past the last one as zeros, and
the layers are paired until one node is left. Folding gives the same roots without ever building
the zeros (`Merkle.foldUp_eq_foldSlots`), also where each level takes its zero from a ladder of them
(`Merkle.merkleizeRanged_eq_foldSlots`), for values of every shape (`Shape.root_eq_plainRoot`).
-/

namespace SimpleSerialize

namespace Merkle

/-- Exactly `count` slots, those past the last node filled with `zero`. -/
def fill (zero : Root) (count : Nat) (layer : List Root) : Vector Root count :=
  ⟨(layer.take count ++ List.replicate (count - layer.length) zero).toArray, by simp; omega⟩

/-- The layer above a layer that has a node in every slot. -/
def pairSlots (h : HashFunction) {levels : Nat} (layer : Vector Root (2 ^ (levels + 1))) :
    Vector Root (2 ^ levels) :=
  .ofFn fun slot => h.pair layer[2 * slot.val] layer[2 * slot.val + 1]

def foldSlots (h : HashFunction) : {levels : Nat} → Vector Root (2 ^ levels) → Root
  | 0, layer => layer[0]
  | _ + 1, layer => foldSlots h (pairSlots h layer)

/-- The root of a tree with room for `capacity` leaves. -/
def plainRoot (h : HashFunction) (leaves : List Root) (capacity : Nat) : Root :=
  foldSlots h (fill .zero (2 ^ coverDepth capacity) leaves)

variable {h : HashFunction} {zero : Root}

theorem getElem_fill {count : Nat} (layer : List Root) {slot : Nat} (hslot : slot < count) :
    (fill zero count layer)[slot] = layer[slot]?.getD zero := by
  simp only [fill, Vector.getElem_mk, List.getElem_toArray, List.getElem_append,
    List.getElem_replicate, List.getElem_take, List.length_take]
  split
  next hnode =>
    have hnode : slot < layer.length := by omega
    rw [List.getElem?_eq_getElem hnode, Option.getD_some]
  next hnone =>
    have hnone : layer.length ≤ slot := by omega
    rw [List.getElem?_eq_none hnone, Option.getD_none]

theorem getD_pairUp (layer : List Root) (slot : Nat) :
    (pairUp h zero layer)[slot]?.getD (h.pair zero zero)
      = h.pair (layer[2 * slot]?.getD zero) (layer[2 * slot + 1]?.getD zero) := by
  fun_induction pairUp h zero layer generalizing slot with
  | case1 => rfl
  | case2 node =>
    cases slot with
    | zero => rfl
    | succ slot => rfl
  | case3 left right nodes ih =>
    cases slot with
    | zero => rfl
    | succ slot => exact ih slot

theorem pairSlots_fill {levels : Nat} (layer : List Root) :
    pairSlots h (fill zero (2 ^ (levels + 1)) layer)
      = fill (h.pair zero zero) (2 ^ levels) (pairUp h zero layer) := by
  apply Vector.ext
  intro slot hslot
  simp only [pairSlots, Vector.getElem_ofFn, getElem_fill, getD_pairUp]

/-- A layer that lacks nodes at its end folds to what the full layer folds to. -/
theorem foldUp_eq_foldSlots (levels : Nat) (layer : List Root) :
    foldUp h zero levels layer = foldSlots h (fill zero (2 ^ levels) layer) := by
  induction levels generalizing zero layer with
  | zero =>
    rw [foldUp, foldSlots, getElem_fill, List.headD_eq_head?_getD, List.head?_eq_getElem?]
  | succ levels ih => rw [foldUp, ih, foldSlots, pairSlots_fill]

end Merkle

/-- The bytes of a boolean or of a number. -/
def Value.scalarBytes : Value → Bytes
  | bool b => [if b then 1 else 0]
  | uint width n => Bytes.littleEndian width.size n.toNat
  | _ => []

namespace Shape

/-- Scalars are packed into chunks, anything else has a root of its own. -/
def plainLeaves (element : Shape) (root : Value → Root) (items : List Value) : List Root :=
  match element.scalar? with
  | some _ => Merkle.pack (items.flatMap Value.scalarBytes)
  | none => items.map root

mutual

/--
The root of a value that fits its shape. Only byte lists, bit lists and lists have room for more
leaves than there are, and only they hold the number of elements.
-/
def plainRoot (h : HashFunction) : Shape → Value → Root
  | scalar _, v => Merkle.plainRoot h (Merkle.pack v.scalarBytes) 1
  | byteVector _, .bytes bs => Merkle.plainRoot h (Merkle.pack bs) (Merkle.pack bs).length
  | byteList limit, .bytes bs =>
    Merkle.mixInCount h
      (Merkle.plainRoot h (Merkle.pack bs) (Bytes.ceilDiv limit chunkSize)) bs.length
  | bitvector _, .bits bits =>
    Merkle.plainRoot h (Merkle.packBits bits) (Merkle.packBits bits).length
  | bitlist limit, .bits bits =>
    Merkle.mixInCount h
      (Merkle.plainRoot h (Merkle.packBits bits) (Bytes.ceilDiv limit (8 * chunkSize)))
      bits.length
  | vector element _, .vector items =>
    let leaves := element.plainLeaves (fun item => plainRoot h element item) items
    Merkle.plainRoot h leaves leaves.length
  | list element limit, .list items =>
    let leaves := element.plainLeaves (fun item => plainRoot h element item) items
    Merkle.mixInCount h (Merkle.plainRoot h leaves (element.leafCount limit)) items.length
  | container fields, .container values =>
    let leaves := plainFieldRoots h fields values
    Merkle.plainRoot h leaves leaves.length
  | _, _ => .zero

def plainFieldRoots (h : HashFunction) : List (String × Shape) → List Value → List Root
  | (_, shape) :: fields, v :: values => plainRoot h shape v :: plainFieldRoots h fields values
  | _, _ => []

end

end Shape

theorem Scalar.encode_of_fits {kind : Scalar} {v : Value} (hfits : (Shape.scalar kind).Fits v) :
    kind.encode v = .ok v.scalarBytes := by
  cases hfits with
  | bool b => rfl
  | uint width n => rw [Scalar.encode, if_pos rfl, Value.scalarBytes]

namespace Layout

variable {h : HashFunction} {leaves : List Root} {capacity : Nat} {count? : Option Nat}
  {element : Shape} {items : List Value}

theorem root_packed_eq_plainRoot (hfits : leaves.length ≤ capacity) :
    (packed leaves capacity count?).root h
      = .ok (withCount h (Merkle.plainRoot h leaves capacity) count?) := by
  rw [Layout.root, rootOver_eq_ok_iff, Merkle.foldUp_eq_foldSlots]
  exact ⟨hfits, rfl⟩

theorem root_composite_eq_plainRoot {parts : List Layout} (hroots : roots h parts = .ok leaves)
    (hfits : leaves.length ≤ capacity) :
    (composite parts capacity count?).root h
      = .ok (withCount h (Merkle.plainRoot h leaves capacity) count?) := by
  refine root_composite_eq_ok_iff.mpr ⟨leaves, hroots, hfits, ?_⟩
  rw [Merkle.foldUp_eq_foldSlots]
  rfl

theorem packElements_of_fits {kind : Scalar}
    (hitems : ∀ item ∈ items, (Shape.scalar kind).Fits item) :
    packElements kind items = .ok (Merkle.pack (items.flatMap Value.scalarBytes)) := by
  refine packElements_eq_ok_iff.mpr ⟨items.map Value.scalarBytes, ?_, ?_⟩
  · rw [List.map_map]
    apply List.map_congr_left
    intro item hitem
    exact Scalar.encode_of_fits (hitems item hitem)
  · rw [List.flatMap_def]

theorem length_plainLeaves (hitems : ∀ item ∈ items, element.Fits item) (root : Value → Root) :
    (element.plainLeaves root items).length = element.leafCount items.length := by
  unfold Shape.plainLeaves Shape.leafCount
  cases hscalar : element.scalar? with
  | some kind =>
    obtain rfl := Shape.scalar?_eq_some_iff.mp hscalar
    exact length_packElements (packElements_of_fits hitems)
  | none => exact List.length_map _

theorem leafCount_mono {m n : Nat} (hle : m ≤ n) : element.leafCount m ≤ element.leafCount n := by
  unfold Shape.leafCount
  cases element.scalar? with
  | some kind => exact Bytes.ceilDiv_mono (Nat.mul_le_mul_right _ hle) _
  | none => exact hle

theorem root_ofItems_eq_plainRoot (hitems : ∀ item ∈ items, element.Fits item)
    (hroots : ∀ item ∈ items, (of element item).root h = .ok (element.plainRoot h item))
    (hcapacity : element.leafCount items.length ≤ capacity) :
    (ofItems element items capacity count?).root h
      = .ok (withCount h
          (Merkle.plainRoot h (element.plainLeaves (element.plainRoot h) items) capacity)
          count?) := by
  rw [← length_plainLeaves hitems (element.plainRoot h)] at hcapacity
  revert hcapacity
  unfold Shape.plainLeaves
  cases hscalar : element.scalar? with
  | some kind =>
    obtain rfl := Shape.scalar?_eq_some_iff.mp hscalar
    rw [ofItems_scalar (packElements_of_fits hitems)]
    exact root_packed_eq_plainRoot
  | none =>
    rw [ofItems_composite hscalar]
    intro hcapacity
    have hleaves : roots h (items.map fun item => of element item)
        = .ok (items.map (element.plainRoot h)) := by
      rw [roots_eq_ok_iff, List.map_map, List.map_map]
      exact List.map_congr_left hroots
    exact root_composite_eq_plainRoot hleaves hcapacity

end Layout

namespace Shape

variable {h : HashFunction}

theorem plainFieldRoots_eq_map_zip (fields : List (String × Shape)) (values : List Value) :
    plainFieldRoots h fields values
      = (fields.zip values).map fun entry => entry.1.2.plainRoot h entry.2 := by
  induction fields generalizing values with
  | nil => simp [plainFieldRoots]
  | cons field fields ih =>
    cases values with
    | nil => simp [plainFieldRoots]
    | cons v values => rw [plainFieldRoots, ih, List.zip_cons_cons, List.map_cons]

theorem root_scalar_eq_plainRoot {kind : Scalar} {v : Value} (hfits : (scalar kind).Fits v) :
    (Layout.of (scalar kind) v).root h = .ok ((scalar kind).plainRoot h v) := by
  have hencode := Scalar.encode_of_fits hfits
  rw [Layout.of_scalar hencode, plainRoot]
  apply Layout.root_packed_eq_plainRoot
  rw [Merkle.length_pack, Scalar.length_of_encode hencode]
  exact Nat.le_of_eq kind.ceilDiv_size

theorem root_eq_plainRoot {shape : Shape} {v : Value} (hfits : shape.Fits v) :
    (Layout.of shape v).root h = .ok (shape.plainRoot h v) := by
  induction hfits with
  | bool b => exact root_scalar_eq_plainRoot (.bool b)
  | uint width n => exact root_scalar_eq_plainRoot (.uint width n)
  | byteVector hlength =>
    rw [Layout.of_byteVector hlength, plainRoot, Merkle.length_pack, hlength]
    apply Layout.root_packed_eq_plainRoot
    rw [Merkle.length_pack]
    exact Bytes.ceilDiv_mono (Nat.le_of_eq hlength) _
  | byteList hlimit =>
    rw [Layout.of_byteList hlimit, plainRoot]
    apply Layout.root_packed_eq_plainRoot
    rw [Merkle.length_pack]
    exact Bytes.ceilDiv_mono hlimit _
  | bitvector hlength =>
    rw [Layout.of_bitvector hlength, plainRoot, Merkle.length_packBits, hlength]
    apply Layout.root_packed_eq_plainRoot
    rw [Merkle.length_packBits]
    exact Bytes.ceilDiv_mono (Nat.le_of_eq hlength) _
  | bitlist hlimit =>
    rw [Layout.of_bitlist hlimit, plainRoot]
    apply Layout.root_packed_eq_plainRoot
    rw [Merkle.length_packBits]
    exact Bytes.ceilDiv_mono hlimit _
  | @vector element length items hlength hitems ih =>
    rw [Layout.of_vector hlength, plainRoot]
    have hcount := Layout.length_plainLeaves hitems (element.plainRoot h)
    simp only [hcount, hlength]
    exact Layout.root_ofItems_eq_plainRoot hitems ih (Layout.leafCount_mono (Nat.le_of_eq hlength))
  | list hlimit hitems ih =>
    rw [Layout.of_list hlimit, plainRoot]
    exact Layout.root_ofItems_eq_plainRoot hitems ih (Layout.leafCount_mono hlimit)
  | @container fields values hlength hvalues ih =>
    rw [Layout.of_container hlength, plainRoot, plainFieldRoots_eq_map_zip]
    have hleaves : Layout.roots h ((fields.zip values).map fun entry => .of entry.1.2 entry.2)
        = .ok ((fields.zip values).map fun entry => entry.1.2.plainRoot h entry.2) := by
      rw [Layout.roots_eq_ok_iff, List.map_map, List.map_map]
      exact List.map_congr_left ih
    have hcount : ((fields.zip values).map fun entry => entry.1.2.plainRoot h entry.2).length
        = fields.length := by
      rw [List.length_map, List.length_zip, hlength, Nat.min_self]
    simp only [hcount]
    exact Layout.root_composite_eq_plainRoot hleaves (Nat.le_of_eq hcount)

end Shape

theorem Merkle.merkleize_eq_foldSlots (h : HashFunction) (leaves : List Root)
    (limit : Option Nat) :
    Merkle.merkleize h leaves limit =
      if leaves.length ≤ limit.getD leaves.length then
        .ok (foldSlots h (fill .zero (2 ^ coverDepth (limit.getD leaves.length)) leaves))
      else .error (.overCapacity leaves.length (limit.getD leaves.length)) := by
  rw [merkleize, foldUp_eq_foldSlots]

theorem Merkle.merkleizeRanged_eq_foldSlots (h : HashFunction) (leaves : List Root)
    (limit : UInt64) :
    Ranged.merkleize h leaves limit =
      if leaves.length ≤ limit.toNat then
        .ok (foldSlots h (fill .zero (2 ^ coverDepth limit.toNat) leaves))
      else Ranged.refuse (.fit (.overCapacity leaves.length limit.toNat)) := by
  rw [Ranged.merkleize_eq, merkleize_eq_foldSlots, Option.getD_some]
  split <;> rfl

/--
The zeros that are never built change nothing: a root over leaves, wherever there is room for them,
and the root of every value that fits its shape are what comes of writing out every leaf.
-/
theorem roots_eq_plainRoots (h : HashFunction) :
    (∀ (leaves : List Root) (limit : Option Nat),
      let capacity := limit.getD leaves.length
      Merkle.merkleize h leaves limit =
        if leaves.length ≤ capacity then
          .ok (Merkle.foldSlots h (Merkle.fill .zero (2 ^ coverDepth capacity) leaves))
        else .error (.overCapacity leaves.length capacity)) ∧
    (∀ (leaves : List Root) (limit : UInt64),
      Ranged.merkleize h leaves limit =
        if leaves.length ≤ limit.toNat then
          .ok (Merkle.foldSlots h (Merkle.fill .zero (2 ^ coverDepth limit.toNat) leaves))
        else Ranged.refuse (.fit (.overCapacity leaves.length limit.toNat))) ∧
    ∀ (shape : Shape) (v : Value) (root : Root),
      shape.hashTreeRoot h v = .ok root ↔ shape.Fits v ∧ shape.plainRoot h v = root := by
  refine ⟨Merkle.merkleize_eq_foldSlots h, Merkle.merkleizeRanged_eq_foldSlots h, ?_⟩
  intro shape v root
  constructor
  · intro hroot
    have hfits := Shape.fits_of_root hroot
    rw [Shape.hashTreeRoot, Shape.root_eq_plainRoot hfits] at hroot
    exact ⟨hfits, Except.ok.inj hroot⟩
  · rintro ⟨hfits, rfl⟩
    exact Shape.root_eq_plainRoot hfits

end SimpleSerialize
