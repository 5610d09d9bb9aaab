import SimpleSerialize.Proofs.Bytes.Delimiter
import SimpleSerialize.Proofs.Merkle.Binding
import SimpleSerialize.Proofs.Merkle.Verdict

/-!
Leaves that are packed are cut from the wire. Trees of bytes, bits and scalars are built without
encoding the value as a whole, and hold what its encoding says, the delimiter of a bitlist apart
(`Shape.layout_of_encode`).
-/

namespace SimpleSerialize

namespace Series

variable {α : Type} {size : Nat} {content : α → Except FitError Bytes}

/-- Parts of fixed size are written one behind the other. -/
theorem layOut_of_same_size (offset : Nat) (xs : List α) :
    layOut offset (xs.map fun x => ⟨some size, content x⟩)
      = (xs.mapM content).map fun encodings => (encodings.flatten, []) := by
  induction xs with
  | nil => rfl
  | cons x xs ih =>
    rw [List.map_cons, layOut, ih, List.mapM_cons]
    cases content x with
    | error e => rfl
    | ok bs => cases xs.mapM content <;> rfl

theorem flatten_of_write {xs : List α} {bs : Bytes}
    (hwrite : write (xs.map fun x => ⟨some size, content x⟩) = .ok bs) :
    ∃ encodings, xs.mapM content = .ok encodings ∧ encodings.flatten = bs := by
  obtain ⟨-, head, tail, hlaid, rfl⟩ := write_eq_ok_iff.mp hwrite
  rw [layOut_of_same_size, map_eq_ok_iff] at hlaid
  obtain ⟨encodings, hencodings, ⟨⟩⟩ := hlaid
  exact ⟨encodings, hencodings, (List.append_nil _).symm⟩

end Series

namespace Layout

variable {h : HashFunction} {layout : Layout}

/-- The root of the leaves alone. -/
def dataRoot (h : HashFunction) : Layout → Except FitError Root
  | packed chunks capacity _ => Merkle.merkleize h chunks (some capacity)
  | composite parts capacity _ => do
    let leaves ← roots h parts
    Merkle.merkleize h leaves (some capacity)
  | misfit e => .error e

theorem rootOver_eq_map (leaves : List Root) (capacity : Nat) (count? : Option Nat) :
    rootOver h leaves capacity count?
      = (Merkle.merkleize h leaves (some capacity)).map (withCount h · count?) := by
  rw [rootOver]
  cases Merkle.merkleize h leaves (some capacity) with
  | error e => rfl
  | ok data => cases count? <;> rfl

/-- The root is that of the leaves, with the number of elements beside it if there is one. -/
theorem root_eq_map_dataRoot (layout : Layout) :
    layout.root h = (layout.dataRoot h).map (withCount h · layout.elementCount?) := by
  cases layout with
  | packed chunks capacity count? => exact rootOver_eq_map chunks capacity count?
  | composite parts capacity count? =>
    rw [Layout.root, dataRoot]
    cases roots h parts with
    | error e => rfl
    | ok leaves => exact rootOver_eq_map leaves capacity count?
  | misfit e => rfl

end Layout

namespace Value

/-- How many elements there are in a value; one that has none counts as one. -/
def elementCount : Value → Nat
  | bool _ | uint _ _ => 1
  | bytes bs => bs.length
  | bits bs => bs.length
  | vector items | list items | container items => items.length

end Value

namespace Shape

variable {shape : Shape} {v : Value} {bs : Bytes} {h : HashFunction} {kind : Scalar}
  {items : List Value} {capacity : Nat}

/-- Whether the leaves hold bytes of the value itself, rather than roots of its parts. -/
def packsLeaves : Shape → Bool
  | scalar _ | byteVector _ | byteList _ | bitvector _ | bitlist _ => true
  | vector element _ | list element _ => element.scalar?.isSome
  | container _ => false

/-- The part of an encoding that the leaves hold: all of it, but for the delimiter of a bitlist. -/
def leafBytes : Shape → Bytes → Bytes
  | bitlist _, bs => Bytes.dropDelimiter bs
  | _, bs => bs

/-- The number of elements, where the root covers it. -/
def mixedCount? (shape : Shape) (v : Value) : Option Nat :=
  if shape.mixesInCount then some v.elementCount else none

theorem withCount_mixedCount? (h : HashFunction) (data : Root) (shape : Shape) (v : Value) :
    Layout.withCount h data (shape.mixedCount? v)
      = if shape.mixesInCount then Merkle.mixInCount h data v.elementCount else data := by
  rw [mixedCount?]
  cases shape.mixesInCount <;> rfl

/-- Scalars share leaves in the order in which they share bytes. -/
theorem ofItems_of_write
    (hwrite : Series.write (items.map fun item =>
      ⟨(scalar kind).exactSize?, (scalar kind).encode item⟩) = .ok bs) (count? : Option Nat) :
    Layout.ofItems (scalar kind) items capacity count?
      = .packed (Merkle.pack bs) capacity count? := by
  have hencode : (scalar kind).encode = kind.encode := by
    funext item
    rw [encode]
  rw [exactSize?, hencode] at hwrite
  obtain ⟨encodings, hencodings, rfl⟩ := Series.flatten_of_write hwrite
  apply Layout.ofItems_scalar
  rw [Layout.packElements, hencodings]
  rfl

/-- The tree of what is packed holds what is written. -/
theorem layout_of_encode (hpacks : shape.packsLeaves = true) (hencode : shape.encode v = .ok bs) :
    Layout.of shape v
      = .packed (Merkle.pack (shape.leafBytes bs)) shape.chunkLimit (shape.mixedCount? v) := by
  cases shape with
  | scalar kind =>
    rw [encode] at hencode
    exact Layout.of_scalar hencode
  | byteVector length =>
    obtain ⟨rfl, hlength⟩ := encode_byteVector_eq_ok_iff.mp hencode
    exact Layout.of_byteVector hlength
  | byteList limit =>
    obtain ⟨rfl, hlimit⟩ := encode_byteList_eq_ok_iff.mp hencode
    exact Layout.of_byteList hlimit
  | bitvector length =>
    obtain ⟨bits, rfl, hlength, rfl⟩ := encode_bitvector_eq_ok_iff.mp hencode
    exact Layout.of_bitvector hlength
  | bitlist limit =>
    obtain ⟨bits, rfl, hlimit, rfl⟩ := encode_bitlist_eq_ok_iff.mp hencode
    rw [leafBytes, Bytes.dropDelimiter_ofBits]
    exact Layout.of_bitlist hlimit
  | vector element length =>
    obtain ⟨kind, hkind⟩ := Option.isSome_iff_exists.mp hpacks
    obtain rfl := scalar?_eq_some_iff.mp hkind
    obtain ⟨items, rfl, rfl, -, hwrite⟩ := encode_vector_eq_ok_iff.mp hencode
    rw [← map_writer] at hwrite
    rw [Layout.of_vector rfl]
    exact ofItems_of_write hwrite none
  | list element limit =>
    obtain ⟨kind, hkind⟩ := Option.isSome_iff_exists.mp hpacks
    obtain rfl := scalar?_eq_some_iff.mp hkind
    obtain ⟨items, rfl, hlimit, -, hwrite⟩ := encode_list_eq_ok_iff.mp hencode
    rw [← map_writer] at hwrite
    rw [Layout.of_list hlimit]
    exact ofItems_of_write hwrite (some items.length)
  | container fields => cases hpacks

/--
The leaves of bytes, bits and scalars are the bytes on the wire, without the delimiter of a bitlist.
They always have room in the tree; its root is the root over them, and the root of the value is that
root, with the number of elements mixed in for lists.
-/
theorem packed_leaves_are_wire_bytes (h : HashFunction) (hpacks : shape.packsLeaves = true)
    (hencode : shape.encode v = .ok bs) :
    (Merkle.pack (shape.leafBytes bs)).length ≤ shape.chunkLimit ∧
      ∃ data, Merkle.merkleize h (Merkle.pack (shape.leafBytes bs)) (some shape.chunkLimit)
          = .ok data ∧
        (Layout.of shape v).dataRoot h = .ok data ∧
        shape.hashTreeRoot h v
          = .ok (if shape.mixesInCount then Merkle.mixInCount h data v.elementCount else data) := by
  have hlayout := layout_of_encode hpacks hencode
  have hroom : (Merkle.pack (shape.leafBytes bs)).length ≤ shape.chunkLimit := by
    have hroom := Layout.hasRoom_of shape v
    rwa [hlayout] at hroom
  have hdata := Layout.merkleize_of_fits hroom (h := h)
  refine ⟨hroom, _, hdata, ?_, ?_⟩
  · rw [hlayout, Layout.dataRoot, hdata]
  · rw [hashTreeRoot, Layout.root_eq_map_dataRoot, hlayout, Layout.dataRoot, hdata]
    exact congrArg Except.ok (withCount_mixedCount? h _ shape v)

/-- Eight bits fill their byte, so that the delimiter has one of its own. -/
theorem packed_leaves_are_wire_bytes_flags :
    (bitlist 300).encode (.bits (List.replicate 8 true)) = .ok [0xff, 1] ∧
      (bitlist 300).leafBytes [0xff, 1] = [0xff] ∧
      ∃ data, Merkle.merkleize .sha256 (Merkle.pack [0xff]) (some 2) = .ok data ∧
        (bitlist 300).hashTreeRoot .sha256 (.bits (List.replicate 8 true))
          = .ok (Merkle.mixInCount .sha256 data 8) := by
  have hencode : (bitlist 300).encode (.bits (List.replicate 8 true)) = .ok [0xff, 1] := rfl
  have hleaves : (bitlist 300).leafBytes [0xff, 1] = [0xff] := by decide
  obtain ⟨-, data, hdata, -, hroot⟩ := packed_leaves_are_wire_bytes .sha256 rfl hencode
  rw [hleaves] at hdata
  exact ⟨hencode, hleaves, data, hdata, hroot⟩

end Shape

end SimpleSerialize
