import SimpleSerialize.Proofs.Merkle.Layout
import SimpleSerialize.Proofs.Merkle.Packing
import SimpleSerialize.Proofs.Shape.Fits

/-!
The layout of a value that fits its shape, kind by kind. No other value has a root
(`Shape.fits_of_root`).
-/

namespace SimpleSerialize

namespace Scalar

theorem exists_encode_iff_fits {kind : Scalar} {v : Value} :
    (∃ bs, kind.encode v = .ok bs) ↔ (Shape.scalar kind).Fits v := by
  constructor
  · rintro ⟨bs, hencode⟩
    cases kind with
    | bool =>
      obtain ⟨b, rfl, -⟩ := encode_bool_eq_ok_iff.mp hencode
      exact .bool b
    | uint width =>
      obtain ⟨n, rfl, -⟩ := encode_uint_eq_ok_iff.mp hencode
      exact .uint width n
  · intro hfits
    cases hfits with
    | bool b => exact ⟨_, encode_bool_eq_ok_iff.mpr ⟨b, rfl, rfl⟩⟩
    | uint width n => exact ⟨_, encode_uint_eq_ok_iff.mpr ⟨n, rfl, rfl⟩⟩

end Scalar

theorem Shape.scalar?_eq_some_iff {shape : Shape} {kind : Scalar} :
    shape.scalar? = some kind ↔ shape = .scalar kind := by
  cases shape <;> simp [scalar?]

namespace Layout

variable {length limit : Nat} {bs : Bytes} {bits : List Bool} {items : List Value}
  {chunks : List Root} {kind : Scalar} {element : Shape}

theorem of_scalar {v : Value} (hencode : kind.encode v = .ok bs) :
    of (.scalar kind) v = .packed (Merkle.pack bs) 1 none := by
  rw [of, hencode]
  rfl

theorem of_byteVector (hlength : bs.length = length) :
    of (.byteVector length) (.bytes bs)
      = .packed (Merkle.pack bs) (Bytes.ceilDiv length chunkSize) none := by
  rw [of, requireLength, if_pos hlength]
  rfl

theorem of_bytes32 (root : Root) :
    of .bytes32 (.bytes root.toList) = .packed [root] 1 none := by
  rw [Shape.bytes32, of_byteVector root.length_toList, Merkle.pack_toList]
  rfl

theorem of_byteList (hlimit : bs.length ≤ limit) :
    of (.byteList limit) (.bytes bs)
      = .packed (Merkle.pack bs) (Bytes.ceilDiv limit chunkSize) (some bs.length) := by
  rw [of, requireCapacity, if_pos hlimit]
  rfl

theorem of_bitvector (hlength : bits.length = length) :
    of (.bitvector length) (.bits bits)
      = .packed (Merkle.packBits bits) (Bytes.ceilDiv length (8 * chunkSize)) none := by
  rw [of, requireLength, if_pos hlength]
  rfl

theorem of_bitlist (hlimit : bits.length ≤ limit) :
    of (.bitlist limit) (.bits bits)
      = .packed (Merkle.packBits bits) (Bytes.ceilDiv limit (8 * chunkSize))
          (some bits.length) := by
  rw [of, requireCapacity, if_pos hlimit]
  rfl

/-- The elements of a vector or a list: scalars share chunks, everything else has its own leaf. -/
def ofItems (element : Shape) (items : List Value) (capacity : Nat) (count? : Option Nat) :
    Layout :=
  match element.scalar? with
  | some kind => ofPacked (packElements kind items) capacity count?
  | none => .composite (items.map fun item => of element item) capacity count?

theorem of_vector (hlength : items.length = length) :
    of (.vector element length) (.vector items)
      = ofItems element items (element.leafCount length) none := by
  rw [of, requireLength, if_pos hlength]
  rfl

theorem of_list (hlimit : items.length ≤ limit) :
    of (.list element limit) (.list items)
      = ofItems element items (element.leafCount limit) (some items.length) := by
  rw [of, requireCapacity, if_pos hlimit]
  rfl

theorem ofItems_scalar (hchunks : packElements kind items = .ok chunks) (capacity : Nat)
    (count? : Option Nat) :
    ofItems (.scalar kind) items capacity count? = .packed chunks capacity count? := by
  simp only [ofItems, Shape.scalar?, hchunks, ofPacked]

theorem ofItems_composite (hscalar : element.scalar? = none) (capacity : Nat)
    (count? : Option Nat) :
    ofItems element items capacity count?
      = .composite (items.map fun item => of element item) capacity count? := by
  rw [ofItems, hscalar]

theorem ofFields_eq_map_zip (fields : List (String × Shape)) (values : List Value) :
    ofFields fields values = (fields.zip values).map fun entry => of entry.1.2 entry.2 := by
  induction fields generalizing values with
  | nil => simp [ofFields]
  | cons field fields ih =>
    cases values with
    | nil => simp [ofFields]
    | cons v values => rw [ofFields, ih, List.zip_cons_cons, List.map_cons]

theorem of_container {fields : List (String × Shape)} {values : List Value}
    (hlength : values.length = fields.length) :
    of (.container fields) (.container values)
      = .composite ((fields.zip values).map fun entry => of entry.1.2 entry.2) fields.length
          none := by
  rw [of, requireLength, if_pos hlength, ofFields_eq_map_zip]
  rfl

theorem exists_packElements_iff :
    (∃ chunks, packElements kind items = .ok chunks) ↔
      ∀ item ∈ items, (Shape.scalar kind).Fits item := by
  simp only [packElements_eq_ok_iff, ← Scalar.exists_encode_iff_fits, ← exists_map_eq_ok_iff]
  constructor
  · rintro ⟨chunks, encodings, hencode, -⟩
    exact ⟨encodings, hencode⟩
  · rintro ⟨encodings, hencode⟩
    exact ⟨_, encodings, hencode, rfl⟩

section Roots

variable {h : HashFunction} {root : Root} {capacity : Nat} {count? : Option Nat}

theorem exists_root_of_composite {α : Type} {part : α → Layout} {entries : List α}
    (hroot : (composite (entries.map part) capacity count?).root h = .ok root) :
    ∀ entry ∈ entries, ∃ leaf, (part entry).root h = .ok leaf := by
  obtain ⟨leaves, hroots, -⟩ := root_composite_eq_ok_iff.mp hroot
  rw [roots_eq_ok_iff, List.map_map] at hroots
  exact exists_map_eq_ok_iff.mp ⟨leaves, hroots⟩

theorem exists_chunks_of_root (hroot : (ofItems (.scalar kind) items capacity count?).root h
      = .ok root) : ∃ chunks, packElements kind items = .ok chunks := by
  cases hchunks : packElements kind items with
  | error e =>
    simp only [ofItems, Shape.scalar?, hchunks] at hroot
    cases hroot
  | ok chunks => exact ⟨chunks, rfl⟩

theorem items_fit_of_root
    (helement : ∀ item leaf, (of element item).root h = .ok leaf → element.Fits item)
    (hroot : (ofItems element items capacity count?).root h = .ok root) :
    ∀ item ∈ items, element.Fits item := by
  cases hscalar : element.scalar? with
  | some kind =>
    obtain rfl := Shape.scalar?_eq_some_iff.mp hscalar
    exact exists_packElements_iff.mp (exists_chunks_of_root hroot)
  | none =>
    rw [ofItems_composite hscalar] at hroot
    intro item hitem
    obtain ⟨leaf, hleaf⟩ := exists_root_of_composite hroot item hitem
    exact helement item leaf hleaf

end Roots

end Layout

/-- A value with a root fits its shape. -/
theorem Shape.fits_of_root {h : HashFunction} {shape : Shape} {v : Value} {root : Root}
    (hroot : (Layout.of shape v).root h = .ok root) : shape.Fits v := by
  induction shape using Shape.induction_on_parts generalizing v root with
  | step shape ih =>
    cases shape with
    | scalar kind =>
      apply Scalar.exists_encode_iff_fits.mp
      cases hencode : kind.encode v with
      | error e =>
        rw [Layout.of, hencode] at hroot
        cases hroot
      | ok bs => exact ⟨bs, rfl⟩
    | byteVector length =>
      cases v with
      | bytes bs =>
        rw [Layout.of] at hroot
        exact .byteVector (requireLength_eq_ok_iff.mp (Layout.fits_of_root hroot))
      | _ => cases hroot
    | byteList limit =>
      cases v with
      | bytes bs =>
        rw [Layout.of] at hroot
        exact .byteList (requireCapacity_eq_ok_iff.mp (Layout.fits_of_root hroot))
      | _ => cases hroot
    | bitvector length =>
      cases v with
      | bits bits =>
        rw [Layout.of] at hroot
        exact .bitvector (requireLength_eq_ok_iff.mp (Layout.fits_of_root hroot))
      | _ => cases hroot
    | bitlist limit =>
      cases v with
      | bits bits =>
        rw [Layout.of] at hroot
        exact .bitlist (requireCapacity_eq_ok_iff.mp (Layout.fits_of_root hroot))
      | _ => cases hroot
    | vector element length =>
      cases v with
      | vector items =>
        have hof := hroot
        rw [Layout.of] at hof
        have hlength := requireLength_eq_ok_iff.mp (Layout.fits_of_root hof)
        rw [Layout.of_vector hlength] at hroot
        refine .vector hlength (Layout.items_fit_of_root ?_ hroot)
        intro item leaf hleaf
        exact ih element (by simp) hleaf
      | _ => cases hroot
    | list element limit =>
      cases v with
      | list items =>
        have hof := hroot
        rw [Layout.of] at hof
        have hlimit := requireCapacity_eq_ok_iff.mp (Layout.fits_of_root hof)
        rw [Layout.of_list hlimit] at hroot
        refine .list hlimit (Layout.items_fit_of_root ?_ hroot)
        intro item leaf hleaf
        exact ih element (by simp) hleaf
      | _ => cases hroot
    | container fields =>
      cases v with
      | container values =>
        have hof := hroot
        rw [Layout.of] at hof
        have hlength := requireLength_eq_ok_iff.mp (Layout.fits_of_root hof)
        rw [Layout.of_container hlength] at hroot
        refine .container hlength ?_
        intro entry hentry
        obtain ⟨leaf, hleaf⟩ := Layout.exists_root_of_composite hroot entry hentry
        exact ih entry.1.2 (List.mem_map_of_mem (List.of_mem_zip hentry).1) hleaf
      | _ => cases hroot

end SimpleSerialize
