import SimpleSerialize.Proofs.Bytes.Delimiter
import SimpleSerialize.Proofs.Shape.Fits
import SimpleSerialize.Proofs.Wire.RoundTrip

/-!
Sizes told before anything is written. The size of a value is added up from sizes of its own: those
that shapes have without a value, and those of the parts behind offsets. It is the length of what is
written (`Shape.announced_size_is_real`), and a shape needs no value for it exactly if there is no
list in it.
-/

namespace SimpleSerialize

namespace Shape

variable {shape element : Shape} {fields : List (String × Shape)} {length size : Nat}

/-! ### Which shapes are of fixed size -/

theorem isSome_exactSizes?_iff :
    (exactSizes? fields).isSome ↔ ∀ field ∈ fields, field.2.exactSize?.isSome := by
  induction fields with
  | nil => simp [exactSizes?]
  | cons field fields ih =>
    obtain ⟨name, shape⟩ := field
    rw [List.forall_mem_cons, ← ih, exactSizes?]
    cases shape.exactSize? <;> simp

/-- A size is fixed if no number of elements has to be known for it. -/
theorem isSome_exactSize?_iff_parts (shape : Shape) :
    shape.exactSize?.isSome ↔
      shape.mixesInCount = false ∧ ∀ part ∈ shape.parts, part.exactSize?.isSome := by
  cases shape with
  | container fields =>
    rw [exactSize?, isSome_exactSizes?_iff, parts_container, List.forall_mem_map]
    simp [mixesInCount]
  | _ => simp [exactSize?, mixesInCount, parts]

theorem isSome_exactSize?_iff (shape : Shape) :
    shape.exactSize?.isSome ↔ shape.Everywhere fun part => part.mixesInCount = false := by
  induction shape using induction_on_parts with
  | step shape ih =>
    rw [isSome_exactSize?_iff_parts, everywhere_iff]
    exact and_congr_right fun _ => forall₂_congr ih

/-! ### The size of a value, kind by kind -/

/-- Where the shape alone gives the size, the value is not looked at. -/
theorem encodedSize_of_fixed (hfixed : shape.fixedSize? = .ok (some size)) (v : Value) :
    shape.encodedSize v = .ok size := by
  have hwithout : shape.sizeWithout v = .ok size := by
    rw [sizeWithout, hfixed]
    rfl
  cases shape with
  | scalar _ | byteVector _ | bitvector _ => simpa only [encodedSize] using hwithout
  | byteList _ | bitlist _ | list _ _ => cases hfixed
  | vector element length =>
    obtain ⟨own?, helement, hown⟩ := exists_fixedSize?_of_vector hfixed
    obtain ⟨own, rfl, -⟩ := Option.map_eq_some_iff.mp hown
    cases v with
    | vector items =>
      rw [encodedSize, isFixed, helement]
      exact hwithout
    | _ => simpa only [encodedSize] using hwithout
  | container fields =>
    cases v with
    | container values =>
      rw [encodedSize, isFixed, hfixed]
      exact hwithout
    | _ => simpa only [encodedSize] using hwithout

theorem encodedSize_vector (hvariable : element.exactSize? = none) (items : List Value) :
    (vector element length).encodedSize (.vector items)
      = (element.fixedSize?.mapError .halted >>= fun _ => requireLength length items.length >>=
          fun _ => sumSizes 0 (items.map fun item =>
            entrySize element.fixedSize? (element.encodedSize item))) := by
  rw [encodedSize, isFixed]
  cases hsize : element.fixedSize? with
  | error halt => rfl
  | ok size? =>
    obtain rfl : none = size? := hvariable.symm.trans (exactSize?_of_fixedSize? hsize)
    rfl

theorem fieldSizes_eq_map_zip (fields : List (String × Shape)) (values : List Value) :
    fieldSizes fields values = (fields.zip values).map fun entry =>
      entrySize entry.1.2.fixedSize? (entry.1.2.encodedSize entry.2) := by
  induction fields generalizing values with
  | nil => simp [fieldSizes]
  | cons field fields ih =>
    cases values with
    | nil => simp [fieldSizes]
    | cons v values => rw [fieldSizes, ih, List.zip_cons_cons, List.map_cons]

theorem encodedSize_container (hvariable : (container fields).exactSize? = none)
    (values : List Value) :
    (container fields).encodedSize (.container values)
      = ((container fields).fixedSize?.mapError .halted >>= fun _ =>
          requireLength fields.length values.length >>= fun _ =>
            sumSizes 0 ((fields.zip values).map fun entry =>
              entrySize entry.1.2.fixedSize? (entry.1.2.encodedSize entry.2))) := by
  rw [encodedSize, fieldSizes_eq_map_zip, isFixed]
  cases hsize : (container fields).fixedSize? with
  | error halt => rfl
  | ok size? =>
    obtain rfl : none = size? := hvariable.symm.trans (exactSize?_of_fixedSize? hsize)
    rfl

/-! ### The size is the length of what is written -/

/-- The size told for a value is the length of its encoding, if memory can hold that. -/
def Announces (shape : Shape) : Prop :=
  ∀ v bs, bs.length < wordBound → shape.encode v = .ok bs → shape.encodedSize v = .ok bs.length

theorem entrySize_of_fixed {own : Except FitError Nat}
    (hfixed : shape.fixedSize? = .ok (some size)) :
    entrySize shape.fixedSize? own = .ok size := by
  rw [entrySize, hfixed]
  rfl

theorem entrySize_of_variable {own : Nat} (hvariable : shape.fixedSize? = .ok none)
    (hfits : offsetSize + own < wordBound) :
    entrySize shape.fixedSize? (.ok own) = .ok (offsetSize + own) := by
  rw [entrySize, hvariable, mapError_ok, ok_bind, ok_bind, addWord, if_pos hfits, mapError_ok]

theorem sumSizes_cons {sum size : Nat} (hfits : sum + size < wordBound)
    (sizes : List (Except FitError Nat)) :
    sumSizes sum (.ok size :: sizes) = sumSizes (sum + size) sizes := by
  rw [sumSizes, ok_bind, addWord, if_pos hfits, mapError_ok, ok_bind]

end Shape

namespace Series

variable {α : Type} {shape : α → Shape} {value : α → Value} {xs : List α}

/-- The sizes of parts add up to head and tail together, since an offset counts as a part of it. -/
theorem sumSizes_of_layOut (hsized : ∀ x ∈ xs, (shape x).Sized)
    (hannounce : ∀ x ∈ xs, (shape x).Announces) {offset : Nat} {head tail : Bytes}
    (hwrite : layOut offset (xs.map fun x => ⟨(shape x).exactSize?, (shape x).encode (value x)⟩)
      = .ok (head, tail))
    {sum : Nat} (hmemory : sum + (head.length + tail.length) < wordBound) :
    Shape.sumSizes sum (xs.map fun x =>
      Shape.entrySize (shape x).fixedSize? ((shape x).encodedSize (value x)))
        = .ok (sum + (head.length + tail.length)) := by
  induction xs generalizing offset head tail sum with
  | nil =>
    cases hwrite
    rfl
  | cons x xs ih =>
    rw [List.forall_mem_cons] at hsized hannounce
    have hown : (shape x).fixedSize? = .ok (shape x).exactSize? := hsized.1
    rw [List.map_cons] at hwrite ⊢
    cases hsize : (shape x).exactSize? with
    | some size =>
      rw [hsize] at hown
      rw [hsize, layOut_fixed] at hwrite
      obtain ⟨bs, rest, hcontent, hrest, rfl⟩ := hwrite
      have hlength := (shape x).keepsSize _ bs size hsize hcontent
      rw [List.length_append] at hmemory ⊢
      rw [Shape.entrySize_of_fixed hown, Shape.sumSizes_cons (by omega),
        ih hsized.2 hannounce.2 hrest (by omega), hlength, Nat.add_assoc, Nat.add_assoc]
    | none =>
      rw [hsize] at hown
      rw [hsize, layOut_variable] at hwrite
      obtain ⟨-, bs, rest, rest', hcontent, hrest, rfl, rfl⟩ := hwrite
      rw [List.length_append, List.length_append, Bytes.length_littleEndian] at hmemory ⊢
      rw [hannounce.1 _ bs (by omega) hcontent, Shape.entrySize_of_variable hown (by omega),
        Shape.sumSizes_cons (by omega), ih hsized.2 hannounce.2 hrest (by omega)]
      calc Except.ok (sum + (offsetSize + bs.length) + (rest.length + rest'.length))
          = .ok (sum + (offsetSize + bs.length + (rest.length + rest'.length))) := by
            rw [Nat.add_assoc]
        _ = .ok (sum + (offsetSize + rest.length + (bs.length + rest'.length))) := by
            rw [Nat.add_add_add_comm]

theorem sumSizes_of_write (hsized : ∀ x ∈ xs, (shape x).Sized)
    (hannounce : ∀ x ∈ xs, (shape x).Announces) {bs : Bytes} (hmemory : bs.length < wordBound)
    (hwrite : write (xs.map fun x => ⟨(shape x).exactSize?, (shape x).encode (value x)⟩)
      = .ok bs) :
    Shape.sumSizes 0 (xs.map fun x =>
      Shape.entrySize (shape x).fixedSize? ((shape x).encodedSize (value x))) = .ok bs.length := by
  obtain ⟨-, head, tail, hlayOut, rfl⟩ := write_eq_ok_iff.mp hwrite
  rw [List.length_append] at hmemory ⊢
  rw [sumSizes_of_layOut hsized hannounce hlayOut (by omega), Nat.zero_add]

end Series

namespace Shape

variable {shape : Shape}

/-- What was written had a head that fits, so that its size can be told. -/
theorem sized_of_encode {fields : List (String × Shape)} {v : Value} {bs : Bytes}
    (hencode : (container fields).encode v = .ok bs) : (container fields).Sized := by
  obtain ⟨values, -, hlength, hsized, hwrite⟩ := encode_container_eq_ok_iff.mp hencode
  have hhead := (Series.write_eq_ok_iff.mp hwrite).1
  rw [Series.width_writersOf (by simpa using hlength)] at hhead
  rw [Sized, fixedSize?, fixedSizes?_of_sized (List.forall_mem_map.mp hsized) (by omega),
    exactSize?]
  simp

theorem announces (hbuilt : shape.Built) : shape.Announces := by
  induction hbuilt with
  | @intro shape own hparts ih =>
    intro v bs hmemory hencode
    have hfixed {size : Nat} (hsize : shape.fixedSize? = .ok (some size)) :
        shape.encodedSize v = .ok bs.length := by
      rw [encodedSize_of_fixed hsize,
        shape.keepsSize v bs size (exactSize?_of_fixedSize? hsize) hencode]
    cases shape with
    | scalar _ | byteVector _ | bitvector _ => exact hfixed rfl
    | byteList limit =>
      obtain ⟨rfl, hlimit⟩ := encode_byteList_eq_ok_iff.mp hencode
      rw [encodedSize, requireCapacity, if_pos hlimit]
      rfl
    | bitlist limit =>
      obtain ⟨bits, rfl, hlimit, rfl⟩ := encode_bitlist_eq_ok_iff.mp hencode
      rw [encodedSize, requireCapacity, if_pos hlimit, Bytes.length_ofBits_append_true]
      rfl
    | vector element length =>
      obtain ⟨size?, hsize⟩ := exists_fixedSize?_of_check own
      cases size? with
      | some size => exact hfixed hsize
      | none =>
        obtain ⟨own?, helement, hnone⟩ := exists_fixedSize?_of_vector hsize
        obtain rfl := Option.map_eq_none_iff.mp hnone
        obtain ⟨items, rfl, rfl, -, hwrite⟩ := encode_vector_eq_ok_iff.mp hencode
        rw [← map_writer] at hwrite
        have hsum := Series.sumSizes_of_write (fun _ _ => sized_iff.mpr ⟨none, helement⟩)
          (fun _ _ => ih element (by simp)) hmemory hwrite
        rw [encodedSize_vector (exactSize?_of_fixedSize? helement), hsum, helement, requireLength,
          if_pos rfl]
        rfl
    | list element limit =>
      obtain ⟨items, rfl, hlimit, hsized, hwrite⟩ := encode_list_eq_ok_iff.mp hencode
      rw [← map_writer] at hwrite
      rw [encodedSize, requireCapacity, if_pos hlimit]
      exact Series.sumSizes_of_write (fun _ hitem => hsized (List.ne_nil_of_mem hitem))
        (fun _ _ => ih element (by simp)) hmemory hwrite
    | container fields =>
      have hsize : (container fields).fixedSize? = .ok (container fields).exactSize? :=
        sized_of_encode hencode
      cases hexact : (container fields).exactSize? with
      | some size => exact hfixed (hsize.trans (congrArg Except.ok hexact))
      | none =>
        rw [hexact] at hsize
        obtain ⟨values, rfl, hlength, hsized, hwrite⟩ := encode_container_eq_ok_iff.mp hencode
        rw [← map_zip_writer] at hwrite
        rw [encodedSize_container hexact, hsize, requireLength, if_pos hlength]
        have hpart (entry : (String × Shape) × Value) (hentry : entry ∈ fields.zip values) :
            entry.1.2 ∈ (container fields).parts :=
          List.mem_map_of_mem (List.of_mem_zip hentry).1
        exact Series.sumSizes_of_write (fun entry hentry => hsized _ (hpart entry hentry))
          (fun entry hentry => ih _ (hpart entry hentry)) hmemory hwrite

/-- Bytes of another length than an exact size are not read. -/
theorem length_of_decode {v : Value} {bs : Bytes} {size : Nat}
    (hsize : shape.exactSize? = some size) (hdecode : shape.decode bs = .ok v) :
    bs.length = size := by
  cases shape with
  | scalar kind =>
    cases hsize
    exact Scalar.length_of_encode (Scalar.encode_eq_ok_iff_decode.mpr hdecode)
  | byteVector length =>
    cases hsize
    exact (decode_byteVector_eq_ok_iff.mp hdecode).2
  | bitvector length =>
    cases hsize
    obtain ⟨bits, -, rfl, rfl⟩ := Wire.readBitvector_eq_ok_iff.mp hdecode
    exact Bytes.length_ofBits bits
  | vector element length =>
    obtain ⟨-, -, items, -, -, hread⟩ := decode_vector_eq_ok_iff.mp hdecode
    obtain ⟨each, heach, rfl⟩ := Option.map_eq_some_iff.mp hsize
    have hfixed : ∀ part ∈ List.replicate length element, part.exactSize?.isSome := by
      intro part hpart
      rw [List.eq_of_mem_replicate hpart, heach]
      rfl
    rw [Series.length_of_readFrom hfixed hread, exactHeadSize, heach, Option.getD_some,
      Nat.mul_comm]
  | container fields =>
    obtain ⟨-, -, values, -, -, hread⟩ := decode_container_eq_ok_iff.mp hdecode
    obtain ⟨hfixed, rfl⟩ := exactSizes?_eq_some_iff.mp hsize
    exact Series.length_of_readFrom (List.forall_mem_map.mpr hfixed) hread
  | _ => cases hsize

/--
The size told for a value is the length of its encoding, if memory can hold that. Where the shape
tells the size, which it does exactly if there is no list, byte list or bitlist in it at any depth,
every encoding has that length, and no byte string of another length is read.
-/
theorem announced_size_is_real (hbuilt : shape.Built) (hfits : shape.SizesFit) :
    (∀ v bs, bs.length < wordBound → shape.encode v = .ok bs →
      shape.encodedSize v = .ok bs.length) ∧
    (∀ v bs size, shape.fixedSize? = .ok (some size) → shape.encode v = .ok bs →
      bs.length = size) ∧
    ((∃ size, shape.fixedSize? = .ok (some size)) ↔
      shape.Everywhere fun part => part.mixesInCount = false) ∧
    ∀ v bs size, shape.fixedSize? = .ok (some size) → shape.decode bs = .ok v →
      bs.length = size := by
  refine ⟨announces hbuilt, ?_, ?_, ?_⟩
  · intro v bs size hsize hencode
    exact shape.keepsSize v bs size (exactSize?_of_fixedSize? hsize) hencode
  · rw [← isSome_exactSize?_iff, Option.isSome_iff_exists, fixedSize?_of_fits hfits]
    simp only [Except.ok.injEq]
  · intro v bs size hsize hdecode
    exact length_of_decode (exactSize?_of_fixedSize? hsize) hdecode

/-- A record whose tags and flags are behind its head, one of the tags empty. -/
theorem announced_size_is_real_record :
    record.encodedSize recordValue = .ok 20 ∧ record.fixedSize? = .ok none := by
  have hbuilt : record.Built := by decide
  have hfits : record.SizesFit := by decide
  obtain ⟨hsize, -, hlists, -⟩ := announced_size_is_real hbuilt hfits
  refine ⟨hsize recordValue recordBytes (by decide) rfl, ?_⟩
  rw [fixedSize?_of_fits hfits] at hlists ⊢
  cases hnone : record.exactSize? with
  | none => rfl
  | some size =>
    have hlistless := hlists.mp ⟨size, by rw [hnone]⟩
    obtain ⟨-, hparts⟩ := everywhere_iff.mp hlistless
    cases (everywhere_iff.mp (hparts (bitlist 9) (by simp [record]))).1

end Shape

end SimpleSerialize
