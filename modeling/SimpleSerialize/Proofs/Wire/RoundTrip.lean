import SimpleSerialize.Proofs.Wire.Sequence

/-!
Writing and reading are inverse to each other: what a value is written as is read back as the value
(`Shape.decode_encode`), and whatever is read as a value is what the value is written as
(`Shape.encode_decode`), so that no value has two encodings.
-/

namespace SimpleSerialize.Shape

open Series

/-- An exact size is the size of every encoding. -/
theorem keepsSize (shape : Shape) : shape.KeepsSize := by
  induction shape using induction_on_parts with
  | step shape ih =>
    intro v bs size hsize hencode
    cases shape with
    | scalar kind =>
      cases hsize
      exact Scalar.length_of_encode hencode
    | byteVector length =>
      cases hsize
      exact (encode_byteVector_eq_ok_iff.mp hencode).2
    | bitvector length =>
      cases hsize
      obtain ⟨bits, -, rfl, rfl⟩ := encode_bitvector_eq_ok_iff.mp hencode
      exact Bytes.length_ofBits bits
    | vector element length =>
      obtain ⟨items, -, hlength, -, hwrite⟩ := encode_vector_eq_ok_iff.mp hencode
      obtain ⟨each, heach, rfl⟩ := Option.map_eq_some_iff.mp hsize
      have hall : ∀ shape ∈ List.replicate length element,
          shape.KeepsSize ∧ shape.exactSize?.isSome := by
        intro shape hshape
        rw [List.eq_of_mem_replicate hshape, heach]
        exact ⟨ih element (by simp), rfl⟩
      rw [length_of_write (fun shape hshape => (hall shape hshape).1)
        (fun shape hshape => (hall shape hshape).2) (by simpa using hlength) hwrite,
        headOf_replicate, exactHeadSize, heach, Option.getD_some, Nat.mul_comm]
    | container fields =>
      obtain ⟨values, -, hlength, -, hwrite⟩ := encode_container_eq_ok_iff.mp hencode
      obtain ⟨hfixed, rfl⟩ := exactSizes?_eq_some_iff.mp hsize
      rw [parts_container] at ih
      exact length_of_write ih (List.forall_mem_map.mpr hfixed) (by simpa using hlength) hwrite
    | _ => simp [exactSize?] at hsize

theorem exactHeadSize_pos {shape : Shape} (hbuilt : shape.Built) : 0 < shape.exactHeadSize := by
  rw [exactHeadSize]
  cases hsize : shape.exactSize? with
  | none => decide
  | some size => exact exactSize?_pos hbuilt hsize

theorem readsBack {shape : Shape} (hbuilt : shape.Built) (hfits : shape.SizesFit) :
    shape.ReadsBack := by
  induction hbuilt with
  | @intro shape own hbuiltParts ih =>
    intro v bs hmemory hencode
    have hparts := (everywhere_iff.mp hfits).2
    have hread (part : Shape) (hpart : part ∈ shape.parts) : part.ReadsBack :=
      ih part hpart (hparts part hpart)
    cases shape with
    | scalar kind => exact Scalar.encode_eq_ok_iff_decode.mp hencode
    | byteVector length =>
      exact decode_byteVector_eq_ok_iff.mpr (encode_byteVector_eq_ok_iff.mp hencode)
    | byteList limit =>
      exact decode_byteList_eq_ok_iff.mpr (encode_byteList_eq_ok_iff.mp hencode)
    | bitvector length =>
      exact Wire.readBitvector_eq_ok_iff.mpr (encode_bitvector_eq_ok_iff.mp hencode)
    | bitlist limit =>
      exact Wire.readBitlist_eq_ok_iff.mpr (encode_bitlist_eq_ok_iff.mp hencode)
    | vector element length =>
      obtain ⟨items, rfl, hlength, -, hwrite⟩ := encode_vector_eq_ok_iff.mp hencode
      obtain ⟨hroom, hback⟩ := readFrom_of_write
        (fun part hpart => hread part (by simp [List.eq_of_mem_replicate hpart]))
        (fun part _ => keepsSize part) (by simpa using hlength) hmemory hwrite
      rw [headOf_replicate] at hroom hback
      exact decode_vector_eq_ok_iff.mpr ⟨sized_of_fits (hparts element (by simp)),
        Nat.lt_of_le_of_lt hroom hmemory, items, rfl, hroom, hback⟩
    | list element limit =>
      obtain ⟨items, rfl, hlimit, -, hwrite⟩ := encode_list_eq_ok_iff.mp hencode
      have hmem : element ∈ (list element limit).parts := by simp
      obtain ⟨hroom, hback⟩ := readFrom_of_write
        (fun part hpart => hread part (by simp [List.eq_of_mem_replicate hpart]))
        (fun part _ => keepsSize part) (by simp) hmemory hwrite
      rw [headOf_replicate] at hroom hback
      exact (decode_list_eq_ok_iff (exactHeadSize_pos (hbuiltParts element hmem))).mpr
        ⟨sized_of_fits (hparts element hmem), items, items.length, rfl, hlimit, hroom, hback⟩
    | container fields =>
      obtain ⟨values, rfl, hlength, hsized, hwrite⟩ := encode_container_eq_ok_iff.mp hencode
      rw [parts_container] at hread
      obtain ⟨hroom, hback⟩ := readFrom_of_write hread (fun part _ => keepsSize part)
        (by simpa using hlength) hmemory hwrite
      exact decode_container_eq_ok_iff.mpr
        ⟨hsized, Nat.lt_of_le_of_lt hroom hmemory, values, rfl, hroom, hback⟩

/-- Bytes that are read are written again in every shape: what would not fit has no reading. -/
theorem writesBack {shape : Shape} (hbuilt : shape.Built) : shape.WritesBack := by
  induction hbuilt with
  | @intro shape own hbuiltParts hwrite =>
    intro v bs hmemory hdecode
    cases shape with
    | scalar kind => exact Scalar.encode_eq_ok_iff_decode.mpr hdecode
    | byteVector length =>
      exact encode_byteVector_eq_ok_iff.mpr (decode_byteVector_eq_ok_iff.mp hdecode)
    | byteList limit =>
      exact encode_byteList_eq_ok_iff.mpr (decode_byteList_eq_ok_iff.mp hdecode)
    | bitvector length =>
      exact encode_bitvector_eq_ok_iff.mpr (Wire.readBitvector_eq_ok_iff.mp hdecode)
    | bitlist limit =>
      exact encode_bitlist_eq_ok_iff.mpr (Wire.readBitlist_eq_ok_iff.mp hdecode)
    | vector element length =>
      obtain ⟨hsized, -, items, rfl, hroom, hread⟩ := decode_vector_eq_ok_iff.mp hdecode
      rw [← headOf_replicate] at hroom hread
      obtain ⟨hlength, hback⟩ := write_of_readFrom
        (fun part hpart => hwrite part (by simp [List.eq_of_mem_replicate hpart]))
        hmemory hroom hread
      exact encode_vector_eq_ok_iff.mpr
        ⟨items, rfl, by simpa using hlength, fun _ => hsized, hback⟩
    | list element limit =>
      have hpos := exactHeadSize_pos (hbuiltParts element (by simp))
      obtain ⟨hsized, items, count, rfl, hlimit, hroom, hread⟩ :=
        (decode_list_eq_ok_iff hpos).mp hdecode
      rw [← headOf_replicate] at hroom hread
      obtain ⟨hlength, hback⟩ := write_of_readFrom
        (fun part hpart => hwrite part (by simp [List.eq_of_mem_replicate hpart]))
        hmemory hroom hread
      rw [List.length_replicate] at hlength
      subst hlength
      exact encode_list_eq_ok_iff.mpr ⟨items, rfl, hlimit, fun _ => hsized, hback⟩
    | container fields =>
      obtain ⟨hsized, -, values, rfl, hroom, hread⟩ := decode_container_eq_ok_iff.mp hdecode
      rw [parts_container] at hwrite
      obtain ⟨hlength, hback⟩ := write_of_readFrom hwrite hmemory hroom hread
      exact encode_container_eq_ok_iff.mpr ⟨values, rfl, by simpa using hlength, hsized, hback⟩

/--
What a value is written as is read back as that value, in every shape whose sizes fit in words. That
memory holds the encoding is all that is asked of the value.
-/
theorem decode_encode {shape : Shape} (hbuilt : shape.Built) (hfits : shape.SizesFit) {v : Value}
    {bs : Bytes} (hmemory : bs.length < wordBound) (hencode : shape.encode v = .ok bs) :
    shape.decode bs = .ok v :=
  readsBack hbuilt hfits v bs hmemory hencode

/-- A record with a list of byte lists and a bitlist behind its head. -/
def record : Shape :=
  container [("id", scalar (.uint .w8)), ("tags", list (byteList 4) 3), ("flags", bitlist 9)]

def recordValue : Value :=
  .container [.uint .w8 5, .list [.bytes [], .bytes [1, 2]], .bits [true, false, true]]

def recordBytes : Bytes :=
  [5, 9, 0, 0, 0, 19, 0, 0, 0, 8, 0, 0, 0, 8, 0, 0, 0, 1, 2, 13]

theorem decode_encode_record :
    record.Built ∧ record.SizesFit ∧ recordBytes.length < wordBound ∧
      record.encode recordValue = .ok recordBytes ∧ record.decode recordBytes = .ok recordValue :=
  have hbuilt : record.Built := by decide
  have hfits : record.SizesFit := by decide
  have hencode : record.encode recordValue = .ok recordBytes := rfl
  ⟨hbuilt, hfits, by decide, hencode, decode_encode hbuilt hfits (by decide) hencode⟩

/--
Whatever is read as a value is what the value is written as, so only one byte string is. That memory
holds the bytes is all that is asked of them.
-/
theorem encode_decode {shape : Shape} (hbuilt : shape.Built) {v : Value} {bs : Bytes}
    (hmemory : bs.length < wordBound) (hdecode : shape.decode bs = .ok v) :
    shape.encode v = .ok bs ∧
      ∀ bs', bs'.length < wordBound → shape.decode bs' = .ok v → bs' = bs := by
  have hencode := writesBack hbuilt v bs hmemory hdecode
  refine ⟨hencode, ?_⟩
  intro bs' hmemory' hdecode'
  have hencode' := writesBack hbuilt v bs' hmemory' hdecode'
  rw [hencode] at hencode'
  exact (Except.ok.inj hencode').symm

theorem encode_decode_record :
    record.Built ∧ recordBytes.length < wordBound ∧ record.decode recordBytes = .ok recordValue ∧
      record.encode recordValue = .ok recordBytes ∧
      ∀ bs', bs'.length < wordBound → record.decode bs' = .ok recordValue → bs' = recordBytes :=
  have hbuilt : record.Built := by decide
  have hdecode : record.decode recordBytes = .ok recordValue := rfl
  ⟨hbuilt, by decide, hdecode, encode_decode hbuilt (by decide) hdecode⟩

end SimpleSerialize.Shape
