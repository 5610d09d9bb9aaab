import SimpleSerialize.Proofs.Except
import SimpleSerialize.Proofs.Shape.Sizes
import SimpleSerialize.Schema

/-!
Roots and branches of typed values: those of the plain value, as soon as the type has a shape under
the preset.
-/

namespace SimpleSerialize

namespace Shape

theorem ceilDiv_chunkSize_le {length : Nat} (hlt : length < wordBound) :
    Bytes.ceilDiv length chunkSize ≤ 2 ^ (maxDepth - 1) := by
  unfold Bytes.ceilDiv chunkSize maxDepth
  unfold wordBound at hlt
  omega

/-- Bytes share leaves, so no length that a word holds is too large. -/
theorem check_byteVector {length : Nat} (hpos : 0 < length) (hlt : length < wordBound) :
    (byteVector length).check = .ok (byteVector length) := by
  refine check_eq_ok_iff.mpr ⟨?_, rfl, hlt, ceilDiv_chunkSize_le hlt⟩
  obtain ⟨rest, rfl⟩ := Nat.exists_eq_add_of_lt hpos
  rfl

theorem check_byteList {limit : Nat} (hpos : 0 < limit) (hlt : limit < wordBound) :
    (byteList limit).check = .ok (byteList limit) := by
  refine check_eq_ok_iff.mpr ⟨?_, rfl, hlt, ceilDiv_chunkSize_le hlt⟩
  obtain ⟨rest, rfl⟩ := Nat.exists_eq_add_of_lt hpos
  rfl

theorem check_container {fields : List (String × Shape)} (hfields : fields ≠ [])
    (hfew : fields.length ≤ 2 ^ (maxDepth - 1)) :
    (container fields).check = .ok (container fields) := by
  have hdeclared : wordBound - 1 < wordBound := by decide
  refine check_eq_ok_iff.mpr ⟨?_, rfl, hdeclared, hfew⟩
  obtain ⟨field, rest, rfl⟩ := List.exists_cons_of_ne_nil hfields
  rfl

/-- A list with more parts than the deepest tree has leaves. -/
theorem check_list_of_deep {element : Shape} {limit : Nat} (hscalar : element.scalar? = none)
    (hdeep : 2 ^ (maxDepth - 1) < limit) :
    (list element limit).check = .error (.limitTooLarge limit) := by
  have hchunks : (list element limit).chunkLimit > 2 ^ (maxDepth - 1) := by
    rwa [chunkLimit, leafCount, hscalar]
  obtain ⟨rest, rfl⟩ := Nat.exists_eq_add_of_lt (Nat.lt_of_le_of_lt (Nat.zero_le _) hdeep)
  have hempty : (list element (0 + rest + 1)).emptiness = none := rfl
  have hsize : (list element (0 + rest + 1)).sizeFits = .ok true := rfl
  unfold check
  rw [hempty]
  dsimp only
  rw [hsize, mapError_ok, ok_bind]
  simp only [hchunks, decide_true, Bool.or_true, if_true]
  rfl

/-- A list of parts with leaves of their own takes as many leaves as it has room for parts. -/
theorem check_list_eq_ok_iff {element shape : Shape} {limit : Nat}
    (hscalar : element.scalar? = none) :
    (list element limit).check = .ok shape ↔
      0 < limit ∧ limit ≤ 2 ^ (maxDepth - 1) ∧ shape = list element limit := by
  have haccepted : (list element limit).check = .ok (list element limit) ↔
      0 < limit ∧ limit ≤ 2 ^ (maxDepth - 1) := by
    have hchunks : (list element limit).chunkLimit = limit := by
      rw [chunkLimit, leafCount, hscalar]
    rw [check_eq_ok_iff, hchunks]
    cases limit with
    | zero => simp [emptiness]
    | succ limit =>
      have hempty : (list element (limit + 1)).emptiness = none := rfl
      have hsize : (list element (limit + 1)).sizeFits = .ok true := rfl
      have hdeclared : (list element (limit + 1)).declared = limit + 1 := rfl
      rw [hempty, hsize, hdeclared, and_iff_right rfl, and_iff_right rfl]
      unfold wordBound maxDepth
      omega
  constructor
  · intro hcheck
    obtain rfl := eq_of_check hcheck
    obtain ⟨hpos, hlimit⟩ := haccepted.mp hcheck
    exact ⟨hpos, hlimit, rfl⟩
  · rintro ⟨hpos, hlimit, rfl⟩
    exact haccepted.mpr ⟨hpos, hlimit⟩

end Shape

namespace Schema

variable {α : Type} [Schema α] {h : HashFunction} {preset : Preset} {a : α}

theorem hashTreeRoot_eq_ok_iff {root : Root} :
    hashTreeRoot h preset a = .ok root ↔
      ∃ shape, Schema.shape α preset = .ok shape ∧ shape.hashTreeRoot h (toValue a) = .ok root := by
  simp only [hashTreeRoot, bind_eq_ok_iff, mapError_eq_ok_iff]

theorem prove_eq_ok_iff {g : Gindex} {branch : List Root} :
    prove h preset a g = .ok branch ↔
      ∃ shape, Schema.shape α preset = .ok shape ∧ shape.prove h (toValue a) g = .ok branch := by
  simp only [prove, bind_eq_ok_iff, mapError_eq_ok_iff]

end Schema

theorem LimitedList.shape_eq_ok_iff {α : Type} [Schema α] {limit : Preset → UInt64}
    {preset : Preset} {shape : Shape} :
    Schema.shape (LimitedList limit α) preset = .ok shape ↔
      ∃ element, Schema.shape α preset = .ok element ∧
        (Shape.list element (limit preset).toNat).check = .ok shape := by
  rw [← bind_eq_ok_iff]
  rfl

end SimpleSerialize
