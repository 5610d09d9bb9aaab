import SimpleSerialize.Proofs.Wire.RoundTrip

/-!
Sizes as words hold them. What is computed as a size is always the exact one, and a vector is
refused when its size would be too large. The sums over the parts of a head are not looked at when a
shape is made, so that computing a size comes to an end, and places in heads are what they are taken
for, in exactly the shapes whose heads fit (`Shape.sizes_exact_iff_heads_fit`).
-/

namespace SimpleSerialize

namespace Shape

variable {shape : Shape}

/-- The parts of a head, as often as they stand in it, where the shape alone tells how often. -/
def series : Shape → List Shape
  | vector element length => List.replicate length element
  | container fields => fields.map Prod.snd
  | _ => []

theorem exactHead_eq (shape : Shape) : shape.exactHead = headOf shape.series := by
  cases shape <;> rfl

/--
Sizes that are what they are taken for: the size of every encoding, which no list divides by as
zero, and places in a head that no sum up to the end of a part passes by.
-/
structure SizesExact (shape : Shape) : Prop where
  sized : shape.fixedSize? = .ok shape.exactSize?
  size_pos : ∀ size ∈ shape.exactSize?, 0 < size
  size_lt : ∀ size ∈ shape.exactSize?, size < wordBound
  place_lt : ∀ before part after, shape.series = before ++ part :: after →
    headOf before + part.exactHeadSize < wordBound
  head_eq : Series.headSize (Series.readersOf shape.series) = .ok shape.exactHead

/-- What is not put together from other shapes is no larger than it was declared. -/
theorem exactSize?_lt_of_declared (hcheck : shape.check = .ok shape) (hparts : shape.parts = []) :
    ∀ size ∈ shape.exactSize?, size < wordBound := by
  obtain ⟨hnonempty, -, hdeclared, -⟩ := check_eq_ok_iff.mp hcheck
  cases shape with
  | scalar kind =>
    rintro _ ⟨⟩
    exact Nat.lt_of_le_of_lt kind.size_bounds.2 (by decide)
  | byteVector length =>
    rintro _ ⟨⟩
    exact hdeclared
  | bitvector length =>
    rintro _ ⟨⟩
    change length < wordBound at hdeclared
    unfold Bytes.ceilDiv
    unfold wordBound at *
    omega
  | container fields =>
    rw [List.map_eq_nil_iff.mp hparts] at hnonempty
    cases hnonempty
  | byteList _ | bitlist _ => simp [exactSize?]
  | vector _ _ | list _ _ => cases hparts

theorem halt_eq_sum_or_of_fields {fields : List (String × Shape)} {sum : Nat} {halt : Halt}
    (hsize : fixedSizes? sum fields = .error halt) :
    halt = .sum ∨ ∃ field ∈ fields, field.2.fixedSize? = .error halt := by
  induction fields generalizing sum with
  | nil => cases hsize
  | cons field fields ih =>
    rw [fixedSizes?, bind_eq_error_iff] at hsize
    obtain hown | ⟨own?, -, hsize⟩ := hsize
    · exact .inr ⟨field, List.mem_cons_self, hown⟩
    cases own? with
    | none => cases hsize
    | some own =>
      obtain hsum | ⟨sum, -, hrest⟩ := bind_eq_error_iff.mp hsize
      · exact .inl (addWord_eq_error_iff.mp hsum).1
      · obtain hhalt | ⟨part, hpart, hhalts⟩ := ih hrest
        · exact .inl hhalt
        · exact .inr ⟨part, List.mem_cons_of_mem field hpart, hhalts⟩

/-- Nothing but a sum over fields is ever too large. -/
theorem halt_eq_sum (hbuilt : shape.Built) {halt : Halt} (hsize : shape.fixedSize? = .error halt) :
    halt = .sum := by
  induction hbuilt generalizing halt with
  | @intro shape own hparts ih =>
    cases shape with
    | vector element length =>
      -- The size of a vector was computed when the vector was made.
      obtain ⟨size?, hok⟩ := exists_fixedSize?_of_check own
      rw [hsize] at hok
      cases hok
    | container fields =>
      obtain rfl | ⟨field, hfield, hsize⟩ := halt_eq_sum_or_of_fields hsize
      · rfl
      · exact ih field.2 (List.mem_map_of_mem hfield) hsize
    | _ => cases hsize

theorem size_lt_of_fixedSize? (hcheck : shape.check = .ok shape) {size : Nat}
    (hsize : shape.fixedSize? = .ok (some size)) : size < wordBound := by
  cases shape with
  | vector element length =>
    obtain ⟨own?, -, hsize⟩ := bind_eq_ok_iff.mp hsize
    cases own? with
    | none => cases hsize
    | some own =>
      obtain ⟨_, hproduct, ⟨⟩⟩ := bind_eq_ok_iff.mp hsize
      obtain ⟨rfl, hlt⟩ := mulWord_eq_ok_iff.mp hproduct
      exact hlt
  | container fields => exact sum_lt_of_fixedSizes? (Nat.two_pow_pos 64) hsize
  | list element limit => cases hsize
  | _ => exact exactSize?_lt_of_declared hcheck rfl size (exactSize?_of_fixedSize? hsize)

theorem sizesExact_of_headFits (hbuilt : shape.Built) (hheads : shape.Everywhere HeadFits) :
    shape.SizesExact := by
  obtain ⟨hhead, -⟩ := everywhere_iff.mp hheads
  have hsized : shape.fixedSize? = .ok shape.exactSize? := sized_of_headFits hheads
  rw [HeadFits, exactHead_eq] at hhead
  refine ⟨hsized, fun size => exactSize?_pos hbuilt, ?_, ?_, ?_⟩
  · intro size hsize
    exact size_lt_of_fixedSize? (everywhere_iff.mp hbuilt).1
      (hsized.trans (congrArg Except.ok hsize))
  · intro before part after hsplit
    rw [hsplit, headOf_append, headOf_cons] at hhead
    omega
  · rw [Series.headSize_eq_ok_iff, Series.width_readersOf, exactHead_eq]
    exact ⟨rfl, hhead⟩

/-- The last part of a head ends where the head does. -/
theorem headFits_of_sizesExact (hsizes : shape.SizesExact) : shape.HeadFits := by
  rw [HeadFits, exactHead_eq]
  by_cases hnil : shape.series = []
  · rw [hnil]
    exact Nat.two_pow_pos 64
  · have hsplit := (List.dropLast_concat_getLast hnil).symm
    have hlast := hsizes.place_lt _ _ [] hsplit
    rw [hsplit, headOf_append, headOf_cons]
    exact hlast

theorem everywhere_sizesExact_iff (hbuilt : shape.Built) :
    shape.Everywhere SizesExact ↔ shape.Everywhere HeadFits := by
  induction hbuilt with
  | @intro shape own hparts ih =>
    constructor
    · intro hsizes
      obtain ⟨hexact, hsizes⟩ := everywhere_iff.mp hsizes
      refine .intro (headFits_of_sizesExact hexact) ?_
      intro part hpart
      exact (ih part hpart).mp (hsizes part hpart)
    · intro hheads
      refine .intro (sizesExact_of_headFits (.intro own hparts) hheads) ?_
      intro part hpart
      exact (ih part hpart).mpr ((everywhere_iff.mp hheads).2 part hpart)

/--
What is computed as the size of a shape is the exact one, the size of every encoding, which is not
zero and which a word holds. Computing it can only stop at a sum over fields. All sizes and places
of a shape are there, and exact, if and only if the heads in it fit.
-/
theorem sizes_exact_iff_heads_fit (hbuilt : shape.Built) :
    (∀ size?, shape.fixedSize? = .ok size? → shape.exactSize? = size?) ∧
      (∀ size, shape.fixedSize? = .ok (some size) → 0 < size ∧ size < wordBound) ∧
      (∀ v bs size, shape.exactSize? = some size → shape.encode v = .ok bs → bs.length = size) ∧
      (∀ halt, shape.fixedSize? = .error halt → halt = .sum ∧ ¬shape.Everywhere HeadFits) ∧
      (shape.Everywhere SizesExact ↔ shape.Everywhere HeadFits) := by
  refine ⟨fun size? => exactSize?_of_fixedSize?, ?_, shape.keepsSize, ?_,
    everywhere_sizesExact_iff hbuilt⟩
  · intro size hsize
    exact ⟨exactSize?_pos hbuilt (exactSize?_of_fixedSize? hsize),
      size_lt_of_fixedSize? (everywhere_iff.mp hbuilt).1 hsize⟩
  · intro halt hsize
    refine ⟨halt_eq_sum hbuilt hsize, fun hheads => ?_⟩
    have hsized : shape.fixedSize? = .ok shape.exactSize? := sized_of_headFits hheads
    rw [hsize] at hsized
    cases hsized

/-- Records in a vector in a record. -/
def voyage : Shape :=
  container [("name", byteVector 3),
    ("legs", vector (container [("from", uint64), ("to", uint64)]) 5)]

theorem sizes_exact_iff_heads_fit_voyage :
    voyage.Built ∧ voyage.Everywhere HeadFits ∧ voyage.Everywhere SizesExact ∧
      voyage.fixedSize? = .ok (some 83) := by
  have hbuilt : voyage.Built := by decide +kernel
  have hheads : voyage.Everywhere HeadFits := by decide +kernel
  obtain ⟨-, -, -, -, hiff⟩ := sizes_exact_iff_heads_fit hbuilt
  have hsizes := hiff.mpr hheads
  exact ⟨hbuilt, hheads, hsizes, (everywhere_iff.mp hsizes).1.sized⟩

/-- Two fields that fill half of a word each. -/
def halves : Shape := container [("low", byteVector (2 ^ 63)), ("high", byteVector (2 ^ 63))]

/-- Offsets that fill all words. -/
def offsets : Shape := vector (byteList 1) (2 ^ 62)

/-- Shapes that are accepted with heads that are too large, one of them of fixed size. -/
theorem halves_overflow :
    halves.Built ∧ (list halves 4).Built ∧ halves.exactSize? = some (2 ^ 64) ∧
      halves.fixedSize? = .error .sum ∧ offsets.Built ∧ ¬offsets.HeadFits := by
  refine ⟨by decide +kernel, by decide +kernel, by decide +kernel, by rfl, by decide +kernel, ?_⟩
  rw [HeadFits, offsets, exactHead, headOf_replicate]
  decide

end Shape

end SimpleSerialize
