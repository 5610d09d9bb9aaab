import SimpleSerialize.Proofs.Schema.Faithful
import SimpleSerialize.Proofs.Wire.GuardedBits
import SimpleSerialize.Proofs.Wire.Pointers

/-!
Decoding by places never reaches outside of its input: it ends as decoding from the front does, with
a value, with the same refusal or at the same halt (`Shape.decodeGuarded_eq`). It halts for nothing
but a vector whose elements cannot all be pointed to (`Shape.decode_in_bounds`).
-/

namespace SimpleSerialize

/-- Whatever the bytes, no step of the guarded decoding goes wrong but one that halts. -/
def Shape.Unfaulted (shape : Shape) : Prop :=
  ∀ bs, shape.decodeGuarded bs = Guarded.ofExcept (shape.decode bs)

namespace Guarded

open Series (Slot readersOf)

variable {shapes : List Shape} {bs : Bytes} {slots : List Slot}

def guardedOf (shapes : List Shape) : List (Entry Reader) :=
  shapes.map fun shape => ⟨shape.exactSize?, shape.decodeGuarded⟩

theorem guardedOf_cons (shape : Shape) (shapes : List Shape) :
    guardedOf (shape :: shapes) = ⟨shape.exactSize?, shape.decodeGuarded⟩ :: guardedOf shapes :=
  rfl

/-! ### The head -/

/-- The value that the head holds of a part. -/
def inHead : Slot → Option Value
  | .filled v => some v
  | .pending _ _ => none

/-- Where the parts behind the head start, by slots counted from `i`. -/
def startsFrom (i : Nat) : List Slot → List (Nat × Nat)
  | [] => []
  | .filled _ :: slots => startsFrom (i + 1) slots
  | .pending offset _ :: slots => (i, offset) :: startsFrom (i + 1) slots

/-- What was read of a head, with more slots read. -/
def Head.extend (done : Head) (slots : List Slot) : Head :=
  ⟨done.slots ++ slots.map inHead, done.starts ++ startsFrom done.slots.length slots⟩

theorem Head.extend_nil (done : Head) : done.extend [] = done := by
  simp [Head.extend, startsFrom]

theorem Head.extend_filled (done : Head) (v : Value) (slots : List Slot) :
    done.extend (.filled v :: slots)
      = Head.extend ⟨done.slots ++ [some v], done.starts⟩ slots := by
  simp [Head.extend, startsFrom, inHead]

theorem Head.extend_pending (done : Head) (offset : Nat) (read : Series.Reader)
    (slots : List Slot) :
    done.extend (.pending offset read :: slots)
      = Head.extend ⟨done.slots ++ [none], done.starts ++ [(done.slots.length, offset)]⟩ slots := by
  simp [Head.extend, startsFrom, inHead]

theorem readOffset_eq (bs : Bytes) (position : Nat) :
    readOffset bs position
      = ofExcept (Series.readOffset bs.length position (bs.drop position)) := by
  have hlength : ((bs.drop position).take offsetSize).length = offsetSize ↔
      position + offsetSize ≤ bs.length := by
    rw [List.length_take, List.length_drop]
    unfold offsetSize
    omega
  unfold readOffset Series.readOffset
  by_cases hroom : position + offsetSize ≤ bs.length
  · have hfield := hlength.mpr hroom
    rw [if_pos hroom, if_pos hfield, readArray_of_le (Nat.le_of_eq hfield.symm),
      List.take_of_length_le (Nat.le_of_eq hfield)]
    rfl
  · rw [if_neg hroom, if_neg (mt hlength.mp hroom)]
    rfl

/-- As long as the rest of the head is there, every part of it is. -/
theorem readHead_eq (hparts : ∀ shape ∈ shapes, shape.Unfaulted) {position : Nat}
    (hroom : position + Shape.headOf shapes ≤ bs.length) (done : Head) :
    readHead bs position done (guardedOf shapes)
      = ofExcept ((Series.readHead bs.length position (bs.drop position)
          (readersOf shapes)).map done.extend) := by
  induction shapes generalizing position done with
  | nil =>
    show _ = Except.ok (done.extend [])
    rw [done.extend_nil]
    rfl
  | cons shape shapes ih =>
    rw [List.forall_mem_cons] at hparts
    rw [Shape.headOf_cons, Shape.exactHeadSize] at hroom
    rw [guardedOf_cons, Series.readersOf_cons]
    cases hfixed : shape.exactSize? with
    | some size =>
      rw [hfixed, Option.getD_some] at hroom
      rw [readHead, Series.readHead, slice_of_le (by omega) (by omega), ok_bind,
        Nat.add_sub_cancel_left, hparts.1, List.drop_drop]
      cases shape.decode ((bs.drop position).take size) with
      | error e => rfl
      | ok v =>
        rw [ofExcept_ok, ok_bind, ih hparts.2 (by omega)]
        cases Series.readHead bs.length (position + size) (bs.drop (position + size))
            (readersOf shapes) with
        | error e => rfl
        | ok slots => exact congrArg Except.ok (done.extend_filled v slots).symm
    | none =>
      rw [hfixed, Option.getD_none] at hroom
      rw [readHead, Series.readHead, readOffset_eq, List.drop_drop]
      cases Series.readOffset bs.length position (bs.drop position) with
      | error e => rfl
      | ok offset =>
        rw [ofExcept_ok, ok_bind, ih hparts.2 (by omega)]
        cases Series.readHead bs.length (position + offsetSize) (bs.drop (position + offsetSize))
            (readersOf shapes) with
        | error e => rfl
        | ok slots => exact congrArg Except.ok (done.extend_pending offset shape.decode slots).symm

theorem stopOf_startsFrom (length i : Nat) (slots : List Slot) :
    stopOf length (startsFrom i slots) = Series.start length slots := by
  induction slots generalizing i with
  | nil => rfl
  | cons slot slots ih =>
    cases slot with
    | filled v => exact ih (i + 1)
    | pending offset read => rfl

theorem checkFirst_eq (head length i : Nat) (slots : List Slot) :
    checkFirst head length (startsFrom i slots)
      = ofExcept (Series.checkFirst head length slots) := by
  induction slots generalizing i with
  | nil =>
    show (if _ then _ else _) = ofExcept (if _ then _ else _)
    split <;> rfl
  | cons slot slots ih =>
    cases slot with
    | filled v => exact ih (i + 1)
    | pending offset read =>
      show (if _ then _ else _) = ofExcept (if _ then _ else _)
      split <;> rfl

/-! ### The parts behind the head -/

/-- A part behind the head is read by the shape that stands in its slot. -/
def ReadBy (shapes : List Shape) (slots : List Slot) : Prop :=
  ∀ (i offset : Nat) (read : Series.Reader), slots[i]? = some (.pending offset read) →
    ∃ shape, shapes[i]? = some shape ∧ read = shape.decode

theorem ReadBy.tail {i : Nat} {slot : Slot} (hread : ReadBy (shapes.drop i) (slot :: slots)) :
    ReadBy (shapes.drop (i + 1)) slots := by
  intro j offset read hslot
  obtain ⟨shape, hshape, hdecode⟩ := hread (j + 1) offset read hslot
  rw [List.getElem?_drop, show i + (j + 1) = i + 1 + j by omega, ← List.getElem?_drop] at hshape
  exact ⟨shape, hshape, hdecode⟩

theorem ReadBy.getElem?_guardedOf {i offset : Nat} {read : Series.Reader}
    (hread : ReadBy (shapes.drop i) (.pending offset read :: slots)) :
    ∃ shape ∈ shapes, read = shape.decode ∧
      ∃ entry, (guardedOf shapes)[i]? = some entry ∧ entry.content = shape.decodeGuarded := by
  obtain ⟨shape, hshape, hdecode⟩ := hread 0 offset read rfl
  rw [List.getElem?_drop, Nat.add_zero] at hshape
  refine ⟨shape, List.mem_of_getElem? hshape, hdecode,
    ⟨shape.exactSize?, shape.decodeGuarded⟩, ?_, rfl⟩
  rw [guardedOf, List.getElem?_map, hshape]
  rfl

theorem readBy_of_readHead {length position : Nat} {rest : Bytes}
    (hhead : Series.readHead length position rest (readersOf shapes) = .ok slots) :
    ReadBy shapes slots := by
  induction shapes generalizing position rest slots with
  | nil =>
    cases hhead
    intro i offset read hslot
    cases hslot
  | cons shape shapes ih =>
    rw [Series.readersOf_cons] at hhead
    intro i offset read hslot
    cases hfixed : shape.exactSize? with
    | some size =>
      rw [hfixed, Series.readHead_fixed] at hhead
      obtain ⟨v, later, -, hlater, rfl⟩ := hhead
      cases i with
      | zero => cases hslot
      | succ i => exact ih hlater i offset read hslot
    | none =>
      rw [hfixed, Series.readHead_variable] at hhead
      obtain ⟨start, later, -, hlater, rfl⟩ := hhead
      cases i with
      | zero =>
        cases hslot
        exact ⟨shape, rfl, rfl⟩
      | succ i => exact ih hlater i offset read hslot

/-- The slots in front of those left are filled, and the next part starts where the last one did or
behind. -/
theorem fill_eq (hparts : ∀ shape ∈ shapes, shape.Unfaulted) (bs : Bytes) (previous : Nat)
    (done : List Value) (hread : ReadBy (shapes.drop done.length) slots) :
    fill (guardedOf shapes) bs previous (done.map some ++ slots.map inHead)
        (startsFrom done.length slots)
      = ofExcept ((Series.fill bs.length previous (bs.drop previous) slots).map fun vs =>
          (done ++ vs).map some) := by
  induction slots generalizing previous done with
  | nil =>
    show Except.ok (done.map some ++ []) = Except.ok ((done ++ []).map some)
    rw [List.append_nil, List.append_nil]
  | cons slot slots ih =>
    have hlength (v : Value) : (done ++ [v]).length = done.length + 1 := by simp
    have hstep (v : Value) (previous : Nat) :
        fill (guardedOf shapes) bs previous (done.map some ++ some v :: slots.map inHead)
            (startsFrom (done.length + 1) slots)
          = ofExcept ((Series.fill bs.length previous (bs.drop previous) slots).map fun vs =>
              (done ++ v :: vs).map some) := by
      have hnext := ih previous (done ++ [v]) (by rw [hlength]; exact hread.tail)
      rw [hlength] at hnext
      simpa using hnext
    cases slot with
    | filled v =>
      refine (hstep v previous).trans ?_
      rw [Series.fill]
      cases Series.fill bs.length previous (bs.drop previous) slots <;> rfl
    | pending offset read =>
      obtain ⟨shape, hshape, rfl, entry, hentry, hcontent⟩ := hread.getElem?_guardedOf
      have hstart : (slots.findSome? Slot.offset?).getD bs.length = Series.start bs.length slots :=
        rfl
      rw [List.map_cons, startsFrom, fill, Series.fill, stopOf_startsFrom]
      simp only [hstart]
      by_cases hprevious : offset < previous
      · rw [if_pos hprevious, if_pos hprevious]
        rfl
      by_cases hroom : bs.length < offset ∨ bs.length < Series.start bs.length slots
      · rw [if_neg hprevious, if_neg hprevious, if_pos hroom, if_pos hroom]
        rfl
      by_cases hstop : Series.start bs.length slots < offset
      · rw [if_neg hprevious, if_neg hprevious, if_neg hroom, if_neg hroom, if_pos hstop,
          if_pos hstop]
        rfl
      rw [if_neg hprevious, if_neg hprevious, if_neg hroom, if_neg hroom, if_neg hstop,
        if_neg hstop, get_of_getElem? hentry, ok_bind, slice_of_le (by omega) (by omega), ok_bind,
        List.drop_drop, Nat.add_sub_cancel' (Nat.le_of_not_lt hprevious), hcontent,
        hparts shape hshape]
      cases shape.decode ((bs.drop offset).take (Series.start bs.length slots - offset)) with
      | error e => rfl
      | ok v =>
        have hfilled :
            (done.map some ++ inHead (.pending offset shape.decode) :: slots.map inHead).set
              done.length (some v) = done.map some ++ some v :: slots.map inHead := by
          rw [List.set_append_right _ _ (by simp)]
          simp
        rw [ofExcept_ok, ok_bind, set_of_lt (by simp), ok_bind, hfilled, hstep v offset]
        cases Series.fill bs.length offset (bs.drop offset) slots <;> rfl

/-- No slot is left over. -/
theorem collect_map_some (vs : List Value) : collect (vs.map some) = .ok vs := by
  rw [collect, mapM_eq_ok_iff]
  apply List.ext_getElem?
  intro i
  rw [List.getElem?_map, List.getElem?_zipIdx, List.getElem?_map, List.getElem?_map]
  cases vs[i]? <;> rfl

theorem readFrom_eq (hparts : ∀ shape ∈ shapes, shape.Unfaulted)
    (hroom : Shape.headOf shapes ≤ bs.length) (head : Nat) :
    readFrom head (guardedOf shapes) bs
      = ofExcept (Series.readFrom head (readersOf shapes) bs) := by
  rw [readFrom, Series.readFrom, readHead_eq hparts (by rwa [Nat.zero_add]), List.drop_zero]
  cases hslots : Series.readHead bs.length 0 bs (readersOf shapes) with
  | error e => rfl
  | ok slots =>
    have hstarts : (Head.extend ⟨[], []⟩ slots).starts = startsFrom 0 slots := rfl
    have hfill := fill_eq hparts bs head [] (readBy_of_readHead hslots)
    show (checkFirst head bs.length (Head.extend ⟨[], []⟩ slots).starts >>= fun _ => _)
      = ofExcept (Series.checkFirst head bs.length slots >>= fun _ => _)
    rw [hstarts, checkFirst_eq]
    cases Series.checkFirst head bs.length slots with
    | error e => rfl
    | ok u =>
      refine (congrArg (· >>= collect) hfill).trans ?_
      cases Series.fill bs.length head (bs.drop head) slots with
      | error e => rfl
      | ok vs => exact collect_map_some vs

theorem headSize_guardedOf (shapes : List Shape) :
    Series.headSize (guardedOf shapes) = Series.headSize (readersOf shapes) := by
  rw [Series.headSize, Series.headSize, guardedOf, readersOf, List.foldlM_map, List.foldlM_map]
  rfl

theorem readSeries_eq (hparts : ∀ shape ∈ shapes, shape.Unfaulted) (bs : Bytes) :
    readSeries (guardedOf shapes) bs = ofExcept (Series.read (readersOf shapes) bs) := by
  rw [readSeries, Series.read, headSize_guardedOf, ofWords_eq_ofExcept]
  cases hhead : Series.headSize (readersOf shapes) with
  | error halt => rfl
  | ok head =>
    obtain ⟨rfl, -⟩ := Series.headSize_eq_ok_iff.mp hhead
    rw [Series.width_readersOf, mapError_ok, ofExcept_ok, ok_bind, ok_bind, ofExcept_bind]
    cases hrequire : Series.requireHead (Shape.headOf shapes) bs with
    | error e => rfl
    | ok u => exact readFrom_eq hparts (Series.requireHead_eq_ok_iff.mp hrequire) _

/-! ### Vectors and lists -/

variable {element : Shape} {size count : Nat}

theorem readStrided_eq (hunfaulted : element.Unfaulted) (hsize : 0 < size) (bs : Bytes) :
    readStrided size (fun part => element.decodeGuarded part) bs
      = ofExcept (Wire.readRuns size (bs.length / size) (fun part => element.decode part) bs) := by
  rw [readStrided, chunks, div_of_pos hsize]
  exact mapM_ofExcept hunfaulted _

theorem guardedOf_replicate (hvariable : element.exactSize? = none) (count : Nat) :
    List.replicate count ⟨none, fun part => element.decodeGuarded part⟩
      = guardedOf (List.replicate count element) := by
  rw [guardedOf, List.map_replicate, hvariable]

theorem readOffsets_eq (hunfaulted : element.Unfaulted) (hvariable : element.exactSize? = none)
    (count : Nat) (bs : Bytes) :
    readOffsets count (fun part => element.decodeGuarded part) bs
      = ofExcept (Wire.readOffsets count (fun part => element.decode part) bs) := by
  rw [readOffsets, Wire.readOffsets, ofWords_eq_ofExcept, ofExcept_bind]
  cases hroom : reserve pointerSize count with
  | error halt => rfl
  | ok u =>
    have hhead : Series.headSize (readersOf (List.replicate count element))
        = .ok (count * offsetSize) := by
      rw [Series.headSize_eq_ok_iff, Series.width_readersOf, Shape.headOf_replicate,
        Shape.exactHeadSize, hvariable]
      -- An offset takes less room than a pointer.
      have hpointers := reserve_eq_ok_iff.mp hroom
      refine ⟨rfl, ?_⟩
      simp only [pointerSize, maxAllocation, Option.getD_none, offsetSize, wordBound] at hpointers ⊢
      omega
    have hparts : ∀ shape ∈ List.replicate count element, shape.Unfaulted := by
      intro shape hshape
      rw [List.eq_of_mem_replicate hshape]
      exact hunfaulted
    rw [mapError_ok, ofExcept_ok, ok_bind, ok_bind, guardedOf_replicate hvariable,
      readSeries_eq hparts, Series.read, hhead, Wire.readersOf_replicate hvariable]
    rfl

theorem readVector_eq (hunfaulted : element.Unfaulted) (hpos : 0 < element.exactHeadSize)
    (length : Nat) (bs : Bytes) :
    readVector element.exactSize? length (fun part => element.decodeGuarded part) bs
      = ofExcept (Wire.readVector element.exactSize? length (fun part => element.decode part) bs)
    := by
  rw [Shape.exactHeadSize] at hpos
  cases hfixed : element.exactSize? with
  | none => exact readOffsets_eq hunfaulted hfixed length bs
  | some size =>
    rw [hfixed, Option.getD_some] at hpos
    rw [readVector, Wire.readVector, ofWords_eq_ofExcept, ofExcept_bind]
    cases htotal : mulWord size length with
    | error halt => rfl
    | ok total =>
      rw [mapError_ok, ofExcept_ok, ok_bind, ok_bind, ofExcept_bind]
      cases hlength : expectLength total bs with
      | error e => rfl
      | ok u =>
        obtain ⟨rfl, -⟩ := mulWord_eq_ok_iff.mp htotal
        have hcount : bs.length / size = length := by
          rw [expectLength_eq_ok_iff.mp hlength, Nat.mul_div_cancel_left _ hpos]
        rw [ofExcept_ok, ok_bind, ok_bind, readStrided_eq hunfaulted hpos, hcount]

theorem readList_eq (hunfaulted : element.Unfaulted) (hpos : 0 < element.exactHeadSize)
    (limit : Nat) (bs : Bytes) :
    readList element.exactSize? limit (fun part => element.decodeGuarded part) bs
      = ofExcept (Wire.readList element.exactSize? limit (fun part => element.decode part) bs) := by
  rw [Shape.exactHeadSize] at hpos
  cases hfixed : element.exactSize? with
  | some size =>
    rw [hfixed, Option.getD_some] at hpos
    rw [readList, Wire.readList, mod_of_pos hpos, ok_bind]
    by_cases hleft : bs.length % size ≠ 0
    · rw [if_pos hleft, if_pos hleft]
      rfl
    rw [if_neg hleft, if_neg hleft, div_of_pos hpos, ok_bind, readStrided_eq hunfaulted hpos,
      ofExcept_bind]
  | none =>
    rw [readList, Wire.readList]
    by_cases hempty : bs.isEmpty
    · rw [if_pos hempty, if_pos hempty]
      rfl
    rw [if_neg hempty, if_neg hempty, readOffset_eq, List.drop_zero]
    cases hfirst : Series.readOffset bs.length 0 bs with
    | error e => rfl
    | ok first =>
      show (ofExcept (Wire.countOfOffset first bs.length) >>= fun _ => _)
        = ofExcept (Wire.countOfOffset first bs.length >>= fun _ => _)
      cases hcount : Wire.countOfOffset first bs.length with
      | error e => rfl
      | ok count =>
        rw [ofExcept_ok, ok_bind, ok_bind, readOffsets_eq hunfaulted hfixed, ← ofExcept_bind]

end Guarded

namespace Shape

theorem guardedFields_eq_mapM (fields : List (String × Shape)) :
    guardedFields fields
      = fields.mapM fun field => Entry.ofShape field.2 field.2.decodeGuarded := by
  induction fields with
  | nil => simp [guardedFields, pure, Except.pure]
  | cons field fields ih =>
    rw [List.mapM_cons, ← ih]
    rfl

theorem decodeGuarded_eq {shape : Shape} (hbuilt : shape.Built) : shape.Unfaulted := by
  induction hbuilt with
  | @intro shape own hbuiltParts hunfaulted =>
    intro bs
    cases shape with
    | scalar kind => exact Guarded.readScalar_eq kind bs
    | byteVector length =>
      rw [decodeGuarded, decode, Guarded.ofExcept_bind]
      rfl
    | byteList limit =>
      rw [decodeGuarded, decode, Guarded.ofExcept_bind]
      rfl
    | bitvector length => exact Guarded.readBitvector_eq length bs
    | bitlist limit => exact Guarded.readBitlist_eq limit bs
    | vector element length =>
      have hmem : element ∈ (vector element length).parts := by simp
      rw [decodeGuarded, decode, Guarded.ofWords_eq_ofExcept, Guarded.ofExcept_bind]
      cases hsize : element.fixedSize? with
      | error halt => rfl
      | ok size? =>
        obtain rfl := exactSize?_of_fixedSize? hsize
        rw [mapError_ok, Guarded.ofExcept_ok, ok_bind, ok_bind, Guarded.ofExcept_bind,
          Guarded.readVector_eq (hunfaulted element hmem)
            (exactHeadSize_pos (hbuiltParts element hmem))]
        rfl
    | list element limit =>
      have hmem : element ∈ (list element limit).parts := by simp
      rw [decodeGuarded, decode, Guarded.ofWords_eq_ofExcept, Guarded.ofExcept_bind]
      cases hsize : element.fixedSize? with
      | error halt => rfl
      | ok size? =>
        obtain rfl := exactSize?_of_fixedSize? hsize
        rw [mapError_ok, Guarded.ofExcept_ok, ok_bind, ok_bind, Guarded.ofExcept_bind,
          Guarded.readList_eq (hunfaulted element hmem)
            (exactHeadSize_pos (hbuiltParts element hmem))]
        rfl
    | container fields =>
      rw [parts_container] at hunfaulted
      rw [decodeGuarded, decode, Guarded.ofWords_eq_ofExcept, Guarded.ofExcept_bind,
        guardedFields_eq_mapM, decodeFields_eq_mapM, mapM_ofShape_eq, mapM_ofShape_eq]
      cases fields.mapM fun field => field.2.fixedSize? with
      | error halt => rfl
      | ok sizes =>
        have hguarded : (fields.map fun field => ⟨field.2.exactSize?, field.2.decodeGuarded⟩)
            = Guarded.guardedOf (fields.map Prod.snd) := by
          rw [Guarded.guardedOf, List.map_map]
          rfl
        have hplain : (fields.map fun field => ⟨field.2.exactSize?, field.2.decode⟩)
            = Series.readersOf (fields.map Prod.snd) := by
          rw [Series.readersOf, List.map_map]
          rfl
        rw [hguarded, hplain, Except.map, Except.map, mapError_ok, mapError_ok,
          Guarded.ofExcept_ok, Guarded.ofExcept_ok, ok_bind, ok_bind, Guarded.ofExcept_bind,
          Guarded.readSeries_eq hunfaulted]
        rfl

/--
Whatever the bytes, no step of decoding reaches outside of what is there: it ends with a value or
refuses its input. No slot is left over, so that the value has as many parts as the shape asks for.
The one other end is a halt at the room for pointers, and only if the shape has a vector of too many
elements in it; such a vector itself is never read.
-/
theorem decode_in_bounds {shape : Shape} (hbuilt : shape.Built) (hfits : shape.SizesFit)
    (bs : Bytes) :
    ((∃ v, shape.decodeGuarded bs = .ok v ∧ shape.decode bs = .ok v ∧ shape.Fits v) ∨
      (∃ e, shape.decodeGuarded bs = .error (.refused e) ∧ shape.decode bs = .error e) ∨
      (shape.decodeGuarded bs = .error (.faulted (.halted .allocation)) ∧
        shape.decode bs = .error (.halted .allocation) ∧ ¬shape.Everywhere PointersFit)) ∧
    (¬shape.PointersFit → shape.decodeGuarded bs = .error (.faulted (.halted .allocation))) := by
  rw [decodeGuarded_eq hbuilt bs]
  constructor
  · cases hdecode : shape.decode bs with
    | ok v => exact .inl ⟨v, rfl, rfl, fits_of_decode hbuilt hdecode⟩
    | error e =>
      right
      by_cases hhalts : ∃ halt, e = .halted halt
      · obtain ⟨halt, rfl⟩ := hhalts
        obtain ⟨rfl, hpointers⟩ := haltsOnlyIf_decode hfits bs halt hdecode
        exact .inr ⟨rfl, rfl, hpointers⟩
      · rw [not_exists] at hhalts
        exact .inl ⟨e, Guarded.ofExcept_error hhalts, rfl⟩
  · intro hpointers
    rw [decode_halts_of_not_pointersFit hfits hpointers]
    rfl

/-- A vector with a head that a word holds, and more elements than there can be pointers to. -/
def sparse : Shape := vector (byteList 1) (2 ^ 60)

theorem sizesFit_sparse : sparse.SizesFit := by
  refine sizesFit_of_variable rfl ?_ ?_
  · rw [sparse, exactHead, headOf_replicate]
    decide
  · rw [sparse, parts_vector, List.forall_mem_singleton]
    exact sizesFit_byteList 1

/-- The second offset of the record lies behind the first twelve bytes of it. -/
theorem decode_in_bounds_record :
    (record.Built ∧ record.SizesFit ∧ record.decodeGuarded recordBytes = .ok recordValue ∧
      record.Fits recordValue ∧
      record.decodeGuarded (recordBytes.take 12)
        = .error (.refused (.offsetOutOfRange 19 12))) ∧
    sparse.Built ∧ sparse.SizesFit ∧ ¬sparse.PointersFit ∧
      sparse.decodeGuarded [8, 0, 0, 0, 8, 0, 0, 0] = .error (.faulted (.halted .allocation)) := by
  have hbuilt : record.Built := by decide
  have hfits : record.SizesFit := by decide
  have hwhole : record.decode recordBytes = .ok recordValue := rfl
  have hcut : record.decode (recordBytes.take 12) = .error (.offsetOutOfRange 19 12) := rfl
  have hsparse : sparse.Built := by decide
  have hsizes : sparse.SizesFit := sizesFit_sparse
  have hpointers : ¬sparse.PointersFit := fun hroom => absurd (hroom rfl) (by decide)
  refine ⟨⟨hbuilt, hfits, ?_⟩, hsparse, hsizes, hpointers,
    (decode_in_bounds hsparse hsizes _).2 hpointers⟩
  obtain ⟨⟨v, hguarded, hv, hvalue⟩ | ⟨e, -, he⟩ | ⟨-, he, -⟩, -⟩ :=
    decode_in_bounds hbuilt hfits recordBytes
  · obtain ⟨⟨v, -, hv', -⟩ | ⟨e, hend, he⟩ | ⟨-, he, -⟩, -⟩ :=
      decode_in_bounds hbuilt hfits (recordBytes.take 12)
    · rw [hcut] at hv'
      cases hv'
    · rw [hwhole] at hv
      rw [hcut] at he
      cases hv
      cases he
      exact ⟨hguarded, hvalue, hend⟩
    · rw [hcut] at he
      cases he
  · rw [hwhole] at he
    cases he
  · rw [hwhole] at he
    cases he

/-- What is no byte at all is not refused. -/
theorem sparse_halts :
    sparse.Built ∧ sparse.SizesFit ∧
      sparse.decodeGuarded [] = .error (.faulted (.halted .allocation)) :=
  ⟨by decide, sizesFit_sparse, rfl⟩

end Shape

end SimpleSerialize
