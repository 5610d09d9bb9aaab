import SimpleSerialize.Proofs.Wire.Kinds

/-!
Vectors, lists and containers as series. Elements of one fixed size are read as a series without
offsets, and a list as the series of as many elements as its bytes tell.
-/

namespace SimpleSerialize

open Series

namespace Wire

variable {element : Shape} {size length count : Nat} {bs : Bytes} {items : List Value}

theorem readHead_replicate {position : Nat} {slots : List Slot}
    (hfixed : element.exactSize? = some size) :
    readHead length position bs (readersOf (List.replicate count element)) = .ok slots ↔
      ∃ items, readRuns size count element.decode bs = .ok items ∧
        slots = items.map Slot.filled := by
  unfold readRuns
  induction count generalizing bs position slots with
  | zero =>
    rw [Bytes.runs, List.mapM_nil, List.replicate_zero]
    simp only [pure_eq_ok_iff, exists_eq_left', List.map_nil]
    exact ⟨fun h => (Except.ok.inj h).symm, fun h => congrArg Except.ok h.symm⟩
  | succ count ih =>
    rw [List.replicate_succ, readersOf_cons, hfixed, readHead_fixed, Bytes.runs, List.mapM_cons]
    simp only [bind_eq_ok_iff, pure_eq_ok_iff, ih]
    constructor
    · rintro ⟨v, _, hv, ⟨items, hitems, rfl⟩, rfl⟩
      exact ⟨v :: items, ⟨v, hv, items, hitems, rfl⟩, rfl⟩
    · rintro ⟨_, ⟨v, hv, items, hitems, rfl⟩, rfl⟩
      exact ⟨v, _, hv, ⟨items, hitems, rfl⟩, rfl⟩

theorem start_map_filled (items : List Value) :
    start length (items.map Slot.filled) = length := by
  induction items with
  | nil => rfl
  | cons v items ih => rw [List.map_cons, start_filled, ih]

theorem fill_map_filled {previous : Nat} {rest : Bytes} {vs : List Value} :
    fill length previous rest (items.map Slot.filled) = .ok vs ↔ items = vs := by
  induction items generalizing vs with
  | nil => simp [fill]
  | cons v items ih =>
    rw [List.map_cons, fill_filled]
    simp only [ih]
    constructor
    · rintro ⟨_, rfl, rfl⟩
      rfl
    · rintro rfl
      exact ⟨items, rfl, rfl⟩

theorem readFrom_replicate_fixed {head : Nat} (hfixed : element.exactSize? = some size) :
    readFrom head (readersOf (List.replicate count element)) bs = .ok items ↔
      bs.length = head ∧ readRuns size count element.decode bs = .ok items := by
  simp only [readFrom_eq_ok_iff, readHead_replicate hfixed]
  constructor
  · rintro ⟨_, ⟨items, hitems, rfl⟩, hstart, hfill⟩
    rw [start_map_filled] at hstart
    rw [fill_map_filled] at hfill
    exact ⟨hstart, hfill ▸ hitems⟩
  · rintro ⟨hlength, hitems⟩
    exact ⟨_, ⟨items, hitems, rfl⟩, by rw [start_map_filled, hlength], fill_map_filled.mpr rfl⟩

theorem readersOf_replicate (hvariable : element.exactSize? = none) :
    List.replicate count ⟨none, fun part => element.decode part⟩
      = readersOf (List.replicate count element) := by
  rw [readersOf, List.map_replicate, hvariable]

/-- The head of a series of offsets starts with its own size. -/
theorem readOffset_of_readFrom {head : Nat} (hvariable : element.exactSize? = none)
    (hread : readFrom head (readersOf (List.replicate (count + 1) element)) bs = .ok items) :
    readOffset bs.length 0 bs = .ok head := by
  obtain ⟨slots, hslots, hstart, -⟩ := readFrom_eq_ok_iff.mp hread
  rw [List.replicate_succ, readersOf_cons, hvariable, readHead_variable] at hslots
  obtain ⟨offset, later, hoffset, -, rfl⟩ := hslots
  rwa [← hstart, start_pending]

/-- The head of a series that was read is no larger than an offset can say. -/
theorem head_lt_of_readFrom (hvariable : element.exactSize? = none)
    (hread : readFrom (count * offsetSize) (readersOf (List.replicate count element)) bs
      = .ok items) : count * offsetSize < 2 ^ (8 * offsetSize) := by
  cases count with
  | zero => decide
  | succ count => exact (readOffset_eq_ok_iff.mp (readOffset_of_readFrom hvariable hread)).2

theorem readOffsets_eq_ok_iff (hvariable : element.exactSize? = none) :
    readOffsets count (fun part => element.decode part) bs = .ok items ↔
      count * offsetSize ≤ bs.length ∧
        readFrom (count * offsetSize) (readersOf (List.replicate count element)) bs
          = .ok items := by
  simp only [readOffsets, bind_eq_ok_iff, mapError_eq_ok_iff, reserve_eq_ok_iff,
    requireHead_eq_ok_iff, exists_const, readersOf_replicate hvariable, and_iff_right_iff_imp,
    and_imp]
  rintro - hread
  -- What an offset can say is far below what can be asked for.
  have hsmall := head_lt_of_readFrom hvariable hread
  simp only [pointerSize, maxAllocation, offsetSize] at hsmall ⊢
  omega

theorem readVector_eq_ok_iff :
    readVector element.exactSize? length (fun part => element.decode part) bs = .ok items ↔
      length * element.exactHeadSize < wordBound ∧ length * element.exactHeadSize ≤ bs.length ∧
        readFrom (length * element.exactHeadSize) (readersOf (List.replicate length element)) bs
          = .ok items := by
  rw [Shape.exactHeadSize]
  cases hfixed : element.exactSize? with
  | none =>
    rw [Option.getD_none]
    refine (readOffsets_eq_ok_iff hfixed).trans (and_iff_right_of_imp ?_).symm
    rintro ⟨-, hread⟩
    exact Nat.lt_trans (head_lt_of_readFrom hfixed hread) (by decide)
  | some size =>
    rw [Option.getD_some, Nat.mul_comm length size]
    simp only [readVector, bind_eq_ok_iff, mapError_eq_ok_iff, mulWord_eq_ok_iff,
      expectLength_eq_ok_iff, exists_const, readFrom_replicate_fixed hfixed]
    constructor
    · rintro ⟨_, ⟨rfl, hhead⟩, hlength, hitems⟩
      exact ⟨hhead, Nat.le_of_eq hlength.symm, hlength, hitems⟩
    · rintro ⟨hhead, -, hlength, hitems⟩
      exact ⟨_, ⟨rfl, hhead⟩, hlength, hitems⟩

theorem countOfOffset_eq_ok_iff {first : Nat} :
    countOfOffset first length = .ok count ↔
      0 < count ∧ first = count * offsetSize ∧ first ≤ length := by
  unfold countOfOffset
  by_cases hfirst : first / offsetSize = 0 ∨ first % offsetSize ≠ 0
  · simp only [if_pos hfirst, reduceCtorEq, false_iff]
    simp only [offsetSize] at hfirst ⊢
    omega
  by_cases hlength : length < first
  · simp only [if_neg hfirst, if_pos hlength, reduceCtorEq, false_iff]
    omega
  · simp only [if_neg hfirst, if_neg hlength, Except.ok.injEq]
    simp only [offsetSize] at hfirst ⊢
    omega

theorem readList_fixed_eq_ok_iff {size : Nat} (hfixed : element.exactSize? = some size)
    (hpos : 0 < size) {limit : Nat} :
    readList (some size) limit (fun part => element.decode part) bs = .ok items ↔
      ∃ count, count ≤ limit ∧ count * size ≤ bs.length ∧
        readFrom (count * size) (readersOf (List.replicate count element)) bs = .ok items := by
  simp only [readList, readFrom_replicate_fixed hfixed]
  constructor
  · intro hread
    by_cases hstride : bs.length % size ≠ 0
    · simp [hstride] at hread
    simp only [if_neg hstride, bind_eq_ok_iff, requireCount_eq_ok_iff, exists_const] at hread
    have hexact : bs.length = bs.length / size * size :=
      (Nat.div_mul_cancel (Nat.dvd_of_mod_eq_zero (by omega))).symm
    exact ⟨_, hread.1, Nat.le_of_eq hexact.symm, hexact, hread.2⟩
  · rintro ⟨count, hlimit, -, hexact, hread⟩
    have hstride : ¬bs.length % size ≠ 0 := by rw [hexact, Nat.mul_mod_left]; simp
    have hcount : bs.length / size = count := by rw [hexact, Nat.mul_div_cancel _ hpos]
    simp only [if_neg hstride, hcount, bind_eq_ok_iff, requireCount_eq_ok_iff, exists_const]
    exact ⟨hlimit, hread⟩

theorem readList_variable_eq_ok_iff (hfixed : element.exactSize? = none) {limit : Nat} :
    readList none limit (fun part => element.decode part) bs = .ok items ↔
      ∃ count, count ≤ limit ∧ count * offsetSize ≤ bs.length ∧
        readFrom (count * offsetSize) (readersOf (List.replicate count element)) bs
          = .ok items := by
  simp only [readList]
  by_cases hempty : bs.isEmpty = true
  · obtain rfl := List.isEmpty_iff.mp hempty
    simp only [List.isEmpty_nil, if_true]
    constructor
    · intro hread
      cases hread
      exact ⟨0, Nat.zero_le _, by simp, rfl⟩
    · rintro ⟨count, -, hroom, hread⟩
      have hzero : count = 0 := by simp only [offsetSize, List.length_nil] at hroom; omega
      subst hzero
      exact hread
  simp only [if_neg hempty, bind_eq_ok_iff, requireCount_eq_ok_iff, exists_const,
    countOfOffset_eq_ok_iff]
  constructor
  · rintro ⟨first, hfirst, count, ⟨hcount, rfl, hroom⟩, hlimit, hread⟩
    rw [readOffsets_eq_ok_iff hfixed] at hread
    exact ⟨count, hlimit, hroom, hread.2⟩
  · rintro ⟨count, hlimit, hroom, hread⟩
    cases count with
    | zero =>
      -- Without elements nothing is left to account for the bytes.
      obtain ⟨_, ⟨⟩, hstart, -⟩ := readFrom_eq_ok_iff.mp hread
      rw [start_nil, Nat.zero_mul] at hstart
      exact absurd (List.isEmpty_iff.mpr (List.length_eq_zero_iff.mp hstart)) hempty
    | succ count =>
      have hfirst := readOffset_of_readFrom hfixed hread
      exact ⟨_, hfirst, count + 1, ⟨Nat.succ_pos count, rfl, hroom⟩, hlimit,
        (readOffsets_eq_ok_iff hfixed).mpr ⟨hroom, hread⟩⟩

theorem readList_eq_ok_iff (hpos : 0 < element.exactHeadSize) {limit : Nat} :
    readList element.exactSize? limit (fun part => element.decode part) bs = .ok items ↔
      ∃ count, count ≤ limit ∧ count * element.exactHeadSize ≤ bs.length ∧
        readFrom (count * element.exactHeadSize) (readersOf (List.replicate count element)) bs
          = .ok items := by
  rw [Shape.exactHeadSize] at hpos ⊢
  cases hfixed : element.exactSize? with
  | some size =>
    rw [hfixed] at hpos
    exact readList_fixed_eq_ok_iff hfixed hpos
  | none => exact readList_variable_eq_ok_iff hfixed

end Wire

namespace Shape

variable {element : Shape} {fields : List (String × Shape)} {length limit : Nat} {v : Value}
  {bs : Bytes}

theorem ofShape_eq_ok_iff {α : Type} {shape : Shape} {content : α} {entry : Entry α} :
    Entry.ofShape shape content = .ok entry ↔
      shape.Sized ∧ ⟨shape.exactSize?, content⟩ = entry := by
  simp only [Entry.ofShape, bind_eq_ok_iff, pure_eq_ok_iff]
  constructor
  · rintro ⟨size?, hsize, rfl⟩
    exact ⟨sized_iff.mpr ⟨size?, hsize⟩, by rw [exactSize?_of_fixedSize? hsize]⟩
  · rintro ⟨hsized, rfl⟩
    exact ⟨_, hsized, rfl⟩

/-- Which sizes can be computed does not depend on what else the entries are made of. -/
theorem mapM_ofShape_eq {α β : Type} (xs : List α) (shape : α → Shape) (content : α → β) :
    (xs.mapM fun x => Entry.ofShape (shape x) (content x))
      = (xs.mapM fun x => (shape x).fixedSize?).map fun _ =>
          xs.map fun x => ⟨(shape x).exactSize?, content x⟩ := by
  induction xs with
  | nil => rfl
  | cons x xs ih =>
    rw [List.mapM_cons, List.mapM_cons, ih, Entry.ofShape]
    cases hsize : (shape x).fixedSize? with
    | error halt => rfl
    | ok size? =>
      rw [List.map_cons, exactSize?_of_fixedSize? hsize]
      cases xs.mapM fun x => (shape x).fixedSize? <;> rfl

/-- Entries can be made of parts whose sizes can be computed. -/
theorem mapM_ofShape_eq_ok_iff {α β : Type} {xs : List α} {shape : α → Shape} {content : α → β}
    {entries : List (Entry β)} :
    (xs.mapM fun x => Entry.ofShape (shape x) (content x)) = .ok entries ↔
      (∀ x ∈ xs, (shape x).Sized) ∧ (xs.map fun x => ⟨(shape x).exactSize?, content x⟩) = entries :=
  mapM_eq_ok_iff_forall fun _ _ _ => ofShape_eq_ok_iff

theorem map_writer (items : List Value) :
    (items.map fun item => (⟨element.exactSize?, element.encode item⟩ : Entry _))
      = writersOf (List.replicate items.length element) items := by
  induction items with
  | nil => rfl
  | cons item items ih =>
    rw [List.map_cons, ih, List.length_cons, List.replicate_succ, writersOf_cons]

/-- Every element is written against one shape, whose size is asked for if there is one. -/
theorem elements_eq_ok_iff {items : List Value} {entries : List (Entry (Except FitError Bytes))} :
    (items.mapM fun item => Entry.ofShape element (element.encode item)) = .ok entries ↔
      (items ≠ [] → element.Sized) ∧
        writersOf (List.replicate items.length element) items = entries := by
  have hsized : (∀ item ∈ items, element.Sized) ↔ (items ≠ [] → element.Sized) := by
    cases items with
    | nil => simp
    | cons item items => exact ⟨fun hall _ => hall item (by simp), fun hall _ _ => hall (by simp)⟩
  rw [mapM_ofShape_eq_ok_iff, hsized, map_writer]

theorem map_zip_writer (fields : List (String × Shape)) (values : List Value) :
    ((fields.zip values).map fun entry =>
        (⟨entry.1.2.exactSize?, entry.1.2.encode entry.2⟩ : Entry _))
      = writersOf (fields.map Prod.snd) values := by
  rw [writersOf, List.zipWith_map_left, List.map_zip_eq_zipWith]
  rfl

theorem encodeFields_eq_mapM (fields : List (String × Shape)) (values : List Value) :
    encodeFields fields values = (fields.zip values).mapM fun entry =>
      Entry.ofShape entry.1.2 (entry.1.2.encode entry.2) := by
  induction fields generalizing values with
  | nil => simp [encodeFields, pure, Except.pure]
  | cons field fields ih =>
    cases values with
    | nil => simp [encodeFields, pure, Except.pure]
    | cons v values =>
      rw [List.zip_cons_cons, List.mapM_cons, ← ih]
      rfl

theorem decodeFields_eq_mapM (fields : List (String × Shape)) :
    decodeFields fields = fields.mapM fun field => Entry.ofShape field.2 field.2.decode := by
  induction fields with
  | nil => simp [decodeFields, pure, Except.pure]
  | cons field fields ih =>
    rw [List.mapM_cons, ← ih]
    rfl

theorem decodeFields_eq_ok_iff {entries : List (Entry Reader)} :
    decodeFields fields = .ok entries ↔
      (∀ part ∈ fields.map Prod.snd, part.Sized) ∧ readersOf (fields.map Prod.snd) = entries := by
  rw [decodeFields_eq_mapM, mapM_ofShape_eq_ok_iff, List.forall_mem_map, readersOf, List.map_map]
  rfl

theorem encodeFields_eq_ok_iff {values : List Value}
    {entries : List (Entry (Except FitError Bytes))} (hlength : values.length = fields.length) :
    encodeFields fields values = .ok entries ↔
      (∀ part ∈ fields.map Prod.snd, part.Sized) ∧
        writersOf (fields.map Prod.snd) values = entries := by
  have hfields : (fields.zip values).map Prod.fst = fields :=
    List.map_fst_zip (Nat.le_of_eq hlength.symm)
  have hsized : (∀ entry ∈ fields.zip values, entry.1.2.Sized) ↔
      ∀ part ∈ fields.map Prod.snd, part.Sized := by
    rw [List.forall_mem_map]
    conv => rhs; rw [← hfields, List.forall_mem_map]
  rw [encodeFields_eq_mapM, mapM_ofShape_eq_ok_iff, map_zip_writer, hsized]

theorem encode_vector_eq_ok_iff :
    (vector element length).encode v = .ok bs ↔
      ∃ items, v = .vector items ∧ items.length = length ∧ (items ≠ [] → element.Sized) ∧
        write (writersOf (List.replicate length element) items) = .ok bs := by
  cases v with
  | vector items =>
    simp only [encode, bind_eq_ok_iff, requireLength_eq_ok_iff, exists_const, mapError_eq_ok_iff,
      elements_eq_ok_iff, Value.vector.injEq, exists_eq_left']
    constructor
    · rintro ⟨rfl, _, ⟨hsized, rfl⟩, hwrite⟩
      exact ⟨rfl, hsized, hwrite⟩
    · rintro ⟨rfl, hsized, hwrite⟩
      exact ⟨rfl, _, ⟨hsized, rfl⟩, hwrite⟩
  | _ => simp [encode]

theorem decode_vector_eq_ok_iff :
    (vector element length).decode bs = .ok v ↔
      element.Sized ∧ length * element.exactHeadSize < wordBound ∧
        ∃ items, v = .vector items ∧ length * element.exactHeadSize ≤ bs.length ∧
          readFrom (length * element.exactHeadSize) (readersOf (List.replicate length element)) bs
            = .ok items := by
  simp only [decode, bind_eq_ok_iff, pure_eq_ok_iff, mapError_eq_ok_iff]
  constructor
  · rintro ⟨size?, hsize, items, hread, rfl⟩
    rw [← exactSize?_of_fixedSize? hsize, Wire.readVector_eq_ok_iff] at hread
    exact ⟨sized_iff.mpr ⟨_, hsize⟩, hread.1, items, rfl, hread.2⟩
  · rintro ⟨hsized, hhead, items, rfl, hread⟩
    exact ⟨_, hsized, items, Wire.readVector_eq_ok_iff.mpr ⟨hhead, hread⟩, rfl⟩

theorem encode_list_eq_ok_iff :
    (list element limit).encode v = .ok bs ↔
      ∃ items, v = .list items ∧ items.length ≤ limit ∧ (items ≠ [] → element.Sized) ∧
        write (writersOf (List.replicate items.length element) items) = .ok bs := by
  cases v with
  | list items =>
    simp only [encode, bind_eq_ok_iff, requireCapacity_eq_ok_iff, exists_const, mapError_eq_ok_iff,
      elements_eq_ok_iff, Value.list.injEq, exists_eq_left']
    constructor
    · rintro ⟨hlimit, _, ⟨hsized, rfl⟩, hwrite⟩
      exact ⟨hlimit, hsized, hwrite⟩
    · rintro ⟨hlimit, hsized, hwrite⟩
      exact ⟨hlimit, _, ⟨hsized, rfl⟩, hwrite⟩
  | _ => simp [encode]

theorem decode_list_eq_ok_iff (hpos : 0 < element.exactHeadSize) :
    (list element limit).decode bs = .ok v ↔
      element.Sized ∧ ∃ items count, v = .list items ∧ count ≤ limit ∧
        count * element.exactHeadSize ≤ bs.length ∧
        readFrom (count * element.exactHeadSize) (readersOf (List.replicate count element)) bs
          = .ok items := by
  simp only [decode, bind_eq_ok_iff, pure_eq_ok_iff, mapError_eq_ok_iff]
  constructor
  · rintro ⟨size?, hsize, items, hread, rfl⟩
    rw [← exactSize?_of_fixedSize? hsize, Wire.readList_eq_ok_iff hpos] at hread
    obtain ⟨count, hread⟩ := hread
    exact ⟨sized_iff.mpr ⟨_, hsize⟩, items, count, rfl, hread⟩
  · rintro ⟨hsized, items, count, rfl, hread⟩
    exact ⟨_, hsized, items, (Wire.readList_eq_ok_iff hpos).mpr ⟨count, hread⟩, rfl⟩

theorem encode_container_eq_ok_iff :
    (container fields).encode v = .ok bs ↔
      ∃ values, v = .container values ∧ values.length = fields.length ∧
        (∀ part ∈ fields.map Prod.snd, part.Sized) ∧
        write (writersOf (fields.map Prod.snd) values) = .ok bs := by
  cases v with
  | container values =>
    simp only [encode, bind_eq_ok_iff, requireLength_eq_ok_iff, exists_const, mapError_eq_ok_iff,
      Value.container.injEq, exists_eq_left']
    refine and_congr_right fun hlength => ?_
    simp only [encodeFields_eq_ok_iff hlength]
    constructor
    · rintro ⟨_, ⟨hsized, rfl⟩, hwrite⟩
      exact ⟨hsized, hwrite⟩
    · rintro ⟨hsized, hwrite⟩
      exact ⟨_, ⟨hsized, rfl⟩, hwrite⟩
  | _ => simp [encode]

theorem decode_container_eq_ok_iff :
    (container fields).decode bs = .ok v ↔
      (∀ part ∈ fields.map Prod.snd, part.Sized) ∧
        headOf (fields.map Prod.snd) < wordBound ∧
        ∃ values, v = .container values ∧ headOf (fields.map Prod.snd) ≤ bs.length ∧
          readFrom (headOf (fields.map Prod.snd)) (readersOf (fields.map Prod.snd)) bs
            = .ok values := by
  simp only [decode, bind_eq_ok_iff, pure_eq_ok_iff, mapError_eq_ok_iff, decodeFields_eq_ok_iff,
    Series.read, headSize_eq_ok_iff, requireHead_eq_ok_iff, exists_const]
  constructor
  · rintro ⟨_, ⟨hsized, rfl⟩, values, ⟨_, ⟨rfl, hhead⟩, hread⟩, rfl⟩
    rw [width_readersOf] at hhead hread
    exact ⟨hsized, hhead, values, rfl, hread⟩
  · rintro ⟨hsized, hhead, values, rfl, hread⟩
    rw [← width_readersOf] at hhead hread
    exact ⟨_, ⟨hsized, rfl⟩, values, ⟨_, ⟨rfl, hhead⟩, hread⟩, rfl⟩

end Shape

end SimpleSerialize
