import SimpleSerialize.Proofs.Except
import SimpleSerialize.Proofs.Bytes.Bits
import SimpleSerialize.Proofs.Shape.Sizes
import SimpleSerialize.Wire.Decode

/-!
A series is read back from what was written of it, and written again from what was read. The two
recursions meet in one number: where the first part behind the head starts.
-/

namespace SimpleSerialize.Series

/-! ### When each step of a series succeeds -/

section Steps

variable {offset length position previous size : Nat} {head tail rest : Bytes}
  {content : Except FitError Bytes} {writers : List (Entry (Except FitError Bytes))}
  {read : Reader} {readers : List (Entry Reader)} {slots : List Slot} {vs : List Value}

theorem layOut_fixed :
    layOut offset (⟨some size, content⟩ :: writers) = .ok (head, tail) ↔
      ∃ bs rest, content = .ok bs ∧ layOut offset writers = .ok (rest, tail) ∧
        bs ++ rest = head := by
  simp only [layOut, bind_eq_ok_iff, pure_eq_ok_iff, Prod.exists, Prod.mk.injEq]
  constructor
  · rintro ⟨bs, hcontent, rest, _, hwrite, rfl, rfl⟩
    exact ⟨bs, rest, hcontent, hwrite, rfl⟩
  · rintro ⟨bs, rest, hcontent, hwrite, rfl⟩
    exact ⟨bs, hcontent, rest, tail, hwrite, rfl, rfl⟩

theorem layOut_variable :
    layOut offset (⟨none, content⟩ :: writers) = .ok (head, tail) ↔
      offset < 2 ^ (8 * offsetSize) ∧ ∃ bs rest rest', content = .ok bs ∧
        layOut (offset + bs.length) writers = .ok (rest, rest') ∧
        Bytes.littleEndian offsetSize offset ++ rest = head ∧ bs ++ rest' = tail := by
  by_cases hoffset : offset < 2 ^ (8 * offsetSize)
  · simp only [layOut, if_pos hoffset, bind_eq_ok_iff, pure_eq_ok_iff, Prod.exists, Prod.mk.injEq]
    constructor
    · rintro ⟨bs, hcontent, rest, rest', hwrite, hhead, htail⟩
      exact ⟨hoffset, bs, rest, rest', hcontent, hwrite, hhead, htail⟩
    · rintro ⟨-, bs, rest, rest', hcontent, hwrite, hhead, htail⟩
      exact ⟨bs, hcontent, rest, rest', hwrite, hhead, htail⟩
  · simp [layOut, hoffset]

theorem readOffset_eq_ok_iff :
    readOffset length position rest = .ok offset ↔
      rest.take offsetSize = Bytes.littleEndian offsetSize offset ∧
        offset < 2 ^ (8 * offsetSize) := by
  have hpow : 256 ^ offsetSize = 2 ^ (8 * offsetSize) := by decide
  unfold readOffset
  by_cases hfield : (rest.take offsetSize).length = offsetSize
  · rw [if_pos hfield, Except.ok.injEq, Bytes.ofLittleEndian_eq_iff hfield, hpow]
  · simp only [if_neg hfield, reduceCtorEq, false_iff]
    rintro ⟨hwrite, -⟩
    rw [hwrite, Bytes.length_littleEndian] at hfield
    exact hfield rfl

theorem readHead_fixed :
    readHead length position rest (⟨some size, read⟩ :: readers) = .ok slots ↔
      ∃ v later, read (rest.take size) = .ok v ∧
        readHead length (position + size) (rest.drop size) readers = .ok later ∧
        .filled v :: later = slots := by
  simp only [readHead, bind_eq_ok_iff, pure_eq_ok_iff]
  constructor
  · rintro ⟨v, hv, later, h⟩
    exact ⟨v, later, hv, h⟩
  · rintro ⟨v, later, hv, h⟩
    exact ⟨v, hv, later, h⟩

theorem readHead_variable :
    readHead length position rest (⟨none, read⟩ :: readers) = .ok slots ↔
      ∃ offset later, readOffset length position rest = .ok offset ∧
        readHead length (position + offsetSize) (rest.drop offsetSize) readers = .ok later ∧
        .pending offset read :: later = slots := by
  simp only [readHead, bind_eq_ok_iff, pure_eq_ok_iff]
  constructor
  · rintro ⟨offset, hoffset, later, h⟩
    exact ⟨offset, later, hoffset, h⟩
  · rintro ⟨offset, later, hoffset, h⟩
    exact ⟨offset, hoffset, later, h⟩

/-- Where the first pending part starts, or the end of the series if there is none. -/
def start (length : Nat) (slots : List Slot) : Nat :=
  (slots.findSome? Slot.offset?).getD length

@[simp] theorem start_nil : start length [] = length := rfl

@[simp] theorem start_filled (v : Value) : start length (.filled v :: slots) = start length slots :=
  rfl

@[simp] theorem start_pending : start length (.pending offset read :: slots) = offset := rfl

theorem checkFirst_eq_ok_iff {head : Nat} {u : Unit} :
    checkFirst head length slots = .ok u ↔ start length slots = head := by
  unfold checkFirst start
  cases slots.findSome? Slot.offset? with
  | none => by_cases h : length = head <;> simp [h]
  | some first => by_cases h : first = head <;> simp [h]

theorem fill_filled {v : Value} :
    fill length previous rest (.filled v :: slots) = .ok vs ↔
      ∃ later, fill length previous rest slots = .ok later ∧ v :: later = vs := by
  simp only [fill, bind_eq_ok_iff, pure_eq_ok_iff]

theorem fill_pending :
    fill length previous rest (.pending offset read :: slots) = .ok vs ↔
      previous ≤ offset ∧ offset ≤ start length slots ∧ start length slots ≤ length ∧
        ∃ v later,
          read ((rest.drop (offset - previous)).take (start length slots - offset)) = .ok v ∧
          fill length offset (rest.drop (offset - previous)) slots = .ok later ∧
          v :: later = vs := by
  have hstart : (slots.findSome? Slot.offset?).getD length = start length slots := rfl
  simp only [fill, hstart]
  by_cases hprevious : offset < previous
  · simp only [if_pos hprevious, reduceCtorEq, false_iff]
    omega
  by_cases hlength : length < offset ∨ length < start length slots
  · simp only [if_neg hprevious, if_pos hlength, reduceCtorEq, false_iff]
    omega
  by_cases hstop : start length slots < offset
  · simp only [if_neg hprevious, if_neg hlength, if_pos hstop, reduceCtorEq, false_iff]
    omega
  simp only [if_neg hprevious, if_neg hlength, if_neg hstop, bind_eq_ok_iff, pure_eq_ok_iff]
  constructor
  · rintro ⟨v, hv, later, hlater, rfl⟩
    exact ⟨by omega, by omega, by omega, v, later, hv, hlater, rfl⟩
  · rintro ⟨-, -, -, v, later, hv, hlater, rfl⟩
    exact ⟨v, hv, later, hlater, rfl⟩

theorem readFrom_eq_ok_iff {head : Nat} {bs : Bytes} :
    readFrom head readers bs = .ok vs ↔
      ∃ slots, readHead bs.length 0 bs readers = .ok slots ∧ start bs.length slots = head ∧
        fill bs.length head (bs.drop head) slots = .ok vs := by
  simp only [readFrom, bind_eq_ok_iff, checkFirst_eq_ok_iff, exists_const]

end Steps

/-! ### Reading what was written, writing what was read -/

def writersOf (shapes : List Shape) (vs : List Value) : List (Entry (Except FitError Bytes)) :=
  List.zipWith (fun shape v => ⟨shape.exactSize?, shape.encode v⟩) shapes vs

def readersOf (shapes : List Shape) : List (Entry Reader) :=
  shapes.map fun shape => ⟨shape.exactSize?, shape.decode⟩

theorem writersOf_cons (shape : Shape) (shapes : List Shape) (v : Value) (vs : List Value) :
    writersOf (shape :: shapes) (v :: vs)
      = ⟨shape.exactSize?, shape.encode v⟩ :: writersOf shapes vs := rfl

theorem readersOf_cons (shape : Shape) (shapes : List Shape) :
    readersOf (shape :: shapes) = ⟨shape.exactSize?, shape.decode⟩ :: readersOf shapes := rfl

/-- The size of a head without a bound on it. -/
def width {α : Type} (entries : List (Entry α)) : Nat := (entries.map Entry.headSize).sum

theorem headSize_eq_ok_iff {α : Type} {entries : List (Entry α)} {n : Nat} :
    headSize entries = .ok n ↔ width entries = n ∧ width entries < wordBound := by
  suffices hsum : ∀ sum < wordBound,
      (entries.foldlM (fun sum entry => addWord sum entry.headSize) sum = .ok n ↔
        sum + width entries = n ∧ sum + width entries < wordBound) by
    have hzero := hsum 0 (Nat.two_pow_pos 64)
    rwa [Nat.zero_add] at hzero
  induction entries with
  | nil =>
    intro sum hlt
    simp [width, pure_eq_ok_iff, hlt]
  | cons entry entries ih =>
    intro sum hlt
    have hwidth : width (entry :: entries) = entry.headSize + width entries := by simp [width]
    rw [List.foldlM_cons, bind_eq_ok_iff, hwidth, ← Nat.add_assoc]
    constructor
    · rintro ⟨_, hsum, hrest⟩
      obtain ⟨rfl, hfits⟩ := addWord_eq_ok_iff.mp hsum
      exact (ih _ hfits).mp hrest
    · rintro ⟨hn, hfits⟩
      have hsum : sum + entry.headSize < wordBound := by omega
      exact ⟨_, addWord_eq_ok_iff.mpr ⟨rfl, hsum⟩, (ih _ hsum).mpr ⟨hn, hfits⟩⟩

end SimpleSerialize.Series

namespace SimpleSerialize.Shape

/-- An encoding that memory can hold is read back as the value it was written from. -/
def ReadsBack (shape : Shape) : Prop :=
  ∀ v bs, bs.length < wordBound → shape.encode v = .ok bs → shape.decode bs = .ok v

/-- What one value is written as is read back as that value, if it is `limit` bytes at most. -/
def ReadsBackWithin (shape : Shape) (limit : Nat) (v : Value) : Prop :=
  ∀ bs, bs.length ≤ limit → shape.encode v = .ok bs → shape.decode bs = .ok v

/-- What is read as a value from memory is what the value is written as. -/
def WritesBack (shape : Shape) : Prop :=
  ∀ v bs, bs.length < wordBound → shape.decode bs = .ok v → shape.encode v = .ok bs

/-- No encoding has another size than a fixed one. -/
def KeepsSize (shape : Shape) : Prop :=
  ∀ v bs size, shape.exactSize? = some size → shape.encode v = .ok bs → bs.length = size

end SimpleSerialize.Shape

namespace SimpleSerialize.Series

variable {shapes : List Shape} {limit : Nat}

theorem length_head_of_layOut (hsize : ∀ shape ∈ shapes, shape.KeepsSize) {vs : List Value}
    {offset : Nat} {head tail : Bytes}
    (hwrite : layOut offset (writersOf shapes vs) = .ok (head, tail)) :
    head.length = width (writersOf shapes vs) := by
  induction shapes generalizing vs offset head tail with
  | nil => cases hwrite; rfl
  | cons shape shapes ih =>
    cases vs with
    | nil => cases hwrite; rfl
    | cons v vs =>
      rw [List.forall_mem_cons] at hsize
      rw [writersOf_cons] at hwrite ⊢
      rw [width, List.map_cons, List.sum_cons, Entry.headSize]
      cases hfixed : shape.exactSize? with
      | some size =>
        rw [hfixed, layOut_fixed] at hwrite
        obtain ⟨bs, rest, hcontent, hrest, rfl⟩ := hwrite
        rw [List.length_append, ih hsize.2 hrest, hsize.1 v bs size hfixed hcontent]
        rfl
      | none =>
        rw [hfixed, layOut_variable] at hwrite
        obtain ⟨-, bs, rest, rest', -, hrest, rfl, rfl⟩ := hwrite
        rw [List.length_append, ih hsize.2 hrest, Bytes.length_littleEndian]
        rfl

/-- The head of a written series says where each part behind it starts, and the parts are there. -/
theorem exists_slots_of_layOut {vs : List Value}
    (hread : ∀ entry ∈ shapes.zip vs, entry.1.ReadsBackWithin limit entry.2)
    (hsize : ∀ shape ∈ shapes, shape.KeepsSize) (hcount : vs.length = shapes.length)
    {offset : Nat} {head tail : Bytes}
    (hwrite : layOut offset (writersOf shapes vs) = .ok (head, tail))
    (hlimit : head.length + tail.length ≤ limit) (length position : Nat) (behind : Bytes) :
    ∃ slots, readHead length position (head ++ behind) (readersOf shapes) = .ok slots ∧
      start (offset + tail.length) slots = offset ∧
      ∀ previous rest, previous ≤ offset → rest.drop (offset - previous) = tail →
        fill (offset + tail.length) previous rest slots = .ok vs := by
  induction shapes generalizing vs offset head tail position with
  | nil =>
    cases List.length_eq_zero_iff.mp hcount
    cases hwrite
    exact ⟨[], rfl, rfl, fun _ _ _ _ => rfl⟩
  | cons shape shapes ih =>
    cases vs with
    | nil => simp at hcount
    | cons v vs =>
      rw [List.zip_cons_cons, List.forall_mem_cons] at hread
      rw [List.forall_mem_cons] at hsize
      have hcount' : vs.length = shapes.length := Nat.succ.inj hcount
      rw [writersOf_cons] at hwrite
      rw [readersOf_cons]
      cases hfixed : shape.exactSize? with
      | some size =>
        rw [hfixed, layOut_fixed] at hwrite
        obtain ⟨bs, rest, hcontent, hrest, rfl⟩ := hwrite
        rw [List.length_append] at hlimit
        obtain ⟨slots, hslots, hstart, hfill⟩ :=
          ih hread.2 hsize.2 hcount' hrest (by omega) (position + size)
        have hlength := hsize.1 v bs size hfixed hcontent
        refine ⟨.filled v :: slots, readHead_fixed.mpr ⟨v, slots, ?_, ?_, rfl⟩, hstart, ?_⟩
        · rw [List.append_assoc, List.take_left' hlength]
          exact hread.1 bs (by omega) hcontent
        · rwa [List.append_assoc, List.drop_left' hlength]
        · intro previous rest hprevious htail
          exact fill_filled.mpr ⟨vs, hfill previous rest hprevious htail, rfl⟩
      | none =>
        rw [hfixed, layOut_variable] at hwrite
        obtain ⟨hoffset, bs, rest, rest', hcontent, hrest, rfl, rfl⟩ := hwrite
        rw [List.length_append, List.length_append] at hlimit
        obtain ⟨slots, hslots, hstart, hfill⟩ :=
          ih hread.2 hsize.2 hcount' hrest (by omega) (position + offsetSize)
        have hfield := Bytes.length_littleEndian offsetSize offset
        have hend : offset + (bs ++ rest').length = offset + bs.length + rest'.length := by
          rw [List.length_append, Nat.add_assoc]
        refine ⟨.pending offset shape.decode :: slots,
          readHead_variable.mpr ⟨offset, slots, ?_, ?_, rfl⟩, rfl, ?_⟩
        · rw [readOffset_eq_ok_iff, List.append_assoc, List.take_left' hfield]
          exact ⟨rfl, hoffset⟩
        · rwa [List.append_assoc, List.drop_left' hfield]
        · intro previous rest hprevious htail
          rw [hend, fill_pending, hstart, htail, Nat.add_sub_cancel_left, List.take_left' rfl]
          refine ⟨hprevious, by omega, by omega, v, vs, hread.1 bs (by omega) hcontent, ?_, rfl⟩
          -- The part is skipped only when the next one is read.
          apply hfill offset (bs ++ rest') (by omega)
          rw [Nat.add_sub_cancel_left, List.drop_left' rfl]

/-- A series that was read is laid out again as it was, part by part. -/
theorem layOut_of_readHead (hwrite : ∀ shape ∈ shapes, shape.WritesBack) {vs : List Value}
    {length previous position : Nat} {head rest : Bytes} {slots : List Slot}
    (hslots : readHead length position head (readersOf shapes) = .ok slots)
    (hfill : fill length previous rest slots = .ok vs)
    (hrest : previous + rest.length = length)
    (hhead : head.length < wordBound) (hmemory : length < wordBound) :
    vs.length = shapes.length ∧ previous ≤ start length slots ∧ start length slots ≤ length ∧
      layOut (start length slots) (writersOf shapes vs)
        = .ok (head.take (width (readersOf shapes)),
          rest.drop (start length slots - previous)) := by
  induction shapes generalizing vs previous position head rest slots with
  | nil =>
    cases hslots
    cases hfill
    refine ⟨rfl, by simp; omega, by simp, ?_⟩
    rw [start_nil, List.drop_of_length_le (by omega)]
    rfl
  | cons shape shapes ih =>
    rw [List.forall_mem_cons] at hwrite
    have hwidth : width (readersOf (shape :: shapes))
        = shape.exactHeadSize + width (readersOf shapes) := by
      simp [readersOf_cons, width, Entry.headSize, Shape.exactHeadSize]
    rw [readersOf_cons] at hslots
    rw [hwidth, List.take_add, Shape.exactHeadSize]
    cases hfixed : shape.exactSize? with
    | some size =>
      rw [hfixed, readHead_fixed] at hslots
      obtain ⟨v, later, hv, hlater, rfl⟩ := hslots
      obtain ⟨vs, hvs, rfl⟩ := fill_filled.mp hfill
      obtain ⟨hcount, hprevious, hlength, hlayOut⟩ :=
        ih hwrite.2 hlater hvs hrest (by rw [List.length_drop]; omega)
      refine ⟨congrArg Nat.succ hcount, hprevious, hlength, ?_⟩
      rw [start_filled, writersOf_cons, hfixed, layOut_fixed]
      exact ⟨_, _, hwrite.1 v _ (by rw [List.length_take]; omega) hv, hlayOut, rfl⟩
    | none =>
      rw [hfixed, readHead_variable] at hslots
      obtain ⟨offset, later, hoffset, hlater, rfl⟩ := hslots
      obtain ⟨hfield, hbound⟩ := readOffset_eq_ok_iff.mp hoffset
      obtain ⟨hprevious, hstop, hlength, v, vs, hv, hvs, rfl⟩ := fill_pending.mp hfill
      have hrest' : offset + (rest.drop (offset - previous)).length = length := by
        rw [List.length_drop]
        omega
      obtain ⟨hcount, -, -, hlayOut⟩ :=
        ih hwrite.2 hlater hvs hrest' (by rw [List.length_drop]; omega)
      have hpart : ((rest.drop (offset - previous)).take (start length later - offset)).length
          = start length later - offset := by
        rw [List.length_take]
        omega
      refine ⟨congrArg Nat.succ hcount, hprevious, by simp; omega, ?_⟩
      rw [start_pending, writersOf_cons, hfixed, layOut_variable]
      refine ⟨hbound, _, (head.drop offsetSize).take (width (readersOf shapes)), _,
        hwrite.1 v _ (by omega) hv, ?_, ?_, List.take_append_drop _ _⟩
      · rw [hpart, show offset + (start length later - offset) = start length later by omega]
        exact hlayOut
      · rw [Option.getD_none, hfield]

theorem write_eq_ok_iff {entries : List (Entry (Except FitError Bytes))} {bs : Bytes} :
    write entries = .ok bs ↔ width entries < wordBound ∧
      ∃ head tail, layOut (width entries) entries = .ok (head, tail) ∧ head ++ tail = bs := by
  simp only [write, bind_eq_ok_iff, mapError_eq_ok_iff, headSize_eq_ok_iff, pure_eq_ok_iff,
    Prod.exists]
  constructor
  · rintro ⟨_, ⟨rfl, hfits⟩, hlayOut⟩
    exact ⟨hfits, hlayOut⟩
  · rintro ⟨hfits, hlayOut⟩
    exact ⟨_, ⟨rfl, hfits⟩, hlayOut⟩

/-- Parts of fixed size leave nothing to put behind the head. -/
theorem tail_of_fixed (hfixed : ∀ shape ∈ shapes, shape.exactSize?.isSome) {vs : List Value}
    {offset : Nat} {head tail : Bytes}
    (hwrite : layOut offset (writersOf shapes vs) = .ok (head, tail)) : tail = [] := by
  induction shapes generalizing vs head tail with
  | nil =>
    cases hwrite
    rfl
  | cons shape shapes ih =>
    cases vs with
    | nil =>
      cases hwrite
      rfl
    | cons v vs =>
      rw [List.forall_mem_cons] at hfixed
      obtain ⟨size, hsize⟩ := Option.isSome_iff_exists.mp hfixed.1
      rw [writersOf_cons, hsize, layOut_fixed] at hwrite
      obtain ⟨bs, rest, hcontent, hrest, rfl⟩ := hwrite
      exact ih hfixed.2 hrest

theorem width_writersOf {vs : List Value} (hcount : vs.length = shapes.length) :
    width (writersOf shapes vs) = Shape.headOf shapes := by
  induction shapes generalizing vs with
  | nil => rfl
  | cons shape shapes ih =>
    cases vs with
    | nil => simp at hcount
    | cons v vs =>
      rw [Shape.headOf_cons, ← ih (Nat.succ.inj hcount)]
      rfl

theorem width_readersOf : width (readersOf shapes) = Shape.headOf shapes := by
  rw [width, readersOf, List.map_map]
  rfl

theorem readFrom_of_layOut {vs : List Value}
    (hread : ∀ entry ∈ shapes.zip vs, entry.1.ReadsBackWithin limit entry.2)
    (hsize : ∀ shape ∈ shapes, shape.KeepsSize) (hcount : vs.length = shapes.length)
    {head tail : Bytes}
    (hwrite : layOut (Shape.headOf shapes) (writersOf shapes vs) = .ok (head, tail))
    (hlimit : (head ++ tail).length ≤ limit) :
    readFrom (Shape.headOf shapes) (readersOf shapes) (head ++ tail) = .ok vs := by
  have hhead := length_head_of_layOut hsize hwrite
  rw [width_writersOf hcount] at hhead
  rw [← hhead] at hwrite ⊢
  rw [List.length_append] at hlimit
  obtain ⟨slots, hslots, hstart, hfill⟩ :=
    exists_slots_of_layOut hread hsize hcount hwrite hlimit (head ++ tail).length 0 tail
  rw [readFrom_eq_ok_iff, List.drop_left' rfl]
  refine ⟨slots, hslots, ?_, ?_⟩
  · rw [List.length_append, hstart]
  · rw [List.length_append]
    exact hfill head.length tail (Nat.le_refl _) (by simp)

theorem sum_headSize_le_of_write (hsize : ∀ shape ∈ shapes, shape.KeepsSize) {vs : List Value}
    (hcount : vs.length = shapes.length) {bs : Bytes}
    (hwrite : write (writersOf shapes vs) = .ok bs) : Shape.headOf shapes ≤ bs.length := by
  obtain ⟨-, head, tail, hlayOut, rfl⟩ := write_eq_ok_iff.mp hwrite
  rw [List.length_append, length_head_of_layOut hsize hlayOut, width_writersOf hcount]
  exact Nat.le_add_right _ _

/-- What is read back part by part is read back. -/
theorem readFrom_of_write_within {vs : List Value}
    (hread : ∀ entry ∈ shapes.zip vs, entry.1.ReadsBackWithin limit entry.2)
    (hsize : ∀ shape ∈ shapes, shape.KeepsSize) (hcount : vs.length = shapes.length)
    {bs : Bytes} (hlimit : bs.length ≤ limit) (hwrite : write (writersOf shapes vs) = .ok bs) :
    readFrom (Shape.headOf shapes) (readersOf shapes) bs = .ok vs := by
  obtain ⟨-, head, tail, hlayOut, rfl⟩ := write_eq_ok_iff.mp hwrite
  rw [width_writersOf hcount] at hlayOut
  exact readFrom_of_layOut hread hsize hcount hlayOut hlimit

theorem readFrom_of_write (hread : ∀ shape ∈ shapes, shape.ReadsBack)
    (hsize : ∀ shape ∈ shapes, shape.KeepsSize) {vs : List Value}
    (hcount : vs.length = shapes.length) {bs : Bytes} (hmemory : bs.length < wordBound)
    (hwrite : write (writersOf shapes vs) = .ok bs) :
    Shape.headOf shapes ≤ bs.length ∧
      readFrom (Shape.headOf shapes) (readersOf shapes) bs = .ok vs := by
  refine ⟨sum_headSize_le_of_write hsize hcount hwrite,
    readFrom_of_write_within ?_ hsize hcount (Nat.le_refl _) hwrite⟩
  intro entry hentry bs' hle hencode
  exact hread entry.1 (List.of_mem_zip hentry).1 entry.2 bs' (Nat.lt_of_le_of_lt hle hmemory)
    hencode

/-- The head is a part of the bytes, so that a word holds its size. -/
theorem write_of_readFrom (hwrite : ∀ shape ∈ shapes, shape.WritesBack) {vs : List Value}
    {bs : Bytes} (hmemory : bs.length < wordBound) (hroom : Shape.headOf shapes ≤ bs.length)
    (hread : readFrom (Shape.headOf shapes) (readersOf shapes) bs = .ok vs) :
    vs.length = shapes.length ∧ write (writersOf shapes vs) = .ok bs := by
  obtain ⟨slots, hslots, hstart, hfill⟩ := readFrom_eq_ok_iff.mp hread
  obtain ⟨hcount, -, -, hlayOut⟩ :=
    layOut_of_readHead hwrite hslots hfill (by rw [List.length_drop]; omega) hmemory hmemory
  rw [hstart, width_readersOf, Nat.sub_self, List.drop_zero] at hlayOut
  refine ⟨hcount, write_eq_ok_iff.mpr ?_⟩
  rw [width_writersOf hcount]
  exact ⟨Nat.lt_of_le_of_lt hroom hmemory, _, _, hlayOut, List.take_append_drop _ bs⟩

theorem length_of_write (hsize : ∀ shape ∈ shapes, shape.KeepsSize)
    (hfixed : ∀ shape ∈ shapes, shape.exactSize?.isSome) {vs : List Value}
    (hcount : vs.length = shapes.length) {bs : Bytes}
    (hwrite : write (writersOf shapes vs) = .ok bs) : bs.length = Shape.headOf shapes := by
  obtain ⟨-, head, tail, hlayOut, rfl⟩ := write_eq_ok_iff.mp hwrite
  obtain rfl := tail_of_fixed hfixed hlayOut
  rw [List.append_nil, length_head_of_layOut hsize hlayOut, width_writersOf hcount]

/-- Every part of a series that was read has been read from bytes of its own. -/
theorem decodes_of_readHead {vs : List Value} {length previous position : Nat} {head rest : Bytes}
    {slots : List Slot} (hslots : readHead length position head (readersOf shapes) = .ok slots)
    (hfill : fill length previous rest slots = .ok vs) :
    vs.length = shapes.length ∧
      ∀ entry ∈ shapes.zip vs, ∃ part, entry.1.decode part = .ok entry.2 := by
  induction shapes generalizing vs previous position head rest slots with
  | nil =>
    cases hslots
    cases hfill
    exact ⟨rfl, List.forall_mem_nil _⟩
  | cons shape shapes ih =>
    rw [readersOf_cons] at hslots
    cases hsize : shape.exactSize? with
    | some size =>
      rw [hsize, readHead_fixed] at hslots
      obtain ⟨v, later, hv, hlater, rfl⟩ := hslots
      obtain ⟨vs, hvs, rfl⟩ := fill_filled.mp hfill
      obtain ⟨hcount, hparts⟩ := ih hlater hvs
      refine ⟨congrArg Nat.succ hcount, ?_⟩
      rw [List.zip_cons_cons, List.forall_mem_cons]
      exact ⟨⟨_, hv⟩, hparts⟩
    | none =>
      rw [hsize, readHead_variable] at hslots
      obtain ⟨offset, later, -, hlater, rfl⟩ := hslots
      obtain ⟨-, -, -, v, vs, hv, hvs, rfl⟩ := fill_pending.mp hfill
      obtain ⟨hcount, hparts⟩ := ih hlater hvs
      refine ⟨congrArg Nat.succ hcount, ?_⟩
      rw [List.zip_cons_cons, List.forall_mem_cons]
      exact ⟨⟨_, hv⟩, hparts⟩

theorem decodes_of_readFrom {head : Nat} {bs : Bytes} {vs : List Value}
    (hread : readFrom head (readersOf shapes) bs = .ok vs) :
    vs.length = shapes.length ∧
      ∀ entry ∈ shapes.zip vs, ∃ part, entry.1.decode part = .ok entry.2 := by
  obtain ⟨slots, hslots, -, hfill⟩ := readFrom_eq_ok_iff.mp hread
  exact decodes_of_readHead hslots hfill

/-- A head without offsets says of no part that it starts before the end. -/
theorem start_of_fixed (hfixed : ∀ shape ∈ shapes, shape.exactSize?.isSome)
    {length position : Nat} {rest : Bytes} {slots : List Slot}
    (hslots : readHead length position rest (readersOf shapes) = .ok slots) :
    start length slots = length := by
  induction shapes generalizing position rest slots with
  | nil =>
    cases hslots
    rfl
  | cons shape shapes ih =>
    rw [List.forall_mem_cons] at hfixed
    obtain ⟨size, hsize⟩ := Option.isSome_iff_exists.mp hfixed.1
    rw [readersOf_cons, hsize, readHead_fixed] at hslots
    obtain ⟨v, later, -, hlater, rfl⟩ := hslots
    rw [start_filled]
    exact ih hfixed.2 hlater

theorem length_of_readFrom (hfixed : ∀ shape ∈ shapes, shape.exactSize?.isSome)
    {head : Nat} {bs : Bytes} {vs : List Value}
    (hread : readFrom head (readersOf shapes) bs = .ok vs) : bs.length = head := by
  obtain ⟨slots, hslots, hstart, -⟩ := readFrom_eq_ok_iff.mp hread
  rwa [start_of_fixed hfixed hslots] at hstart

end SimpleSerialize.Series
