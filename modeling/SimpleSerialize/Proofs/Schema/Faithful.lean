import Mathlib.Data.List.Forall2
import SimpleSerialize.Blob.Commitment
import SimpleSerialize.Blob.Data
import SimpleSerialize.Payload.Transaction
import SimpleSerialize.Proofs.Merkle.Verdict
import SimpleSerialize.Proofs.Schema
import SimpleSerialize.Proofs.Wire.RoundTrip

/-!
Types beside their shapes. A type is faithful when its values are, one for one, the values that its
shape describes (`Schema.Faithful`). What is read against the shape is described by it, so faithful
types inherit the round trips of plain values (`Schema.Faithful.roundTrips`).
-/

namespace SimpleSerialize

namespace SameVerdict

variable {α β : Type} {writing : Except FitError α} {building : Except FitError β} {written : α}

theorem builds_of_writes (hverdict : SameVerdict writing building)
    (hwrites : writing = .ok written) :
    ∃ built, building = .ok built := by
  cases hverdict with
  | accepted _ built => exact ⟨built, rfl⟩
  | refused _ | overflow _ _ | halted _ _ => cases hwrites

end SameVerdict

namespace Shape

variable {shape : Shape} {v : Value} {bs : Bytes}

theorem fits_of_encode (hencode : shape.encode v = .ok bs) : shape.Fits v := by
  obtain ⟨root, hroot⟩ := (sameVerdict .sha256 shape v).builds_of_writes hencode
  exact fits_of_root hroot

theorem mem_zip_replicate {element : Shape} {item : Value} {items : List Value}
    (hitem : item ∈ items) : (element, item) ∈ (List.replicate items.length element).zip items := by
  induction items with
  | nil => cases hitem
  | cons first items ih =>
    rw [List.length_cons, List.replicate_succ, List.zip_cons_cons]
    obtain _ | ⟨_, hitem⟩ := hitem
    · exact List.mem_cons_self
    · exact List.mem_cons_of_mem _ (ih hitem)

/-- Elements of one shape that were read as a series fit if whatever is read against it does. -/
theorem fits_of_readFrom_replicate {element : Shape} {count head : Nat} {items : List Value}
    (hread : Series.readFrom head (Series.readersOf (List.replicate count element)) bs = .ok items)
    (helement : ∀ {part item}, element.decode part = .ok item → element.Fits item) :
    items.length = count ∧ ∀ item ∈ items, element.Fits item := by
  obtain ⟨hcount, hparts⟩ := Series.decodes_of_readFrom hread
  rw [List.length_replicate] at hcount
  refine ⟨hcount, fun item hitem => ?_⟩
  subst hcount
  obtain ⟨part, hpart⟩ := hparts _ (mem_zip_replicate hitem)
  exact helement hpart

/-- Decoding gives values of the shape only. -/
theorem fits_of_decode (hbuilt : shape.Built) (hdecode : shape.decode bs = .ok v) :
    shape.Fits v := by
  induction hbuilt generalizing v bs with
  | @intro shape own hbuiltParts ih =>
    cases shape with
    | scalar kind => exact fits_of_encode (Scalar.encode_eq_ok_iff_decode.mpr hdecode)
    | byteVector length =>
      obtain ⟨rfl, hlength⟩ := decode_byteVector_eq_ok_iff.mp hdecode
      exact .byteVector hlength
    | byteList limit =>
      obtain ⟨rfl, hlimit⟩ := decode_byteList_eq_ok_iff.mp hdecode
      exact .byteList hlimit
    | bitvector length =>
      obtain ⟨bits, rfl, hlength, -⟩ := Wire.readBitvector_eq_ok_iff.mp hdecode
      exact .bitvector hlength
    | bitlist limit =>
      obtain ⟨bits, rfl, hlimit, -⟩ := Wire.readBitlist_eq_ok_iff.mp hdecode
      exact .bitlist hlimit
    | vector element length =>
      obtain ⟨-, -, items, rfl, -, hread⟩ := decode_vector_eq_ok_iff.mp hdecode
      obtain ⟨hlength, hitems⟩ := fits_of_readFrom_replicate hread (ih element (by simp))
      exact .vector hlength hitems
    | list element limit =>
      have hpos := exactHeadSize_pos (hbuiltParts element (by simp))
      obtain ⟨-, items, count, rfl, hlimit, -, hread⟩ := (decode_list_eq_ok_iff hpos).mp hdecode
      obtain ⟨rfl, hitems⟩ := fits_of_readFrom_replicate hread (ih element (by simp))
      exact .list hlimit hitems
    | container fields =>
      obtain ⟨-, -, values, rfl, -, hread⟩ := decode_container_eq_ok_iff.mp hdecode
      obtain ⟨hlength, hparts⟩ := Series.decodes_of_readFrom hread
      rw [List.length_map] at hlength
      refine .container hlength fun entry hentry => ?_
      have hzip : (entry.1.2, entry.2) ∈ (fields.map Prod.snd).zip values := by
        rw [List.zip_map_left]
        exact List.mem_map_of_mem hentry
      obtain ⟨part, hpart⟩ := hparts _ hzip
      exact ih _ (List.mem_map_of_mem (List.of_mem_zip hentry).1) hpart

theorem fits_container_iff {fields : List (String × Shape)} :
    (container fields).Fits v ↔
      ∃ values, v = .container values ∧
        List.Forall₂ (fun field value => field.2.Fits value) fields values := by
  simp only [List.forall₂_iff_zip]
  constructor
  · intro hfits
    cases hfits with
    | container hlength hvalues => exact ⟨_, rfl, hlength.symm, fun hentry => hvalues _ hentry⟩
  · rintro ⟨values, rfl, hlength, hvalues⟩
    exact .container hlength.symm fun entry hentry => hvalues hentry

theorem built_of_check {checked : Shape} (hparts : ∀ part ∈ shape.parts, part.Built)
    (hcheck : shape.check = .ok checked) : checked.Built := by
  obtain rfl := eq_of_check hcheck
  exact .intro hcheck hparts

end Shape

namespace Schema

variable {α : Type} [Schema α] {preset : Preset} {shape : Shape} {a : α} {bs : Bytes}

theorem encode_eq_ok_iff (hshape : Schema.shape α preset = .ok shape) :
    encode preset a = .ok bs ↔ shape.encode (toValue a) = .ok bs := by
  rw [encode, hshape]
  rfl

theorem decode_eq_ok_iff (hshape : Schema.shape α preset = .ok shape) :
    decode preset bs = .ok a ↔ ∃ v, shape.decode bs = .ok v ∧ ofValue preset v = .ok a := by
  rw [decode, hshape, ← bind_eq_ok_iff]
  rfl

/-- The values of a type are those that its shapes describe, and each of these is read as one. -/
structure Faithful (α : Type) [Schema α] : Prop where
  built {preset : Preset} {shape : Shape} : Schema.shape α preset = .ok shape → shape.Built
  toValue_injective {a b : α} : toValue a = toValue b → a = b
  exists_of_fits {preset : Preset} {shape : Shape} {v : Value} :
    Schema.shape α preset = .ok shape → shape.Fits v →
      ∃ a : α, toValue a = v ∧ ofValue preset v = .ok a

/--
Under a preset that gives the type a shape, what a value is written as is read back as the value,
what a value is read from is what the value is written as, and a string is read if the shape reads
it.
-/
structure RoundTrips (α : Type) [Schema α] (preset : Preset) (shape : Shape) : Prop where
  decode_of_encode : ∀ (a : α) (bs : Bytes), bs.length < wordBound →
    encode preset a = .ok bs → decode preset bs = .ok a
  encode_of_decode : ∀ (a : α) (bs : Bytes), bs.length < wordBound →
    decode preset bs = .ok a → encode preset a = .ok bs
  accepts_iff : ∀ bs, (∃ a : α, decode preset bs = .ok a) ↔ ∃ v, shape.decode bs = .ok v

/-- A type round trips under every preset that gives it a shape with sizes that words hold. -/
def AlwaysRoundTrips (α : Type) [Schema α] : Prop :=
  ∀ preset shape, Schema.shape α preset = .ok shape → shape.SizesFit → RoundTrips α preset shape

namespace Faithful

theorem ofValue_eq_ok_iff {v : Value} (hfaithful : Faithful α)
    (hshape : Schema.shape α preset = .ok shape) (hfits : shape.Fits v) :
    ofValue preset v = .ok a ↔ toValue a = v := by
  obtain ⟨b, hb, hread⟩ := hfaithful.exists_of_fits hshape hfits
  rw [hread, Except.ok.injEq, ← hb]
  constructor
  · rintro rfl
    rfl
  · intro hsame
    exact (hfaithful.toValue_injective hsame).symm

/-- A type is read as its shape is: no value is refused or changed on the way to the type. -/
theorem decode_eq_ok_iff_toValue {bs : Bytes} (hfaithful : Faithful α)
    (hshape : Schema.shape α preset = .ok shape) :
    decode preset bs = .ok a ↔ shape.decode bs = .ok (toValue a) := by
  have hbuilt := hfaithful.built hshape
  rw [decode_eq_ok_iff hshape]
  constructor
  · rintro ⟨v, hdecode, hread⟩
    have hfits := Shape.fits_of_decode hbuilt hdecode
    rwa [(hfaithful.ofValue_eq_ok_iff hshape hfits).mp hread]
  · intro hdecode
    have hfits := Shape.fits_of_decode hbuilt hdecode
    exact ⟨_, hdecode, (hfaithful.ofValue_eq_ok_iff hshape hfits).mpr rfl⟩

theorem roundTrips (hfaithful : Faithful α) : AlwaysRoundTrips α := by
  intro preset shape hshape hsizes
  have hbuilt := hfaithful.built hshape
  refine ⟨?_, ?_, ?_⟩
  · intro a bs hmemory hencode
    rw [encode_eq_ok_iff hshape] at hencode
    rw [hfaithful.decode_eq_ok_iff_toValue hshape]
    exact Shape.readsBack hbuilt hsizes _ bs hmemory hencode
  · intro a bs hmemory hdecode
    rw [hfaithful.decode_eq_ok_iff_toValue hshape] at hdecode
    exact (encode_eq_ok_iff hshape).mpr (Shape.writesBack hbuilt _ bs hmemory hdecode)
  · intro bs
    simp only [decode_eq_ok_iff hshape]
    constructor
    · rintro ⟨a, v, hdecode, -⟩
      exact ⟨v, hdecode⟩
    · rintro ⟨v, hdecode⟩
      have hfits := Shape.fits_of_decode hbuilt hdecode
      obtain ⟨a, -, hread⟩ := hfaithful.exists_of_fits hshape hfits
      exact ⟨a, v, hdecode, hread⟩

end Faithful

section Numbers

theorem built_scalar (kind : Scalar) : (Shape.scalar kind).Built := by
  cases kind with
  | bool => decide
  | uint width => cases width <;> decide

theorem faithful_bool : Faithful Bool where
  built hshape := by
    cases hshape
    exact built_scalar _
  toValue_injective := Value.bool.inj
  exists_of_fits hshape hfits := by
    cases hshape
    cases hfits with
    | bool b => exact ⟨b, rfl, rfl⟩

/-- Numbers of a width are words of as many bits. -/
theorem faithful_of_width (width : UIntWidth) (toWord : α → BitVec width.bits)
    (ofWord : BitVec width.bits → α) (hword : ∀ n, toWord (ofWord n) = n)
    (hnumber : ∀ a, ofWord (toWord a) = a)
    (hshape : ∀ preset, Schema.shape α preset = .ok (.scalar (.uint width)))
    (htoValue : ∀ a : α, toValue a = .uint width (toWord a))
    (hofValue : ∀ preset v, (ofValue preset v : Except DecodeError α)
      = (v.toUInt width).map ofWord) : Faithful α where
  built hchecked := by
    rw [hshape] at hchecked
    cases hchecked
    exact built_scalar _
  toValue_injective {a b} hsame := by
    rw [htoValue, htoValue, Value.uint_eq_iff] at hsame
    rw [← hnumber a, ← hnumber b, BitVec.eq_of_toNat_eq hsame.2]
  exists_of_fits hchecked hfits := by
    rw [hshape] at hchecked
    cases hchecked
    cases hfits with
    | uint _ n =>
      refine ⟨ofWord n, ?_, ?_⟩
      · rw [htoValue, hword]
      · simp [hofValue, Value.toUInt, Except.map]

theorem faithful_uint8 : Faithful UInt8 :=
  faithful_of_width .w8 UInt8.toBitVec UInt8.ofBitVec (fun _ => rfl) (fun _ => rfl)
    (fun _ => rfl) (fun _ => rfl) fun _ _ => rfl

theorem faithful_uint16 : Faithful UInt16 :=
  faithful_of_width .w16 UInt16.toBitVec UInt16.ofBitVec (fun _ => rfl) (fun _ => rfl)
    (fun _ => rfl) (fun _ => rfl) fun _ _ => rfl

theorem faithful_uint32 : Faithful UInt32 :=
  faithful_of_width .w32 UInt32.toBitVec UInt32.ofBitVec (fun _ => rfl) (fun _ => rfl)
    (fun _ => rfl) (fun _ => rfl) fun _ _ => rfl

theorem faithful_uint64 : Faithful UInt64 :=
  faithful_of_width .w64 UInt64.toBitVec UInt64.ofBitVec (fun _ => rfl) (fun _ => rfl)
    (fun _ => rfl) (fun _ => rfl) fun _ _ => rfl

end Numbers

section Bytes

theorem built_of_check_leaf {checked : Shape} (hleaf : shape.parts = [])
    (hcheck : shape.check = .ok checked) : checked.Built := by
  refine Shape.built_of_check ?_ hcheck
  rw [hleaf]
  exact List.forall_mem_nil _

theorem faithful_fixedBytes (width : Nat) : Faithful (FixedBytes width) where
  built hshape := built_of_check_leaf rfl hshape
  toValue_injective hsame := FixedBytes.ext (Value.bytes.inj hsame)
  exists_of_fits hshape hfits := by
    obtain rfl := Shape.eq_of_check hshape
    cases hfits with
    | @byteVector _ bs hlength =>
      have hread : FixedBytes.ofList? bs = some ⟨bs, hlength⟩ :=
        FixedBytes.ofList?_eq_some_iff.mpr rfl
      refine ⟨⟨bs, hlength⟩, rfl, ?_⟩
      change Value.toFixedBytes width (.bytes bs) = _
      simp only [Value.toFixedBytes, Value.toBytes, hread]

theorem faithful_blob : Faithful Blob where
  built hshape := built_of_check_leaf rfl hshape
  toValue_injective hsame := congrArg Blob.mk (Value.bytes.inj hsame)
  exists_of_fits hshape hfits := by
    obtain rfl := Shape.eq_of_check hshape
    cases hfits with
    | @byteVector _ bs _ => exact ⟨⟨bs⟩, rfl, rfl⟩

theorem faithful_transaction : Faithful Transaction where
  built hshape := built_of_check_leaf rfl hshape
  toValue_injective hsame := congrArg Transaction.mk (Value.bytes.inj hsame)
  exists_of_fits hshape hfits := by
    obtain rfl := Shape.eq_of_check hshape
    cases hfits with
    | @byteList _ bs _ => exact ⟨⟨bs⟩, rfl, rfl⟩

end Bytes

section Lists

/-- Values that fit the shape of a type, one behind the other, are read one by one. -/
theorem Faithful.exists_of_all_fit {items : List Value} (hfaithful : Faithful α)
    (hshape : Schema.shape α preset = .ok shape) (hfits : ∀ item ∈ items, shape.Fits item) :
    ∃ as : List α, as.map toValue = items ∧ items.mapM (ofValue preset) = .ok as := by
  induction items with
  | nil => exact ⟨[], rfl, rfl⟩
  | cons item items ih =>
    rw [List.forall_mem_cons] at hfits
    obtain ⟨a, rfl, hread⟩ := hfaithful.exists_of_fits hshape hfits.1
    obtain ⟨as, rfl, hrest⟩ := ih hfits.2
    refine ⟨a :: as, rfl, ?_⟩
    rw [List.mapM_cons, hread, hrest]
    rfl

/-- The limit is checked again on the way from the value, and what fits the shape keeps to it. -/
theorem ofValue_limitedList {limit : Preset → UInt64} {items : List Value}
    {as : List α} (hlimit : items.length ≤ (limit preset).toNat)
    (hread : items.mapM (ofValue preset) = .ok as) :
    (ofValue preset (.list items) : Except DecodeError (LimitedList limit α)) = .ok ⟨as⟩ := by
  have hsteps : (ofValue preset (.list items) : Except DecodeError (LimitedList limit α)) = (do
      requireCount (limit preset).toNat items.length
      return ⟨← items.mapM (ofValue preset)⟩) := rfl
  rw [hsteps, requireCount, if_pos hlimit, hread]
  rfl

theorem faithful_limitedList {limit : Preset → UInt64} (hfaithful : Faithful α) :
    Faithful (LimitedList limit α) where
  built hshape := by
    obtain ⟨element, helement, hcheck⟩ := LimitedList.shape_eq_ok_iff.mp hshape
    refine Shape.built_of_check ?_ hcheck
    simpa using hfaithful.built helement
  toValue_injective {as bs} hsame := by
    have hinj : Function.Injective (toValue : α → Value) := fun _ _ => hfaithful.toValue_injective
    have hitems : as.items = bs.items := hinj.list_map (Value.list.inj hsame)
    rw [LimitedList.mk.injEq, hitems]
  exists_of_fits {preset _ _} hshape hfits := by
    obtain ⟨element, helement, hcheck⟩ := LimitedList.shape_eq_ok_iff.mp hshape
    obtain rfl := Shape.eq_of_check hcheck
    cases hfits with
    | @list _ _ items hlimit hitems =>
      obtain ⟨as, rfl, hread⟩ := hfaithful.exists_of_all_fit helement hitems
      exact ⟨⟨as⟩, rfl, ofValue_limitedList hlimit hread⟩

end Lists

end Schema

end SimpleSerialize
