import SimpleSerialize.Proofs.Blob.Limits
import SimpleSerialize.Proofs.Schema.Records
import SimpleSerialize.Proofs.Wire.Limits

/-!
Types under presets that differ in limits. What is written under lower limits is read as it was
under higher ones, and of what these read the lower ones refuse only what has too many elements
somewhere (`Schema.Faithful.carriesOver`).
-/

namespace SimpleSerialize

/--
Two presets that are fit for use, under the second of which no list has less room; the tree of every
list stays within the levels that a gindex reaches. Blobs have one size under both.
-/
structure Preset.RaisedTo (preset wide : Preset) : Prop where
  usable : preset.defect? = none
  wide_usable : wide.defect? = none
  elements_eq : preset.fieldElementsPerBlob = wide.fieldElementsPerBlob
  commitments_le :
    preset.maxBlobCommitmentsPerBlock.toNat ≤ wide.maxBlobCommitmentsPerBlock.toNat
  bytes_le : preset.maxBytesPerTransaction.toNat ≤ wide.maxBytesPerTransaction.toNat
  transactions_le : preset.maxTransactionsPerPayload.toNat ≤ wide.maxTransactionsPerPayload.toNat
  commitments_fit : wide.maxBlobCommitmentsPerBlock.toNat ≤ 2 ^ (maxDepth - 1)
  transactions_fit : wide.maxTransactionsPerPayload.toNat ≤ 2 ^ (maxDepth - 1)

namespace Schema

variable {α : Type} [Schema α] {preset wide : Preset} {shape shape' : Shape}

/-- A type has a shape under both presets, the same but for limits no lower under the second. -/
structure Widened (α : Type) [Schema α] (preset wide : Preset) (shape shape' : Shape) : Prop where
  shape_eq : Schema.shape α preset = .ok shape
  wide_eq : Schema.shape α wide = .ok shape'
  widens : shape.Widens shape'
  sizesFit : shape.SizesFit
  wide_sizesFit : shape'.SizesFit

/-- Values are written and read under a preset as they are under one with lower limits. -/
structure CarriesOver (α : Type) [Schema α] (preset wide : Preset) : Prop where
  encode : ∀ (a : α) bs, encode preset a = .ok bs → Schema.encode wide a = .ok bs
  decode : ∀ (a : α) bs, decode preset bs = .ok a → Schema.decode wide bs = .ok a
  decode_of_encode : ∀ (a : α) bs, bs.length < wordBound → Schema.encode preset a = .ok bs →
    Schema.decode wide bs = .ok a
  decode_or_limited : ∀ (a : α) bs, Schema.decode wide bs = .ok a →
    Schema.decode preset bs = .ok a ∨
      ∃ count limit, (Schema.decode preset bs : Except _ α) = .error (.tooManyElements count limit)

theorem decode_eq_error {e : DecodeError} {bs : Bytes}
    (hshape : Schema.shape α preset = .ok shape) (herror : shape.decode bs = .error e) :
    (decode preset bs : Except _ α) = .error e := by
  have hsteps : (decode preset bs : Except _ α) = shape.decode bs >>= ofValue preset := by
    rw [decode, hshape]
    rfl
  rw [hsteps, herror]
  rfl

theorem Faithful.carriesOver (hfaithful : Faithful α)
    (hwidened : Widened α preset wide shape shape') : CarriesOver α preset wide := by
  obtain ⟨hshape, hshape', hwidens, -, hsizes'⟩ := hwidened
  have hform := hwidens.keepsForm
  have hencode : ∀ (a : α) bs, encode preset a = .ok bs → encode wide a = .ok bs := by
    intro a bs hencode
    rw [encode_eq_ok_iff hshape] at hencode
    exact (encode_eq_ok_iff hshape').mpr ((hform.encode _).eq_ok hencode)
  refine ⟨hencode, ?_, ?_, ?_⟩
  · intro a bs hdecode
    rw [hfaithful.decode_eq_ok_iff_toValue hshape] at hdecode
    rw [hfaithful.decode_eq_ok_iff_toValue hshape']
    exact (hform.decode bs).eq_ok hdecode
  · intro a bs hmemory hwritten
    have htrips := hfaithful.roundTrips wide shape' hshape' hsizes'
    exact htrips.decode_of_encode a bs hmemory (hencode a bs hwritten)
  · intro a bs hdecode
    rw [hfaithful.decode_eq_ok_iff_toValue hshape'] at hdecode
    rw [hfaithful.decode_eq_ok_iff_toValue hshape]
    obtain hsame | ⟨count, limit, herror⟩ := hform.decode_or_limited hdecode
    · exact .inl hsame
    · exact .inr ⟨count, limit, decode_eq_error hshape herror⟩

theorem widened_limitedList {limit : Preset → UInt64} {element element' : Shape}
    (helement : Widened α preset wide element element') (hscalar : element.scalar? = none)
    (hscalar' : element'.scalar? = none) (hpos : 0 < (limit preset).toNat)
    (hle : (limit preset).toNat ≤ (limit wide).toNat)
    (hdeep : (limit wide).toNat ≤ 2 ^ (maxDepth - 1)) :
    Widened (LimitedList limit α) preset wide (.list element (limit preset).toNat)
      (.list element' (limit wide).toNat) where
  shape_eq := LimitedList.shape_eq_ok_iff.mpr ⟨element, helement.shape_eq,
    (Shape.check_list_eq_ok_iff hscalar).mpr ⟨hpos, Nat.le_trans hle hdeep, rfl⟩⟩
  wide_eq := LimitedList.shape_eq_ok_iff.mpr ⟨element', helement.wide_eq,
    (Shape.check_list_eq_ok_iff hscalar').mpr ⟨Nat.lt_of_lt_of_le hpos hle, hdeep, rfl⟩⟩
  widens := .list helement.widens hle
  sizesFit := Shape.sizesFit_list helement.sizesFit _
  wide_sizesFit := Shape.sizesFit_list helement.wide_sizesFit _

section Raised

open Preset (limitsPos)

variable (hraised : preset.RaisedTo wide)

include hraised

theorem widened_blob :
    Widened Blob preset wide (.byteVector preset.blobSize) (.byteVector wide.blobSize) where
  shape_eq := Preset.shape_blob hraised.usable
  wide_eq := Preset.shape_blob hraised.wide_usable
  widens := by
    rw [Preset.blobSize, hraised.elements_eq]
    exact .byteVector _
  sizesFit := Shape.sizesFit_byteVector (Preset.blobSize_lt hraised.usable)
  wide_sizesFit := Shape.sizesFit_byteVector (Preset.blobSize_lt hraised.wide_usable)

theorem widened_transaction :
    Widened Transaction preset wide (.byteList preset.maxBytesPerTransaction.toNat)
      (.byteList wide.maxBytesPerTransaction.toNat) where
  shape_eq := Preset.shape_transaction hraised.usable
  wide_eq := Preset.shape_transaction hraised.wide_usable
  widens := .byteList hraised.bytes_le
  sizesFit := Shape.sizesFit_byteList _
  wide_sizesFit := Shape.sizesFit_byteList _

omit hraised in
theorem widened_fixedBytes {width : Nat} (hpos : 0 < width) (hlt : width < wordBound) :
    Widened (FixedBytes width) preset wide (.byteVector width) (.byteVector width) where
  shape_eq := Shape.check_byteVector hpos hlt
  wide_eq := Shape.check_byteVector hpos hlt
  widens := .byteVector width
  sizesFit := Shape.sizesFit_byteVector hlt
  wide_sizesFit := Shape.sizesFit_byteVector hlt

/-- Lists with room for one element for each commitment of a block. -/
theorem widened_commitmentList {element element' : Shape}
    (helement : Widened α preset wide element element') (hscalar : element.scalar? = none)
    (hscalar' : element'.scalar? = none) :
    Widened (LimitedList Preset.maxBlobCommitmentsPerBlock α) preset wide
      (.list element preset.maxBlobCommitmentsPerBlock.toNat)
      (.list element' wide.maxBlobCommitmentsPerBlock.toNat) :=
  widened_limitedList helement hscalar hscalar' (limitsPos hraised.usable).commitments
    hraised.commitments_le hraised.commitments_fit

theorem widened_commitments :
    Widened KzgCommitments preset wide (Inclusion.commitmentsShape preset)
      (Inclusion.commitmentsShape wide) :=
  widened_commitmentList hraised (widened_fixedBytes (by decide) (by decide)) rfl rfl

theorem widened_blobs :
    Widened Blobs preset wide (Blobs.listShape preset) (Blobs.listShape wide) :=
  widened_commitmentList hraised (widened_blob hraised) rfl rfl

theorem widened_blobRoots :
    Widened BlobRoots preset wide (Blobs.rootsShape preset) (Blobs.rootsShape wide) :=
  widened_commitmentList hraised (widened_fixedBytes (by decide) (by decide)) rfl rfl

theorem widened_transactions :
    Widened Transactions preset wide
      (.list (.byteList preset.maxBytesPerTransaction.toNat)
        preset.maxTransactionsPerPayload.toNat)
      (.list (.byteList wide.maxBytesPerTransaction.toNat)
        wide.maxTransactionsPerPayload.toNat) :=
  widened_limitedList (widened_transaction hraised) rfl rfl (limitsPos hraised.usable).transactions
    hraised.transactions_le hraised.transactions_fit

omit hraised in
theorem sizesFit_shapeWith (name : String) {third : Shape}
    (hcommitments : (Inclusion.commitmentsShape preset).SizesFit) (hthird : third.SizesFit)
    (hvariable : third.exactSize? = none) : (BlobsBundle.shapeWith preset name third).SizesFit := by
  have hhead : (BlobsBundle.shapeWith preset name third).exactHead = 12 := by
    change 4 + (4 + (third.exactSize?.getD offsetSize + 0)) = 12
    rw [hvariable]
    rfl
  apply Shape.sizesFit_of_variable rfl
  · rw [hhead]
    decide
  · simp [BlobsBundle.shapeWith, hcommitments, hthird]

/-- Bundles differ in their third list only. -/
theorem widened_shapeWith {β : Type} [Schema β] {name : String} {third third' : Shape}
    (hshape : Schema.shape β preset = .ok (BlobsBundle.shapeWith preset name third))
    (hshape' : Schema.shape β wide = .ok (BlobsBundle.shapeWith wide name third'))
    (hthird : Widened α preset wide third third') (hvariable : third.exactSize? = none)
    (hvariable' : third'.exactSize? = none) :
    Widened β preset wide (BlobsBundle.shapeWith preset name third)
      (BlobsBundle.shapeWith wide name third') where
  shape_eq := hshape
  wide_eq := hshape'
  widens := by
    have hcommitments := (widened_commitments hraised).widens
    refine .container rfl ?_
    rintro _ (_ | ⟨_, _ | ⟨_, _ | ⟨_, ⟨⟩⟩⟩⟩)
    · exact hcommitments
    · exact hcommitments
    · exact hthird.widens
  sizesFit :=
    sizesFit_shapeWith name (widened_commitments hraised).sizesFit hthird.sizesFit hvariable
  wide_sizesFit :=
    sizesFit_shapeWith name (widened_commitments hraised).wide_sizesFit hthird.wide_sizesFit
      hvariable'

theorem widened_blobsBundle :
    Widened BlobsBundle preset wide
      (BlobsBundle.shapeWith preset "blobs" (Blobs.listShape preset))
      (BlobsBundle.shapeWith wide "blobs" (Blobs.listShape wide)) := by
  have hblob := widened_blob hraised
  have hroots := widened_blobRoots hraised
  refine widened_shapeWith hraised ?_ ?_ (widened_blobs hraised) rfl rfl
  · exact BlobsBundle.shape_eq_ok_iff.mpr ⟨⟨_, hblob.shape_eq⟩, hroots.shape_eq, rfl⟩
  · exact BlobsBundle.shape_eq_ok_iff.mpr ⟨⟨_, hblob.wide_eq⟩, hroots.wide_eq, rfl⟩

theorem widened_blindedBlobsBundle :
    Widened BlindedBlobsBundle preset wide
      (BlobsBundle.shapeWith preset "blob_roots" (Blobs.rootsShape preset))
      (BlobsBundle.shapeWith wide "blob_roots" (Blobs.rootsShape wide)) := by
  have hroots := widened_blobRoots hraised
  refine widened_shapeWith hraised ?_ ?_ hroots rfl rfl
  · exact BlobsBundle.shape_blinded_eq_ok_iff.mpr ⟨hroots.shape_eq, rfl⟩
  · exact BlobsBundle.shape_blinded_eq_ok_iff.mpr ⟨hroots.wide_eq, rfl⟩

end Raised

/--
Limits leave the form on the wire as it is. Shapes that differ in limits only give every value the
same encoding, as far as both have room for it; and what is read under the wider limits is read as
the same value under the others, if these do not stop at a number of elements. So the types of
lists carry over between presets, as from the minimal one to that of the main network. A sidecar
does not: the number of roots in its proof is a length and no limit.
-/
theorem wider_limits_keep_form :
    (∀ shape wide : Shape, shape.Widens wide →
      shape.fixedSize? = wide.fixedSize? ∧
      (∀ v bs, shape.encode v = .ok bs → wide.encode v = .ok bs) ∧
      (∀ v bs, shape.decode bs = .ok v → wide.decode bs = .ok v) ∧
      (∀ v bs, wide.decode bs = .ok v →
        shape.decode bs = .ok v ∨
          ∃ count limit, shape.decode bs = .error (.tooManyElements count limit))) ∧
    (∀ preset wide : Preset, preset.RaisedTo wide →
      CarriesOver Blob preset wide ∧ CarriesOver Transaction preset wide ∧
      CarriesOver KzgCommitments preset wide ∧ CarriesOver KzgProofs preset wide ∧
      CarriesOver Blobs preset wide ∧ CarriesOver BlobRoots preset wide ∧
      CarriesOver Transactions preset wide ∧ CarriesOver BlobsBundle preset wide ∧
      CarriesOver BlindedBlobsBundle preset wide) ∧
    Preset.minimal.RaisedTo .mainnet := by
  refine ⟨?_, ?_, ?_⟩
  · intro shape wide hwidens
    have hform := hwidens.keepsForm
    refine ⟨hform.size, ?_, ?_, ?_⟩
    · intro v bs hencode
      exact (hform.encode v).eq_ok hencode
    · intro v bs hdecode
      exact (hform.decode bs).eq_ok hdecode
    · intro v bs hdecode
      exact hform.decode_or_limited hdecode
  · intro preset wide hraised
    have hcommitments := widened_commitments hraised
    exact ⟨faithful_blob.carriesOver (widened_blob hraised),
      faithful_transaction.carriesOver (widened_transaction hraised),
      faithful_commitments.carriesOver hcommitments, faithful_proofs.carriesOver hcommitments,
      faithful_blobs.carriesOver (widened_blobs hraised),
      faithful_blobRoots.carriesOver (widened_blobRoots hraised),
      faithful_transactions.carriesOver (widened_transactions hraised),
      faithful_blobsBundle.carriesOver (widened_blobsBundle hraised),
      faithful_blindedBlobsBundle.carriesOver (widened_blindedBlobsBundle hraised)⟩
  · exact ⟨by decide +kernel, by decide +kernel, rfl, by decide, by decide, by decide, by decide,
      by decide⟩

/-- The record of `Shape.record` with more room for its lists. -/
def roomyRecord : Shape :=
  .container [("id", .scalar (.uint .w8)), ("tags", .list (.byteList 8) 4), ("flags", .bitlist 9)]

/-- A tag of five bytes, one more than `Shape.record` lets through. -/
def longTag : Bytes := [5, 9, 0, 0, 0, 18, 0, 0, 0, 4, 0, 0, 0, 1, 2, 3, 4, 5, 13]

theorem wider_limits_keep_form_record :
    Shape.record.Widens roomyRecord ∧
      roomyRecord.decode Shape.recordBytes = .ok Shape.recordValue ∧
      (∃ v, roomyRecord.decode longTag = .ok v ∧
        (Shape.record.decode longTag = .ok v ∨
          ∃ count limit, Shape.record.decode longTag = .error (.tooManyElements count limit))) ∧
      ∃ (bundle : BlobsBundle) (bs : Bytes), bs.length = 108 ∧
        encode .minimal bundle = .ok bs ∧ decode .mainnet bs = .ok bundle := by
  obtain ⟨hshapes, hpresets, hraised⟩ := wider_limits_keep_form
  have hwidens : Shape.record.Widens roomyRecord := by
    refine .container rfl ?_
    rintro _ (_ | ⟨_, _ | ⟨_, _ | ⟨_, ⟨⟩⟩⟩⟩)
    · exact .scalar _
    · exact .list (.byteList (by decide)) (by decide)
    · exact .bitlist (by decide)
  obtain ⟨-, -, hread, hlimited⟩ := hshapes _ _ hwidens
  obtain ⟨-, -, -, -, -, -, -, hbundle, -⟩ := hpresets _ _ hraised
  obtain ⟨v, hv⟩ : ∃ v, roomyRecord.decode longTag = .ok v := ⟨_, rfl⟩
  let bundle : BlobsBundle := ⟨⟨[.ofNat 1]⟩, ⟨[.ofNat 2]⟩, ⟨[]⟩⟩
  obtain ⟨bs, hlength, hencode⟩ : ∃ bs : Bytes, bs.length = 108 ∧
      encode .minimal bundle = .ok bs := ⟨_, rfl, rfl⟩
  have hmemory : bs.length < wordBound := by
    rw [hlength]
    decide
  exact ⟨hwidens, hread _ _ rfl, ⟨v, hv, hlimited _ _ hv⟩, bundle, bs, hlength, hencode,
    hbundle.decode_of_encode _ _ hmemory hencode⟩

end Schema

end SimpleSerialize
