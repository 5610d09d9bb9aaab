import SimpleSerialize.Proofs.Schema.Faithful
import SimpleSerialize.Proofs.Wire.AnnouncedSize

/-!
What sizing looks at. A part of fixed size is passed over, so a value that nothing can be written of
may have a size all the same. What is left of a value then has zeros in place of such parts
(`Shape.outline`), and there is a size exactly if that much fits the shape
(`Shape.sizedAsOutlined`).
-/

namespace SimpleSerialize

namespace Shape

variable {shape element : Shape} {fields : List (String × Shape)} {length limit : Nat}
  {v : Value} {bs : Bytes} {items values : List Value}

/-! ### Values that fit, from their parts -/

theorem fits_byteList_iff : (byteList limit).Fits (.bytes bs) ↔ bs.length ≤ limit :=
  ⟨fun (.byteList hlimit) => hlimit, .byteList⟩

theorem fits_bitlist_iff {bits : List Bool} :
    (bitlist limit).Fits (.bits bits) ↔ bits.length ≤ limit :=
  ⟨fun (.bitlist hlimit) => hlimit, .bitlist⟩

theorem fits_vector_iff :
    (vector element length).Fits (.vector items) ↔
      items.length = length ∧ ∀ item ∈ items, element.Fits item := by
  constructor
  · rintro (_ | _)
    exact ⟨‹_›, ‹_›⟩
  · rintro ⟨hlength, hitems⟩
    exact .vector hlength hitems

theorem fits_list_iff :
    (list element limit).Fits (.list items) ↔
      items.length ≤ limit ∧ ∀ item ∈ items, element.Fits item := by
  constructor
  · rintro (_ | _)
    exact ⟨‹_›, ‹_›⟩
  · rintro ⟨hlimit, hitems⟩
    exact .list hlimit hitems

theorem fits_fields_iff :
    (container fields).Fits (.container values) ↔
      values.length = fields.length ∧ ∀ entry ∈ fields.zip values, entry.1.2.Fits entry.2 := by
  constructor
  · rintro (_ | _)
    exact ⟨‹_›, ‹_›⟩
  · rintro ⟨hlength, hvalues⟩
    exact .container hlength hvalues

theorem fits_zeroFor (shape : Shape) : shape.Fits (.zeroFor shape) := by
  induction shape using induction_on_parts with
  | step shape ih =>
    cases shape with
    | scalar kind =>
      cases kind with
      | bool => exact .bool false
      | uint width => exact .uint width 0
    | byteVector length => exact .byteVector List.length_replicate
    | byteList limit => exact .byteList (Nat.zero_le limit)
    | bitvector length => exact .bitvector List.length_replicate
    | bitlist limit => exact .bitlist (Nat.zero_le limit)
    | vector element length =>
      refine .vector List.length_replicate ?_
      intro item hitem
      rw [List.eq_of_mem_replicate hitem]
      exact ih element (by simp)
    | list element limit => exact .list (Nat.zero_le limit) (List.forall_mem_nil _)
    | container fields =>
      refine fits_container_iff.mpr ⟨_, rfl, ?_⟩
      rw [Value.zerosFor_eq_map, List.forall₂_map_right_iff, List.forall₂_same]
      intro field hfield
      exact ih field.2 (List.mem_map_of_mem hfield)

/-! ### What is looked at -/

/-- A value whose size the shape does not give, and zeros for any other. -/
def zeroedIfFixed (shape : Shape) (v : Value) : Value :=
  if shape.exactSize?.isSome then .zeroFor shape else v

mutual

/-- The value with zeros in place of each part of fixed size. -/
def outline : Shape → Value → Value
  | shape@(vector element _), .vector items =>
    shape.zeroedIfFixed (.vector (items.map fun item => element.outline item))
  | shape@(list element _), .list items =>
    shape.zeroedIfFixed (.list (items.map fun item => element.outline item))
  | shape@(container fields), .container values =>
    shape.zeroedIfFixed (.container (outlineFields fields values))
  | shape, v => shape.zeroedIfFixed v

def outlineFields : List (String × Shape) → List Value → List Value
  | (_, shape) :: fields, v :: values => shape.outline v :: outlineFields fields values
  | _, values => values

end

theorem zeroedIfFixed_of_fixed {size : Nat} (hfixed : shape.exactSize? = some size) (v : Value) :
    shape.zeroedIfFixed v = .zeroFor shape := by
  rw [zeroedIfFixed, hfixed, Option.isSome_some, if_pos rfl]

theorem zeroedIfFixed_of_variable (hvariable : shape.exactSize? = none) (v : Value) :
    shape.zeroedIfFixed v = v := by
  rw [zeroedIfFixed, hvariable, Option.isSome_none]
  rfl

theorem outline_of_fixed {size : Nat} (hfixed : shape.exactSize? = some size) (v : Value) :
    shape.outline v = .zeroFor shape := by
  have hzeroed := zeroedIfFixed_of_fixed hfixed
  cases shape <;> cases v <;> simp only [outline, hzeroed]

theorem length_outlineFields (fields : List (String × Shape)) (values : List Value) :
    (outlineFields fields values).length = values.length := by
  induction fields generalizing values with
  | nil => simp [outlineFields]
  | cons field fields ih =>
    cases values with
    | nil => simp [outlineFields]
    | cons v values => rw [outlineFields, List.length_cons, List.length_cons, ih]

theorem zip_outlineFields (fields : List (String × Shape)) (values : List Value) :
    fields.zip (outlineFields fields values)
      = (fields.zip values).map fun entry => (entry.1, entry.1.2.outline entry.2) := by
  induction fields generalizing values with
  | nil => simp [outlineFields]
  | cons field fields ih =>
    cases values with
    | nil => simp [outlineFields]
    | cons v values =>
      rw [outlineFields, List.zip_cons_cons, List.zip_cons_cons, List.map_cons, ih]

/-! ### When there is a size -/

/-- A computation that may come to a halt, but returns no error. -/
def OnlyHalts {α : Type} (x : Except FitError α) : Prop :=
  ∀ e, x = .error e → ∃ halt, e = .halted halt

section OnlyHalts

variable {α β : Type} {x : Except FitError α} {f : α → Except FitError β}

theorem onlyHalts_ok (a : α) : OnlyHalts (.ok a) := nofun

theorem onlyHalts_mapError (x : Except Halt α) : OnlyHalts (x.mapError .halted) := by
  cases x with
  | ok a => exact onlyHalts_ok a
  | error halt =>
    rintro _ ⟨⟩
    exact ⟨halt, rfl⟩

theorem OnlyHalts.bind (hfirst : OnlyHalts x) (hrest : ∀ a, x = .ok a → OnlyHalts (f a)) :
    OnlyHalts (x >>= f) := by
  intro e herror
  obtain hstop | ⟨a, ha, hstop⟩ := bind_eq_error_iff.mp herror
  · exact hfirst e hstop
  · exact hrest a ha e hstop

theorem onlyHalts_sumSizes {sizes : List (Except FitError Nat)}
    (hsizes : ∀ size ∈ sizes, OnlyHalts size) (sum : Nat) : OnlyHalts (sumSizes sum sizes) := by
  induction sizes generalizing sum with
  | nil => exact onlyHalts_ok sum
  | cons size sizes ih =>
    rw [List.forall_mem_cons] at hsizes
    rw [sumSizes]
    apply hsizes.1.bind
    intro n _
    apply (onlyHalts_mapError _).bind
    intro sum _
    exact ih hsizes.2 sum

end OnlyHalts

theorem exists_size_of_sumSizes {α : Type} {size : α → Except FitError Nat} {xs : List α}
    {sum n : Nat} (hsum : sumSizes sum (xs.map size) = .ok n) : ∀ x ∈ xs, ∃ m, size x = .ok m := by
  induction xs generalizing sum with
  | nil => exact List.forall_mem_nil _
  | cons x xs ih =>
    rw [List.map_cons, sumSizes, bind_eq_ok_iff] at hsum
    obtain ⟨m, hm, hsum⟩ := hsum
    obtain ⟨next, -, hrest⟩ := bind_eq_ok_iff.mp hsum
    rw [List.forall_mem_cons]
    exact ⟨⟨m, hm⟩, ih hrest⟩

/-- There is a size of a value only if what is looked at of it fits, and then no error either. -/
structure SizedAsOutlined (shape : Shape) (v : Value) : Prop where
  fits_of_size : ∀ n, shape.encodedSize v = .ok n → shape.Fits (shape.outline v)
  onlyHalts : shape.Fits (shape.outline v) → OnlyHalts (shape.encodedSize v)

theorem sizeWithout_congr {size : Nat} (hfixed : shape.exactSize? = some size) (v v' : Value) :
    shape.sizeWithout v = shape.sizeWithout v' := by
  unfold sizeWithout
  cases hsize : shape.fixedSize? with
  | error halt => rfl
  | ok size? =>
    obtain rfl : some size = size? := hfixed.symm.trans (exactSize?_of_fixedSize? hsize)
    rfl

theorem onlyHalts_sizeWithout {size : Nat} (hfixed : shape.exactSize? = some size) (v : Value) :
    OnlyHalts (shape.sizeWithout v) := by
  apply (onlyHalts_mapError _).bind
  intro size? hsize
  obtain rfl : some size = size? :=
    hfixed.symm.trans (exactSize?_of_fixedSize? (mapError_eq_ok_iff.mp hsize))
  exact onlyHalts_ok size

/-- Of a value of fixed size only the shape is looked at. -/
theorem encodedSize_of_exact {size : Nat} (hfixed : shape.exactSize? = some size) (v : Value) :
    shape.encodedSize v = shape.sizeWithout v := by
  cases shape with
  | scalar _ | byteVector _ | bitvector _ => simp only [encodedSize]
  | byteList _ | bitlist _ | list _ _ => cases hfixed
  | vector element length =>
    obtain ⟨own, helement, -⟩ := Option.map_eq_some_iff.mp hfixed
    cases v with
    | vector items =>
      rw [encodedSize, isFixed]
      cases hown : element.fixedSize? with
      | error halt => rw [sizeWithout, fixedSize?, hown]; rfl
      | ok own? =>
        obtain rfl : some own = own? := helement.symm.trans (exactSize?_of_fixedSize? hown)
        rfl
    | _ => simp only [encodedSize]
  | container fields =>
    cases v with
    | container values =>
      rw [encodedSize, isFixed]
      cases hown : (container fields).fixedSize? with
      | error halt => rw [sizeWithout, hown]; rfl
      | ok size? =>
        obtain rfl : some size = size? := hfixed.symm.trans (exactSize?_of_fixedSize? hown)
        rfl
    | _ => simp only [encodedSize]

theorem sizedAsOutlined_of_fixed {size : Nat} (hfixed : shape.exactSize? = some size) (v : Value) :
    shape.SizedAsOutlined v where
  fits_of_size _ _ := by
    rw [outline_of_fixed hfixed]
    exact fits_zeroFor shape
  onlyHalts _ := by
    rw [encodedSize_of_exact hfixed]
    exact onlyHalts_sizeWithout hfixed v

/-- A value of another kind than that of its shape. -/
theorem sizedAsOutlined_of_misfit (hvariable : shape.exactSize? = none)
    (hsize : shape.encodedSize v = shape.sizeWithout v)
    (houtline : shape.outline v = shape.zeroedIfFixed v) (hmisfit : ¬shape.Fits v) :
    shape.SizedAsOutlined v where
  fits_of_size n hn := by
    rw [hsize] at hn
    obtain ⟨size?, hown, hn⟩ := bind_eq_ok_iff.mp hn
    obtain rfl : none = size? :=
      hvariable.symm.trans (exactSize?_of_fixedSize? (mapError_eq_ok_iff.mp hown))
    cases hn
  onlyHalts hfits := by
    rw [houtline, zeroedIfFixed_of_variable hvariable] at hfits
    exact absurd hfits hmisfit

/-- Bytes and bits, as many as they are allowed. -/
theorem sizedAsOutlined_of_capacity {limit count size : Nat}
    (hfits : shape.Fits v ↔ count ≤ limit) (houtline : shape.outline v = v)
    (hsteps : shape.encodedSize v = requireCapacity limit count >>= fun _ => pure size) :
    shape.SizedAsOutlined v where
  fits_of_size n hn := by
    rw [hsteps] at hn
    obtain ⟨_, hlimit, -⟩ := bind_eq_ok_iff.mp hn
    rw [houtline, hfits]
    exact requireCapacity_eq_ok_iff.mp hlimit
  onlyHalts hfits' := by
    rw [houtline, hfits] at hfits'
    rw [hsteps, requireCapacity, if_pos hfits']
    exact onlyHalts_ok size

/-- A part adds to the size of a series wherever what is looked at of it fits. -/
theorem onlyHalts_entrySize (hsized : shape.SizedAsOutlined v)
    (hfits : shape.Fits (shape.outline v)) :
    OnlyHalts (entrySize shape.fixedSize? (shape.encodedSize v)) := by
  apply (onlyHalts_mapError _).bind
  intro size? _
  cases size? with
  | some size => exact onlyHalts_ok size
  | none =>
    apply (hsized.onlyHalts hfits).bind
    intro n _
    exact onlyHalts_mapError _

theorem fits_of_entrySize (hsized : shape.SizedAsOutlined v) {n : Nat}
    (hsize : entrySize shape.fixedSize? (shape.encodedSize v) = .ok n) :
    shape.Fits (shape.outline v) := by
  obtain ⟨size?, hown, hsize⟩ := bind_eq_ok_iff.mp hsize
  cases size? with
  | some size =>
    rw [outline_of_fixed (exactSize?_of_fixedSize? (mapError_eq_ok_iff.mp hown))]
    exact fits_zeroFor shape
  | none =>
    obtain ⟨n, hn, -⟩ := bind_eq_ok_iff.mp hsize
    exact hsized.fits_of_size n hn

section Series

variable {α : Type} {part : α → Shape} {value : α → Value} {xs : List α}
  (hparts : ∀ x ∈ xs, (part x).SizedAsOutlined (value x))

include hparts

theorem onlyHalts_series (hfits : ∀ x ∈ xs, (part x).Fits ((part x).outline (value x))) :
    OnlyHalts (sumSizes 0 (xs.map fun x =>
      entrySize (part x).fixedSize? ((part x).encodedSize (value x)))) := by
  apply onlyHalts_sumSizes
  rw [List.forall_mem_map]
  intro x hx
  exact onlyHalts_entrySize (hparts x hx) (hfits x hx)

theorem fits_of_series {n : Nat}
    (hsize : sumSizes 0 (xs.map fun x =>
      entrySize (part x).fixedSize? ((part x).encodedSize (value x))) = .ok n) :
    ∀ x ∈ xs, (part x).Fits ((part x).outline (value x)) := by
  intro x hx
  obtain ⟨m, hm⟩ := exists_size_of_sumSizes hsize x hx
  exact fits_of_entrySize (hparts x hx) hm

/-- Values with as many parts as they are allowed, which are sized part by part. -/
theorem sizedAsOutlined_of_series {β : Type} {first : Except Halt β}
    {require : Except FitError Unit} {allowed : Prop} (hrequire : require = .ok () ↔ allowed)
    (hsteps : shape.encodedSize v = first.mapError .halted >>= fun _ => require >>= fun _ =>
      sumSizes 0 (xs.map fun x => entrySize (part x).fixedSize? ((part x).encodedSize (value x))))
    (houtline : shape.Fits (shape.outline v) ↔
      allowed ∧ ∀ x ∈ xs, (part x).Fits ((part x).outline (value x))) :
    shape.SizedAsOutlined v where
  fits_of_size n hn := by
    rw [hsteps] at hn
    obtain ⟨_, -, hn⟩ := bind_eq_ok_iff.mp hn
    obtain ⟨_, hallowed, hn⟩ := bind_eq_ok_iff.mp hn
    exact houtline.mpr ⟨hrequire.mp hallowed, fits_of_series hparts hn⟩
  onlyHalts hfits := by
    obtain ⟨hallowed, hfits⟩ := houtline.mp hfits
    rw [hsteps, hrequire.mpr hallowed]
    apply (onlyHalts_mapError _).bind
    intro _ _
    exact onlyHalts_series hparts hfits

end Series

/--
Whatever is of fixed size has zeros in its place, and these fit. Lists, and vectors and containers
of other sizes, are looked into as far as they are written, part by part.
-/
theorem sizedAsOutlined (shape : Shape) (v : Value) : shape.SizedAsOutlined v := by
  induction shape using induction_on_parts generalizing v with
  | step shape ih =>
    cases hfixed : shape.exactSize? with
    | some size => exact sizedAsOutlined_of_fixed hfixed v
    | none =>
      have hkept := zeroedIfFixed_of_variable hfixed
      cases shape with
      | scalar _ | byteVector _ | bitvector _ => cases hfixed
      | byteList limit =>
        cases v with
        | bytes bs => exact sizedAsOutlined_of_capacity fits_byteList_iff rfl rfl
        | _ => exact sizedAsOutlined_of_misfit hfixed rfl rfl (by rintro ⟨⟩)
      | bitlist limit =>
        cases v with
        | bits bits => exact sizedAsOutlined_of_capacity fits_bitlist_iff rfl rfl
        | _ => exact sizedAsOutlined_of_misfit hfixed rfl rfl (by rintro ⟨⟩)
      | vector element length =>
        cases v with
        | vector items =>
          refine sizedAsOutlined_of_series (fun item _ => ih element (by simp) item)
            requireLength_eq_ok_iff
            (encodedSize_vector (Option.map_eq_none_iff.mp hfixed) items) ?_
          rw [outline, hkept, fits_vector_iff, List.length_map, List.forall_mem_map]
        | _ =>
          exact sizedAsOutlined_of_misfit hfixed (by simp only [encodedSize]) rfl (by rintro ⟨⟩)
      | list element limit =>
        cases v with
        | list items =>
          have hsteps : (list element limit).encodedSize (.list items)
              = (Except.ok () : Except Halt Unit).mapError .halted >>= fun _ =>
                  requireCapacity limit items.length >>= fun _ =>
                    sumSizes 0 (items.map fun item =>
                      entrySize element.fixedSize? (element.encodedSize item)) := by
            rw [encodedSize]
            rfl
          refine sizedAsOutlined_of_series (fun item _ => ih element (by simp) item)
            requireCapacity_eq_ok_iff hsteps ?_
          rw [outline, hkept, fits_list_iff, List.length_map, List.forall_mem_map]
        | _ => exact sizedAsOutlined_of_misfit hfixed rfl rfl (by rintro ⟨⟩)
      | container fields =>
        cases v with
        | container values =>
          have hpart (entry : (String × Shape) × Value) (hentry : entry ∈ fields.zip values) :
              entry.1.2 ∈ (container fields).parts :=
            List.mem_map_of_mem (List.of_mem_zip hentry).1
          refine sizedAsOutlined_of_series (fun entry hentry => ih _ (hpart entry hentry) entry.2)
            requireLength_eq_ok_iff (encodedSize_container hfixed values) ?_
          rw [outline, hkept, fits_fields_iff, length_outlineFields, zip_outlineFields,
            List.forall_mem_map]
        | _ =>
          exact sizedAsOutlined_of_misfit hfixed (by simp only [encodedSize]) rfl (by rintro ⟨⟩)

/-- Sizing does not tell a value from what it looks at. -/
theorem encodedSize_outline (shape : Shape) (v : Value) :
    shape.encodedSize (shape.outline v) = shape.encodedSize v := by
  induction shape using induction_on_parts generalizing v with
  | step shape ih =>
    cases hfixed : shape.exactSize? with
    | some size =>
      rw [encodedSize_of_exact hfixed, encodedSize_of_exact hfixed]
      exact sizeWithout_congr hfixed _ _
    | none =>
      have hkept := zeroedIfFixed_of_variable hfixed
      cases shape with
      | vector element length =>
        have helement : element.exactSize? = none := Option.map_eq_none_iff.mp hfixed
        cases v with
        | vector items =>
          rw [outline, hkept, encodedSize_vector helement, encodedSize_vector helement,
            List.length_map, List.map_map]
          simp only [Function.comp_def, ih element (by simp)]
        | _ => simp only [outline, hkept]
      | list element limit =>
        cases v with
        | list items =>
          rw [outline, hkept, encodedSize, encodedSize, List.length_map, List.map_map]
          simp only [Function.comp_def, ih element (by simp)]
        | _ => simp only [outline, hkept]
      | container fields =>
        cases v with
        | container values =>
          have hentries : ((fields.zip values).map fun entry =>
              entrySize entry.1.2.fixedSize?
                (entry.1.2.encodedSize (entry.1.2.outline entry.2)))
                = (fields.zip values).map fun entry =>
                  entrySize entry.1.2.fixedSize? (entry.1.2.encodedSize entry.2) := by
            apply List.map_congr_left
            intro entry hentry
            rw [ih _ (List.mem_map_of_mem (List.of_mem_zip hentry).1)]
          rw [outline, hkept, encodedSize_container hfixed, encodedSize_container hfixed,
            length_outlineFields, zip_outlineFields, List.map_map, ← hentries]
          rfl
        | _ => simp only [outline, hkept]
      | _ => cases v <;> simp only [outline, hkept]

/-! ### Values that cannot be written -/

/-- What keeps a value from fitting its shape lies in parts of fixed size. -/
def OnlyFixedPartsAmiss (shape : Shape) (v : Value) : Prop :=
  ¬shape.Fits v ∧ shape.Fits (shape.outline v)

/-- A value that fits can be written, unless it is too large for an offset or for its head. -/
theorem overflow_or_halted_of_encode_eq_error {e : FitError} (hfits : shape.Fits v)
    (hencode : shape.encode v = .error e) :
    (∃ offset, e = .offsetOverflow offset) ∨ ∃ halt, e = .halted halt := by
  have hverdict := sameVerdict .sha256 shape v
  rw [hencode] at hverdict
  obtain ⟨written, ⟨⟩⟩ | ⟨offset, ⟨⟩⟩ | ⟨halt, ⟨⟩⟩ :=
    hverdict.writes_of_builds (root_eq_plainRoot hfits)
  · exact .inl ⟨offset, rfl⟩
  · exact .inr ⟨halt, rfl⟩

/-- The error is one that a value is refused with. -/
structure Refuses (e : FitError) : Prop where
  not_overflow : ∀ offset, e ≠ .offsetOverflow offset
  not_halted : ∀ halt, e ≠ .halted halt

theorem unsized_or_amiss {e : FitError} (hrefuses : Refuses e)
    (hencode : shape.encode v = .error e) :
    (∃ e', shape.encodedSize v = .error e') ∨ shape.OnlyFixedPartsAmiss v := by
  cases hsize : shape.encodedSize v with
  | error e' => exact .inl ⟨e', rfl⟩
  | ok n =>
    refine .inr ⟨fun hfits => ?_, (sizedAsOutlined shape v).fits_of_size n hsize⟩
    obtain ⟨offset, hoverflow⟩ | ⟨halt, hhalts⟩ :=
      overflow_or_halted_of_encode_eq_error hfits hencode
    · exact hrefuses.not_overflow offset hoverflow
    · exact hrefuses.not_halted halt hhalts

theorem exists_error_of_amiss (hamiss : shape.OnlyFixedPartsAmiss v) :
    ∃ e, shape.encode v = .error e := by
  cases hencode : shape.encode v with
  | error e => exact ⟨e, rfl⟩
  | ok bs => exact absurd (fits_of_encode hencode) hamiss.1

/--
A value that is refused when it is written has no size either, unless all that is wrong with it lies
in parts of fixed size. Such a value is never written, and never refused a size: where memory holds
what is written with zeros in those parts, the size is the length of that. Of a value that can be
written the size is the length of what is written. Values of a type go by the shape of the type.
-/
theorem refused_is_unsized_or_amiss (shape : Shape) (v : Value) :
    (∀ e, Refuses e → shape.encode v = .error e →
      (∃ e', shape.encodedSize v = .error e') ∨ shape.OnlyFixedPartsAmiss v) ∧
    (shape.OnlyFixedPartsAmiss v →
      (∃ e, shape.encode v = .error e) ∧ OnlyHalts (shape.encodedSize v) ∧
        ∀ bs, shape.Built → bs.length < wordBound → shape.encode (shape.outline v) = .ok bs →
          shape.encodedSize v = .ok bs.length) ∧
    (∀ bs, shape.Built → bs.length < wordBound →
      shape.encode v = .ok bs → shape.encodedSize v = .ok bs.length) ∧
    ∀ (α : Type) [Schema α] (preset : Preset) (a : α) (e : FitError), Refuses e →
      Schema.encode preset a = .error e →
        (∃ e', Schema.encodedSize preset a = .error e') ∨
          ∃ own, Schema.shape α preset = .ok own ∧
            own.OnlyFixedPartsAmiss (Schema.toValue a) := by
  refine ⟨fun e => unsized_or_amiss, ?_, fun bs hbuilt => announces hbuilt v bs, ?_⟩
  · intro hamiss
    refine ⟨exists_error_of_amiss hamiss, (sizedAsOutlined shape v).onlyHalts hamiss.2, ?_⟩
    intro bs hbuilt hmemory hencode
    rw [← encodedSize_outline]
    exact announces hbuilt _ bs hmemory hencode
  · intro α _ preset a e hrefuses hencode
    cases hown : Schema.shape α preset with
    | error e' =>
      left
      rw [Schema.encodedSize, hown]
      exact ⟨_, rfl⟩
    | ok own =>
      rw [Schema.encode, hown] at hencode
      rw [Schema.encodedSize, hown]
      obtain hunsized | hamiss := unsized_or_amiss hrefuses hencode
      · exact .inl hunsized
      · exact .inr ⟨own, rfl, hamiss⟩

/-- A root that lacks a byte is amiss in nothing but a part of fixed size, itself. -/
theorem refused_is_unsized_or_amiss_short_root :
    bytes32.encode (.bytes (List.replicate 31 0)) = .error (.lengthMismatch 32 31) ∧
      bytes32.OnlyFixedPartsAmiss (.bytes (List.replicate 31 0)) ∧
      bytes32.encodedSize (.bytes (List.replicate 31 0)) = .ok 32 := by
  have hencode : bytes32.encode (.bytes (List.replicate 31 0))
      = .error (.lengthMismatch 32 31) := rfl
  have hrefuses : Refuses (.lengthMismatch 32 31) := ⟨nofun, nofun⟩
  have hsize : bytes32.encodedSize (.bytes (List.replicate 31 0)) = .ok 32 := rfl
  obtain ⟨hrefused, hamiss, -, -⟩ :=
    refused_is_unsized_or_amiss bytes32 (.bytes (List.replicate 31 0))
  obtain ⟨e, hunsized⟩ | hshort := hrefused _ hrefuses hencode
  · rw [hsize] at hunsized
    cases hunsized
  · obtain ⟨-, -, hlength⟩ := hamiss hshort
    exact ⟨hencode, hshort, hlength (List.replicate 32 0) (by decide) (by decide) rfl⟩

/-- A root that lacks a byte, and an empty blob, have the size of whole ones. -/
theorem short_values_have_size :
    bytes32.encode (.bytes (List.replicate 31 0)) = .error (.lengthMismatch 32 31) ∧
      bytes32.encodedSize (.bytes (List.replicate 31 0)) = .ok 32 ∧
      Schema.encode .minimal (⟨[]⟩ : Blob) = .error (.lengthMismatch 131072 0) ∧
      Schema.encodedSize .minimal (⟨[]⟩ : Blob) = .ok 131072 :=
  ⟨rfl, rfl, rfl, rfl⟩

end Shape

end SimpleSerialize
