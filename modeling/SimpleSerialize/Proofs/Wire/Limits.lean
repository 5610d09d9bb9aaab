import Mathlib.Data.List.Forall2
import SimpleSerialize.Proofs.Wire.Sequence

/-!
Shapes that differ in limits only. Limits decide which values are let through and nothing else:
under wider limits a value is written and read in the same way, unless the narrower ones refuse it
(`Shape.Widens.keepsForm`).
-/

namespace SimpleSerialize

namespace Shape

/-- The same shape but for its limits, none of which is lower in the second. -/
inductive Widens : Shape → Shape → Prop
  | scalar (kind : Scalar) : Widens (scalar kind) (scalar kind)
  | byteVector (length : Nat) : Widens (byteVector length) (byteVector length)
  | byteList {limit limit' : Nat} (limit_le : limit ≤ limit') :
    Widens (byteList limit) (byteList limit')
  | bitvector (length : Nat) : Widens (bitvector length) (bitvector length)
  | bitlist {limit limit' : Nat} (limit_le : limit ≤ limit') :
    Widens (bitlist limit) (bitlist limit')
  | vector {element element' : Shape} (element_widens : Widens element element') (length : Nat) :
    Widens (vector element length) (vector element' length)
  | list {element element' : Shape} {limit limit' : Nat} (element_widens : Widens element element')
    (limit_le : limit ≤ limit') : Widens (list element limit) (list element' limit')
  | container {fields fields' : List (String × Shape)}
    (names_eq : fields.map Prod.fst = fields'.map Prod.fst)
    (fields_widen : ∀ entry ∈ fields.zip fields', Widens entry.1.2 entry.2.2) :
    Widens (container fields) (container fields')

end Shape

/--
How a computation comes out under wider limits beside the narrower ones: in the same way, unless
these stop it.
-/
inductive Loosened {ε α β : Type} (limited : ε → Prop) (related : α → β → Prop) :
    Except ε α → Except ε β → Prop
  | done {a : α} {b : β} (results : related a b) : Loosened limited related (.ok a) (.ok b)
  | refused (e : ε) : Loosened limited related (.error e) (.error e)
  | stopped {e : ε} (at_limit : limited e) (wide : Except ε β) :
    Loosened limited related (.error e) wide

namespace Loosened

variable {ε α β γ δ : Type} {limited : ε → Prop} {related : α → β → Prop} {related' : γ → δ → Prop}
  {narrow : Except ε α} {wide : Except ε β} {goOn : α → Except ε γ} {goOn' : β → Except ε δ}

theorem refl (x : Except ε α) : Loosened limited Eq x x := by
  cases x with
  | error e => exact .refused e
  | ok a => exact .done rfl

theorem bind (hfirst : Loosened limited related narrow wide)
    (hrest : ∀ a b, related a b → Loosened limited related' (goOn a) (goOn' b)) :
    Loosened limited related' (narrow >>= goOn) (wide >>= goOn') := by
  cases hfirst with
  | done results => exact hrest _ _ results
  | refused e => exact .refused e
  | stopped at_limit wide => exact .stopped at_limit _

/-- First steps that compare, and after them the same. -/
theorem bind_left {wide : Except ε α} (hfirst : Loosened limited Eq narrow wide)
    (goOn : α → Except ε γ) : Loosened limited Eq (narrow >>= goOn) (wide >>= goOn) := by
  apply hfirst.bind
  rintro a _ rfl
  exact refl _

/-- The same first step, and after it steps that compare. -/
theorem bind_right (first : Except ε α) {goOn' : α → Except ε δ}
    (hrest : ∀ a, Loosened limited related' (goOn a) (goOn' a)) :
    Loosened limited related' (first >>= goOn) (first >>= goOn') := by
  apply (refl first).bind
  rintro a _ rfl
  exact hrest a

theorem eq_ok {wide : Except ε α} {a : α} (hloosened : Loosened limited Eq narrow wide)
    (hnarrow : narrow = .ok a) : wide = .ok a := by
  cases hloosened with
  | done results => exact results ▸ hnarrow
  | refused e => cases hnarrow
  | stopped at_limit wide => cases hnarrow

theorem eq_ok_or_limited {wide : Except ε α} {a : α} (hloosened : Loosened limited Eq narrow wide)
    (hwide : wide = .ok a) : narrow = .ok a ∨ ∃ e, limited e ∧ narrow = .error e := by
  cases hloosened with
  | done results => exact .inl (results ▸ hwide)
  | refused e => cases hwide
  | stopped at_limit wide => exact .inr ⟨_, at_limit, rfl⟩

theorem mapM {step : α → Except ε β} {step' : α → Except ε γ} {related : β → γ → Prop}
    (hsteps : ∀ a, Loosened limited related (step a) (step' a)) (xs : List α) :
    Loosened limited (List.Forall₂ related) (xs.mapM step) (xs.mapM step') := by
  induction xs with
  | nil => exact .done .nil
  | cons x xs ih =>
    rw [List.mapM_cons, List.mapM_cons]
    apply (hsteps x).bind
    intro y y' hy
    apply ih.bind
    intro ys ys' hys
    exact .done (.cons hy hys)

/-- What has no limit to stop at comes out in the same way among other errors. -/
theorem mapError {ε' : Type} {limited' : ε' → Prop} {f : ε → ε'}
    (hloosened : Loosened (fun _ => False) related narrow wide) :
    Loosened limited' related (narrow.mapError f) (wide.mapError f) := by
  cases hloosened with
  | done results => exact .done results
  | refused e => exact .refused (f e)
  | stopped at_limit => exact at_limit.elim

end Loosened

theorem forall₂_replicate {α β : Type} {related : α → β → Prop} {a : α} {b : β}
    (hrelated : related a b) (count : Nat) :
    List.Forall₂ related (List.replicate count a) (List.replicate count b) := by
  induction count with
  | zero => exact .nil
  | succ count ih => exact .cons hrelated ih

/-- Too many elements for a value to be written. -/
inductive FitError.AtLimit : FitError → Prop
  | overCapacity (length limit : Nat) : AtLimit (.overCapacity length limit)

/-- Too many elements for a value to be read. -/
inductive DecodeError.AtLimit : DecodeError → Prop
  | tooManyElements (count limit : Nat) : AtLimit (.tooManyElements count limit)

theorem loosened_requireCapacity {limit limit' : Nat} (hle : limit ≤ limit') (length : Nat) :
    Loosened FitError.AtLimit Eq (requireCapacity limit length)
      (requireCapacity limit' length) := by
  by_cases hlength : length ≤ limit
  · have hwide := Nat.le_trans hlength hle
    simp only [requireCapacity, if_pos hlength, if_pos hwide]
    exact .refl _
  · simp only [requireCapacity, if_neg hlength]
    exact .stopped (.overCapacity length limit) _

theorem loosened_requireCount {limit limit' : Nat} (hle : limit ≤ limit') (count : Nat) :
    Loosened DecodeError.AtLimit Eq (requireCount limit count) (requireCount limit' count) := by
  by_cases hcount : count ≤ limit
  · have hwide := Nat.le_trans hcount hle
    simp only [requireCount, if_pos hcount, if_pos hwide]
    exact .refl _
  · simp only [requireCount, if_neg hcount]
    exact .stopped (.tooManyElements count limit) _

/-- Wider limits change neither the size of a shape nor how its values are written and read. -/
structure Shape.KeepsForm (shape wide : Shape) : Prop where
  size : shape.fixedSize? = wide.fixedSize?
  encode : ∀ v, Loosened FitError.AtLimit Eq (shape.encode v) (wide.encode v)
  decode : ∀ bs, Loosened DecodeError.AtLimit Eq (shape.decode bs) (wide.decode bs)

namespace Series

/-- Entries of one size, with contents that compare. -/
structure EntryWidens {α : Type} (related : α → α → Prop) (entry wide : Entry α) : Prop where
  size : entry.size? = wide.size?
  content : related entry.content wide.content

section Head

variable {α : Type} {related : α → α → Prop} {entries entries' : List (Entry α)}

theorem foldlM_addWord_eq (hentries : List.Forall₂ (EntryWidens related) entries entries')
    (sum : Nat) :
    entries.foldlM (fun sum entry => addWord sum entry.headSize) sum
      = entries'.foldlM (fun sum entry => addWord sum entry.headSize) sum := by
  induction hentries generalizing sum with
  | nil => rfl
  | cons hentry _ ih =>
    rw [List.foldlM_cons, List.foldlM_cons, Entry.headSize, Entry.headSize, hentry.size]
    congr 1
    funext sum
    exact ih sum

theorem headSize_eq_of_widens (hentries : List.Forall₂ (EntryWidens related) entries entries') :
    headSize entries = headSize entries' := foldlM_addWord_eq hentries 0

theorem loosened_ofShape {shape wide : Shape} (hsize : shape.fixedSize? = wide.fixedSize?)
    {content content' : α} (hcontent : related content content') :
    Loosened (fun _ => False) (EntryWidens related) (Entry.ofShape shape content)
      (Entry.ofShape wide content') := by
  rw [Entry.ofShape, Entry.ofShape, hsize]
  apply Loosened.bind_right
  intro size?
  exact .done ⟨rfl, hcontent⟩

end Head

/-! ### Writing -/

/-- A part that is written in the same way, under limits no lower. -/
abbrev Writer.Widens : Except FitError Bytes → Except FitError Bytes → Prop :=
  Loosened FitError.AtLimit Eq

theorem loosened_layOut {writers writers' : List (Entry (Except FitError Bytes))}
    (hwriters : List.Forall₂ (EntryWidens Writer.Widens) writers writers') (offset : Nat) :
    Loosened FitError.AtLimit Eq (layOut offset writers) (layOut offset writers') := by
  induction hwriters generalizing offset with
  | nil => exact .refl _
  | @cons writer writer' writers writers' hwriter _ ih =>
    obtain ⟨size?, content⟩ := writer
    obtain ⟨_, content'⟩ := writer'
    obtain ⟨rfl, hcontent⟩ := hwriter
    cases size? with
    | some size =>
      rw [layOut, layOut]
      apply hcontent.bind
      rintro bs _ rfl
      exact (ih offset).bind_left _
    | none =>
      rw [layOut, layOut]
      by_cases hoffset : offset < 2 ^ (8 * offsetSize)
      · rw [if_pos hoffset, if_pos hoffset]
        apply hcontent.bind
        rintro bs _ rfl
        exact (ih (offset + bs.length)).bind_left _
      · rw [if_neg hoffset, if_neg hoffset]
        exact .refl _

theorem loosened_write {writers writers' : List (Entry (Except FitError Bytes))}
    (hwriters : List.Forall₂ (EntryWidens Writer.Widens) writers writers') :
    Loosened FitError.AtLimit Eq (write writers) (write writers') := by
  rw [write, write, headSize_eq_of_widens hwriters]
  apply Loosened.bind_right
  intro head
  exact (loosened_layOut hwriters head).bind_left _

/-! ### Reading -/

/-- A reader that reads what another one does, and in the same way, under limits no lower. -/
def Reader.Widens (read wide : Reader) : Prop :=
  ∀ bs, Loosened DecodeError.AtLimit Eq (read bs) (wide bs)

/-- A head says the same of a part, but for the limits it is read under. -/
inductive Slot.Widens : Slot → Slot → Prop
  | filled (v : Value) : Widens (filled v) (filled v)
  | pending (offset : Nat) {read wide : Reader} (read_widens : Reader.Widens read wide) :
    Widens (pending offset read) (pending offset wide)

variable {entries entries' : List (Entry Reader)} {slots slots' : List Slot}

theorem loosened_readHead (hentries : List.Forall₂ (EntryWidens Reader.Widens) entries entries')
    (length position : Nat) (rest : Bytes) :
    Loosened DecodeError.AtLimit (List.Forall₂ Slot.Widens)
      (readHead length position rest entries) (readHead length position rest entries') := by
  induction hentries generalizing position rest with
  | nil => exact .done .nil
  | @cons entry entry' entries entries' hentry _ ih =>
    obtain ⟨size?, read⟩ := entry
    obtain ⟨_, read'⟩ := entry'
    obtain ⟨rfl, hread⟩ := hentry
    cases size? with
    | some size =>
      rw [readHead, readHead]
      apply (hread _).bind
      rintro v _ rfl
      apply (ih _ _).bind
      intro slots slots' hslots
      exact .done (.cons (.filled v) hslots)
    | none =>
      rw [readHead, readHead]
      apply Loosened.bind_right
      intro offset
      apply (ih _ _).bind
      intro slots slots' hslots
      exact .done (.cons (.pending offset hread) hslots)

/-- Where the parts behind a head start does not depend on how they are read. -/
theorem findSome?_offset?_eq (hslots : List.Forall₂ Slot.Widens slots slots') :
    slots.findSome? Slot.offset? = slots'.findSome? Slot.offset? := by
  induction hslots with
  | nil => rfl
  | cons hslot _ ih =>
    cases hslot with
    | filled v => exact ih
    | pending offset _ => rfl

theorem loosened_fill (hslots : List.Forall₂ Slot.Widens slots slots') (length previous : Nat)
    (rest : Bytes) :
    Loosened DecodeError.AtLimit Eq (fill length previous rest slots)
      (fill length previous rest slots') := by
  induction hslots generalizing previous rest with
  | nil => exact .refl _
  | @cons slot slot' slots slots' hslot hslots ih =>
    cases hslot with
    | filled v =>
      rw [fill, fill]
      exact (ih previous rest).bind_left _
    | pending offset hread =>
      -- The bounds of the part are the same, and so is whatever is wrong with them.
      rw [fill, fill, ← findSome?_offset?_eq hslots]
      dsimp only
      split
      · exact .refl _
      split
      · exact .refl _
      split
      · exact .refl _
      apply (hread _).bind
      rintro v _ rfl
      exact (ih _ _).bind_left _

theorem loosened_readFrom
    (hentries : List.Forall₂ (EntryWidens Reader.Widens) entries entries') (head : Nat)
    (bs : Bytes) :
    Loosened DecodeError.AtLimit Eq (readFrom head entries bs) (readFrom head entries' bs) := by
  rw [readFrom, readFrom]
  apply (loosened_readHead hentries _ _ _).bind
  intro slots slots' hslots
  rw [checkFirst, checkFirst, findSome?_offset?_eq hslots]
  apply Loosened.bind_right
  intro _
  exact loosened_fill hslots _ _ _

theorem loosened_read
    (hentries : List.Forall₂ (EntryWidens Reader.Widens) entries entries') (bs : Bytes) :
    Loosened DecodeError.AtLimit Eq (read entries bs) (read entries' bs) := by
  rw [read, read, headSize_eq_of_widens hentries]
  apply Loosened.bind_right
  intro head
  apply Loosened.bind_right
  intro _
  exact loosened_readFrom hentries head bs

end Series

namespace Wire

open Series (Reader EntryWidens)

variable {read wide : Reader} {limit limit' : Nat}

theorem loosened_readRuns (hread : Reader.Widens read wide) (size count : Nat) (bs : Bytes) :
    Loosened DecodeError.AtLimit Eq (readRuns size count read bs)
      (readRuns size count wide bs) := by
  have hruns := Loosened.mapM hread (Bytes.runs size count bs)
  rwa [List.forall₂_eq_eq_eq] at hruns

theorem loosened_readOffsets (hread : Reader.Widens read wide) (count : Nat) (bs : Bytes) :
    Loosened DecodeError.AtLimit Eq (readOffsets count read bs) (readOffsets count wide bs) := by
  have hentry : EntryWidens Reader.Widens ⟨none, read⟩ ⟨none, wide⟩ := ⟨rfl, hread⟩
  rw [readOffsets, readOffsets]
  apply Loosened.bind_right
  intro _
  apply Loosened.bind_right
  intro _
  exact Series.loosened_readFrom (forall₂_replicate hentry count) _ _

theorem loosened_readVector (hread : Reader.Widens read wide) (size? : Option Nat) (length : Nat)
    (bs : Bytes) :
    Loosened DecodeError.AtLimit Eq (readVector size? length read bs)
      (readVector size? length wide bs) := by
  cases size? with
  | none => exact loosened_readOffsets hread length bs
  | some size =>
    rw [readVector, readVector]
    apply Loosened.bind_right
    intro total
    apply Loosened.bind_right
    intro _
    exact loosened_readRuns hread size length bs

/-- How many elements a list has is seen from its bytes alone; the limit only stops the reading. -/
theorem loosened_readList (hread : Reader.Widens read wide) (hle : limit ≤ limit')
    (size? : Option Nat) (bs : Bytes) :
    Loosened DecodeError.AtLimit Eq (readList size? limit read bs)
      (readList size? limit' wide bs) := by
  cases size? with
  | some size =>
    rw [readList, readList]
    split
    · exact .refl _
    apply (loosened_requireCount hle _).bind
    rintro _ _ rfl
    exact loosened_readRuns hread size _ bs
  | none =>
    rw [readList, readList]
    split
    · exact .refl _
    apply Loosened.bind_right
    intro first
    apply Loosened.bind_right
    intro count
    apply (loosened_requireCount hle count).bind
    rintro _ _ rfl
    exact loosened_readOffsets hread count bs

theorem loosened_readBitlist (hle : limit ≤ limit') (bs : Bytes) :
    Loosened DecodeError.AtLimit Eq (readBitlist limit bs) (readBitlist limit' bs) := by
  rw [readBitlist, readBitlist]
  split
  · exact .refl _
  split
  · exact .refl _
  exact (loosened_requireCount hle _).bind_left _

end Wire

namespace Shape

open Series

variable {shape wide : Shape} {fields fields' : List (String × Shape)} {limit limit' : Nat}

theorem KeepsForm.refl (shape : Shape) : shape.KeepsForm shape where
  size := rfl
  encode _ := .refl _
  decode _ := .refl _

theorem keepsForm_byteList (hle : limit ≤ limit') :
    (byteList limit).KeepsForm (byteList limit') where
  size := rfl
  encode v := by
    cases v with
    | bytes bs =>
      exact (loosened_requireCapacity hle bs.length).bind_left _
    | _ => exact .refl _
  decode bs := by
    rw [decode, decode]
    exact (loosened_requireCount hle bs.length).bind_left _

theorem keepsForm_bitlist (hle : limit ≤ limit') :
    (bitlist limit).KeepsForm (bitlist limit') where
  size := rfl
  encode v := by
    cases v with
    | bits bits =>
      exact (loosened_requireCapacity hle bits.length).bind_left _
    | _ => exact .refl _
  decode bs := by
    rw [decode, decode]
    exact Wire.loosened_readBitlist hle bs

theorem loosened_elements (helement : shape.KeepsForm wide) (items : List Value) :
    Loosened FitError.AtLimit Eq
      ((items.mapM fun item => Entry.ofShape shape (shape.encode item)).mapError .halted >>= write)
      ((items.mapM fun item => Entry.ofShape wide (wide.encode item)).mapError .halted >>=
        write) := by
  apply (Loosened.mapM (fun item =>
    loosened_ofShape helement.size (helement.encode item)) items).mapError.bind
  intro writers writers' hwriters
  exact loosened_write hwriters

theorem keepsForm_vector (helement : shape.KeepsForm wide) (length : Nat) :
    (vector shape length).KeepsForm (vector wide length) where
  size := by rw [fixedSize?, fixedSize?, helement.size]
  encode v := by
    cases v with
    | vector items =>
      rw [encode, encode]
      apply Loosened.bind_right
      intro _
      exact loosened_elements helement items
    | _ => exact .refl _
  decode bs := by
    rw [decode, decode, helement.size]
    apply Loosened.bind_right
    intro size?
    exact (Wire.loosened_readVector helement.decode size? length bs).bind_left _

theorem keepsForm_list (helement : shape.KeepsForm wide) (hle : limit ≤ limit') :
    (list shape limit).KeepsForm (list wide limit') where
  size := rfl
  encode v := by
    cases v with
    | list items =>
      rw [encode, encode]
      apply (loosened_requireCapacity hle items.length).bind
      rintro _ _ rfl
      exact loosened_elements helement items
    | _ => exact .refl _
  decode bs := by
    rw [decode, decode, helement.size]
    apply Loosened.bind_right
    intro size?
    exact (Wire.loosened_readList helement.decode hle size? bs).bind_left _

theorem fixedSizes?_eq
    (hfields : List.Forall₂ (fun field field' => KeepsForm field.2 field'.2) fields fields')
    (sum : Nat) : fixedSizes? sum fields = fixedSizes? sum fields' := by
  induction hfields generalizing sum with
  | nil => rfl
  | cons hfield _ ih => simp only [fixedSizes?, hfield.size, ih]

theorem loosened_encodeFields
    (hfields : List.Forall₂ (fun field field' => KeepsForm field.2 field'.2) fields fields')
    (values : List Value) :
    Loosened (fun _ => False) (List.Forall₂ (EntryWidens Writer.Widens))
      (encodeFields fields values) (encodeFields fields' values) := by
  induction hfields generalizing values with
  | nil => exact .done .nil
  | cons hfield _ ih =>
    cases values with
    | nil => exact .done .nil
    | cons v values =>
      rw [encodeFields, encodeFields]
      apply (loosened_ofShape hfield.size (hfield.encode v)).bind
      intro writer writer' hwriter
      apply (ih values).bind
      intro writers writers' hwriters
      exact .done (.cons hwriter hwriters)

theorem loosened_decodeFields
    (hfields : List.Forall₂ (fun field field' => KeepsForm field.2 field'.2) fields fields') :
    Loosened (fun _ => False) (List.Forall₂ (EntryWidens Reader.Widens))
      (decodeFields fields) (decodeFields fields') := by
  induction hfields with
  | nil => exact .done .nil
  | @cons field field' _ _ hfield _ ih =>
    have hread : Reader.Widens field.2.decode field'.2.decode := hfield.decode
    rw [decodeFields, decodeFields]
    apply (loosened_ofShape hfield.size hread).bind
    intro reader reader' hreader
    apply ih.bind
    intro readers readers' hreaders
    exact .done (.cons hreader hreaders)

theorem keepsForm_container
    (hfields : List.Forall₂ (fun field field' => KeepsForm field.2 field'.2) fields fields') :
    (container fields).KeepsForm (container fields') := by
  refine ⟨fixedSizes?_eq hfields 0, ?_, ?_⟩
  · intro v
    cases v with
    | container values =>
      rw [encode, encode, hfields.length_eq]
      apply Loosened.bind_right
      intro _
      apply (loosened_encodeFields hfields values).mapError.bind
      intro writers writers' hwriters
      exact loosened_write hwriters
    | _ => exact .refl _
  · intro bs
    rw [decode, decode]
    apply (loosened_decodeFields hfields).mapError.bind
    intro readers readers' hreaders
    exact (loosened_read hreaders bs).bind_left _

/-- Wider limits leave the form of values on the wire as it is. -/
theorem Widens.keepsForm (hwidens : shape.Widens wide) : shape.KeepsForm wide := by
  induction hwidens with
  | scalar kind => exact .refl _
  | byteVector length => exact .refl _
  | byteList hle => exact keepsForm_byteList hle
  | bitvector length => exact .refl _
  | bitlist hle => exact keepsForm_bitlist hle
  | vector _ length ih => exact keepsForm_vector ih length
  | list _ hle ih => exact keepsForm_list ih hle
  | @container fields fields' names_eq _ ih =>
    have hlength : fields.length = fields'.length := by
      simpa using congrArg List.length names_eq
    exact keepsForm_container (List.forall₂_iff_zip.mpr ⟨hlength, fun hentry => ih _ hentry⟩)

theorem KeepsForm.decode_or_limited {v : Value} {bs : Bytes} (hform : shape.KeepsForm wide)
    (hdecode : wide.decode bs = .ok v) :
    shape.decode bs = .ok v ∨ ∃ count limit, shape.decode bs = .error (.tooManyElements count limit)
      := by
  obtain hsame | ⟨e, hlimited, he⟩ := (hform.decode bs).eq_ok_or_limited hdecode
  · exact .inl hsame
  · cases hlimited with
    | tooManyElements count limit => exact .inr ⟨count, limit, he⟩

end Shape

end SimpleSerialize
