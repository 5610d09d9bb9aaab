import SimpleSerialize.Proofs.Wire.Sequence

/-!
Where writing comes to a halt. The size of a head is added up before any part is written, and a word
has to hold it. Writing halts at nothing else (`Shape.overfull_of_halted`), and no value with a head
in it that is too large is ever written (`Shape.not_overfull_of_encode`).
-/

namespace SimpleSerialize

theorem requireLength_eq_error_iff {expected got : Nat} {e : FitError} :
    requireLength expected got = .error e ↔ got ≠ expected ∧ .lengthMismatch expected got = e := by
  by_cases h : got = expected <;> simp [requireLength, h]

theorem requireCapacity_eq_error_iff {limit length : Nat} {e : FitError} :
    requireCapacity limit length = .error e ↔ limit < length ∧ .overCapacity length limit = e := by
  rw [← Nat.not_le]
  by_cases h : length ≤ limit <;> simp [requireCapacity, h]

theorem Scalar.encode_ne_halted (kind : Scalar) (v : Value) (halt : Halt) :
    kind.encode v ≠ .error (.halted halt) := by
  unfold Scalar.encode
  split
  · simp
  · split <;> simp
  · simp

namespace Series

/-- The sizes of parts can be computed, and a word holds the head in front of them. -/
structure HeadFits (shapes : List Shape) : Prop where
  sized : ∀ shape ∈ shapes, shape.Sized
  head_lt : Shape.headOf shapes < wordBound

/-- Writes values one behind the other, each against its own shape. -/
def writeAll (entries : List (Shape × Value)) : Except FitError Bytes := do
  let writers ← (entries.mapM fun entry =>
    Entry.ofShape entry.1 (entry.1.encode entry.2)).mapError .halted
  write writers

variable {entries : List (Shape × Value)} {offset : Nat} {halt : Halt}

theorem width_writers {α : Type} (content : Shape × Value → α) :
    width (entries.map fun entry => ⟨entry.1.exactSize?, content entry⟩)
      = Shape.headOf (entries.map Prod.fst) := by
  rw [width, Shape.headOf, List.map_map, List.map_map]
  rfl

theorem writeAll_of_headFits (hhead : HeadFits (entries.map Prod.fst)) :
    writeAll entries
      = layOut (Shape.headOf (entries.map Prod.fst))
          (entries.map fun entry => ⟨entry.1.exactSize?, entry.1.encode entry.2⟩) >>= fun laid =>
            pure (laid.1 ++ laid.2) := by
  have hwriters : (entries.mapM fun entry => Entry.ofShape entry.1 (entry.1.encode entry.2))
      = .ok (entries.map fun entry => ⟨entry.1.exactSize?, entry.1.encode entry.2⟩) :=
    Shape.mapM_ofShape_eq_ok_iff.mpr ⟨List.forall_mem_map.mp hhead.sized, rfl⟩
  have hsize : headSize (entries.map fun entry => ⟨entry.1.exactSize?, entry.1.encode entry.2⟩)
      = .ok (Shape.headOf (entries.map Prod.fst)) := by
    rw [headSize_eq_ok_iff, width_writers]
    exact ⟨rfl, hhead.head_lt⟩
  rw [writeAll, hwriters, mapError_ok, ok_bind, write, hsize]
  rfl

/-- Before anything is written the head is sized. -/
theorem writeAll_halts (hhead : ¬HeadFits (entries.map Prod.fst)) :
    ∃ halt, writeAll entries = .error (.halted halt) := by
  rw [writeAll]
  cases hwriters : entries.mapM fun entry =>
      Entry.ofShape entry.1 (entry.1.encode entry.2) with
  | error halt => exact ⟨halt, rfl⟩
  | ok writers =>
    obtain ⟨hsized, rfl⟩ := Shape.mapM_ofShape_eq_ok_iff.mp hwriters
    rw [mapError_ok, ok_bind, write]
    cases hsize : headSize
        (entries.map fun entry => ⟨entry.1.exactSize?, entry.1.encode entry.2⟩) with
    | error halt => exact ⟨halt, rfl⟩
    | ok head =>
      obtain ⟨-, hlt⟩ := headSize_eq_ok_iff.mp hsize
      rw [width_writers] at hlt
      exact absurd ⟨List.forall_mem_map.mpr hsized, hlt⟩ hhead

theorem exists_halted_of_layOut
    (hlaid : layOut offset (entries.map fun entry => ⟨entry.1.exactSize?, entry.1.encode entry.2⟩)
      = .error (.halted halt)) :
    ∃ entry ∈ entries, entry.1.encode entry.2 = .error (.halted halt) := by
  induction entries generalizing offset with
  | nil => cases hlaid
  | cons entry entries ih =>
    have hrest {offset : Nat} (hlaid : layOut offset
        (entries.map fun entry => ⟨entry.1.exactSize?, entry.1.encode entry.2⟩)
          = .error (.halted halt)) :
        ∃ part ∈ entry :: entries, part.1.encode part.2 = .error (.halted halt) := by
      obtain ⟨part, hpart, hhalts⟩ := ih hlaid
      exact ⟨part, List.mem_cons_of_mem entry hpart, hhalts⟩
    rw [List.map_cons] at hlaid
    cases hsize : entry.1.exactSize? with
    | some size =>
      simp only [hsize, layOut, bind_eq_error_iff] at hlaid
      obtain hown | ⟨bs, -, hlaid | ⟨laid, -, ⟨⟩⟩⟩ := hlaid
      · exact ⟨entry, List.mem_cons_self, hown⟩
      · exact hrest hlaid
    | none =>
      rw [hsize, layOut] at hlaid
      split at hlaid
      · simp only [bind_eq_error_iff] at hlaid
        obtain hown | ⟨bs, -, hlaid | ⟨laid, -, ⟨⟩⟩⟩ := hlaid
        · exact ⟨entry, List.mem_cons_self, hown⟩
        · exact hrest hlaid
      · cases hlaid

theorem encodes_of_layOut {head tail : Bytes}
    (hlaid : layOut offset (entries.map fun entry => ⟨entry.1.exactSize?, entry.1.encode entry.2⟩)
      = .ok (head, tail)) :
    ∀ entry ∈ entries, ∃ bs, entry.1.encode entry.2 = .ok bs := by
  induction entries generalizing offset head tail with
  | nil => exact List.forall_mem_nil _
  | cons entry entries ih =>
    rw [List.forall_mem_cons]
    rw [List.map_cons] at hlaid
    cases hsize : entry.1.exactSize? with
    | some size =>
      rw [hsize, layOut_fixed] at hlaid
      obtain ⟨bs, rest, hcontent, hrest, -⟩ := hlaid
      exact ⟨⟨bs, hcontent⟩, ih hrest⟩
    | none =>
      rw [hsize, layOut_variable] at hlaid
      obtain ⟨-, bs, rest, rest', hcontent, hrest, -⟩ := hlaid
      exact ⟨⟨bs, hcontent⟩, ih hrest⟩

end Series

namespace Shape

variable {shape : Shape} {v : Value} {entries : List (Shape × Value)}

/-- What a value is written as a series of, if it has as many parts as its shape allows. -/
def written? : Shape → Value → Option (List (Shape × Value))
  | vector element length, .vector items =>
    if items.length = length then some (items.map fun item => (element, item)) else none
  | list element limit, .list items =>
    if items.length ≤ limit then some (items.map fun item => (element, item)) else none
  | container fields, .container values =>
    if values.length = fields.length then
      some ((fields.zip values).map fun entry => (entry.1.2, entry.2))
    else none
  | _, _ => none

/-- A value in which, at some depth, there is a series with a head that is too large. -/
inductive Overfull : Shape → Value → Prop
  | own {shape : Shape} {v : Value} {entries : List (Shape × Value)}
    (written : shape.written? v = some entries)
    (head : ¬Series.HeadFits (entries.map Prod.fst)) : Overfull shape v
  | part {shape : Shape} {v : Value} {entries : List (Shape × Value)} {entry : Shape × Value}
    (written : shape.written? v = some entries) (mem : entry ∈ entries)
    (overfull : Overfull entry.1 entry.2) : Overfull shape v

theorem cases_of_written? (hwritten : shape.written? v = some entries) :
    (∃ element length items, shape = vector element length ∧ v = .vector items ∧
      items.length = length ∧ entries = items.map fun item => (element, item)) ∨
    (∃ element limit items, shape = list element limit ∧ v = .list items ∧
      items.length ≤ limit ∧ entries = items.map fun item => (element, item)) ∨
    ∃ fields values, shape = container fields ∧ v = .container values ∧
      values.length = fields.length ∧
      entries = (fields.zip values).map fun entry => (entry.1.2, entry.2) := by
  unfold written? at hwritten
  split at hwritten
  · obtain ⟨hlength, ⟨⟩⟩ := Option.ite_none_right_eq_some.mp hwritten
    exact .inl ⟨_, _, _, rfl, rfl, hlength, rfl⟩
  · obtain ⟨hlimit, ⟨⟩⟩ := Option.ite_none_right_eq_some.mp hwritten
    exact .inr (.inl ⟨_, _, _, rfl, rfl, hlimit, rfl⟩)
  · obtain ⟨hlength, ⟨⟩⟩ := Option.ite_none_right_eq_some.mp hwritten
    exact .inr (.inr ⟨_, _, rfl, rfl, hlength, rfl⟩)
  · cases hwritten

theorem encode_of_written? (hwritten : shape.written? v = some entries) :
    shape.encode v = Series.writeAll entries := by
  obtain ⟨element, length, items, rfl, rfl, hlength, rfl⟩ |
    ⟨element, limit, items, rfl, rfl, hlimit, rfl⟩ |
    ⟨fields, values, rfl, rfl, hlength, rfl⟩ := cases_of_written? hwritten
  · rw [encode, requireLength, if_pos hlength, Series.writeAll, List.mapM_map]
    rfl
  · rw [encode, requireCapacity, if_pos hlimit, Series.writeAll, List.mapM_map]
    rfl
  · rw [encode, requireLength, if_pos hlength, Series.writeAll, List.mapM_map,
      encodeFields_eq_mapM]
    rfl

theorem mem_parts_of_written? (hwritten : shape.written? v = some entries)
    {entry : Shape × Value} (hentry : entry ∈ entries) : entry.1 ∈ shape.parts := by
  obtain ⟨element, length, items, rfl, rfl, -, rfl⟩ |
    ⟨element, limit, items, rfl, rfl, -, rfl⟩ |
    ⟨fields, values, rfl, rfl, -, rfl⟩ := cases_of_written? hwritten
  · obtain ⟨item, -, rfl⟩ := List.mem_map.mp hentry
    simp
  · obtain ⟨item, -, rfl⟩ := List.mem_map.mp hentry
    simp
  · obtain ⟨part, hpart, rfl⟩ := List.mem_map.mp hentry
    exact List.mem_map_of_mem (List.of_mem_zip hpart).1

/-- What has no head is written without a halt. -/
theorem not_halted_of_written? (hwritten : shape.written? v = none) (halt : Halt) :
    shape.encode v ≠ .error (.halted halt) := by
  cases shape with
  | scalar kind =>
    rw [encode]
    exact kind.encode_ne_halted v halt
  | byteVector length | bitvector length =>
    cases v <;> simp [encode, misfit, bind_eq_error_iff, requireLength_eq_error_iff, pure,
      Except.pure]
  | byteList limit | bitlist limit =>
    cases v <;> simp [encode, misfit, bind_eq_error_iff, requireCapacity_eq_error_iff, pure,
      Except.pure]
  | vector element length =>
    cases v with
    | vector items =>
      have hlength : items.length ≠ length := by simpa [written?] using hwritten
      simp [encode, bind_eq_error_iff, requireLength_eq_error_iff, requireLength_eq_ok_iff, hlength]
    | _ => simp [encode, misfit]
  | list element limit =>
    cases v with
    | list items =>
      have hlimit : limit < items.length := by simpa [written?] using hwritten
      simp [encode, bind_eq_error_iff, requireCapacity_eq_error_iff, requireCapacity_eq_ok_iff,
        Nat.not_le_of_gt hlimit]
    | _ => simp [encode, misfit]
  | container fields =>
    cases v with
    | container values =>
      have hlength : values.length ≠ fields.length := by simpa [written?] using hwritten
      simp [encode, bind_eq_error_iff, requireLength_eq_error_iff, requireLength_eq_ok_iff, hlength]
    | _ => simp [encode, misfit]

theorem encode_halts (hwritten : shape.written? v = some entries)
    (hhead : ¬Series.HeadFits (entries.map Prod.fst)) :
    ∃ halt, shape.encode v = .error (.halted halt) := by
  rw [encode_of_written? hwritten]
  exact Series.writeAll_halts hhead

theorem overfull_of_halted {halt : Halt} (hencode : shape.encode v = .error (.halted halt)) :
    shape.Overfull v := by
  induction shape using induction_on_parts generalizing v with
  | step shape ih =>
    cases hwritten : shape.written? v with
    | none => exact absurd hencode (not_halted_of_written? hwritten halt)
    | some entries =>
      by_cases hhead : Series.HeadFits (entries.map Prod.fst)
      -- The head is sized, so that the halt is that of a part.
      · rw [encode_of_written? hwritten, Series.writeAll_of_headFits hhead] at hencode
        obtain hlaid | ⟨laid, -, ⟨⟩⟩ := bind_eq_error_iff.mp hencode
        obtain ⟨entry, hentry, hhalts⟩ := Series.exists_halted_of_layOut hlaid
        exact .part hwritten hentry (ih entry.1 (mem_parts_of_written? hwritten hentry) hhalts)
      · exact .own hwritten hhead

theorem not_overfull_of_encode {bs : Bytes} (hencode : shape.encode v = .ok bs) :
    ¬shape.Overfull v := by
  intro hoverfull
  induction hoverfull generalizing bs with
  | own hwritten hhead =>
    obtain ⟨halt, hhalts⟩ := encode_halts hwritten hhead
    rw [hhalts] at hencode
    cases hencode
  | @part shape v entries entry hwritten hentry _ ih =>
    have hhead : Series.HeadFits (entries.map Prod.fst) := by
      apply Classical.byContradiction
      intro hhead
      obtain ⟨halt, hhalts⟩ := encode_halts hwritten hhead
      rw [hhalts] at hencode
      cases hencode
    rw [encode_of_written? hwritten, Series.writeAll_of_headFits hhead] at hencode
    obtain ⟨laid, hlaid, -⟩ := bind_eq_ok_iff.mp hencode
    obtain ⟨part, hpart⟩ := Series.encodes_of_layOut hlaid entry hentry
    exact ih hpart

theorem exists_error_of_overfull (hoverfull : shape.Overfull v) :
    ∃ e, shape.encode v = .error e := by
  cases hencode : shape.encode v with
  | error e => exact ⟨e, rfl⟩
  | ok bs => exact absurd hoverfull (not_overfull_of_encode hencode)

end Shape

end SimpleSerialize
