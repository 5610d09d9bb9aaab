import SimpleSerialize.Proofs.Wire.Sequence

/-!
Where reading comes to a halt. Sizes that fit in words are computed to the end, and the one thing
left is the room for the pointers to the elements of a vector, which is asked for before the input
is looked at (`Shape.haltsOnlyIf_decode`).
-/

namespace SimpleSerialize

/-- If the computation halts, it halts where memory is asked for, and `p` holds. -/
def HaltsOnlyIf {α : Type} (p : Prop) (x : Except DecodeError α) : Prop :=
  ∀ halt, x = .error (.halted halt) → halt = .allocation ∧ p

section HaltsOnlyIf

variable {α β : Type} {p : Prop} {x : Except DecodeError α}

theorem haltsOnlyIf_ok (a : α) : HaltsOnlyIf p (.ok a) := nofun

theorem haltsOnlyIf_error {e : DecodeError} (hreturned : ∀ halt, e ≠ .halted halt) :
    HaltsOnlyIf p (.error e : Except DecodeError α) := by
  rintro halt ⟨⟩
  exact absurd rfl (hreturned halt)

theorem HaltsOnlyIf.imp {q : Prop} (hx : HaltsOnlyIf p x) (himp : p → q) : HaltsOnlyIf q x :=
  fun halt hhalts => ⟨(hx halt hhalts).1, himp (hx halt hhalts).2⟩

theorem HaltsOnlyIf.bind {f : α → Except DecodeError β} (hfirst : HaltsOnlyIf p x)
    (hrest : ∀ a, x = .ok a → HaltsOnlyIf p (f a)) : HaltsOnlyIf p (x >>= f) := by
  intro halt hhalts
  obtain hstop | ⟨a, ha, hstop⟩ := bind_eq_error_iff.mp hhalts
  · exact hfirst halt hstop
  · exact hrest a ha halt hstop

theorem haltsOnlyIf_mapM {f : α → Except DecodeError β} {xs : List α}
    (hsteps : ∀ x ∈ xs, HaltsOnlyIf p (f x)) : HaltsOnlyIf p (xs.mapM f) := by
  intro halt hhalts
  obtain ⟨x, hx, hstop⟩ := exists_error_of_mapM hhalts
  exact hsteps x hx halt hstop

theorem haltsOnlyIf_ite {c : Prop} [Decidable c] {y : Except DecodeError α}
    (hthen : HaltsOnlyIf p x) (helse : HaltsOnlyIf p y) : HaltsOnlyIf p (if c then x else y) := by
  split
  · exact hthen
  · exact helse

/-! ### Checks -/

theorem haltsOnlyIf_expectLength (length : Nat) (bs : Bytes) :
    HaltsOnlyIf p (expectLength length bs) :=
  haltsOnlyIf_ite (haltsOnlyIf_error (by simp))
    (haltsOnlyIf_ite (haltsOnlyIf_error (by simp)) (haltsOnlyIf_ok _))

theorem haltsOnlyIf_requireCount (limit count : Nat) :
    HaltsOnlyIf p (requireCount limit count) :=
  haltsOnlyIf_ite (haltsOnlyIf_ok _) (haltsOnlyIf_error (by simp))

theorem Wire.haltsOnlyIf_countOfOffset (first length : Nat) :
    HaltsOnlyIf p (countOfOffset first length) :=
  haltsOnlyIf_ite (haltsOnlyIf_error (by simp))
    (haltsOnlyIf_ite (haltsOnlyIf_error (by simp)) (haltsOnlyIf_ok _))

theorem Scalar.haltsOnlyIf_decode (kind : Scalar) (bs : Bytes) :
    HaltsOnlyIf p (kind.decode bs) := by
  unfold Scalar.decode
  cases hlength : expectLength kind.size bs with
  | error e =>
    refine haltsOnlyIf_error fun halt hhalts => ?_
    rw [hhalts] at hlength
    exact (haltsOnlyIf_expectLength _ _ halt hlength).2
  | ok u =>
    cases kind with
    | bool =>
      exact haltsOnlyIf_ite (haltsOnlyIf_ok _)
        (haltsOnlyIf_ite (haltsOnlyIf_ok _) (haltsOnlyIf_error (by simp)))
    | uint width => exact haltsOnlyIf_ok _

theorem Wire.haltsOnlyIf_readBitvector (length : Nat) (bs : Bytes) :
    HaltsOnlyIf p (readBitvector length bs) :=
  (haltsOnlyIf_expectLength _ _).bind fun _ _ =>
    haltsOnlyIf_ite (haltsOnlyIf_error (by simp)) (haltsOnlyIf_ok _)

theorem Wire.haltsOnlyIf_readBitlist (limit : Nat) (bs : Bytes) :
    HaltsOnlyIf p (readBitlist limit bs) := by
  unfold readBitlist
  cases bs.getLast? with
  | none => exact haltsOnlyIf_error (by simp)
  | some last =>
    refine haltsOnlyIf_ite (haltsOnlyIf_error (by simp)) ?_
    exact (haltsOnlyIf_requireCount _ _).bind fun _ _ => haltsOnlyIf_ok _

namespace Series

theorem haltsOnlyIf_requireHead (head : Nat) (bs : Bytes) :
    HaltsOnlyIf p (requireHead head bs) :=
  haltsOnlyIf_ite (haltsOnlyIf_error (by simp)) (haltsOnlyIf_ok _)

theorem haltsOnlyIf_readOffset (length position : Nat) (rest : Bytes) :
    HaltsOnlyIf p (readOffset length position rest) :=
  haltsOnlyIf_ite (haltsOnlyIf_ok _) (haltsOnlyIf_error (by simp))

theorem haltsOnlyIf_checkFirst (head length : Nat) (slots : List Slot) :
    HaltsOnlyIf p (checkFirst head length slots) := by
  unfold checkFirst
  cases slots.findSome? Slot.offset? with
  | none => exact haltsOnlyIf_ite (haltsOnlyIf_ok _) (haltsOnlyIf_error (by simp))
  | some first => exact haltsOnlyIf_ite (haltsOnlyIf_ok _) (haltsOnlyIf_error (by simp))

/-! ### Series -/

variable {shapes : List Shape} {length position previous : Nat} {rest : Bytes}
  (hparts : ∀ shape ∈ shapes, ∀ bs, HaltsOnlyIf p (shape.decode bs))

include hparts

theorem haltsOnlyIf_readHead :
    HaltsOnlyIf p (readHead length position rest (readersOf shapes)) := by
  induction shapes generalizing position rest with
  | nil => exact haltsOnlyIf_ok _
  | cons shape shapes ih =>
    rw [List.forall_mem_cons] at hparts
    rw [readersOf_cons]
    cases shape.exactSize? with
    | some size =>
      rw [readHead]
      apply (hparts.1 _).bind
      intro v _
      apply (ih hparts.2).bind
      intro slots _
      exact haltsOnlyIf_ok _
    | none =>
      rw [readHead]
      apply (haltsOnlyIf_readOffset _ _ _).bind
      intro offset _
      apply (ih hparts.2).bind
      intro slots _
      exact haltsOnlyIf_ok _

theorem haltsOnlyIf_pending {slots : List Slot}
    (hslots : readHead length position rest (readersOf shapes) = .ok slots) :
    ∀ offset read, .pending offset read ∈ slots → ∀ bs, HaltsOnlyIf p (read bs) := by
  induction shapes generalizing position rest slots with
  | nil =>
    cases hslots
    exact fun _ _ hmem => absurd hmem List.not_mem_nil
  | cons shape shapes ih =>
    rw [List.forall_mem_cons] at hparts
    rw [readersOf_cons] at hslots
    intro offset read hmem
    cases hsize : shape.exactSize? with
    | some size =>
      rw [hsize, readHead_fixed] at hslots
      obtain ⟨v, later, -, hlater, rfl⟩ := hslots
      rw [List.mem_cons] at hmem
      obtain ⟨⟨⟩⟩ | hmem := hmem
      exact ih hparts.2 hlater offset read hmem
    | none =>
      rw [hsize, readHead_variable] at hslots
      obtain ⟨start, later, -, hlater, rfl⟩ := hslots
      rw [List.mem_cons] at hmem
      obtain ⟨⟨⟩⟩ | hmem := hmem
      · exact hparts.1
      · exact ih hparts.2 hlater offset read hmem

omit hparts in
theorem haltsOnlyIf_fill {slots : List Slot}
    (hreads : ∀ offset read, .pending offset read ∈ slots → ∀ bs, HaltsOnlyIf p (read bs)) :
    HaltsOnlyIf p (fill length previous rest slots) := by
  induction slots generalizing previous rest with
  | nil => exact haltsOnlyIf_ok _
  | cons slot slots ih =>
    have hlater : ∀ offset read, .pending offset read ∈ slots → ∀ bs, HaltsOnlyIf p (read bs) :=
      fun offset read hmem => hreads offset read (List.mem_cons_of_mem slot hmem)
    cases slot with
    | filled v =>
      rw [fill]
      apply (ih hlater).bind
      intro vs _
      exact haltsOnlyIf_ok _
    | pending offset read =>
      rw [fill]
      refine haltsOnlyIf_ite (haltsOnlyIf_error (by simp)) <|
        haltsOnlyIf_ite (haltsOnlyIf_error (by simp)) <|
          haltsOnlyIf_ite (haltsOnlyIf_error (by simp)) ?_
      apply (hreads offset read List.mem_cons_self _).bind
      intro v _
      apply (ih hlater).bind
      intro vs _
      exact haltsOnlyIf_ok _

theorem haltsOnlyIf_readFrom (head : Nat) (bs : Bytes) :
    HaltsOnlyIf p (readFrom head (readersOf shapes) bs) := by
  rw [readFrom]
  apply (haltsOnlyIf_readHead hparts).bind
  intro slots hslots
  apply (haltsOnlyIf_checkFirst _ _ _).bind
  intro _ _
  exact haltsOnlyIf_fill (haltsOnlyIf_pending hparts hslots)

/-- A head that a word holds is sized, so that only parts are left to halt. -/
theorem haltsOnlyIf_read (hhead : Shape.headOf shapes < wordBound) (bs : Bytes) :
    HaltsOnlyIf p (read (readersOf shapes) bs) := by
  have hsize : headSize (readersOf shapes) = .ok (Shape.headOf shapes) := by
    rw [headSize_eq_ok_iff, width_readersOf]
    exact ⟨rfl, hhead⟩
  rw [read, hsize, mapError_ok, ok_bind]
  apply (haltsOnlyIf_requireHead _ _).bind
  intro _ _
  exact haltsOnlyIf_readFrom hparts _ bs

end Series

/-! ### Vectors and lists -/

theorem haltsOnlyIf_reserve {width count : Nat} (hroom : maxAllocation < width * count → p) :
    HaltsOnlyIf p ((reserve width count).mapError .halted) := by
  unfold reserve
  split
  · exact haltsOnlyIf_ok _
  · rintro halt ⟨⟩
    exact ⟨rfl, hroom (Nat.lt_of_not_le ‹_›)⟩

namespace Wire

variable {element : Shape} (helement : ∀ bs, HaltsOnlyIf p (element.decode bs))

include helement

theorem haltsOnlyIf_readRuns (size count : Nat) (bs : Bytes) :
    HaltsOnlyIf p (readRuns size count (fun part => element.decode part) bs) :=
  haltsOnlyIf_mapM fun part _ => helement part

theorem haltsOnlyIf_readOffsets (hvariable : element.exactSize? = none) {count : Nat}
    (hroom : maxAllocation < pointerSize * count → p) (bs : Bytes) :
    HaltsOnlyIf p (readOffsets count (fun part => element.decode part) bs) := by
  have hparts : ∀ shape ∈ List.replicate count element, ∀ bs, HaltsOnlyIf p (shape.decode bs) := by
    intro shape hshape
    rw [List.eq_of_mem_replicate hshape]
    exact helement
  rw [readOffsets]
  apply (haltsOnlyIf_reserve hroom).bind
  intro _ _
  apply (Series.haltsOnlyIf_requireHead _ _).bind
  intro _ _
  simp only [readersOf_replicate hvariable]
  exact Series.haltsOnlyIf_readFrom hparts _ bs

theorem haltsOnlyIf_readVector {length : Nat} (hhead : length * element.exactHeadSize < wordBound)
    (hroom : element.exactSize? = none → maxAllocation < pointerSize * length → p) (bs : Bytes) :
    HaltsOnlyIf p
      (readVector element.exactSize? length (fun part => element.decode part) bs) := by
  rw [Shape.exactHeadSize, Nat.mul_comm] at hhead
  cases hsize : element.exactSize? with
  | none => exact haltsOnlyIf_readOffsets helement hsize (hroom hsize) bs
  | some size =>
    rw [hsize, Option.getD_some] at hhead
    rw [readVector, mulWord_eq_ok_iff.mpr ⟨rfl, hhead⟩, mapError_ok, ok_bind]
    apply (haltsOnlyIf_expectLength _ _).bind
    intro _ _
    exact haltsOnlyIf_readRuns helement _ _ bs

/-- As many elements as an offset can count have room for their pointers. -/
theorem haltsOnlyIf_readList (limit : Nat) (bs : Bytes) :
    HaltsOnlyIf p (readList element.exactSize? limit (fun part => element.decode part) bs) := by
  cases hsize : element.exactSize? with
  | some size =>
    refine haltsOnlyIf_ite (haltsOnlyIf_error (by simp)) ?_
    apply (haltsOnlyIf_requireCount _ _).bind
    intro _ _
    exact haltsOnlyIf_readRuns helement _ _ bs
  | none =>
    refine haltsOnlyIf_ite (haltsOnlyIf_ok _) ?_
    apply (Series.haltsOnlyIf_readOffset _ _ _).bind
    intro first hfirst
    apply (haltsOnlyIf_countOfOffset _ _).bind
    intro count hcount
    apply (haltsOnlyIf_requireCount _ _).bind
    intro _ _
    apply haltsOnlyIf_readOffsets helement hsize
    intro hroom
    obtain ⟨-, hbound⟩ := Series.readOffset_eq_ok_iff.mp hfirst
    obtain ⟨-, rfl, -⟩ := countOfOffset_eq_ok_iff.mp hcount
    simp only [offsetSize, maxAllocation, pointerSize] at hbound hroom
    omega

end Wire

end HaltsOnlyIf

namespace Shape

/-- A vector has no more elements behind offsets than there can be pointers to. -/
def PointersFit : Shape → Prop
  | vector element length =>
    element.exactSize? = none → pointerSize * length ≤ maxAllocation
  | _ => True

/-- Reading halts for no more than a vector, at some depth, of too many elements. -/
theorem haltsOnlyIf_decode {shape : Shape} (hfits : shape.SizesFit) (bs : Bytes) :
    HaltsOnlyIf (¬shape.Everywhere PointersFit) (shape.decode bs) := by
  induction hfits generalizing bs with
  | @intro shape own hparts ih =>
    have hdecode (part : Shape) (hpart : part ∈ shape.parts) (bs : Bytes) :
        HaltsOnlyIf (¬shape.Everywhere PointersFit) (part.decode bs) :=
      (ih part hpart bs).imp fun hpointers hall => hpointers ((everywhere_iff.mp hall).2 part hpart)
    cases shape with
    | scalar kind => exact kind.haltsOnlyIf_decode bs
    | byteVector length =>
      exact (haltsOnlyIf_expectLength length bs).bind fun _ _ => haltsOnlyIf_ok _
    | byteList limit =>
      exact (haltsOnlyIf_requireCount limit bs.length).bind fun _ _ => haltsOnlyIf_ok _
    | bitvector length => exact Wire.haltsOnlyIf_readBitvector length bs
    | bitlist limit => exact Wire.haltsOnlyIf_readBitlist limit bs
    | vector element length =>
      have hsize : element.fixedSize? = .ok element.exactSize? :=
        sized_of_fits (hparts element (by simp))
      have hhead : length * element.exactHeadSize < wordBound := by
        rw [← headOf_replicate]
        exact own.head_lt
      rw [decode, hsize, mapError_ok, ok_bind]
      apply (Wire.haltsOnlyIf_readVector (hdecode element (by simp)) hhead _ bs).bind
      · intro items _
        exact haltsOnlyIf_ok _
      · intro hvariable hroom hall
        exact absurd ((everywhere_iff.mp hall).1 hvariable) (Nat.not_le_of_lt hroom)
    | list element limit =>
      have hsize : element.fixedSize? = .ok element.exactSize? :=
        sized_of_fits (hparts element (by simp))
      rw [decode, hsize, mapError_ok, ok_bind]
      apply (Wire.haltsOnlyIf_readList (hdecode element (by simp)) limit bs).bind
      intro items _
      exact haltsOnlyIf_ok _
    | container fields =>
      rw [parts_container] at hparts hdecode
      have hentries : decodeFields fields = .ok (Series.readersOf (fields.map Prod.snd)) :=
        decodeFields_eq_ok_iff.mpr ⟨fun part hpart => sized_of_fits (hparts part hpart), rfl⟩
      rw [decode, hentries, mapError_ok, ok_bind]
      apply (Series.haltsOnlyIf_read hdecode own.head_lt bs).bind
      intro values _
      exact haltsOnlyIf_ok _

/-- Such a vector halts the reading of whatever is read as one. -/
theorem decode_halts_of_not_pointersFit {shape : Shape} (hfits : shape.SizesFit)
    (hpointers : ¬shape.PointersFit) (bs : Bytes) :
    shape.decode bs = .error (.halted .allocation) := by
  cases shape with
  | vector element length =>
    obtain ⟨hvariable, hroom⟩ := Classical.not_imp.mp hpointers
    have hsize : element.fixedSize? = .ok element.exactSize? :=
      sized_of_fits ((everywhere_iff.mp hfits).2 element (by simp))
    rw [decode, hsize, hvariable, mapError_ok, ok_bind, Wire.readVector, Wire.readOffsets, reserve,
      if_neg hroom]
    rfl
  | _ => exact absurd trivial hpointers

end Shape

end SimpleSerialize
