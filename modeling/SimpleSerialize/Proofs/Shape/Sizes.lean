import SimpleSerialize.Proofs.Except
import SimpleSerialize.Shape

/-!
Which shapes there are: a shape is built from parts that were accepted before it. Sizes that are
computed with words are the exact ones wherever the computation comes to an end
(`Shape.exactSize?_of_fixedSize?`), and it does where the exact sizes fit in words
(`Shape.sized_of_fits`).
-/

namespace SimpleSerialize

theorem addWord_eq_ok_iff {a b n : Nat} : addWord a b = .ok n ↔ a + b = n ∧ a + b < wordBound := by
  unfold addWord
  by_cases h : a + b < wordBound <;> simp [h]

theorem addWord_eq_error_iff {a b : Nat} {halt : Halt} :
    addWord a b = .error halt ↔ halt = .sum ∧ wordBound ≤ a + b := by
  unfold addWord
  by_cases h : a + b < wordBound
  · simp [h]
  · simp [h, eq_comm, Nat.le_of_not_lt h]

theorem mulWord_eq_ok_iff {a b n : Nat} : mulWord a b = .ok n ↔ a * b = n ∧ a * b < wordBound := by
  unfold mulWord
  by_cases h : a * b < wordBound <;> simp [h]

theorem reserve_eq_ok_iff {width count : Nat} {u : Unit} :
    reserve width count = .ok u ↔ width * count ≤ maxAllocation := by
  unfold reserve
  by_cases h : width * count ≤ maxAllocation <;> simp [h]

/-- A scalar takes up a part of one chunk. -/
theorem Scalar.size_bounds (kind : Scalar) : 0 < kind.size ∧ kind.size ≤ chunkSize := by
  cases kind with
  | bool => decide
  | uint width => cases width <;> decide

namespace Shape

/-- The shapes that a shape is put together from. -/
def parts : Shape → List Shape
  | vector element _ | list element _ => [element]
  | container fields => fields.map Prod.snd
  | _ => []

@[simp] theorem parts_vector (element : Shape) (length : Nat) :
    (vector element length).parts = [element] := rfl

@[simp] theorem parts_list (element : Shape) (limit : Nat) :
    (list element limit).parts = [element] := rfl

@[simp] theorem parts_container (fields : List (String × Shape)) :
    (container fields).parts = fields.map Prod.snd := rfl

mutual

/-- What holds of a shape whenever it holds of its parts holds of every shape. -/
@[elab_as_elim] theorem induction_on_parts {motive : Shape → Prop}
    (step : ∀ shape : Shape, (∀ part ∈ shape.parts, motive part) → motive shape) :
    (shape : Shape) → motive shape
  | vector element length => step _ <| by simpa using induction_on_parts step element
  | list element limit => step _ <| by simpa using induction_on_parts step element
  | container fields => step _ <| by
    rw [parts_container, List.forall_mem_map]
    exact induction_on_fields step fields
  | scalar _ | byteVector _ | byteList _ | bitvector _ | bitlist _ => step _ <| by simp [parts]

theorem induction_on_fields {motive : Shape → Prop}
    (step : ∀ shape : Shape, (∀ part ∈ shape.parts, motive part) → motive shape) :
    (fields : List (String × Shape)) → ∀ field ∈ fields, motive field.2
  | [] => by simp
  | (name, shape) :: fields => by
    rw [List.forall_mem_cons]
    exact ⟨induction_on_parts step shape, induction_on_fields step fields⟩

end

/-- A property of a shape, of its parts, of the parts of those, and so on. -/
inductive Everywhere (p : Shape → Prop) : Shape → Prop
  | intro {shape : Shape} (own : p shape) (parts : ∀ part ∈ shape.parts, Everywhere p part) :
    Everywhere p shape

theorem Everywhere.imp {p q : Shape → Prop} {shape : Shape} (heverywhere : shape.Everywhere p)
    (himp : ∀ part, p part → q part) : shape.Everywhere q := by
  induction heverywhere with
  | intro own _ ih => exact .intro (himp _ own) ih

theorem everywhere_iff {p : Shape → Prop} {shape : Shape} :
    shape.Everywhere p ↔ p shape ∧ ∀ part ∈ shape.parts, part.Everywhere p :=
  ⟨fun ⟨own, parts⟩ => ⟨own, parts⟩, fun ⟨own, parts⟩ => ⟨own, parts⟩⟩

mutual

def everywhere (p : Shape → Bool) : Shape → Bool
  | shape@(vector element _) => p shape && element.everywhere p
  | shape@(list element _) => p shape && element.everywhere p
  | shape@(container fields) => p shape && everywhereFields p fields
  | shape => p shape

def everywhereFields (p : Shape → Bool) : List (String × Shape) → Bool
  | [] => true
  | (_, shape) :: fields => shape.everywhere p && everywhereFields p fields

end

mutual

theorem everywhere_eq_true_iff {p : Shape → Bool} :
    (shape : Shape) → (shape.everywhere p = true ↔ shape.Everywhere fun part => p part = true)
  | vector element length => by
    rw [everywhere_iff, everywhere, Bool.and_eq_true, everywhere_eq_true_iff element]
    simp
  | list element limit => by
    rw [everywhere_iff, everywhere, Bool.and_eq_true, everywhere_eq_true_iff element]
    simp
  | container fields => by
    rw [everywhere_iff, everywhere, Bool.and_eq_true, everywhereFields_eq_true_iff fields,
      parts_container, List.forall_mem_map]
  | scalar _ | byteVector _ | byteList _ | bitvector _ | bitlist _ => by
    rw [everywhere_iff]
    simp [everywhere, parts]

theorem everywhereFields_eq_true_iff {p : Shape → Bool} :
    (fields : List (String × Shape)) → (everywhereFields p fields = true ↔
      ∀ field ∈ fields, field.2.Everywhere fun part => p part = true)
  | [] => by simp [everywhereFields]
  | (name, shape) :: fields => by
    rw [everywhereFields, Bool.and_eq_true, everywhere_eq_true_iff shape,
      everywhereFields_eq_true_iff fields, List.forall_mem_cons]

end

instance {p : Shape → Prop} [DecidablePred p] : DecidablePred (Everywhere p) := fun shape =>
  decidable_of_iff (shape.everywhere fun part => decide (p part)) <| by
    rw [everywhere_eq_true_iff]
    simp only [decide_eq_true_eq]

/-- The shapes that checking lets through, their parts having been let through before. -/
def Built : Shape → Prop := Everywhere fun shape => shape.check = .ok shape

mutual

/-- The size of every encoding as a number without bound. -/
def exactSize? : Shape → Option Nat
  | scalar kind => some kind.size
  | byteVector length => some length
  | byteList _ => none
  | bitvector length => some (Bytes.ceilDiv length 8)
  | bitlist _ => none
  | vector element length => element.exactSize?.map fun size => size * length
  | list _ _ => none
  | container fields => exactSizes? fields

def exactSizes? : List (String × Shape) → Option Nat
  | [] => some 0
  | (_, shape) :: fields =>
    match shape.exactSize? with
    | none => none
    | some size => (exactSizes? fields).map (size + ·)

end

def exactHeadSize (shape : Shape) : Nat := shape.exactSize?.getD offsetSize

/-- The size of the head of a series of parts. -/
def headOf (parts : List Shape) : Nat := (parts.map exactHeadSize).sum

/-- The head of an encoding, where its parts are known from the shape. -/
def exactHead : Shape → Nat
  | vector element length => headOf (List.replicate length element)
  | container fields => headOf (fields.map Prod.snd)
  | _ => 0

/-- A word holds the size of the head. -/
def HeadFits (shape : Shape) : Prop := shape.exactHead < wordBound

instance : DecidablePred HeadFits := fun _ => inferInstanceAs (Decidable (_ < _))

/-- Neither the size nor the head of a shape is too large for a word. -/
structure SizeFits (shape : Shape) : Prop where
  size_lt : ∀ size ∈ shape.exactSize?, size < wordBound
  head_lt : shape.exactHead < wordBound

def SizesFit : Shape → Prop := Everywhere SizeFits

instance : DecidablePred SizeFits := fun shape =>
  decidable_of_iff ((∀ size ∈ shape.exactSize?, size < wordBound) ∧ shape.exactHead < wordBound)
    ⟨fun ⟨hsize, hhead⟩ => ⟨hsize, hhead⟩, fun ⟨hsize, hhead⟩ => ⟨hsize, hhead⟩⟩

instance : DecidablePred SizesFit := fun shape =>
  inferInstanceAs (Decidable (shape.Everywhere SizeFits))

theorem sizesFit_byteVector {length : Nat} (hlength : length < wordBound) :
    (byteVector length).SizesFit := by
  refine everywhere_iff.mpr ⟨⟨?_, Nat.two_pow_pos 64⟩, List.forall_mem_nil _⟩
  rintro size ⟨⟩
  exact hlength

theorem sizesFit_of_variable {shape : Shape} (hsize : shape.exactSize? = none)
    (hhead : shape.exactHead < wordBound) (hparts : ∀ part ∈ shape.parts, part.SizesFit) :
    shape.SizesFit := by
  refine everywhere_iff.mpr ⟨⟨?_, hhead⟩, hparts⟩
  intro size hmem
  rw [hsize] at hmem
  cases hmem

theorem sizesFit_byteList (limit : Nat) : (byteList limit).SizesFit :=
  sizesFit_of_variable rfl (Nat.two_pow_pos 64) (List.forall_mem_nil _)

theorem sizesFit_list {element : Shape} (helement : element.SizesFit) (limit : Nat) :
    (list element limit).SizesFit := by
  refine sizesFit_of_variable rfl (Nat.two_pow_pos 64) ?_
  simpa using helement

theorem headOf_replicate (length : Nat) (element : Shape) :
    headOf (List.replicate length element) = length * element.exactHeadSize := by
  simp [headOf]

theorem headOf_cons (shape : Shape) (shapes : List Shape) :
    headOf (shape :: shapes) = shape.exactHeadSize + headOf shapes := by
  simp [headOf]

theorem headOf_append (before after : List Shape) :
    headOf (before ++ after) = headOf before + headOf after := by
  simp [headOf]

theorem exactSizes?_cons (name : String) (shape : Shape) (fields : List (String × Shape)) :
    exactSizes? ((name, shape) :: fields)
      = shape.exactSize?.bind fun size => (exactSizes? fields).map (size + ·) := by
  cases h : shape.exactSize? <;> simp [exactSizes?, h]

/-- A container is of fixed size if all its fields are, and then it is all head. -/
theorem exactSizes?_eq_some_iff {fields : List (String × Shape)} {size : Nat} :
    exactSizes? fields = some size ↔
      (∀ field ∈ fields, field.2.exactSize?.isSome) ∧ size = headOf (fields.map Prod.snd) := by
  induction fields generalizing size with
  | nil => simp [exactSizes?, headOf, eq_comm (a := size)]
  | cons field fields ih =>
    obtain ⟨name, shape⟩ := field
    rw [exactSizes?_cons]
    cases hsize : shape.exactSize? with
    | none => simp [hsize]
    | some own =>
      simp only [Option.bind_some, Option.map_eq_some_iff, ih, List.forall_mem_cons, hsize,
        Option.isSome_some, true_and, List.map_cons, headOf_cons, exactHeadSize, Option.getD_some]
      constructor
      · rintro ⟨rest, ⟨hfixed, rfl⟩, rfl⟩
        exact ⟨hfixed, rfl⟩
      · rintro ⟨hfixed, rfl⟩
        exact ⟨_, ⟨hfixed, rfl⟩, rfl⟩

/-! ### Sizes computed with words -/

/-- Computing the size comes to an end, and with the exact size. -/
def Sized (shape : Shape) : Prop := shape.fixedSize? = .ok shape.exactSize?

theorem eq_of_fixedSizes? {fields : List (String × Shape)} {sum : Nat} {size? : Option Nat}
    (hparts : ∀ field ∈ fields, ∀ size?, field.2.fixedSize? = .ok size? →
      field.2.exactSize? = size?)
    (hsize : fixedSizes? sum fields = .ok size?) :
    (exactSizes? fields).map (sum + ·) = size? := by
  induction fields generalizing sum with
  | nil =>
    cases hsize
    rfl
  | cons field fields ih =>
    obtain ⟨name, shape⟩ := field
    rw [List.forall_mem_cons] at hparts
    rw [fixedSizes?, bind_eq_ok_iff] at hsize
    obtain ⟨own, hown, hsize⟩ := hsize
    rw [exactSizes?_cons, hparts.1 own hown]
    cases own with
    | none =>
      cases hsize
      rfl
    | some own =>
      obtain ⟨_, hsum, hrest⟩ := bind_eq_ok_iff.mp hsize
      obtain ⟨rfl, -⟩ := addWord_eq_ok_iff.mp hsum
      rw [← ih hparts.2 hrest, Option.bind_some, Option.map_map]
      simp only [Function.comp_def, Nat.add_assoc]

theorem exists_fixedSize?_of_vector {element : Shape} {length : Nat} {size? : Option Nat}
    (hsize : (vector element length).fixedSize? = .ok size?) :
    ∃ own?, element.fixedSize? = .ok own? ∧ own?.map (· * length) = size? := by
  rw [fixedSize?, bind_eq_ok_iff] at hsize
  obtain ⟨own?, hown, hsize⟩ := hsize
  refine ⟨own?, hown, ?_⟩
  cases own? with
  | none =>
    cases hsize
    rfl
  | some own =>
    obtain ⟨_, hproduct, hsize⟩ := bind_eq_ok_iff.mp hsize
    obtain ⟨rfl, -⟩ := mulWord_eq_ok_iff.mp hproduct
    cases hsize
    rfl

/-- No sum and no product passes the bound of words unnoticed. -/
theorem exactSize?_of_fixedSize? {shape : Shape} {size? : Option Nat}
    (hsize : shape.fixedSize? = .ok size?) : shape.exactSize? = size? := by
  induction shape using induction_on_parts generalizing size? with
  | step shape ih =>
    cases shape with
    | vector element length =>
      obtain ⟨own?, hown, rfl⟩ := exists_fixedSize?_of_vector hsize
      rw [exactSize?, ih element (by simp) hown]
    | container fields =>
      have hfields := eq_of_fixedSizes?
        (fun field hfield _ => ih field.2 (List.mem_map_of_mem hfield)) hsize
      rw [exactSize?, ← hfields]
      simp
    | _ =>
      cases hsize
      rfl

theorem sized_iff {shape : Shape} : shape.Sized ↔ ∃ size?, shape.fixedSize? = .ok size? := by
  constructor
  · intro hsized
    exact ⟨_, hsized⟩
  · rintro ⟨size?, hsize⟩
    rw [Sized, hsize, exactSize?_of_fixedSize? hsize]

theorem fixedSizes?_of_sized {fields : List (String × Shape)} {sum : Nat}
    (hparts : ∀ field ∈ fields, field.2.Sized)
    (hfits : sum + headOf (fields.map Prod.snd) < wordBound) :
    fixedSizes? sum fields = .ok ((exactSizes? fields).map (sum + ·)) := by
  induction fields generalizing sum with
  | nil => rfl
  | cons field fields ih =>
    obtain ⟨name, shape⟩ := field
    rw [List.forall_mem_cons] at hparts
    rw [List.map_cons, headOf_cons] at hfits
    have hown : shape.fixedSize? = .ok shape.exactSize? := hparts.1
    rw [exactSizes?_cons, fixedSizes?, hown, ok_bind]
    cases hsize : shape.exactSize? with
    | none => rfl
    | some own =>
      simp only [exactHeadSize, hsize, Option.getD_some] at hfits
      have hsum : addWord sum own = .ok (sum + own) := addWord_eq_ok_iff.mpr ⟨rfl, by omega⟩
      dsimp only
      rw [hsum, ok_bind, ih hparts.2 (by omega), Option.bind_some, Option.map_map]
      simp only [Function.comp_def, Nat.add_assoc]

theorem sum_lt_of_fixedSizes? {fields : List (String × Shape)} {sum size : Nat}
    (hsum : sum < wordBound) (hsize : fixedSizes? sum fields = .ok (some size)) :
    size < wordBound := by
  induction fields generalizing sum with
  | nil =>
    cases hsize
    exact hsum
  | cons field fields ih =>
    obtain ⟨own?, -, hsize⟩ := bind_eq_ok_iff.mp hsize
    cases own? with
    | none => cases hsize
    | some own =>
      obtain ⟨_, hnext, hrest⟩ := bind_eq_ok_iff.mp hsize
      obtain ⟨rfl, hlt⟩ := addWord_eq_ok_iff.mp hnext
      exact ih hlt hrest

/-- The size of a container of fixed size can be computed if a word holds it. -/
theorem sized_container_iff {fields : List (String × Shape)}
    (hparts : ∀ field ∈ fields, field.2.Sized) {size : Nat}
    (hsize : exactSizes? fields = some size) : (container fields).Sized ↔ size < wordBound := by
  constructor
  · intro hsized
    have hfields : fixedSizes? 0 fields = .ok (some size) := hsized.trans (congrArg Except.ok hsize)
    exact sum_lt_of_fixedSizes? (Nat.two_pow_pos 64) hfields
  · intro hlt
    obtain ⟨-, rfl⟩ := exactSizes?_eq_some_iff.mp hsize
    rw [Sized, fixedSize?, fixedSizes?_of_sized hparts (by omega), exactSize?]
    simp

/-- Where all heads fit, every size can be computed. -/
theorem sized_of_headFits {shape : Shape} (hheads : shape.Everywhere HeadFits) : shape.Sized := by
  induction hheads with
  | @intro shape own _ ih =>
    cases shape with
    | vector element length =>
      have helement : element.fixedSize? = .ok element.exactSize? := ih element (by simp)
      rw [Sized, fixedSize?, exactSize?, helement, ok_bind]
      cases hsize : element.exactSize? with
      | none => rfl
      | some size =>
        rw [HeadFits, exactHead, headOf_replicate, exactHeadSize, hsize, Option.getD_some,
          Nat.mul_comm] at own
        dsimp only
        rw [mulWord_eq_ok_iff.mpr ⟨rfl, own⟩]
        rfl
    | container fields =>
      have hhead : 0 + headOf (fields.map Prod.snd) < wordBound := by
        rw [Nat.zero_add]
        exact own
      rw [Sized, fixedSize?, exactSize?, fixedSizes?_of_sized _ hhead]
      · simp
      · intro field hfield
        exact ih field.2 (List.mem_map_of_mem hfield)
    | _ => rfl

theorem sized_of_fits {shape : Shape} (hfits : shape.SizesFit) : shape.Sized :=
  sized_of_headFits (hfits.imp fun _ own => own.head_lt)

theorem fixedSize?_of_fits {shape : Shape} (hfits : shape.SizesFit) :
    shape.fixedSize? = .ok shape.exactSize? := sized_of_fits hfits

/-! ### Shapes that are built -/

theorem check_eq_ok_iff {shape : Shape} :
    shape.check = .ok shape ↔ shape.emptiness = none ∧ shape.sizeFits = .ok true ∧
      shape.declared < wordBound ∧ shape.chunkLimit ≤ 2 ^ (maxDepth - 1) := by
  unfold check
  cases hempty : shape.emptiness with
  | some e => simp
  | none =>
    simp only [bind_eq_ok_iff, mapError_eq_ok_iff, ite_error_eq_ok_iff, and_true, true_and]
    constructor
    · rintro ⟨fits, hsize, hlimit⟩
      simp only [Bool.or_eq_true, Bool.not_eq_true', decide_eq_true_eq, not_or,
        Bool.not_eq_false] at hlimit
      obtain ⟨⟨rfl, hdeclared⟩, hchunks⟩ := hlimit
      exact ⟨hsize, by omega, by omega⟩
    · rintro ⟨hsize, hdeclared, hchunks⟩
      refine ⟨true, hsize, ?_⟩
      simp only [Bool.not_true, Bool.false_or, Bool.or_eq_true, decide_eq_true_eq, not_or]
      omega

theorem eq_of_check {shape shape' : Shape} (hcheck : shape.check = .ok shape') :
    shape' = shape := by
  unfold check at hcheck
  split at hcheck
  · cases hcheck
  · obtain ⟨fits, -, hcheck⟩ := bind_eq_ok_iff.mp hcheck
    exact (Except.ok.inj (ite_error_eq_ok_iff.mp hcheck).2).symm

instance (fits? : Except Halt Bool) : Decidable (fits? = .ok true) :=
  match fits? with
  | .ok fits => decidable_of_iff (fits = true) (by simp)
  | .error _ => isFalse nofun

instance (shape : Shape) : Decidable (shape.check = .ok shape) :=
  decidable_of_iff _ check_eq_ok_iff.symm

instance : DecidablePred Built := fun shape =>
  inferInstanceAs (Decidable (shape.Everywhere fun part => part.check = .ok part))

/-- The check of a vector has its size computed, and keeps it in a word. -/
theorem exists_fixedSize?_of_check {element : Shape} {length : Nat}
    (hcheck : (vector element length).check = .ok (vector element length)) :
    ∃ size?, (vector element length).fixedSize? = .ok size? := by
  obtain ⟨-, hfits, -, -⟩ := check_eq_ok_iff.mp hcheck
  obtain ⟨own?, hown, hfits⟩ := bind_eq_ok_iff.mp hfits
  cases own? with
  | none => exact ⟨none, by rw [fixedSize?, hown]; rfl⟩
  | some own =>
    have hproduct : own * length < wordBound := of_decide_eq_true (Except.ok.inj hfits)
    refine ⟨some (own * length), ?_⟩
    rw [fixedSize?, hown, ok_bind]
    dsimp only
    rw [mulWord, if_pos hproduct]
    rfl

/-- No encoding of fixed size is empty. -/
theorem exactSize?_pos {shape : Shape} (hbuilt : shape.Built) {size : Nat}
    (hsize : shape.exactSize? = some size) : 0 < size := by
  induction hbuilt generalizing size with
  | @intro shape own hparts ih =>
    obtain ⟨hnonempty, -, -, -⟩ := check_eq_ok_iff.mp own
    cases shape with
    | scalar kind =>
      cases hsize
      exact kind.size_bounds.1
    | byteVector length =>
      cases hsize
      apply Nat.pos_of_ne_zero
      intro hzero
      simp [hzero, emptiness] at hnonempty
    | bitvector length =>
      cases hsize
      have hlength : length ≠ 0 := fun hzero => by simp [hzero, emptiness] at hnonempty
      unfold Bytes.ceilDiv
      omega
    | vector element length =>
      obtain ⟨own, helement, rfl⟩ := Option.map_eq_some_iff.mp hsize
      have hown := ih element (by simp) helement
      cases length with
      | zero => simp [emptiness] at hnonempty
      | succ length => exact Nat.mul_pos hown (Nat.succ_pos length)
    | container fields =>
      obtain ⟨hfixed, rfl⟩ := exactSizes?_eq_some_iff.mp hsize
      cases fields with
      | nil => simp [emptiness] at hnonempty
      | cons field fields =>
        rw [List.forall_mem_cons] at hfixed
        obtain ⟨own, hown⟩ := Option.isSome_iff_exists.mp hfixed.1
        have := ih field.2 (by simp) hown
        rw [List.map_cons, headOf_cons, exactHeadSize, hown, Option.getD_some]
        omega
    | _ => simp [exactSize?] at hsize

end Shape

end SimpleSerialize
