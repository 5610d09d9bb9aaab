import SimpleSerialize.Proofs.Wire.Kinds
import SimpleSerialize.Wire.Guarded

/-!
The guarded steps, and the guarded decoding of bits and scalars: no step of it goes wrong, so that
it ends as the decoding without guards does.
-/

namespace SimpleSerialize.Guarded

variable {α β : Type} {bs : Bytes} {length count i a b start stop : Nat}

@[simp] theorem ofExcept_ok (a : α) : ofExcept (.ok a) = .ok a := rfl

theorem ofExcept_error {e : DecodeError} (hreturned : ∀ halt, e ≠ .halted halt) :
    (ofExcept (.error e) : Guarded α) = refuse e := by
  cases e with
  | halted halt => exact absurd rfl (hreturned halt)
  | _ => rfl

/-- A halt is the one error that is not returned. -/
theorem ofWords_eq_ofExcept (x : Except Halt α) :
    ofWords x = ofExcept (x.mapError .halted) := by
  cases x <;> rfl

theorem ofExcept_bind (x : Except DecodeError α) (f : α → Except DecodeError β) :
    ofExcept (x >>= f) = ofExcept x >>= fun a => ofExcept (f a) :=
  mapError_bind _ x f

theorem mapM_ofExcept {f : α → Except DecodeError β} {g : α → Guarded β}
    (hsteps : ∀ x, g x = ofExcept (f x)) (xs : List α) : xs.mapM g = ofExcept (xs.mapM f) := by
  induction xs with
  | nil => rfl
  | cons x xs ih =>
    simp only [List.mapM_cons, hsteps, ih, ofExcept_bind]
    rfl

theorem slice_of_le (hstart : start ≤ stop) (hstop : stop ≤ bs.length) :
    slice bs start stop = .ok ((bs.drop start).take (stop - start)) :=
  if_pos ⟨hstart, hstop⟩

theorem readArray_of_le (hcount : count ≤ bs.length) : readArray count bs = .ok (bs.take count) :=
  slice_of_le (Nat.zero_le _) hcount

theorem get_of_getElem? {xs : List α} {x : α} (hget : xs[i]? = some x) : get xs i = .ok x := by
  rw [get, hget]

theorem set_of_lt {xs : List α} (hi : i < xs.length) (x : α) : set xs i x = .ok (xs.set i x) :=
  if_pos hi

theorem sub_of_le (hle : b ≤ a) : sub a b = .ok (a - b) := if_pos hle

theorem shiftRight_of_lt (hi : i < 8) (b : UInt8) :
    shiftRight b i = .ok (b >>> UInt8.ofNat i) := if_pos hi

theorem div_of_pos (hb : 0 < b) : div a b = .ok (a / b) := if_neg (Nat.ne_of_gt hb)

theorem mod_of_pos (hb : 0 < b) : mod a b = .ok (a % b) := if_neg (Nat.ne_of_gt hb)

/-! ### Bits -/

theorem bit_of_getElem? {set : Bool} (hget : (Bytes.toBits bs)[i]? = some set) :
    bit bs i = .ok set := by
  rw [Bytes.getElem?_toBits, Option.map_eq_some_iff] at hget
  obtain ⟨b, hb, rfl⟩ := hget
  have hi : i % 8 < 8 := Nat.mod_lt _ (by decide)
  rw [bit, get_of_getElem? hb, ok_bind, shiftRight_of_lt hi, ok_bind, Bytes.shiftRight_and_one hi]
  rfl

theorem bits_of_le (hcount : count ≤ 8 * bs.length) :
    bits bs count = .ok ((Bytes.toBits bs).take count) := by
  rw [bits, mapM_eq_ok_iff]
  apply List.ext_getElem?
  intro i
  rw [List.getElem?_map, List.getElem?_map]
  by_cases hi : i < count
  · have hlt : i < (Bytes.toBits bs).length := by
      rw [Bytes.length_toBits]
      omega
    have hget := List.getElem?_eq_getElem hlt
    rw [List.getElem?_range hi, List.getElem?_take_of_lt hi, hget, Option.map_some,
      bit_of_getElem? hget, Option.map_some]
  · rw [List.getElem?_eq_none (by simpa using hi), List.getElem?_eq_none (by simp; omega)]
    rfl

theorem any_drop_eq_true_iff {set : List Bool} :
    (set.drop length).any id = true ↔ ∃ i, length ≤ i ∧ set[i]? = some true := by
  rw [List.any_eq_true]
  constructor
  · rintro ⟨_, hmem, rfl⟩
    obtain ⟨i, hi⟩ := List.mem_iff_getElem?.mp hmem
    exact ⟨length + i, Nat.le_add_right _ _, by rwa [List.getElem?_drop] at hi⟩
  · rintro ⟨i, hle, hi⟩
    refine ⟨true, List.mem_iff_getElem?.mpr ⟨i - length, ?_⟩, rfl⟩
    rwa [List.getElem?_drop, Nat.add_sub_cancel' hle]

/-- The high bits of the last byte are those that fill it. -/
theorem any_drop_toBits_iff {last : UInt8} (hlast : bs[bs.length - 1]? = some last)
    (hlow : 8 * (bs.length - 1) ≤ length) :
    ((Bytes.toBits bs).drop length).any id = true ↔
      ∃ j, length - 8 * (bs.length - 1) ≤ j ∧ j < 8 ∧ last.toNat.testBit j = true := by
  rw [any_drop_eq_true_iff]
  constructor
  · rintro ⟨i, hi, hbit⟩
    rw [Bytes.getElem?_toBits, Option.map_eq_some_iff] at hbit
    obtain ⟨b, hb, hset⟩ := hbit
    obtain ⟨hlt, -⟩ := List.getElem?_eq_some_iff.mp hb
    rw [show i / 8 = bs.length - 1 by omega, hlast, Option.some.injEq] at hb
    subst hb
    exact ⟨i % 8, by omega, Nat.mod_lt _ (by decide), hset⟩
  · rintro ⟨j, hle, hj, hset⟩
    refine ⟨8 * (bs.length - 1) + j, by omega, ?_⟩
    rw [Bytes.getElem?_toBits, show (8 * (bs.length - 1) + j) / 8 = bs.length - 1 by omega,
      show (8 * (bs.length - 1) + j) % 8 = j by omega, hlast, Option.map_some, hset]

theorem checkPadding_eq (hlength : bs.length = Bytes.ceilDiv length 8) :
    checkPadding length bs =
      if ((Bytes.toBits bs).drop length).any id then refuse .nonZeroPadding else .ok () := by
  unfold Bytes.ceilDiv at hlength
  have hroom : length ≤ 8 * bs.length := by omega
  rw [checkPadding, sub_of_le hroom, ok_bind]
  by_cases hpadding : 8 * bs.length - length > 0
  · obtain ⟨last, hlast⟩ : ∃ last, bs[bs.length - 1]? = some last :=
      ⟨_, List.getElem?_eq_getElem (by omega)⟩
    have hamount : 8 - (8 * bs.length - length) < 8 := by omega
    have hzero : last >>> UInt8.ofNat (8 - (8 * bs.length - length)) = 0 ↔
        ¬((Bytes.toBits bs).drop length).any id = true := by
      rw [Bytes.shiftRight_eq_zero_iff hamount, any_drop_toBits_iff hlast (by omega),
        show length - 8 * (bs.length - 1) = 8 - (8 * bs.length - length) by omega]
      simp only [not_exists, not_and, Bool.not_eq_true]
    rw [if_pos hpadding, sub_of_le (by omega), ok_bind, get_of_getElem? hlast, ok_bind,
      sub_of_le (by omega), ok_bind, shiftRight_of_lt hamount, ok_bind]
    simp only [hzero, ite_not]
  · have hnone : (Bytes.toBits bs).drop length = [] := by
      rw [List.drop_eq_nil_iff, Bytes.length_toBits]
      omega
    rw [if_neg hpadding, hnone, if_neg (by simp)]

theorem readBitvector_eq (length : Nat) (bs : Bytes) :
    readBitvector length bs = ofExcept (Wire.readBitvector length bs) := by
  rw [readBitvector, Wire.readBitvector]
  cases hlength : expectLength (Bytes.ceilDiv length 8) bs with
  | error e => rfl
  | ok u =>
    have hsize := expectLength_eq_ok_iff.mp hlength
    have hroom := Bytes.le_mul_ceilDiv (by decide : 0 < 8) length
    rw [ofExcept_ok, ok_bind, checkPadding_eq hsize, bits_of_le (by omega)]
    show _ = ofExcept (if _ then _ else _)
    split <;> rfl

theorem leadingZeros_of_ne_zero {b : UInt8} (hb : b ≠ 0) :
    leadingZeros b ≤ 7 ∧ 7 - leadingZeros b = Nat.log2 b.toNat := by
  obtain ⟨hlog, -⟩ := Bytes.bitsOfByte_eq_of_ne_zero hb
  rw [leadingZeros, if_neg hb]
  omega

theorem readBitlist_eq (limit : Nat) (bs : Bytes) :
    readBitlist limit bs = ofExcept (Wire.readBitlist limit bs) := by
  rw [readBitlist, Wire.readBitlist]
  cases hlast : bs.getLast? with
  | none => rfl
  | some last =>
    by_cases hzero : last = 0
    · simp [if_pos hzero, ofExcept_error]
    obtain ⟨hcount, -⟩ := Bytes.toBits_eq_of_getLast? hlast hzero
    obtain ⟨hle, hlog⟩ := leadingZeros_of_ne_zero hzero
    simp only [if_neg hzero]
    rw [sub_of_le (by omega), ok_bind, sub_of_le hle, ok_bind, hlog]
    cases requireCount limit (8 * (bs.length - 1) + Nat.log2 last.toNat) with
    | error e => rfl
    | ok u =>
      rw [ofExcept_ok, ok_bind, bits_of_le (Nat.le_of_lt hcount)]
      rfl

/-! ### Scalars -/

theorem readBool_singleton (b : UInt8) :
    readBool [b] = if b = 0 then .ok (.bool false) else if b = 1 then .ok (.bool true)
      else refuse (.invalidBool b) := rfl

theorem readNumber_eq {width : UIntWidth} (hsize : bs.length = width.size) :
    readNumber width bs = .ok (Bytes.ofLittleEndian bs) := by
  have hfield : readArray width.size bs = .ok bs := by
    rw [readArray_of_le (Nat.le_of_eq hsize.symm), List.take_of_length_le (Nat.le_of_eq hsize)]
  cases width with
  | w8 =>
    obtain ⟨b, rfl⟩ := List.length_eq_one_iff.mp hsize
    rfl
  | w16 =>
    match bs, hsize with
    | [low, high], _ => rfl
  | _ =>
    rw [readNumber, hfield]
    · rfl
    all_goals exact nofun

theorem readScalar_eq (kind : Scalar) (bs : Bytes) :
    readScalar kind bs = ofExcept (kind.decode bs) := by
  unfold readScalar Scalar.decode
  cases hlength : expectLength kind.size bs with
  | error e => rfl
  | ok u =>
    have hsize := expectLength_eq_ok_iff.mp hlength
    rw [ofExcept_ok, ok_bind]
    cases kind with
    | bool =>
      obtain ⟨b, rfl⟩ := List.length_eq_one_iff.mp hsize
      by_cases hzero : b = 0
      · simp [readBool_singleton, hzero]
      by_cases hone : b = 1
      · simp [readBool_singleton, hone]
      · simp [readBool_singleton, hzero, hone, ofExcept_error]
    | uint width =>
      simp only [readNumber_eq hsize, ok_bind]
      rfl

end SimpleSerialize.Guarded
