import SimpleSerialize.Proofs.Bytes.Bits

/-!
Bytes that end in a delimiter: the highest bit set, which only tells where the bits before it end.
Without it they are the bytes of those bits (`dropDelimiter_ofBits`).
-/

namespace SimpleSerialize.Bytes

/-- A byte without the highest of its bits that is set. -/
def clearHighest (b : UInt8) : UInt8 := UInt8.ofNat (b.toNat - 2 ^ Nat.log2 b.toNat)

/--
The bytes without the highest bit set of the last one, and without that byte if there is nothing
else in it.
-/
def dropDelimiter : Bytes → Bytes
  | [] => []
  | [last] => if last = 1 then [] else [clearHighest last]
  | b :: next :: bs => b :: dropDelimiter (next :: bs)

theorem dropDelimiter_cons {bs : Bytes} (hne : bs ≠ []) (b : UInt8) :
    dropDelimiter (b :: bs) = b :: dropDelimiter bs := by
  cases bs with
  | nil => exact absurd rfl hne
  | cons next bs => rfl

variable {run bits : List Bool}

/-- Eight bits make up a byte, whatever follows them. -/
theorem ofBits_append (hrun : run.length = 8) (bits : List Bool) :
    ofBits (run ++ bits) = byteOfBits run :: ofBits bits := by
  have hcount : ceilDiv (run ++ bits).length 8 = ceilDiv bits.length 8 + 1 := by
    rw [List.length_append, ceilDiv, ceilDiv]
    omega
  rw [ofBits, hcount, runs, List.map_cons, List.take_left' hrun, List.drop_left' hrun, ofBits]

/-- The bits of a last byte that is not full. -/
theorem ofBits_of_short (hpos : 0 < bits.length) (hshort : bits.length ≤ 8) :
    ofBits bits = [byteOfBits bits] := by
  have hcount : ceilDiv bits.length 8 = 1 := by
    rw [ceilDiv]
    omega
  rw [ofBits, hcount, runs, runs, List.take_of_length_le hshort, List.map_singleton]

/-- One more bit takes one more byte exactly where the bits before it fill theirs. -/
theorem length_ofBits_append_true (bits : List Bool) :
    (ofBits (bits ++ [true])).length = bits.length / 8 + 1 := by
  rw [length_ofBits, List.length_append, List.length_singleton, ceilDiv]
  omega

theorem foldr_bits_append_true (bits : List Bool) :
    (bits ++ [true]).foldr (fun (bit : Bool) rest => bit.toNat + 2 * rest) 0
      = bits.foldr (fun (bit : Bool) rest => bit.toNat + 2 * rest) 0 + 2 ^ bits.length := by
  induction bits with
  | nil => rfl
  | cons bit bits ih =>
    rw [List.cons_append, List.foldr_cons, ih, List.foldr_cons, List.length_cons, Nat.pow_succ]
    omega

/-- Below a bit that is higher than all of them, bits are read as they are without it. -/
theorem log2_append_true (bits : List Bool) :
    Nat.log2 ((bits ++ [true]).foldr (fun (bit : Bool) rest => bit.toNat + 2 * rest) 0)
      = bits.length := by
  have hlt := foldr_bits_lt bits
  have hpos := Nat.two_pow_pos bits.length
  rw [foldr_bits_append_true, Nat.log2_eq_iff (by omega), Nat.pow_succ]
  omega

theorem length_append_true_le (hshort : bits.length < 8) : (bits ++ [true]).length ≤ 8 := by
  rwa [List.length_append, List.length_singleton]

theorem clearHighest_byteOfBits (hshort : bits.length < 8) :
    clearHighest (byteOfBits (bits ++ [true])) = byteOfBits bits := by
  have hnumber := toNat_byteOfBits (length_append_true_le hshort)
  calc clearHighest (byteOfBits (bits ++ [true]))
      = UInt8.ofNat (bits.foldr (fun (bit : Bool) rest => bit.toNat + 2 * rest) 0) := by
        rw [clearHighest, hnumber, log2_append_true, foldr_bits_append_true, Nat.add_sub_cancel]
    _ = UInt8.ofNat (byteOfBits bits).toNat := by rw [toNat_byteOfBits (Nat.le_of_lt hshort)]
    _ = byteOfBits bits := UInt8.ofNat_toNat

theorem byteOfBits_append_true_eq_one_iff (hshort : bits.length < 8) :
    byteOfBits (bits ++ [true]) = 1 ↔ bits = [] := by
  have hlength := length_append_true_le hshort
  have hpos := Nat.two_pow_pos bits.length
  rw [← UInt8.toNat_inj, toNat_byteOfBits hlength, foldr_bits_append_true]
  cases bits with
  | nil => simp
  | cons bit bits =>
    have hpos := Nat.two_pow_pos bits.length
    rw [List.length_cons, Nat.pow_succ, UInt8.toNat_one]
    simp only [reduceCtorEq, iff_false]
    omega

theorem dropDelimiter_ofBits (bits : List Bool) :
    dropDelimiter (ofBits (bits ++ [true])) = ofBits bits := by
  induction hcount : bits.length / 8 generalizing bits with
  | zero =>
    have hshort : bits.length < 8 := by omega
    rw [ofBits_of_short (by simp) (length_append_true_le hshort), dropDelimiter,
      clearHighest_byteOfBits hshort]
    by_cases hempty : bits = []
    · rw [if_pos ((byteOfBits_append_true_eq_one_iff hshort).mpr hempty), hempty]
      rfl
    · have hpos := List.length_pos_iff.mpr hempty
      rw [if_neg (mt (byteOfBits_append_true_eq_one_iff hshort).mp hempty),
        ofBits_of_short hpos (Nat.le_of_lt hshort)]
  | succ count ih =>
    have hrun : (bits.take 8).length = 8 := by
      rw [List.length_take]
      omega
    have hne : ofBits (bits.drop 8 ++ [true]) ≠ [] := by
      rw [← List.length_pos_iff, length_ofBits_append_true]
      exact Nat.succ_pos _
    have hrest := ih (bits.drop 8) (by rw [List.length_drop]; omega)
    rw [← List.take_append_drop 8 bits, List.append_assoc, ofBits_append hrun,
      dropDelimiter_cons hne, hrest, ofBits_append hrun]

example : dropDelimiter [0, 0xff, 0x01] = [0, 0xff] := by decide

end SimpleSerialize.Bytes
