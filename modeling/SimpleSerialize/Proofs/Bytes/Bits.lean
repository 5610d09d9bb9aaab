import SimpleSerialize.Proofs.Bytes.Runs

/-!
Bits packed into bytes: unpacking gives the bits back, followed by the zeros that fill the last byte
(`toBits_ofBits`), and packing the bits of a byte string gives the byte string (`ofBits_toBits`).
-/

namespace SimpleSerialize.Bytes

theorem testBit_foldr_bits (bits : List Bool) (i : Nat) :
    (bits.foldr (fun (bit : Bool) rest => bit.toNat + 2 * rest) 0).testBit i
      = bits[i]?.getD false := by
  induction bits generalizing i with
  | nil => simp
  | cons bit bits ih =>
    rw [List.foldr_cons]
    cases i with
    | zero =>
      rw [Nat.testBit_zero]
      cases bit <;> simp
    | succ i =>
      have hhalf (rest : Nat) : (bit.toNat + 2 * rest) / 2 = rest := by
        have := bit.toNat_lt
        omega
      rw [Nat.testBit_succ, hhalf, ih, List.getElem?_cons_succ]

theorem foldr_bits_lt (bits : List Bool) :
    bits.foldr (fun (bit : Bool) rest => bit.toNat + 2 * rest) 0 < 2 ^ bits.length := by
  induction bits with
  | nil => simp
  | cons bit bits ih =>
    have hbit := bit.toNat_le
    rw [List.foldr_cons, List.length_cons, Nat.pow_succ]
    omega

theorem toNat_byteOfBits {bits : List Bool} (hlength : bits.length ≤ 8) :
    (byteOfBits bits).toNat
      = bits.foldr (fun (bit : Bool) rest => bit.toNat + 2 * rest) 0 := by
  have hlt := foldr_bits_lt bits
  have hpow : 2 ^ bits.length ≤ 2 ^ 8 := Nat.pow_le_pow_right (by decide) hlength
  rw [byteOfBits, List.take_of_length_le hlength,
    UInt8.toNat_ofNat_of_lt' (by simp only [UInt8.size]; omega)]

theorem testBit_byteOfBits {bits : List Bool} (hlength : bits.length ≤ 8) (i : Nat) :
    (byteOfBits bits).toNat.testBit i = bits[i]?.getD false := by
  rw [toNat_byteOfBits hlength]
  exact testBit_foldr_bits bits i

@[simp] theorem length_bitsOfByte (b : UInt8) : (bitsOfByte b).length = 8 := by
  simp [bitsOfByte]

theorem getElem?_bitsOfByte {i : Nat} (hi : i < 8) (b : UInt8) :
    (bitsOfByte b)[i]? = some (b.toNat.testBit i) := by
  simp [bitsOfByte, hi]

/-- The lowest bit of a byte that was shifted. -/
theorem shiftRight_and_one {i : Nat} (hi : i < 8) (b : UInt8) :
    ((b >>> UInt8.ofNat i) &&& 1 == 1) = b.toNat.testBit i := by
  have hamount : i % 2 ^ 8 % 8 = i := by omega
  rw [Nat.testBit, Bool.eq_iff_iff]
  simp only [beq_iff_eq, bne_iff_ne, ← UInt8.toNat_inj, UInt8.toNat_and, UInt8.toNat_shiftRight,
    UInt8.toNat_ofNat', hamount]
  simp

theorem testBit_of_le {i : Nat} (hi : 8 ≤ i) (b : UInt8) : b.toNat.testBit i = false := by
  have hpow : 2 ^ 8 ≤ 2 ^ i := Nat.pow_le_pow_right (by decide) hi
  have hlt := b.toNat_lt
  exact Nat.testBit_lt_two_pow (by omega)

theorem eq_of_testBit {a b : UInt8} (h : ∀ i < 8, a.toNat.testBit i = b.toNat.testBit i) :
    a = b := by
  apply UInt8.toNat.inj
  apply Nat.eq_of_testBit_eq
  intro i
  by_cases hi : i < 8
  · exact h i hi
  · rw [testBit_of_le (Nat.le_of_not_lt hi), testBit_of_le (Nat.le_of_not_lt hi)]

theorem shiftRight_eq_zero_iff {i : Nat} (hi : i < 8) {b : UInt8} :
    b >>> UInt8.ofNat i = 0 ↔ ∀ j, i ≤ j → j < 8 → b.toNat.testBit j = false := by
  have hamount : i % 2 ^ 8 % 8 = i := by omega
  rw [← UInt8.toNat_inj, UInt8.toNat_shiftRight, UInt8.toNat_ofNat', hamount]
  constructor
  · intro hzero j hj _
    have hbit := congrArg (·.testBit (j - i)) hzero
    simpa [Nat.testBit_shiftRight, hj] using hbit
  · intro hall
    apply Nat.eq_of_testBit_eq
    intro j
    rw [Nat.testBit_shiftRight, UInt8.toNat_zero, Nat.zero_testBit]
    by_cases hj : i + j < 8
    · exact hall _ (Nat.le_add_right _ _) hj
    · exact testBit_of_le (Nat.le_of_not_lt hj) b

/-- A byte filled up from fewer than eight bits has zeros above them. -/
theorem bitsOfByte_byteOfBits {bits : List Bool} (hlength : bits.length ≤ 8) :
    bitsOfByte (byteOfBits bits) = bits ++ List.replicate (8 - bits.length) false := by
  apply List.ext_getElem?
  intro i
  by_cases hi : i < 8
  · rw [getElem?_bitsOfByte hi, testBit_byteOfBits hlength]
    by_cases hbit : i < bits.length
    · simp [List.getElem?_append_left, hbit]
    · have hpad : i - bits.length < 8 - bits.length := by omega
      rw [List.getElem?_append_right (by omega), List.getElem?_eq_none (by omega),
        List.getElem?_replicate_of_lt hpad, Option.getD_none]
  · rw [List.getElem?_eq_none (by simp; omega), List.getElem?_eq_none (by simp; omega)]

theorem byteOfBits_bitsOfByte (b : UInt8) : byteOfBits (bitsOfByte b) = b := by
  apply eq_of_testBit
  intro i hi
  rw [testBit_byteOfBits (by simp), getElem?_bitsOfByte hi, Option.getD_some]

theorem toBits_append (as bs : Bytes) : toBits (as ++ bs) = toBits as ++ toBits bs :=
  List.flatMap_append

theorem getElem?_toBits (bs : Bytes) (i : Nat) :
    (toBits bs)[i]? = bs[i / 8]?.map fun b => b.toNat.testBit (i % 8) := by
  induction bs generalizing i with
  | nil => simp [toBits]
  | cons b bs ih =>
    have hcons : toBits (b :: bs) = bitsOfByte b ++ toBits bs := rfl
    rw [hcons]
    by_cases hi : i < 8
    · rw [List.getElem?_append_left (by simpa using hi), getElem?_bitsOfByte hi,
        Nat.div_eq_of_lt hi, Nat.mod_eq_of_lt hi]
      rfl
    · rw [List.getElem?_append_right (by simpa using hi), length_bitsOfByte, ih,
        show i / 8 = (i - 8) / 8 + 1 by omega, show i % 8 = (i - 8) % 8 by omega,
        List.getElem?_cons_succ]

/-- Unpacking gives the bits back, and the zeros that fill the last byte. -/
theorem toBits_ofBits (bits : List Bool) :
    toBits (ofBits bits)
      = bits ++ List.replicate (8 * ceilDiv bits.length 8 - bits.length) false := by
  have hfill (run : List Bool) (hrun : run.length ≤ 8) :
      bitsOfByte (byteOfBits run) = run ++ List.replicate (8 - run.length) false :=
    bitsOfByte_byteOfBits hrun
  have hroom := le_mul_ceilDiv (by decide : 0 < 8) bits.length
  rw [toBits, ofBits, List.flatMap_map, flatMap_runs_filled hfill hroom]

theorem ofBits_toBits (bs : Bytes) : ofBits (toBits bs) = bs := by
  have hcount : ceilDiv (8 * bs.length) 8 = bs.length := by unfold ceilDiv; omega
  rw [ofBits, length_toBits, hcount]
  induction bs with
  | nil => rfl
  | cons b bs ih =>
    have hcons : toBits (b :: bs) = bitsOfByte b ++ toBits bs := rfl
    have hcount : ceilDiv (8 * bs.length) 8 = bs.length := by unfold ceilDiv; omega
    rw [List.length_cons, runs, List.map_cons, hcons, List.take_left' (by simp),
      List.drop_left' (by simp), byteOfBits_bitsOfByte, ih hcount]

theorem toBits_injective {as bs : Bytes} (h : toBits as = toBits bs) : as = bs := by
  rw [← ofBits_toBits as, h, ofBits_toBits]

theorem eq_of_replicate_append_true {as bs : List Bool} {m n : Nat}
    (h : List.replicate m false ++ true :: as = List.replicate n false ++ true :: bs) :
    as = bs := by
  induction m generalizing n with
  | zero =>
    cases n with
    | zero => simpa using h
    | succ n => simp [List.replicate_succ] at h
  | succ m ih =>
    cases n with
    | zero => simp [List.replicate_succ] at h
    | succ n =>
      apply ih
      simpa [List.replicate_succ] using h

/-- The last bit set tells where a run of bits ends. -/
theorem eq_of_append_true {as bs : List Bool} {m n : Nat}
    (h : as ++ true :: List.replicate m false = bs ++ true :: List.replicate n false) :
    as = bs := by
  apply List.reverse_inj.mp
  apply eq_of_replicate_append_true
  simpa using congrArg List.reverse h

/-- The highest bit of a byte other than zero, and the zeros above it. -/
theorem bitsOfByte_eq_of_ne_zero {b : UInt8} (hne : b ≠ 0) :
    Nat.log2 b.toNat < 8 ∧ bitsOfByte b = (bitsOfByte b).take (Nat.log2 b.toNat)
      ++ true :: List.replicate (7 - Nat.log2 b.toNat) false := by
  have hne' : b.toNat ≠ 0 := fun h => hne (UInt8.toNat.inj h)
  have hlow := Nat.log2_self_le hne'
  have hhigh : b.toNat < 2 ^ (Nat.log2 b.toNat + 1) := Nat.lt_log2_self
  have hlt := b.toNat_lt
  have hlog : Nat.log2 b.toNat < 8 := by
    apply (Nat.pow_lt_pow_iff_right (by decide : 1 < 2)).mp
    omega
  refine ⟨hlog, ?_⟩
  apply List.ext_getElem?
  intro i
  have htake : ((bitsOfByte b).take (Nat.log2 b.toNat)).length = Nat.log2 b.toNat := by
    rw [List.length_take, length_bitsOfByte]
    omega
  rcases Nat.lt_trichotomy i (Nat.log2 b.toNat) with hi | hi | hi
  · rw [List.getElem?_append_left (by omega), List.getElem?_take_of_lt hi]
  · rw [List.getElem?_append_right (by omega), htake, hi, Nat.sub_self, List.getElem?_cons_zero,
      getElem?_bitsOfByte hlog, Nat.testBit_log2 hne']
  · obtain ⟨j, rfl⟩ : ∃ j, i = Nat.log2 b.toNat + 1 + j := ⟨i - (Nat.log2 b.toNat + 1), by omega⟩
    rw [List.getElem?_append_right (by omega), htake,
      show Nat.log2 b.toNat + 1 + j - Nat.log2 b.toNat = j + 1 by omega, List.getElem?_cons_succ]
    by_cases hj : j < 7 - Nat.log2 b.toNat
    · have hpow : 2 ^ (Nat.log2 b.toNat + 1) ≤ 2 ^ (Nat.log2 b.toNat + 1 + j) :=
        Nat.pow_le_pow_right (by decide) (Nat.le_add_right _ _)
      rw [getElem?_bitsOfByte (by omega), List.getElem?_replicate_of_lt hj,
        Nat.testBit_lt_two_pow (by omega)]
    · rw [List.getElem?_eq_none (by simp; omega), List.getElem?_eq_none (by simp; omega)]

/-- The bits of a byte string whose last byte is not zero: all below the highest one set, that one,
and fewer than eight zeros. -/
theorem toBits_eq_of_getLast? {bs : Bytes} {last : UInt8} (hlast : bs.getLast? = some last)
    (hne : last ≠ 0) :
    8 * (bs.length - 1) + Nat.log2 last.toNat < 8 * bs.length ∧
      toBits bs = (toBits bs).take (8 * (bs.length - 1) + Nat.log2 last.toNat)
        ++ true :: List.replicate (7 - Nat.log2 last.toNat) false := by
  obtain ⟨init, rfl⟩ := List.getLast?_eq_some_iff.mp hlast
  obtain ⟨hlog, hbits⟩ := bitsOfByte_eq_of_ne_zero hne
  have hinit : 8 * ((init ++ [last]).length - 1) = (toBits init).length := by simp
  have htail : toBits [last] = bitsOfByte last := by simp [toBits]
  refine ⟨by simp; omega, ?_⟩
  rw [hinit, toBits_append, List.take_append, List.append_assoc,
    List.take_of_length_le (Nat.le_add_right _ _), Nat.add_sub_cancel_left, htail, ← hbits]

theorem ne_zero_of_getLast? {bs : Bytes} {last : UInt8} {bits : List Bool} {m : Nat}
    (hlast : bs.getLast? = some last)
    (hbits : toBits bs = bits ++ true :: List.replicate m false) (hm : m < 8) : last ≠ 0 := by
  rintro rfl
  obtain ⟨init, rfl⟩ := List.getLast?_eq_some_iff.mp hlast
  have hzero : toBits [(0 : UInt8)] = List.replicate 8 false := by decide
  -- Counted from the end, place `m` is the last bit set and lies in the last byte.
  have hend := congrArg (fun bits => bits.reverse[m]?) hbits
  rw [toBits_append, hzero] at hend
  simp only [List.reverse_append, List.reverse_replicate, List.reverse_cons,
    List.append_assoc] at hend
  rw [List.getElem?_append_left (by simpa using hm), List.getElem?_replicate_of_lt hm,
    List.getElem?_append_right (by simp)] at hend
  simp at hend

end SimpleSerialize.Bytes
