import SimpleSerialize.Proofs.Wire.Series

/-!
What is written and what is read, kind by kind. For bytes, bits and scalars writing and reading are
the two directions of one relation; vectors, lists and containers come down to a series.
-/

namespace SimpleSerialize

theorem requireLength_eq_ok_iff {expected got : Nat} {u : Unit} :
    requireLength expected got = .ok u ↔ got = expected := by
  by_cases h : got = expected <;> simp [requireLength, h]

theorem requireCapacity_eq_ok_iff {limit length : Nat} {u : Unit} :
    requireCapacity limit length = .ok u ↔ length ≤ limit := by
  by_cases h : length ≤ limit <;> simp [requireCapacity, h]

theorem requireCount_eq_ok_iff {limit count : Nat} {u : Unit} :
    requireCount limit count = .ok u ↔ count ≤ limit := by
  by_cases h : count ≤ limit <;> simp [requireCount, h]

theorem Series.requireHead_eq_ok_iff {head : Nat} {bs : Bytes} {u : Unit} :
    Series.requireHead head bs = .ok u ↔ head ≤ bs.length := by
  by_cases h : bs.length < head
  · simp only [Series.requireHead, if_pos h, reduceCtorEq, false_iff]
    omega
  · simp only [Series.requireHead, if_neg h, true_iff]
    omega

namespace Scalar

theorem decode_bool_eq_ok_iff {bs : Bytes} {v : Value} :
    decode .bool bs = .ok v ↔ ∃ b, v = .bool b ∧ bs = [if b then 1 else 0] := by
  unfold decode
  cases hlength : expectLength Scalar.bool.size bs with
  | error e =>
    simp only [reduceCtorEq, false_iff]
    rintro ⟨b, -, rfl⟩
    cases hlength
  | ok u =>
    obtain ⟨byte, rfl⟩ := List.length_eq_one_iff.mp (expectLength_eq_ok_iff.mp hlength)
    by_cases hzero : byte = 0
    · simp [hzero, eq_comm]
    by_cases hone : byte = 1
    · simp [hone, eq_comm]
    · simp [hzero, hone]

theorem decode_uint_eq_ok_iff {width : UIntWidth} {bs : Bytes} {v : Value} :
    decode (.uint width) bs = .ok v ↔
      ∃ n, v = .uint width n ∧ bs = Bytes.littleEndian width.size n.toNat := by
  have hpow : 2 ^ width.bits = 256 ^ width.size := by
    rw [UIntWidth.bits, Nat.pow_mul]
  unfold decode
  cases hlength : expectLength (Scalar.uint width).size bs with
  | error e =>
    simp only [reduceCtorEq, false_iff]
    rintro ⟨n, -, rfl⟩
    have hfits : expectLength (Scalar.uint width).size (Bytes.littleEndian width.size n.toNat)
        = .ok () := expectLength_eq_ok_iff.mpr (Bytes.length_littleEndian _ _)
    rw [hfits] at hlength
    cases hlength
  | ok u =>
    have hsize : bs.length = width.size := expectLength_eq_ok_iff.mp hlength
    simp only [Except.ok.injEq]
    constructor
    · rintro rfl
      obtain ⟨hbytes, hlt⟩ := (Bytes.ofLittleEndian_eq_iff hsize).mp rfl
      refine ⟨_, rfl, ?_⟩
      rwa [BitVec.toNat_ofNat, hpow, Nat.mod_eq_of_lt hlt]
    · rintro ⟨n, rfl, hbytes⟩
      have hlt : n.toNat < 256 ^ width.size := hpow ▸ n.isLt
      rw [(Bytes.ofLittleEndian_eq_iff hsize).mpr ⟨hbytes, hlt⟩, BitVec.ofNat_toNat,
        BitVec.setWidth_eq]

theorem encode_bool_eq_ok_iff {bs : Bytes} {v : Value} :
    encode .bool v = .ok bs ↔ ∃ b, v = .bool b ∧ bs = [if b then 1 else 0] := by
  cases v <;> simp [encode, eq_comm]

theorem encode_uint_eq_ok_iff {width : UIntWidth} {bs : Bytes} {v : Value} :
    encode (.uint width) v = .ok bs ↔
      ∃ n, v = .uint width n ∧ bs = Bytes.littleEndian width.size n.toNat := by
  cases v with
  | uint width' n =>
    by_cases hwidth : width = width'
    · subst hwidth
      simp [encode, eq_comm]
    · simp only [encode, if_neg hwidth, reduceCtorEq, false_iff]
      rintro ⟨n', h, -⟩
      cases h
      exact hwidth rfl
  | _ => simp [encode]

/-- A scalar has one encoding, and nothing else is read as it. -/
theorem encode_eq_ok_iff_decode {kind : Scalar} {bs : Bytes} {v : Value} :
    encode kind v = .ok bs ↔ decode kind bs = .ok v := by
  cases kind with
  | bool => rw [encode_bool_eq_ok_iff, decode_bool_eq_ok_iff]
  | uint width => rw [encode_uint_eq_ok_iff, decode_uint_eq_ok_iff]

theorem length_of_encode {kind : Scalar} {bs : Bytes} {v : Value} (h : encode kind v = .ok bs) :
    bs.length = kind.size := by
  cases kind with
  | bool =>
    obtain ⟨b, -, rfl⟩ := encode_bool_eq_ok_iff.mp h
    rfl
  | uint width =>
    obtain ⟨n, -, rfl⟩ := encode_uint_eq_ok_iff.mp h
    exact Bytes.length_littleEndian _ _

end Scalar

namespace Wire

/-- Exactly the packed bits are read as a bitvector: the bits that fill the last byte are zero. -/
theorem readBitvector_eq_ok_iff {length : Nat} {bs : Bytes} {v : Value} :
    readBitvector length bs = .ok v ↔
      ∃ bits, v = .bits bits ∧ bits.length = length ∧ Bytes.ofBits bits = bs := by
  simp only [readBitvector, bind_eq_ok_iff, expectLength_eq_ok_iff, exists_const]
  constructor
  · rintro ⟨hlength, hread⟩
    by_cases hpadding : ((Bytes.toBits bs).drop length).any id = true
    · simp [hpadding] at hread
    simp only [if_neg hpadding, Except.ok.injEq] at hread
    have hroom := Bytes.le_mul_ceilDiv (by decide : 0 < 8) length
    have htake : ((Bytes.toBits bs).take length).length = length := by simp; omega
    refine ⟨_, hread.symm, htake, Bytes.toBits_injective ?_⟩
    have hzeros : (Bytes.toBits bs).drop length
        = List.replicate (8 * bs.length - length) false := by
      refine List.eq_replicate_iff.mpr ⟨by simp, ?_⟩
      intro bit hbit
      simp only [List.any_eq_true, not_exists, not_and, id_eq, Bool.not_eq_true] at hpadding
      exact hpadding bit hbit
    rw [Bytes.toBits_ofBits, htake, ← hlength, ← hzeros, List.take_append_drop]
  · rintro ⟨bits, rfl, rfl, rfl⟩
    refine ⟨Bytes.length_ofBits bits, ?_⟩
    simp [Bytes.toBits_ofBits]

/-- Exactly the packed bits with one more bit set behind them are read as a bitlist. -/
theorem readBitlist_eq_ok_iff {limit : Nat} {bs : Bytes} {v : Value} :
    readBitlist limit bs = .ok v ↔
      ∃ bits, v = .bits bits ∧ bits.length ≤ limit ∧ Bytes.ofBits (bits ++ [true]) = bs := by
  unfold readBitlist
  constructor
  · intro hread
    cases hlast : bs.getLast? with
    | none => simp [hlast] at hread
    | some last =>
      by_cases hzero : last = 0
      · simp [hlast, hzero] at hread
      simp only [hlast, if_neg hzero, bind_eq_ok_iff, requireCount_eq_ok_iff, exists_const,
        pure_eq_ok_iff] at hread
      obtain ⟨hcount, rfl⟩ := hread
      obtain ⟨hlt, hbits⟩ := Bytes.toBits_eq_of_getLast? hlast hzero
      have htake : ((Bytes.toBits bs).take (8 * (bs.length - 1) + Nat.log2 last.toNat)).length
          = 8 * (bs.length - 1) + Nat.log2 last.toNat := by simp; omega
      refine ⟨_, rfl, by omega, Bytes.toBits_injective ?_⟩
      have hlog := (Bytes.bitsOfByte_eq_of_ne_zero hzero).1
      have hfill : 8 * Bytes.ceilDiv (8 * (bs.length - 1) + Nat.log2 last.toNat + 1) 8
          - (8 * (bs.length - 1) + Nat.log2 last.toNat + 1) = 7 - Nat.log2 last.toNat := by
        unfold Bytes.ceilDiv
        omega
      rw [Bytes.toBits_ofBits, List.length_append, htake, List.length_singleton, hfill,
        List.append_assoc, List.singleton_append, ← hbits]
  · rintro ⟨bits, rfl, hlimit, rfl⟩
    have hbits := Bytes.toBits_ofBits (bits ++ [true])
    rw [List.append_assoc, List.singleton_append] at hbits
    cases hlast : (Bytes.ofBits (bits ++ [true])).getLast? with
    | none =>
      have hlength := Bytes.length_ofBits (bits ++ [true])
      rw [List.getLast?_eq_none_iff.mp hlast] at hlength
      simp [Bytes.ceilDiv] at hlength
      omega
    | some last =>
      have hnonzero := Bytes.ne_zero_of_getLast? hlast hbits (by unfold Bytes.ceilDiv; omega)
      obtain ⟨hlt, hcut⟩ := Bytes.toBits_eq_of_getLast? hlast hnonzero
      have htake := Bytes.eq_of_append_true (hcut.symm.trans hbits)
      have hcount := congrArg List.length htake
      rw [List.length_take, Bytes.length_toBits, Nat.min_eq_left (by omega)] at hcount
      simp only [if_neg hnonzero, bind_eq_ok_iff, requireCount_eq_ok_iff, exists_const,
        pure_eq_ok_iff]
      exact ⟨by omega, congrArg Value.bits htake⟩

end Wire

namespace Shape

variable {length limit : Nat} {v : Value} {bs : Bytes}

theorem encode_byteVector_eq_ok_iff :
    (byteVector length).encode v = .ok bs ↔ v = .bytes bs ∧ bs.length = length := by
  cases v with
  | bytes bs' =>
    simp only [encode, bind_eq_ok_iff, requireLength_eq_ok_iff, exists_const, pure_eq_ok_iff,
      Value.bytes.injEq]
    constructor
    · rintro ⟨hlength, rfl⟩
      exact ⟨rfl, hlength⟩
    · rintro ⟨rfl, hlength⟩
      exact ⟨hlength, rfl⟩
  | _ => simp [encode]

theorem decode_byteVector_eq_ok_iff :
    (byteVector length).decode bs = .ok v ↔ v = .bytes bs ∧ bs.length = length := by
  simp only [decode, bind_eq_ok_iff, expectLength_eq_ok_iff, exists_const, pure_eq_ok_iff]
  rw [and_comm, eq_comm]

theorem encode_byteList_eq_ok_iff :
    (byteList limit).encode v = .ok bs ↔ v = .bytes bs ∧ bs.length ≤ limit := by
  cases v with
  | bytes bs' =>
    simp only [encode, bind_eq_ok_iff, requireCapacity_eq_ok_iff, exists_const, pure_eq_ok_iff,
      Value.bytes.injEq]
    constructor
    · rintro ⟨hlength, rfl⟩
      exact ⟨rfl, hlength⟩
    · rintro ⟨rfl, hlength⟩
      exact ⟨hlength, rfl⟩
  | _ => simp [encode]

theorem decode_byteList_eq_ok_iff :
    (byteList limit).decode bs = .ok v ↔ v = .bytes bs ∧ bs.length ≤ limit := by
  simp only [decode, bind_eq_ok_iff, requireCount_eq_ok_iff, exists_const, pure_eq_ok_iff]
  rw [and_comm, eq_comm]

theorem encode_bitvector_eq_ok_iff :
    (bitvector length).encode v = .ok bs ↔
      ∃ bits, v = .bits bits ∧ bits.length = length ∧ Bytes.ofBits bits = bs := by
  cases v with
  | bits bits =>
    simp only [encode, bind_eq_ok_iff, requireLength_eq_ok_iff, exists_const, pure_eq_ok_iff,
      Value.bits.injEq, exists_eq_left']
  | _ => simp [encode]

theorem encode_bitlist_eq_ok_iff :
    (bitlist limit).encode v = .ok bs ↔
      ∃ bits, v = .bits bits ∧ bits.length ≤ limit ∧ Bytes.ofBits (bits ++ [true]) = bs := by
  cases v with
  | bits bits =>
    simp only [encode, bind_eq_ok_iff, requireCapacity_eq_ok_iff, exists_const, pure_eq_ok_iff,
      Value.bits.injEq, exists_eq_left']
  | _ => simp [encode]

end Shape

end SimpleSerialize
