/-!
Byte strings: little-endian numbers, runs of equal length, and bits packed eight to a byte.
A number of `width` bytes and its little-endian form determine each other
(`ofLittleEndian_littleEndian`, `littleEndian_ofLittleEndian`).
-/

namespace SimpleSerialize

-- Sums and powers of numbers are those of `Nat` itself, whatever else on numbers is imported.
instance (priority := high) natZero : Zero Nat := ⟨0⟩
attribute [instance (high), default_instance (high + 1)] instPowNat

abbrev Bytes := List UInt8

namespace Bytes

/-- The `width` lowest bytes of a number, least significant first. -/
def littleEndian : (width : Nat) → (n : Nat) → Bytes
  | 0, _ => []
  | width + 1, n => UInt8.ofNat n :: littleEndian width (n / 256)

def ofLittleEndian : Bytes → Nat
  | [] => 0
  | b :: bs => b.toNat + 256 * ofLittleEndian bs

@[simp] theorem length_littleEndian (width n : Nat) : (littleEndian width n).length = width := by
  induction width generalizing n with
  | zero => rfl
  | succ width ih => simp [littleEndian, ih]

theorem ofLittleEndian_littleEndian {width n : Nat} (h : n < 256 ^ width) :
    ofLittleEndian (littleEndian width n) = n := by
  induction width generalizing n with
  | zero => simp at h; simp [littleEndian, ofLittleEndian, h]
  | succ width ih =>
    rw [Nat.pow_succ] at h
    have hrest : n / 256 < 256 ^ width := Nat.div_lt_of_lt_mul (by omega)
    simp only [littleEndian, ofLittleEndian, ih hrest, UInt8.toNat_ofNat']
    omega

theorem ofLittleEndian_lt (bs : Bytes) : ofLittleEndian bs < 256 ^ bs.length := by
  induction bs with
  | nil => simp [ofLittleEndian]
  | cons b bs ih =>
    have hb := b.toNat_lt
    simp only [ofLittleEndian, List.length_cons, Nat.pow_succ]
    omega

theorem littleEndian_ofLittleEndian (bs : Bytes) :
    littleEndian bs.length (ofLittleEndian bs) = bs := by
  induction bs with
  | nil => rfl
  | cons b bs ih =>
    have hb := b.toNat_lt
    have hhead : UInt8.ofNat (b.toNat + 256 * ofLittleEndian bs) = b := by
      apply UInt8.toNat.inj
      simp only [UInt8.toNat_ofNat']
      omega
    have htail : (b.toNat + 256 * ofLittleEndian bs) / 256 = ofLittleEndian bs := by omega
    simp only [List.length_cons, littleEndian, ofLittleEndian, hhead, htail, ih]

/-- What a field of `width` bytes is read as. -/
theorem ofLittleEndian_eq_iff {width n : Nat} {bs : Bytes} (hlength : bs.length = width) :
    ofLittleEndian bs = n ↔ bs = littleEndian width n ∧ n < 256 ^ width := by
  constructor
  · rintro rfl
    rw [← hlength, littleEndian_ofLittleEndian]
    exact ⟨rfl, ofLittleEndian_lt bs⟩
  · rintro ⟨rfl, hn⟩
    exact ofLittleEndian_littleEndian hn

/-- The first `count` runs of `size` entries each; runs past the end are short or empty. -/
def runs {α : Type} (size : Nat) : (count : Nat) → List α → List (List α)
  | 0, _ => []
  | count + 1, xs => xs.take size :: runs size count (xs.drop size)

@[simp] theorem length_runs {α : Type} (size count : Nat) (xs : List α) :
    (runs size count xs).length = count := by
  induction count generalizing xs with
  | zero => rfl
  | succ count ih => simp [runs, ih]

/-- How many runs of `size` are needed for `n` entries. -/
def ceilDiv (n size : Nat) : Nat := (n + (size - 1)) / size

/-- One byte from up to eight bits, the first bit lowest. -/
def byteOfBits (bits : List Bool) : UInt8 :=
  UInt8.ofNat (bits.take 8 |>.foldr (fun bit rest => bit.toNat + 2 * rest) 0)

/-- Bits packed eight to a byte, the first bit lowest; the last byte is filled with zeros. -/
def ofBits (bits : List Bool) : Bytes :=
  (runs 8 (ceilDiv bits.length 8) bits).map byteOfBits

def bitsOfByte (b : UInt8) : List Bool :=
  (List.range 8).map b.toNat.testBit

/-- The bits of a byte string, eight to a byte, the lowest of each byte first. -/
def toBits (bs : Bytes) : List Bool :=
  bs.flatMap bitsOfByte

@[simp] theorem length_ofBits (bits : List Bool) :
    (ofBits bits).length = ceilDiv bits.length 8 := by
  simp [ofBits]

@[simp] theorem length_toBits (bs : Bytes) : (toBits bs).length = 8 * bs.length := by
  induction bs with
  | nil => rfl
  | cons b bs ih =>
    simp only [toBits, List.flatMap_cons, List.length_append, List.length_cons] at ih ⊢
    rw [ih]
    simp [bitsOfByte]
    omega

end Bytes

end SimpleSerialize
