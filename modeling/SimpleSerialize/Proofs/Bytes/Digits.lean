import Mathlib.Tactic.IntervalCases
import SimpleSerialize.Bytes.Digits
import SimpleSerialize.Proofs.Except

/-!
What pairs of digits spell, and what is asked of the codec that writes and reads them
(`DigitCodec.Lawful`); the one that runs is such a codec (`DigitCodec.standard_lawful`).
-/

namespace SimpleSerialize

namespace Hex

/-- The digits of the numbers below sixteen, in order. -/
def lowerDigits : List Char :=
  ['0', '1', '2', '3', '4', '5', '6', '7', '8', '9', 'a', 'b', 'c', 'd', 'e', 'f']

def upperDigits : List Char :=
  ['0', '1', '2', '3', '4', '5', '6', '7', '8', '9', 'A', 'B', 'C', 'D', 'E', 'F']

/-- A digit of either case. -/
def IsDigit (c : Char) (value : Nat) : Prop :=
  lowerDigits[value]? = some c ∨ upperDigits[value]? = some c

/-- Two digits for each byte, the one of its high half first. -/
inductive Spells : List Char → Bytes → Prop
  | nil : Spells [] []
  | cons {high low : Char} {b : UInt8} {cs : List Char} {bs : Bytes}
    (high_digit : IsDigit high (b.toNat / 16)) (low_digit : IsDigit low (b.toNat % 16))
    (rest : Spells cs bs) : Spells (high :: low :: cs) (b :: bs)

variable {c : Char} {value width : Nat} {b : UInt8} {cs : List Char} {bs : Bytes}

theorem lt_of_isDigit (hdigit : IsDigit c value) : value < 16 := by
  rcases hdigit with hlower | hupper
  · exact (List.getElem?_eq_some_iff.mp hlower).1
  · exact (List.getElem?_eq_some_iff.mp hupper).1

theorem isDigit_digitChar (hvalue : value < 16) : IsDigit (Nat.digitChar value) value := by
  apply Or.inl
  interval_cases value <;> rfl

theorem toLower_of_isDigit (hdigit : IsDigit c value) : c.toLower = Nat.digitChar value := by
  have hvalue := lt_of_isDigit hdigit
  rcases hdigit with hlower | hupper
  · interval_cases value <;> cases hlower <;> rfl
  · interval_cases value <;> cases hupper <;> rfl

theorem digitValue?_of_isDigit (hdigit : IsDigit c value) : digitValue? c = some value := by
  have hvalue := lt_of_isDigit hdigit
  rcases hdigit with hlower | hupper
  · interval_cases value <;> cases hlower <;> rfl
  · interval_cases value <;> cases hupper <;> rfl

/-- The codes of the digits are gone through up to the last of them. -/
theorem isDigit_of_digitValue? (hvalue : digitValue? c = some value) : IsDigit c value := by
  have hcode : c.toNat < 103 := by
    unfold digitValue? at hvalue
    grind
  have hall : ∀ n < 103, ∀ v ∈ digitValue? (Char.ofNat n), lowerDigits[v]? = some (Char.ofNat n) ∨
      upperDigits[v]? = some (Char.ofNat n) := by decide
  have hdigit := hall c.toNat hcode
  rw [Char.ofNat_toNat] at hdigit
  exact hdigit value hvalue

theorem digitValue?_eq_some_iff : digitValue? c = some value ↔ IsDigit c value :=
  ⟨isDigit_of_digitValue?, digitValue?_of_isDigit⟩

theorem readDigit_eq_ok_iff {position : Nat} :
    readDigit position c = .ok value ↔ IsDigit c value := by
  rw [← digitValue?_eq_some_iff, readDigit]
  cases digitValue? c <;> simp

/-- A byte is told by its halves. -/
theorem ofNat_eq_iff_halves {high low : Nat} (hhigh : high < 16) (hlow : low < 16) :
    UInt8.ofNat (16 * high + low) = b ↔ high = b.toNat / 16 ∧ low = b.toNat % 16 := by
  have hb := b.toNat_lt
  rw [← UInt8.toNat_inj, UInt8.toNat_ofNat']
  omega

theorem spells_cons_iff {high low : Char} :
    Spells (high :: low :: cs) bs ↔ ∃ h l rest, IsDigit high h ∧ IsDigit low l ∧
      Spells cs rest ∧ UInt8.ofNat (16 * h + l) :: rest = bs := by
  constructor
  · rintro (_ | ⟨hhigh, hlow, hrest⟩)
    refine ⟨_, _, _, hhigh, hlow, hrest, ?_⟩
    rw [(ofNat_eq_iff_halves (lt_of_isDigit hhigh) (lt_of_isDigit hlow)).mpr ⟨rfl, rfl⟩]
  · rintro ⟨h, l, rest, hhigh, hlow, hrest, rfl⟩
    obtain ⟨hh, hl⟩ := (ofNat_eq_iff_halves (lt_of_isDigit hhigh) (lt_of_isDigit hlow)).mp rfl
    exact .cons (hh ▸ hhigh) (hl ▸ hlow) hrest

/-- What is read behind the bytes that were read before is what the digits spell. -/
theorem readDigits_eq_ok_iff {position : Nat} {done : Bytes} :
    readDigits position done cs = .ok bs ↔ ∃ rest, Spells cs rest ∧ done.reverse ++ rest = bs := by
  fun_induction readDigits position done cs with
  | case1 position done =>
    constructor
    · rintro ⟨⟩
      exact ⟨[], .nil, List.append_nil _⟩
    · rintro ⟨rest, ⟨⟩, rfl⟩
      rw [List.append_nil]
  | case2 | case3 =>
    simp only [reduceCtorEq, false_iff]
    rintro ⟨rest, ⟨⟩, -⟩
  | case4 position done high low cs e hhigh =>
    simp only [reduceCtorEq, false_iff]
    rintro ⟨rest, hspells, -⟩
    obtain ⟨h, l, rest, hdigit, -⟩ := spells_cons_iff.mp hspells
    rw [readDigit_eq_ok_iff.mpr hdigit] at hhigh
    cases hhigh
  | case5 position done high low cs h hhigh e hlow =>
    simp only [reduceCtorEq, false_iff]
    rintro ⟨rest, hspells, -⟩
    obtain ⟨-, l, rest, -, hdigit, -⟩ := spells_cons_iff.mp hspells
    rw [readDigit_eq_ok_iff.mpr hdigit] at hlow
    cases hlow
  | case6 position done high low cs h hhigh l hlow ih =>
    rw [ih]
    constructor
    · rintro ⟨rest, hspells, rfl⟩
      refine ⟨_, spells_cons_iff.mpr ⟨h, l, rest, readDigit_eq_ok_iff.mp hhigh,
        readDigit_eq_ok_iff.mp hlow, hspells, rfl⟩, ?_⟩
      rw [List.reverse_cons, List.append_assoc, List.singleton_append]
    · rintro ⟨rest, hspells, rfl⟩
      obtain ⟨h', l', rest, hdigit, hdigit', hrest, rfl⟩ := spells_cons_iff.mp hspells
      rw [readDigit_eq_ok_iff.mpr hdigit] at hhigh
      rw [readDigit_eq_ok_iff.mpr hdigit'] at hlow
      cases hhigh
      cases hlow
      refine ⟨rest, hrest, ?_⟩
      rw [List.reverse_cons, List.append_assoc, List.singleton_append]

theorem length_of_spells (hspells : Spells cs bs) : cs.length = 2 * bs.length := by
  induction hspells with
  | nil => rfl
  | cons hhigh hlow hrest ih =>
    rw [List.length_cons, List.length_cons, List.length_cons, ih]
    omega

theorem readDigits_of_spells (hspells : Spells cs bs) : readDigits 0 [] cs = .ok bs :=
  readDigits_eq_ok_iff.mpr ⟨bs, hspells, rfl⟩

/-- Digits take up one byte each. -/
theorem utf8Length_of_spells (hspells : Spells cs bs) : utf8Length cs = 2 * bs.length := by
  have hlength := length_of_readDigits (readDigits_of_spells hspells)
  rw [List.length_nil] at hlength
  omega

theorem spells_flatMap_byteDigits (bs : Bytes) : Spells (bs.flatMap byteDigits) bs := by
  induction bs with
  | nil => exact .nil
  | cons b bs ih =>
    have hb := b.toNat_lt
    rw [List.flatMap_cons]
    exact .cons (isDigit_digitChar (by omega)) (isDigit_digitChar (by omega)) ih

theorem map_toLower_of_spells (hspells : Spells cs bs) :
    cs.map Char.toLower = bs.flatMap byteDigits := by
  induction hspells with
  | nil => rfl
  | cons hhigh hlow hrest ih =>
    rw [List.map_cons, List.map_cons, toLower_of_isDigit hhigh, toLower_of_isDigit hlow, ih,
      List.flatMap_cons]
    rfl

theorem readBytes_eq_ok_iff : readBytes cs = .ok bs ↔ Spells cs bs := by
  rw [readBytes, ite_error_eq_ok_iff, readDigits_eq_ok_iff]
  constructor
  · rintro ⟨-, rest, hspells, rfl⟩
    exact hspells
  · intro hspells
    have hlength := utf8Length_of_spells hspells
    exact ⟨by omega, bs, hspells, rfl⟩

theorem readFixed_eq_ok_iff {fixed : FixedBytes width} (hcount : utf8Length cs = 2 * width) :
    readFixed width cs = .ok fixed ↔ Spells cs fixed.toList := by
  rw [readFixed, if_neg (by omega), dif_pos hcount]
  constructor
  · intro hread
    split at hread
    · cases hread
    next bs hbs =>
      cases hread
      obtain ⟨rest, hspells, rfl⟩ := readDigits_eq_ok_iff.mp hbs
      exact hspells
  · intro hspells
    have hread := readDigits_of_spells hspells
    split
    next e he =>
      rw [he] at hread
      cases hread
    next bs hbs =>
      rw [hbs] at hread
      cases hread
      rfl

end Hex

namespace DigitCodec

/--
Bytes are written in lowercase digits, and read from digits of either case and from nothing else.
For a width only text of that many pairs is asked about.
-/
structure Lawful (codec : DigitCodec) : Prop where
  encode_eq : ∀ bs, codec.encode bs = bs.flatMap Hex.byteDigits
  decode_eq_ok_iff : ∀ {cs bs}, codec.decode cs = .ok bs ↔ Hex.Spells cs bs
  decodeInto_eq_ok_iff : ∀ {width cs} {fixed : FixedBytes width},
    Hex.utf8Length cs = 2 * width →
      (codec.decodeInto width cs = .ok fixed ↔ Hex.Spells cs fixed.toList)

theorem standard_lawful : standard.Lawful where
  encode_eq _ := rfl
  decode_eq_ok_iff := Hex.readBytes_eq_ok_iff
  decodeInto_eq_ok_iff := Hex.readFixed_eq_ok_iff

end DigitCodec

end SimpleSerialize
