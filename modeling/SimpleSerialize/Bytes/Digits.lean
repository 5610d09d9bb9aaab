import SimpleSerialize.Bytes.Fixed
import SimpleSerialize.Text.QuotedChar

/-!
Bytes as pairs of hexadecimal digits. What writes and reads them is a parameter (`DigitCodec`). The
one that runs writes lowercase digits and reads digits of either case (`DigitCodec.standard`); text
that it reads as `n` bytes has `2 * n` digits (`Hex.length_of_readDigits`).
-/

namespace SimpleSerialize

inductive DigitError where
  | oddCount
  | wrongCount
  | invalidDigit (c : Char) (position : Nat)
deriving DecidableEq, Repr

def DigitError.message : DigitError → String
  | .oddCount => "Odd number of digits"
  | .wrongCount => "Invalid string length"
  | .invalidDigit c position =>
    s!"Invalid character {Text.quotedChar c} at position {position}"

/-- Digits for bytes, and bytes for digits, as many as there are or exactly `width`. -/
structure DigitCodec where
  encode : Bytes → List Char
  decode : List Char → Except DigitError Bytes
  decodeInto : (width : Nat) → List Char → Except DigitError (FixedBytes width)

namespace Hex

/-- The digits `0` to `9`, `a` to `f` and `A` to `F`, by their codes. -/
def digitValue? (c : Char) : Option Nat :=
  let n := c.toNat
  if 48 ≤ n ∧ n ≤ 57 then some (n - 48)
  else if 97 ≤ n ∧ n ≤ 102 then some (n - 87)
  else if 65 ≤ n ∧ n ≤ 70 then some (n - 55)
  else none

def byteDigits (b : UInt8) : List Char :=
  [Nat.digitChar (b.toNat / 16), Nat.digitChar (b.toNat % 16)]

/-- A byte as a number with its marker. -/
def ofByte (b : UInt8) : String := String.ofList ('0' :: 'x' :: byteDigits b)

/-- Lengths of text are counted in bytes of its UTF-8 form. -/
def utf8Length (cs : List Char) : Nat :=
  (cs.map Char.utf8Size).sum

/-- The first byte of a character's UTF-8 form, as the character of that code. -/
def leadByte (c : Char) : Char :=
  Char.ofNat ((String.utf8EncodeChar c).headD 0).toNat

def readDigit (position : Nat) (c : Char) : Except DigitError Nat :=
  match digitValue? c with
  | some value => .ok value
  | none => .error (.invalidDigit (leadByte c) position)

/-- Reads digits two by two behind the bytes `done`, last first, that were read already. -/
def readDigits (position : Nat) (done : Bytes) : List Char → Except DigitError Bytes
  | [] => .ok done.reverse
  | [c] =>
    match readDigit position c with
    | .error e => .error e
    | .ok _ => .error .oddCount
  | high :: low :: cs =>
    match readDigit position high with
    | .error e => .error e
    | .ok h =>
      match readDigit (position + 1) low with
      | .error e => .error e
      | .ok l => readDigits (position + 2) (UInt8.ofNat (16 * h + l) :: done) cs

theorem utf8Size_of_digitValue? {c : Char} {value : Nat} (h : digitValue? c = some value) :
    c.utf8Size = 1 := by
  have hc : c.toNat ≤ 102 := by
    simp only [digitValue?] at h
    split at h
    · omega
    · split at h
      · omega
      · split at h
        · omega
        · cases h
  rw [Char.utf8Size_eq_one_iff]
  show c.val ≤ 127
  rw [UInt32.le_iff_toNat_le]
  exact Nat.le_trans hc (by decide)

theorem utf8Size_of_readDigit {position value : Nat} {c : Char}
    (h : readDigit position c = .ok value) : c.utf8Size = 1 := by
  unfold readDigit at h
  split at h
  · exact utf8Size_of_digitValue? (by assumption)
  · cases h

theorem length_of_readDigits {position : Nat} {done bs : Bytes} {cs : List Char}
    (h : readDigits position done cs = .ok bs) :
    2 * bs.length = 2 * done.length + utf8Length cs := by
  fun_induction readDigits position done cs with
  | case1 => cases h; simp [utf8Length]
  | case2 => cases h
  | case3 => cases h
  | case4 => cases h
  | case5 => cases h
  | case6 position done high low cs value hhigh value' hlow ih =>
    have hsizes : utf8Length (high :: low :: cs) = 2 + utf8Length cs := by
      simp [utf8Length, utf8Size_of_readDigit hhigh, utf8Size_of_readDigit hlow]
      omega
    have := ih h
    simp only [List.length_cons] at this
    omega

def readBytes (cs : List Char) : Except DigitError Bytes :=
  if utf8Length cs % 2 = 1 then .error .oddCount else readDigits 0 [] cs

/-- Reads exactly `width` bytes. -/
def readFixed (width : Nat) (cs : List Char) : Except DigitError (FixedBytes width) :=
  if utf8Length cs % 2 = 1 then .error .oddCount
  else if hcount : utf8Length cs = 2 * width then
    match hread : readDigits 0 [] cs with
    | .error e => .error e
    | .ok bs => .ok ⟨bs, by have := length_of_readDigits hread; simp at this; omega⟩
  else .error .wrongCount

end Hex

def DigitCodec.standard : DigitCodec where
  encode bs := bs.flatMap Hex.byteDigits
  decode := Hex.readBytes
  decodeInto := Hex.readFixed

end SimpleSerialize
