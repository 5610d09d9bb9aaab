import SimpleSerialize.Bytes.Digits

/-!
Hexadecimal text for byte strings. It is written as `0x` and lowercase digits; it is read with or
without the marker, in either case.
-/

namespace SimpleSerialize

inductive HexError where
  | digitCount (expected got : Nat)
  | digits (error : DigitError)
deriving DecidableEq, Repr

def HexError.message : HexError → String
  | .digitCount expected got => s!"expected {expected} hex characters, got {got}"
  | .digits error => "invalid hex: " ++ error.message

namespace Hex

def encode (codec : DigitCodec) (bs : Bytes) : String :=
  String.ofList ('0' :: 'x' :: codec.encode bs)

/-- The digits of a text, its marker dropped; a second marker would count as digits. -/
def digits : List Char → List Char
  | '0' :: 'x' :: cs => cs
  | '0' :: 'X' :: cs => cs
  | cs => cs

def decode (codec : DigitCodec) (s : String) : Except HexError Bytes :=
  (codec.decode (digits s.toList)).mapError .digits

/-- Reads exactly `width` bytes. -/
def decodeFixed (codec : DigitCodec) (width : Nat) (s : String) :
    Except HexError (FixedBytes width) :=
  let cs := digits s.toList
  if utf8Length cs = 2 * width then (codec.decodeInto width cs).mapError .digits
  else .error (.digitCount (2 * width) (utf8Length cs))

end Hex

namespace FixedBytes

variable {width : Nat}

def toHex (fixed : FixedBytes width) : String := Hex.encode .standard fixed.toList

/-- The first four bytes behind the name of the kind of value. -/
def summary (kind : String) (fixed : FixedBytes width) : String :=
  kind ++ "(" ++ Hex.encode .standard (fixed.toList.take 4) ++ "...)"

end FixedBytes

end SimpleSerialize
