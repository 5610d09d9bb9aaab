import SimpleSerialize.Bytes.Hex
import SimpleSerialize.Shape

/-! Why a value does not fit a shape, and why a byte string is not the encoding of one. -/

namespace SimpleSerialize

/--
Met both when a value is written and when its tree is built; `halted` where writing did not come to
an end.
-/
inductive FitError where
  | overCapacity (length limit : Nat)
  | lengthMismatch (expected got : Nat)
  | kindMismatch (expected got : String)
  | offsetOverflow (offset : Nat)
  | shape (error : ShapeError)
  | halted (halt : Halt)
deriving DecidableEq, Repr

/-- Why bytes are not read; `halted` where reading did not come to an end. -/
inductive DecodeError where
  | truncated (needed available : Nat)
  | lengthMismatch (expected got : Nat)
  | firstOffset (expected got : Nat)
  | offsetDecreasing (previous offset : Nat)
  | offsetOutOfRange (offset length : Nat)
  | strideMismatch (length stride : Nat)
  | tooManyElements (count limit : Nat)
  | missingDelimiter
  | nonZeroPadding
  | invalidBool (b : UInt8)
  | kindMismatch (expected got : String)
  | shape (error : ShapeError)
  | halted (halt : Halt)
deriving DecidableEq, Repr

def FitError.message : FitError → String
  | .overCapacity length limit => s!"{length} elements exceed capacity {limit}"
  | .lengthMismatch expected got => s!"length mismatch: expected {expected}, got {got}"
  | .kindMismatch expected got => s!"value mismatch: expected {expected}, got {got}"
  | .offsetOverflow offset => s!"offset {offset} does not fit in 4 bytes"
  | .shape error => "invalid shape: " ++ error.message
  | .halted halt => halt.message

def DecodeError.message : DecodeError → String
  | .truncated needed available => s!"truncated input: need {needed} bytes, have {available}"
  | .lengthMismatch expected got => s!"length mismatch: expected {expected} bytes, got {got}"
  | .firstOffset expected got => s!"first offset {got} does not match head size {expected}"
  | .offsetDecreasing previous offset =>
    s!"offset {offset} is lower than previous offset {previous}"
  | .offsetOutOfRange offset length => s!"offset {offset} is beyond input length {length}"
  | .strideMismatch length stride =>
    s!"byte length {length} is not a multiple of element size {stride}"
  | .tooManyElements count limit => s!"element count {count} exceeds limit {limit}"
  | .missingDelimiter => "bitlist is missing its delimiter bit"
  | .nonZeroPadding => "bitvector has non-zero padding bits"
  | .invalidBool b => "invalid boolean byte: " ++ Hex.ofByte b
  | .kindMismatch expected got => s!"value mismatch: expected {expected}, got {got}"
  | .shape error => "invalid shape: " ++ error.message
  | .halted halt => halt.message

end SimpleSerialize
