import SimpleSerialize.Value

/-! Scalars on the wire: a boolean is one byte, a number its little-endian bytes. -/

namespace SimpleSerialize

/-- All of a byte string is used, and no more is needed. -/
def expectLength (expected : Nat) (bs : Bytes) : Except DecodeError Unit :=
  if bs.length < expected then .error (.truncated expected bs.length)
  else if bs.length > expected then .error (.lengthMismatch expected bs.length)
  else .ok ()

theorem expectLength_eq_ok_iff {expected : Nat} {bs : Bytes} {u : Unit} :
    expectLength expected bs = .ok u ↔ bs.length = expected := by
  unfold expectLength
  split
  · simp; omega
  · split
    · simp; omega
    · simp; omega

namespace Scalar

def encode (kind : Scalar) (v : Value) : Except FitError Bytes :=
  match kind, v with
  | .bool, .bool b => .ok [if b then 1 else 0]
  | .uint width, .uint width' n =>
    if width = width' then .ok (Bytes.littleEndian width.size n.toNat)
    else .error (.kindMismatch width.name width'.name)
  | kind, v => .error (.kindMismatch kind.name v.kindName)

def decode (kind : Scalar) (bs : Bytes) : Except DecodeError Value :=
  match expectLength kind.size bs with
  | .error e => .error e
  | .ok () =>
    match kind with
    | .bool =>
      let b := bs.headD 0
      if b = 0 then .ok (.bool false)
      else if b = 1 then .ok (.bool true)
      else .error (.invalidBool b)
    | .uint width => .ok (.uint width (BitVec.ofNat width.bits (Bytes.ofLittleEndian bs)))

end Scalar

end SimpleSerialize
