import SimpleSerialize.Schema

/-! Transactions: a byte that tells the type, and an opaque payload. -/

namespace SimpleSerialize

structure Transaction where
  bytes : Bytes
deriving DecidableEq, Inhabited

abbrev Transactions := LimitedList Preset.maxTransactionsPerPayload Transaction

namespace Transaction

/-- The type of transactions that carry blobs. -/
def blobType : UInt8 := 3

def type? (tx : Transaction) : Option UInt8 := tx.bytes.head?

def isBlob (tx : Transaction) : Bool := tx.type? == some blobType

def summary (tx : Transaction) : String :=
  match tx.type? with
  | some type => s!"Transaction(type {Hex.ofByte type}, {tx.bytes.length} bytes)"
  | none => "Transaction(empty)"

instance : Schema Transaction where
  shape preset := (Shape.byteList preset.maxBytesPerTransaction.toNat).check
  toValue tx := .bytes tx.bytes
  ofValue _ v := do return ⟨← v.toBytes⟩

instance : JsonForm Transaction where
  write tx := Json.writeString (Hex.encode .standard tx.bytes)
  read? tree := do return ⟨← (Hex.decode .standard (← tree.string?)).toOption⟩

end Transaction

end SimpleSerialize
