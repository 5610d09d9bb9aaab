import SimpleSerialize.Schema

/-! Block headers. The body root stands for the whole body. -/

namespace SimpleSerialize

abbrev BlsSignature := FixedBytes 96

structure BlockHeader where
  slot : UInt64
  proposerIndex : UInt64
  parentRoot : Root
  stateRoot : Root
  bodyRoot : Root
deriving DecidableEq, Inhabited

structure SignedBlockHeader where
  message : BlockHeader
  signature : BlsSignature
deriving DecidableEq, Inhabited

namespace BlockHeader

instance : Schema BlockHeader where
  shape preset := do
    let number ← Schema.shape UInt64 preset
    let root ← Schema.shape Root preset
    (Shape.container
      [("slot", number), ("proposer_index", number), ("parent_root", root), ("state_root", root),
        ("body_root", root)]).check
  toValue header := .container
    [Schema.toValue header.slot, Schema.toValue header.proposerIndex,
      Schema.toValue header.parentRoot, Schema.toValue header.stateRoot,
      Schema.toValue header.bodyRoot]
  ofValue preset v := do
    let fields ← v.toFields 5
    return {
      slot := ← Schema.ofValue preset fields[0]
      proposerIndex := ← Schema.ofValue preset fields[1]
      parentRoot := ← Schema.ofValue preset fields[2]
      stateRoot := ← Schema.ofValue preset fields[3]
      bodyRoot := ← Schema.ofValue preset fields[4] }

instance : JsonForm BlockHeader where
  write header := Json.writeRecord
    [("slot", JsonForm.write header.slot), ("proposer_index", JsonForm.write header.proposerIndex),
      ("parent_root", JsonForm.write header.parentRoot),
      ("state_root", JsonForm.write header.stateRoot),
      ("body_root", JsonForm.write header.bodyRoot)]
  read? tree := do
    match ← tree.record?
      ["slot", "proposer_index", "parent_root", "state_root", "body_root"] .ignored with
    | [slot, proposerIndex, parentRoot, stateRoot, bodyRoot] =>
      return {
        slot := ← JsonForm.read? slot
        proposerIndex := ← JsonForm.read? proposerIndex
        parentRoot := ← JsonForm.read? parentRoot
        stateRoot := ← JsonForm.read? stateRoot
        bodyRoot := ← JsonForm.read? bodyRoot }
    | _ => none

end BlockHeader

namespace SignedBlockHeader

instance : Schema SignedBlockHeader where
  shape preset := do
    let message ← Schema.shape BlockHeader preset
    let signature ← Schema.shape BlsSignature preset
    (Shape.container [("message", message), ("signature", signature)]).check
  toValue header := .container [Schema.toValue header.message, Schema.toValue header.signature]
  ofValue preset v := do
    let fields ← v.toFields 2
    return {
      message := ← Schema.ofValue preset fields[0]
      signature := ← Schema.ofValue preset fields[1] }

instance : JsonForm SignedBlockHeader where
  write header := Json.writeRecord
    [("message", JsonForm.write header.message), ("signature", JsonForm.write header.signature)]
  read? tree := do
    match ← tree.record? ["message", "signature"] .ignored with
    | [message, signature] =>
      return { message := ← JsonForm.read? message, signature := ← JsonForm.read? signature }
    | _ => none

end SignedBlockHeader

end SimpleSerialize
