import SimpleSerialize.Block.Body

/-!
The place of a blob commitment in the tree of a block body, and the branch that proves it: from the
commitment to the root of the list, and on from there to the root of the body.
-/

namespace SimpleSerialize

/-- The nodes from a commitment up to the body. -/
structure InclusionProof where
  nodes : List Root
deriving DecidableEq, Inhabited

abbrev InclusionProofs := LimitedList Preset.maxBlobsPerBlock InclusionProof

namespace InclusionProof

instance : Schema InclusionProof where
  shape preset :=
    (Shape.vector .bytes32 preset.kzgCommitmentInclusionProofDepth.toNat).check
  toValue proof := .vector (proof.nodes.map Schema.toValue)
  ofValue preset v := do
    let items ← v.toItems
    return ⟨← items.mapM (Schema.ofValue preset)⟩

instance : JsonForm InclusionProof where
  write proof := JsonForm.write proof.nodes
  read? tree := do return ⟨← JsonForm.read? tree⟩

end InclusionProof

namespace Inclusion

/-- The list of commitments in the body. -/
def fieldGindex : Except GindexError Gindex :=
  Gindex.ofSlot BodyTree.commitmentsField BodyTree.depth

/-- A commitment in the list of them, whose elements stand under node 2. -/
def elementGindex (preset : Preset) (index : Nat) : Except GindexError Gindex := do
  let data ← Gindex.root.left
  let slot ← Gindex.ofSlot index (coverDepth preset.maxBlobCommitmentsPerBlock.toNat)
  data.concat slot

/-- A commitment in the body. -/
def commitmentGindex (preset : Preset) (index : Nat) : Except GindexError Gindex := do
  let field ← fieldGindex
  let element ← elementGindex preset index
  field.concat element

end Inclusion

end SimpleSerialize
