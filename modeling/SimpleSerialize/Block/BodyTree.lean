import SimpleSerialize.Merkle.Gindex

/-! Where the fields of a block body stand in its tree. -/

namespace SimpleSerialize.BodyTree

def fieldCount : Nat := 12

/-- The place of the blob commitments among the fields. -/
def commitmentsField : Nat := 11

/-- Levels from the root to the fields. -/
def depth : Nat := 4

theorem coverDepth_fieldCount : coverDepth fieldCount = depth := by decide +kernel

end SimpleSerialize.BodyTree
