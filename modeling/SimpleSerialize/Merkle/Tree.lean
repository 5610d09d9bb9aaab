import SimpleSerialize.Hash
import SimpleSerialize.Wire.Error

/-!
Binary trees over a list of leaves. A tree of height `n` has `2 ^ n` slots; slots past the last
leaf count as zero, and a subtree of such slots only is never built.
-/

namespace SimpleSerialize

namespace Merkle

/-- Bytes in chunks of 32, the last one filled with zeros. -/
def pack (bs : Bytes) : List Root :=
  (Bytes.runs chunkSize (Bytes.ceilDiv bs.length chunkSize) bs).map FixedBytes.ofPadded

def packBits (bits : List Bool) : List Root :=
  pack (Bytes.ofBits bits)

/-- The nodes one level up; `zero` stands beside a last node without a partner. -/
def pairUp (h : HashFunction) (zero : Root) : List Root → List Root
  | [] => []
  | [node] => [h.pair node zero]
  | left :: right :: nodes => h.pair left right :: pairUp h zero nodes

/-- Folds a layer up `levels` levels; `zero` is what a missing node of the layer counts as. -/
def foldUp (h : HashFunction) (zero : Root) : (levels : Nat) → List Root → Root
  | 0, layer => layer.headD zero
  | levels + 1, layer => foldUp h (h.pair zero zero) levels (pairUp h zero layer)

/-- The root of a tree just wide enough for `limit` leaves, or for the leaves there are. -/
def merkleize (h : HashFunction) (leaves : List Root) (limit : Option Nat) :
    Except FitError Root :=
  let limit := limit.getD leaves.length
  if leaves.length ≤ limit then .ok (foldUp h .zero (coverDepth limit) leaves)
  else .error (.overCapacity leaves.length limit)

/-- The root of the subtree of a given height, the `position`-th of its level. -/
def subtreeRoot (h : HashFunction) (leaves : List Root) (height position : Nat) : Root :=
  foldUp h .zero height ((leaves.drop (position * 2 ^ height)).take (2 ^ height))

/-- The leaf that holds a number of elements. -/
def countRoot (count : Nat) : Root := .ofNat count

def mixInCount (h : HashFunction) (root : Root) (count : Nat) : Root :=
  h.pair root (countRoot count)

end Merkle

end SimpleSerialize
