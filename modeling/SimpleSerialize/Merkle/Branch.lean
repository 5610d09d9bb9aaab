import SimpleSerialize.Merkle.Tree

/-!
Branches: the siblings met on the way from a node up to the root. A branch has one node for each
level of the gindex it belongs to.
-/

namespace SimpleSerialize

inductive ProofError where
  | gindex (error : GindexError)
  | unreachable (gindex : Gindex)
  | branchLength (expected got : Nat)
  | subtreeMismatch (gindex : Gindex)
  | fit (error : FitError)
  | shape (error : ShapeError)
deriving DecidableEq

def ProofError.message : ProofError → String
  | .gindex error => error.message
  | .unreachable g => s!"gindex {g.toNat} does not address a node of this value"
  | .branchLength expected got => s!"branch length {got} does not match gindex depth {expected}"
  | .subtreeMismatch g =>
    s!"outer branch does not prove the subtree root at gindex {g.toNat}"
  | .fit error => "merkleization failed: " ++ error.message
  | .shape error => "invalid shape: " ++ error.message

namespace Merkle

/-- The node above `node`, which is the right child if the last bit of `path` is set. -/
def climb (h : HashFunction) (path : Nat) (node : Root) : (branch : List Root) → Root
  | [] => node
  | sibling :: branch =>
    climb h (path / 2) (if path % 2 = 1 then h.pair sibling node else h.pair node sibling) branch

/-- The root that a leaf and its branch give. -/
def rootFrom (h : HashFunction) (branch : List Root) (gindex : Gindex) (leaf : Root) :
    Except ProofError Root :=
  if branch.length = gindex.depth then .ok (climb h gindex.toNat leaf branch)
  else .error (.branchLength gindex.depth branch.length)

/-- A branch of the wrong length is an error, one that gives another root is not. -/
def verify (h : HashFunction) (branch : List Root) (gindex : Gindex) (root leaf : Root) :
    Except ProofError Bool :=
  (rootFrom h branch gindex leaf).map (· == root)

/-- From a node to the root of its subtree, and on to the root of the whole tree. -/
def joinBranches (inner outer : List Root) : List Root := inner ++ outer

/--
The branch in the whole tree of a node of a subtree, once the outer branch is known to place the
subtree there.
-/
def joinVerified (h : HashFunction) (inner : List Root) (innerGindex : Gindex)
    (subtree : Root) (outer : List Root) (outerGindex : Gindex) (root : Root) :
    Except ProofError (Gindex × List Root) := do
  let placed ← verify h outer outerGindex root subtree
  if placed then
    if inner.length = innerGindex.depth then do
      let gindex ← (outerGindex.concat innerGindex).mapError .gindex
      return (gindex, joinBranches inner outer)
    else .error (.branchLength innerGindex.depth inner.length)
  else .error (.subtreeMismatch outerGindex)

/--
The branch of a node of a tree of `2 ^ depth` slots. A node below a leaf is looked up by `descend`,
from the number of the leaf and the gindex below it.
-/
def branchInTree (h : HashFunction) (leaves : List Root) (depth : Nat) (gindex : Gindex)
    (descend : Nat → Gindex → Except ProofError (List Root)) : Except ProofError (List Root) :=
  if gindex = .root then .ok []
  else
    let level := min gindex.depth depth
    let (node, below) := gindex.splitAt level
    let leaf := node.position * 2 ^ (depth - level)
    if leaves.length ≤ leaf then .error (.unreachable gindex)
    else do
      let inner ← if below = .root then .ok [] else descend leaf below
      let outer := (List.range' (depth - level) level).map fun height =>
        let position := leaf / 2 ^ height
        subtreeRoot h leaves height (if position % 2 = 0 then position + 1 else position - 1)
      return inner ++ outer

/-- The node itself, looked up in the same way. -/
def nodeInTree (h : HashFunction) (leaves : List Root) (depth : Nat) (gindex : Gindex)
    (descend : Nat → Gindex → Except ProofError Root) : Except ProofError Root :=
  let level := min gindex.depth depth
  let (node, below) := gindex.splitAt level
  let leaf := node.position * 2 ^ (depth - level)
  if leaves.length ≤ leaf ∧ gindex ≠ .root then .error (.unreachable gindex)
  else if below ≠ .root then descend leaf below
  else .ok (subtreeRoot h leaves (depth - level) node.position)

end Merkle

end SimpleSerialize
