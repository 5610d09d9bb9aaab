import SimpleSerialize.Merkle.Layout

/-!
Walks by words. Depths are found by counting zeros, and places by shifts and bits of words. A shift
that goes further than it may, a subtraction below zero or an index past the end overruns.
`Layout.branch` and `Layout.node` find the same places with numbers that have no bound.
-/

namespace SimpleSerialize

/-- How far shifts may go, and the largest number they may come to. -/
structure ShiftRange where
  amount : Nat
  result : Nat

namespace ShiftRange

/-- Gindices take up a whole word. -/
def gindex : ShiftRange := ⟨maxDepth, wordBound - 1⟩

/-- Places in a tree, and what it is wide, leave room for a count beside it. -/
def tree : ShiftRange := ⟨maxDepth - 1, 2 ^ (maxDepth - 1)⟩

end ShiftRange

/-- What a step can do wrong. -/
inductive Overrun where
  | shift (n amount : Nat)
  | subtraction (a b : Nat)
  | index (i length : Nat)
  | gindex (n : Nat)
deriving DecidableEq

/-- A walk stops where the node is refused, or at a step that overruns. -/
inductive WalkStop where
  | refused (error : ProofError)
  | overran (overrun : Overrun)
deriving DecidableEq

abbrev Ranged (α : Type) := Except WalkStop α

namespace Ranged

variable {α : Type}

def ofExcept (x : Except ProofError α) : Ranged α := x.mapError .refused

/-- A value that does not fit has no walk. -/
def ofFit (x : Except FitError α) : Ranged α := ofExcept (x.mapError .fit)

def refuse (e : ProofError) : Ranged α := .error (.refused e)

def overrun (o : Overrun) : Ranged α := .error (.overran o)

def shiftLeft (range : ShiftRange) (n amount : Nat) : Ranged Nat :=
  if amount ≤ range.amount ∧ n <<< amount ≤ range.result then .ok (n <<< amount)
  else overrun (.shift n amount)

def shiftRight (range : ShiftRange) (n amount : Nat) : Ranged Nat :=
  if amount ≤ range.amount ∧ n >>> amount ≤ range.result then .ok (n >>> amount)
  else overrun (.shift n amount)

def sub (a b : Nat) : Ranged Nat :=
  if b ≤ a then .ok (a - b) else overrun (.subtraction a b)

def get (xs : List α) (i : Nat) : Ranged α :=
  match xs[i]? with
  | some x => .ok x
  | none => overrun (.index i xs.length)

/-- A sum as a word holds it, or the largest word. -/
def addSaturating (a b : Nat) : Nat := min (a + b) (wordBound - 1)

/-- Zeros above the highest bit set. -/
def leadingZeros (n : UInt64) : Nat := n.toBitVec.clz.toNat

def coverDepth (n : UInt64) : Ranged Nat :=
  if n ≤ 1 then .ok 0 else sub 64 (leadingZeros (n - 1))

/-! ### Gindices -/

/-- A word that is to be a gindex. -/
def gindex (n : Nat) : Ranged Gindex :=
  if h : 0 < n ∧ n < 2 ^ (maxDepth + 1) then .ok ⟨n, h.1, h.2⟩ else overrun (.gindex n)

def depth (g : Gindex) : Ranged Nat := sub maxDepth (leadingZeros (UInt64.ofNat g.toNat))

def position (g : Gindex) : Ranged Nat := do
  let width ← shiftLeft .gindex 1 (← depth g)
  sub g.toNat width

def ofSlot (index depth : Nat) : Ranged Gindex :=
  if maxDepth < depth then refuse (.gindex (.tooDeep depth))
  else do
    let width ← shiftLeft .gindex 1 depth
    if width ≤ index then refuse (.gindex (.indexOutOfRange index depth))
    else gindex (width ||| index)

def concat (outer inner : Gindex) : Ranged Gindex := do
  let below ← depth inner
  let sum := (← depth outer) + below
  if maxDepth < sum then refuse (.gindex (.tooDeep sum))
  else do
    let above ← shiftLeft .gindex outer.toNat below
    gindex (above ||| (← position inner))

def child (g : Gindex) (turn : Bool) : Ranged Gindex := do
  let levels ← depth g
  if maxDepth ≤ levels then refuse (.gindex (.tooDeep (levels + 1)))
  else do
    let above ← shiftLeft .gindex g.toNat 1
    gindex (above ||| turn.toNat)

def parent? (g : Gindex) : Ranged (Option Gindex) :=
  if g.toNat = 1 then .ok none
  else do
    let top ← gindex (← shiftRight .gindex g.toNat 1)
    return some top

def sibling? (g : Gindex) : Ranged (Option Gindex) :=
  if g.toNat = 1 then .ok none
  else do
    let beside ← gindex (g.toNat ^^^ 1)
    return some beside

def splitAt (g : Gindex) (levels : Nat) : Ranged (Gindex × Gindex) := do
  let rest ← sub (← depth g) levels
  let top ← gindex (← shiftRight .gindex g.toNat rest)
  let mask ← sub (← shiftLeft .gindex 1 rest) 1
  let below ← gindex ((← shiftLeft .gindex 1 rest) ||| (g.toNat &&& mask))
  return (top, below)

/-! ### Trees -/

/-- Folds a layer up one level for each zero root but the last, which stands for an empty layer. -/
def fold (h : HashFunction) (layer zeros : List Root) : Ranged Root := do
  let depth ← sub zeros.length 1
  if layer.isEmpty then get zeros depth
  else get ((zeros.take depth).foldl (fun layer zero => Merkle.pairUp h zero layer) layer) 0

/-- The entries from `start` on and before `stop`, or none if these are not in order. -/
def slice (xs : List α) (start stop : Nat) : List α :=
  if start ≤ stop ∧ stop ≤ xs.length then (xs.drop start).take (stop - start) else []

def merkleize (h : HashFunction) (leaves : List Root) (limit : UInt64) : Ranged Root :=
  if limit.toNat < leaves.length then refuse (.fit (.overCapacity leaves.length limit.toNat))
  else do
    let depth ← coverDepth limit
    fold h leaves (h.zeroRoots depth)

def subtreeRoot (h : HashFunction) (leaves : List Root) (height position : Nat) : Ranged Root := do
  let start ← shiftLeft .tree position height
  let width ← shiftLeft .tree 1 height
  let stop := min (addSaturating start width) leaves.length
  fold h (slice leaves start stop) (h.zeroRoots height)

def branchInTree (h : HashFunction) (leaves : List Root) (depth : Nat) (gindex : Gindex)
    (descend : Nat → Gindex → Ranged (List Root)) : Ranged (List Root) :=
  if gindex = .root then .ok []
  else do
    let level := min (← Ranged.depth gindex) depth
    let (node, below) ← splitAt gindex level
    let height ← sub depth level
    let leaf ← shiftLeft .tree (← position node) height
    if leaves.length ≤ leaf then refuse (.unreachable gindex)
    else do
      let inner ← if below = .root then .ok [] else descend leaf below
      let outer ← (List.range' height level).mapM fun height => do
        let position ← shiftRight .tree leaf height
        subtreeRoot h leaves height (position ^^^ 1)
      return inner ++ outer

def nodeInTree (h : HashFunction) (leaves : List Root) (depth : Nat) (gindex : Gindex)
    (descend : Nat → Gindex → Ranged Root) : Ranged Root := do
  let level := min (← Ranged.depth gindex) depth
  let (node, below) ← splitAt gindex level
  let height ← sub depth level
  let leaf ← shiftLeft .tree (← position node) height
  if leaves.length ≤ leaf ∧ gindex ≠ .root then refuse (.unreachable gindex)
  else if below ≠ .root then descend leaf below
  else subtreeRoot h leaves height (← position node)

end Ranged

namespace Layout

open Ranged

def branchOverRanged (h : HashFunction) (leaves : Except FitError (List Root)) (capacity : Nat)
    (count? : Option Nat) (gindex : Gindex) (descend : Nat → Gindex → Ranged (List Root)) :
    Ranged (List Root) :=
  match count? with
  | none => do
    let leaves ← ofFit leaves
    let depth ← Ranged.coverDepth (UInt64.ofNat capacity)
    branchInTree h leaves depth gindex descend
  | some count => do
    let (top, rest) ← splitAt gindex 1
    if top.isLeft then do
      let leaves ← ofFit leaves
      let depth ← Ranged.coverDepth (UInt64.ofNat capacity)
      let inner ← branchInTree h leaves depth rest descend
      return inner ++ [Merkle.countRoot count]
    else if rest = .root then do
      let data ← Ranged.merkleize h (← ofFit leaves) (UInt64.ofNat capacity)
      return [data]
    else refuse (.unreachable gindex)

def nodeOverRanged (h : HashFunction) (leaves : Except FitError (List Root)) (capacity : Nat)
    (count? : Option Nat) (gindex : Gindex) (descend : Nat → Gindex → Ranged Root) :
    Ranged Root :=
  match count? with
  | none => do
    let leaves ← ofFit leaves
    let depth ← Ranged.coverDepth (UInt64.ofNat capacity)
    nodeInTree h leaves depth gindex descend
  | some count => do
    let (top, rest) ← splitAt gindex 1
    if top.isLeft then
      if rest = .root then do
        Ranged.merkleize h (← ofFit leaves) (UInt64.ofNat capacity)
      else do
        let leaves ← ofFit leaves
        let depth ← Ranged.coverDepth (UInt64.ofNat capacity)
        nodeInTree h leaves depth rest descend
    else if rest = .root then .ok (Merkle.countRoot count)
    else refuse (.unreachable gindex)

mutual

def branchRanged (h : HashFunction) : Layout → Gindex → Ranged (List Root)
  | packed chunks capacity count?, gindex =>
    if gindex = .root then .ok []
    else branchOverRanged h (.ok chunks) capacity count? gindex fun _ below =>
      refuse (.unreachable below)
  | composite parts capacity count?, gindex =>
    if gindex = .root then .ok []
    else branchOverRanged h (roots h parts) capacity count? gindex fun i below =>
      branchOfPartRanged h parts i below
  | misfit e, gindex => if gindex = .root then .ok [] else refuse (.fit e)

def branchOfPartRanged (h : HashFunction) :
    List Layout → (i : Nat) → Gindex → Ranged (List Root)
  | [], _, gindex => refuse (.unreachable gindex)
  | part :: _, 0, gindex => branchRanged h part gindex
  | _ :: parts, i + 1, gindex => branchOfPartRanged h parts i gindex

end

mutual

def nodeRanged (h : HashFunction) : Layout → Gindex → Ranged Root
  | packed chunks capacity count?, gindex =>
    if gindex = .root then ofFit (rootOver h chunks capacity count?)
    else nodeOverRanged h (.ok chunks) capacity count? gindex fun _ below =>
      refuse (.unreachable below)
  | composite parts capacity count?, gindex =>
    if gindex = .root then ofFit (root h (composite parts capacity count?))
    else nodeOverRanged h (roots h parts) capacity count? gindex fun i below =>
      nodeOfPartRanged h parts i below
  | misfit e, _ => refuse (.fit e)

def nodeOfPartRanged (h : HashFunction) : List Layout → (i : Nat) → Gindex → Ranged Root
  | [], _, gindex => refuse (.unreachable gindex)
  | part :: _, 0, gindex => nodeRanged h part gindex
  | _ :: parts, i + 1, gindex => nodeOfPartRanged h parts i gindex

end

end Layout

/-- An unreachable node is named by the gindex that was asked for. -/
def WalkStop.reachedFrom (gindex : Gindex) : WalkStop → WalkStop
  | .refused e => .refused (e.reachedFrom gindex)
  | .overran o => .overran o

namespace Shape

/-- A quotient rounded up, in words of 128 bits. -/
def ceilDivWide (n size : BitVec 128) : BitVec 128 :=
  if n % size = 0 then n / size else n / size + 1

def leafCountWide (element : Shape) (count : Nat) : BitVec 128 :=
  match element.scalar? with
  | some kind =>
    ceilDivWide (BitVec.ofNat 128 count * BitVec.ofNat 128 kind.size) (BitVec.ofNat 128 chunkSize)
  | none => BitVec.ofNat 128 count

/-- The number of leaves there is room for, before it is known to be small enough for a tree. -/
def chunkLimitWide : Shape → BitVec 128
  | scalar _ => 1
  | byteVector length => ceilDivWide (BitVec.ofNat 128 length) (BitVec.ofNat 128 chunkSize)
  | byteList limit => ceilDivWide (BitVec.ofNat 128 limit) (BitVec.ofNat 128 chunkSize)
  | bitvector length => ceilDivWide (BitVec.ofNat 128 length) (BitVec.ofNat 128 (8 * chunkSize))
  | bitlist limit => ceilDivWide (BitVec.ofNat 128 limit) (BitVec.ofNat 128 (8 * chunkSize))
  | vector element length => element.leafCountWide length
  | list element limit => element.leafCountWide limit
  | container fields => BitVec.ofNat 128 fields.length

/-- The number of leaves as a word, the upper half of the wide one dropped. -/
def chunkLimitWord (shape : Shape) : UInt64 := ⟨shape.chunkLimitWide.setWidth 64⟩

/-- The gindex of a leaf. Beside a count, the leaves stand under node 2. -/
def leafGindexRanged (shape : Shape) (i : Nat) : Ranged Gindex := do
  let depth ← Ranged.coverDepth shape.chunkLimitWord
  let slot ← Ranged.ofSlot i depth
  if shape.mixesInCount then do
    let data ← Ranged.gindex 2
    Ranged.concat data slot
  else return slot

def proveRanged (h : HashFunction) (shape : Shape) (v : Value) (gindex : Gindex) :
    Ranged (List Root) :=
  ((Layout.of shape v).branchRanged h gindex).mapError (.reachedFrom gindex)

def nodeRootRanged (h : HashFunction) (shape : Shape) (v : Value) (gindex : Gindex) :
    Ranged Root :=
  ((Layout.of shape v).nodeRanged h gindex).mapError (.reachedFrom gindex)

end Shape

end SimpleSerialize
