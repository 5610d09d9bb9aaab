import SimpleSerialize.Merkle.Branch
import SimpleSerialize.Wire.Encode

/-!
How a value stands in its tree: as chunks of bytes, or as the trees of its parts, with room for a
number of leaves that the shape alone decides, and beside them the number of elements of a list.
Roots, nodes and branches are read off the layout.
-/

namespace SimpleSerialize

inductive Layout where
  | packed (chunks : List Root) (capacity : Nat) (count? : Option Nat)
  | composite (parts : List Layout) (capacity : Nat) (count? : Option Nat)
  | misfit (error : FitError)

namespace Layout

def packElements (kind : Scalar) (items : List Value) : Except FitError (List Root) :=
  (items.mapM kind.encode).map fun encodings => Merkle.pack encodings.flatten

def ofPacked (chunks : Except FitError (List Root)) (capacity : Nat) (count? : Option Nat) :
    Layout :=
  match chunks with
  | .ok chunks => .packed chunks capacity count?
  | .error e => .misfit e

/-- A layout, unless the value was found not to fit. -/
def ifFits (fits : Except FitError Unit) (layout : Layout) : Layout :=
  match fits with
  | .ok () => layout
  | .error e => .misfit e

mutual

/-- Only the value itself is looked at; parts that do not fit are misfits of their own. -/
def of : Shape → Value → Layout
  | shape@(.scalar kind), v => ofPacked ((kind.encode v).map Merkle.pack) shape.chunkLimit none
  | shape@(.byteVector length), v =>
    match v with
    | .bytes bs =>
      ifFits (requireLength length bs.length) (.packed (Merkle.pack bs) shape.chunkLimit none)
    | v => .misfit (shape.misfit v)
  | shape@(.byteList limit), v =>
    match v with
    | .bytes bs =>
      ifFits (requireCapacity limit bs.length)
        (.packed (Merkle.pack bs) shape.chunkLimit (some bs.length))
    | v => .misfit (shape.misfit v)
  | shape@(.bitvector length), v =>
    match v with
    | .bits bits =>
      ifFits (requireLength length bits.length)
        (.packed (Merkle.packBits bits) shape.chunkLimit none)
    | v => .misfit (shape.misfit v)
  | shape@(.bitlist limit), v =>
    match v with
    | .bits bits =>
      ifFits (requireCapacity limit bits.length)
        (.packed (Merkle.packBits bits) shape.chunkLimit (some bits.length))
    | v => .misfit (shape.misfit v)
  | shape@(.vector element length), v =>
    match v with
    | .vector items =>
      ifFits (requireLength length items.length) <|
        match element.scalar? with
        | some kind => ofPacked (packElements kind items) shape.chunkLimit none
        | none => .composite (items.map fun item => of element item) shape.chunkLimit none
    | v => .misfit (shape.misfit v)
  | shape@(.list element limit), v =>
    match v with
    | .list items =>
      ifFits (requireCapacity limit items.length) <|
        match element.scalar? with
        | some kind => ofPacked (packElements kind items) shape.chunkLimit (some items.length)
        | none =>
          .composite (items.map fun item => of element item) shape.chunkLimit (some items.length)
    | v => .misfit (shape.misfit v)
  | shape@(.container fields), v =>
    match v with
    | .container values =>
      ifFits (requireLength fields.length values.length)
        (.composite (ofFields fields values) shape.chunkLimit none)
    | v => .misfit (shape.misfit v)

def ofFields : List (String × Shape) → List Value → List Layout
  | (_, shape) :: fields, v :: values => of shape v :: ofFields fields values
  | _, _ => []

end

/-- The root of the leaves, and with it the number of elements if there is one. -/
def rootOver (h : HashFunction) (leaves : List Root) (capacity : Nat) (count? : Option Nat) :
    Except FitError Root := do
  let data ← Merkle.merkleize h leaves (some capacity)
  return match count? with
    | some count => Merkle.mixInCount h data count
    | none => data

mutual

def root (h : HashFunction) : Layout → Except FitError Root
  | packed chunks capacity count? => rootOver h chunks capacity count?
  | composite parts capacity count? => do
    let leaves ← roots h parts
    rootOver h leaves capacity count?
  | misfit e => .error e

def roots (h : HashFunction) : List Layout → Except FitError (List Root)
  | [] => .ok []
  | part :: parts => do
    let first ← root h part
    let rest ← roots h parts
    return first :: rest

end

/--
The branch of a node other than the root. With a count, the leaves stand under node 2, and node 3
holds the count.
-/
def branchOver (h : HashFunction) (leaves : Except FitError (List Root)) (capacity : Nat)
    (count? : Option Nat) (gindex : Gindex)
    (descend : Nat → Gindex → Except ProofError (List Root)) : Except ProofError (List Root) :=
  match count? with
  | none => do
    let leaves ← leaves.mapError .fit
    Merkle.branchInTree h leaves (coverDepth capacity) gindex descend
  | some count =>
    let (top, rest) := gindex.splitAt 1
    if top.isLeft then do
      let leaves ← leaves.mapError .fit
      let inner ← Merkle.branchInTree h leaves (coverDepth capacity) rest descend
      return inner ++ [Merkle.countRoot count]
    else if rest = .root then do
      let data ← (do
        let leaves ← leaves
        Merkle.merkleize h leaves (some capacity)).mapError .fit
      return [data]
    else .error (.unreachable gindex)

/-- The node itself, found in the same way. -/
def nodeOver (h : HashFunction) (leaves : Except FitError (List Root)) (capacity : Nat)
    (count? : Option Nat) (gindex : Gindex)
    (descend : Nat → Gindex → Except ProofError Root) : Except ProofError Root :=
  match count? with
  | none => do
    let leaves ← leaves.mapError .fit
    Merkle.nodeInTree h leaves (coverDepth capacity) gindex descend
  | some count =>
    let (top, rest) := gindex.splitAt 1
    if top.isLeft then
      if rest = .root then
        (do
          let leaves ← leaves
          Merkle.merkleize h leaves (some capacity)).mapError .fit
      else do
        let leaves ← leaves.mapError .fit
        Merkle.nodeInTree h leaves (coverDepth capacity) rest descend
    else if rest = .root then .ok (Merkle.countRoot count)
    else .error (.unreachable gindex)

mutual

/-- The branch of a node. An unreachable node is named by its gindex in the innermost tree. -/
def branch (h : HashFunction) : Layout → Gindex → Except ProofError (List Root)
  | packed chunks capacity count?, gindex =>
    if gindex = .root then .ok []
    else branchOver h (.ok chunks) capacity count? gindex fun _ below => .error (.unreachable below)
  | composite parts capacity count?, gindex =>
    if gindex = .root then .ok []
    else branchOver h (roots h parts) capacity count? gindex fun i below =>
      branchOfPart h parts i below
  | misfit e, gindex => if gindex = .root then .ok [] else .error (.fit e)

def branchOfPart (h : HashFunction) :
    List Layout → (i : Nat) → Gindex → Except ProofError (List Root)
  | [], _, gindex => .error (.unreachable gindex)
  | part :: _, 0, gindex => branch h part gindex
  | _ :: parts, i + 1, gindex => branchOfPart h parts i gindex

end

mutual

/-- The node itself, named in the same way if it is unreachable. -/
def node (h : HashFunction) : Layout → Gindex → Except ProofError Root
  | packed chunks capacity count?, gindex =>
    if gindex = .root then (rootOver h chunks capacity count?).mapError .fit
    else nodeOver h (.ok chunks) capacity count? gindex fun _ below => .error (.unreachable below)
  | composite parts capacity count?, gindex =>
    if gindex = .root then (root h (composite parts capacity count?)).mapError .fit
    else nodeOver h (roots h parts) capacity count? gindex fun i below =>
      nodeOfPart h parts i below
  | misfit e, _ => .error (.fit e)

def nodeOfPart (h : HashFunction) : List Layout → (i : Nat) → Gindex → Except ProofError Root
  | [], _, gindex => .error (.unreachable gindex)
  | part :: _, 0, gindex => node h part gindex
  | _ :: parts, i + 1, gindex => nodeOfPart h parts i gindex

end

end Layout

/-- An unreachable node is named by the gindex that was asked for. -/
def ProofError.reachedFrom (gindex : Gindex) : ProofError → ProofError
  | .unreachable _ => .unreachable gindex
  | e => e

namespace Shape

def hashTreeRoot (h : HashFunction) (shape : Shape) (v : Value) : Except FitError Root :=
  (Layout.of shape v).root h

/-- The branch that proves the node at `gindex` against the root. -/
def prove (h : HashFunction) (shape : Shape) (v : Value) (gindex : Gindex) :
    Except ProofError (List Root) :=
  ((Layout.of shape v).branch h gindex).mapError (.reachedFrom gindex)

def nodeRoot (h : HashFunction) (shape : Shape) (v : Value) (gindex : Gindex) :
    Except ProofError Root :=
  ((Layout.of shape v).node h gindex).mapError (.reachedFrom gindex)

end Shape

end SimpleSerialize
