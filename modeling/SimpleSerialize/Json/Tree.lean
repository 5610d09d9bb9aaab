import SimpleSerialize.Json.Token

/-! JSON texts as trees. Exactly one value is read, nested to any depth. -/

namespace SimpleSerialize

inductive JsonTree where
  | null
  | bool (b : Bool)
  | number (literal : List Char)
  | string (content? : Option String)
  | array (items : List JsonTree)
  | object (members : List (Option String × JsonTree))

namespace JsonTree

open Json (Token)

/-- An array or object that is still open; what was read of it is kept last first. -/
inductive Frame where
  | array (done : List JsonTree)
  | object (done : List (Option String × JsonTree)) (key? : Option String)

inductive Expected where
  | value
  | firstItem
  | firstKey
  | key
  | colon
  | separator

/-- What comes next inside the open frames, the innermost first, or the one value read. -/
inductive Progress where
  | inside (expected : Expected) (frames : List Frame)
  | complete (tree : JsonTree)

/-- Puts a value where it belongs. -/
def place (tree : JsonTree) : List Frame → Progress
  | [] => .complete tree
  | .array done :: frames => .inside .separator (.array (tree :: done) :: frames)
  | .object done key? :: frames =>
    .inside .separator (.object ((key?, tree) :: done) key? :: frames)

def startValue (frames : List Frame) : Token → Option Progress
  | .null => some (place .null frames)
  | .bool b => some (place (.bool b) frames)
  | .number literal => some (place (.number literal) frames)
  | .string content? => some (place (.string content?) frames)
  | .openBracket => some (.inside .firstItem (.array [] :: frames))
  | .openBrace => some (.inside .firstKey (.object [] none :: frames))
  | _ => none

def startKey : List Frame → Token → Option Progress
  | .object done _ :: frames, .string key? => some (.inside .colon (.object done key? :: frames))
  | _, _ => none

def close : List Frame → Token → Option Progress
  | .array done :: frames, .closeBracket => some (place (.array done.reverse) frames)
  | .object done _ :: frames, .closeBrace => some (place (.object done.reverse) frames)
  | _, _ => none

def next : Progress → Token → Option Progress
  | .inside .value frames, token => startValue frames token
  | .inside .firstItem frames, token => (close frames token).or (startValue frames token)
  | .inside .firstKey frames, token => (close frames token).or (startKey frames token)
  | .inside .key frames, token => startKey frames token
  | .inside .colon frames, .colon => some (.inside .value frames)
  | .inside .separator frames, .comma =>
    match frames with
    | .array _ :: _ => some (.inside .value frames)
    | .object _ _ :: _ => some (.inside .key frames)
    | [] => none
  | .inside .separator frames, token => close frames token
  | _, _ => none

def ofText? (text : String) : Option JsonTree := do
  match ← (← Json.tokens? text).foldlM next (.inside .value []) with
  | .complete tree => some tree
  | .inside _ _ => none

/-- A number without sign, fraction and exponent. -/
def natural? : JsonTree → Option Nat
  | number literal =>
    if literal.all Json.isDigit then
      some (literal.foldl (fun n c => 10 * n + (c.toNat - 48)) 0)
    else none
  | _ => none

def naturalBelow? (bound : Nat) (tree : JsonTree) : Option Nat := do
  let n ← tree.natural?
  if n < bound then some n else none

def bool? : JsonTree → Option Bool
  | bool b => some b
  | _ => none

def string? : JsonTree → Option String
  | string content? => content?
  | _ => none

def items? : JsonTree → Option (List JsonTree)
  | array items => some items
  | _ => none

/-- Whether members that have none of the names asked for are passed over. -/
inductive Others where
  | ignored
  | refused
deriving DecidableEq

/--
The members of a record in the order of their names, from an object that has each of them once or
from an array of just these.
-/
def record? (names : List String) (others : Others) : JsonTree → Option (List JsonTree)
  | array items => if items.length = names.length then some items else none
  | object members => do
    let keys ← members.mapM (·.1)
    if others = .refused ∧ !keys.all names.contains then none
    else names.mapM fun name =>
      match members.filter (·.1 == some name) with
      | [(_, tree)] => some tree
      | _ => none
  | _ => none

end JsonTree

end SimpleSerialize
