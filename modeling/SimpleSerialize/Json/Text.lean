import SimpleSerialize.Bytes.Hex
import SimpleSerialize.Json.Tree
import SimpleSerialize.Merkle.Gindex

/-!
Values that have a JSON form. Byte strings are strings of hexadecimal digits, records are written
in the order of their declaration, and nothing is written between tokens.
-/

namespace SimpleSerialize

/-- A JSON form. Only the form is checked on reading; limits belong to the wire. -/
class JsonForm (α : Type) where
  write : α → String
  read? : JsonTree → Option α

namespace Json

def escapedChar (c : Char) : List Char :=
  match c with
  | '"' => ['\\', '"']
  | '\\' => ['\\', '\\']
  | '\x08' => ['\\', 'b']
  | '\x0c' => ['\\', 'f']
  | '\n' => ['\\', 'n']
  | '\r' => ['\\', 'r']
  | '\t' => ['\\', 't']
  | c =>
    if c.toNat < 0x20 then
      ['\\', 'u', '0', '0', Nat.digitChar (c.toNat / 16), Nat.digitChar (c.toNat % 16)]
    else [c]

def writeString (s : String) : String :=
  "\"" ++ String.ofList (s.toList.flatMap escapedChar) ++ "\""

def writeArray (items : List String) : String :=
  "[" ++ String.intercalate "," items ++ "]"

def writeRecord (members : List (String × String)) : String :=
  "\x7b" ++ String.intercalate "," (members.map fun (name, text) => writeString name ++ ":" ++ text)
    ++ "\x7d"

/-- Reads a text that holds one value and blanks around it. -/
def parse? {α : Type} [JsonForm α] (text : String) : Option α := do
  JsonForm.read? (← JsonTree.ofText? text)

end Json

namespace JsonForm

instance : JsonForm Bool where
  write b := if b then "true" else "false"
  read? := JsonTree.bool?

instance : JsonForm UInt8 where
  write n := toString n.toNat
  read? tree := (tree.naturalBelow? (2 ^ 8)).map UInt8.ofNat

instance : JsonForm UInt16 where
  write n := toString n.toNat
  read? tree := (tree.naturalBelow? (2 ^ 16)).map UInt16.ofNat

instance : JsonForm UInt32 where
  write n := toString n.toNat
  read? tree := (tree.naturalBelow? (2 ^ 32)).map UInt32.ofNat

instance : JsonForm UInt64 where
  write n := toString n.toNat
  read? tree := (tree.naturalBelow? (2 ^ 64)).map UInt64.ofNat

instance : JsonForm String where
  write := Json.writeString
  read? := JsonTree.string?

instance {width : Nat} : JsonForm (FixedBytes width) where
  write fixed := Json.writeString fixed.toHex
  read? tree := do (Hex.decodeFixed .standard width (← tree.string?)).toOption

instance : JsonForm Gindex where
  write g := toString g.toNat
  read? tree := do (Gindex.ofUInt64 (← read? tree)).toOption

instance {α : Type} [JsonForm α] : JsonForm (List α) where
  write items := Json.writeArray (items.map write)
  read? tree := do (← tree.items?).mapM read?

end JsonForm

end SimpleSerialize
