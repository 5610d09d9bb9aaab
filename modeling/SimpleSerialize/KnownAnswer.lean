import SimpleSerialize.Merkle.Layout
import SimpleSerialize.Wire.Decode

/-! Values whose encoding and SHA-256 root are known. -/

namespace SimpleSerialize

/-- The encoding is given as digits alone, the root with its marker. -/
structure KnownAnswer where
  name : String
  shape : Shape
  value : Value
  encoding : String
  root : String

namespace KnownAnswer

def computedRoot (answer : KnownAnswer) : Except FitError Root :=
  answer.shape.hashTreeRoot .sha256 answer.value

/-- Both the encoding and the root come out as they are known. -/
def holds (answer : KnownAnswer) : Bool :=
  match answer.shape.encode answer.value, answer.computedRoot with
  | .ok bs, .ok root =>
    String.ofList (DigitCodec.standard.encode bs) == answer.encoding && root.toHex == answer.root
  | _, _ => false

def twoZeros : String := "0xf5a5fd42d16a20302798ef6ed309979b43003d2320d9f0e8ea9831a92759fb4b"

def fourZeros : String := "0xdb56114e00fdd4c1f85c892bf35ac9a89289aaecb1ebd0a96cde606a748b5d71"

/-- The leaf that starts with the given digits and is zero from there on. -/
def leaf (digits : String) : String :=
  "0x" ++ digits ++ String.ofList (List.replicate (64 - digits.length) '0')

def byteItems : Shape := .list (.scalar (.uint .w8)) 8

def all : List KnownAnswer :=
  [{ name := "uint64 5"
     shape := .uint64
     value := .ofUInt64 5
     encoding := "0500000000000000"
     root := leaf "05" },
   { name := "bool true"
     shape := .scalar .bool
     value := .bool true
     encoding := "01"
     root := leaf "01" },
   { name := "bitvector of 10 with bits 0 and 9"
     shape := .bitvector 10
     value := .bits ((List.range 10).map fun i => i == 0 || i == 9)
     encoding := "0102"
     root := leaf "0102" },
   { name := "bitlist 101"
     shape := .bitlist 8
     value := .bits [true, false, true]
     encoding := "0d"
     root := "0xcf8ca64c265b9b6234fb7573a200745204fd04fecf680f1157f27367ee8f4aa2" },
   { name := "uint16 list 1 2 3"
     shape := .list (.scalar (.uint .w16)) 8
     value := .list [.ofUInt16 1, .ofUInt16 2, .ofUInt16 3]
     encoding := "010002000300"
     root := "0x8c0cd61afd522875dc93f9cfd0d3514d3bc6f60271d00ec8fb0c10881159b3b9" },
   { name := "container with a variable field"
     shape := .container [("a", .scalar (.uint .w16)), ("b", byteItems)]
     value := .container [.ofUInt16 0x0102, .list [.ofUInt8 1, .ofUInt8 2, .ofUInt8 3]]
     encoding := "020106000000010203"
     root := "0x710d0a5ab9743fd59b984e91f651038ac27d99f6739dfb5b3dda78f1ef56e912" },
   { name := "empty uint64 list"
     shape := .list .uint64 4
     value := .list []
     encoding := ""
     root := twoZeros },
   { name := "two empty lists"
     shape := .container [("a", byteItems), ("b", byteItems)]
     value := .container [.list [], .list []]
     encoding := "0800000008000000"
     root := fourZeros },
   { name := "zero commitment"
     shape := .byteVector 48
     value := .bytes (List.replicate 48 0)
     encoding := String.ofList (List.replicate 96 '0')
     root := twoZeros }]

end KnownAnswer

end SimpleSerialize
