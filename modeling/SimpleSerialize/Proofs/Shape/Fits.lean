import SimpleSerialize.Proofs.Shape.Sizes
import SimpleSerialize.Value

/-!
Which values a shape describes: those of its kind with as many parts as the shape allows, where each
part is described by the shape it is written against.
-/

namespace SimpleSerialize.Shape

inductive Fits : Shape → Value → Prop
  | bool (b : Bool) : Fits (scalar .bool) (.bool b)
  | uint (width : UIntWidth) (n : BitVec width.bits) : Fits (scalar (.uint width)) (.uint width n)
  | byteVector {length : Nat} {bs : Bytes} (length_eq : bs.length = length) :
    Fits (byteVector length) (.bytes bs)
  | byteList {limit : Nat} {bs : Bytes} (length_le : bs.length ≤ limit) :
    Fits (byteList limit) (.bytes bs)
  | bitvector {length : Nat} {bits : List Bool} (length_eq : bits.length = length) :
    Fits (bitvector length) (.bits bits)
  | bitlist {limit : Nat} {bits : List Bool} (length_le : bits.length ≤ limit) :
    Fits (bitlist limit) (.bits bits)
  | vector {element : Shape} {length : Nat} {items : List Value} (length_eq : items.length = length)
    (items_fit : ∀ item ∈ items, Fits element item) : Fits (vector element length) (.vector items)
  | list {element : Shape} {limit : Nat} {items : List Value} (length_le : items.length ≤ limit)
    (items_fit : ∀ item ∈ items, Fits element item) : Fits (list element limit) (.list items)
  | container {fields : List (String × Shape)} {values : List Value}
    (length_eq : values.length = fields.length)
    (values_fit : ∀ entry ∈ fields.zip values, Fits entry.1.2 entry.2) :
    Fits (container fields) (.container values)

end SimpleSerialize.Shape

namespace SimpleSerialize.Value

mutual

/-- Zeros throughout; lists are empty. -/
def zeroFor : Shape → Value
  | .scalar .bool => bool false
  | .scalar (.uint width) => uint width 0
  | .byteVector length => bytes (List.replicate length 0)
  | .byteList _ => bytes []
  | .bitvector length => bits (List.replicate length false)
  | .bitlist _ => bits []
  | .vector element length => vector (List.replicate length (zeroFor element))
  | .list _ _ => list []
  | .container fields => container (zerosFor fields)

def zerosFor : List (String × Shape) → List Value
  | [] => []
  | (_, shape) :: fields => zeroFor shape :: zerosFor fields

end

theorem zerosFor_eq_map (fields : List (String × Shape)) :
    zerosFor fields = fields.map fun field => zeroFor field.2 := by
  induction fields with
  | nil => rfl
  | cons field fields ih => rw [zerosFor, ih, List.map_cons]

end SimpleSerialize.Value
