import SimpleSerialize.Proofs.Merkle.Placed
import SimpleSerialize.Proofs.Merkle.Proving

/-!
Paths through a value: from a container to a field, from a vector or a list to an element that has
its own leaf. The shapes on a path decide the gindex it leads to (`Shape.gindexAt?`). The branch of
that gindex proves whatever value is put there.
-/

namespace SimpleSerialize

namespace Shape

/-- The shape one step down. Scalars share leaves, so a path does not lead to them one by one. -/
def part? : Shape → (i : Nat) → Option Shape
  | container fields, i => fields[i]?.map Prod.snd
  | vector element _, _ | list element _, _ => if element.scalar? = none then some element else none
  | _, _ => none

def at? : Shape → (path : List Nat) → Option Shape
  | shape, [] => some shape
  | shape, i :: path => do (← shape.part? i).at? path

/-- The slot of a part. Beside a count, the parts stand under node 2. -/
def partGindex (shape : Shape) (i : Nat) : Except GindexError Gindex := do
  let slot ← Gindex.ofSlot i (coverDepth shape.chunkLimit)
  if shape.mixesInCount then do
    let data ← Gindex.root.left
    data.concat slot
  else return slot

/-- The gindex at the end of a path, as far as the path leads and gindices reach. -/
def gindexAt? : Shape → (path : List Nat) → Option Gindex
  | _, [] => some .root
  | shape, i :: path => do
    let part ← shape.part? i
    let own ← (shape.partGindex i).toOption
    let below ← part.gindexAt? path
    (own.concat below).toOption

end Shape

namespace Value

def part? : Value → (i : Nat) → Option Value
  | vector items, i | list items, i | container items, i => items[i]?
  | _, _ => none

def at? : Value → (path : List Nat) → Option Value
  | v, [] => some v
  | v, i :: path => do (← v.part? i).at? path

def setPart : Value → (i : Nat) → Value → Value
  | vector items, i, part => vector (items.set i part)
  | list items, i, part => list (items.set i part)
  | container items, i, part => container (items.set i part)
  | v, _, _ => v

/-- Puts a value at the end of a path that the value has. -/
def setAt : Value → (path : List Nat) → Value → Value
  | _, [], new => new
  | v, i :: path, new =>
    match v.part? i with
    | some part => v.setPart i (part.setAt path new)
    | none => v

end Value

namespace Layout

variable {h : HashFunction} {root : Root}

theorem getElem?_ofFields {fields : List (String × Shape)} {values : List Value} {i : Nat}
    {field : String × Shape} {v : Value} (hfield : fields[i]? = some field)
    (hvalue : values[i]? = some v) : (ofFields fields values)[i]? = some (of field.2 v) := by
  induction fields generalizing values i with
  | nil => cases hfield
  | cons first fields ih =>
    cases values with
    | nil => cases hvalue
    | cons w values =>
      rw [ofFields]
      cases i with
      | zero =>
        cases hfield
        cases hvalue
        rfl
      | succ i => exact ih hfield hvalue

theorem ofFields_set {fields : List (String × Shape)} {i : Nat} {field : String × Shape}
    (hfield : fields[i]? = some field) (values : List Value) (v : Value) :
    ofFields fields (values.set i v) = (ofFields fields values).set i (of field.2 v) := by
  induction fields generalizing values i with
  | nil => cases hfield
  | cons first fields ih =>
    cases values with
    | nil => simp [ofFields]
    | cons w values =>
      cases i with
      | zero =>
        cases hfield
        simp [ofFields]
      | succ i => simp [ofFields, ih hfield]

/-- A step of a path leads to a part of the layout, which is all that changes with the value. -/
theorem of_part {shape part : Shape} {v w : Value} {i : Nat} (hshape : shape.part? i = some part)
    (hvalue : v.part? i = some w) (hroot : (of shape v).root h = .ok root) :
    ∃ parts count?, count?.isSome = shape.mixesInCount ∧ parts[i]? = some (of part w) ∧
      of shape v = .composite parts shape.chunkLimit count? ∧
      ∀ w', of shape (v.setPart i w') =
        .composite (parts.set i (of part w')) shape.chunkLimit count? := by
  cases shape with
  | vector element length =>
    simp only [Shape.part?, Option.ite_none_right_eq_some, Option.some.injEq] at hshape
    obtain ⟨hscalar, rfl⟩ := hshape
    cases v with
    | vector items =>
      rw [of] at hroot ⊢
      have hfits := fits_of_root hroot
      have hitem : items[i]? = some w := hvalue
      refine ⟨items.map fun item => of element item, none, rfl, ?_, ?_, ?_⟩
      · rw [List.getElem?_map, hitem, Option.map_some]
      · rw [hfits, hscalar]
        rfl
      · intro w'
        rw [Value.setPart, of, List.length_set, hfits, hscalar, List.map_set]
        rfl
    | _ => cases hroot
  | list element limit =>
    simp only [Shape.part?, Option.ite_none_right_eq_some, Option.some.injEq] at hshape
    obtain ⟨hscalar, rfl⟩ := hshape
    cases v with
    | list items =>
      rw [of] at hroot ⊢
      have hfits := fits_of_root hroot
      have hitem : items[i]? = some w := hvalue
      refine ⟨items.map fun item => of element item, some items.length, rfl, ?_, ?_, ?_⟩
      · rw [List.getElem?_map, hitem, Option.map_some]
      · rw [hfits, hscalar]
        rfl
      · intro w'
        rw [Value.setPart, of, List.length_set, hfits, hscalar, List.map_set]
        rfl
    | _ => cases hroot
  | container fields =>
    obtain ⟨field, hfield, rfl⟩ := Option.map_eq_some_iff.mp hshape
    cases v with
    | container values =>
      rw [of] at hroot ⊢
      have hfits := fits_of_root hroot
      refine ⟨ofFields fields values, none, rfl, getElem?_ofFields hfield hvalue, ?_, ?_⟩
      · rw [hfits]
        rfl
      · intro w'
        rw [Value.setPart, of, List.length_set, hfits, ofFields_set hfield]
        rfl
    | _ => cases hroot
  | _ => cases hshape

theorem exists_root_of_part {shape part : Shape} {v w : Value} {i : Nat}
    (hshape : shape.part? i = some part) (hvalue : v.part? i = some w)
    (hroot : (of shape v).root h = .ok root) : ∃ leaf, (of part w).root h = .ok leaf := by
  obtain ⟨parts, count?, -, hpart, hlayout, -⟩ := of_part hshape hvalue hroot
  rw [hlayout] at hroot
  obtain ⟨leaves, hroots, -⟩ := root_composite_eq_ok_iff.mp hroot
  obtain ⟨leaf, -, hleaf⟩ := root_of_getElem? hroots hpart
  exact ⟨leaf, hleaf⟩

/-- A step of a path leads to where the part stands. -/
theorem placed_part {shape part : Shape} {v w : Value} {i : Nat}
    (hshape : shape.part? i = some part) (hvalue : v.part? i = some w)
    (hroot : (of shape v).root h = .ok root) {own : Gindex} (hown : shape.partGindex i = .ok own) :
    ∃ outer, ∀ w', Placed h (of shape v) (of shape (v.setPart i w')) own (of part w) (of part w')
      outer := by
  obtain ⟨parts, count?, hcount, hpart, hlayout, hset⟩ := of_part hshape hvalue hroot
  simp only [hlayout, hset] at hroot ⊢
  obtain ⟨leaves, hroots, hfits, -⟩ := root_composite_eq_ok_iff.mp hroot
  rw [Shape.partGindex, bind_eq_ok_iff] at hown
  obtain ⟨slot, hslot, hown⟩ := hown
  rw [← hcount] at hown
  have hplaced := placed_slot hroots hfits hpart hslot
  cases count? with
  | none =>
    cases pure_eq_ok_iff.mp hown
    exact ⟨_, fun w' => hplaced _⟩
  | some count =>
    obtain ⟨data, hdata, hown⟩ := bind_eq_ok_iff.mp hown
    have htwo : data.toNat = 2 := by
      cases hdata
      rfl
    exact ⟨_, fun w' => (placed_data hroots hfits htwo count _).trans (hplaced _) hown⟩

/-- So does a whole path. -/
theorem placed_path {shape target : Shape} {v c : Value} {path : List Nat} {g : Gindex}
    (hroot : (of shape v).root h = .ok root) (hshape : shape.at? path = some target)
    (hvalue : v.at? path = some c) (hgindex : shape.gindexAt? path = some g) :
    ∃ outer, ∀ c', Placed h (of shape v) (of shape (v.setAt path c')) g (of target c)
      (of target c') outer := by
  induction path generalizing shape v root g with
  | nil =>
    cases hshape
    cases hvalue
    cases hgindex
    exact ⟨[], fun c' => Placed.self _ _⟩
  | cons i path ih =>
    obtain ⟨part, hpart, hshape⟩ := Option.bind_eq_some_iff.mp hshape
    obtain ⟨w, hw, hvalue⟩ := Option.bind_eq_some_iff.mp hvalue
    simp only [Shape.gindexAt?, hpart, Option.bind_eq_bind, Option.bind_some,
      Option.bind_eq_some_iff, toOption_eq_some_iff] at hgindex
    obtain ⟨own, hown, below, hbelow, hconcat⟩ := hgindex
    obtain ⟨outer, houter⟩ := placed_part hpart hw hroot hown
    obtain ⟨leaf, hleaf⟩ := exists_root_of_part hpart hw hroot
    -- The branch from the part up does not depend on what the rest of the path leads to.
    obtain ⟨inner, hinner⟩ := ih hleaf hshape hvalue hbelow
    refine ⟨inner ++ outer, ?_⟩
    intro c'
    rw [Value.setAt, hw]
    exact (houter _).trans (hinner c') hconcat

end Layout

namespace Shape

/--
The gindex that the shapes give a path is where the value at its end stands. The branch of that
gindex takes the root of any value put there to the root of the value that comes of it.
-/
theorem prove_at_path {shape target : Shape} {v c : Value} {h₀ : HashFunction} {root₀ : Root}
    (hroot : shape.hashTreeRoot h₀ v = .ok root₀) {path : List Nat}
    (hshape : shape.at? path = some target) (hvalue : v.at? path = some c) {g : Gindex}
    (hgindex : shape.gindexAt? path = some g) (h : HashFunction) :
    ∃ branch node, shape.prove h v g = .ok branch ∧ shape.nodeRoot h v g = .ok node ∧
      target.hashTreeRoot h c = .ok node ∧
      ∀ c' node', target.hashTreeRoot h c' = .ok node' →
        ∃ root', Merkle.rootFrom h branch g node' = .ok root' ∧
          shape.hashTreeRoot h (v.setAt path c') = .ok root' := by
  obtain ⟨root, hroot⟩ := Layout.exists_root h (Layout.of shape v) hroot
  obtain ⟨outer, hplaced⟩ := Layout.placed_path hroot hshape hvalue hgindex
  have hconcat := Gindex.concat_root g
  have hbranch : (Layout.of shape v).branch h g = .ok outer := by
    rw [(hplaced c).branch_eq hconcat, Layout.branch_root]
    rfl
  have hnode : (Layout.of shape v).node h g = ((Layout.of target c).root h).mapError .fit := by
    rw [(hplaced c).node_eq hconcat, Layout.node_root]
  -- Where there is a branch there is a node, so the value at the end of the path has a root.
  have hopens := opens hroot g
  rw [hbranch, hnode] at hopens
  generalize htarget : (Layout.of target c).root h = leaf? at hopens hnode
  cases leaf? with
  | error e => cases hopens
  | ok leaf =>
    refine ⟨outer, leaf, ?_, ?_, htarget, ?_⟩
    · rw [prove, hbranch]
      rfl
    · rw [nodeRoot, hnode]
      rfl
    · intro c' node' hnode'
      refine ⟨_, ?_, (hplaced c').root_eq hnode'⟩
      rw [Merkle.rootFrom, if_pos (hplaced c').length_outer]

theorem prove_at_path_registry :
    (∃ root, registry.hashTreeRoot .sha256 registryValue = .ok root) ∧
      registry.at? [1, 1, 0] = some (byteList 4) ∧
      registryValue.at? [1, 1, 0] = some (.bytes [3]) ∧
      registry.gindexAt? [1, 1, 0] = some tagGindex ∧
      ∃ branch node, registry.prove .sha256 registryValue tagGindex = .ok branch ∧
        registry.nodeRoot .sha256 registryValue tagGindex = .ok node ∧
        (byteList 4).hashTreeRoot .sha256 (.bytes [3]) = .ok node ∧
        ∀ c' node', (byteList 4).hashTreeRoot .sha256 c' = .ok node' →
          ∃ root', Merkle.rootFrom .sha256 branch tagGindex node' = .ok root' ∧
            registry.hashTreeRoot .sha256 (registryValue.setAt [1, 1, 0] c') = .ok root' := by
  have hroot : registry.hashTreeRoot .sha256 registryValue = .ok _ := rfl
  have hshape : registry.at? [1, 1, 0] = some (byteList 4) := by decide
  have hvalue : registryValue.at? [1, 1, 0] = some (.bytes [3]) := by decide
  have hgindex : registry.gindexAt? [1, 1, 0] = some tagGindex := by decide
  exact ⟨⟨_, hroot⟩, hshape, hvalue, hgindex, prove_at_path hroot hshape hvalue hgindex .sha256⟩

end Shape

end SimpleSerialize
