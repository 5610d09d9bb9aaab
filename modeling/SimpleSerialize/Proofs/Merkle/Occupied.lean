import SimpleSerialize.Proofs.Merkle.Walk

/-!
The nodes of a value that can be proved. They are told by what the value holds: its leaves, its
count, and those of its parts, with everything on the way to them (`Shape.Occupied`). The walk
compares the first slot below a node with the number of leaves instead, level by level.
-/

namespace SimpleSerialize

open Merkle (turns dataTurns)

namespace Merkle

variable {h : HashFunction} {leaves : List Root} {depth : Nat} {g : Gindex}
  {findBranch : Nat → Gindex → Except ProofError (List Root)}

/-- The first slot below a node comes before the end of the leaves if any slot below it does. -/
theorem exists_leaf_below_iff (hfits : leaves.length ≤ 2 ^ depth) (hle : g.depth ≤ depth) :
    (∃ i < leaves.length, g.way <+: turns depth i) ↔
      g.position * 2 ^ (depth - g.depth) < leaves.length := by
  constructor
  · rintro ⟨i, hi, hleads⟩
    obtain ⟨-, hposition⟩ := Gindex.position_of_way_prefix (Nat.lt_of_lt_of_le hi hfits) hleads
    calc g.position * 2 ^ (depth - g.depth)
        = i / 2 ^ (depth - g.depth) * 2 ^ (depth - g.depth) := by rw [hposition]
      _ ≤ i := Nat.div_mul_le_self _ _
      _ < leaves.length := hi
  · intro hlt
    refine ⟨_, hlt, Gindex.way_prefix_of_position hle ?_⟩
    rw [Nat.mul_div_cancel _ (Nat.two_pow_pos _)]

theorem slot_eq_of_way {slot below below' : Gindex} {i : Nat} (hconcat : slot.concat below = .ok g)
    (hslot : slot.depth = depth) (hi : i < 2 ^ depth) (hway : g.way = turns depth i ++ below'.way) :
    slot.position = i ∧ below = below' := by
  have hsplit := (Gindex.way_of_concat hconcat).symm.trans hway
  obtain ⟨hturns, hbelow⟩ := List.append_inj hsplit (by simp [hslot])
  have hlt := slot.position_lt
  rw [hslot] at hlt
  rw [Gindex.way, hslot] at hturns
  exact ⟨turns_injective hlt hi hturns, Gindex.way_injective hbelow⟩

/-- The walk through a tree reaches what lies on the way to a leaf, and goes on from the leaves. -/
theorem exists_branchInTree_iff (hfits : leaves.length ≤ 2 ^ depth) :
    (∃ branch, branchInTree h leaves depth g findBranch = .ok branch) ↔
      g = .root ∨ (∃ i < leaves.length, g.way <+: turns depth i) ∨
      ∃ i < leaves.length, ∃ below : Gindex, below ≠ .root ∧ g.way = turns depth i ++ below.way ∧
        ∃ branch, findBranch i below = .ok branch := by
  by_cases hroot : g = .root
  · refine iff_of_true ⟨[], ?_⟩ (.inl hroot)
    rw [branchInTree, if_pos hroot]
  rw [or_iff_right hroot]
  rcases within_or_below g depth with hle | ⟨slot, below, hconcat, hslot, hbelow⟩
  · have hnone : ¬∃ i < leaves.length, ∃ below : Gindex, below ≠ .root ∧
        g.way = turns depth i ++ below.way ∧ ∃ branch, findBranch i below = .ok branch := by
      rintro ⟨i, -, below, hbelow, hway, -⟩
      have hlength := congrArg List.length hway
      rw [List.length_append, Gindex.length_way, Gindex.length_way, length_turns] at hlength
      exact hbelow (Gindex.eq_root_iff.mpr (by omega))
    rw [or_iff_left hnone, exists_leaf_below_iff hfits hle, branchInTree_within hle hroot]
    by_cases hpast : leaves.length ≤ g.position * 2 ^ (depth - g.depth)
    · simp [hpast]
    · simpa [hpast] using Nat.lt_of_not_le hpast
  · have hnone : ¬∃ i < leaves.length, g.way <+: turns depth i := by
      rintro ⟨i, -, hleads⟩
      have hlength := hleads.length_le
      rw [Gindex.length_way, length_turns, Gindex.depth_of_concat hconcat, hslot] at hlength
      exact hbelow (Gindex.eq_root_iff.mpr (by omega))
    rw [or_iff_right hnone]
    simp only [branchInTree_below_eq_ok_iff hconcat hslot hbelow]
    constructor
    · rintro ⟨-, hlt, inner, hinner, -⟩
      refine ⟨slot.position, hlt, below, hbelow, ?_, inner, hinner⟩
      rw [Gindex.way_of_concat hconcat, Gindex.way, hslot]
    · rintro ⟨i, hi, below', -, hway, inner, hinner⟩
      obtain ⟨rfl, rfl⟩ := slot_eq_of_way hconcat hslot (Nat.lt_of_lt_of_le hi hfits) hway
      exact ⟨_, hi, inner, hinner, rfl⟩

end Merkle

namespace Layout

variable {h : HashFunction} {shape : Shape} {v : Value} {leaves : List Root} {count? : Option Nat}
  {findBranch : Nat → Gindex → Except ProofError (List Root)}
  {findNode : Nat → Gindex → Except ProofError Root} {g : Gindex}

/-- With a count, the walk reaches the count and what it reaches to the left of it. -/
theorem Walks.exists_branch_iff (hwalks : Walks h shape v leaves count? findBranch findNode)
    (hroot : g ≠ .root) :
    (∃ branch, (of shape v).branch h g = .ok branch) ↔
      (shape.mixesInCount = true ∧ g.way = [true]) ∨
      ∃ rest : Gindex, g.way = dataTurns shape.mixesInCount ++ rest.way ∧
        ∃ branch, Merkle.branchInTree h leaves (coverDepth shape.chunkLimit) rest findBranch
          = .ok branch := by
  rw [← hwalks.counted]
  cases count? with
  | none =>
    have hsame (rest : Gindex) : g.way = dataTurns false ++ rest.way ↔ rest = g :=
      ⟨fun hway => (Gindex.way_injective hway).symm, fun hrest => congrArg Gindex.way hrest.symm⟩
    rw [hwalks.branch_eq_inTree]
    simp only [Option.isSome_none, Bool.false_eq_true, false_and, false_or, hsame, exists_eq_left]
  | some count =>
    obtain ⟨turn, rest, hway⟩ := List.exists_cons_of_ne_nil (mt Gindex.way_eq_nil_iff.mp hroot)
    cases turn with
    | false =>
      obtain ⟨below, rfl, hbranch, -⟩ := hwalks.left_of_count hway
      have hsame (rest : Gindex) : g.way = dataTurns true ++ rest.way ↔ rest = below := by
        rw [hway]
        refine ⟨fun hrest => (Gindex.way_injective (List.cons.inj hrest).2).symm, ?_⟩
        rintro rfl
        rfl
      have hcount : g.way ≠ [true] := by
        rw [hway]
        simp
      rw [hbranch, exists_bind_ok_eq_ok_iff]
      simp only [Option.isSome_some, hsame, exists_eq_left, hcount, and_false, false_or]
    | true =>
      rw [(hwalks.right_of_data hway).1, hway]
      by_cases hrest : rest = []
      · simp [hrest]
      · simp [hrest, dataTurns]

end Layout

namespace Shape

/--
The ways to what a value holds: to its root, in a list to the data and to the count, to every leaf
that is filled, and through the leaf of a part to what the part holds.
-/
inductive Site : Shape → Value → List Bool → Prop
  | root (shape : Shape) (v : Value) : Site shape v []
  | data {shape : Shape} (counted : shape.mixesInCount = true) (v : Value) : Site shape v [false]
  | count {shape : Shape} (counted : shape.mixesInCount = true) (v : Value) : Site shape v [true]
  | leaf {shape : Shape} {v : Value} {i : Nat} (lt : i < shape.leavesOf v) :
    Site shape v (shape.leafWay i)
  | part {shape part : Shape} {v w : Value} {i : Nat} {below : List Bool}
    (part_eq : shape.partOf? v i = some (part, w)) (below_site : Site part w below) :
    Site shape v (shape.leafWay i ++ below)

/-- A way that ends at a site or leads on to one. -/
def Occupied (shape : Shape) (v : Value) (way : List Bool) : Prop :=
  ∃ site, shape.Site v site ∧ way <+: site

variable {h : HashFunction} {shape : Shape} {v : Value} {root : Root} {g : Gindex}

theorem occupied_nil (shape : Shape) (v : Value) : shape.Occupied v [] :=
  ⟨[], .root shape v, List.nil_prefix⟩

theorem Occupied.of_leads {way way' : List Bool} (hoccupied : shape.Occupied v way)
    (hleads : way' <+: way) : shape.Occupied v way' := by
  obtain ⟨site, hsite, hon⟩ := hoccupied
  exact ⟨site, hsite, hleads.trans hon⟩

/-- What is occupied in the tree of the leaves, and below them. -/
def DataOccupied (shape : Shape) (v : Value) (rest : List Bool) : Prop :=
  rest = [] ∨ (∃ i < shape.leavesOf v, rest <+: turns (coverDepth shape.chunkLimit) i) ∨
    ∃ i part w below, shape.partOf? v i = some (part, w) ∧ below ≠ [] ∧
      rest = turns (coverDepth shape.chunkLimit) i ++ below ∧ part.Occupied w below

theorem exists_rest_of_leads {counted : Bool} {way rest : List Bool} (hway : way ≠ [])
    (hleads : way <+: dataTurns counted ++ rest) :
    ∃ front, way = dataTurns counted ++ front ∧ front <+: rest := by
  cases counted with
  | false => exact ⟨way, rfl, hleads⟩
  | true =>
    obtain ⟨turn, front, rfl⟩ := List.exists_cons_of_ne_nil hway
    obtain ⟨rfl, hfront⟩ := List.cons_prefix_cons.mp hleads
    exact ⟨front, rfl, hfront⟩

/-- Other than its root, a value occupies its count and what is occupied in its data. -/
theorem occupied_iff
    (hparts : ∀ i part w, shape.partOf? v i = some (part, w) → i < shape.leavesOf v)
    {way : List Bool} (hway : way ≠ []) :
    shape.Occupied v way ↔ (shape.mixesInCount = true ∧ way = [true]) ∨
      ∃ rest, way = dataTurns shape.mixesInCount ++ rest ∧ shape.DataOccupied v rest := by
  constructor
  · rintro ⟨site, hsite, hleads⟩
    cases hsite with
    | root => exact absurd (List.prefix_nil.mp hleads) hway
    | data hcounted =>
      obtain ⟨turn, rest, rfl⟩ := List.exists_cons_of_ne_nil hway
      obtain ⟨rfl, hrest⟩ := List.cons_prefix_cons.mp hleads
      rw [hcounted, List.prefix_nil.mp hrest]
      exact .inr ⟨[], rfl, .inl rfl⟩
    | count hcounted =>
      obtain ⟨turn, rest, rfl⟩ := List.exists_cons_of_ne_nil hway
      obtain ⟨rfl, hrest⟩ := List.cons_prefix_cons.mp hleads
      rw [List.prefix_nil.mp hrest]
      exact .inl ⟨hcounted, rfl⟩
    | leaf hlt =>
      obtain ⟨rest, rfl, hrest⟩ := exists_rest_of_leads hway hleads
      exact .inr ⟨rest, rfl, .inr (.inl ⟨_, hlt, hrest⟩)⟩
    | @part _ part _ w i site hpart hsite =>
      rw [leafWay, List.append_assoc] at hleads
      obtain ⟨rest, rfl, hrest⟩ := exists_rest_of_leads hway hleads
      refine .inr ⟨rest, rfl, .inr ?_⟩
      rcases List.prefix_or_prefix_of_prefix hrest (List.prefix_append _ site) with hon | hpast
      · exact .inl ⟨i, hparts i part w hpart, hon⟩
      · obtain ⟨below, rfl⟩ := hpast
        by_cases hbelow : below = []
        · rw [hbelow, List.append_nil]
          exact .inl ⟨i, hparts i part w hpart, List.prefix_rfl⟩
        · refine .inr ⟨i, part, w, below, hpart, hbelow, rfl, site, hsite, ?_⟩
          exact (List.prefix_append_right_inj _).mp hrest
  · rintro (⟨hcounted, rfl⟩ | ⟨rest, rfl, rfl | ⟨i, hi, hrest⟩ |
      ⟨i, part, w, below, hpart, -, rfl, hbelow⟩⟩)
    · exact ⟨[true], .count hcounted v, List.prefix_rfl⟩
    · cases hcounted : shape.mixesInCount with
      | false =>
        rw [hcounted] at hway
        exact absurd rfl hway
      | true => exact ⟨[false], .data hcounted v, List.prefix_rfl⟩
    · exact ⟨_, .leaf hi, (List.prefix_append_right_inj _).mpr hrest⟩
    · obtain ⟨site, hsite, hleads⟩ := hbelow
      refine ⟨_, .part hpart hsite, ?_⟩
      rw [leafWay, List.append_assoc, List.prefix_append_right_inj, List.prefix_append_right_inj]
      exact hleads

section Walks

variable {leaves : List Root} {count? : Option Nat}
  {findBranch : Nat → Gindex → Except ProofError (List Root)}
  {findNode : Nat → Gindex → Except ProofError Root}
  (hwalks : Layout.Walks h shape v leaves count? findBranch findNode)

include hwalks

/-- If below the leaves the walk finds what is occupied there, so it does from above them. -/
theorem exists_branchInTree_iff_dataOccupied
    (hfind : ∀ i below, (∃ branch, findBranch i below = .ok branch) ↔
      ∃ part w, shape.partOf? v i = some (part, w) ∧ part.Occupied w below.way) (rest : Gindex) :
    (∃ branch, Merkle.branchInTree h leaves (coverDepth shape.chunkLimit) rest findBranch
      = .ok branch) ↔ shape.DataOccupied v rest.way := by
  rw [Merkle.exists_branchInTree_iff hwalks.length_le_slots, DataOccupied,
    Gindex.way_eq_nil_iff, hwalks.length_eq]
  refine or_congr_right (or_congr_right ?_)
  constructor
  · rintro ⟨i, -, below, hbelow, hway, hbranch⟩
    obtain ⟨part, w, hpart, hoccupied⟩ := (hfind i below).mp hbranch
    exact ⟨i, part, w, below.way, hpart, mt Gindex.way_eq_nil_iff.mp hbelow, hway, hoccupied⟩
  · rintro ⟨i, part, w, way, hpart, hne, hway, hoccupied⟩
    obtain ⟨-, below, -, -, rfl⟩ := Gindex.exists_of_way_eq_append hway
    exact ⟨i, hwalks.lt_leavesOf hpart, below, mt Gindex.way_eq_nil_iff.mpr hne, hway,
      (hfind i below).mpr ⟨part, w, hpart, hoccupied⟩⟩

end Walks

/-- There is a branch for what a value occupies, and for nothing else. -/
theorem exists_branch_iff_occupied (hroot : (Layout.of shape v).root h = .ok root) (g : Gindex) :
    (∃ branch, (Layout.of shape v).branch h g = .ok branch) ↔ shape.Occupied v g.way := by
  induction shape using Shape.induction_on_parts generalizing v root g with
  | step shape ih =>
    by_cases hg : g = .root
    · subst hg
      rw [Gindex.way_root]
      exact iff_of_true ⟨[], Layout.branch_root _⟩ (occupied_nil shape v)
    obtain ⟨leaves, count?, findBranch, findNode, hwalks⟩ := Layout.exists_walks hroot
    have hfind (i : Nat) (below : Gindex) : (∃ branch, findBranch i below = .ok branch) ↔
        ∃ part w, shape.partOf? v i = some (part, w) ∧ part.Occupied w below.way := by
      cases hpart : shape.partOf? v i with
      | none =>
        rw [(hwalks.find_none hpart below).1]
        simp
      | some entry =>
        obtain ⟨part, w⟩ := entry
        obtain ⟨leaf, -, hleaf⟩ := hwalks.part hpart
        rw [(hwalks.find_part hpart below).1, ih part (mem_parts_of_partOf? hpart) hleaf below]
        constructor
        · intro hoccupied
          exact ⟨part, w, rfl, hoccupied⟩
        · rintro ⟨_, _, ⟨⟩, hoccupied⟩
          exact hoccupied
    rw [hwalks.exists_branch_iff hg, occupied_iff (fun i part w => hwalks.lt_leavesOf)
      (mt Gindex.way_eq_nil_iff.mp hg)]
    refine or_congr_right ?_
    simp only [exists_branchInTree_iff_dataOccupied hwalks hfind]
    constructor
    · rintro ⟨rest, hway, hoccupied⟩
      exact ⟨rest.way, hway, hoccupied⟩
    · rintro ⟨rest, hway, hoccupied⟩
      obtain ⟨-, below, -, -, rfl⟩ := Gindex.exists_of_way_eq_append hway
      exact ⟨below, hway, hoccupied⟩

/--
For a value with a root there is a branch of exactly the nodes that the value occupies. Every other
node is unreachable, and above a node that can be proved there are only such nodes.
-/
theorem provable_iff_occupied (hroot : shape.hashTreeRoot h v = .ok root) :
    (∀ g, (∃ branch, shape.prove h v g = .ok branch) ↔ shape.Occupied v g.way) ∧
    (∀ g, ¬shape.Occupied v g.way → shape.prove h v g = .error (.unreachable g)) ∧
    ∀ g top, g.parent? = some top → (∃ branch, shape.prove h v g = .ok branch) →
      ∃ branch, shape.prove h v top = .ok branch := by
  have hprovable (g : Gindex) :
      (∃ branch, shape.prove h v g = .ok branch) ↔ shape.Occupied v g.way := by
    simp only [prove, mapError_eq_ok_iff]
    exact exists_branch_iff_occupied hroot g
  refine ⟨hprovable, ?_, ?_⟩
  · intro g hfree
    have hopens := opens hroot g
    have hnone := mt (hprovable g).mp hfree
    unfold prove at hnone ⊢
    generalize (Layout.of shape v).branch h g = branch? at hopens hnone ⊢
    generalize (Layout.of shape v).node h g = node? at hopens
    cases hopens with
    | found => exact absurd ⟨_, rfl⟩ hnone
    | unreachable => rfl
  · intro g top hparent hbranch
    have hway := Gindex.way_of_child (Gindex.child_of_parent? hparent)
    have habove : top.way <+: g.way := ⟨_, hway.symm⟩
    exact (hprovable top).mpr (((hprovable g).mp hbranch).of_leads habove)

/-- The third and the fourth record of a registry that has two. -/
def vacantGindex : Gindex := ⟨9, by decide, by decide⟩

theorem provable_iff_occupied_registry :
    (∃ root, registry.hashTreeRoot .sha256 registryValue = .ok root) ∧
      registry.Occupied registryValue tagGindex.way ∧
      ¬registry.Occupied registryValue vacantGindex.way ∧
      registry.prove .sha256 registryValue vacantGindex = .error (.unreachable vacantGindex) ∧
      ∃ top branch, tagGindex.parent? = some top ∧
        registry.prove .sha256 registryValue top = .ok branch := by
  have hroot : registry.hashTreeRoot .sha256 registryValue = .ok _ := rfl
  obtain ⟨hprovable, hfree, hclosed⟩ := provable_iff_occupied hroot
  have htag : ∃ branch, registry.prove .sha256 registryValue tagGindex = .ok branch := ⟨_, rfl⟩
  have hvacant : ¬registry.Occupied registryValue vacantGindex.way := by
    rw [← hprovable]
    rintro ⟨branch, hbranch⟩
    cases hbranch
  have hparent : tagGindex.parent? = some _ := rfl
  obtain ⟨branch, hbranch⟩ := hclosed _ _ hparent htag
  exact ⟨⟨_, hroot⟩, (hprovable _).mp htag, hvacant, hfree _ hvacant, _, branch, hparent, hbranch⟩

end Shape

end SimpleSerialize
