import SimpleSerialize.Proofs.Merkle.Gindex

/-!
The way from the root of a tree to a node, turn by turn. The way of a gindex determines it, and ways
are appended where gindices are joined. A way may take more turns than a gindex has room for, so
the places of nested trees can be named without regard to the levels that gindices reach.
-/

namespace SimpleSerialize

namespace Merkle

/-- The turns to the `i`-th node of a level, those to the right as `true`. -/
def turns : (depth : Nat) → (i : Nat) → List Bool
  | 0, _ => []
  | depth + 1, i => turns depth (i / 2) ++ [decide (i % 2 = 1)]

@[simp] theorem length_turns (depth i : Nat) : (turns depth i).length = depth := by
  induction depth generalizing i with
  | zero => rfl
  | succ depth ih => rw [turns, List.length_append, ih, List.length_singleton]

theorem turns_append (outer inner i : Nat) {j : Nat} (hlt : j < 2 ^ inner) :
    turns (outer + inner) (i * 2 ^ inner + j) = turns outer i ++ turns inner j := by
  induction inner generalizing j with
  | zero =>
    obtain rfl : j = 0 := Nat.lt_one_iff.mp hlt
    rw [Nat.pow_zero, Nat.mul_one, Nat.add_zero, Nat.add_zero, turns, List.append_nil]
  | succ inner ih =>
    rw [Nat.pow_succ] at hlt ⊢
    have hhalf : (i * (2 ^ inner * 2) + j) / 2 = i * 2 ^ inner + j / 2 := by
      rw [← Nat.mul_assoc]
      omega
    have hbit : (i * (2 ^ inner * 2) + j) % 2 = j % 2 := by
      rw [← Nat.mul_assoc]
      omega
    rw [← Nat.add_assoc, turns, hhalf, hbit, ih (by omega), turns, List.append_assoc]

/-- The first turns lead to the node above. -/
theorem take_turns {depth levels : Nat} (hle : levels ≤ depth) (i : Nat) :
    (turns depth i).take levels = turns levels (i / 2 ^ (depth - levels)) := by
  obtain ⟨rest, rfl⟩ := Nat.exists_eq_add_of_le hle
  rw [Nat.add_sub_cancel_left]
  have hmod := Nat.mod_lt i (Nat.two_pow_pos rest)
  calc (turns (levels + rest) i).take levels
      = (turns (levels + rest) (i / 2 ^ rest * 2 ^ rest + i % 2 ^ rest)).take levels := by
        rw [Nat.div_add_mod']
    _ = (turns levels (i / 2 ^ rest) ++ turns rest (i % 2 ^ rest)).take levels := by
        rw [turns_append _ _ _ hmod]
    _ = turns levels (i / 2 ^ rest) := List.take_left' (length_turns _ _)

theorem turns_injective {depth i j : Nat} (hi : i < 2 ^ depth) (hj : j < 2 ^ depth)
    (hsame : turns depth i = turns depth j) : i = j := by
  induction depth generalizing i j with
  | zero =>
    rw [Nat.pow_zero] at hi hj
    omega
  | succ depth ih =>
    rw [Nat.pow_succ] at hi hj
    obtain ⟨hfront, hlast⟩ := List.append_inj' hsame rfl
    have hhalf := ih (by omega) (by omega) hfront
    have hbit : i % 2 = 1 ↔ j % 2 = 1 := by simpa using hlast
    omega

/-- The way to the data of a tree: to the left, if a count stands on the right. -/
def dataTurns (counted : Bool) : List Bool := if counted then [false] else []

end Merkle

namespace Gindex

open Merkle

variable {g : Gindex}

def way (g : Gindex) : List Bool := turns g.depth g.position

@[simp] theorem length_way (g : Gindex) : g.way.length = g.depth := length_turns _ _

@[simp] theorem way_root : Gindex.root.way = [] := by decide

theorem way_injective {g' : Gindex} (hsame : g.way = g'.way) : g = g' := by
  have hdepth : g.depth = g'.depth := by rw [← length_way, hsame, length_way]
  refine eq_of_depth_of_position hdepth (turns_injective g.position_lt ?_ ?_)
  · rw [hdepth]
    exact g'.position_lt
  · rw [way, way, ← hdepth] at hsame
    exact hsame

theorem way_eq_nil_iff : g.way = [] ↔ g = .root := by
  rw [← way_root]
  exact ⟨way_injective, congrArg way⟩

theorem way_of_concat {outer inner : Gindex} (hconcat : outer.concat inner = .ok g) :
    g.way = outer.way ++ inner.way := by
  rw [way, depth_of_concat hconcat, position_of_concat hconcat]
  exact turns_append _ _ _ inner.position_lt

theorem child_eq_ok_iff {turn : Bool} {below : Gindex} :
    g.child turn = .ok below ↔ g.depth < maxDepth ∧ below.toNat = 2 * g.toNat + turn.toNat := by
  unfold child
  by_cases hdepth : g.depth < maxDepth
  · rw [dif_pos hdepth, Except.ok.injEq, Gindex.ext_iff, eq_comm]
    exact (and_iff_right hdepth).symm
  · simp [hdepth]

theorem exists_child (hdepth : g.depth < maxDepth) (turn : Bool) :
    ∃ below, g.child turn = .ok below := by
  unfold child
  rw [dif_pos hdepth]
  exact ⟨_, rfl⟩

/-- The node a single turn below the root. -/
def oneTurn (turn : Bool) : Gindex where
  toNat := 2 + turn.toNat
  pos := Nat.lt_add_right _ Nat.two_pos
  lt := by cases turn <;> decide

@[simp] theorem depth_oneTurn (turn : Bool) : (oneTurn turn).depth = 1 := by
  cases turn <;> decide

@[simp] theorem position_oneTurn (turn : Bool) : (oneTurn turn).position = turn.toNat := by
  cases turn <;> decide

@[simp] theorem way_oneTurn (turn : Bool) : (oneTurn turn).way = [turn] := by
  cases turn <;> decide

theorem child_eq_concat (g : Gindex) (turn : Bool) : g.child turn = g.concat (oneTurn turn) := by
  by_cases hdepth : g.depth < maxDepth
  · obtain ⟨below, hchild⟩ := exists_child hdepth turn
    have hbelow := (child_eq_ok_iff.mp hchild).2
    rw [hchild, eq_comm, concat_eq_ok_iff, depth_oneTurn, position_oneTurn, hbelow, Nat.pow_one,
      Nat.mul_comm]
    exact ⟨hdepth, rfl⟩
  · have hdeep : maxDepth < g.depth + (oneTurn turn).depth := by
      rw [depth_oneTurn]
      omega
    rw [child, dif_neg hdepth, concat_of_deep hdeep, depth_oneTurn]

/-- A child is one turn further on. -/
theorem way_of_child {turn : Bool} {below : Gindex} (hchild : g.child turn = .ok below) :
    below.way = g.way ++ [turn] := by
  rw [child_eq_concat] at hchild
  rw [way_of_concat hchild, way_oneTurn]

theorem toNat_eq_one_iff : g.toNat = 1 ↔ g = .root :=
  ⟨fun hone => Gindex.ext hone, congrArg Gindex.toNat⟩

theorem parent?_eq_some_iff {top : Gindex} :
    g.parent? = some top ↔ g ≠ .root ∧ top.toNat = g.toNat / 2 := by
  unfold parent?
  by_cases hroot : g.toNat = 1
  · rw [dif_pos hroot]
    simp [toNat_eq_one_iff.mp hroot]
  · rw [dif_neg hroot, Option.some.injEq, Gindex.ext_iff, eq_comm]
    exact (and_iff_right (mt toNat_eq_one_iff.mpr hroot)).symm

theorem sibling?_eq_some_iff {beside : Gindex} :
    g.sibling? = some beside ↔ g ≠ .root ∧
      beside.toNat = if g.toNat % 2 = 0 then g.toNat + 1 else g.toNat - 1 := by
  unfold sibling?
  by_cases hroot : g.toNat = 1
  · rw [dif_pos hroot]
    simp [toNat_eq_one_iff.mp hroot]
  · rw [dif_neg hroot, Option.some.injEq, Gindex.ext_iff, eq_comm]
    exact (and_iff_right (mt toNat_eq_one_iff.mpr hroot)).symm

/-- Every node but the root has a parent. -/
theorem exists_parent? (hroot : g ≠ .root) : ∃ top, g.parent? = some top :=
  ⟨_, dif_neg (mt toNat_eq_one_iff.mp hroot)⟩

theorem exists_sibling? (hroot : g ≠ .root) : ∃ beside, g.sibling? = some beside :=
  ⟨_, dif_neg (mt toNat_eq_one_iff.mp hroot)⟩

theorem child_of_parent? {top : Gindex} (hparent : g.parent? = some top) :
    top.child (decide (g.toNat % 2 = 1)) = .ok g := by
  obtain ⟨-, htop⟩ := parent?_eq_some_iff.mp hparent
  have hpos := top.pos
  have hlt := g.lt
  rw [child_eq_ok_iff]
  refine ⟨(Nat.log2_lt (Nat.ne_of_gt hpos)).mpr ?_, ?_⟩
  · rw [Nat.pow_succ] at hlt
    omega
  · rcases Nat.mod_two_eq_zero_or_one g.toNat with hbit | hbit
    · rw [hbit]
      simp only [Nat.zero_ne_one, decide_false, Bool.toNat_false]
      omega
    · rw [hbit]
      simp only [decide_true, Bool.toNat_true]
      omega

/-- The sibling of a node is the other child of its parent. -/
theorem child_of_sibling? {beside : Gindex} (hsibling : g.sibling? = some beside) :
    ∃ (top : Gindex) (turn : Bool), top.child turn = .ok g ∧ top.child (!turn) = .ok beside := by
  obtain ⟨hroot, hbeside⟩ := sibling?_eq_some_iff.mp hsibling
  obtain ⟨top, hparent⟩ := exists_parent? hroot
  have hchild := child_of_parent? hparent
  refine ⟨top, _, hchild, ?_⟩
  obtain ⟨hdepth, htoNat⟩ := child_eq_ok_iff.mp hchild
  refine child_eq_ok_iff.mpr ⟨hdepth, ?_⟩
  rw [hbeside]
  rcases Nat.mod_two_eq_zero_or_one g.toNat with hbit | hbit
  · simp only [hbit, Nat.zero_ne_one, decide_false, Bool.toNat_false, Bool.not_false,
      Bool.toNat_true, if_true] at htoNat ⊢
    omega
  · simp only [hbit, Nat.one_ne_zero, decide_true, Bool.toNat_true, Bool.not_true,
      Bool.toNat_false, if_false] at htoNat ⊢
    omega

theorem depth_of_way_append {front rest : List Bool} (hway : g.way = front ++ rest) :
    g.depth = front.length + rest.length := by
  rw [← length_way, hway, List.length_append]

theorem ne_root_of_way {way : List Bool} (hway : g.way = way) (hne : way ≠ []) : g ≠ .root := by
  rwa [ne_eq, ← way_eq_nil_iff, hway]

/-- A way can be taken apart anywhere. -/
theorem exists_of_way_eq_append {front rest : List Bool} (hway : g.way = front ++ rest) :
    ∃ top below : Gindex, top.concat below = .ok g ∧ top.way = front ∧ below.way = rest := by
  have hdepth := depth_of_way_append hway
  have hlevels : front.length ≤ g.depth := by omega
  have hconcat := concat_splitAt hlevels
  have hparts := (way_of_concat hconcat).symm.trans hway
  have hlength : (g.splitAt front.length).1.way.length = front.length := by
    rw [length_way, depth_splitAt_fst hlevels]
  exact ⟨_, _, hconcat, List.append_inj hparts hlength⟩

theorem exists_concat_of_way {top : Gindex} {rest : List Bool} (hway : g.way = top.way ++ rest) :
    ∃ below : Gindex, top.concat below = .ok g ∧ below.way = rest := by
  obtain ⟨top', below, hconcat, htop, hbelow⟩ := exists_of_way_eq_append hway
  obtain rfl := way_injective htop
  exact ⟨below, hconcat, hbelow⟩

/-- A turn on a joined way is taken behind the joint or before it. -/
theorem turn_of_concat {top below : Gindex} (hconcat : top.concat below = .ok g)
    {front rest : List Bool} {turn : Bool} (hway : g.way = front ++ turn :: rest) :
    (∃ onward, front = top.way ++ onward ∧ below.way = onward ++ turn :: rest) ∨
      ∃ onward, top.way = front ++ turn :: onward ∧ rest = onward ++ below.way := by
  have hjoined := (way_of_concat hconcat).symm.trans hway
  rcases List.append_eq_append_iff.mp hjoined with hbehind | ⟨onward, htop, hrest⟩
  · exact .inl hbehind
  · cases onward with
    | nil =>
      rw [List.append_nil] at htop
      exact .inl ⟨[], by rw [htop, List.append_nil], hrest.symm⟩
    | cons turn' onward =>
      obtain ⟨rfl, hbehind⟩ := List.cons.inj hrest
      exact .inr ⟨onward, htop, hbehind⟩

/-- One turn further on, the place is doubled, and next to that to the right. -/
theorem position_of_turn {below : Gindex} {turn : Bool} (hway : below.way = g.way ++ [turn]) :
    below.position = 2 * g.position + turn.toNat := by
  have hdepth := depth_of_way_append hway
  rw [length_way, List.length_singleton] at hdepth
  have hlt := below.position_lt
  rw [hdepth, Nat.pow_succ] at hlt
  rw [way, hdepth, turns] at hway
  obtain ⟨hfront, hlast⟩ := List.append_inj' hway rfl
  have hhalf : below.position / 2 = g.position :=
    turns_injective (by omega) g.position_lt hfront
  have hbit := (List.cons.inj hlast).1
  cases turn with
  | false =>
    rw [decide_eq_false_iff_not] at hbit
    rw [Bool.toNat_false]
    omega
  | true =>
    rw [decide_eq_true_eq] at hbit
    rw [Bool.toNat_true]
    omega

theorem exists_of_way_eq_cons {turn : Bool} {rest : List Bool} (hway : g.way = turn :: rest) :
    ∃ top below : Gindex, top.concat below = .ok g ∧ top.toNat = 2 + turn.toNat ∧
      below.way = rest := by
  have hsplit : g.way = [turn] ++ rest := hway
  obtain ⟨top, below, hconcat, htop, hbelow⟩ := exists_of_way_eq_append hsplit
  refine ⟨top, below, hconcat, ?_, hbelow⟩
  have hdepth : top.depth = 1 := by rw [← length_way, htop, List.length_singleton]
  have hposition : top.position = 2 * Gindex.root.position + turn.toNat :=
    position_of_turn (by rw [htop, way_root, List.nil_append])
  rw [top.toNat_eq, hdepth, hposition, position_root, Nat.pow_one, Nat.mul_zero, Nat.zero_add]

/-- The sibling of every node on the way up stands at the other side of a turn. -/
theorem exists_sibling_above {k : Nat} (hk : k < g.depth) :
    ∃ (top s : Gindex) (front rest : List Bool) (turn : Bool), top.toNat = g.toNat / 2 ^ k ∧
      top.sibling? = some s ∧ g.way = front ++ turn :: rest ∧ s.way = front ++ [!turn] ∧
      rest.length = k := by
  have hle : g.depth - k ≤ g.depth := Nat.sub_le _ _
  have hback : g.depth - (g.depth - k) = k := by omega
  have hconcat := concat_splitAt hle
  have hbelow : (g.splitAt (g.depth - k)).2.depth = g.depth - (g.depth - k) := depth_splitAt_snd
  have htop := depth_splitAt_fst hle
  have htoNat := toNat_div_of_concat hconcat
  rw [hback] at hbelow
  rw [hbelow] at htoNat
  generalize g.splitAt (g.depth - k) = parts at hconcat hbelow htop htoNat
  obtain ⟨top, below⟩ := parts
  have hroot : top ≠ .root := by
    rw [ne_eq, eq_root_iff, htop]
    omega
  obtain ⟨s, hsibling⟩ := exists_sibling? hroot
  obtain ⟨parent, turn, hchild, hbeside⟩ := child_of_sibling? hsibling
  refine ⟨top, s, parent.way, below.way, turn, htoNat.symm, hsibling, ?_, way_of_child hbeside, ?_⟩
  · rw [way_of_concat hconcat, way_of_child hchild, List.append_assoc, List.singleton_append]
  · rw [length_way, hbelow]

/-- The position of a node whose way leads on to a leaf. -/
theorem position_of_way_prefix {depth i : Nat} (hi : i < 2 ^ depth)
    (hleads : g.way <+: turns depth i) :
    g.depth ≤ depth ∧ g.position = i / 2 ^ (depth - g.depth) := by
  have hle : g.depth ≤ depth := by
    have hlength := hleads.length_le
    rwa [length_way, length_turns] at hlength
  refine ⟨hle, turns_injective g.position_lt ?_ ?_⟩
  · rw [Nat.div_lt_iff_lt_mul (Nat.two_pow_pos _), ← Nat.pow_add]
    rwa [Nat.add_sub_cancel' hle]
  · have htake := List.prefix_iff_eq_take.mp hleads
    rwa [length_way, take_turns hle] at htake

theorem way_prefix_of_position {depth i : Nat} (hle : g.depth ≤ depth)
    (hposition : g.position = i / 2 ^ (depth - g.depth)) : g.way <+: turns depth i := by
  rw [List.prefix_iff_eq_take, length_way, take_turns hle, ← hposition]
  rfl

end Gindex

end SimpleSerialize
