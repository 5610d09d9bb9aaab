import SimpleSerialize.Proofs.Merkle.Ranged
import SimpleSerialize.Proofs.Merkle.Way

/-!
Gindices under concatenation. There is a gindex for every way of at most 63 turns, and joining two
gindices appends their ways, so that what is known of appending lists is known of joining
(`Gindex.concat_joins_ways`). The steps between neighbours, to a child, the parent or the sibling,
add the last turn of a way, take it back or turn it round.
-/

namespace SimpleSerialize

namespace Merkle

/-- The turns to a place are its bits, the highest first. -/
theorem turns_eq_map_testBit (depth i : Nat) :
    turns depth i = (List.range depth).reverse.map i.testBit := by
  induction depth generalizing i with
  | zero => rfl
  | succ depth ih =>
    have hhalf : i.testBit ∘ Nat.succ = (i / 2).testBit := by
      funext k
      exact Nat.testBit_succ i k
    calc turns (depth + 1) i
        = (List.range depth).reverse.map (i / 2).testBit ++ [i.testBit 0] := by
          rw [turns, ih, Nat.testBit_zero]
      _ = (List.range (depth + 1)).reverse.map i.testBit := by
          rw [List.range_succ_eq_map, List.reverse_cons, List.map_append, ← List.map_reverse,
            List.map_map, hhalf, List.map_singleton]

end Merkle

namespace Gindex

open Merkle

variable {a b c g outer inner top below : Gindex} {turn : Bool}

/-- The leading bit of a gindex is no turn. -/
theorem way_eq_map_testBit (g : Gindex) :
    g.way = (List.range g.depth).reverse.map g.toNat.testBit := by
  calc g.way
      = (List.range g.depth).reverse.map g.position.testBit := turns_eq_map_testBit _ _
    _ = (List.range g.depth).reverse.map g.toNat.testBit := by
        apply List.map_congr_left
        intro k hk
        rw [List.mem_reverse, List.mem_range] at hk
        rw [g.toNat_eq, Nat.testBit_two_pow_add_gt hk]

theorem exists_of_length_le {turns : List Bool} (hlength : turns.length ≤ maxDepth) :
    ∃ g : Gindex, g.way = turns := by
  induction turns with
  | nil => exact ⟨.root, way_root⟩
  | cons turn rest ih =>
    rw [List.length_cons] at hlength
    obtain ⟨below, hbelow⟩ := ih (Nat.le_of_succ_le hlength)
    have hroom : (oneTurn turn).depth + below.depth ≤ maxDepth := by
      rw [depth_oneTurn, ← length_way, hbelow]
      omega
    obtain ⟨g, hconcat⟩ := exists_concat hroom
    refine ⟨g, ?_⟩
    rw [way_of_concat hconcat, way_oneTurn, hbelow, List.singleton_append]

theorem concat_eq_ok_iff_way : outer.concat inner = .ok g ↔ g.way = outer.way ++ inner.way := by
  constructor
  · exact way_of_concat
  · intro hway
    obtain ⟨below, hconcat, hbelow⟩ := exists_concat_of_way hway
    rwa [way_injective hbelow] at hconcat

theorem exists_concat_iff :
    (∃ g, outer.concat inner = .ok g) ↔ outer.depth + inner.depth ≤ maxDepth := by
  constructor
  · rintro ⟨g, hconcat⟩
    exact (concat_eq_ok_iff.mp hconcat).1
  · exact exists_concat

section Three

variable {abc : Gindex}

theorem concat_of_inner_eq_ok_iff :
    (do a.concat (← b.concat c)) = .ok abc ↔ abc.way = a.way ++ b.way ++ c.way := by
  rw [bind_eq_ok_iff, List.append_assoc]
  constructor
  · rintro ⟨bc, hbc, habc⟩
    rw [way_of_concat habc, way_of_concat hbc]
  · intro hway
    obtain ⟨bc, habc, hbc⟩ := exists_concat_of_way hway
    exact ⟨bc, concat_eq_ok_iff_way.mpr hbc, habc⟩

theorem concat_of_outer_eq_ok_iff :
    (do (← a.concat b).concat c) = .ok abc ↔ abc.way = a.way ++ b.way ++ c.way := by
  rw [bind_eq_ok_iff]
  constructor
  · rintro ⟨ab, hab, habc⟩
    rw [way_of_concat habc, way_of_concat hab]
  · intro hway
    obtain ⟨ab, c', habc, hab, hc⟩ := exists_of_way_eq_append hway
    rw [way_injective hc] at habc
    exact ⟨ab, concat_eq_ok_iff_way.mpr hab, habc⟩

/-- Three are joined, or refused, in either order alike. -/
theorem toOption_concat_assoc (a b c : Gindex) :
    Except.toOption (do a.concat (← b.concat c))
      = Except.toOption (do (← a.concat b).concat c) := by
  apply Option.ext
  intro abc
  rw [toOption_eq_some_iff, toOption_eq_some_iff, concat_of_inner_eq_ok_iff,
    concat_of_outer_eq_ok_iff]

end Three

section Neighbours

theorem parent?_of_child (hchild : top.child turn = .ok below) : below.parent? = some top := by
  obtain ⟨-, hbelow⟩ := child_eq_ok_iff.mp hchild
  have hpos := top.pos
  have hbit := turn.toNat_lt
  rw [parent?_eq_some_iff, ne_eq, ← toNat_eq_one_iff, hbelow]
  omega

theorem sibling?_of_child {beside : Gindex} (hchild : top.child turn = .ok below)
    (hbeside : top.child (!turn) = .ok beside) : below.sibling? = some beside := by
  obtain ⟨-, hbelow⟩ := child_eq_ok_iff.mp hchild
  obtain ⟨-, hother⟩ := child_eq_ok_iff.mp hbeside
  have hpos := top.pos
  rw [sibling?_eq_some_iff, ne_eq, ← toNat_eq_one_iff, hbelow, hother]
  cases turn with
  | false =>
    rw [Bool.toNat_false, Bool.not_false, Bool.toNat_true, if_pos (by omega)]
    omega
  | true =>
    rw [Bool.toNat_true, Bool.not_true, Bool.toNat_false, if_neg (by omega)]
    omega

/-- Siblings come in pairs, one pair below each parent. -/
theorem exists_siblings (hroot : g ≠ .root) :
    ∃ top s, g.parent? = some top ∧ g.sibling? = some s ∧
      s ≠ g ∧ s.parent? = some top ∧ s.sibling? = some g := by
  obtain ⟨s, hsibling⟩ := exists_sibling? hroot
  obtain ⟨top, turn, hchild, hbeside⟩ := child_of_sibling? hsibling
  refine ⟨top, s, parent?_of_child hchild, hsibling, ?_, parent?_of_child hbeside, ?_⟩
  · rintro rfl
    have hturns := (way_of_child hchild).symm.trans (way_of_child hbeside)
    simp at hturns
  · exact sibling?_of_child hbeside (by rwa [Bool.not_not])

end Neighbours

/--
Gindices are the ways of at most 63 turns, the bits below the leading one, and joining them appends
their ways. It succeeds exactly where there is room, in whichever order three are joined, and the
root adds nothing. Splitting undoes joining and is undone by it. A child is joined by a single turn,
refused where there is no room for that, its parent takes the turn back and its sibling, under the
same parent, turns the other way. Every gindex stands in the slot of its position. By shifts, masks
and bits of words all of these come out the same.
-/
theorem concat_joins_ways (a b c : Gindex) :
    (a.way = (List.range a.depth).reverse.map a.toNat.testBit ∧
      (∀ turns : List Bool, turns.length ≤ 63 → ∃ g : Gindex, g.way = turns) ∧
      ∀ ab, a.concat b = .ok ab ↔ ab.way = a.way ++ b.way) ∧
    (((∃ ab, a.concat b = .ok ab) ↔ a.depth + b.depth ≤ 63) ∧
      ∀ ab, a.concat b = .ok ab → ab.depth = a.depth + b.depth) ∧
    Except.toOption (do a.concat (← b.concat c)) = Except.toOption (do (← a.concat b).concat c) ∧
    (a.concat .root = .ok a ∧ Gindex.root.concat a = .ok a) ∧
    ((∀ ab, a.concat b = .ok ab → ab.splitAt a.depth = (a, b)) ∧
      ∀ levels ≤ a.depth, (a.splitAt levels).1.concat (a.splitAt levels).2 = .ok a) ∧
    (a.left = a.concat ⟨2, by decide, by decide⟩ ∧ a.right = a.concat ⟨3, by decide, by decide⟩) ∧
    (∀ below, a.left = .ok below ∨ a.right = .ok below → below.parent? = some a) ∧
    (Gindex.root.parent? = none ∧ Gindex.root.sibling? = none ∧
      (a ≠ .root → ∃ top s, a.parent? = some top ∧ a.sibling? = some s ∧
        s ≠ a ∧ s.parent? = some top ∧ s.sibling? = some a)) ∧
    ofSlot a.position a.depth = .ok a ∧
    (Ranged.depth a = .ok a.depth ∧ Ranged.position a = .ok a.position ∧
      Ranged.concat a b = Ranged.ofExcept ((a.concat b).mapError .gindex) ∧
      (∀ levels ≤ a.depth, Ranged.splitAt a levels = .ok (a.splitAt levels)) ∧
      (∀ turn, Ranged.child a turn = Ranged.ofExcept ((a.child turn).mapError .gindex)) ∧
      Ranged.parent? a = .ok a.parent? ∧ Ranged.sibling? a = .ok a.sibling? ∧
      ∀ index depth, Ranged.ofSlot index depth
        = Ranged.ofExcept ((ofSlot index depth).mapError .gindex)) := by
  refine ⟨⟨way_eq_map_testBit a, fun _ => exists_of_length_le, fun _ => concat_eq_ok_iff_way⟩,
    ⟨exists_concat_iff, fun _ => depth_of_concat⟩, toOption_concat_assoc a b c,
    ⟨concat_root a, root_concat a⟩,
    ⟨fun _ => splitAt_of_concat, fun _ => concat_splitAt⟩,
    ⟨child_eq_concat a false, child_eq_concat a true⟩, ?_, ⟨rfl, rfl, exists_siblings⟩,
    ofSlot_eq_ok_iff.mpr ⟨rfl, rfl⟩,
    Ranged.depth_eq a, Ranged.position_eq a, Ranged.concat_eq a b, fun _ => Ranged.splitAt_eq,
    Ranged.child_eq a, Ranged.parent?_eq a, Ranged.sibling?_eq a, Ranged.ofSlot_eq⟩
  rintro below (hleft | hright)
  · exact parent?_of_child hleft
  · exact parent?_of_child hright

/-- 40 turns, the last one and the last but two to the right. -/
def outerWay : Gindex := ⟨2 ^ 40 + 5, by decide, by decide⟩

/-- 23 turns, the last one to the right. -/
def innerWay : Gindex := ⟨2 ^ 23 + 1, by decide, by decide⟩

def longestWay : Gindex := ⟨2 ^ 63 + 5 * 2 ^ 23 + 1, by decide, by decide⟩

/-- The longest ways are taken apart and turned round like all others, but lead to no child. -/
theorem concat_joins_ways_longest :
    outerWay.depth + innerWay.depth = 63 ∧ outerWay.concat innerWay = .ok longestWay ∧
      longestWay.splitAt 40 = (outerWay, innerWay) ∧
      (longestWay.splitAt 17).1.concat (longestWay.splitAt 17).2 = .ok longestWay ∧
      longestWay.right = .error (.tooDeep 64) ∧
      ∃ top s, top.toNat = 2 ^ 62 + 5 * 2 ^ 22 ∧ s.toNat = 2 ^ 63 + 5 * 2 ^ 23 ∧
        top.right = .ok longestWay ∧ longestWay.parent? = some top ∧
        longestWay.sibling? = some s ∧ s.parent? = some top ∧ s.sibling? = some longestWay := by
  have hconcat : outerWay.concat innerWay = .ok longestWay := rfl
  have hlevels : 17 ≤ longestWay.depth := by decide
  have hroot : longestWay ≠ .root := by decide
  obtain ⟨-, -, -, -, hsplit, -⟩ := concat_joins_ways outerWay innerWay .root
  obtain ⟨-, -, -, -, hjoin, hchild, -, hpair, -⟩ := concat_joins_ways longestWay .root .root
  obtain ⟨top, s, hparent, hsibling, -, hsame, hback⟩ := hpair.2.2 hroot
  refine ⟨rfl, hconcat, hsplit.1 longestWay hconcat, hjoin.2 17 hlevels, ?_, top, s,
    (parent?_eq_some_iff.mp hparent).2, (sibling?_eq_some_iff.mp hsibling).2,
    child_of_parent? hparent, hparent, hsibling, hsame, hback⟩
  rw [hchild.2]
  rfl

end Gindex

end SimpleSerialize
