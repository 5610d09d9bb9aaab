import SimpleSerialize.Merkle.Gindex
import SimpleSerialize.Proofs.Except

/-!
A gindex is its depth and its position, and joining two gindices adds the depths and writes the
positions one behind the other. Splitting undoes joining.
-/

namespace SimpleSerialize

/-- The cover depth is the least one with enough slots. -/
theorem coverDepth_le_iff {n depth : Nat} : coverDepth n ≤ depth ↔ n ≤ 2 ^ depth := by
  have hpos := Nat.two_pow_pos depth
  unfold coverDepth
  by_cases hsmall : n ≤ 1
  · rw [if_pos hsmall]
    omega
  · rw [if_neg hsmall, Nat.succ_le_iff, Nat.log2_lt (by omega)]
    omega

theorem le_two_pow_coverDepth (n : Nat) : n ≤ 2 ^ coverDepth n :=
  coverDepth_le_iff.mp (Nat.le_refl _)

theorem coverDepth_two_pow (depth : Nat) : coverDepth (2 ^ depth) = depth := by
  apply Nat.le_antisymm (coverDepth_le_iff.mpr (Nat.le_refl _))
  exact (Nat.pow_le_pow_iff_right (by decide)).mp (le_two_pow_coverDepth (2 ^ depth))

namespace Gindex

@[simp] theorem depth_atDepth {depth position : Nat} (hdepth : depth ≤ maxDepth)
    (hposition : position < 2 ^ depth) :
    (atDepth depth position hdepth hposition).depth = depth := by
  have hpos := Nat.two_pow_pos depth
  refine (Nat.log2_eq_iff (by simp only [atDepth]; omega)).mpr ⟨Nat.le_add_right _ _, ?_⟩
  rw [Nat.pow_succ]
  simp only [atDepth]
  omega

@[simp] theorem position_atDepth {depth position : Nat} (hdepth : depth ≤ maxDepth)
    (hposition : position < 2 ^ depth) :
    (atDepth depth position hdepth hposition).position = position := by
  rw [Gindex.position, depth_atDepth]
  exact Nat.add_sub_cancel_left _ _

theorem eq_of_depth_of_position {a b : Gindex} (hdepth : a.depth = b.depth)
    (hposition : a.position = b.position) : a = b := by
  apply Gindex.ext
  rw [a.toNat_eq, b.toNat_eq, hdepth, hposition]

@[simp] theorem depth_root : Gindex.root.depth = 0 := by decide

@[simp] theorem position_root : Gindex.root.position = 0 := by decide

theorem eq_root_iff {g : Gindex} : g = .root ↔ g.depth = 0 := by
  constructor
  · rintro rfl
    rfl
  · intro hdepth
    have hposition := g.position_lt
    rw [hdepth, Nat.pow_zero] at hposition
    apply eq_of_depth_of_position hdepth
    rw [position_root]
    omega

theorem depth_of_toNat_eq_two {g : Gindex} (htwo : g.toNat = 2) : g.depth = 1 := by
  rw [Gindex.depth, htwo]
  rfl

theorem isLeft_of_toNat_eq_two {g : Gindex} (htwo : g.toNat = 2) : g.isLeft = true := by
  rw [Gindex.isLeft, htwo]
  rfl

theorem depth_of_toNat_eq_three {g : Gindex} (hthree : g.toNat = 3) : g.depth = 1 := by
  rw [Gindex.depth, hthree]
  rfl

theorem isLeft_of_toNat_eq_three {g : Gindex} (hthree : g.toNat = 3) : g.isLeft = false := by
  rw [Gindex.isLeft, hthree]
  rfl

/-- The inner gindex without its leading bit is written behind the outer one. -/
theorem concat_eq_ok_iff {outer inner g : Gindex} :
    outer.concat inner = .ok g ↔ outer.depth + inner.depth ≤ maxDepth ∧
      g.toNat = outer.toNat * 2 ^ inner.depth + inner.position := by
  have hwritten : outer.toNat * 2 ^ inner.depth + inner.position
      = 2 ^ (outer.depth + inner.depth)
        + (outer.position * 2 ^ inner.depth + inner.position) := by
    rw [outer.toNat_eq, Nat.pow_add, Nat.add_mul, Nat.add_assoc]
  unfold concat
  by_cases hdepth : outer.depth + inner.depth ≤ maxDepth
  · rw [dif_pos hdepth, Except.ok.injEq, hwritten]
    constructor
    · intro heq
      subst heq
      exact ⟨hdepth, rfl⟩
    · intro hjoined
      apply Gindex.ext
      exact hjoined.2.symm
  · simp [hdepth]

theorem depth_of_concat {outer inner g : Gindex} (hconcat : outer.concat inner = .ok g) :
    g.depth = outer.depth + inner.depth := by
  unfold concat at hconcat
  split at hconcat
  · cases hconcat
    exact depth_atDepth _ _
  · cases hconcat

theorem position_of_concat {outer inner g : Gindex} (hconcat : outer.concat inner = .ok g) :
    g.position = outer.position * 2 ^ inner.depth + inner.position := by
  unfold concat at hconcat
  split at hconcat
  · cases hconcat
    exact position_atDepth _ _
  · cases hconcat

theorem position_div_of_concat {outer inner g : Gindex} (hconcat : outer.concat inner = .ok g) :
    g.position / 2 ^ inner.depth = outer.position := by
  rw [position_of_concat hconcat, Nat.mul_comm, Nat.mul_add_div (Nat.two_pow_pos _),
    Nat.div_eq_of_lt inner.position_lt, Nat.add_zero]

theorem toNat_div_of_concat {outer inner g : Gindex} (hconcat : outer.concat inner = .ok g) :
    g.toNat / 2 ^ inner.depth = outer.toNat := by
  obtain ⟨-, htoNat⟩ := concat_eq_ok_iff.mp hconcat
  rw [htoNat, Nat.mul_comm, Nat.mul_add_div (Nat.two_pow_pos _),
    Nat.div_eq_of_lt inner.position_lt, Nat.add_zero]

theorem toNat_mod_of_concat {outer inner g : Gindex} (hconcat : outer.concat inner = .ok g) :
    g.toNat % 2 ^ inner.depth = inner.toNat % 2 ^ inner.depth := by
  obtain ⟨-, htoNat⟩ := concat_eq_ok_iff.mp hconcat
  rw [htoNat, inner.toNat_eq, Nat.mul_comm, Nat.mul_add_mod, Nat.add_mod_left]

theorem exists_concat {outer inner : Gindex} (hdepth : outer.depth + inner.depth ≤ maxDepth) :
    ∃ g, outer.concat inner = .ok g := by
  unfold concat
  rw [dif_pos hdepth]
  exact ⟨_, rfl⟩

theorem concat_of_deep {outer inner : Gindex} (hdepth : maxDepth < outer.depth + inner.depth) :
    outer.concat inner = .error (.tooDeep (outer.depth + inner.depth)) := by
  rw [concat, dif_neg (Nat.not_le_of_lt hdepth)]

theorem ne_root_of_concat {outer inner g : Gindex} (hconcat : outer.concat inner = .ok g)
    (houter : outer.depth ≠ 0) : g ≠ .root := by
  intro hg
  have hsum := depth_of_concat hconcat
  rw [hg, depth_root] at hsum
  omega

theorem concat_root (g : Gindex) : g.concat .root = .ok g := by
  rw [concat_eq_ok_iff, depth_root, position_root, Nat.pow_zero, Nat.mul_one, Nat.add_zero]
  exact ⟨g.depth_le, rfl⟩

theorem root_concat (g : Gindex) : Gindex.root.concat g = .ok g := by
  rw [concat_eq_ok_iff, depth_root, Nat.zero_add]
  refine ⟨g.depth_le, ?_⟩
  rw [g.toNat_eq, show Gindex.root.toNat = 1 from rfl, Nat.one_mul]

theorem eq_of_root_concat {g g' : Gindex} (hconcat : Gindex.root.concat g = .ok g') : g' = g :=
  Except.ok.inj (hconcat.symm.trans (root_concat g))

/-- A way down through two trees can be joined from either end. -/
theorem concat_assoc {a b c ab abc : Gindex} (hab : a.concat b = .ok ab)
    (habc : ab.concat c = .ok abc) : ∃ bc, b.concat c = .ok bc ∧ a.concat bc = .ok abc := by
  obtain ⟨-, hab'⟩ := concat_eq_ok_iff.mp hab
  obtain ⟨hdepth, habc'⟩ := concat_eq_ok_iff.mp habc
  rw [depth_of_concat hab] at hdepth
  obtain ⟨bc, hbc⟩ : ∃ bc, b.concat c = .ok bc := exists_concat (by omega)
  refine ⟨bc, hbc, concat_eq_ok_iff.mpr ⟨?_, ?_⟩⟩
  · rw [depth_of_concat hbc]
    omega
  · calc abc.toNat
        = (a.toNat * 2 ^ b.depth + b.position) * 2 ^ c.depth + c.position := by rw [habc', hab']
      _ = a.toNat * 2 ^ (b.depth + c.depth) + (b.position * 2 ^ c.depth + c.position) := by
          rw [Nat.pow_add, Nat.add_mul, Nat.mul_assoc, Nat.add_assoc]
      _ = a.toNat * 2 ^ bc.depth + bc.position := by
          rw [depth_of_concat hbc, position_of_concat hbc]

theorem ofSlot_eq_ok_iff {index depth : Nat} {g : Gindex} :
    ofSlot index depth = .ok g ↔ g.depth = depth ∧ g.position = index := by
  unfold ofSlot
  by_cases hdepth : depth ≤ maxDepth
  · by_cases hindex : index < 2 ^ depth
    · rw [dif_pos hdepth, dif_pos hindex, Except.ok.injEq]
      constructor
      · rintro rfl
        exact ⟨depth_atDepth _ _, position_atDepth _ _⟩
      · rintro ⟨rfl, rfl⟩
        exact eq_of_depth_of_position (depth_atDepth _ _) (position_atDepth _ _)
    · rw [dif_pos hdepth, dif_neg hindex]
      simp only [reduceCtorEq, false_iff]
      rintro ⟨rfl, rfl⟩
      exact hindex g.position_lt
  · rw [dif_neg hdepth]
    simp only [reduceCtorEq, false_iff]
    rintro ⟨rfl, -⟩
    exact hdepth g.depth_le

theorem exists_ofSlot {index depth : Nat} (hdepth : depth ≤ maxDepth)
    (hindex : index < 2 ^ depth) : ∃ slot, ofSlot index depth = .ok slot := by
  unfold ofSlot
  rw [dif_pos hdepth, dif_pos hindex]
  exact ⟨_, rfl⟩

theorem ofSlot_of_deep {depth : Nat} (hdepth : maxDepth < depth) (index : Nat) :
    ofSlot index depth = .error (.tooDeep depth) := by
  rw [ofSlot, dif_neg (Nat.not_le_of_lt hdepth)]

section Split

variable {g : Gindex} {levels : Nat}

theorem depth_splitAt_snd : (g.splitAt levels).2.depth = g.depth - levels := by
  simp only [splitAt, depth_atDepth]

theorem position_splitAt_snd :
    (g.splitAt levels).2.position = g.toNat % 2 ^ (g.depth - levels) := by
  simp only [splitAt, position_atDepth]

theorem depth_splitAt_fst (hlevels : levels ≤ g.depth) : (g.splitAt levels).1.depth = levels := by
  have hlow := g.two_pow_depth_le
  have hhigh := g.lt_two_pow_depth_succ
  have hsplit : 2 ^ g.depth = 2 ^ levels * 2 ^ (g.depth - levels) := by
    rw [← Nat.pow_add]
    congr 1
    omega
  have hpos := Nat.two_pow_pos (g.depth - levels)
  have hfst : (g.splitAt levels).1.toNat = g.toNat / 2 ^ (g.depth - levels) := rfl
  refine (Nat.log2_eq_iff ?_).mpr ⟨?_, ?_⟩
  · have := (g.splitAt levels).1.pos
    omega
  · rw [hfst, Nat.le_div_iff_mul_le hpos, ← hsplit]
    exact hlow
  · rw [hfst, Nat.div_lt_iff_lt_mul hpos, Nat.pow_succ, Nat.mul_right_comm, ← hsplit]
    rwa [Nat.pow_succ] at hhigh

/-- Splitting takes a gindex apart into an ancestor and the rest of the way. -/
theorem concat_splitAt (hlevels : levels ≤ g.depth) :
    (g.splitAt levels).1.concat (g.splitAt levels).2 = .ok g := by
  have hle := g.depth_le
  rw [concat_eq_ok_iff, depth_splitAt_fst hlevels, depth_splitAt_snd,
    position_splitAt_snd]
  exact ⟨by omega, (Nat.div_add_mod' _ _).symm⟩

/-- Joining is undone by splitting at the depth of the first part. -/
theorem splitAt_of_concat {outer inner : Gindex} (hconcat : outer.concat inner = .ok g) :
    g.splitAt outer.depth = (outer, inner) := by
  obtain ⟨-, htoNat⟩ := concat_eq_ok_iff.mp hconcat
  have hrest : g.depth - outer.depth = inner.depth := by
    rw [depth_of_concat hconcat, Nat.add_sub_cancel_left]
  have hpos := Nat.two_pow_pos inner.depth
  have hposition := inner.position_lt
  apply Prod.ext
  · apply Gindex.ext
    change g.toNat / 2 ^ (g.depth - outer.depth) = outer.toNat
    rw [hrest, htoNat, Nat.mul_comm, Nat.mul_add_div hpos, Nat.div_eq_of_lt hposition, Nat.add_zero]
  · apply eq_of_depth_of_position
    · rw [depth_splitAt_snd, hrest]
    · rw [position_splitAt_snd, hrest, htoNat, Nat.mul_comm, Nat.mul_add_mod,
        Nat.mod_eq_of_lt hposition]

end Split

end Gindex

end SimpleSerialize
