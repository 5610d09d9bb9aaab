import SimpleSerialize.Proofs.Merkle.Path
import SimpleSerialize.Proofs.Merkle.Ranged
import SimpleSerialize.Proofs.Shape.Sizes

/-!
How many leaves an accepted shape has room for: one at least, and no more than a tree of 62 levels
holds, so that the number fits in a word and every leaf has a gindex (`Shape.exists_leafGindex`).
-/

namespace SimpleSerialize.Shape

variable {shape element : Shape} {n count size : Nat}

theorem ceilDiv_eq (hsize : 0 < size) :
    Bytes.ceilDiv n size = if n % size = 0 then n / size else n / size + 1 := by
  have hsum := Nat.div_add_mod n size
  have hrest := Nat.mod_lt n hsize
  unfold Bytes.ceilDiv
  split
  next hzero =>
    apply Nat.div_eq_of_lt_le
    · rw [Nat.mul_comm]
      omega
    · rw [Nat.succ_mul, Nat.mul_comm]
      omega
  next hsome =>
    apply Nat.div_eq_of_lt_le
    · rw [Nat.succ_mul, Nat.mul_comm]
      omega
    · rw [Nat.succ_mul, Nat.succ_mul, Nat.mul_comm]
      omega

theorem toNat_ofNat_wide (hn : n < 2 ^ 128) : (BitVec.ofNat 128 n).toNat = n := by
  rw [BitVec.toNat_ofNat]
  exact Nat.mod_eq_of_lt hn

theorem toNat_ceilDivWide (hn : n < 2 ^ 127) (hpos : 0 < size) (hsize : size < 2 ^ 128) :
    (ceilDivWide (BitVec.ofNat 128 n) (BitVec.ofNat 128 size)).toNat = Bytes.ceilDiv n size := by
  have hquotient : n / size ≤ n := Nat.div_le_self n size
  have hn' := toNat_ofNat_wide (n := n) (by omega)
  have hsize' := toNat_ofNat_wide hsize
  have hmod : BitVec.ofNat 128 n % BitVec.ofNat 128 size = 0 ↔ n % size = 0 := by
    rw [← BitVec.toNat_inj, BitVec.toNat_umod, hn', hsize']
    rfl
  rw [ceilDiv_eq hpos, ceilDivWide]
  simp only [hmod]
  split
  · rw [BitVec.toNat_udiv, hn', hsize']
  · rw [BitVec.toNat_add, BitVec.toNat_udiv, hn', hsize']
    exact Nat.mod_eq_of_lt (Nat.lt_of_le_of_lt (Nat.succ_le_succ hquotient) (by omega))

theorem toNat_leafCountWide (hcount : count < wordBound) :
    (element.leafCountWide count).toNat = element.leafCount count := by
  unfold wordBound at hcount
  unfold leafCountWide leafCount
  cases element.scalar? with
  | none => exact toNat_ofNat_wide (by omega)
  | some kind =>
    have hproduct : count * kind.size ≤ count * 32 := Nat.mul_le_mul_left count kind.size_bounds.2
    dsimp only
    rw [← BitVec.ofNat_mul]
    exact toNat_ceilDivWide (by omega) (by decide) (by decide)

/-- Declared numbers are words, and no product of a word and a size is too large for two words. -/
theorem toNat_chunkLimitWide (hcheck : shape.check = .ok shape) :
    shape.chunkLimitWide.toNat = shape.chunkLimit := by
  obtain ⟨-, -, hdeclared, hlimit⟩ := check_eq_ok_iff.mp hcheck
  cases shape with
  | scalar kind => rfl
  | byteVector n | byteList n | bitvector n | bitlist n =>
    have hn : n < 2 ^ 64 := hdeclared
    exact toNat_ceilDivWide (by omega) (by decide) (by decide)
  | vector element n | list element n => exact toNat_leafCountWide hdeclared
  | container fields =>
    have hfields : fields.length ≤ 2 ^ 62 := hlimit
    exact toNat_ofNat_wide (by omega)

theorem chunkLimit_le (hcheck : shape.check = .ok shape) :
    shape.chunkLimit ≤ 2 ^ (maxDepth - 1) := (check_eq_ok_iff.mp hcheck).2.2.2

theorem toNat_chunkLimitWord (hcheck : shape.check = .ok shape) :
    shape.chunkLimitWord.toNat = shape.chunkLimit := by
  have hlimit : shape.chunkLimit ≤ 2 ^ 62 := chunkLimit_le hcheck
  change (shape.chunkLimitWide.setWidth 64).toNat = _
  rw [BitVec.toNat_setWidth, toNat_chunkLimitWide hcheck]
  exact Nat.mod_eq_of_lt (by omega)

theorem ceilDiv_pos (hn : n ≠ 0) (hsize : 0 < size) : 0 < Bytes.ceilDiv n size :=
  Nat.div_pos (by omega) hsize

theorem leafCount_pos (hcount : count ≠ 0) : 0 < element.leafCount count := by
  unfold leafCount
  cases element.scalar? with
  | none => exact Nat.pos_of_ne_zero hcount
  | some kind =>
    have hbytes : count * kind.size ≠ 0 :=
      Nat.mul_ne_zero hcount (Nat.ne_of_gt kind.size_bounds.1)
    exact ceilDiv_pos hbytes (by decide)

/-- What is not empty has a leaf. -/
theorem chunkLimit_pos (hcheck : shape.check = .ok shape) : 0 < shape.chunkLimit := by
  obtain ⟨hnonempty, -⟩ := check_eq_ok_iff.mp hcheck
  cases shape with
  | scalar kind => exact Nat.one_pos
  | byteVector n | byteList n | bitvector n | bitlist n =>
    refine ceilDiv_pos ?_ (by decide)
    rintro rfl
    cases hnonempty
  | vector element n | list element n =>
    refine leafCount_pos ?_
    rintro rfl
    cases hnonempty
  | container fields =>
    apply List.length_pos_iff.mpr
    rintro rfl
    cases hnonempty

theorem coverDepth_chunkLimit_lt (hcheck : shape.check = .ok shape) :
    coverDepth shape.chunkLimit < maxDepth :=
  Nat.lt_succ_of_le (coverDepth_le_iff.mpr (chunkLimit_le hcheck))

theorem treeDepth_le (hcheck : shape.check = .ok shape) : shape.treeDepth ≤ maxDepth := by
  have hcover := coverDepth_chunkLimit_lt hcheck
  unfold treeDepth
  split <;> omega

/-- Every leaf has a gindex, on the last level of the tree of its shape. -/
theorem exists_leafGindex (hcheck : shape.check = .ok shape) {i : Nat} (hi : i < shape.chunkLimit) :
    ∃ g, shape.partGindex i = .ok g ∧ shape.leafGindexRanged i = .ok g ∧
      g.depth = shape.treeDepth := by
  have hcover := coverDepth_chunkLimit_lt hcheck
  obtain ⟨slot, hslot⟩ := Gindex.exists_ofSlot (Nat.le_of_lt hcover)
    (Nat.lt_of_lt_of_le hi (le_two_pow_coverDepth _))
  have hdepth := (Gindex.ofSlot_eq_ok_iff.mp hslot).1
  rw [leafGindexRanged, Ranged.coverDepth_eq, toNat_chunkLimitWord hcheck, ok_bind,
    Ranged.ofSlot_eq, partGindex, treeDepth, hslot]
  cases shape.mixesInCount with
  | false => exact ⟨slot, rfl, rfl, by simpa using hdepth⟩
  | true =>
    obtain ⟨data, hleft, htwo⟩ : ∃ data, Gindex.root.left = .ok data ∧ data.toNat = 2 :=
      ⟨_, rfl, rfl⟩
    have hone := Gindex.depth_of_toNat_eq_two htwo
    have hroom : data.depth + slot.depth ≤ maxDepth := by omega
    obtain ⟨g, hconcat⟩ := Gindex.exists_concat hroom
    have hsum := Gindex.depth_of_concat hconcat
    have hword : Ranged.gindex 2 = .ok data := by rw [← htwo, Ranged.gindex_toNat]
    refine ⟨g, ?_, ?_, by simp only [if_true]; omega⟩
    · change (Gindex.root.left >>= fun data => data.concat slot) = .ok g
      rw [hleft, ok_bind, hconcat]
    · change (Ranged.gindex 2 >>= fun data => Ranged.concat data slot) = .ok g
      rw [hword, ok_bind, Ranged.concat_eq, hconcat]
      rfl

end SimpleSerialize.Shape
