import SimpleSerialize.Merkle.Ranged
import SimpleSerialize.Proofs.Merkle.Tree
import SimpleSerialize.Proofs.Merkle.Way

/-!
Depths by counting zeros and places by shifts of words: within their range these are the depths and
the places that powers of two give, so no step on a gindex overruns.
-/

namespace SimpleSerialize.Ranged

variable {α β : Type} {range : ShiftRange} {n amount a b depth : Nat}

theorem ofExcept_bind (x : Except ProofError α) (f : α → Except ProofError β) :
    ofExcept (x >>= f) = ofExcept x >>= fun a => ofExcept (f a) :=
  mapError_bind _ x f

theorem shiftLeft_of_le (hamount : amount ≤ range.amount)
    (hresult : n * 2 ^ amount ≤ range.result) :
    shiftLeft range n amount = .ok (n * 2 ^ amount) := by
  rw [← Nat.shiftLeft_eq] at hresult ⊢
  exact if_pos ⟨hamount, hresult⟩

/-- A tree of 63 levels beside a count would be too wide. -/
example : shiftLeft .tree 1 63 = overrun (.shift 1 63) := rfl

theorem shiftRight_of_le (hamount : amount ≤ range.amount) (hn : n ≤ range.result) :
    shiftRight range n amount = .ok (n / 2 ^ amount) := by
  have hresult : n >>> amount ≤ range.result := by
    rw [Nat.shiftRight_eq_div_pow]
    exact Nat.le_trans (Nat.div_le_self _ _) hn
  rw [shiftRight, if_pos ⟨hamount, hresult⟩, Nat.shiftRight_eq_div_pow]

theorem sub_of_le (hle : b ≤ a) : sub a b = .ok (a - b) := if_pos hle

theorem get_of_getElem? {xs : List α} {i : Nat} {x : α} (hget : xs[i]? = some x) :
    get xs i = .ok x := by
  rw [get, hget]

/-! ### Depths -/

/-- The highest bit set is the first below the zeros. -/
theorem log2_eq_sub_leadingZeros {n : UInt64} (hn : n.toNat ≠ 0) :
    leadingZeros n ≤ maxDepth ∧ Nat.log2 n.toNat = maxDepth - leadingZeros n := by
  have hvec : n.toBitVec ≠ 0 := fun hzero => hn (congrArg BitVec.toNat hzero)
  have hlow := BitVec.two_pow_sub_clz_le_toNat_of_ne_zero (by decide) hvec
  have hhigh := BitVec.toNat_lt_two_pow_sub_clz (x := n.toBitVec)
  have hcount : leadingZeros n < 64 := BitVec.clz_lt_iff_ne_zero.mpr hvec
  refine ⟨Nat.le_of_lt_succ hcount, (Nat.log2_eq_iff hn).mpr ⟨hlow, ?_⟩⟩
  rwa [maxDepth, ← Nat.sub_add_comm (Nat.le_of_lt_succ hcount)]

theorem coverDepth_eq (n : UInt64) :
    Ranged.coverDepth n = .ok (SimpleSerialize.coverDepth n.toNat) := by
  have hone : n ≤ 1 ↔ n.toNat ≤ 1 := UInt64.le_iff_toNat_le
  unfold Ranged.coverDepth SimpleSerialize.coverDepth
  by_cases hsmall : n.toNat ≤ 1
  · rw [if_pos (hone.mpr hsmall), if_pos hsmall]
  · have hpred : (n - 1).toNat = n.toNat - 1 :=
      UInt64.toNat_sub_of_le _ _ (UInt64.le_iff_toNat_le.mpr (Nat.le_of_not_le hsmall))
    obtain ⟨hzeros, hlog⟩ := log2_eq_sub_leadingZeros (n := n - 1) (by omega)
    have hword : leadingZeros (n - 1) ≤ 64 := Nat.le_succ_of_le hzeros
    rw [hpred] at hlog
    rw [if_neg (mt hone.mp hsmall), if_neg hsmall, hlog, sub_of_le hword,
      ← Nat.sub_add_comm hzeros]
    rfl

/-- The depth of the smallest tree that has room for `n` leaves, for the largest word too. -/
theorem coverDepth_least (n : UInt64) : ∃ depth, Ranged.coverDepth n = .ok depth ∧
    n.toNat ≤ 2 ^ depth ∧ ∀ depth', n.toNat ≤ 2 ^ depth' → depth ≤ depth' :=
  ⟨_, coverDepth_eq n, le_two_pow_coverDepth n.toNat, fun _ => coverDepth_le_iff.mpr⟩

/-! ### Gindices -/

section Gindices

variable {g outer inner : Gindex} {index levels : Nat}

theorem toNat_ofNat_gindex (g : Gindex) : (UInt64.ofNat g.toNat).toNat = g.toNat := by
  rw [UInt64.toNat_ofNat']
  exact Nat.mod_eq_of_lt g.lt

theorem gindex_toNat (g : Gindex) : gindex g.toNat = .ok g := dif_pos ⟨g.pos, g.lt⟩

theorem depth_eq (g : Gindex) : Ranged.depth g = .ok g.depth := by
  have hword := toNat_ofNat_gindex g
  have hpos := g.pos
  obtain ⟨hzeros, hlog⟩ := log2_eq_sub_leadingZeros (n := UInt64.ofNat g.toNat) (by omega)
  rw [Ranged.depth, sub_of_le hzeros, ← hlog, hword, Gindex.depth]

/-- The width of a level that gindices reach. -/
theorem width_of_le (hdepth : depth ≤ maxDepth) : shiftLeft .gindex 1 depth = .ok (2 ^ depth) := by
  have hpow : 2 ^ depth ≤ 2 ^ maxDepth := Nat.pow_le_pow_right (by decide) hdepth
  have hbound : 2 ^ maxDepth ≤ ShiftRange.gindex.result := by decide
  rw [shiftLeft_of_le hdepth (by rw [Nat.one_mul]; omega), Nat.one_mul]

theorem position_eq (g : Gindex) : Ranged.position g = .ok g.position := by
  rw [Ranged.position, depth_eq, ok_bind, width_of_le g.depth_le, ok_bind,
    sub_of_le g.two_pow_depth_le, Gindex.position]

/-- The leading bit of a gindex stands in front of the bits of its position. -/
theorem gindex_or {depth position : Nat} (hdepth : depth ≤ maxDepth)
    (hposition : position < 2 ^ depth) :
    gindex (2 ^ depth ||| position) = .ok (.atDepth depth position hdepth hposition) := by
  have hor := Nat.two_pow_add_eq_or_of_lt hposition 1
  rw [Nat.mul_one] at hor
  rw [← hor]
  exact gindex_toNat (.atDepth depth position hdepth hposition)

theorem ofSlot_eq (index depth : Nat) :
    Ranged.ofSlot index depth = ofExcept ((Gindex.ofSlot index depth).mapError .gindex) := by
  unfold Ranged.ofSlot Gindex.ofSlot
  by_cases hdepth : depth ≤ maxDepth
  · rw [if_neg (Nat.not_lt.mpr hdepth), dif_pos hdepth, width_of_le hdepth, ok_bind]
    by_cases hindex : index < 2 ^ depth
    · rw [if_neg (Nat.not_le.mpr hindex), dif_pos hindex, gindex_or hdepth hindex]
      rfl
    · rw [if_pos (Nat.not_lt.mp hindex), dif_neg hindex]
      rfl
  · rw [if_pos (Nat.not_le.mp hdepth), dif_neg hdepth]
    rfl

/-- Bits written behind those of a gindex that leaves room for them. -/
theorem shiftLeft_or {n amount bits : Nat} (hamount : amount ≤ maxDepth)
    (hbits : bits < 2 ^ amount) (hg : g.toNat = n * 2 ^ amount + bits) :
    (do gindex ((← shiftLeft .gindex n amount) ||| bits)) = .ok g := by
  have hlt := g.lt
  have hresult : n * 2 ^ amount ≤ ShiftRange.gindex.result := by
    simp only [ShiftRange.gindex, wordBound]
    simp only [maxDepth] at hlt
    omega
  have hor := Nat.two_pow_add_eq_or_of_lt hbits n
  rw [Nat.mul_comm] at hor
  rw [shiftLeft_of_le hamount hresult, ok_bind, ← hor, ← hg, gindex_toNat]

theorem concat_eq (outer inner : Gindex) :
    Ranged.concat outer inner = ofExcept ((outer.concat inner).mapError .gindex) := by
  simp only [Ranged.concat, depth_eq, position_eq, ok_bind]
  by_cases hdepth : outer.depth + inner.depth ≤ maxDepth
  · obtain ⟨g, hconcat⟩ := Gindex.exists_concat hdepth
    obtain ⟨-, hjoined⟩ := Gindex.concat_eq_ok_iff.mp hconcat
    rw [if_neg (Nat.not_lt.mpr hdepth), hconcat,
      shiftLeft_or inner.depth_le inner.position_lt hjoined]
    rfl
  · rw [if_pos (Nat.not_le.mp hdepth), Gindex.concat_of_deep (Nat.not_le.mp hdepth)]
    rfl

theorem child_eq (g : Gindex) (turn : Bool) :
    Ranged.child g turn = ofExcept ((g.child turn).mapError .gindex) := by
  simp only [Ranged.child, depth_eq, ok_bind]
  by_cases hdepth : g.depth < maxDepth
  · obtain ⟨below, hchild⟩ := Gindex.exists_child hdepth turn
    obtain ⟨-, hbelow⟩ := Gindex.child_eq_ok_iff.mp hchild
    have hone : 1 ≤ maxDepth := by decide
    have hbit : turn.toNat < 2 ^ 1 := turn.toNat_lt
    rw [Nat.mul_comm] at hbelow
    rw [if_neg (Nat.not_le.mpr hdepth), hchild, shiftLeft_or hone hbit hbelow]
    rfl
  · rw [if_pos (Nat.not_lt.mp hdepth), Gindex.child, dif_neg hdepth]
    rfl

theorem parent?_eq (g : Gindex) : Ranged.parent? g = .ok g.parent? := by
  unfold Ranged.parent?
  by_cases hroot : g.toNat = 1
  · rw [if_pos hroot, Gindex.parent?, dif_pos hroot]
  · obtain ⟨top, hparent⟩ := Gindex.exists_parent? (mt Gindex.toNat_eq_one_iff.mpr hroot)
    obtain ⟨-, htop⟩ := Gindex.parent?_eq_some_iff.mp hparent
    have hword : g.toNat ≤ ShiftRange.gindex.result := Nat.le_pred_of_lt g.lt
    rw [if_neg hroot, shiftRight_of_le (by decide) hword, ok_bind, Nat.pow_one, ← htop,
      gindex_toNat, hparent]
    rfl

theorem sibling?_eq (g : Gindex) : Ranged.sibling? g = .ok g.sibling? := by
  unfold Ranged.sibling?
  by_cases hroot : g.toNat = 1
  · rw [if_pos hroot, Gindex.sibling?, dif_pos hroot]
  · obtain ⟨s, hsibling⟩ := Gindex.exists_sibling? (mt Gindex.toNat_eq_one_iff.mpr hroot)
    obtain ⟨-, hs⟩ := Gindex.sibling?_eq_some_iff.mp hsibling
    rw [if_neg hroot, Merkle.xor_one_eq_beside, Merkle.beside, ← hs, gindex_toNat, hsibling]
    rfl

theorem splitAt_eq (hlevels : levels ≤ g.depth) :
    Ranged.splitAt g levels = .ok (g.splitAt levels) := by
  have hrest : g.depth - levels ≤ maxDepth := Nat.le_trans (Nat.sub_le _ _) g.depth_le
  have hword : g.toNat ≤ ShiftRange.gindex.result := Nat.le_pred_of_lt g.lt
  have htop : gindex (g.toNat / 2 ^ (g.depth - levels)) = .ok (g.splitAt levels).1 :=
    gindex_toNat (g.splitAt levels).1
  have hbelow := gindex_or hrest (Nat.mod_lt g.toNat (Nat.two_pow_pos (g.depth - levels)))
  simp only [Ranged.splitAt, depth_eq, ok_bind, sub_of_le hlevels, shiftRight_of_le hrest hword,
    htop, width_of_le hrest, sub_of_le (Nat.one_le_two_pow), Nat.and_two_pow_sub_one_eq_mod, hbelow]
  rfl

end Gindices

end SimpleSerialize.Ranged
