import SimpleSerialize.Bytes

/-!
Generalized indices: the root of a tree is 1 and the children of `i` are `2 * i` and `2 * i + 1`.
A gindex fits in 64 bits, so the deepest level it reaches is 63.
-/

namespace SimpleSerialize

/-- The deepest level a gindex addresses. -/
def maxDepth : Nat := 63

inductive GindexError where
  | zero
  | indexOutOfRange (index depth : Nat)
  | tooDeep (depth : Nat)
deriving DecidableEq, Repr

def GindexError.message : GindexError → String
  | .zero => "generalized index must be positive"
  | .indexOutOfRange index depth => s!"index {index} out of range for depth {depth}"
  | .tooDeep depth => s!"generalized index would need depth {depth}, beyond 63"

structure Gindex where
  toNat : Nat
  pos : 0 < toNat
  lt : toNat < 2 ^ (maxDepth + 1)
deriving DecidableEq

/-- The least `d` such that `2 ^ d` slots hold `n` leaves. -/
def coverDepth (n : Nat) : Nat :=
  if n ≤ 1 then 0 else Nat.log2 (n - 1) + 1

namespace Gindex

@[ext] theorem ext {a b : Gindex} (h : a.toNat = b.toNat) : a = b := by
  cases a; cases b; simp_all

protected def root : Gindex := ⟨1, by decide, by decide⟩

instance : Inhabited Gindex := ⟨.root⟩

/-- Refuses zero. -/
def ofUInt64 (n : UInt64) : Except GindexError Gindex :=
  if h : n.toNat = 0 then .error .zero
  else .ok ⟨n.toNat, Nat.pos_of_ne_zero h, n.toNat_lt⟩

/-- Levels below the root. -/
def depth (g : Gindex) : Nat := Nat.log2 g.toNat

theorem two_pow_depth_le (g : Gindex) : 2 ^ g.depth ≤ g.toNat :=
  Nat.log2_self_le (Nat.pos_iff_ne_zero.mp g.pos)

theorem lt_two_pow_depth_succ (g : Gindex) : g.toNat < 2 ^ (g.depth + 1) :=
  Nat.lt_log2_self

theorem depth_le (g : Gindex) : g.depth ≤ maxDepth := by
  have h := Nat.lt_of_le_of_lt g.two_pow_depth_le g.lt
  have := (Nat.pow_lt_pow_iff_right (by decide : 1 < 2)).mp h
  omega

/-- The place among the nodes of the same depth. -/
def position (g : Gindex) : Nat := g.toNat - 2 ^ g.depth

theorem position_lt (g : Gindex) : g.position < 2 ^ g.depth := by
  have := g.lt_two_pow_depth_succ
  rw [Nat.pow_succ] at this
  unfold position
  omega

theorem toNat_eq (g : Gindex) : g.toNat = 2 ^ g.depth + g.position := by
  have := g.two_pow_depth_le
  unfold position
  omega

/-- The node at a place of a level that gindices reach. -/
def atDepth (depth position : Nat) (hdepth : depth ≤ maxDepth) (hposition : position < 2 ^ depth) :
    Gindex where
  toNat := 2 ^ depth + position
  pos := Nat.lt_of_lt_of_le (Nat.two_pow_pos depth) (Nat.le_add_right _ _)
  lt := by
    have : 2 ^ depth * 2 ≤ 2 ^ (maxDepth + 1) := by
      rw [← Nat.pow_succ]
      exact Nat.pow_le_pow_right (by decide) (Nat.succ_le_succ hdepth)
    omega

/-- The node at slot `index` of level `depth`. -/
def ofSlot (index depth : Nat) : Except GindexError Gindex :=
  if hdepth : depth ≤ maxDepth then
    if hindex : index < 2 ^ depth then .ok (atDepth depth index hdepth hindex)
    else .error (.indexOutOfRange index depth)
  else .error (.tooDeep depth)

/-- The root is no child. -/
def isLeft (g : Gindex) : Bool := 1 < g.toNat && g.toNat % 2 == 0

def parent? (g : Gindex) : Option Gindex :=
  if h : g.toNat = 1 then none
  else some ⟨g.toNat / 2, by have := g.pos; omega, by have := g.lt; omega⟩

/-- The other child of the same parent. -/
def sibling? (g : Gindex) : Option Gindex :=
  if h : g.toNat = 1 then none
  else some
    ⟨if g.toNat % 2 = 0 then g.toNat + 1 else g.toNat - 1,
      by have := g.pos; split <;> omega,
      by have := g.lt; simp only [maxDepth] at *; split <;> omega⟩

/-- The node at `inner` of the tree that stands at `outer`. -/
def concat (outer inner : Gindex) : Except GindexError Gindex :=
  if h : outer.depth + inner.depth ≤ maxDepth then
    .ok (atDepth (outer.depth + inner.depth)
      (outer.position * 2 ^ inner.depth + inner.position) h
      (by
        have hinner := inner.position_lt
        have houter : (outer.position + 1) * 2 ^ inner.depth ≤ 2 ^ outer.depth * 2 ^ inner.depth :=
          Nat.mul_le_mul_right _ outer.position_lt
        rw [Nat.add_mul, Nat.one_mul] at houter
        rw [Nat.pow_add]
        omega))
  else .error (.tooDeep (outer.depth + inner.depth))

def child (g : Gindex) (right : Bool) : Except GindexError Gindex :=
  if h : g.depth < maxDepth then
    .ok ⟨2 * g.toNat + right.toNat, by have := g.pos; omega, by
      have hlt := g.lt_two_pow_depth_succ
      have hpow : 2 ^ (g.depth + 1) * 2 ≤ 2 ^ (maxDepth + 1) := by
        rw [← Nat.pow_succ]
        exact Nat.pow_le_pow_right (by decide) (by omega)
      have hright : right.toNat ≤ 1 := by cases right <;> decide
      omega⟩
  else .error (.tooDeep (g.depth + 1))

def left (g : Gindex) : Except GindexError Gindex := g.child false

def right (g : Gindex) : Except GindexError Gindex := g.child true

/-- The ancestor `levels` below the root, and the rest of the path from there. -/
def splitAt (g : Gindex) (levels : Nat) : Gindex × Gindex :=
  let rest := g.depth - levels
  (⟨g.toNat / 2 ^ rest,
      Nat.div_pos (Nat.le_trans (Nat.pow_le_pow_right (by decide) (Nat.sub_le _ _))
        g.two_pow_depth_le) (Nat.two_pow_pos rest),
      Nat.lt_of_le_of_lt (Nat.div_le_self _ _) g.lt⟩,
    atDepth rest (g.toNat % 2 ^ rest) (Nat.le_trans (Nat.sub_le _ _) g.depth_le)
      (Nat.mod_lt _ (Nat.two_pow_pos rest)))

def summary (g : Gindex) : String := s!"Gindex({g.toNat})"

end Gindex

end SimpleSerialize
