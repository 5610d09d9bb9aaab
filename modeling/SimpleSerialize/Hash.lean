import SimpleSerialize.Hash.Sha256

/-!
The hash a tree is built with. Nothing above fixes which one it is; `HashFunction.sha256` is the
usual choice.
-/

namespace SimpleSerialize

/-- A node of a tree: 32 bytes of content, or the hash of the two nodes below. -/
abbrev Root := FixedBytes 32

structure HashFunction where
  hash : Bytes → Root
  pair : Root → Root → Root

namespace HashFunction

/-- Two nodes are hashed as one string. -/
def ofHash (hash : Bytes → Root) : HashFunction where
  hash := hash
  pair left right := hash (left.toList ++ right.toList)

def sha256 : HashFunction := ofHash Sha256.digest

/-- The root of a perfect tree of the given height whose leaves are all zero. -/
def zeroRoot (h : HashFunction) : (height : Nat) → Root
  | 0 => .zero
  | height + 1 => h.pair (h.zeroRoot height) (h.zeroRoot height)

/-- A node and its doublings, `levels` of them. -/
def doublings (h : HashFunction) (node : Root) : (levels : Nat) → List Root
  | 0 => [node]
  | levels + 1 => node :: h.doublings (h.pair node node) levels

/-- The roots of the all-zero trees of heights up to `height`. -/
def zeroRoots (h : HashFunction) (height : Nat) : List Root :=
  h.doublings .zero height

theorem getElem?_doublings (h : HashFunction) {k i levels : Nat} (hi : i ≤ levels) :
    (h.doublings (h.zeroRoot k) levels)[i]? = some (h.zeroRoot (k + i)) := by
  induction levels generalizing k i with
  | zero => simp_all [doublings]
  | succ levels ih =>
    cases i with
    | zero => rfl
    | succ i =>
      have := ih (k := k + 1) (i := i) (by omega)
      rw [zeroRoot] at this
      simp only [doublings, List.getElem?_cons_succ, this]
      congr 2
      omega

theorem getElem?_zeroRoots (h : HashFunction) {i height : Nat} (hi : i ≤ height) :
    (h.zeroRoots height)[i]? = some (h.zeroRoot i) := by
  have := h.getElem?_doublings (k := 0) hi
  simpa [zeroRoots, zeroRoot] using this

@[simp] theorem length_doublings (h : HashFunction) (node : Root) (levels : Nat) :
    (h.doublings node levels).length = levels + 1 := by
  induction levels generalizing node with
  | zero => rfl
  | succ levels ih => simp [doublings, ih]

end HashFunction

end SimpleSerialize
