import Mathlib.Data.List.Forall2
import SimpleSerialize.Proofs.Merkle.Layout

/-!
Layouts that stand for others (`Layout.StandsFor`). One with roots in place of some of its parts has
the same root, and its branches are branches of the other: it only ends sooner.
-/

namespace SimpleSerialize

namespace Merkle

variable {h : HashFunction} {leaves : List Root} {depth : Nat} {g : Gindex} {branch : List Root}
  {find find' : Nat → Gindex → Except ProofError (List Root)}

/-- The walk through a tree finds whatever the way down finds below the leaf on its path. -/
theorem branchInTree_mono
    (hfind : ∀ (slot below : Gindex) (inner : List Root), slot.depth = depth →
      slot.position < leaves.length → below ≠ .root → slot.concat below = .ok g →
      find slot.position below = .ok inner → find' slot.position below = .ok inner)
    (hbranch : branchInTree h leaves depth g find = .ok branch) :
    branchInTree h leaves depth g find' = .ok branch := by
  by_cases hroot : g = .root
  · rw [branchInTree, if_pos hroot] at hbranch ⊢
    exact hbranch
  have hlevel : min g.depth depth ≤ g.depth := Nat.min_le_left _ _
  have hconcat := Gindex.concat_splitAt hlevel
  have htop := Gindex.depth_splitAt_fst hlevel
  generalize (g.splitAt (min g.depth depth)).1 = top at hconcat htop
  generalize (g.splitAt (min g.depth depth)).2 = below at hconcat
  have hsum := Gindex.depth_of_concat hconcat
  rw [branchInTree_of_concat hconcat htop hroot] at hbranch ⊢
  by_cases hleaf : leaves.length ≤ top.position * 2 ^ (depth - top.depth)
  · rw [if_pos hleaf] at hbranch
    cases hbranch
  rw [if_neg hleaf] at hbranch ⊢
  by_cases hbelow : below = .root
  · rw [if_pos hbelow] at hbranch ⊢
    exact hbranch
  rw [if_neg hbelow] at hbranch ⊢
  -- Below the leaves the way has used up all levels of the tree.
  have hdeep := mt Gindex.eq_root_iff.mpr hbelow
  have hbottom : depth - top.depth = 0 := by omega
  rw [hbottom, Nat.pow_zero, Nat.mul_one] at hbranch hleaf ⊢
  obtain ⟨inner, hinner, happend⟩ := bind_eq_ok_iff.mp hbranch
  have hfound := hfind top below inner (by omega) (Nat.lt_of_not_le hleaf) hbelow hconcat hinner
  exact bind_eq_ok_iff.mpr ⟨inner, hfound, happend⟩

/-- Walks that find the same on the path below a leaf find the same. -/
theorem branchInTree_eq_ok_congr
    (hfind : ∀ (slot below : Gindex) (inner : List Root), slot.depth = depth →
      slot.position < leaves.length → below ≠ .root → slot.concat below = .ok g →
      (find slot.position below = .ok inner ↔ find' slot.position below = .ok inner)) :
    branchInTree h leaves depth g find = .ok branch ↔
      branchInTree h leaves depth g find' = .ok branch := by
  constructor
  · apply branchInTree_mono
    intro slot below inner hdepth hposition hdown hconcat
    exact (hfind slot below inner hdepth hposition hdown hconcat).mp
  · apply branchInTree_mono
    intro slot below inner hdepth hposition hdown hconcat
    exact (hfind slot below inner hdepth hposition hdown hconcat).mpr

end Merkle

namespace Layout

/-- One layout has the root of another, and all its branches are branches of the other. -/
structure StandsFor (h : HashFunction) (short full : Layout) : Prop where
  root_eq : short.root h = full.root h
  branch_of {g : Gindex} {branch : List Root} (hbranch : short.branch h g = .ok branch) :
    full.branch h g = .ok branch

variable {h : HashFunction}

theorem StandsFor.refl (layout : Layout) : StandsFor h layout layout where
  root_eq := rfl
  branch_of hbranch := hbranch

theorem StandsFor.ifFits {short full : Layout} (hstands : StandsFor h short full)
    (fits : Except FitError Unit) : StandsFor h (ifFits fits short) (ifFits fits full) := by
  cases fits with
  | error e => exact .refl (misfit e)
  | ok => exact hstands

theorem branch_chunk_eq_ok_iff {root : Root} {g : Gindex} {branch : List Root} :
    (packed [root] 1 none).branch h g = .ok branch ↔ g = .root ∧ branch = [] := by
  by_cases hg : g = .root
  · rw [hg, branch_root, Except.ok.injEq, eq_comm]
    exact (and_iff_right rfl).symm
  · refine iff_of_false ?_ (fun hempty => hg hempty.1)
    have hwalk (find : Nat → Gindex → Except ProofError (List Root)) :
        branchOver h (.ok [root]) 1 none g find = Merkle.branchInTree h [root] 0 g find := rfl
    have hconcat := Gindex.root_concat g
    rw [Layout.branch, if_neg hg, hwalk,
      Merkle.branchInTree_of_concat hconcat (Nat.min_zero _).symm hg, if_neg hg]
    simp [Except.bind]

/-- A chunk stands for every layout that it is the root of. -/
theorem standsFor_chunk {full : Layout} {root : Root} (hroot : full.root h = .ok root) :
    StandsFor h (packed [root] 1 none) full where
  root_eq := by
    rw [hroot]
    rfl
  branch_of hbranch := by
    obtain ⟨rfl, rfl⟩ := branch_chunk_eq_ok_iff.mp hbranch
    exact branch_root full

section Parts

variable {short full : List Layout} {leaves : Except FitError (List Root)} {capacity : Nat}
  {count? : Option Nat} {g : Gindex} {branch : List Root}
  {find find' : Nat → Gindex → Except ProofError (List Root)}

theorem branchOver_mono
    (hfind : ∀ i below inner, find i below = .ok inner → find' i below = .ok inner)
    (hbranch : branchOver h leaves capacity count? g find = .ok branch) :
    branchOver h leaves capacity count? g find' = .ok branch := by
  unfold branchOver at hbranch ⊢
  cases count? with
  | none =>
    obtain ⟨leaves, hleaves, hbranch⟩ := bind_eq_ok_iff.mp hbranch
    refine bind_eq_ok_iff.mpr ⟨leaves, hleaves, ?_⟩
    exact Merkle.branchInTree_mono (fun _ below inner _ _ _ _ => hfind _ below inner) hbranch
  | some count =>
    by_cases hleft : (g.splitAt 1).1.isLeft
    · simp only [hleft, if_true] at hbranch ⊢
      obtain ⟨leaves, hleaves, hbranch⟩ := bind_eq_ok_iff.mp hbranch
      obtain ⟨inner, hinner, happend⟩ := bind_eq_ok_iff.mp hbranch
      refine bind_eq_ok_iff.mpr ⟨leaves, hleaves, bind_eq_ok_iff.mpr ⟨inner, ?_, happend⟩⟩
      exact Merkle.branchInTree_mono (fun _ below inner _ _ _ _ => hfind _ below inner) hinner
    · simp only [hleft] at hbranch ⊢
      exact hbranch

theorem roots_eq_of_standsFor (hparts : List.Forall₂ (StandsFor h) short full) :
    roots h short = roots h full := by
  induction hparts with
  | nil => rfl
  | cons hpart _ ih => rw [roots, roots, hpart.root_eq, ih]

theorem branchOfPart_of_standsFor (hparts : List.Forall₂ (StandsFor h) short full) (i : Nat)
    {below : Gindex} {inner : List Root} (hinner : branchOfPart h short i below = .ok inner) :
    branchOfPart h full i below = .ok inner := by
  induction hparts generalizing i with
  | nil => exact hinner
  | cons hpart _ ih =>
    cases i with
    | zero =>
      rw [branchOfPart] at hinner ⊢
      exact hpart.branch_of hinner
    | succ i =>
      rw [branchOfPart] at hinner ⊢
      exact ih i hinner

/-- A layout stands for another if part by part its parts do. -/
theorem standsFor_composite (hparts : List.Forall₂ (StandsFor h) short full) (capacity : Nat)
    (count? : Option Nat) :
    StandsFor h (composite short capacity count?) (composite full capacity count?) where
  root_eq := by rw [Layout.root, Layout.root, roots_eq_of_standsFor hparts]
  branch_of {g branch} hbranch := by
    by_cases hg : g = .root
    · rw [hg, branch_root] at hbranch ⊢
      exact hbranch
    · rw [Layout.branch, if_neg hg] at hbranch ⊢
      rw [← roots_eq_of_standsFor hparts]
      exact branchOver_mono (fun i _ _ => branchOfPart_of_standsFor hparts i) hbranch

end Parts

end Layout

end SimpleSerialize
