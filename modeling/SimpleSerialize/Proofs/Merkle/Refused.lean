import SimpleSerialize.Proofs.Merkle.Verdict
import SimpleSerialize.Proofs.Wire.Overfull

/-!
Values without a root. A walk over such a value finds all leaves first, so it stops at the error
that the root stops at, wherever it leads and wherever the defect is. The one node that is read
without the leaves is the number of elements beside those of a list; nothing is found below it.
-/

namespace SimpleSerialize

namespace Gindex

variable {g : Gindex}

/-- The node that holds the number of elements, beside the elements. -/
def countNode : Gindex := .atDepth 1 1 (by decide) (by decide)

def Below (g top : Gindex) : Prop := ∃ rest, rest ≠ .root ∧ top.concat rest = .ok g

theorem countNode_concat_splitAt (hroot : g ≠ .root) (hright : (g.splitAt 1).1.isLeft = false) :
    countNode.concat (g.splitAt 1).2 = .ok g := by
  have hlevel : 1 ≤ g.depth := Nat.pos_of_ne_zero (mt eq_root_iff.mpr hroot)
  have htop : (g.splitAt 1).1 = countNode := by
    have hdepth := depth_splitAt_fst hlevel
    have hposition := (g.splitAt 1).1.position_lt
    have htoNat := (g.splitAt 1).1.toNat_eq
    rw [hdepth] at hposition htoNat
    rw [isLeft, Bool.and_eq_false_iff, decide_eq_false_iff_not, beq_eq_false_iff_ne] at hright
    apply Gindex.ext
    change (g.splitAt 1).1.toNat = 3
    omega
  rw [← htop]
  exact concat_splitAt hlevel

end Gindex

namespace Layout

variable {h : HashFunction} {layout : Layout} {parts : List Layout} {capacity : Nat}
  {count? : Option Nat} {e : FitError} {g : Gindex}

def counted : Layout → Bool
  | packed _ _ count? | composite _ _ count? => count?.isSome
  | misfit _ => false

theorem counted_of_ifFits {fits : Except FitError Unit}
    (hcounted : (ifFits fits layout).counted = true) : layout.counted = true := by
  cases fits with
  | error e => cases hcounted
  | ok => exact hcounted

theorem counted_of_ofPacked {chunks? : Except FitError (List Root)}
    (hcounted : (ofPacked chunks? capacity count?).counted = true) : count?.isSome = true := by
  cases chunks? with
  | error e => cases hcounted
  | ok chunks => exact hcounted

theorem counted_of_ofItems {element : Shape} {items : List Value}
    (hcounted : (ofItems element items capacity count?).counted = true) :
    count?.isSome = true := by
  unfold ofItems at hcounted
  split at hcounted
  · exact counted_of_ofPacked hcounted
  · exact hcounted

theorem mixesInCount_of_counted {shape : Shape} {v : Value}
    (hcounted : (of shape v).counted = true) : shape.mixesInCount = true := by
  cases shape with
  | byteList _ | bitlist _ | list _ _ => rfl
  | scalar kind =>
    rw [of] at hcounted
    cases counted_of_ofPacked hcounted
  | byteVector length =>
    cases v with
    | bytes bs =>
      rw [of] at hcounted
      cases counted_of_ifFits hcounted
    | _ => cases hcounted
  | bitvector length =>
    cases v with
    | bits bits =>
      rw [of] at hcounted
      cases counted_of_ifFits hcounted
    | _ => cases hcounted
  | vector element length =>
    cases v with
    | vector items =>
      rw [of] at hcounted
      cases counted_of_ofItems (counted_of_ifFits hcounted)
    | _ => cases hcounted
  | container fields =>
    cases v with
    | container values =>
      rw [of] at hcounted
      cases counted_of_ifFits hcounted
    | _ => cases hcounted

theorem root_packed_ne_error {chunks : List Root}
    (hroom : (packed chunks capacity count?).HasRoom) :
    (packed chunks capacity count?).root h ≠ .error e := by
  obtain ⟨root, hroot⟩ : ∃ root, rootOver h chunks capacity count? = .ok root :=
    exists_rootOver hroom
  intro hrefused
  cases hroot.symm.trans hrefused

/-- A tree with room for its leaves has a root as soon as it has its leaves. -/
theorem roots_of_refused (hroom : (composite parts capacity count?).HasRoom)
    (hroot : (composite parts capacity count?).root h = .error e) : roots h parts = .error e := by
  rw [Layout.root] at hroot
  cases hroots : roots h parts with
  | error e' =>
    rw [hroots] at hroot
    exact Except.error.inj hroot ▸ rfl
  | ok leaves =>
    rw [HasRoom, length_of_roots hroots] at hroom
    obtain ⟨root, hover⟩ : ∃ root, rootOver h leaves capacity count? = .ok root :=
      exists_rootOver hroom
    rw [hroots] at hroot
    cases hover.symm.trans hroot

/-- How a walk ends over a value without a root. -/
def EndsRefused {α : Type} (e : FitError) (counted : Bool) (g : Gindex)
    (walk : Except ProofError α) : Prop :=
  walk = .error (.fit e) ∨
    counted = true ∧ g.Below .countNode ∧ ∃ g', walk = .error (.unreachable g')

theorem endsRefused_branchOver (hg : g ≠ .root)
    (descend : Nat → Gindex → Except ProofError (List Root)) :
    EndsRefused e count?.isSome g (branchOver h (.error e) capacity count? g descend) := by
  cases count? with
  | none => exact .inl rfl
  | some count =>
    unfold branchOver
    cases hside : (g.splitAt 1).1.isLeft with
    | true =>
      simp only [hside]
      exact .inl rfl
    | false =>
      simp only [hside, Bool.false_eq_true, if_false]
      by_cases hrest : (g.splitAt 1).2 = .root
      · rw [if_pos hrest]
        exact .inl rfl
      · rw [if_neg hrest]
        exact .inr ⟨rfl, ⟨_, hrest, Gindex.countNode_concat_splitAt hg hside⟩, g, rfl⟩

theorem endsRefused_nodeOver (hg : g ≠ .root) (hcount : ¬(count?.isSome = true ∧ g = .countNode))
    (descend : Nat → Gindex → Except ProofError Root) :
    EndsRefused e count?.isSome g (nodeOver h (.error e) capacity count? g descend) := by
  cases count? with
  | none => exact .inl rfl
  | some count =>
    unfold nodeOver
    cases hside : (g.splitAt 1).1.isLeft with
    | true =>
      simp only [hside, if_true]
      split
      · exact .inl rfl
      · exact .inl rfl
    | false =>
      have hconcat := Gindex.countNode_concat_splitAt hg hside
      simp only [hside, Bool.false_eq_true, if_false]
      by_cases hrest : (g.splitAt 1).2 = .root
      · rw [hrest, Gindex.concat_root] at hconcat
        exact absurd ⟨rfl, (Except.ok.inj hconcat).symm⟩ hcount
      · rw [if_neg hrest]
        exact .inr ⟨rfl, ⟨_, hrest, hconcat⟩, g, rfl⟩

theorem endsRefused_branch (hroom : layout.HasRoom) (hroot : layout.root h = .error e)
    (hg : g ≠ .root) : EndsRefused e layout.counted g (layout.branch h g) := by
  cases layout with
  | packed chunks capacity count? => exact absurd hroot (root_packed_ne_error hroom)
  | composite parts capacity count? =>
    rw [branch, if_neg hg, roots_of_refused hroom hroot]
    exact endsRefused_branchOver hg _
  | misfit e' =>
    cases hroot
    rw [branch, if_neg hg]
    exact .inl rfl

theorem endsRefused_node (hroom : layout.HasRoom) (hroot : layout.root h = .error e)
    (hcount : ¬(layout.counted = true ∧ g = .countNode)) :
    EndsRefused e layout.counted g (layout.node h g) := by
  by_cases hg : g = .root
  · rw [hg, node_root, hroot]
    exact .inl rfl
  cases layout with
  | packed chunks capacity count? => exact absurd hroot (root_packed_ne_error hroom)
  | composite parts capacity count? =>
    rw [node, if_neg hg, roots_of_refused hroom hroot]
    exact endsRefused_nodeOver hg hcount _
  | misfit e' =>
    cases hroot
    exact .inl rfl

end Layout

namespace Shape

variable {h : HashFunction} {shape : Shape} {v : Value} {e : FitError} {g : Gindex}

theorem exists_merkleize {leaves : List Root} {capacity : Nat} {count? : Option Nat}
    (hleaves : Layout.of shape v = .packed leaves capacity count? ∨
      ∃ parts, Layout.of shape v = .composite parts capacity count? ∧
        Layout.roots h parts = .ok leaves) :
    ∃ data, Merkle.merkleize h leaves (some capacity) = .ok data := by
  have hroom := Layout.hasRoom_of shape v
  rcases hleaves with hpacked | ⟨parts, hcomposite, hroots⟩
  · rw [hpacked] at hroom
    exact ⟨_, Layout.merkleize_of_fits hroom⟩
  · rw [hcomposite, Layout.HasRoom, Layout.length_of_roots hroots] at hroom
    exact ⟨_, Layout.merkleize_of_fits hroom⟩

theorem error_of_endsRefused {α : Type} {walk : Except ProofError α}
    (hends : Layout.EndsRefused e (Layout.of shape v).counted g walk) :
    walk.mapError (ProofError.reachedFrom g) = .error (.fit e) ∨
      shape.mixesInCount = true ∧ g.Below .countNode ∧
        walk.mapError (ProofError.reachedFrom g) = .error (.unreachable g) := by
  rcases hends with rfl | ⟨hcounted, hbelow, g', rfl⟩
  · exact .inl rfl
  · exact .inr ⟨Layout.mixesInCount_of_counted hcounted, hbelow, rfl⟩

theorem prove_of_refused (hroot : shape.hashTreeRoot h v = .error e) (hg : g ≠ .root) :
    shape.prove h v g = .error (.fit e) ∨
      shape.mixesInCount = true ∧ g.Below .countNode ∧
        shape.prove h v g = .error (.unreachable g) :=
  error_of_endsRefused (Layout.endsRefused_branch (Layout.hasRoom_of shape v) hroot hg)

theorem nodeRoot_of_refused (hroot : shape.hashTreeRoot h v = .error e)
    (hg : ¬(shape.mixesInCount = true ∧ g = .countNode)) :
    shape.nodeRoot h v g = .error (.fit e) ∨
      shape.mixesInCount = true ∧ g.Below .countNode ∧
        shape.nodeRoot h v g = .error (.unreachable g) := by
  apply error_of_endsRefused
  apply Layout.endsRefused_node (Layout.hasRoom_of shape v) hroot
  intro hcount
  exact hg ⟨Layout.mixesInCount_of_counted hcount.1, hcount.2⟩

/--
A value is written if and only if it has a root, but for offsets, which only what is written has,
and for the size of a head, which a word has to hold: a value is overfull if writing halts, it halts
if the head of the value itself is too large, and nothing overfull is ever written. Once the layout
is found its tree has room, so that nothing but the value is ever refused; and a value that is
refused is refused with one error wherever it is looked at, except for the number of elements beside
those of a list.
-/
theorem encode_agrees_with_root (h : HashFunction) (shape : Shape) (v : Value) :
    (∀ root, shape.hashTreeRoot h v = .ok root →
      (∃ bs, shape.encode v = .ok bs) ∨
        (∃ offset, shape.encode v = .error (.offsetOverflow offset)) ∨
        shape.Overfull v ∧ ∃ halt, shape.encode v = .error (.halted halt)) ∧
    (∀ leaves capacity count?,
      (Layout.of shape v = .packed leaves capacity count? ∨
        ∃ parts, Layout.of shape v = .composite parts capacity count? ∧
          Layout.roots h parts = .ok leaves) →
      ∃ data, Merkle.merkleize h leaves (some capacity) = .ok data) ∧
    (∀ e, shape.hashTreeRoot h v = .error e →
      (shape.encode v = .error e ∨
        (∃ offset, shape.encode v = .error (.offsetOverflow offset)) ∨
        shape.Overfull v ∧ ∃ halt, shape.encode v = .error (.halted halt)) ∧
      (∀ g, g ≠ .root →
        shape.prove h v g = .error (.fit e) ∨
          shape.mixesInCount = true ∧ g.Below .countNode ∧
            shape.prove h v g = .error (.unreachable g)) ∧
      ∀ g, ¬(shape.mixesInCount = true ∧ g = .countNode) →
        shape.nodeRoot h v g = .error (.fit e) ∨
          shape.mixesInCount = true ∧ g.Below .countNode ∧
            shape.nodeRoot h v g = .error (.unreachable g)) ∧
    (∀ entries, shape.written? v = some entries → ¬Series.HeadFits (entries.map Prod.fst) →
      ∃ halt, shape.encode v = .error (.halted halt)) ∧
    (shape.Overfull v → ∃ e, shape.encode v = .error e) := by
  have hverdict := sameVerdict h shape v
  have hoverfull : (∃ halt, shape.encode v = .error (.halted halt)) →
      shape.Overfull v ∧ ∃ halt, shape.encode v = .error (.halted halt) := by
    rintro ⟨halt, hencode⟩
    exact ⟨overfull_of_halted hencode, halt, hencode⟩
  refine ⟨?_, fun _ _ _ => exists_merkleize, ?_, fun _ => encode_halts, exists_error_of_overfull⟩
  · intro root hroot
    exact (hverdict.writes_of_builds hroot).imp_right (.imp_right hoverfull)
  · intro e hroot
    refine ⟨(hverdict.same_error hroot).imp_right (.imp_right hoverfull), ?_, ?_⟩
    · intro g hg
      exact prove_of_refused hroot hg
    · intro g hg
      exact nodeRoot_of_refused hroot hg

/-- A record whose second field is a byte short. -/
def shortTag : Value := .container [.uint .w64 7, .bytes [1, 2, 3]]

/-- The first field is not reached, though it is the second that does not fit. -/
theorem encode_agrees_with_root_off_the_path :
    (container [("id", uint64), ("tag", byteVector 4)]).prove .sha256 shortTag
        (.atDepth 1 0 (by decide) (by decide))
      = .error (.fit (.lengthMismatch 4 3)) := by
  have hagree := encode_agrees_with_root .sha256
    (container [("id", uint64), ("tag", byteVector 4)]) shortTag
  have hprove := (hagree.2.2.1 (.lengthMismatch 4 3) rfl).2.1
    (.atDepth 1 0 (by decide) (by decide)) (by decide)
  apply hprove.resolve_right
  intro hcount
  cases hcount.1

/-- Two elements of half the words each: their head is too large, though each of them is short. -/
theorem encode_halts_before_elements :
    (list (byteVector (2 ^ 63)) 4).Built ∧ (list (byteVector (2 ^ 63)) 4).SizesFit ∧
      (list (byteVector (2 ^ 63)) 4).hashTreeRoot .sha256 (.list [.bytes [], .bytes []])
        = .error (.lengthMismatch (2 ^ 63) 0) ∧
      (list (byteVector (2 ^ 63)) 4).encode (.list [.bytes [], .bytes []])
        = .error (.halted .sum) :=
  ⟨by decide, by decide, rfl, rfl⟩

end Shape

end SimpleSerialize
