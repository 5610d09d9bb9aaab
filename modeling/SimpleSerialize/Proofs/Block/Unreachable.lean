import SimpleSerialize.Proofs.Blob.Inclusion
import SimpleSerialize.Proofs.Merkle.Descent
import SimpleSerialize.Proofs.Merkle.Refused

/-!
Which gindex an unreachable node is named by. A walk hands on gindices relative to the tree that it
is in, so whoever asked for a node has to put back the gindex that was asked for. Values do
(`ProofError.eq_of_reachedFrom`). A block body does so for the tree of its fields and passes on what
it hears from the list of commitments, which names the node by its place in the list
(`BlockBody.prove_eq_unreachable_iff`).
-/

namespace SimpleSerialize

variable {h : HashFunction} {preset : Preset} {g g' : Gindex}

namespace ProofError

theorem eq_of_reachedFrom {α : Type} {walk : Except ProofError α}
    (hwalk : walk.mapError (reachedFrom g) = .error (.unreachable g')) : g' = g := by
  cases walk with
  | ok a => cases hwalk
  | error e =>
    cases e with
    | unreachable _ =>
      cases hwalk
      rfl
    | _ => cases hwalk

end ProofError

theorem Schema.eq_of_prove_eq_unreachable {α : Type} [Schema α] {a : α}
    (hprove : Schema.prove h preset a g = .error (.unreachable g')) : g' = g := by
  rw [Schema.prove] at hprove
  cases hshape : Schema.shape α preset with
  | error e =>
    rw [hshape] at hprove
    cases hprove
  | ok shape =>
    rw [hshape] at hprove
    exact ProofError.eq_of_reachedFrom hprove

namespace Inclusion

variable {rest : Gindex}

theorem standsBelow_field_iff :
    g.StandsBelow BodyTree.depth BodyTree.commitmentsField rest ↔
      rest ≠ .root ∧ field.concat rest = .ok g := by
  constructor
  · intro hbelow
    obtain ⟨top, hslot, hconcat⟩ := hbelow.way
    cases slot_field.symm.trans hslot
    exact ⟨hbelow.rest_ne_root, hconcat⟩
  · rintro ⟨hrest, hconcat⟩
    have hdepth := Gindex.depth_of_concat hconcat
    have hpos : 0 < rest.depth := Nat.pos_of_ne_zero (mt Gindex.eq_root_iff.mpr hrest)
    have hfield : field.depth = BodyTree.depth := (Gindex.ofSlot_eq_ok_iff.mp slot_field).1
    exact ⟨by omega, field, slot_field, hconcat⟩

theorem below_field_iff :
    g.Below field ↔ ∃ rest, g.StandsBelow BodyTree.depth BodyTree.commitmentsField rest := by
  simp only [standsBelow_field_iff, Gindex.Below]

end Inclusion

namespace BlockBody

variable {body : BlockBody}

/-- A node past the fields, or below one of them. -/
def OffTree (g : Gindex) : Prop :=
  BodyTree.fieldCount ≤ g.firstSlot BodyTree.depth ∨ BodyTree.depth < g.depth

theorem fits_of_prove_eq_unreachable
    (hprove : body.prove h preset g = .error (.unreachable g')) : body.Fits preset := by
  rw [BlockBody.prove] at hprove
  cases hleaves : body.leaves h preset with
  | error e =>
    rw [hleaves] at hprove
    cases hprove
  | ok leaves => exact (leaves_eq_ok_iff.mp hleaves).1

/-- Below the list of commitments the body hears from the list, and passes it on. -/
theorem prove_below_field {rest : Gindex} (hfits : body.Fits preset)
    (hbelow : g.StandsBelow BodyTree.depth BodyTree.commitmentsField rest) :
    body.prove h preset g = .error (.unreachable g') ↔
      g' = rest ∧ Schema.prove h preset body.blobKzgCommitments rest
        = .error (.unreachable rest) := by
  rw [prove_of_concat hfits (Inclusion.standsBelow_field_iff.mp hbelow).2]
  cases hprove : Schema.prove h preset body.blobKzgCommitments rest with
  | ok inner => simp [Except.bind]
  | error e =>
    constructor
    · intro hpassed
      cases hpassed
      cases Schema.eq_of_prove_eq_unreachable hprove
      exact ⟨rfl, rfl⟩
    · rintro ⟨rfl, hunreachable⟩
      rw [hunreachable]
      rfl

/-- Everywhere else the body knows the node. -/
theorem prove_off_field (hfits : body.Fits preset) (hbelow : ¬g.Below Inclusion.field) :
    body.prove h preset g = .error (.unreachable g') ↔ g' = g ∧ OffTree g := by
  have hends := Merkle.ends_branchInTree h (body.fields h preset) BodyTree.depth g
  have hcount : (body.fields h preset).length = BodyTree.fieldCount := rfl
  rw [hcount] at hends
  rw [prove_eq_inTree hfits]
  cases Merkle.place BodyTree.fieldCount BodyTree.depth g with
  | past hroot hpast =>
    have hoff : OffTree g := .inl hpast
    rw [hends.past hroot hpast, and_iff_left hoff]
    simp [eq_comm]
  | within hle hthere =>
    rw [hends.within hle hthere]
    refine iff_of_false (by rintro ⟨⟩) ?_
    rintro ⟨-, hpast | hdeeper⟩
    · obtain rfl | hlt := hthere
      · rw [Gindex.firstSlot_root] at hpast
        cases hpast
      · omega
    · omega
  | @below rest hstands hlt =>
    have hfield : g.firstSlot BodyTree.depth ≠ BodyTree.commitmentsField := by
      intro hslot
      rw [hslot] at hstands
      exact hbelow (Inclusion.below_field_iff.mpr ⟨rest, hstands⟩)
    have hoff : OffTree g := .inr hstands.deeper
    rw [hends.below _ _ hstands hlt, if_neg hfield, and_iff_left hoff]
    constructor
    · intro hunreachable
      cases hunreachable
      rfl
    · rintro rfl
      rfl

/--
A node that the body does not reach is named as it was asked for, unless it is below the list of
commitments: there it is named by its place in the list.
-/
theorem prove_eq_unreachable_iff :
    body.prove h preset g = .error (.unreachable g') ↔
      body.Fits preset ∧
        (g' = g ∧ OffTree g ∧ ¬g.Below Inclusion.field ∨
          g' ≠ .root ∧ Inclusion.field.concat g' = .ok g ∧
            Schema.prove h preset body.blobKzgCommitments g' = .error (.unreachable g')) := by
  by_cases hfits : body.Fits preset
  · rw [and_iff_right hfits]
    by_cases hbelow : g.Below Inclusion.field
    · obtain ⟨rest, hstands⟩ := Inclusion.below_field_iff.mp hbelow
      obtain ⟨hrest, hconcat⟩ := Inclusion.standsBelow_field_iff.mp hstands
      rw [prove_below_field hfits hstands, or_iff_right (fun hoff => hoff.2.2 hbelow)]
      constructor
      · rintro ⟨rfl, hprove⟩
        exact ⟨hrest, hconcat, hprove⟩
      · rintro ⟨hne, hconcat', hprove⟩
        have hstands' := Inclusion.standsBelow_field_iff.mpr ⟨hne, hconcat'⟩
        obtain ⟨-, rfl⟩ := hstands.unique hstands'
        exact ⟨rfl, hprove⟩
    · rw [prove_off_field hfits hbelow, and_iff_left hbelow, or_iff_left]
      rintro ⟨hne, hconcat, -⟩
      exact hbelow ⟨g', hne, hconcat⟩
  · refine iff_of_false (fun hprove => ?_) (fun hnamed => hfits hnamed.1)
    exact hfits (fits_of_prove_eq_unreachable hprove)

/--
The unreachable node that is reported is the one that was asked for, for the branches and the nodes
of every value and for the branches of every typed value. For those of a block body it is, too,
except below the list of commitments. There it is always another one: the same place, counted from
the list.
-/
theorem unreachable_named_as_asked_but_below_list (h : HashFunction) (g : Gindex) :
    (∀ (shape : Shape) (v : Value) (g' : Gindex),
      shape.prove h v g = .error (.unreachable g') → g' = g) ∧
    (∀ (shape : Shape) (v : Value) (g' : Gindex),
      shape.nodeRoot h v g = .error (.unreachable g') → g' = g) ∧
    (∀ (α : Type) [Schema α] (preset : Preset) (a : α) (g' : Gindex),
      Schema.prove h preset a g = .error (.unreachable g') → g' = g) ∧
    (∀ (body : BlockBody) (preset : Preset) (g' : Gindex),
      body.prove h preset g = .error (.unreachable g') ↔
        body.Fits preset ∧
          (g' = g ∧ OffTree g ∧ ¬g.Below Inclusion.field ∨
            g' ≠ .root ∧ Inclusion.field.concat g' = .ok g ∧
              Schema.prove h preset body.blobKzgCommitments g' = .error (.unreachable g'))) ∧
    ∀ g', Inclusion.field.concat g' = .ok g → g' ≠ g := by
  refine ⟨?_, ?_, ?_, fun body preset g' => prove_eq_unreachable_iff, ?_⟩
  · intro shape v g' hprove
    exact ProofError.eq_of_reachedFrom hprove
  · intro shape v g' hnode
    exact ProofError.eq_of_reachedFrom hnode
  · intro α _ preset a g' hprove
    exact Schema.eq_of_prove_eq_unreachable hprove
  · rintro g' hconcat rfl
    have hdepth := Gindex.depth_of_concat hconcat
    have hfield : Inclusion.field.depth = 4 := by decide +kernel
    omega

theorem fits_default : (default : BlockBody).Fits .minimal := ⟨by decide, by decide⟩

/-- A node below the third field. -/
def belowGraffitiGindex : Gindex := ⟨36, by decide, by decide⟩

theorem unreachable_named_as_asked_below_graffiti :
    (default : BlockBody).Fits .minimal ∧
      (default : BlockBody).prove .sha256 .minimal belowGraffitiGindex
        = .error (.unreachable belowGraffitiGindex) := by
  have hoff : OffTree belowGraffitiGindex := .inr (by decide +kernel)
  have hfield : ¬belowGraffitiGindex.Below Inclusion.field := by
    intro hbelow
    obtain ⟨rest, hstands⟩ := Inclusion.below_field_iff.mp hbelow
    have hslot : belowGraffitiGindex.firstSlot BodyTree.depth = 2 := by decide +kernel
    cases hstands.slot_eq.trans hslot
  obtain ⟨-, -, -, hbody, -⟩ :=
    unreachable_named_as_asked_but_below_list .sha256 belowGraffitiGindex
  exact ⟨fits_default, (hbody _ _ _).mpr ⟨fits_default, .inl ⟨rfl, hoff, hfield⟩⟩⟩

/-- A node below the number of commitments. -/
def belowCountGindex : Gindex := ⟨110, by decide, by decide⟩

/-- The same node, counted from the list. -/
def belowCountInList : Gindex := (belowCountGindex.splitAt BodyTree.depth).2

/-- Nothing is below the number of commitments, and the body names another node as unreachable. -/
theorem unreachable_below_count_misnamed :
    (default : BlockBody).prove .sha256 .minimal belowCountGindex
        = .error (.unreachable belowCountInList) ∧
      belowCountInList.toNat = 6 ∧ belowCountInList ≠ belowCountGindex := by
  have hconcat : Inclusion.field.concat belowCountInList = .ok belowCountGindex := rfl
  refine ⟨?_, rfl, by decide +kernel⟩
  rw [prove_of_concat fits_default hconcat, Inclusion.prove_eq fits_default,
    Inclusion.layout_commitments fits_default.length_le]
  rfl

end BlockBody

end SimpleSerialize
