import SimpleSerialize.Proofs.Merkle.Layout

/-!
The branches and nodes of a value with a root. At every gindex there are either both or neither, and
a branch and a node prove each other against the root.
-/

namespace SimpleSerialize.Shape

variable {h : HashFunction} {shape : Shape} {v : Value} {root : Root}

theorem opens (hroot : shape.hashTreeRoot h v = .ok root) (g : Gindex) :
    Merkle.Opens h root g ((Layout.of shape v).branch h g) ((Layout.of shape v).node h g) :=
  Layout.opens (Layout.of shape v) hroot g

theorem prove_sound_or_unreachable (hroot : shape.hashTreeRoot h v = .ok root) (g : Gindex) :
    (∃ branch node, shape.prove h v g = .ok branch ∧ shape.nodeRoot h v g = .ok node ∧
      branch.length = g.depth ∧ Merkle.rootFrom h branch g node = .ok root ∧
      Merkle.verify h branch g root node = .ok true) ∨
    (shape.prove h v g = .error (.unreachable g) ∧
      shape.nodeRoot h v g = .error (.unreachable g)) := by
  have hopens := opens hroot g
  unfold prove nodeRoot
  generalize (Layout.of shape v).branch h g = branch? at hopens ⊢
  generalize (Layout.of shape v).node h g = node? at hopens ⊢
  cases hopens with
  | @found branch node hlength hclimb =>
    have hfrom : Merkle.rootFrom h branch g node = .ok root := by
      rw [Merkle.rootFrom, if_pos hlength, hclimb]
    have hverify : Merkle.verify h branch g root node = .ok true := by
      rw [Merkle.verify, hfrom, Except.map, beq_self_eq_true]
    exact .inl ⟨branch, node, rfl, rfl, hlength, hfrom, hverify⟩
  | unreachable g₁ g₂ => exact .inr ⟨rfl, rfl⟩

/-- A list of records that hold lists of byte strings. -/
def registry : Shape := list (container [("id", uint64), ("tags", list (byteList 4) 3)]) 5

def registryValue : Value :=
  .list [.container [.uint .w64 7, .list [.bytes [1, 2]]],
    .container [.uint .w64 8, .list [.bytes [3], .bytes []]]]

/-- The first tag of the second record. -/
def tagGindex : Gindex := ⟨280, by decide, by decide⟩

theorem prove_sound_registry :
    ∃ root branch node, registry.hashTreeRoot .sha256 registryValue = .ok root ∧
      registry.prove .sha256 registryValue tagGindex = .ok branch ∧
      registry.nodeRoot .sha256 registryValue tagGindex = .ok node ∧
      branch.length = tagGindex.depth ∧
      Merkle.rootFrom .sha256 branch tagGindex node = .ok root ∧
      Merkle.verify .sha256 branch tagGindex root node = .ok true := by
  have hroot : registry.hashTreeRoot .sha256 registryValue = .ok _ := rfl
  rcases prove_sound_or_unreachable hroot tagGindex with ⟨branch, node, hfound⟩ | ⟨hprove, -⟩
  · exact ⟨_, branch, node, hroot, hfound⟩
  · cases hprove

end SimpleSerialize.Shape
