import SimpleSerialize.Proofs.Merkle.Plain
import SimpleSerialize.Proofs.Wire.Sequence

/-!
Writing a value and building its tree go over the same parts in the same order, each with checks of
its own. They agree on every value (`Shape.sameVerdict`): both accept it, or both stop at the same
error, except that only what is written has offsets, and a head that a word has to hold the size of.
The leaves found for a tree always have room in it (`Layout.hasRoom_of`), so a root fails for
nothing but the value.
-/

namespace SimpleSerialize

variable {α β γ δ : Type}

/-- How writing a value comes out beside building its tree. -/
inductive SameVerdict : Except FitError α → Except FitError β → Prop
  | accepted (written : α) (built : β) : SameVerdict (.ok written) (.ok built)
  | refused (e : FitError) : SameVerdict (.error e) (.error e)
  | overflow (offset : Nat) (building : Except FitError β) :
    SameVerdict (.error (.offsetOverflow offset)) building
  | halted (halt : Halt) (building : Except FitError β) :
    SameVerdict (.error (.halted halt)) building

namespace SameVerdict

variable {writing : Except FitError α} {building : Except FitError β}
  {write : α → Except FitError γ} {build : β → Except FitError δ}

theorem refl (writing : Except FitError α) : SameVerdict writing writing := by
  cases writing with
  | error e => exact .refused e
  | ok written => exact .accepted written written

theorem bind (hfirst : SameVerdict writing building)
    (hrest : ∀ written built, writing = .ok written → building = .ok built →
      SameVerdict (write written) (build built)) :
    SameVerdict (writing >>= write) (building >>= build) := by
  cases hfirst with
  | accepted written built => exact hrest written built rfl rfl
  | refused e => exact .refused e
  | overflow offset => exact .overflow offset _
  | halted halt => exact .halted halt _

theorem writes_of_builds (hverdict : SameVerdict writing building) {built : β}
    (hbuilds : building = .ok built) :
    (∃ written, writing = .ok written) ∨ (∃ offset, writing = .error (.offsetOverflow offset)) ∨
      ∃ halt, writing = .error (.halted halt) := by
  cases hverdict with
  | accepted written => exact .inl ⟨written, rfl⟩
  | refused e => cases hbuilds
  | overflow offset => exact .inr (.inl ⟨offset, rfl⟩)
  | halted halt => exact .inr (.inr ⟨halt, rfl⟩)

theorem same_error (hverdict : SameVerdict writing building) {e : FitError}
    (hfails : building = .error e) :
    writing = .error e ∨ (∃ offset, writing = .error (.offsetOverflow offset)) ∨
      ∃ halt, writing = .error (.halted halt) := by
  cases hverdict with
  | accepted written => cases hfails
  | refused e' =>
    cases hfails
    exact .inl rfl
  | overflow offset => exact .inr (.inl ⟨offset, rfl⟩)
  | halted halt => exact .inr (.inr ⟨halt, rfl⟩)

end SameVerdict

namespace Series

variable {size? : α → Option Nat} {part : α → Shape} {content : α → Except FitError Bytes}
  {build : α → Except FitError β} {finish : List β → Except FitError γ} {xs : List α}

/-- An offset can overflow before any part; apart from that the first part refused decides. -/
theorem sameVerdict_layOut (hparts : ∀ x ∈ xs, SameVerdict (content x) (build x)) (offset : Nat) :
    SameVerdict (layOut offset (xs.map fun x => ⟨size? x, content x⟩)) (xs.mapM build) := by
  induction xs generalizing offset with
  | nil => exact .accepted _ _
  | cons x xs ih =>
    rw [List.forall_mem_cons] at hparts
    rw [List.map_cons, List.mapM_cons]
    cases size? x with
    | some size =>
      rw [layOut]
      apply hparts.1.bind
      intro bs built _ _
      apply (ih hparts.2 offset).bind
      intro laid rest _ _
      exact .accepted _ _
    | none =>
      rw [layOut]
      split
      · apply hparts.1.bind
        intro bs built _ _
        apply (ih hparts.2 (offset + bs.length)).bind
        intro laid rest _ _
        exact .accepted _ _
      · exact .overflow offset _

/-- Nothing is checked of a part before the size of the head is there. -/
theorem sameVerdict_write (hparts : ∀ x ∈ xs, SameVerdict (content x) (build x))
    (hfinish : ∀ built, xs.mapM build = .ok built → ∃ c, finish built = .ok c) :
    SameVerdict
      ((xs.mapM fun x => Entry.ofShape (part x) (content x)).mapError .halted >>= write)
      (xs.mapM build >>= finish) := by
  cases hentries : xs.mapM fun x => Entry.ofShape (part x) (content x) with
  | error halt => exact .halted halt _
  | ok entries =>
    obtain ⟨-, rfl⟩ := Shape.mapM_ofShape_eq_ok_iff.mp hentries
    rw [mapError_ok, ok_bind, write]
    cases headSize (xs.map fun x => ⟨(part x).exactSize?, content x⟩) with
    | error halt => exact .halted halt _
    | ok head =>
      apply (sameVerdict_layOut hparts head).bind
      intro laid built _ hbuilt
      obtain ⟨c, hc⟩ := hfinish built hbuilt
      rw [hc]
      exact .accepted _ _

end Series

namespace Layout

variable {h : HashFunction} {leaves : List Root} {capacity limit : Nat} {count? : Option Nat}
  {fits : Except FitError Unit} {layout : Layout} {element : Shape} {items : List Value}

/-- The leaves are no more than the tree has room for. -/
def HasRoom : Layout → Prop
  | packed chunks capacity _ => chunks.length ≤ capacity
  | composite parts capacity _ => parts.length ≤ capacity
  | misfit _ => True

theorem hasRoom_ifFits (hroom : fits = .ok () → layout.HasRoom) : (ifFits fits layout).HasRoom := by
  cases fits with
  | error e => trivial
  | ok => exact hroom rfl

theorem hasRoom_ofPacked {chunks? : Except FitError (List Root)}
    (hroom : ∀ chunks, chunks? = .ok chunks → chunks.length ≤ capacity) :
    (ofPacked chunks? capacity count?).HasRoom := by
  cases chunks? with
  | error e => trivial
  | ok chunks => exact hroom chunks rfl

theorem hasRoom_ofItems (hle : items.length ≤ limit) :
    (ofItems element items (element.leafCount limit) count?).HasRoom := by
  have hcapacity : element.leafCount items.length ≤ element.leafCount limit := leafCount_mono hle
  cases hscalar : element.scalar? with
  | some kind =>
    simp only [ofItems, Shape.leafCount, hscalar] at hcapacity ⊢
    apply hasRoom_ofPacked
    intro chunks hchunks
    rwa [length_packElements hchunks]
  | none =>
    rw [ofItems_composite hscalar, HasRoom, List.length_map]
    simpa only [Shape.leafCount, hscalar] using hle

/-- What is checked of a value bounds its leaves by those that its shape allows. -/
theorem hasRoom_of (shape : Shape) (v : Value) : (of shape v).HasRoom := by
  cases shape with
  | scalar kind =>
    rw [of]
    apply hasRoom_ofPacked
    intro chunks hchunks
    obtain ⟨bs, hencode, rfl⟩ := map_eq_ok_iff.mp hchunks
    rw [Merkle.length_pack, Scalar.length_of_encode hencode]
    exact Nat.le_of_eq kind.ceilDiv_size
  | byteVector length =>
    cases v with
    | bytes bs =>
      rw [of]
      apply hasRoom_ifFits
      intro hlength
      rw [HasRoom, Merkle.length_pack]
      exact Bytes.ceilDiv_mono (Nat.le_of_eq (requireLength_eq_ok_iff.mp hlength)) _
    | _ => trivial
  | byteList limit =>
    cases v with
    | bytes bs =>
      rw [of]
      apply hasRoom_ifFits
      intro hlimit
      rw [HasRoom, Merkle.length_pack]
      exact Bytes.ceilDiv_mono (requireCapacity_eq_ok_iff.mp hlimit) _
    | _ => trivial
  | bitvector length =>
    cases v with
    | bits bits =>
      rw [of]
      apply hasRoom_ifFits
      intro hlength
      rw [HasRoom, Merkle.length_packBits]
      exact Bytes.ceilDiv_mono (Nat.le_of_eq (requireLength_eq_ok_iff.mp hlength)) _
    | _ => trivial
  | bitlist limit =>
    cases v with
    | bits bits =>
      rw [of]
      apply hasRoom_ifFits
      intro hlimit
      rw [HasRoom, Merkle.length_packBits]
      exact Bytes.ceilDiv_mono (requireCapacity_eq_ok_iff.mp hlimit) _
    | _ => trivial
  | vector element length =>
    cases v with
    | vector items =>
      rw [of]
      apply hasRoom_ifFits
      intro hlength
      exact hasRoom_ofItems (Nat.le_of_eq (requireLength_eq_ok_iff.mp hlength))
    | _ => trivial
  | list element limit =>
    cases v with
    | list items =>
      rw [of]
      apply hasRoom_ifFits
      intro hlimit
      exact hasRoom_ofItems (requireCapacity_eq_ok_iff.mp hlimit)
    | _ => trivial
  | container fields =>
    cases v with
    | container values =>
      rw [of, ofFields_eq_map_zip]
      apply hasRoom_ifFits
      intro hlength
      rw [HasRoom, List.length_map, List.length_zip]
      exact Nat.min_le_left _ _
    | _ => trivial

theorem exists_rootOver (hroom : leaves.length ≤ capacity) :
    ∃ root, rootOver h leaves capacity count? = .ok root :=
  ⟨_, rootOver_eq_ok_iff.mpr ⟨hroom, rfl⟩⟩

theorem root_ofPacked (chunks? : Except FitError (List Root)) :
    (ofPacked chunks? capacity count?).root h
      = chunks? >>= fun chunks => rootOver h chunks capacity count? := by
  cases chunks? <;> rfl

theorem roots_map (part : α → Layout) (xs : List α) :
    roots h (xs.map part) = xs.mapM fun x => (part x).root h := by
  induction xs with
  | nil => rfl
  | cons x xs ih => rw [List.map_cons, roots, List.mapM_cons, ih]

section Verdict

variable {writing : Except FitError Bytes}

theorem sameVerdict_packed {bs : Bytes} (hroom : (packed leaves capacity count?).HasRoom) :
    SameVerdict (.ok bs) ((packed leaves capacity count?).root h) := by
  obtain ⟨root, hroot⟩ : ∃ root, rootOver h leaves capacity count? = .ok root :=
    exists_rootOver hroom
  rw [Layout.root, hroot]
  exact .accepted bs root

theorem sameVerdict_ifFits (hroom : (ifFits fits layout).HasRoom)
    (hlayout : layout.HasRoom → SameVerdict writing (layout.root h)) :
    SameVerdict (fits >>= fun _ => writing) ((ifFits fits layout).root h) := by
  cases fits with
  | error e => exact .refused e
  | ok => exact hlayout hroom

theorem sameVerdict_composite {shape : α → Shape} {part : α → Layout}
    {content : α → Except FitError Bytes} {xs : List α}
    (hparts : ∀ x ∈ xs, SameVerdict (content x) ((part x).root h))
    (hroom : (composite (xs.map part) capacity count?).HasRoom) :
    SameVerdict
      ((xs.mapM fun x => Entry.ofShape (shape x) (content x)).mapError .halted >>= Series.write)
      ((composite (xs.map part) capacity count?).root h) := by
  rw [Layout.root, roots_map]
  apply Series.sameVerdict_write hparts
  intro built hbuilt
  have hroots : roots h (xs.map part) = .ok built := (roots_map part xs).trans hbuilt
  rw [HasRoom, length_of_roots hroots] at hroom
  exact exists_rootOver hroom

theorem sameVerdict_ofItems
    (hitems : ∀ item ∈ items, SameVerdict (element.encode item) ((of element item).root h))
    (hroom : (ofItems element items capacity count?).HasRoom) :
    SameVerdict
      ((items.mapM fun item => Entry.ofShape element (element.encode item)).mapError .halted >>=
        Series.write)
      ((ofItems element items capacity count?).root h) := by
  cases hscalar : element.scalar? with
  | some kind =>
    obtain rfl := Shape.scalar?_eq_some_iff.mp hscalar
    -- Scalars have no leaf of their own: what is built of each is its encoding.
    have hsame : ∀ item ∈ items, SameVerdict ((Shape.scalar kind).encode item)
        (kind.encode item) := by
      intro item _
      rw [Shape.encode]
      exact .refl _
    have hroot : (ofItems (.scalar kind) items capacity count?).root h
        = items.mapM kind.encode >>= fun encodings =>
            rootOver h (Merkle.pack encodings.flatten) capacity count? := by
      rw [ofItems, hscalar]
      simp only [root_ofPacked, packElements]
      cases items.mapM kind.encode <;> rfl
    rw [hroot]
    apply Series.sameVerdict_write hsame
    intro encodings hencodings
    apply exists_rootOver
    rwa [ofItems_scalar (by rw [packElements, hencodings]; rfl)] at hroom
  | none =>
    rw [ofItems_composite hscalar] at hroom ⊢
    exact sameVerdict_composite hitems hroom

end Verdict

end Layout

namespace Shape

/-- Writing a value and building its tree agree, kind by kind. -/
theorem sameVerdict (h : HashFunction) (shape : Shape) (v : Value) :
    SameVerdict (shape.encode v) ((Layout.of shape v).root h) := by
  induction shape using Shape.induction_on_parts generalizing v with
  | step shape ih =>
    have hroom := Layout.hasRoom_of shape v
    cases shape with
    | scalar kind =>
      rw [encode]
      rw [Layout.of] at hroom ⊢
      cases hencode : kind.encode v with
      | error e => exact .refused e
      | ok bs =>
        rw [hencode] at hroom
        exact Layout.sameVerdict_packed hroom
    | byteVector length =>
      cases v with
      | bytes bs =>
        rw [Layout.of] at hroom ⊢
        exact Layout.sameVerdict_ifFits hroom Layout.sameVerdict_packed
      | _ => exact .refused _
    | byteList limit =>
      cases v with
      | bytes bs =>
        rw [Layout.of] at hroom ⊢
        exact Layout.sameVerdict_ifFits hroom Layout.sameVerdict_packed
      | _ => exact .refused _
    | bitvector length =>
      cases v with
      | bits bits =>
        rw [Layout.of] at hroom ⊢
        exact Layout.sameVerdict_ifFits hroom Layout.sameVerdict_packed
      | _ => exact .refused _
    | bitlist limit =>
      cases v with
      | bits bits =>
        rw [Layout.of] at hroom ⊢
        exact Layout.sameVerdict_ifFits hroom Layout.sameVerdict_packed
      | _ => exact .refused _
    | vector element length =>
      cases v with
      | vector items =>
        rw [Layout.of] at hroom ⊢
        apply Layout.sameVerdict_ifFits hroom
        exact Layout.sameVerdict_ofItems fun item _ => ih element (by simp) item
      | _ => exact .refused _
    | list element limit =>
      cases v with
      | list items =>
        rw [Layout.of] at hroom ⊢
        apply Layout.sameVerdict_ifFits hroom
        exact Layout.sameVerdict_ofItems fun item _ => ih element (by simp) item
      | _ => exact .refused _
    | container fields =>
      cases v with
      | container values =>
        rw [encode, encodeFields_eq_mapM]
        rw [Layout.of, Layout.ofFields_eq_map_zip] at hroom ⊢
        apply Layout.sameVerdict_ifFits hroom
        apply Layout.sameVerdict_composite
        intro entry hentry
        exact ih entry.1.2 (List.mem_map_of_mem (List.of_mem_zip hentry).1) entry.2
      | _ => exact .refused _

end Shape

end SimpleSerialize
