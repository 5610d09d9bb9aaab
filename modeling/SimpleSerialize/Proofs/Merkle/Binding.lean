import SimpleSerialize.Proofs.Merkle.Hashed
import SimpleSerialize.Proofs.Merkle.Rooted

/-!
The root determines the value, as long as the hash function tells apart the pairs hashed for it.
Two trees with the same root are walked down in step: each pair on one side is the pair at the same
place on the other, so the leaves are the same. How many leaves there are is known from the shape,
or from the count beside them.
-/

namespace SimpleSerialize

namespace Merkle

variable {h : HashFunction} {zero : Root} {pairs : List (Root × Root)}

theorem length_pairUp (layer : List Root) :
    (pairUp h zero layer).length = (layer.length + 1) / 2 := by
  induction layer using layerPairs.induct with
  | case1 => rfl
  | case2 node =>
    rw [pairUp, List.length_singleton, List.length_singleton]
  | case3 left right nodes ih =>
    rw [pairUp, List.length_cons, ih, List.length_cons, List.length_cons]
    omega

variable (hinj : h.InjectiveOn pairs)

include hinj

theorem pairUp_injective {as bs : List Root} (hlength : as.length = bs.length)
    (has : layerPairs zero as ⊆ pairs) (hbs : layerPairs zero bs ⊆ pairs)
    (hlayer : pairUp h zero as = pairUp h zero bs) : as = bs := by
  induction as using layerPairs.induct generalizing bs with
  | case1 => exact (List.length_eq_zero_iff.mp hlength.symm).symm
  | case2 node =>
    obtain ⟨node', rfl⟩ := List.length_eq_one_iff.mp hlength.symm
    rw [pairUp, pairUp, List.cons.injEq] at hlayer
    cases hinj _ (has List.mem_cons_self) _ (hbs List.mem_cons_self) hlayer.1
    rfl
  | case3 left right nodes ih =>
    obtain _ | ⟨left', _ | ⟨right', nodes'⟩⟩ := bs
    · cases hlength
    · cases hlength
    · rw [layerPairs, List.cons_subset] at has hbs
      rw [pairUp, pairUp, List.cons.injEq] at hlayer
      cases hinj _ has.1 _ hbs.1 hlayer.1
      rw [ih (by simpa using hlength) has.2 hbs.2 hlayer.2]

theorem foldUp_injective {levels : Nat} {as bs : List Root} (hlength : as.length = bs.length)
    (hroom : as.length ≤ 2 ^ levels) (has : foldPairs h zero levels as ⊆ pairs)
    (hbs : foldPairs h zero levels bs ⊆ pairs)
    (hroot : foldUp h zero levels as = foldUp h zero levels bs) : as = bs := by
  induction levels generalizing zero as bs with
  | zero =>
    match as, bs with
    | [], [] => rfl
    | [a], [b] => exact congrArg (fun node => [node]) hroot
    | [], _ :: _ => cases hlength
    | [_], [] => cases hlength
    | [_], _ :: _ :: _ => simp at hlength
    | _ :: _ :: _, _ => simp at hroom
  | succ levels ih =>
    rw [foldPairs, List.append_subset, List.cons_subset] at has hbs
    apply pairUp_injective hinj hlength has.1.2 hbs.1.2
    apply ih _ _ has.2 hbs.2 hroot
    · rw [length_pairUp, length_pairUp, hlength]
    · rw [length_pairUp]
      rw [Nat.pow_succ] at hroom
      omega

omit hinj

theorem countRoot_injective {m n : Nat} (hm : m < wordBound) (hn : n < wordBound)
    (hcount : countRoot m = countRoot n) : m = n := by
  have hwide : wordBound < 256 ^ 32 := by decide
  have hread := congrArg (fun root : Root => Bytes.ofLittleEndian root.toList) hcount
  simp only [countRoot, FixedBytes.ofNat] at hread
  rwa [Bytes.ofLittleEndian_littleEndian (by omega),
    Bytes.ofLittleEndian_littleEndian (by omega)] at hread

end Merkle

namespace Layout

variable {h : HashFunction} {pairs : List (Root × Root)} {root : Root}
  {leaves leaves' : List Root} {capacity : Nat} {count? : Option Nat} {m n : Nat}

theorem pairsOver_of_fits (hfits : leaves.length ≤ capacity) :
    pairsOver h leaves capacity count?
      = Merkle.foldPairs h .zero (coverDepth capacity) leaves ++
        match count? with
        | some count =>
          [(Merkle.foldUp h .zero (coverDepth capacity) leaves, Merkle.countRoot count)]
        | none => [] := by
  unfold pairsOver Merkle.merkleizePairs
  rw [if_pos hfits, merkleize_of_fits hfits]
  cases count? <;> rfl

theorem pairs_composite {parts : List Layout} (hroots : roots h parts = .ok leaves) :
    (composite parts capacity count?).pairs h
      = pairsOfParts h parts ++ pairsOver h leaves capacity count? := by
  rw [Layout.pairs, hroots]

theorem pairs_subset_pairsOfParts {parts : List Layout} (hroots : roots h parts = .ok leaves) :
    ∀ part ∈ parts, part.pairs h ⊆ pairsOfParts h parts := by
  induction parts generalizing leaves with
  | nil =>
    intro part hpart
    cases hpart
  | cons first parts ih =>
    simp only [roots, bind_eq_ok_iff] at hroots
    obtain ⟨leaf, hleaf, rest, hrest, -⟩ := hroots
    rw [pairsOfParts, hleaf, List.forall_mem_cons]
    refine ⟨List.subset_append_left _ _, ?_⟩
    intro part hpart
    exact List.Subset.trans (ih hrest part hpart) (List.subset_append_right _ _)

/-- With a count, the last pair hashed holds the count. -/
theorem exists_data_of_rootOver (hroot : rootOver h leaves capacity (some n) = .ok root) :
    ∃ data, (data, Merkle.countRoot n) ∈ pairsOver h leaves capacity (some n) ∧
      h.pair data (Merkle.countRoot n) = root := by
  obtain ⟨hfits, rfl⟩ := rootOver_eq_ok_iff.mp hroot
  refine ⟨Merkle.foldUp h .zero (coverDepth capacity) leaves, ?_, rfl⟩
  rw [pairsOver_of_fits hfits]
  exact List.mem_append_right _ (List.mem_singleton_self _)

/-- The number of elements, where the layout holds one. -/
def elementCount? : Layout → Option Nat
  | packed _ _ count? | composite _ _ count? => count?
  | misfit _ => none

theorem elementCount?_ofItems {element : Shape} {items : List Value}
    (hroot : (ofItems element items capacity count?).root h = .ok root) :
    (ofItems element items capacity count?).elementCount? = count? := by
  cases hscalar : element.scalar? with
  | some kind =>
    obtain rfl := Shape.scalar?_eq_some_iff.mp hscalar
    obtain ⟨chunks, hchunks⟩ := exists_chunks_of_root hroot
    rw [ofItems_scalar hchunks]
    rfl
  | none =>
    rw [ofItems_composite hscalar]
    rfl

theorem exists_data_of_root {layout : Layout} (hcount : layout.elementCount? = some n)
    (hroot : layout.root h = .ok root) :
    ∃ data, (data, Merkle.countRoot n) ∈ layout.pairs h ∧
      h.pair data (Merkle.countRoot n) = root := by
  match layout with
  | packed chunks capacity count? =>
    cases hcount
    exact exists_data_of_rootOver hroot
  | composite parts capacity count? =>
    cases hcount
    simp only [Layout.root, bind_eq_ok_iff] at hroot
    obtain ⟨leaves, hroots, hover⟩ := hroot
    obtain ⟨data, hdata, hpair⟩ := exists_data_of_rootOver hover
    rw [pairs_composite hroots]
    exact ⟨data, List.mem_append_right _ hdata, hpair⟩
  | misfit e => cases hcount

variable (hinj : h.InjectiveOn pairs)

include hinj

theorem leaves_eq_of_rootOver (hlength : leaves.length = leaves'.length)
    (hpairs : pairsOver h leaves capacity count? ⊆ pairs)
    (hpairs' : pairsOver h leaves' capacity count? ⊆ pairs)
    (hroot : rootOver h leaves capacity count? = .ok root)
    (hroot' : rootOver h leaves' capacity count? = .ok root) : leaves = leaves' := by
  obtain ⟨hfits, hroot⟩ := rootOver_eq_ok_iff.mp hroot
  obtain ⟨hfits', hroot'⟩ := rootOver_eq_ok_iff.mp hroot'
  rw [pairsOver_of_fits hfits, List.append_subset] at hpairs
  rw [pairsOver_of_fits hfits', List.append_subset] at hpairs'
  have hroom := Nat.le_trans hfits (le_two_pow_coverDepth capacity)
  apply Merkle.foldUp_injective hinj hlength hroom hpairs.1 hpairs'.1
  rw [hroot] at hroot'
  cases count? with
  | none => exact hroot'
  | some count =>
    have hlast := hinj _ (hpairs.2 (List.mem_singleton_self _)) _
      (hpairs'.2 (List.mem_singleton_self _)) hroot'
    exact congrArg Prod.fst hlast

/-- Layouts of the same root hold the same number of elements. -/
theorem count_eq_of_root {layout layout' : Layout} (hm : m < wordBound) (hn : n < wordBound)
    (hcount : layout.elementCount? = some m) (hcount' : layout'.elementCount? = some n)
    (hpairs : layout.pairs h ⊆ pairs) (hpairs' : layout'.pairs h ⊆ pairs)
    (hroot : layout.root h = .ok root) (hroot' : layout'.root h = .ok root) : m = n := by
  obtain ⟨data, hdata, hpair⟩ := exists_data_of_root hcount hroot
  obtain ⟨data', hdata', hpair'⟩ := exists_data_of_root hcount' hroot'
  have hlast := hinj _ (hpairs hdata) _ (hpairs' hdata') (hpair.trans hpair'.symm)
  exact Merkle.countRoot_injective hm hn (congrArg Prod.snd hlast)

theorem packed_injective {α : Type} {pack : List α → List Root} (hpack : Merkle.PacksApart pack)
    {as bs : List α} (hlength : as.length = bs.length)
    (hpairs : (packed (pack as) capacity count?).pairs h ⊆ pairs)
    (hpairs' : (packed (pack bs) capacity count?).pairs h ⊆ pairs)
    (hroot : (packed (pack as) capacity count?).root h = .ok root)
    (hroot' : (packed (pack bs) capacity count?).root h = .ok root) : as = bs := by
  obtain ⟨hchunks, happart⟩ := hpack hlength
  exact happart (leaves_eq_of_rootOver hinj hchunks hpairs hpairs' hroot hroot')

/-- Where the count is hashed beside the chunks, it need not be the same from the start. -/
theorem packed_injective_of_count {α : Type} {pack : List α → List Root}
    (hpack : Merkle.PacksApart pack) {as bs : List α} (hm : as.length < wordBound)
    (hn : bs.length < wordBound)
    (hpairs : (packed (pack as) capacity (some as.length)).pairs h ⊆ pairs)
    (hpairs' : (packed (pack bs) capacity (some bs.length)).pairs h ⊆ pairs)
    (hroot : (packed (pack as) capacity (some as.length)).root h = .ok root)
    (hroot' : (packed (pack bs) capacity (some bs.length)).root h = .ok root) : as = bs := by
  have hlength := count_eq_of_root hinj hm hn rfl rfl hpairs hpairs' hroot hroot'
  rw [hlength] at hpairs hroot
  exact packed_injective hinj hpack hlength hpairs hpairs' hroot hroot'

theorem composite_injective {α : Type} {part : α → Layout} {entries entries' : List α}
    (hlength : entries.length = entries'.length)
    (hpart : ∀ (i : Nat) entry entry' leaf, entries[i]? = some entry → entries'[i]? = some entry' →
      (part entry).pairs h ⊆ pairs → (part entry').pairs h ⊆ pairs →
      (part entry).root h = .ok leaf → (part entry').root h = .ok leaf → entry = entry')
    (hpairs : (composite (entries.map part) capacity count?).pairs h ⊆ pairs)
    (hpairs' : (composite (entries'.map part) capacity count?).pairs h ⊆ pairs)
    (hroot : (composite (entries.map part) capacity count?).root h = .ok root)
    (hroot' : (composite (entries'.map part) capacity count?).root h = .ok root) :
    entries = entries' := by
  simp only [Layout.root, bind_eq_ok_iff] at hroot hroot'
  obtain ⟨leaves, hroots, hover⟩ := hroot
  obtain ⟨leaves', hroots', hover'⟩ := hroot'
  rw [pairs_composite hroots, List.append_subset] at hpairs
  rw [pairs_composite hroots', List.append_subset] at hpairs'
  have hparts := pairs_subset_pairsOfParts hroots
  have hparts' := pairs_subset_pairsOfParts hroots'
  rw [List.forall_mem_map] at hparts hparts'
  rw [roots_eq_ok_iff, List.map_map] at hroots hroots'
  have hleaves : leaves = leaves' := by
    apply leaves_eq_of_rootOver hinj _ hpairs.2 hpairs'.2 hover hover'
    have hcount := congrArg List.length hroots
    have hcount' := congrArg List.length hroots'
    simp only [List.length_map] at hcount hcount'
    omega
  rw [← hleaves] at hroots'
  refine eq_of_map_eq_ok hroots hroots' ?_
  intro i entry entry' leaf hentry hentry' hleaf hleaf'
  have hsub := hparts entry (List.mem_of_getElem? hentry)
  have hsub' := hparts' entry' (List.mem_of_getElem? hentry')
  exact hpart i entry entry' leaf hentry hentry' (List.Subset.trans hsub hpairs.1)
    (List.Subset.trans hsub' hpairs'.1) hleaf hleaf'

theorem ofItems_injective {element : Shape} {items items' : List Value}
    (hlength : items.length = items'.length)
    (helement : ∀ item item' leaf, (of element item).pairs h ⊆ pairs →
      (of element item').pairs h ⊆ pairs → (of element item).root h = .ok leaf →
      (of element item').root h = .ok leaf → item = item')
    (hpairs : (ofItems element items capacity count?).pairs h ⊆ pairs)
    (hpairs' : (ofItems element items' capacity count?).pairs h ⊆ pairs)
    (hroot : (ofItems element items capacity count?).root h = .ok root)
    (hroot' : (ofItems element items' capacity count?).root h = .ok root) : items = items' := by
  cases hscalar : element.scalar? with
  | some kind =>
    obtain rfl := Shape.scalar?_eq_some_iff.mp hscalar
    obtain ⟨chunks, hchunks⟩ := exists_chunks_of_root hroot
    obtain ⟨chunks', hchunks'⟩ := exists_chunks_of_root hroot'
    rw [ofItems_scalar hchunks] at hpairs hroot
    rw [ofItems_scalar hchunks'] at hpairs' hroot'
    have hsame : chunks = chunks' := by
      apply leaves_eq_of_rootOver hinj _ hpairs hpairs' hroot hroot'
      rw [length_packElements hchunks, length_packElements hchunks', hlength]
    rw [← hsame] at hchunks'
    exact packElements_injective hlength hchunks hchunks'
  | none =>
    rw [ofItems_composite hscalar] at hpairs hpairs' hroot hroot'
    refine composite_injective hinj hlength ?_ hpairs hpairs' hroot hroot'
    intro i item item' leaf _ _
    exact helement item item' leaf

theorem fields_injective {fields : List (String × Shape)} {values values' : List Value}
    (hlength : values.length = values'.length)
    (hfield : ∀ field ∈ fields, ∀ v w leaf, (of field.2 v).pairs h ⊆ pairs →
      (of field.2 w).pairs h ⊆ pairs → (of field.2 v).root h = .ok leaf →
      (of field.2 w).root h = .ok leaf → v = w)
    (hfits : values.length ≤ fields.length)
    (hpairs : (composite ((fields.zip values).map fun entry => of entry.1.2 entry.2) capacity
      count?).pairs h ⊆ pairs)
    (hpairs' : (composite ((fields.zip values').map fun entry => of entry.1.2 entry.2) capacity
      count?).pairs h ⊆ pairs)
    (hroot : (composite ((fields.zip values).map fun entry => of entry.1.2 entry.2) capacity
      count?).root h = .ok root)
    (hroot' : (composite ((fields.zip values').map fun entry => of entry.1.2 entry.2) capacity
      count?).root h = .ok root) : values = values' := by
  have hentries : fields.zip values = fields.zip values' := by
    refine composite_injective hinj ?_ ?_ hpairs hpairs' hroot hroot'
    · rw [List.length_zip, List.length_zip, hlength]
    · intro i entry entry' leaf hentry hentry' hsub hsub' hleaf hleaf'
      rw [List.getElem?_zip_eq_some] at hentry hentry'
      have hsame : entry.1 = entry'.1 := Option.some.inj (hentry.1.symm.trans hentry'.1)
      rw [← hsame] at hsub' hleaf'
      have hmem := List.mem_of_getElem? hentry.1
      exact Prod.ext hsame (hfield entry.1 hmem _ _ leaf hsub hsub' hleaf hleaf')
  have hvalues := congrArg (List.map Prod.snd) hentries
  rwa [List.map_snd_zip hfits, List.map_snd_zip (hlength ▸ hfits)] at hvalues

end Layout

namespace Shape

variable {h : HashFunction} {pairs : List (Root × Root)}

theorem eq_of_root_eq (hinj : h.InjectiveOn pairs) {shape : Shape} (hbuilt : shape.Built)
    {v w : Value} {root : Root} (hv : (Layout.of shape v).root h = .ok root)
    (hw : (Layout.of shape w).root h = .ok root) (hvpairs : (Layout.of shape v).pairs h ⊆ pairs)
    (hwpairs : (Layout.of shape w).pairs h ⊆ pairs) : v = w := by
  induction hbuilt generalizing v w root with
  | @intro shape own hparts ih =>
    obtain ⟨-, -, hdeclared, -⟩ := check_eq_ok_iff.mp own
    have hvfits := fits_of_root hv
    have hwfits := fits_of_root hw
    cases shape with
    | scalar kind =>
      obtain ⟨bs, hbs⟩ := Scalar.exists_encode_iff_fits.mpr hvfits
      obtain ⟨bs', hbs'⟩ := Scalar.exists_encode_iff_fits.mpr hwfits
      have hlength : bs.length = bs'.length := by
        rw [Scalar.length_of_encode hbs, Scalar.length_of_encode hbs']
      rw [Layout.of_scalar hbs] at hv hvpairs
      rw [Layout.of_scalar hbs'] at hw hwpairs
      rw [Layout.packed_injective hinj Merkle.packsApart_pack hlength hvpairs hwpairs hv hw] at hbs
      exact Scalar.encode_injective hbs hbs'
    | byteVector length =>
      cases hvfits with
      | byteVector hlength =>
        cases hwfits with
        | byteVector hlength' =>
          rw [Layout.of_byteVector hlength] at hv hvpairs
          rw [Layout.of_byteVector hlength'] at hw hwpairs
          rw [Layout.packed_injective hinj Merkle.packsApart_pack (hlength.trans hlength'.symm)
            hvpairs hwpairs hv hw]
    | byteList limit =>
      cases hvfits with
      | byteList hlimit =>
        cases hwfits with
        | byteList hlimit' =>
          rw [Layout.of_byteList hlimit] at hv hvpairs
          rw [Layout.of_byteList hlimit'] at hw hwpairs
          rw [Layout.packed_injective_of_count hinj Merkle.packsApart_pack
            (Nat.lt_of_le_of_lt hlimit hdeclared) (Nat.lt_of_le_of_lt hlimit' hdeclared)
            hvpairs hwpairs hv hw]
    | bitvector length =>
      cases hvfits with
      | bitvector hlength =>
        cases hwfits with
        | bitvector hlength' =>
          rw [Layout.of_bitvector hlength] at hv hvpairs
          rw [Layout.of_bitvector hlength'] at hw hwpairs
          rw [Layout.packed_injective hinj Merkle.packsApart_packBits
            (hlength.trans hlength'.symm) hvpairs hwpairs hv hw]
    | bitlist limit =>
      cases hvfits with
      | bitlist hlimit =>
        cases hwfits with
        | bitlist hlimit' =>
          rw [Layout.of_bitlist hlimit] at hv hvpairs
          rw [Layout.of_bitlist hlimit'] at hw hwpairs
          rw [Layout.packed_injective_of_count hinj Merkle.packsApart_packBits
            (Nat.lt_of_le_of_lt hlimit hdeclared) (Nat.lt_of_le_of_lt hlimit' hdeclared)
            hvpairs hwpairs hv hw]
    | vector element length =>
      cases hvfits with
      | vector hlength =>
        cases hwfits with
        | vector hlength' =>
          rw [Layout.of_vector hlength] at hv hvpairs
          rw [Layout.of_vector hlength'] at hw hwpairs
          have hsame := hlength.trans hlength'.symm
          have hitems := Layout.ofItems_injective hinj hsame
            (fun item item' leaf hsub hsub' hleaf hleaf' =>
              ih element (by simp) hleaf hleaf' hsub hsub') hvpairs hwpairs hv hw
          rw [hitems]
    | list element limit =>
      cases hvfits with
      | list hlimit =>
        cases hwfits with
        | list hlimit' =>
          rw [Layout.of_list hlimit] at hv hvpairs
          rw [Layout.of_list hlimit'] at hw hwpairs
          have hsame := Layout.count_eq_of_root hinj (Nat.lt_of_le_of_lt hlimit hdeclared)
            (Nat.lt_of_le_of_lt hlimit' hdeclared) (Layout.elementCount?_ofItems hv)
            (Layout.elementCount?_ofItems hw) hvpairs hwpairs hv hw
          rw [hsame] at hv hvpairs
          have hitems := Layout.ofItems_injective hinj hsame
            (fun item item' leaf hsub hsub' hleaf hleaf' =>
              ih element (by simp) hleaf hleaf' hsub hsub') hvpairs hwpairs hv hw
          rw [hitems]
    | container fields =>
      cases hvfits with
      | container hlength =>
        cases hwfits with
        | container hlength' =>
          rw [Layout.of_container hlength] at hv hvpairs
          rw [Layout.of_container hlength'] at hw hwpairs
          have hsame := hlength.trans hlength'.symm
          have hvalues := Layout.fields_injective hinj hsame
            (fun field hfield v w leaf hsub hsub' hleaf hleaf' =>
              ih field.2 (List.mem_map_of_mem hfield) hleaf hleaf' hsub hsub')
            (by omega) hvpairs hwpairs hv hw
          rw [hvalues]

/-- Two values of the same root are the same, unless two of the pairs hashed for them collide. -/
theorem eq_of_hashTreeRoot_eq {shape : Shape} (hbuilt : shape.Built) {v w : Value} {root : Root}
    (hv : shape.hashTreeRoot h v = .ok root) (hw : shape.hashTreeRoot h w = .ok root)
    (hinj : h.InjectiveOn (shape.hashedPairs h v ++ shape.hashedPairs h w)) : v = w :=
  eq_of_root_eq hinj hbuilt hv hw (List.subset_append_left _ _) (List.subset_append_right _ _)

/-- A number and a list of byte lists. -/
def tagged : Shape := container [("id", uint64), ("tags", list (byteList 4) 2)]

def taggedValue : Value := .container [.uint .w64 7, .list [.bytes [1, 2]]]

theorem eq_of_hashTreeRoot_eq_tagged :
    ∃ root, tagged.Built ∧ tagged.hashTreeRoot .sha256 taggedValue = .ok root ∧
      tagged.hashTreeRoot .sha256 (.container [.ofUInt64 7, .list [.bytes [1, 2]]]) = .ok root ∧
      HashFunction.sha256.InjectiveOn (tagged.hashedPairs .sha256 taggedValue ++
        tagged.hashedPairs .sha256 (.container [.ofUInt64 7, .list [.bytes [1, 2]]])) ∧
      taggedValue = .container [.ofUInt64 7, .list [.bytes [1, 2]]] := by
  have hbuilt : tagged.Built := by decide
  have hv : tagged.hashTreeRoot .sha256 taggedValue = .ok _ := rfl
  have hw : tagged.hashTreeRoot .sha256 (.container [.ofUInt64 7, .list [.bytes [1, 2]]])
      = .ok _ := rfl
  have hinj : HashFunction.sha256.InjectiveOn (tagged.hashedPairs .sha256 taggedValue ++
      tagged.hashedPairs .sha256 (.container [.ofUInt64 7, .list [.bytes [1, 2]]])) := by
    decide +kernel
  exact ⟨_, hbuilt, hv, hw, hinj, eq_of_hashTreeRoot_eq hbuilt hv hw hinj⟩

end Shape

end SimpleSerialize
