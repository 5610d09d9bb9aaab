import SimpleSerialize.Merkle.Layout
import SimpleSerialize.Proofs.Bytes.Bits
import SimpleSerialize.Proofs.Except
import SimpleSerialize.Proofs.Wire.Kinds

/-!
Packing into chunks. The chunks hold the bytes and the zeros that fill the last one
(`Merkle.flatMap_pack`), so they determine the bytes once it is known how many there are, and with
them the bits or the scalars that were packed.
-/

namespace SimpleSerialize

namespace Merkle

@[simp] theorem length_pack (bs : Bytes) :
    (pack bs).length = Bytes.ceilDiv bs.length chunkSize := by
  rw [pack, List.length_map, Bytes.length_runs]

@[simp] theorem length_packBits (bits : List Bool) :
    (packBits bits).length = Bytes.ceilDiv bits.length (8 * chunkSize) := by
  rw [packBits, length_pack, Bytes.length_ofBits]
  unfold Bytes.ceilDiv chunkSize
  omega

theorem flatMap_pack (bs : Bytes) :
    (pack bs).flatMap FixedBytes.toList
      = bs ++ List.replicate (chunkSize * Bytes.ceilDiv bs.length chunkSize - bs.length) 0 := by
  have hfill (run : Bytes) (hrun : run.length ≤ chunkSize) :
      (FixedBytes.ofPadded run : Root).toList
        = run ++ List.replicate (chunkSize - run.length) 0 := FixedBytes.toList_ofPadded hrun
  have hroom := Bytes.le_mul_ceilDiv (by decide : 0 < chunkSize) bs.length
  rw [pack, List.flatMap_map, Bytes.flatMap_runs_filled hfill hroom]

/-- What is as long as a chunk is one. -/
theorem pack_toList (root : Root) : pack root.toList = [root] := by
  have hcount : Bytes.ceilDiv root.toList.length chunkSize = 1 := by rw [root.length_toList]; rfl
  rw [pack, hcount]
  apply (Bytes.map_ofPadded_runs_eq_iff root.length_toList (by decide)).mpr
  rw [List.flatMap_singleton]

/-- Inputs of the same length take up equally many chunks, and the chunks tell them apart. -/
def PacksApart {α : Type} (pack : List α → List Root) : Prop :=
  ∀ ⦃as bs : List α⦄, as.length = bs.length →
    (pack as).length = (pack bs).length ∧ (pack as = pack bs → as = bs)

theorem pack_injective {as bs : Bytes} (hlength : as.length = bs.length)
    (hpack : pack as = pack bs) : as = bs := by
  have hflat := congrArg (fun chunks => (chunks.flatMap FixedBytes.toList).take as.length) hpack
  simp only [flatMap_pack] at hflat
  rwa [List.take_left, hlength, List.take_left] at hflat

theorem packBits_injective {as bs : List Bool} (hlength : as.length = bs.length)
    (hpack : packBits as = packBits bs) : as = bs := by
  have hbytes : Bytes.ofBits as = Bytes.ofBits bs := by
    apply pack_injective _ hpack
    rw [Bytes.length_ofBits, Bytes.length_ofBits, hlength]
  have hbits := congrArg (fun bytes => (Bytes.toBits bytes).take as.length) hbytes
  simp only [Bytes.toBits_ofBits] at hbits
  rwa [List.take_left, hlength, List.take_left] at hbits

theorem packsApart_pack : PacksApart pack :=
  fun _ _ hlength => ⟨by rw [length_pack, length_pack, hlength], pack_injective hlength⟩

theorem packsApart_packBits : PacksApart packBits :=
  fun _ _ hlength => ⟨by rw [length_packBits, length_packBits, hlength], packBits_injective hlength⟩

end Merkle

theorem Scalar.encode_injective {kind : Scalar} {v w : Value} {bs : Bytes}
    (hv : kind.encode v = .ok bs) (hw : kind.encode w = .ok bs) : v = w := by
  rw [Scalar.encode_eq_ok_iff_decode] at hv hw
  rw [hv] at hw
  exact Except.ok.inj hw

/-- A scalar takes up one chunk. -/
theorem Scalar.ceilDiv_size (kind : Scalar) : Bytes.ceilDiv kind.size chunkSize = 1 := by
  cases kind with
  | bool => decide
  | uint width => cases width <;> decide

namespace Layout

variable {kind : Scalar} {items items' : List Value} {chunks : List Root}

theorem packElements_eq_ok_iff :
    packElements kind items = .ok chunks ↔
      ∃ encodings : List Bytes, items.map kind.encode = encodings.map .ok ∧
        Merkle.pack encodings.flatten = chunks := by
  rw [packElements, map_eq_ok_iff]
  simp only [mapM_eq_ok_iff]

theorem map_length_encodings {encodings : List Bytes}
    (hencode : items.map kind.encode = encodings.map .ok) :
    encodings.map List.length = List.replicate items.length kind.size := by
  induction items generalizing encodings with
  | nil =>
    cases encodings with
    | nil => rfl
    | cons first rest => cases hencode
  | cons item items ih =>
    cases encodings with
    | nil => cases hencode
    | cons first rest =>
      rw [List.map_cons, List.map_cons, List.cons.injEq] at hencode
      rw [List.map_cons, ih hencode.2, Scalar.length_of_encode hencode.1]
      rfl

theorem length_packElements (hchunks : packElements kind items = .ok chunks) :
    chunks.length = Bytes.ceilDiv (items.length * kind.size) chunkSize := by
  obtain ⟨encodings, hencode, rfl⟩ := packElements_eq_ok_iff.mp hchunks
  rw [Merkle.length_pack, List.length_flatten, map_length_encodings hencode]
  simp

/-- Scalars can be told from their chunks if it is known how many there are. -/
theorem packElements_injective (hlength : items.length = items'.length)
    (hchunks : packElements kind items = .ok chunks)
    (hchunks' : packElements kind items' = .ok chunks) : items = items' := by
  obtain ⟨encodings, hencode, hpack⟩ := packElements_eq_ok_iff.mp hchunks
  obtain ⟨encodings', hencode', hpack'⟩ := packElements_eq_ok_iff.mp hchunks'
  have hsizes : encodings.map List.length = encodings'.map List.length := by
    rw [map_length_encodings hencode, map_length_encodings hencode', hlength]
  have hflat : encodings.flatten = encodings'.flatten := by
    apply Merkle.pack_injective _ (hpack.trans hpack'.symm)
    rw [List.length_flatten, List.length_flatten, hsizes]
  have hsame : encodings = encodings' := List.eq_iff_flatten_eq.mpr ⟨hflat, hsizes⟩
  rw [← hsame] at hencode'
  refine eq_of_map_eq_ok hencode hencode' ?_
  intro i item item' bs _ _ hitem hitem'
  exact Scalar.encode_injective hitem hitem'

end Layout

end SimpleSerialize
