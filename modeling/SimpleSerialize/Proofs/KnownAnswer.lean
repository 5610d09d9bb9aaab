import SimpleSerialize.KnownAnswer
import SimpleSerialize.Proofs.Bytes.Hex
import SimpleSerialize.Proofs.Wire.RoundTrip

/-!
What a known answer tells. Where one holds, its digits are read as bytes and these as the value
(`KnownAnswer.decode_of_holds`), so that there is no other value with the same encoding, and the
text of its root is read as the root that is computed (`KnownAnswer.root_of_holds`). All that are
listed hold (`KnownAnswer.reads_of_mem_all`).
-/

namespace SimpleSerialize.KnownAnswer

variable {answer answer' : KnownAnswer}

theorem holds_iff :
    answer.holds = true ↔ ∃ bs root, answer.shape.encode answer.value = .ok bs ∧
      answer.computedRoot = .ok root ∧
      String.ofList (DigitCodec.standard.encode bs) = answer.encoding ∧
      root.toHex = answer.root := by
  unfold holds
  constructor
  · intro hholds
    split at hholds
    next bs root hencode hroot =>
      obtain ⟨hdigits, htext⟩ := Bool.and_eq_true_iff.mp hholds
      exact ⟨bs, root, hencode, hroot, beq_iff_eq.mp hdigits, beq_iff_eq.mp htext⟩
    next => cases hholds
  · rintro ⟨bs, root, hencode, hroot, hdigits, htext⟩
    rw [hencode, hroot]
    exact Bool.and_eq_true_iff.mpr ⟨beq_iff_eq.mpr hdigits, beq_iff_eq.mpr htext⟩

/-- The digits are two for each byte, so that memory which holds them holds the bytes. -/
theorem decode_of_holds (hbuilt : answer.shape.Built) (hfits : answer.shape.SizesFit)
    (hmemory : answer.encoding.length < wordBound) (hholds : answer.holds = true) :
    ∃ bs, DigitCodec.standard.decode answer.encoding.toList = .ok bs ∧
      answer.shape.decode bs = .ok answer.value := by
  obtain ⟨bs, root, hencode, -, hdigits, -⟩ := holds_iff.mp hholds
  have hspells : Hex.Spells answer.encoding.toList bs := by
    rw [← hdigits, String.toList_ofList]
    exact Hex.spells_flatMap_byteDigits bs
  refine ⟨bs, DigitCodec.standard_lawful.decode_eq_ok_iff.mpr hspells, ?_⟩
  rw [← String.length_toList, Hex.length_of_spells hspells] at hmemory
  exact Shape.readsBack hbuilt hfits _ bs (by omega) hencode

/-- An encoding is known for one value only. -/
theorem value_eq_of_holds (hbuilt : answer.shape.Built) (hfits : answer.shape.SizesFit)
    (hmemory : answer.encoding.length < wordBound) (hholds : answer.holds = true)
    (hholds' : answer'.holds = true) (hshape : answer'.shape = answer.shape)
    (hencoding : answer'.encoding = answer.encoding) : answer'.value = answer.value := by
  obtain ⟨bs, hread, hdecode⟩ := decode_of_holds hbuilt hfits hmemory hholds
  obtain ⟨bs', hread', hdecode'⟩ := decode_of_holds (hshape ▸ hbuilt) (hshape ▸ hfits)
    (hencoding ▸ hmemory) hholds'
  rw [hencoding, hread] at hread'
  cases hread'
  rw [hshape, hdecode] at hdecode'
  exact (Except.ok.inj hdecode').symm

theorem root_of_holds (hholds : answer.holds = true) :
    ∃ root, Hex.decodeFixed .standard chunkSize answer.root = .ok root ∧
      answer.computedRoot = .ok root := by
  obtain ⟨bs, root, -, hroot, -, htext⟩ := holds_iff.mp hholds
  rw [← htext]
  exact ⟨root, Hex.decodeFixed_written DigitCodec.standard_lawful root, hroot⟩

theorem fits_of_mem_all : ∀ answer ∈ all,
    answer.shape.Built ∧ answer.shape.SizesFit ∧ answer.encoding.length < wordBound := by
  decide +kernel

theorem holds_of_mem_all : ∀ answer ∈ all, answer.holds = true := by
  decide +kernel

/-- Each of the known texts is read as what it is known for. -/
theorem reads_of_mem_all (hmem : answer ∈ all) :
    (∃ bs, DigitCodec.standard.decode answer.encoding.toList = .ok bs ∧
      answer.shape.decode bs = .ok answer.value) ∧
    ∃ root, Hex.decodeFixed .standard chunkSize answer.root = .ok root ∧
      answer.computedRoot = .ok root := by
  obtain ⟨hbuilt, hfits, hmemory⟩ := fits_of_mem_all answer hmem
  have hholds := holds_of_mem_all answer hmem
  exact ⟨decode_of_holds hbuilt hfits hmemory hholds, root_of_holds hholds⟩

end SimpleSerialize.KnownAnswer
