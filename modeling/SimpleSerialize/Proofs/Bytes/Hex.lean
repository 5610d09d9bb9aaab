import SimpleSerialize.Bytes.Hex
import SimpleSerialize.Proofs.Bytes.Digits

/-!
The grammar of hexadecimal text: one marker or none, and behind it two digits of either case for
each byte. With a codec that deals in digits as it should, the reader of strings of any length and
the reader of strings of one width accept what the grammar does, and what is written for a byte
string is its spelling in lowercase digits (`Hex.read_by_one_grammar`).
-/

namespace SimpleSerialize.Hex

/-- A text, and what is left of it behind a marker. -/
inductive Marked : List Char → List Char → Prop
  | bare (cs : List Char) : Marked cs cs
  | lower (cs : List Char) : Marked ('0' :: 'x' :: cs) cs
  | upper (cs : List Char) : Marked ('0' :: 'X' :: cs) cs

variable {value width : Nat} {cs : List Char} {bs : Bytes} {s : String}

theorem marked_digits (cs : List Char) : Marked cs (digits cs) := by
  unfold digits
  split
  · exact .lower _
  · exact .upper _
  · exact .bare _

theorem not_isDigit_marker : ¬IsDigit 'x' value ∧ ¬IsDigit 'X' value := by
  constructor
  · intro hdigit
    have hvalue := digitValue?_of_isDigit hdigit
    cases hvalue
  · intro hdigit
    have hvalue := digitValue?_of_isDigit hdigit
    cases hvalue

/-- What the grammar reads behind a marker is what the readers read: no marker is made of digits. -/
theorem digits_of_marked {ds : List Char} (hmarked : Marked cs ds) (hspells : Spells ds bs) :
    digits cs = ds := by
  cases hmarked with
  | lower | upper => rfl
  | bare =>
    cases hspells with
    | nil => rfl
    | cons hhigh hlow hrest =>
      unfold digits
      split
      next heq =>
        cases heq
        exact absurd hlow not_isDigit_marker.1
      next heq =>
        cases heq
        exact absurd hlow not_isDigit_marker.2
      next => rfl

theorem exists_marked_iff :
    (∃ ds, Marked s.toList ds ∧ Spells ds bs) ↔ Spells (digits s.toList) bs := by
  constructor
  · rintro ⟨ds, hmarked, hspells⟩
    rwa [digits_of_marked hmarked hspells]
  · intro hspells
    exact ⟨_, marked_digits _, hspells⟩

section Readers

variable {codec : DigitCodec} (hlawful : codec.Lawful)

include hlawful

theorem decode_eq_ok_iff_spells : decode codec s = .ok bs ↔ Spells (digits s.toList) bs := by
  rw [decode, mapError_eq_ok_iff, hlawful.decode_eq_ok_iff]

/-- Digits that are as many as asked for are those that the codec was asked about. -/
theorem decodeFixed_eq_ok_iff_spells {fixed : FixedBytes width} :
    decodeFixed codec width s = .ok fixed ↔ Spells (digits s.toList) fixed.toList := by
  unfold decodeFixed
  dsimp only
  by_cases hcount : utf8Length (digits s.toList) = 2 * width
  · rw [if_pos hcount, mapError_eq_ok_iff, hlawful.decodeInto_eq_ok_iff hcount]
  · simp only [if_neg hcount, reduceCtorEq, false_iff]
    intro hspells
    rw [utf8Length_of_spells hspells, fixed.length_toList] at hcount
    exact hcount rfl

theorem spells_encode (bs : Bytes) : Spells (digits (encode codec bs).toList) bs := by
  rw [encode, String.toList_ofList, hlawful.encode_eq]
  exact spells_flatMap_byteDigits bs

theorem decode_written (bs : Bytes) : decode codec (encode codec bs) = .ok bs :=
  (decode_eq_ok_iff_spells hlawful).mpr (spells_encode hlawful bs)

theorem decodeFixed_written (fixed : FixedBytes width) :
    decodeFixed codec width (encode codec fixed.toList) = .ok fixed :=
  (decodeFixed_eq_ok_iff_spells hlawful).mpr (spells_encode hlawful fixed.toList)

/--
There is one grammar of texts, and both readers read by it, so that they agree wherever the width is
right. Each byte string is read back from what is written for it, and of all texts that it is read
from this is the one with the marker `0x` and lowercase digits.
-/
theorem read_by_one_grammar (s : String) (fixed : FixedBytes width) (bs : Bytes) :
    (decodeFixed codec width s = .ok fixed ↔
      ∃ cs, Marked s.toList cs ∧ cs.length = 2 * width ∧ Spells cs fixed.toList) ∧
    (decode codec s = .ok bs ↔ ∃ cs, Marked s.toList cs ∧ cs.length % 2 = 0 ∧ Spells cs bs) ∧
    (decodeFixed codec width s = .ok fixed ↔ decode codec s = .ok fixed.toList) ∧
    decode codec (encode codec bs) = .ok bs ∧
    decodeFixed codec width (encode codec fixed.toList) = .ok fixed ∧
    ∀ cs, Marked s.toList cs → Spells cs bs →
      encode codec bs = String.ofList ('0' :: 'x' :: cs.map Char.toLower) := by
  refine ⟨?_, ?_, ?_, decode_written hlawful bs, decodeFixed_written hlawful fixed, ?_⟩
  · rw [decodeFixed_eq_ok_iff_spells hlawful, ← exists_marked_iff]
    refine exists_congr fun cs => and_congr_right fun _ => ?_
    constructor
    · intro hspells
      exact ⟨by rw [length_of_spells hspells, fixed.length_toList], hspells⟩
    · exact And.right
  · rw [decode_eq_ok_iff_spells hlawful, ← exists_marked_iff]
    refine exists_congr fun cs => and_congr_right fun _ => ?_
    constructor
    · intro hspells
      exact ⟨by rw [length_of_spells hspells, Nat.mul_mod_right], hspells⟩
    · exact And.right
  · rw [decodeFixed_eq_ok_iff_spells hlawful, decode_eq_ok_iff_spells hlawful]
  · intro cs _ hspells
    rw [encode, hlawful.encode_eq, map_toLower_of_spells hspells]

end Readers

/-- Two bytes under the other marker, in digits of both cases. -/
theorem read_by_one_grammar_mixed_case :
    DigitCodec.standard.Lawful ∧
      Marked "0XAbc9".toList ['A', 'b', 'c', '9'] ∧ Spells ['A', 'b', 'c', '9'] [0xab, 0xc9] ∧
      decode .standard "0XAbc9" = .ok [0xab, 0xc9] ∧
      decodeFixed .standard 2 "0XAbc9" = .ok ⟨[0xab, 0xc9], rfl⟩ ∧
      encode .standard [0xab, 0xc9] = "0xabc9" := by
  have hmarked : Marked "0XAbc9".toList ['A', 'b', 'c', '9'] := .upper _
  have hspells : Spells ['A', 'b', 'c', '9'] [0xab, 0xc9] :=
    .cons (.inr rfl) (.inl rfl) (.cons (.inl rfl) (.inl rfl) .nil)
  obtain ⟨hfixed, hany, -, -, -, hlower⟩ := read_by_one_grammar DigitCodec.standard_lawful
    "0XAbc9" (⟨[0xab, 0xc9], rfl⟩ : FixedBytes 2) [0xab, 0xc9]
  exact ⟨DigitCodec.standard_lawful, hmarked, hspells, hany.mpr ⟨_, hmarked, rfl, hspells⟩,
    hfixed.mpr ⟨_, hmarked, rfl, hspells⟩, hlower _ hmarked hspells⟩

end SimpleSerialize.Hex
