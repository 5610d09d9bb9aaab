import SimpleSerialize.Bytes.Fixed

/-! Runs of equal length, the last one filled up. -/

namespace SimpleSerialize.Bytes

theorem le_mul_ceilDiv {size : Nat} (hsize : 0 < size) (n : Nat) : n ≤ size * ceilDiv n size := by
  have hrest := Nat.mod_lt (n + (size - 1)) hsize
  have hsum := Nat.div_add_mod (n + (size - 1)) size
  unfold ceilDiv
  omega

theorem ceilDiv_mono {m n : Nat} (hle : m ≤ n) (size : Nat) : ceilDiv m size ≤ ceilDiv n size :=
  Nat.div_le_div_right (Nat.add_le_add_right hle _)

/-- Runs that are filled up one by one give the entries back, and what fills the last run. -/
theorem flatMap_runs_filled {α : Type} {size count : Nat} {xs : List α} {zero : α}
    {fill : List α → List α}
    (hfill : ∀ run, run.length ≤ size → fill run = run ++ List.replicate (size - run.length) zero)
    (hroom : xs.length ≤ size * count) :
    (runs size count xs).flatMap fill
      = xs ++ List.replicate (size * count - xs.length) zero := by
  induction count generalizing xs with
  | zero =>
    have hempty : xs = [] := List.length_eq_zero_iff.mp (by omega)
    rw [runs, hempty]
    rfl
  | succ count ih =>
    rw [Nat.mul_succ] at hroom ⊢
    have hrest : (xs.drop size).length ≤ size * count := by
      rw [List.length_drop]
      omega
    rw [runs, List.flatMap_cons, hfill _ (List.length_take_le size xs), ih hrest]
    by_cases hfull : size ≤ xs.length
    · have hnone : size - (xs.take size).length = 0 := by
        rw [List.length_take]
        omega
      have hcount : size * count - (xs.drop size).length = size * count + size - xs.length := by
        rw [List.length_drop]
        omega
      rw [hnone, hcount, List.replicate_zero, List.append_nil, ← List.append_assoc,
        List.take_append_drop]
    · rw [List.take_of_length_le (by omega), List.drop_of_length_le (by omega), List.nil_append,
        List.append_assoc, List.replicate_append_replicate]
      congr 2
      rw [List.length_nil]
      omega

theorem runs_flatMap {α β : Type} {size : Nat} {f : β → List α}
    (hsize : ∀ x, (f x).length = size) (xs : List β) :
    runs size xs.length (xs.flatMap f) = xs.map f := by
  induction xs with
  | nil => rfl
  | cons x xs ih =>
    rw [List.length_cons, runs, List.flatMap_cons, List.take_left' (hsize x),
      List.drop_left' (hsize x), ih, List.map_cons]

/-- Byte strings of one width are read off their concatenation, and it off them. -/
theorem map_ofPadded_runs_eq_iff {width count : Nat} {bs : Bytes} {fixed : List (FixedBytes width)}
    (hlength : bs.length = width * count) (hwidth : 0 < width) :
    (runs width count bs).map FixedBytes.ofPadded = fixed ↔
      fixed.flatMap FixedBytes.toList = bs := by
  constructor
  · rintro rfl
    have hfill (run : Bytes) (hrun : run.length ≤ width) :
        (FixedBytes.ofPadded run : FixedBytes width).toList
          = run ++ List.replicate (width - run.length) 0 := FixedBytes.toList_ofPadded hrun
    rw [List.flatMap_map, flatMap_runs_filled hfill (Nat.le_of_eq hlength), hlength, Nat.sub_self,
      List.replicate_zero, List.append_nil]
  · rintro rfl
    rw [List.length_flatMap] at hlength
    have hcount : count = fixed.length := by
      simp only [FixedBytes.length_toList, List.map_const', List.sum_replicate_nat] at hlength
      exact Nat.eq_of_mul_eq_mul_left hwidth (by rw [← hlength, Nat.mul_comm])
    rw [hcount, runs_flatMap FixedBytes.length_toList, List.map_map]
    exact List.map_id'' FixedBytes.ofPadded_toList fixed

end SimpleSerialize.Bytes
