import SimpleSerialize.Payload.Binding
import SimpleSerialize.Proofs.Payload.BlobTransaction

/-!
What the check of transactions against commitments answers. A transaction that cannot be read comes
before all else, then the counts, then the first entry that differs (`Binding.Verdict`); envelopes
that carry the hashes of the commitments among any other transactions pass.
-/

namespace SimpleSerialize

namespace Binding

section FirstAt

variable {α : Type} {p : α → Prop} {x y : α} {xs : List α} {i : Nat}

/-- The first entry with a property, and its place. -/
structure FirstAt (p : α → Prop) (xs : List α) (i : Nat) (x : α) : Prop where
  getElem_eq : xs[i]? = some x
  holds : p x
  not_before : ∀ j y, j < i → xs[j]? = some y → ¬p y

theorem not_firstAt_nil : ¬FirstAt p [] i x := by
  intro hfirst
  cases hfirst.getElem_eq

theorem firstAt_cons_of_holds (hx : p x) : FirstAt p (x :: xs) i y ↔ i = 0 ∧ y = x := by
  constructor
  · intro hfirst
    cases i with
    | zero => exact ⟨rfl, (Option.some.inj hfirst.getElem_eq).symm⟩
    | succ i => exact absurd hx (hfirst.not_before 0 x (Nat.succ_pos i) rfl)
  · rintro ⟨rfl, rfl⟩
    exact ⟨rfl, hx, fun j _ hj => absurd hj (Nat.not_lt_zero j)⟩

theorem firstAt_cons_of_not (hx : ¬p x) :
    FirstAt p (x :: xs) i y ↔ ∃ j, i = j + 1 ∧ FirstAt p xs j y := by
  constructor
  · intro hfirst
    cases i with
    | zero =>
      obtain rfl : x = y := Option.some.inj hfirst.getElem_eq
      exact absurd hfirst.holds hx
    | succ i =>
      refine ⟨i, rfl, hfirst.getElem_eq, hfirst.holds, ?_⟩
      intro j z hj hz
      exact hfirst.not_before (j + 1) z (Nat.succ_lt_succ hj) hz
  · rintro ⟨i, rfl, hget, hy, hbefore⟩
    refine ⟨hget, hy, ?_⟩
    intro j z hj hz
    cases j with
    | zero =>
      obtain rfl : x = z := Option.some.inj hz
      exact hx
    | succ j => exact hbefore j z (Nat.lt_of_succ_lt_succ hj) hz

variable {q : Nat → α → Prop}

theorem exists_firstAt_cons_of_holds (hx : p x) :
    (∃ i y, FirstAt p (x :: xs) i y ∧ q i y) ↔ q 0 x := by
  simp only [firstAt_cons_of_holds hx]
  constructor
  · rintro ⟨_, _, ⟨rfl, rfl⟩, hy⟩
    exact hy
  · intro hy
    exact ⟨0, x, ⟨rfl, rfl⟩, hy⟩

/-- An entry without the property shifts the first one that has it. -/
theorem exists_firstAt_cons_of_not (hx : ¬p x) :
    (∃ i y, FirstAt p (x :: xs) i y ∧ q i y) ↔ ∃ i y, FirstAt p xs i y ∧ q (i + 1) y := by
  simp only [firstAt_cons_of_not hx]
  constructor
  · rintro ⟨_, y, ⟨i, rfl, hfirst⟩, hy⟩
    exact ⟨i, y, hfirst, hy⟩
  · rintro ⟨i, y, hfirst, hy⟩
    exact ⟨i + 1, y, ⟨i, rfl, hfirst⟩, hy⟩

end FirstAt

variable {h : HashFunction} {tx : Transaction} {txs : List Transaction}
  {hashes first : List VersionedHash} {commitments : List KzgCommitment} {index : Nat}
  {error : BindingError}

/-- A transaction says that it carries blobs and does not tell their hashes. -/
def Unreadable (tx : Transaction) : Prop :=
  tx.isBlob = true ∧ ∃ error, BlobTransaction.versionedHashes tx = .error error

/-- The transactions that carry blobs can be read, and tell the hashes one after the other. -/
def TellHashes (txs : List Transaction) (hashes : List VersionedHash) : Prop :=
  ∃ parts : List (List VersionedHash),
    (txs.filter Transaction.isBlob).map BlobTransaction.versionedHashes = parts.map .ok ∧
      parts.flatten = hashes

theorem tellHashes_nil_iff : TellHashes [] hashes ↔ hashes = [] := by
  constructor
  · rintro ⟨parts, hparts, rfl⟩
    rw [List.map_eq_nil_iff.mp hparts.symm, List.flatten_nil]
  · rintro rfl
    exact ⟨[], rfl, rfl⟩

theorem tellHashes_cons_of_other (htx : tx.isBlob = false) :
    TellHashes (tx :: txs) hashes ↔ TellHashes txs hashes := by
  have hother : ¬tx.isBlob = true := by simp [htx]
  rw [TellHashes, TellHashes, List.filter_cons_of_neg hother]

theorem tellHashes_cons_of_blob (htx : tx.isBlob = true) :
    TellHashes (tx :: txs) hashes ↔
      ∃ first rest, BlobTransaction.versionedHashes tx = .ok first ∧ TellHashes txs rest ∧
        first ++ rest = hashes := by
  rw [TellHashes, List.filter_cons_of_pos htx, List.map_cons]
  constructor
  · rintro ⟨parts, hparts, rfl⟩
    cases parts with
    | nil => cases hparts
    | cons first parts =>
      rw [List.map_cons, List.cons.injEq] at hparts
      exact ⟨first, parts.flatten, hparts.1, ⟨parts, hparts.2, rfl⟩, rfl⟩
  · rintro ⟨first, _, hfirst, ⟨parts, hparts, rfl⟩, rfl⟩
    refine ⟨first :: parts, ?_, rfl⟩
    rw [hfirst, hparts, List.map_cons]

theorem collect_cons_of_other (htx : tx.isBlob = false) :
    collect index (tx :: txs) = collect (index + 1) txs := by
  simp [collect, htx]

theorem collect_cons_of_error {cause : TransactionError} (htx : tx.isBlob = true)
    (hread : BlobTransaction.versionedHashes tx = .error cause) :
    collect index (tx :: txs) = .error (.malformedTransaction index cause) := by
  simp [collect, htx, hread]

theorem collect_cons_of_ok (htx : tx.isBlob = true)
    (hread : BlobTransaction.versionedHashes tx = .ok first) :
    collect index (tx :: txs) = (collect (index + 1) txs).map (first ++ ·) := by
  simp [collect, htx, hread]

theorem collect_eq_ok_iff : collect index txs = .ok hashes ↔ TellHashes txs hashes := by
  induction txs generalizing index hashes with
  | nil => rw [tellHashes_nil_iff, collect, Except.ok.injEq, eq_comm]
  | cons tx txs ih =>
    cases htx : tx.isBlob with
    | false => rw [collect_cons_of_other htx, tellHashes_cons_of_other htx, ih]
    | true =>
      rw [tellHashes_cons_of_blob htx]
      cases hread : BlobTransaction.versionedHashes tx with
      | error cause =>
        rw [collect_cons_of_error htx hread]
        simp
      | ok first =>
        rw [collect_cons_of_ok htx hread, map_eq_ok_iff]
        simp [ih]

/-- Reading stops at the first transaction that cannot be read. -/
theorem collect_eq_error_iff :
    collect index txs = .error error ↔
      ∃ i tx, FirstAt Unreadable txs i tx ∧
        ∃ cause, BlobTransaction.versionedHashes tx = .error cause ∧
          .malformedTransaction (index + i) cause = error := by
  induction txs generalizing index with
  | nil => simp [collect, not_firstAt_nil]
  | cons tx txs ih =>
    cases htx : tx.isBlob with
    | false =>
      have hreadable : ¬Unreadable tx := by simp [Unreadable, htx]
      rw [collect_cons_of_other htx, ih, exists_firstAt_cons_of_not hreadable]
      simp only [Nat.add_assoc, Nat.add_comm 1]
    | true =>
      cases hread : BlobTransaction.versionedHashes tx with
      | error cause =>
        have hunreadable : Unreadable tx := ⟨htx, cause, hread⟩
        rw [collect_cons_of_error htx hread, exists_firstAt_cons_of_holds hunreadable]
        simp [hread]
      | ok first =>
        have hreadable : ¬Unreadable tx := by simp [Unreadable, hread]
        rw [collect_cons_of_ok htx hread, map_eq_error_iff, ih,
          exists_firstAt_cons_of_not hreadable]
        simp only [Nat.add_assoc, Nat.add_comm 1]

/-- A versioned hash next to a commitment that has another one. -/
def Differs (h : HashFunction) (entry : VersionedHash × KzgCommitment) : Prop :=
  versionedHash h entry.2 ≠ entry.1

section Compare

variable {expected : VersionedHash} {commitment : KzgCommitment}

theorem compare_cons_of_eq (heq : versionedHash h commitment = expected) :
    compare h index (expected :: hashes) (commitment :: commitments)
      = compare h (index + 1) hashes commitments := by
  simp [compare, heq]

theorem compare_cons_of_ne (hne : versionedHash h commitment ≠ expected) :
    compare h index (expected :: hashes) (commitment :: commitments)
      = .error (.hashMismatch index expected (versionedHash h commitment)) := by
  simp [compare, hne]

end Compare

theorem compare_eq_ok_iff (hlength : hashes.length = commitments.length) :
    compare h index hashes commitments = .ok () ↔ hashes = commitments.map (versionedHash h) := by
  induction hashes generalizing index commitments with
  | nil =>
    obtain rfl := List.length_eq_zero_iff.mp hlength.symm
    exact iff_of_true rfl rfl
  | cons expected hashes ih =>
    cases commitments with
    | nil => cases hlength
    | cons commitment commitments =>
      rw [List.map_cons, List.cons.injEq]
      by_cases heq : versionedHash h commitment = expected
      · rw [compare_cons_of_eq heq, ih (Nat.succ.inj hlength), heq, and_iff_right rfl]
      · rw [compare_cons_of_ne heq]
        exact iff_of_false (nomatch ·) (fun hsame => heq hsame.1.symm)

/-- Comparing stops at the first entry that differs. -/
theorem compare_eq_error_iff :
    compare h index hashes commitments = .error error ↔
      ∃ i entry, FirstAt (Differs h) (hashes.zip commitments) i entry ∧
        .hashMismatch (index + i) entry.1 (versionedHash h entry.2) = error := by
  induction hashes generalizing index commitments with
  | nil => simp [compare, not_firstAt_nil]
  | cons expected hashes ih =>
    cases commitments with
    | nil => simp [compare, not_firstAt_nil]
    | cons commitment commitments =>
      rw [List.zip_cons_cons]
      by_cases heq : versionedHash h commitment = expected
      · have hsame : ¬Differs h (expected, commitment) := not_not_intro heq
        rw [compare_cons_of_eq heq, ih, exists_firstAt_cons_of_not hsame]
        simp only [Nat.add_assoc, Nat.add_comm 1]
      · have hdiffers : Differs h (expected, commitment) := heq
        rw [compare_cons_of_ne heq, exists_firstAt_cons_of_holds hdiffers, Except.error.injEq]
        rfl

/--
Each answer with what it is right for. Hashes are told only where every blob transaction can be
read, so one that cannot be read is reported whatever else is wrong.
-/
inductive Verdict (h : HashFunction) (txs : List Transaction) (commitments : List KzgCommitment) :
    Except BindingError Unit → Prop where
  | malformed {i : Nat} {tx : Transaction} {cause : TransactionError}
      (hfirst : FirstAt Unreadable txs i tx)
      (hread : BlobTransaction.versionedHashes tx = .error cause) :
      Verdict h txs commitments (.error (.malformedTransaction i cause))
  | count {hashes : List VersionedHash} (htell : TellHashes txs hashes)
      (hcount : hashes.length ≠ commitments.length) :
      Verdict h txs commitments (.error (.countMismatch hashes.length commitments.length))
  | mismatch {hashes : List VersionedHash} {i : Nat} {entry : VersionedHash × KzgCommitment}
      (htell : TellHashes txs hashes) (hcount : hashes.length = commitments.length)
      (hfirst : FirstAt (Differs h) (hashes.zip commitments) i entry) :
      Verdict h txs commitments
        (.error (.hashMismatch i entry.1 (versionedHash h entry.2)))
  | bound (htell : TellHashes txs (commitments.map (versionedHash h))) :
      Verdict h txs commitments (.ok ())

theorem check_of_collect_error (hcollect : collect 0 txs = .error error) :
    check h txs commitments = .error error := by
  rw [check, hcollect]
  rfl

theorem check_of_collect_ok (hcollect : collect 0 txs = .ok hashes) :
    check h txs commitments =
      if hashes.length = commitments.length then compare h 0 hashes commitments
      else .error (.countMismatch hashes.length commitments.length) := by
  rw [check, hcollect]
  rfl

/-- The check gives a verdict on all transactions and commitments. -/
theorem verdict_check (h : HashFunction) (txs : List Transaction)
    (commitments : List KzgCommitment) : Verdict h txs commitments (check h txs commitments) := by
  cases hcollect : collect 0 txs with
  | error error =>
    obtain ⟨i, tx, hfirst, cause, hread, rfl⟩ := collect_eq_error_iff.mp hcollect
    rw [check_of_collect_error hcollect, Nat.zero_add]
    exact .malformed hfirst hread
  | ok hashes =>
    have htell := collect_eq_ok_iff.mp hcollect
    rw [check_of_collect_ok hcollect]
    by_cases hcount : hashes.length = commitments.length
    · rw [if_pos hcount]
      cases hcompare : compare h 0 hashes commitments with
      | error error =>
        obtain ⟨i, entry, hfirst, rfl⟩ := compare_eq_error_iff.mp hcompare
        rw [Nat.zero_add]
        exact .mismatch htell hcount hfirst
      | ok =>
        rw [(compare_eq_ok_iff hcount).mp hcompare] at htell
        exact .bound htell
    · rw [if_neg hcount]
      exact .count htell hcount

/-- No other verdict is right. -/
theorem check_eq_of_verdict {result : Except BindingError Unit}
    (hverdict : Verdict h txs commitments result) : check h txs commitments = result := by
  cases hverdict with
  | @malformed i tx cause hfirst hread =>
    have hcollect : collect 0 txs = .error (.malformedTransaction (0 + i) cause) :=
      collect_eq_error_iff.mpr ⟨i, tx, hfirst, cause, hread, rfl⟩
    rw [check_of_collect_error hcollect, Nat.zero_add]
  | count htell hcount =>
    rw [check_of_collect_ok (collect_eq_ok_iff.mpr htell), if_neg hcount]
  | @mismatch hashes i entry htell hcount hfirst =>
    have hcompare : compare h 0 hashes commitments
        = .error (.hashMismatch (0 + i) entry.1 (versionedHash h entry.2)) :=
      compare_eq_error_iff.mpr ⟨i, entry, hfirst, rfl⟩
    rw [check_of_collect_ok (collect_eq_ok_iff.mpr htell), if_pos hcount, hcompare, Nat.zero_add]
  | bound htell =>
    have hcount : (commitments.map (versionedHash h)).length = commitments.length :=
      List.length_map _
    rw [check_of_collect_ok (collect_eq_ok_iff.mpr htell), if_pos hcount]
    exact (compare_eq_ok_iff hcount).mpr rfl

/-- Envelopes with the hashes of the commitments, in their order, among any other transactions. -/
inductive Carries (h : HashFunction) : List Transaction → List KzgCommitment → Prop where
  | nil : Carries h [] []
  | other {tx : Transaction} {txs : List Transaction} {commitments : List KzgCommitment}
      (htx : tx.isBlob = false) (hrest : Carries h txs commitments) :
      Carries h (tx :: txs) commitments
  | envelope {txs : List Transaction} {commitments : List KzgCommitment}
      (group : List KzgCommitment) (hrest : Carries h txs commitments) :
      Carries h (BlobTransaction.ofHashes (group.map (versionedHash h)) :: txs)
        (group ++ commitments)

theorem Carries.tellHashes (hcarries : Carries h txs commitments) :
    TellHashes txs (commitments.map (versionedHash h)) := by
  induction hcarries with
  | nil => exact tellHashes_nil_iff.mpr rfl
  | other htx _ ih => exact (tellHashes_cons_of_other htx).mpr ih
  | @envelope txs commitments group _ ih =>
    have hread := BlobTransaction.versionedHashes_ofHashes (group.map (versionedHash h))
    rw [List.map_append]
    exact (tellHashes_cons_of_blob (BlobTransaction.isBlob_ofHashes _)).mpr ⟨_, _, hread, ih, rfl⟩

/--
The check answers with the one right verdict, which rests on what blob transactions tell, and it
accepts commitments split over envelopes among other transactions.
-/
theorem check_gives_verdict (h : HashFunction) :
    (∀ txs commitments result,
      check h txs commitments = result ↔ Verdict h txs commitments result) ∧
    (∀ tx hashes, BlobTransaction.versionedHashes tx = .ok hashes ↔
      BlobTransaction.Tells tx.bytes hashes) ∧
    ∀ txs commitments, Carries h txs commitments → check h txs commitments = .ok () := by
  refine ⟨?_, ?_, ?_⟩
  · intro txs commitments result
    constructor
    · rintro rfl
      exact verdict_check h txs commitments
    · exact check_eq_of_verdict
  · intro tx hashes
    exact BlobTransaction.versionedHashes_eq_ok_iff
  · intro txs commitments hcarries
    exact check_eq_of_verdict (.bound hcarries.tellHashes)

/-- Two envelopes, the first of two hashes, with a transaction of another type between them. -/
def mixed : List Transaction :=
  [BlobTransaction.ofHashes ([.ofNat 5, .ofNat 6].map (versionedHash .sha256)), ⟨[2, 3]⟩,
    BlobTransaction.ofHashes ([.ofNat 7].map (versionedHash .sha256))]

theorem carries_mixed : Carries .sha256 mixed [.ofNat 5, .ofNat 6, .ofNat 7] :=
  .envelope [.ofNat 5, .ofNat 6] (.other rfl (.envelope [.ofNat 7] .nil))

theorem check_gives_verdict_mixed :
    check .sha256 mixed [.ofNat 5, .ofNat 6, .ofNat 7] = .ok () ∧
      Verdict .sha256 mixed [.ofNat 5, .ofNat 6, .ofNat 7] (.ok ()) ∧
      Verdict .sha256 (⟨[3]⟩ :: mixed) []
        (.error (.malformedTransaction 0 (.tooShort 1 262))) := by
  obtain ⟨hverdict, -, hcarries⟩ := check_gives_verdict .sha256
  have hbound := hcarries mixed _ carries_mixed
  exact ⟨hbound, (hverdict _ _ _).mp hbound, (hverdict _ _ _).mp rfl⟩

end Binding

end SimpleSerialize
