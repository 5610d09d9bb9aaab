import SimpleSerialize.Proofs.Blob.Sidecar

/-!
Storing a proof in a sidecar. A body that gives a proof has a place for the commitment that gindices
reach, so nothing can go wrong once the proof is stored.
-/

namespace SimpleSerialize

namespace BlobSidecar

variable {h : HashFunction} {preset : Preset} {sidecar stored : BlobSidecar} {body : BlockBody}
  {proof : InclusionProof} {e : SidecarError} {line : String}

theorem runOn_ofExcept_bind {α β : Type} (x : Except SidecarError α) (goOn : α → Update β) :
    Update.runOn (MonadExcept.ofExcept x >>= goOn) sidecar =
      match x with
      | .ok a => (goOn a).runOn sidecar
      | .error e => (.error e, sidecar) := by
  cases x <;> rfl

theorem runOn_storeProof_of_error (hbuild : sidecar.buildProof h preset body = .error e)
    (logged : Bool) : (storeProof h preset body logged).runOn sidecar = (.error e, sidecar) := by
  refine (runOn_ofExcept_bind (sidecar.buildProof h preset body) _).trans ?_
  rw [hbuild]

theorem runOn_storeProof_of_ok (hbuild : sidecar.buildProof h preset body = .ok proof)
    (hline : storedLine preset sidecar = .ok line) (logged : Bool) :
    (storeProof h preset body logged).runOn sidecar
      = (.ok (if logged then some line else none), { sidecar with inclusionProof := proof }) := by
  refine (runOn_ofExcept_bind (sidecar.buildProof h preset body) _).trans ?_
  rw [hbuild]
  cases logged with
  | false => rfl
  | true =>
    -- The line does not depend on the proof that was stored.
    refine (runOn_ofExcept_bind (storedLine preset sidecar) _).trans ?_
    rw [hline]
    rfl

/-- What can be looked up after the proof is stored was there when it was built. -/
theorem exists_storedLine (hbuild : sidecar.buildProof h preset body = .ok proof) :
    ∃ line, storedLine preset sidecar = .ok line := by
  obtain ⟨-, -, ⟨g, hgindex⟩, -⟩ := buildProof_eq_ok_iff.mp hbuild
  rw [storedLine, hgindex]
  exact ⟨_, rfl⟩

theorem runOn_storeProof_eq_ok_iff {line? : Option String} {logged : Bool} :
    (storeProof h preset body logged).runOn sidecar = (.ok line?, stored) ↔
      sidecar.buildProof h preset body = .ok stored.inclusionProof ∧
      stored = { sidecar with inclusionProof := stored.inclusionProof } ∧
      ∃ line, storedLine preset sidecar = .ok line ∧
        line? = if logged then some line else none := by
  cases hbuild : sidecar.buildProof h preset body with
  | error e => simp [runOn_storeProof_of_error hbuild]
  | ok proof =>
    obtain ⟨line, hline⟩ := exists_storedLine hbuild
    rw [runOn_storeProof_of_ok hbuild hline, hline]
    simp only [Prod.mk.injEq, Except.ok.injEq, exists_eq_left']
    constructor
    · rintro ⟨rfl, rfl⟩
      exact ⟨rfl, rfl, rfl⟩
    · rintro ⟨rfl, hstored, rfl⟩
      exact ⟨rfl, hstored.symm⟩

theorem runOn_storeProof_eq_error_iff {logged : Bool} :
    (storeProof h preset body logged).runOn sidecar = (.error e, stored) ↔
      sidecar.buildProof h preset body = .error e ∧ stored = sidecar := by
  cases hbuild : sidecar.buildProof h preset body with
  | error e => simp [runOn_storeProof_of_error hbuild, eq_comm]
  | ok proof =>
    obtain ⟨line, hline⟩ := exists_storedLine hbuild
    simp [runOn_storeProof_of_ok hbuild hline]

theorem includeProof_eq_ok_iff :
    sidecar.includeProof h preset body = .ok stored ↔
      ∃ proof, sidecar.buildProof h preset body = .ok proof ∧
        { sidecar with inclusionProof := proof } = stored := by
  unfold includeProof
  cases hbuild : sidecar.buildProof h preset body with
  | error e => simp [runOn_storeProof_of_error hbuild]
  | ok proof =>
    obtain ⟨line, hline⟩ := exists_storedLine hbuild
    simp [runOn_storeProof_of_ok hbuild hline]

theorem verifyAgainstBody_eq_true_iff :
    sidecar.verifyAgainstBody h preset body = .ok true ↔
      sidecar.buildProof h preset body = .ok sidecar.inclusionProof := by
  simp only [verifyAgainstBody, bind_eq_ok_iff, pure_eq_ok_iff, beq_iff_eq, exists_eq_right]

/-- What a proof is built from does not include the proof that is there. -/
theorem buildProof_with_inclusionProof (sidecar : BlobSidecar) (proof : InclusionProof) :
    ({ sidecar with inclusionProof := proof } : BlobSidecar).buildProof h preset body
      = sidecar.buildProof h preset body := rfl

/--
Storing a proof either fails and changes nothing, or stores the proof that the body gives of the
commitment and nothing else, and then both checks accept it. What comes of it does not depend on
whether it is logged.
-/
theorem storeProof_atomic (h : HashFunction) (preset : Preset) (sidecar : BlobSidecar)
    (body : BlockBody) (logged : Bool) :
    (∀ e stored, (storeProof h preset body logged).runOn sidecar = (.error e, stored) →
      stored = sidecar) ∧
    (∀ line? stored, (storeProof h preset body logged).runOn sidecar = (.ok line?, stored) →
      stored = { sidecar with inclusionProof := stored.inclusionProof } ∧
      (∃ g, Inclusion.commitmentGindex preset sidecar.index.toNat = .ok g ∧
        body.prove h preset g = .ok stored.inclusionProof.nodes) ∧
      stored.verifyInclusion h preset = .ok true ∧
      stored.verifyAgainstBody h preset body = .ok true) ∧
    (∀ proof, sidecar.buildProof h preset body = .ok proof →
      ∃ g, Inclusion.commitmentGindex preset sidecar.index.toNat = .ok g) ∧
    (∀ logged', ((storeProof h preset body logged).runOn sidecar).2
        = ((storeProof h preset body logged').runOn sidecar).2 ∧
      ((storeProof h preset body logged).runOn sidecar).1.map (fun _ => ())
        = ((storeProof h preset body logged').runOn sidecar).1.map fun _ => ()) ∧
    (sidecar.verifyAgainstBody h preset body = .ok true →
      sidecar.verifyInclusion h preset = .ok true) := by
  refine ⟨?_, ?_, ?_, ?_, ?_⟩
  · intro e stored hrun
    exact (runOn_storeProof_eq_error_iff.mp hrun).2
  · intro line? stored hrun
    obtain ⟨hbuild, hstored, -⟩ := runOn_storeProof_eq_ok_iff.mp hrun
    have hsame : stored.buildProof h preset body = .ok stored.inclusionProof := by
      rw [← hbuild, hstored, buildProof_with_inclusionProof]
    obtain ⟨hcommitment, hroot, ⟨g, hgindex⟩, -, hproof⟩ := buildProof_eq_ok_iff.mp hbuild
    obtain ⟨hfits, -⟩ := BlockBody.hashTreeRoot_eq_ok_iff.mp hroot
    obtain ⟨hindex, -⟩ := List.getElem?_eq_some_iff.mp hcommitment
    refine ⟨hstored, ⟨g, hgindex, ?_⟩, verifyInclusion_of_buildProof hsame,
      verifyAgainstBody_eq_true_iff.mpr hsame⟩
    rw [hproof]
    exact BlockBody.prove_commitment hfits hindex hgindex
  · intro proof hbuild
    exact (buildProof_eq_ok_iff.mp hbuild).2.2.1
  · intro logged'
    cases hbuild : sidecar.buildProof h preset body with
    | error e =>
      rw [runOn_storeProof_of_error hbuild, runOn_storeProof_of_error hbuild]
      exact ⟨rfl, rfl⟩
    | ok proof =>
      obtain ⟨line, hline⟩ := exists_storedLine hbuild
      rw [runOn_storeProof_of_ok hbuild hline, runOn_storeProof_of_ok hbuild hline]
      exact ⟨rfl, rfl⟩
  · intro hverify
    exact verifyInclusion_of_buildProof (verifyAgainstBody_eq_true_iff.mp hverify)

def bareSidecar : BlobSidecar := { oneBlobSidecar with inclusionProof := ⟨[]⟩ }

theorem storeProof_atomic_bareSidecar :
    ∃ g, (storeProof .sha256 twoBlobs oneBlobBody true).runOn bareSidecar
        = (.ok (some "Included commitment proof for blob 0 at gindex 108"), oneBlobSidecar) ∧
      g.toNat = 108 ∧ Inclusion.commitmentGindex twoBlobs bareSidecar.index.toNat = .ok g ∧
      oneBlobBody.prove .sha256 twoBlobs g = .ok oneBlobSidecar.inclusionProof.nodes ∧
      oneBlobSidecar.verifyInclusion .sha256 twoBlobs = .ok true ∧
      oneBlobSidecar.verifyAgainstBody .sha256 twoBlobs oneBlobBody = .ok true := by
  have hline : storedLine twoBlobs bareSidecar
      = .ok "Included commitment proof for blob 0 at gindex 108" := rfl
  have hbuild : bareSidecar.buildProof .sha256 twoBlobs oneBlobBody
      = .ok oneBlobSidecar.inclusionProof :=
    (buildProof_with_inclusionProof oneBlobSidecar ⟨[]⟩).trans buildProof_oneBlobSidecar
  have hrun := runOn_storeProof_of_ok hbuild hline true
  obtain ⟨-, hstored, -⟩ :=
    storeProof_atomic .sha256 twoBlobs bareSidecar oneBlobBody true
  obtain ⟨-, ⟨g, hgindex, hprove⟩, hinclusion, hbody⟩ := hstored _ _ hrun
  have hg : Inclusion.commitmentGindex twoBlobs bareSidecar.index.toNat
      = .ok ⟨108, by decide, by decide⟩ := rfl
  refine ⟨g, hrun, ?_, hgindex, hprove, hinclusion, hbody⟩
  rw [hg] at hgindex
  cases hgindex
  rfl

end BlobSidecar

end SimpleSerialize
