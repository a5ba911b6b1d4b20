import ZkmProver.Intake

/-! # Signed parameters — `verify_signature`

    A client signs one text for its `proof_id`, `block_no` and `seg_size`,
    joined by `&`; without a block number the text has one field less.  Texts
    of the same number of fields are read back from the right.  A request
    without a block number can spell one that has it, by a `proof_id` that
    ends in `&` and the number (`Spells`), and that is the only way for two
    requests to share a text (`sign_data_identifies`). -/

namespace ZkmProver

open Decimal

namespace GenerateProofRequest

/-- `sign_data` -/
def signData (request : GenerateProofRequest) : String :=
  match request.blockNo with
  | some blockNo =>
      request.proofId ++ "&" ++ Nat.repr blockNo ++ "&"
        ++ Nat.repr request.segSize
  | none => request.proofId ++ "&" ++ Nat.repr request.segSize

/-- `verify_signature`; `recover` reads a signature and recovers the address
    that has signed a text with it. -/
def verifySignature (recover : String → String → Option String)
    (request : GenerateProofRequest) : Option String :=
  recover request.signature request.signData

/-- What the signature is made for. -/
def parameters (request : GenerateProofRequest) : String × Option Nat × Nat :=
  (request.proofId, request.blockNo, request.segSize)

/-- The second request has no block number and spells that of the first in
    its `proof_id`. -/
def Spells (r r' : GenerateProofRequest) : Prop :=
  ∃ blockNo, r.blockNo = some blockNo ∧ r'.blockNo = none ∧
    r'.proofId = r.proofId ++ "&" ++ Nat.repr blockNo ∧ r'.segSize = r.segSize

variable {r r' : GenerateProofRequest}

theorem Spells.signData (h : r.Spells r') : r.signData = r'.signData := by
  obtain ⟨blockNo, hsome, hnone, hid, hseg⟩ := h
  rw [GenerateProofRequest.signData, hsome, GenerateProofRequest.signData, hnone,
    hid, hseg]

theorem Spells.parameters (h : r.Spells r') : r.parameters ≠ r'.parameters := by
  obtain ⟨blockNo, hsome, hnone, _, _⟩ := h
  intro heq
  have hno := (Prod.mk.inj (Prod.mk.inj heq).2).1
  rw [hsome, hnone] at hno
  exact nomatch hno

/-- One text, with a block number in one of the requests. -/
theorem spells_of_signData {blockNo : Nat} (hsome : r.blockNo = some blockNo)
    (hnone : r'.blockNo = none) (h : r.signData = r'.signData) :
    r.Spells r' := by
  rw [GenerateProofRequest.signData, hsome, GenerateProofRequest.signData,
    hnone] at h
  obtain ⟨hid, hseg⟩ := append_sep_inj h
  exact ⟨blockNo, hsome, hnone, hid.symm, hseg.symm⟩

/-- Texts of as many fields. -/
theorem parameters_of_signData (hno : r.blockNo.isSome = r'.blockNo.isSome)
    (h : r.signData = r'.signData) : r.parameters = r'.parameters := by
  rw [GenerateProofRequest.signData, GenerateProofRequest.signData] at h
  rw [GenerateProofRequest.parameters, GenerateProofRequest.parameters]
  cases hr : r.blockNo with
  | none =>
      cases hr' : r'.blockNo with
      | none =>
          rw [hr, hr'] at h
          obtain ⟨hid, hseg⟩ := append_sep_inj h
          rw [hid, hseg]
      | some blockNo =>
          rw [hr, hr'] at hno
          cases hno
  | some blockNo =>
      cases hr' : r'.blockNo with
      | none =>
          rw [hr, hr'] at hno
          cases hno
      | some blockNo' =>
          rw [hr, hr'] at h
          obtain ⟨hfront, hseg⟩ := append_sep_inj h
          obtain ⟨hid, hblock⟩ := append_sep_inj hfront
          rw [hid, hseg, hblock]

/-- **SIGNED PARAMETERS**: the text of a request identifies its parameters
    against another request, unless one of the two spells the other. -/
theorem sign_data_identifies (r r' : GenerateProofRequest) :
    (r.signData = r'.signData → r.parameters = r'.parameters) ↔
      ¬ r.Spells r' ∧ ¬ r'.Spells r := by
  constructor
  · intro h
    refine ⟨fun hs => ?_, fun hs => ?_⟩
    · exact hs.parameters (h hs.signData)
    · exact hs.parameters (h hs.signData.symm).symm
  · rintro ⟨hno, hno'⟩ heq
    cases hr : r.blockNo with
    | none =>
        cases hr' : r'.blockNo with
        | none => exact parameters_of_signData (by rw [hr, hr']) heq
        | some blockNo => exact absurd (spells_of_signData hr' hr heq.symm) hno'
    | some blockNo =>
        cases hr' : r'.blockNo with
        | none => exact absurd (spells_of_signData hr hr' heq) hno
        | some blockNo' => exact parameters_of_signData (by rw [hr, hr']; rfl) heq

/-- A signature for a request is good for the one that spells it. -/
theorem Spells.verified (h : r.Spells r') (hsig : r'.signature = r.signature)
    (recover : String → String → Option String) :
    r'.verifySignature recover = r.verifySignature recover := by
  rw [verifySignature, verifySignature, hsig, h.signData]

end GenerateProofRequest

/-! ## Two requests with one text -/

/-- The text of this request is `p&7&1024`. -/
def signedBlockRequest : GenerateProofRequest :=
  { privateRequest with blockNo := some 7 }

/-- And so is that of this one. -/
def spellingRequest : GenerateProofRequest :=
  { privateRequest with proofId := "p&7" }

/-- The signature of the one is good for the other. -/
theorem sign_data_shared :
    signedBlockRequest.signData = spellingRequest.signData ∧
      signedBlockRequest.parameters ≠ spellingRequest.parameters ∧
      ∀ recover, spellingRequest.verifySignature recover
        = signedBlockRequest.verifySignature recover := by
  have h : signedBlockRequest.Spells spellingRequest := ⟨7, rfl, rfl, rfl, rfl⟩
  exact ⟨h.signData, h.parameters, h.verified rfl⟩

end ZkmProver
