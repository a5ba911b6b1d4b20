import ZkmProver.Paths
import ZkmProver.Worker

/-! # Intake — `generate_proof`

    A call checks its request, writes the request's data into the directory of
    its proof, inserts a row and queues it.  What it asks of the world is a
    list of operations (`Upload`); each may fail, and the first that fails ends
    the call with an error.  A write that fails may have truncated its file
    before (`IoAnswer.cut`).

    Nothing is taken back.  So a call that fails has left a trace exactly when
    it came past its insert, or past the write of a file in the directory of
    a proof that was accepted before (`generate_proof_traceless`): the
    duplicate of a `proof_id` is only noticed by the insert. -/

namespace ZkmProver

open Forest Keyed Machine

/-! ## The request -/

/-- `GenerateProofRequest`; the steps are the integers of the message. -/
structure GenerateProofRequest where
  proofId : String
  elfData : List UInt8
  blockData : List (String × List UInt8)
  blockNo : Option Nat
  segSize : Nat
  elfId : Option String
  signature : String
  publicInputStream : List UInt8
  privateInputStream : List UInt8
  targetStep : Option Int
  compositeProof : Bool
  receiptInputs : List (List UInt8)
  receipts : List (List UInt8)
  fromStep : Option Int
  singleNode : Bool
  maxProverNum : Nat

/-- `GenerateProofResponse` -/
structure GenerateProofResponse where
  status : Status
  errorMessage : String
  proofId : String
  snarkProofUrl : String
  starkProofUrl : String
  publicValuesUrl : String

/-- `Step::from_i32` -/
def Step.fromI32 : Int → Option Step
  | 0 => some .Init
  | 1 => some .Split
  | 2 => some .Prove
  | 3 => some .Agg
  | 5 => some .Snark
  | 6 => some .End
  | _ => none

/-- `provers::valid_seg_size` -/
def validSegSize (segSize : Nat) : Bool := 1024 ≤ segSize && segSize ≤ 4194304

/-! ## `bincode::serialize_into` for `Vec<Vec<u8>>` -/

/-- `n` as eight bytes, the low ones first. -/
def putU64 (n : Nat) : List UInt8 :=
  (List.range 8).map fun k => UInt8.ofNat (n / 256 ^ k)

/-- `bincode::serialize` of a `Vec<Vec<u8>>`. -/
def putVec (items : List (List UInt8)) : List UInt8 :=
  putU64 items.length
    ++ items.flatMap fun item => putU64 item.length ++ item

example : Blob.deserialize (putVec [[7], [8, 9]]) = some [[7], [8, 9]] := by
  decide

/-! ## The service -/

/-- The columns of the row that the call fills in; the context is the
    serialized task. -/
structure InsertedRow where
  id : String
  address : String
  status : Status
  context : GenerateTask (List UInt8)

/-- The configuration, and what the call takes from outside: the signature
    check, the table of users (`none` when the query fails) and the hash of an
    ELF. -/
structure StageServiceSVC where
  baseDir : String
  proverAddrs : List String
  fileserverUrl : Option String
  verifySignature : GenerateProofRequest → Option String
  getUser : String → Option (List String)
  elfHash : List UInt8 → String

/-- An operation on the file system. -/
inductive FileOp where
  | createDirAll (path : String)
  | write (path : String) (content : List UInt8)

/-- How a call comes to its end. -/
inductive CallEnd where
  | response (r : GenerateProofResponse)
  /-- `Status::internal` -/
  | internal
  | panicked

/-- What a call sets out to do: its file operations in order, the row that it
    inserts and queues behind them, and its end when nothing fails. -/
structure Upload where
  files : List FileOp
  row : Option InsertedRow
  finish : CallEnd

/-- An upload of nothing. -/
def Upload.stop (finish : CallEnd) : Upload := ⟨[], none, finish⟩

/-- `InvalidParameter` -/
def GenerateProofRequest.invalid (req : GenerateProofRequest)
    (message : String) : CallEnd :=
  .response
    { status := .InvalidParameter
      errorMessage := message
      proofId := req.proofId
      snarkProofUrl := ""
      starkProofUrl := ""
      publicValuesUrl := "" }

namespace StageServiceSVC

variable (svc : StageServiceSVC) (feat : Feature) (req : GenerateProofRequest)

/-- The path and the id of the ELF, and the write of one that is not in the
    cache yet. -/
def elf (existsPath : String → Bool) (fromStep : Step) :
    Except String (String × String × List FileOp) :=
  if fromStep = .Init then
    let elfDir := svc.baseDir ++ "/elf"
    if req.elfData = [] then
      match req.elfId with
      | none => .error "elf_data or elf_id should not be empty"
      | some elfId =>
          -- remove "0x" if exists
          let elfId :=
            if elfId.startsWith "0x" then (elfId.drop 2).toString else elfId
          let elfPath := elfDir ++ "/" ++ elfId
          if existsPath elfPath then .ok (elfPath, elfId, [])
          else .error "elf_id not found"
    else
      let elfId := svc.elfHash req.elfData
      let elfPath := elfDir ++ "/" ++ elfId
      .ok (elfPath, elfId,
        if existsPath elfPath then [] else [.write elfPath req.elfData])
  else .ok ("", "", [])

/-- The directory of the proof. -/
def dirPath : String := svc.baseDir ++ "/proof/" ++ req.proofId

/-- The directory of its input streams. -/
def inputStreamDir : String := svc.dirPath req ++ "/input_stream"

/-- The path of an input that is not empty, and its write. -/
def input (name : String) (isEmpty : Bool) (content : List UInt8) :
    String × List FileOp :=
  let path := svc.inputStreamDir req ++ "/" ++ name
  if isEmpty then ("", []) else (path, [.write path content])

/-- The directory of its block. -/
def blockDir : String :=
  svc.dirPath req ++ "/0_" ++ toString (req.blockNo.getD 0)

/-- Up to the check of `receipt_inputs`. -/
def inputOps : List FileOp :=
  [.createDirAll (svc.dirPath req), .createDirAll (svc.blockDir req)]
    ++ req.blockData.map (fun item =>
      .write (svc.blockDir req ++ "/" ++ item.1) item.2)
    ++ [.createDirAll (svc.inputStreamDir req)]
    ++ (svc.input req "public_input" req.publicInputStream.isEmpty
      req.publicInputStream).2
    ++ (svc.input req "private_input" req.privateInputStream.isEmpty
      req.privateInputStream).2

/-- The ending of the file of public values. -/
def suffix : String :=
  match feat with
  | .prover => "json"
  | .proverV2 => "bin"

/-- Behind the check of `receipt_inputs`. -/
def receiptOps (fromStep : Step) : List FileOp :=
  let dir := svc.dirPath req
  (svc.input req "receipt_inputs" req.receiptInputs.isEmpty
      (putVec req.receiptInputs)).2
    ++ (svc.input req "receipts" req.receipts.isEmpty
      (putVec req.receipts)).2
    ++ [.createDirAll (dir ++ "/output_stream"),
      .createDirAll (dir ++ "/segment"),
      .createDirAll (dir ++ "/prove" ++ "/receipt"),
      .createDirAll (dir ++ "/wrap")]
    ++ (if fromStep = .Agg then
        -- dummy data in case of panic
        [.write (dir ++ "/wrap" ++ "/public_values." ++ suffix feat) []]
      else [])
    ++ [.createDirAll (dir ++ "/snark")]

/-- `GenerateTask::new`, as the call applies it. -/
def generateTask (elfPath elfId : String) (fromStep targetStep : Step) :
    GenerateTask (List UInt8) :=
  let dir := svc.dirPath req
  let nodes := svc.proverAddrs.length
  { programId := elfId
    baseDir := dir
    proofId := req.proofId
    version :=
      match feat with
      | .prover => .Zkm
      | .proverV2 => .Zkm2
    elfPath := elfPath
    segPath := dir ++ "/segment"
    provePath := dir ++ "/prove"
    aggPath := dir ++ "/aggregate"
    snarkPath := dir ++ "/snark" ++ "/proof_with_public_inputs.json"
    publicInputPath :=
      (svc.input req "public_input" req.publicInputStream.isEmpty
        req.publicInputStream).1
    privateInputPath :=
      (svc.input req "private_input" req.privateInputStream.isEmpty
        req.privateInputStream).1
    outputStreamPath :=
      match feat with
      | .prover => dir ++ "/output_stream" ++ "/output_stream"
      | .proverV2 => ""
    blockNo := some (req.blockNo.getD 0)
    segSize := req.segSize
    maxProverNum :=
      if req.maxProverNum = 0 ∨ nodes < req.maxProverNum then nodes
      else req.maxProverNum
    targetStep := targetStep
    fromStep := fromStep
    singleNode := req.singleNode
    compositeProof := req.compositeProof
    receiptInputsPath :=
      (svc.input req "receipt_inputs" req.receiptInputs.isEmpty
        (putVec req.receiptInputs)).1
    receiptsPath :=
      (svc.input req "receipts" req.receipts.isEmpty (putVec req.receipts)).1
    program := none }

/-- The response of an accepted call. -/
def accepted (targetStep : Step) : CallEnd :=
  let url (rest : String) : String :=
    match svc.fileserverUrl with
    | some base => base ++ "/" ++ req.proofId ++ rest
    | none => ""
  let whole := feat = .prover ∧ targetStep = .Snark
  .response
    { status := .Computing
      errorMessage := ""
      proofId := req.proofId
      snarkProofUrl :=
        if whole then url "/snark/proof_with_public_inputs.json" else ""
      starkProofUrl :=
        if whole then url "/wrap/proof_with_public_inputs.json" else ""
      publicValuesUrl :=
        if targetStep = .Split then ""
        else url ("/wrap/public_values." ++ suffix feat) }

/-- The part of the call behind its first checks. -/
def upload (address elfPath elfId : String) (elfOps : List FileOp)
    (fromStep targetStep : Step) : Upload :=
  if fromStep = .Agg ∧ (req.receiptInputs = [] ∨ req.singleNode = true) then
    { files := elfOps ++ svc.inputOps req
      row := none
      finish := req.invalid "receipt_inputs should not empty" }
  else
    { files := elfOps ++ svc.inputOps req ++ svc.receiptOps feat req fromStep
      row := some
        { id := req.proofId
          address := address
          status := .Computing
          context :=
            svc.generateTask feat req elfPath elfId fromStep targetStep }
      finish := svc.accepted feat req targetStep }

/-- `generate_proof` -/
def generateProof (existsPath : String → Bool) : Upload :=
  if feat = .prover ∧ req.compositeProof = false ∧
      validSegSize req.segSize = false then
    .stop (req.invalid "invalid seg_size support [1024-4194304]")
  else
    match svc.verifySignature req with
    | none => .stop (req.invalid "invalid signature")
    | some address =>
        match svc.getUser address with
        | none => .stop .panicked
        | some [] => .stop (req.invalid "permission denied")
        | some (user :: _) =>
            match Step.fromI32 (req.fromStep.getD 0) with
            | some .Init => withFrom user .Init
            | some .Agg => withFrom user .Agg
            | _ =>
                .stop (req.invalid
                  "invalid FromStep, only Support Init and Agg")
where
  withFrom (user : String) (fromStep : Step) : Upload :=
    match Step.fromI32 (req.targetStep.getD 5) with
    | some .Split => withTarget user fromStep .Split
    | some .Agg => withTarget user fromStep .Agg
    | some .Snark => withTarget user fromStep .Snark
    | _ =>
        .stop (req.invalid
          "invalid TargetStep, only Support Split, Agg and Snark")
  withTarget (user : String) (fromStep targetStep : Step) : Upload :=
    match svc.elf req existsPath fromStep with
    | .error message => .stop (req.invalid message)
    | .ok (elfPath, elfId, elfOps) =>
        svc.upload feat req user elfPath elfId elfOps fromStep targetStep

end StageServiceSVC

/-! ## Requests that are turned away -/

/-- `elf_id` without its `0x` -/
def StageServiceSVC.stripped (elfId : String) : String :=
  if elfId.startsWith "0x" then (elfId.drop 2).toString else elfId

/-- The checks in front of the first file operation. -/
structure Admits (svc : StageServiceSVC) (feat : Feature)
    (req : GenerateProofRequest) (existsPath : String → Bool) (user : String)
    (fromStep targetStep : Step) : Prop where
  size   : ¬ (feat = .prover ∧ req.compositeProof = false ∧
    validSegSize req.segSize = false)
  signed : ∃ address users, svc.verifySignature req = some address ∧
    svc.getUser address = some (user :: users)
  start  : Step.fromI32 (req.fromStep.getD 0) = some fromStep ∧
    (fromStep = .Init ∨ fromStep = .Agg)
  target : Step.fromI32 (req.targetStep.getD 5) = some targetStep ∧
    (targetStep = .Split ∨ targetStep = .Agg ∨ targetStep = .Snark)
  elf    : fromStep = .Init → req.elfData = [] → ∃ elfId,
    req.elfId = some elfId ∧
      existsPath (svc.baseDir ++ "/elf" ++ "/"
        ++ StageServiceSVC.stripped elfId) = true

/-- The request passes them. -/
def StageServiceSVC.Admitted (svc : StageServiceSVC) (feat : Feature)
    (req : GenerateProofRequest) (existsPath : String → Bool) : Prop :=
  ∃ user fromStep targetStep,
    Admits svc feat req existsPath user fromStep targetStep

section

variable {svc : StageServiceSVC} {feat : Feature} {req : GenerateProofRequest}
  {existsPath : String → Bool} {fromStep : Step}

/-- The ELF of the request is not in the cache yet. -/
def StageServiceSVC.Misses (svc : StageServiceSVC)
    (req : GenerateProofRequest) (existsPath : String → Bool)
    (fromStep : Step) : Prop :=
  fromStep = .Init ∧ req.elfData ≠ [] ∧
    existsPath (svc.baseDir ++ "/elf" ++ "/" ++ svc.elfHash req.elfData)
      = false

/-- An ELF that is found, in the request or in the cache. -/
theorem elf_ok {elfPath elfId : String} {elfOps : List FileOp}
    (h : svc.elf req existsPath fromStep = .ok (elfPath, elfId, elfOps)) :
    elfOps = [] ∨
      svc.Misses req existsPath fromStep ∧
        elfPath = svc.baseDir ++ "/elf" ++ "/" ++ svc.elfHash req.elfData ∧
        elfOps = [.write elfPath req.elfData] := by
  rw [StageServiceSVC.elf] at h
  split at h
  case isTrue hinit =>
    dsimp only at h
    split at h
    · split at h
      · cases h
      · split at h <;> split at h <;> cases h <;> exact Or.inl rfl
    case isFalse hdata =>
      cases h
      split
      · exact Or.inl rfl
      case isFalse hmiss =>
        exact Or.inr ⟨⟨hinit, hdata, Bool.eq_false_iff.mpr hmiss⟩, rfl, rfl⟩
  case isFalse =>
    cases h
    exact Or.inl rfl

/-- There is one unless the request has none and names none of the cache. -/
theorem elf_isOk :
    (∃ out, svc.elf req existsPath fromStep = .ok out) ↔
      (fromStep = .Init → req.elfData = [] → ∃ elfId,
        req.elfId = some elfId ∧
          existsPath (svc.baseDir ++ "/elf" ++ "/"
            ++ StageServiceSVC.stripped elfId) = true) := by
  rw [StageServiceSVC.elf]
  by_cases hinit : fromStep = .Init
  · rw [if_pos hinit]
    dsimp only
    by_cases hdata : req.elfData = []
    · rw [if_pos hdata]
      cases hid : req.elfId with
      | none => simp [hinit, hdata]
      | some elfId =>
          simp only [hinit, hdata, forall_const, Option.some.injEq,
            exists_eq_left', StageServiceSVC.stripped]
          cases existsPath (svc.baseDir ++ "/elf" ++ "/"
            ++ (if elfId.startsWith "0x" then (elfId.drop 2).toString
              else elfId)) <;> simp
    · rw [if_neg hdata]
      exact ⟨fun _ _ h => absurd h hdata, fun _ => ⟨_, rfl⟩⟩
  · rw [if_neg hinit]
    exact ⟨fun _ h => absurd h hinit, fun _ => ⟨_, rfl⟩⟩

/-- The call does nothing, and rightly so. -/
def Refused (svc : StageServiceSVC) (feat : Feature)
    (req : GenerateProofRequest) (existsPath : String → Bool) (u : Upload) :
    Prop :=
  ¬ svc.Admitted feat req existsPath ∧ u.files = [] ∧ u.row = none

/-- The call comes to its upload. -/
def Uploads (svc : StageServiceSVC) (feat : Feature)
    (req : GenerateProofRequest) (existsPath : String → Bool) (u : Upload) :
    Prop :=
  ∃ user fromStep targetStep elfPath elfId elfOps,
    Admits svc feat req existsPath user fromStep targetStep ∧
      svc.elf req existsPath fromStep = .ok (elfPath, elfId, elfOps) ∧
      u = svc.upload feat req user elfPath elfId elfOps fromStep targetStep

section

variable {user : String}
  (hsize : ¬ (feat = .prover ∧ req.compositeProof = false ∧
    validSegSize req.segSize = false))
  (hsigned : ∃ address users, svc.verifySignature req = some address ∧
    svc.getUser address = some (user :: users))
  (hstart : Step.fromI32 (req.fromStep.getD 0) = some fromStep ∧
    (fromStep = .Init ∨ fromStep = .Agg))

include hsize hsigned hstart

/-- With a target the request is refused or uploads. -/
theorem withTarget_cases {targetStep : Step}
    (htarget : Step.fromI32 (req.targetStep.getD 5) = some targetStep ∧
      (targetStep = .Split ∨ targetStep = .Agg ∨ targetStep = .Snark)) :
    Refused svc feat req existsPath (StageServiceSVC.generateProof.withTarget
        svc feat req existsPath user fromStep targetStep) ∨
      Uploads svc feat req existsPath (StageServiceSVC.generateProof.withTarget
        svc feat req existsPath user fromStep targetStep) := by
  rw [StageServiceSVC.generateProof.withTarget]
  split
  case h_1 message herror =>
    refine Or.inl ⟨?_, rfl, rfl⟩
    rintro ⟨_, fromStep', _, h⟩
    cases hstart.1.symm.trans h.start.1
    obtain ⟨out, hok⟩ := elf_isOk.mpr h.elf
    cases herror.symm.trans hok
  case h_2 elfPath elfId elfOps hok =>
    exact Or.inr ⟨user, fromStep, targetStep, elfPath, elfId, elfOps,
      ⟨hsize, hsigned, hstart, htarget, elf_isOk.mp ⟨_, hok⟩⟩, hok, rfl⟩

/-- So it does once its first step is known. -/
theorem withFrom_cases :
    Refused svc feat req existsPath (StageServiceSVC.generateProof.withFrom
        svc feat req existsPath user fromStep) ∨
      Uploads svc feat req existsPath (StageServiceSVC.generateProof.withFrom
        svc feat req existsPath user fromStep) := by
  rw [StageServiceSVC.generateProof.withFrom]
  split
  case h_1 htarget =>
    exact withTarget_cases hsize hsigned hstart ⟨htarget, Or.inl rfl⟩
  case h_2 htarget =>
    exact withTarget_cases hsize hsigned hstart
      ⟨htarget, Or.inr (Or.inl rfl)⟩
  case h_3 htarget =>
    exact withTarget_cases hsize hsigned hstart
      ⟨htarget, Or.inr (Or.inr rfl)⟩
  case h_4 hsplit hagg hsnark =>
    refine Or.inl ⟨?_, rfl, rfl⟩
    rintro ⟨_, _, targetStep, h⟩
    obtain ⟨htarget, rfl | rfl | rfl⟩ := h.target
    · exact hsplit htarget
    · exact hagg htarget
    · exact hsnark htarget

end

/-- **CHECKS**: a request that is turned away does nothing, and every other
    one comes to its upload. -/
theorem generateProof_cases (svc : StageServiceSVC) (feat : Feature)
    (req : GenerateProofRequest) (existsPath : String → Bool) :
    Refused svc feat req existsPath
        (svc.generateProof feat req existsPath) ∨
      Uploads svc feat req existsPath
        (svc.generateProof feat req existsPath) := by
  rw [StageServiceSVC.generateProof]
  split
  case isTrue hsize =>
    refine Or.inl ⟨?_, rfl, rfl⟩
    rintro ⟨_, _, _, h⟩
    exact h.size hsize
  case isFalse hsize =>
    split
    case h_1 hnone =>
      refine Or.inl ⟨?_, rfl, rfl⟩
      rintro ⟨_, _, _, h⟩
      obtain ⟨address, users, hsome, _⟩ := h.signed
      cases hnone.symm.trans hsome
    case h_2 address haddress =>
      -- without a user, whatever the query has answered
      have hno : ∀ {users}, svc.getUser address = users →
          (∀ user rest, users ≠ some (user :: rest)) →
          ¬ svc.Admitted feat req existsPath := by
        rintro users husers hne ⟨user, _, _, h⟩
        obtain ⟨address', rest, hsome, huser⟩ := h.signed
        cases haddress.symm.trans hsome
        exact hne user rest (husers.symm.trans huser)
      split
      case h_1 hquery =>
        exact Or.inl ⟨hno hquery (by rintro _ _ ⟨⟩), rfl, rfl⟩
      case h_2 hquery =>
        exact Or.inl ⟨hno hquery (by rintro _ _ ⟨⟩), rfl, rfl⟩
      case h_3 user users huser =>
        have hsigned : ∃ address users,
            svc.verifySignature req = some address ∧
              svc.getUser address = some (user :: users) :=
          ⟨address, users, haddress, huser⟩
        split
        case h_1 hstart =>
          exact withFrom_cases hsize hsigned ⟨hstart, Or.inl rfl⟩
        case h_2 hstart =>
          exact withFrom_cases hsize hsigned ⟨hstart, Or.inr rfl⟩
        case h_3 hinit hagg =>
          refine Or.inl ⟨?_, rfl, rfl⟩
          rintro ⟨_, fromStep, _, h⟩
          obtain ⟨hstart, rfl | rfl⟩ := h.start
          · exact hinit hstart
          · exact hagg hstart

end

/-! ## The world -/

/-- The files, by what a path resolves to, the rows of `stage_task`, and the
    queue. -/
structure Site (κ : Type) where
  files : κ → Option (List UInt8)
  rows : List InsertedRow
  queue : List InsertedRow

/-- How a file operation is answered: it succeeds, it fails before anything
    was done, or it fails behind `File::create`, with some bytes written. -/
inductive IoAnswer where
  | ok
  | refused
  | cut (left : List UInt8)

/-- What the call meets: the answers to its file operations, whether the
    insert comes through if its key is new, and whether the queue is open. -/
structure Io where
  file : Nat → IoAnswer
  inserts : Bool
  queueOpen : Bool

/-- What became of a list of file operations: whether all succeeded, and the
    files that were created, overwritten or truncated. -/
structure CallRun (κ : Type) where
  done : Bool
  site : Site κ
  touched : List κ

section

variable {κ : Type} [DecidableEq κ]

/-- The file gets this content. -/
def Site.put (s : Site κ) (f : κ) (content : List UInt8) : Site κ :=
  { s with files := Function.update s.files f (some content) }

/-- One file operation; `resolve` is the file that a path leads to. -/
def Site.attempt (resolve : String → κ) (s : Site κ) :
    FileOp → IoAnswer → CallRun κ
  | .createDirAll _, .ok => ⟨true, s, []⟩
  | .createDirAll _, _ => ⟨false, s, []⟩
  | .write path content, .ok =>
      ⟨true, s.put (resolve path) content, [resolve path]⟩
  | .write path _, .cut left =>
      ⟨false, s.put (resolve path) left, [resolve path]⟩
  | .write _ _, .refused => ⟨false, s, []⟩

/-- The file operations up to the first that fails. -/
def Site.perform (resolve : String → κ) :
    List FileOp → (Nat → IoAnswer) → Site κ → CallRun κ
  | [], _, s => ⟨true, s, []⟩
  | op :: ops, answers, s =>
      let first := s.attempt resolve op (answers 0)
      if first.done then
        let rest := first.site.perform resolve ops fun n => answers (n + 1)
        { rest with touched := first.touched ++ rest.touched }
      else first

/-- A whole call. -/
def Upload.call (resolve : String → κ) (u : Upload) (io : Io) (s : Site κ) :
    CallEnd × CallRun κ :=
  let r := s.perform resolve u.files io.file
  if r.done then
    match u.row with
    | none => (u.finish, r)
    | some row =>
        -- `id` is the primary key
        if r.site.rows.any (fun old => old.id = row.id) || !io.inserts then
          (.internal, { r with done := false })
        else
          let site := { r.site with rows := r.site.rows ++ [row] }
          if io.queueOpen then
            (u.finish,
              { r with site := { site with queue := site.queue ++ [row] } })
          else (.internal, { r with done := false, site := site })
  else (.internal, r)

end

/-- The call returns the status Computing. -/
def CallEnd.isComputing : CallEnd → Bool
  | .response r => r.status = .Computing
  | _ => false

/-! ## Traces -/

/-- The file lies in the directory of the proof `id`; `resolve` is where the
    file system finds what a path leads to. -/
def StageServiceSVC.Belongs (svc : StageServiceSVC)
    (resolve : String → Paths.Loc) (id : String) (f : Paths.Loc) : Prop :=
  (resolve (svc.baseDir ++ "/proof/" ++ id)).Under f

instance (svc : StageServiceSVC) (resolve : String → Paths.Loc) (id : String)
    (f : Paths.Loc) : Decidable (svc.Belongs resolve id f) :=
  inferInstanceAs (Decidable (Paths.Loc.Under _ _))

/-- A call that does not answer Computing leaves the rows as they were, and
    has touched no file of a proof that has a row. -/
def StageServiceSVC.Traceless (svc : StageServiceSVC)
    (resolve : String → Paths.Loc) (s : Site Paths.Loc)
    (out : CallEnd × CallRun Paths.Loc) : Prop :=
  out.1.isComputing = false →
    out.2.site.rows = s.rows ∧
    ∀ row ∈ s.rows, ∀ f ∈ out.2.touched, ¬ svc.Belongs resolve row.id f

/-- The write of the path is among the file operations up to the first that
    fails, and is not refused. -/
def Upload.Writes (u : Upload) (io : Io) (path : String) : Prop :=
  ∃ k content, u.files[k]? = some (.write path content) ∧
    (∀ j < k, io.file j = .ok) ∧ io.file k ≠ .refused

/-- Every file operation succeeds, the key is new and the insert comes
    through. -/
def Upload.Inserts {κ : Type} (u : Upload) (io : Io) (s : Site κ)
    (id : String) : Prop :=
  u.row.isSome = true ∧ (∀ k < u.files.length, io.file k = .ok) ∧
    (∀ row ∈ s.rows, row.id ≠ id) ∧ io.inserts = true

section

variable {κ : Type} [DecidableEq κ] {resolve : String → κ} {s : Site κ}
  {answers : Nat → IoAnswer} {ops : List FileOp} {f : κ}

/-- A file operation leaves the table alone, and the files it has not
    touched. -/
theorem attempt_frame (op : FileOp) (answer : IoAnswer) :
    (s.attempt resolve op answer).site.rows = s.rows ∧
      (f ∉ (s.attempt resolve op answer).touched →
        (s.attempt resolve op answer).site.files f = s.files f) := by
  have hput : ∀ path content, f ∉ [resolve path] →
      (s.put (resolve path) content).files f = s.files f := by
    intro path content hf
    exact Function.update_of_ne (fun heq => hf (List.mem_singleton.mpr heq)) ..
  cases op with
  | createDirAll path => cases answer <;> exact ⟨rfl, fun _ => rfl⟩
  | write path content =>
      cases answer with
      | ok => exact ⟨rfl, hput path content⟩
      | refused => exact ⟨rfl, fun _ => rfl⟩
      | cut left => exact ⟨rfl, hput path left⟩

/-- Operations leave the rows, and the files they do not touch. -/
theorem perform_frame :
    (s.perform resolve ops answers).site.rows = s.rows ∧
      (f ∉ (s.perform resolve ops answers).touched →
        (s.perform resolve ops answers).site.files f = s.files f) := by
  induction ops generalizing s answers with
  | nil => exact ⟨rfl, fun _ => rfl⟩
  | cons op ops ih =>
      obtain ⟨hrows, hfiles⟩ := @attempt_frame κ _ resolve s f op (answers 0)
      rw [Site.perform]
      dsimp only
      split
      · obtain ⟨hrows', hfiles'⟩ :=
          @ih (s.attempt resolve op (answers 0)).site fun n => answers (n + 1)
        refine ⟨hrows'.trans hrows, fun hf => ?_⟩
        rw [List.mem_append, not_or] at hf
        exact (hfiles' hf.2).trans (hfiles hf.1)
      · exact ⟨hrows, hfiles⟩

/-- An operation succeeds just when it is answered so. -/
theorem attempt_done (op : FileOp) (answer : IoAnswer) :
    (s.attempt resolve op answer).done = true ↔ answer = .ok := by
  cases op <;> cases answer <;> simp [Site.attempt]

/-- All succeed just when each is answered so. -/
theorem perform_done :
    (s.perform resolve ops answers).done = true ↔
      ∀ k < ops.length, answers k = .ok := by
  induction ops generalizing s answers with
  | nil => simp [Site.perform]
  | cons op ops ih =>
      rw [Site.perform]
      dsimp only
      split
      case isTrue hdone =>
        rw [attempt_done] at hdone
        rw [ih]
        constructor
        · intro h k hk
          cases k with
          | zero => exact hdone
          | succ k => exact h k (Nat.lt_of_succ_lt_succ hk)
        · exact fun h k hk => h (k + 1) (Nat.succ_lt_succ hk)
      case isFalse hdone =>
        constructor
        · exact fun h => absurd h hdone
        · exact fun h => (attempt_done op (answers 0)).mpr
            (h 0 (Nat.zero_lt_succ _))

/-- An operation touches the file it writes, unless it is refused. -/
theorem attempt_touched (op : FileOp) (answer : IoAnswer) :
    f ∈ (s.attempt resolve op answer).touched ↔
      ∃ path content, op = .write path content ∧ answer ≠ .refused ∧
        f = resolve path := by
  cases op with
  | createDirAll path => cases answer <;> simp [Site.attempt]
  | write path content => cases answer <;> simp [Site.attempt]

/-- **TOUCHED**: the files that were touched are those of the writes up to the
    first failure. -/
theorem perform_touched :
    f ∈ (s.perform resolve ops answers).touched ↔
      ∃ k path content, ops[k]? = some (.write path content) ∧
        (∀ j < k, answers j = .ok) ∧ answers k ≠ .refused ∧
        f = resolve path := by
  induction ops generalizing s answers with
  | nil => simp [Site.perform]
  | cons op ops ih =>
      have hfirst : f ∈ (s.attempt resolve op (answers 0)).touched →
          ∃ k path content, (op :: ops)[k]? = some (.write path content) ∧
            (∀ j < k, answers j = .ok) ∧ answers k ≠ .refused ∧
            f = resolve path := by
        intro hf
        obtain ⟨path, content, rfl, hans, heq⟩ := (attempt_touched op _).mp hf
        exact ⟨0, path, content, rfl, nofun, hans, heq⟩
      have hzero : ∀ {path content}, (op :: ops)[0]? = some (.write path content) →
          answers 0 ≠ .refused → f = resolve path →
          f ∈ (s.attempt resolve op (answers 0)).touched := by
        intro path content hop hans heq
        exact (attempt_touched op _).mpr
          ⟨path, content, Option.some.inj hop, hans, heq⟩
      rw [Site.perform]
      dsimp only
      split
      -- the first is done, and the others follow with the later answers
      case isTrue hdone =>
        rw [attempt_done] at hdone
        rw [List.mem_append, ih]
        constructor
        · rintro (hf | ⟨k, path, content, hk, hbefore, hans, heq⟩)
          · exact hfirst hf
          · refine ⟨k + 1, path, content, hk, fun j hj => ?_, hans, heq⟩
            cases j with
            | zero => exact hdone
            | succ j => exact hbefore j (Nat.lt_of_succ_lt_succ hj)
        · rintro ⟨k, path, content, hk, hbefore, hans, heq⟩
          cases k with
          | zero => exact Or.inl (hzero hk hans heq)
          | succ k =>
              exact Or.inr ⟨k, path, content, hk,
                fun j hj => hbefore (j + 1) (Nat.succ_lt_succ hj), hans, heq⟩
      -- the first fails, and nothing follows
      case isFalse hdone =>
        rw [attempt_done] at hdone
        constructor
        · exact hfirst
        · rintro ⟨k, path, content, hk, hbefore, hans, heq⟩
          cases k with
          | zero => exact hzero hk hans heq
          | succ k => exact absurd (hbefore 0 (Nat.zero_lt_succ k)) hdone

/-! ## The whole call -/

/-- What every upload of `generate_proof` is: its row has the key of the
    request, and its end is Computing just when it has a row. -/
structure Upload.Formed (u : Upload) (id : String) : Prop where
  key    : ∀ row, u.row = some row → row.id = id
  finish : u.finish.isComputing = u.row.isSome

variable {u : Upload} {io : Io} {id : String}

omit [DecidableEq κ] in
/-- An upload without a row does not end with Computing. -/
theorem formed_none (hrow : u.row = none) (h : u.finish.isComputing = false) :
    u.Formed id := by
  refine ⟨fun row hsome => ?_, ?_⟩
  · exact nomatch hrow.symm.trans hsome
  · rw [h, hrow]
    rfl

omit [DecidableEq κ] in
theorem invalid_isComputing (req : GenerateProofRequest) (message : String) :
    (req.invalid message).isComputing = false := rfl

/-- Whatever `generate_proof` does is formed. -/
theorem generateProof_formed (svc : StageServiceSVC) (feat : Feature)
    (req : GenerateProofRequest) (existsPath : String → Bool) :
    (svc.generateProof feat req existsPath).Formed req.proofId := by
  have hstop : ∀ message, (Upload.stop (req.invalid message)).Formed
      req.proofId :=
    fun message => formed_none rfl (invalid_isComputing req message)
  have hupload : ∀ address elfPath elfId elfOps fromStep targetStep,
      (svc.upload feat req address elfPath elfId elfOps fromStep
        targetStep).Formed req.proofId := by
    intro address elfPath elfId elfOps fromStep targetStep
    rw [StageServiceSVC.upload]
    split
    · exact formed_none rfl (invalid_isComputing req _)
    · refine ⟨fun row hrow => ?_, ?_⟩
      · cases hrow
        rfl
      · rw [StageServiceSVC.accepted]
        rfl
  -- the checks of the two steps, from the last one back
  have htarget : ∀ user fromStep targetStep,
      (StageServiceSVC.generateProof.withTarget svc feat req existsPath user
        fromStep targetStep).Formed req.proofId := by
    intro user fromStep targetStep
    rw [StageServiceSVC.generateProof.withTarget]
    split
    · exact hstop _
    · exact hupload ..
  have hfrom : ∀ user fromStep,
      (StageServiceSVC.generateProof.withFrom svc feat req existsPath user
        fromStep).Formed req.proofId := by
    intro user fromStep
    rw [StageServiceSVC.generateProof.withFrom]
    split
    · exact htarget ..
    · exact htarget ..
    · exact htarget ..
    · exact hstop _
  rw [StageServiceSVC.generateProof]
  split
  · exact hstop _
  · split
    · exact hstop _
    · split
      · exact formed_none rfl rfl
      · exact hstop _
      · split
        · exact hfrom ..
        · exact hfrom ..
        · exact hstop _

/-- A call touches what its files touch. -/
theorem call_touched (u : Upload) (io : Io) (s : Site κ) :
    (u.call resolve io s).2.touched
      = (s.perform resolve u.files io.file).touched := by
  rw [Upload.call]
  dsimp only
  split
  · split
    · rfl
    · split
      · rfl
      · split <;> rfl
  · rfl

/-- What a call leaves of the files is what its operations leave. -/
theorem call_files (u : Upload) (io : Io) (s : Site κ) :
    (u.call resolve io s).2.site.files
      = (s.perform resolve u.files io.file).site.files := by
  rw [Upload.call]
  dsimp only
  split
  · split
    · rfl
    · split
      · rfl
      · split <;> rfl
  · rfl

/-- A call whose row goes in. -/
theorem call_inserts {row : InsertedRow} (hrow : u.row = some row)
    (hkey : row.id = id) (h : u.Inserts io s id) :
    (u.call resolve io s).2.site.rows = s.rows ++ [row] ∧
      (u.call resolve io s).1 = if io.queueOpen then u.finish
        else .internal := by
  obtain ⟨_, hdone, hnew, hins⟩ := h
  have hrows : (s.perform resolve u.files io.file).site.rows = s.rows :=
    (@perform_frame κ _ resolve s io.file u.files (resolve "")).1
  have hnodup : (s.rows.any fun old => decide (old.id = row.id)) = false := by
    rw [List.any_eq_false]
    intro old hold heq
    exact hnew old hold ((of_decide_eq_true heq).trans hkey)
  rw [Upload.call]
  dsimp only
  rw [if_pos (perform_done.mpr hdone), hrow]
  dsimp only
  rw [hrows, hnodup, hins]
  cases io.queueOpen <;> exact ⟨rfl, rfl⟩

/-- A call whose row does not go in. -/
theorem call_stops (hu : u.Formed id) (h : ¬ u.Inserts io s id) :
    (u.call resolve io s).2.site.rows = s.rows ∧
      (u.call resolve io s).1.isComputing = false := by
  have hrows : (s.perform resolve u.files io.file).site.rows = s.rows :=
    (@perform_frame κ _ resolve s io.file u.files (resolve "")).1
  rw [Upload.call]
  dsimp only
  split
  case isTrue hdone =>
    split
    case h_1 hnone =>
      refine ⟨hrows, ?_⟩
      rw [hu.finish, hnone]
      rfl
    case h_2 row hrow =>
      split
      case isTrue => exact ⟨hrows, rfl⟩
      case isFalse hnew =>
        -- all went well up to the insert
        refine absurd ⟨?_, perform_done.mp hdone, ?_, ?_⟩ h
        · rw [hrow]
          rfl
        · intro old hold heq
          refine hnew (Bool.or_eq_true .. |>.mpr (Or.inl ?_))
          rw [hrows, List.any_eq_true]
          exact ⟨old, hold, decide_eq_true (heq.trans (hu.key row hrow).symm)⟩
        · cases hins : io.inserts with
          | true => rfl
          | false =>
              rw [hins, Bool.not_false, Bool.or_true] at hnew
              exact absurd rfl hnew
  case isFalse => exact ⟨hrows, rfl⟩

end

/-- **TRACES**: a call leaves no trace unless it answers Computing, exactly
    when its row went in and into the queue, or its row did not go in and none
    of the writes up to the first failure is to a file of a proof that has a
    row. -/
theorem generate_proof_traceless (svc : StageServiceSVC) (feat : Feature)
    (req : GenerateProofRequest) (existsPath : String → Bool)
    (resolve : String → Paths.Loc) (io : Io) (s : Site Paths.Loc) :
    svc.Traceless resolve s
        ((svc.generateProof feat req existsPath).call resolve io s) ↔
      (svc.generateProof feat req existsPath).Inserts io s req.proofId ∧
          io.queueOpen = true ∨
        ¬ (svc.generateProof feat req existsPath).Inserts io s req.proofId ∧
          ∀ path, (svc.generateProof feat req existsPath).Writes io path →
            ∀ row ∈ s.rows, ¬ svc.Belongs resolve row.id (resolve path) := by
  have hu := generateProof_formed svc feat req existsPath
  generalize svc.generateProof feat req existsPath = u at hu ⊢
  rw [StageServiceSVC.Traceless]
  by_cases hins : u.Inserts io s req.proofId
  · obtain ⟨row, hrow⟩ := Option.isSome_iff_exists.mp hins.1
    obtain ⟨hrows, hend⟩ :=
      @call_inserts Paths.Loc _ resolve s u io _ row hrow (hu.key row hrow) hins
    rw [hend]
    cases hq : io.queueOpen with
    | true =>
        refine iff_of_true (fun h => ?_) (Or.inl ⟨hins, rfl⟩)
        rw [if_pos rfl, hu.finish, hrow] at h
        exact nomatch h
    | false =>
        refine iff_of_false (fun h => ?_) ?_
        · -- the row stays behind
          have hsame := (h rfl).1
          rw [hrows] at hsame
          exact absurd hsame (by simp)
        · rintro (⟨_, hopen⟩ | ⟨hno, _⟩)
          · exact nomatch hopen
          · exact hno hins
  · obtain ⟨hrows, hend⟩ := @call_stops Paths.Loc _ resolve s u io _ hu hins
    constructor
    · intro h
      refine Or.inr ⟨hins, fun path hpath row hrow => ?_⟩
      obtain ⟨k, content, hk, hbefore, hans⟩ := hpath
      refine (h hend).2 row hrow _ ?_
      rw [call_touched, perform_touched]
      exact ⟨k, path, content, hk, hbefore, hans, rfl⟩
    · rintro (⟨hyes, _⟩ | ⟨_, hapart⟩)
      · exact absurd hyes hins
      · intro _
        refine ⟨hrows, fun row hrow f hf => ?_⟩
        rw [call_touched, perform_touched] at hf
        obtain ⟨k, path, content, hk, hbefore, hans, rfl⟩ := hf
        exact hapart path ⟨k, content, hk, hbefore, hans⟩ row hrow

/-! ## A request that is sent twice -/

/-- A service on `d` that takes every signature for that of its one user. -/
def oneUserSVC : StageServiceSVC where
  baseDir := "d"
  proverAddrs := ["a"]
  fileserverUrl := none
  verifySignature := fun _ => some "u"
  getUser := fun address => some [address]
  elfHash := fun _ => "h"

/-- A request with an ELF and a private input. -/
def privateRequest : GenerateProofRequest where
  proofId := "p"
  elfData := [1]
  blockData := []
  blockNo := none
  segSize := 1024
  elfId := none
  signature := ""
  publicInputStream := []
  privateInputStream := [2]
  targetStep := none
  compositeProof := false
  receiptInputs := []
  receipts := []
  fromStep := none
  singleNode := false
  maxProverNum := 0

/-- Where its private input goes. -/
def privatePath : String := "d/proof/p/input_stream/private_input"

/-- The proof is accepted and has its private input. -/
def acceptedSite : Site Paths.Loc where
  files := fun f => if f = Paths.resolve privatePath then some [1] else none
  rows := [⟨"p", "u", .Computing, .default⟩]
  queue := []

/-- Every operation succeeds. -/
def fairIo : Io := ⟨fun _ => .ok, true, true⟩

/-- The second request fails at its insert, and the private input of the
    proof is another one by then. -/
theorem private_input_overwritten :
    ¬ oneUserSVC.Traceless Paths.resolve acceptedSite
        ((oneUserSVC.generateProof .proverV2 privateRequest
          fun _ => true).call Paths.resolve fairIo acceptedSite) ∧
      ((oneUserSVC.generateProof .proverV2 privateRequest
        fun _ => true).call Paths.resolve fairIo acceptedSite).1
          = .internal ∧
      acceptedSite.files (Paths.resolve privatePath) = some [1] ∧
      ((oneUserSVC.generateProof .proverV2 privateRequest
        fun _ => true).call Paths.resolve fairIo acceptedSite).2.site.files
          (Paths.resolve privatePath) = some [2] := by
  have hend : ((oneUserSVC.generateProof .proverV2 privateRequest
      fun _ => true).call Paths.resolve fairIo acceptedSite).1
        = .internal := rfl
  refine ⟨fun h => ?_, hend, by decide, by decide⟩
  have htouched : Paths.resolve privatePath ∈ ((oneUserSVC.generateProof
      .proverV2 privateRequest fun _ => true).call Paths.resolve fairIo
        acceptedSite).2.touched := by decide
  refine (h (by rw [hend]; rfl)).2 _ (List.mem_singleton.mpr rfl) _ htouched ?_
  show oneUserSVC.Belongs Paths.resolve "p" (Paths.resolve privatePath)
  decide

end ZkmProver
