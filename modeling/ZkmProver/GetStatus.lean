import ZkmProver.Client
import ZkmProver.Intake

/-! # Get status — `get_status`, and the files of a proof

    `get_status` reads the files of a finished proof by the paths of its
    context, two of them with `unwrap`.  They are written in three places:
    `generate_proof` fills the directory of the proof, a node that runs the
    split writes the segments and the output stream, and the stage writes
    `snark_path`.  A `Served` is one proof from its acceptance on: the worker
    with its row, the directory tree, and the files these three have written.

    A node's work is taken at the turn that receives its reply.  What the
    stage sees of the directory tree before that is chosen turn by turn
    anyway (`Disk`). -/

namespace ZkmProver

open Machine

/-! ## The call -/

/-- `GetStatusResponse` -/
structure GetStatusResponse where
  proofId : String
  status : Status
  proofWithPublicInputs : List UInt8
  snarkProofUrl : String
  starkProofUrl : String
  outputStream : List UInt8
  step : Step
  publicValuesUrl : String
  totalSteps : Nat
  receipt : List UInt8
  provingTime : Nat

/-- Its `Default`. -/
def GetStatusResponse.default : GetStatusResponse :=
  ⟨"", .Success, [], "", "", [], .Init, "", 0, [], 0⟩

/-- What `get_stage_task` finds. -/
structure StoredTask extends StageTask (List UInt8) where
  status : Status
  result : Option String

/-- The output stream and the receipt; `none` is the panic of an `unwrap`. -/
def StoredTask.streams (task : StoredTask)
    (read : String → Option (List UInt8)) :
    Option (List UInt8 × List UInt8) :=
  match task.context with
  | .request g =>
      if task.status = .Success ∧ g.outputStreamPath ≠ "" then do
        let outputStream ← read g.outputStreamPath
        if g.compositeProof then
          let receipt ← read (g.provePath ++ "/receipt/0")
          some (outputStream, receipt)
        else some (outputStream, [])
      else some ([], [])
  | _ => some ([], [])

/-- The target step, whether the proof is composite, and `snark_path`. -/
def StoredTask.aim (task : StoredTask) : Step × Bool × String :=
  match task.context with
  | .request g => (g.targetStep, g.compositeProof, g.snarkPath)
  | _ => (.Snark, false, "")

/-- The fields of the proof. -/
def StageServiceSVC.proofFields (svc : StageServiceSVC) (feat : Feature)
    (proofId : String) (task : StoredTask)
    (read : String → Option (List UInt8)) (response : GetStatusResponse) :
    GetStatusResponse :=
  let (targetStep, compositeProof, proofPath) := task.aim
  let url (rest : String) : String :=
    match svc.fileserverUrl with
    | some base => base ++ "/" ++ proofId ++ rest
    | none => ""
  let whole := feat = .prover ∧ targetStep = .Snark
  if targetStep ≠ .Split ∧ compositeProof = false then
    { response with
      proofWithPublicInputs :=
        match task.result with
        | none => []
        | some result =>
            if targetStep = .Agg ∧ task.status = .Success then
              (read proofPath).getD []
            else result.toUTF8.data.toList
      snarkProofUrl :=
        if whole then url "/snark/proof_with_public_inputs.json" else ""
      starkProofUrl :=
        if whole then url "/wrap/proof_with_public_inputs.json" else ""
      publicValuesUrl :=
        url ("/wrap/public_values." ++ StageServiceSVC.suffix feat) }
  else response

/-- `get_status`, with what the database and the directory tree hold. -/
def StageServiceSVC.getStatus (svc : StageServiceSVC) (feat : Feature)
    (proofId : String) (task : Option StoredTask)
    (executeInfo : List (SplitTask (List UInt8)))
    (read : String → Option (List UInt8)) : Option GetStatusResponse :=
  let response := { GetStatusResponse.default with proofId := proofId }
  match task with
  | none => some response
  | some task =>
      (task.streams read).map fun (outputStream, receipt) =>
        svc.proofFields feat proofId task read
          { response with
            status := task.status
            step := task.step
            provingTime := task.checkAt
            totalSteps := (executeInfo.head?.map (·.totalSteps)).getD 0
            outputStream := outputStream
            receipt := receipt }

/-- The files that are read with `unwrap` once the proof has succeeded. -/
def GenerateTask.mustRead {β : Type} (g : GenerateTask β) : List String :=
  if g.outputStreamPath = "" then []
  else if g.compositeProof then
    [g.outputStreamPath, g.provePath ++ "/receipt/0"]
  else [g.outputStreamPath]

/-- **THE READER**: a response, unless the proof has succeeded and a file is
    not there. -/
theorem getStatus_isSome (svc : StageServiceSVC) (feat : Feature)
    (proofId : String) (task : StoredTask)
    (executeInfo : List (SplitTask (List UInt8)))
    (read : String → Option (List UInt8)) :
    (svc.getStatus feat proofId (some task) executeInfo read).isSome = true ↔
      ∀ g, task.context = .request g → task.status = .Success →
        ∀ path ∈ g.mustRead, (read path).isSome = true := by
  rw [StageServiceSVC.getStatus]
  dsimp only
  rw [Option.isSome_map, StoredTask.streams]
  cases hctx : task.context with
  | absent => exact iff_of_true rfl fun g h => by cases h
  | undecodable => exact iff_of_true rfl fun g h => by cases h
  | request g =>
      dsimp only
      by_cases hst : task.status = .Success
      · by_cases hpath : g.outputStreamPath = ""
        · rw [if_neg fun h => h.2 hpath]
          refine iff_of_true rfl fun g' hg _ path hp => ?_
          cases hg
          rw [GenerateTask.mustRead, if_pos hpath] at hp
          exact absurd hp List.not_mem_nil
        · rw [if_pos ⟨hst, hpath⟩]
          have hread : (∀ g', Context.request g = .request g' →
              task.status = .Success →
              ∀ path ∈ g'.mustRead, (read path).isSome = true) ↔
              ∀ path ∈ g.mustRead, (read path).isSome = true := by
            constructor
            · exact fun h => h g rfl hst
            · intro h g' hg _
              cases hg
              exact h
          rw [hread, GenerateTask.mustRead, if_neg hpath]
          cases hout : read g.outputStreamPath <;>
            cases hreceipt : read (g.provePath ++ "/receipt/0") <;>
            cases g.compositeProof <;> simp [hout, hreceipt]
      · rw [if_neg fun h => hst h.1]
        exact iff_of_true rfl fun _ _ h => absurd h hst

/-! ## The split on a node -/

/-- What a node makes of the ELF: it cannot be read, or not parsed, or the
    emulator runs it.  A panic on the way is a file operation that fails. -/
inductive Emulation where
  | unread
  | rejected
  | ran (totalStep : Nat) (segments : List (String × List UInt8))
      (publicValuesStream : List UInt8)

/-- The file operations of `Executor::split`. -/
def Emulation.files {β : Type} (t : SplitTask β) : Emulation → List FileOp
  | .ran _ segments publicValuesStream =>
      .createDirAll t.segPath
        :: segments.map (fun s => .write (t.segPath ++ "/" ++ s.1) s.2)
        ++ [.write t.outputPath publicValuesStream]
  | _ => []

/-- The steps and segments that `Executor::split` returns, `none` for an
    error or a panic; `done` is whether all file operations succeeded. -/
def Emulation.split (done : Bool) : Emulation → Option (Nat × Nat)
  | .unread => some (0, 0)
  | .rejected => none
  | .ran totalStep segments _ =>
      if done then some (totalStep, segments.length) else none

/-- `split_elf` -/
def splitElf (result : Option (Nat × Nat)) : Response (List UInt8) where
  code :=
    match result with
    | none => some 2
    | some (totalStep, _) => if 0 < totalStep then some 0 else some 3
  output := []
  totalSteps := (result.map (·.1)).getD 0
  totalSegments := (result.map (·.2)).getD 0

/-- How the call of a split task came to its end: no node was asked, or a
    node ran it, and its reply came back or not. -/
inductive SplitCall where
  | unreached
  | ran (addrs : String) (e : Emulation) (io : Nat → IoAnswer)
      (answered : Bool)

section

variable {κ : Type} [DecidableEq κ]

/-- What the node does to the files. -/
def SplitCall.perform (resolve : String → κ) (site : Site κ)
    (t : SplitTask (List UInt8)) : SplitCall → CallRun κ
  | .unreached => ⟨true, site, []⟩
  | .ran _ e io _ => site.perform resolve (e.files t) io

end

/-- What `prover_client::split` makes of the task. -/
def SplitCall.reply (done : Bool) (t : SplitTask (List UInt8)) :
    SplitCall → SplitReply
  | .unreached => ⟨.Unprocessed, t.trace.nodeInfo, t.totalSteps, t.totalSegments⟩
  | .ran addrs e _ answered =>
      let response := if answered then some (splitElf (e.split done)) else none
      let t := splitReply addrs response { t with state := .Unprocessed }
      ⟨t.state, t.trace.nodeInfo, t.totalSteps, t.totalSegments⟩

/-! ## One proof from its acceptance on -/

/-- What the handler of a received message writes to `snark_path`. -/
def Event.writes {β : Type} (now : Nat) (w : World β) : Event β → Option β
  | .agg i r io =>
      (w.aggs[i]?).bind fun c =>
        (w.stage.onAggTask now io (r.agg c)).bind fun (_, _, file) => file
  | .snark i r io =>
      (w.snarks[i]?).bind fun c =>
        (w.stage.onSnarkTask now io (r.snark c)).map fun (_, _, file) => file
  | _ => none

/-- The same of one third of a turn. -/
def Ctl.writes {β : Type} (c : Ctl β) (a : Act β) : Option β :=
  match c, a with
  | .waiting _ w, .receive now event => event.writes now w
  | _, _ => none

/-- The copy in flight that a reply to a split belongs to. -/
def Ctl.splitCopy {β : Type} (c : Ctl β) (i : Nat) : Option (SplitTask β) :=
  match c with
  | .waiting _ w => w.splits[i]?
  | _ => none

/-- The worker receives a split. -/
def Act.isSplit {β : Type} : Act β → Bool
  | .receive _ (.split _ _) => true
  | _ => false

/-- A proof with its worker, the directory tree, and the files written by
    `generate_proof`, by the split and by the stage. -/
structure Served (κ : Type) where
  ctl : Ctl (List UInt8)
  site : Site κ
  written : List κ

/-- A step of the worker, of the node that splits for it, or of somebody else on
    the files. -/
inductive ServedAct where
  /-- a step of the worker that receives no split -/
  | worker (a : Act (List UInt8))
  /-- the worker receives the `i`-th split in flight -/
  | split (i : Nat) (now : Nat) (call : SplitCall)
  /-- a file is written by somebody else -/
  | elsewhere (path : String) (content : List UInt8)

namespace Served

variable {κ : Type} [DecidableEq κ]

/-- The worker takes up the row as `generate_proof` has queued it, behind the
    file operations `upload`.  Under feature `prover` no node implements
    `single_node`. -/
def start (resolve : String → κ) (row : InsertedRow) (b : Boot (List UInt8))
    (upload : CallRun κ) : Served κ where
  ctl := runStageTask .prover
    { context := .request row.context, checkAt := 0, step := .Init }
    { status := row.status, result := "", checkAt := 0, step := .Init }
    { b with
      file := upload.site.files (resolve row.context.snarkPath)
      single := ⟨.Unprocessed, "", 0, []⟩ }
  site := upload.site
  written := upload.touched

/-- The worker's step, and the files that it or the node has written then. -/
def step (resolve : String → κ) (snarkPath : String) (s : Served κ) :
    ServedAct → Option (Served κ)
  | .worker a =>
      if a.isSplit then none
      else
        (s.ctl.step .prover a).map fun ctl =>
          match s.ctl.writes a with
          | none => { s with ctl := ctl }
          | some content =>
              { ctl := ctl
                site := s.site.put (resolve snarkPath) content
                written := s.written ++ [resolve snarkPath] }
  | .split i now call =>
      (s.ctl.splitCopy i).bind fun t =>
        let r := call.perform resolve s.site t
        (s.ctl.step .prover
            (.receive now (.split i (call.reply r.done t)))).map fun ctl =>
          { ctl := ctl, site := r.site, written := s.written ++ r.touched }
  | .elsewhere path content =>
      some { s with site := s.site.put (resolve path) content }

/-- The states that the proof of an accepted call comes to. -/
def Runs (resolve : String → κ) (row : InsertedRow) (b : Boot (List UInt8))
    (upload : CallRun κ) (acts : List ServedAct) (s : Served κ) : Prop :=
  run (Served.step resolve row.context.snarkPath)
    (Served.start resolve row b upload) acts = some s

end Served

/-- The row of a proof as it is found when its worker has returned. -/
def InsertedRow.stored (row : InsertedRow) (returned : StageRow) :
    StoredTask where
  context := .request row.context
  checkAt := returned.checkAt
  step := returned.step
  status := returned.status
  result := some returned.result

end ZkmProver
