import Mathlib.Data.List.Sort
import ZkmProver.Tasks

/-! # The stage — one proof request's scheduler

    `Stage` and its methods.  A method that can panic returns `none` when it
    does; a method that writes the file at `snark_path` returns what it wrote.
    The UUID generator is the field `uuid`: the next id it will return.

    Loops over a task list that update the first entry passing a test are
    `findSome?` (the entry) and `replaceF` (the list); loops that create tasks
    recurse on the number still to create. -/

namespace ZkmProver

open Forest

variable {β : Type}

/-- A request and all its tasks; `isTasksGenDone` says that the list of prove
    tasks and the plan over it are complete. -/
structure Stage (β : Type) where
  generateTask : GenerateTask β
  splitTask : SplitTask β
  proveTasks : List (ProveTask β)
  aggTasks : List (AggTask β)
  snarkTask : SnarkTask β
  isError : Bool
  errmsg : String
  step : Step
  isTasksGenDone : Bool
  uuid : Nat

/-- `FIRST_LAYER_BATCH_SIZE` of `prover_v2`. -/
def firstLayerBatchSize : Nat := 1

/-- The program of a task: the `todo!` on a positive block number and the two
    `expect`s on the receipts file are the panics. -/
def GenerateTask.genProgram [Blob β] (g : GenerateTask β) (disk : Disk β) :
    Option (Program β) :=
  match g.program with
  | some program => some program
  | none =>
      if 0 < g.blockNo.getD 0 then none
      else
        let receipts :=
          if g.receiptInputsPath = "" then some []
          else (disk.read g.receiptInputsPath).bind Blob.deserialize
        receipts.map fun receipts =>
          { version := g.version
            elfPath := g.elfPath
            blockData := []
            blockNo := g.blockNo
            segSize := g.segSize
            publicInputStream := safeRead disk g.publicInputPath
            privateInputStream := safeRead disk g.privateInputPath
            targetStep := g.targetStep
            compositeProof := g.compositeProof
            receipts := receipts
            proofId := g.proofId
            outputStream := safeRead disk g.outputStreamPath }

/-- The normal prove task of segment `fileNo`. -/
def segTask [Blob β] (g : GenerateTask β) (program : Program β)
    (uuid : Nat) (fileNo : Nat) : ProveTask β where
  taskId := uuid
  programId := g.programId
  proofId := g.proofId
  state := .Unprocessed
  trace := .default
  baseDir := g.baseDir
  fileNo := fileNo
  isDeferred := false
  segment := g.segPath ++ "/" ++ toString fileNo
  program := program
  output := Blob.empty
  failureCount := 0

/-- The prove task of a deferred proof, born successful. -/
def deferredTask (g : GenerateTask β) (program : Program β)
    (uuid : Nat) (fileNo : Nat) (content : β) : ProveTask β where
  taskId := uuid
  programId := ""
  proofId := g.proofId
  state := .Success
  trace := .default
  baseDir := g.baseDir
  fileNo := fileNo
  isDeferred := true
  segment := ""
  program := program
  output := content
  failureCount := 0

/-- The `deferred_proof_<n>` files of a listing, in increasing number. -/
def deferredFiles (files : List String) : List (Nat × String) :=
  (files.filterMap fun name => (deferredNumber name).map (·, name)).insertionSort
    fun a b => a.1 ≤ b.1

/-- The last element is the root of the plan. -/
def markFinal : List (AggTask β) → List (AggTask β)
  | [] => []
  | [a] => [{ a with isFinal := true }]
  | a :: b :: as => a :: markFinal (b :: as)

/-! ## The plan under feature `prover` -/

section Pairs

variable [Blob β]

/-- `for i in (0..current_length - 1).step_by(2)`: one task over each pair of
    neighbours, `i` of them made before. -/
def pairUp {α γ : Type} (init : Nat → α → α → Nat → γ) :
    Nat → Nat → List α → List γ
  | uuid, i, l :: r :: rest =>
      init uuid l r (i + 1) :: pairUp init (uuid + 1) (i + 1) rest
  | _, _, _ => []

/-- The loop over the prove tasks. -/
def pairProveTasks : Nat → Nat → List (ProveTask β) → List (AggTask β) :=
  pairUp AggTask.initFromTwoProveTask

/-- The loop over a layer of agg tasks. -/
def pairAggTasks : Nat → Nat → List (AggTask β) → List (AggTask β) :=
  pairUp AggTask.initFromTwoAggTask

/-- The element left over by the pairs of an odd row. -/
def oddLast {α : Type} (l : List α) : Option α :=
  if l.length % 2 = 1 then l.getLast? else none

/-- `while current_length > 1`: the tasks pushed above a layer `result`.  Each
    round groups the layer and carries some of it over. -/
def layersOver (group : Nat → Nat → List (AggTask β) → List (AggTask β))
    (carry : List (AggTask β) → List (AggTask β)) :
    Nat → Nat → Nat → List (AggTask β) → List (AggTask β)
  | 0, _, _, _ => []
  | fuel + 1, uuid, i, result =>
      if 1 < result.length then
        let pushed := group uuid i result
        pushed ++ layersOver group carry fuel (uuid + pushed.length)
          (i + pushed.length) (pushed ++ carry result)
      else []

/-- The layers above the first pairs. -/
def aggLayers : Nat → Nat → Nat → List (AggTask β) → List (AggTask β) :=
  layersOver pairAggTasks fun result => (oddLast result).toList

/-! ## The plan under feature `prover_v2` -/

/-- `for batch in result.chunks(batch_size)`. -/
def batchAggTasks (uuid i : Nat) (result : List (AggTask β)) :
    List (AggTask β) :=
  (chunks 2 result).mapIdx fun k batch =>
    AggTask.initFromAggTasks (uuid + k) batch (i + k) false

/-- The layers above the leaves. -/
def aggLayersV2 : Nat → Nat → Nat → List (AggTask β) → List (AggTask β) :=
  layersOver batchAggTasks fun _ => []

/-- The leaf layer over the normal prove tasks. -/
def leafLayer (vk : β) (uuid : Nat) (isComplete : Bool)
    (normal : List (ProveTask β)) : List (AggTask β) :=
  (chunks firstLayerBatchSize normal).mapIdx fun k batch =>
    AggTask.initFromProveTasks (uuid + k) vk batch k isComplete (k = 0) false

/-- The leaves over deferred proofs, one each. -/
def deferredLayer (vk : β) (uuid : Nat) (aggIndex : Nat)
    (isComplete : Bool) (deferred : List (ProveTask β)) : List (AggTask β) :=
  deferred.mapIdx fun k t =>
    AggTask.initFromProveTasks (uuid + k) vk (Batch.single t) (aggIndex + k)
      isComplete false true

/-- The first row of tasks: normal batches, then deferred proofs. -/
def firstLayer (vk : β) (uuid : Nat) (isComplete : Bool)
    (normal deferred : List (ProveTask β)) : List (AggTask β) :=
  let first := leafLayer vk uuid isComplete normal
  first ++ deferredLayer vk (uuid + first.length) first.length isComplete
    deferred

end Pairs

namespace Stage

/-- `Stage::new` -/
def new [Blob β] (g : GenerateTask β) : Stage β where
  generateTask := g
  splitTask := .default
  proveTasks := []
  aggTasks := []
  snarkTask := .default
  isError := false
  errmsg := ""
  step := g.fromStep
  isTasksGenDone := false
  uuid := 1

/-- `is_success` -/
def isSuccess (s : Stage β) : Bool :=
  s.step = .End || s.snarkTask.state = .Success

/-! ## Split -/

/-- `gen_split_task`; the assertion is on the state of the split task. -/
def genSplitTask (s : Stage β) : Option (Stage β) :=
  let g := s.generateTask
  if s.splitTask.state = .Initial then
    some
      { s with
        splitTask :=
          { s.splitTask with
            programId := g.programId
            proofId := g.proofId
            baseDir := g.baseDir
            elfPath := g.elfPath
            segPath := g.segPath
            publicInputPath := g.publicInputPath
            privateInputPath := g.privateInputPath
            recepitInputsPath := g.receiptInputsPath
            outputPath := g.outputStreamPath
            blockNo := g.blockNo
            segSize := g.segSize
            taskId := s.uuid
            state := .Unprocessed }
        uuid := s.uuid + 1 }
  else none

/-- `get_split_task` -/
def getSplitTask (now : Nat) (s : Stage β) : Option (SplitTask β) × Stage β :=
  match getTask now s.splitTask.toTaskHead with
  | some t =>
      let t := { s.splitTask with toTaskHead := t }
      (some t, { s with splitTask := t })
  | none => (none, s)

/-- The totals are copied whatever the result. -/
def onSplitTask (now : Nat) (t : SplitTask β) (s : Stage β) :
    Stage β × SplitTask β :=
  ({ s with
      splitTask :=
        { s.splitTask with
          toTaskHead := onTask now t.toTaskHead s.splitTask.toTaskHead
          totalSteps := t.totalSteps
          totalSegments := t.totalSegments }
      isError := s.isError || t.state = .Failed },
    { t with toTaskHead := stampSrc now t.toTaskHead })

/-! ## Prove -/

section Prove

variable [Blob β]

/-- `task_with_no` -/
def taskWithNo (s : Stage β) (disk : Disk β) (uuid : Nat) (fileNo : Nat) :
    Option (ProveTask β) :=
  (s.generateTask.genProgram disk).map fun program =>
    segTask s.generateTask program uuid fileNo

/-- `task_with_no` for `count` consecutive segments from `fileNo` on. -/
def tasksWithNo (s : Stage β) (disk : Disk β) :
    Nat → Nat → Nat → Option (List (ProveTask β))
  | 0, _, _ => some []
  | count + 1, uuid, fileNo =>
      (s.taskWithNo disk uuid fileNo).bind fun t =>
        (s.tasksWithNo disk count (uuid + 1) (fileNo + 1)).map (t :: ·)

/-- Append the tasks of segments `proveTasks.len()..upto`. -/
def extendProveTasks (s : Stage β) (disk : Disk β) (upto : Nat) :
    Option (Stage β) :=
  let count := upto - s.proveTasks.length
  (s.tasksWithNo disk count s.uuid s.proveTasks.length).map fun tasks =>
    { s with proveTasks := s.proveTasks ++ tasks, uuid := s.uuid + count }

/-- The number in `segments.txt`, if it can be read. -/
def fileNumbers (s : Stage β) (disk : Disk β) : Option Nat :=
  (disk.readToString (s.generateTask.segPath ++ "/segments.txt")).bind
    fun content => parseUsize (trim content.toList)

/-- Pre-allocate 64 tasks. -/
def preallocate (s : Stage β) (disk : Disk β) : Option (Stage β) :=
  if s.proveTasks.isEmpty then s.extendProveTasks disk 64 else some s

/-- `gen_prove_task`: as many prove tasks as there are segments so far, so that
    they can be proved while the split goes on. -/
def genProveTask (s : Stage β) (disk : Disk β) : Option (Stage β) :=
  if s.generateTask.targetStep = .Split ∨ s.isTasksGenDone then some s
  else do
    let s ← s.preallocate disk
    match s.fileNumbers disk with
    | none => some s
    | some fileNumbers => s.extendProveTasks disk fileNumbers

/-- The deferred prove tasks of the listing, from the ids `uuid` on. -/
def deferredTasks (s : Stage β) (disk : Disk β) (program : Program β)
    (files : List (Nat × String)) : List (ProveTask β) :=
  files.mapIdx fun k file =>
    deferredTask s.generateTask program (s.uuid + k) file.1
      (safeRead disk (s.generateTask.segPath ++ "/" ++ file.2))

/-- The deferred part of `gen_prove_task_post`; `gen_program` is called once
    per file, so not at all when there are none. -/
def genDeferredTasks (s : Stage β) (disk : Disk β) : Option (Stage β) := do
  let files ← disk.readDir s.generateTask.segPath
  let files := deferredFiles files
  if files.isEmpty then some s
  else
    let program ← s.generateTask.genProgram disk
    some
      { s with
        proveTasks := s.proveTasks ++ s.deferredTasks disk program files
        uuid := s.uuid + files.length }

/-- Ensure all the prove tasks are generated, and no more. -/
def completeProveTasks (s : Stage β) (disk : Disk β) : Option (Stage β) :=
  let total := s.splitTask.totalSegments
  if total < s.proveTasks.length then
    some { s with proveTasks := s.proveTasks.take total }
  else s.extendProveTasks disk total

/-- `gen_prove_task_post` -/
def genProveTaskPost (feat : Feature) (s : Stage β) (disk : Disk β) :
    Option (Stage β) := do
  let s ← s.completeProveTasks disk
  match feat with
  | .proverV2 => s.genDeferredTasks disk
  | .prover =>
      if s.proveTasks.length < 2 then
        some
          { s with
            isError := true
            errmsg := "Segment count is " ++ toString s.proveTasks.length
              ++ ", please reduce SEG_SIZE !" }
      else some s

end Prove

/-- Hand out the prove task if it waits and its segment file is there. -/
def handProve (disk : Disk β) (now : Nat) (t : ProveTask β) :
    Option (ProveTask β) :=
  if t.state.waiting && disk.existsPath t.segment then
    some { t with toTaskHead := t.toTaskHead.handOut now }
  else none

/-- `get_prove_task` -/
def getProveTask (disk : Disk β) (now : Nat) (s : Stage β) :
    Option (ProveTask β) × Stage β :=
  (s.proveTasks.findSome? (handProve disk now),
    { s with proveTasks := s.proveTasks.replaceF (handProve disk now) })

/-- `clear_agg_child_task`: the first agg task that has the child. -/
def clearAggChildTask (taskId : Nat) (s : Stage β) : Stage β :=
  { s with aggTasks := s.aggTasks.replaceF (AggTask.clearChildTask taskId) }

/-- The stage's prove task that a result is for. -/
def matchProve (t item : ProveTask β) : Bool :=
  item.taskId = t.taskId && item.state = .Processing

/-- The result, on the task it is for. -/
def takeProve (now : Nat) (t item : ProveTask β) : Option (ProveTask β) :=
  if matchProve t item then some (onProveTaskDst now t item) else none

/-- `on_prove_task`; only a task that is out takes the result, but a success
    clears the child in any case. -/
def onProveTask (now : Nat) (t : ProveTask β) (s : Stage β) :
    Stage β × ProveTask β :=
  let hit := s.proveTasks.find? (matchProve t)
  let s :=
    { s with
      proveTasks := s.proveTasks.replaceF (takeProve now t)
      isError := s.isError || hit.any (onProveTaskError t) }
  let s := if t.state = .Success then s.clearAggChildTask t.taskId else s
  (s, if hit.isSome then { t with toTaskHead := stampSrc now t.toTaskHead }
      else t)

/-- `count_unfinished_prove_tasks` -/
def countUnfinishedProveTasks (s : Stage β) : Nat :=
  s.proveTasks.countP fun t => t.state ≠ .Success

/-- `count_processing_prove_tasks` -/
def countProcessingProveTasks (s : Stage β) : Nat :=
  s.proveTasks.countP fun t => t.state = .Processing

/-! ## Aggregate -/

section Agg

variable [Blob β]

/-- `gen_agg_tasks` of feature `prover`; `current_length - 1` underflows on an
    empty list. -/
def genAggTasksV1 (s : Stage β) : Option (Stage β) :=
  if s.proveTasks.isEmpty then none
  else
    let pairs := pairProveTasks s.uuid 0 s.proveTasks
    let single := (oddLast s.proveTasks).map fun t =>
      AggTask.initFromSingleProveTask t (pairs.length + 1)
    let result := pairs ++ single.toList
    let layers := aggLayers result.length (s.uuid + pairs.length) pairs.length
      result
    some
      { s with
        aggTasks := markFinal (s.aggTasks ++ result ++ layers)
        uuid := s.uuid + pairs.length + layers.length }

/-- `gen_agg_tasks` of feature `prover_v2`. -/
def genAggTasksV2 (s : Stage β) (disk : Disk β) : Option (Stage β) :=
  (disk.read (s.generateTask.baseDir ++ "/vk.bin")).map fun vk =>
    let normal := s.proveTasks.filter fun t => !t.isDeferred
    let deferred := s.proveTasks.filter fun t => t.isDeferred
    let isComplete := normal.length = 1 && deferred.isEmpty
    let result := firstLayer vk s.uuid isComplete normal deferred
    let layers := aggLayersV2 result.length (s.uuid + result.length)
      result.length result
    { s with
      aggTasks := markFinal (s.aggTasks ++ result ++ layers)
      uuid := s.uuid + result.length + layers.length }

/-- `gen_agg_tasks` -/
def genAggTasks (feat : Feature) (s : Stage β) (disk : Disk β) :
    Option (Stage β) :=
  match feat with
  | .prover => s.genAggTasksV1
  | .proverV2 => s.genAggTasksV2 disk

end Agg

/-- The output of the task an input names; `none` is a failed `find`. -/
def findReceipt (s : Stage β) (input : AggregateInput β) : Option β :=
  if input.isAgg then
    (s.aggTasks.find? fun x => x.taskId = input.computedRequestId).map (·.output)
  else
    (s.proveTasks.find? fun x => x.taskId = input.computedRequestId).map
      (·.output)

/-- Fill in the inputs of a task that is handed out. -/
def fillInputs (s : Stage β) :
    List (AggregateInput β) → Option (List (AggregateInput β))
  | [] => some []
  | input :: inputs =>
      (s.findReceipt input).bind fun receipt =>
        (s.fillInputs inputs).map ({ input with receiptInput := receipt } :: ·)

/-- Hand out the agg task if no child is pending and it waits. -/
def handAgg (now : Nat) (a : AggTask β) : Option (AggTask β) :=
  if a.childs.any Option.isSome then none
  else if a.state.waiting then
    some { a with toTaskHead := a.toTaskHead.handOut now }
  else none

/-- `get_agg_task`; the receipts of the inputs are filled into the copy alone. -/
def getAggTask (now : Nat) (s : Stage β) :
    Option (Option (AggTask β) × Stage β) :=
  let s' := { s with aggTasks := s.aggTasks.replaceF (handAgg now) }
  match s.aggTasks.findSome? (handAgg now) with
  | none => some (none, s')
  | some a =>
      (s'.fillInputs a.inputs).map fun inputs =>
        (some { a with inputs := inputs }, s')

/-- The stage's agg task that a result is for. -/
def matchAgg (t item : AggTask β) : Bool :=
  item.taskId = t.taskId && item.state = .Processing

/-- The result, on the task it is for. -/
def takeAgg (now : Nat) (t item : AggTask β) : Option (AggTask β) :=
  if matchAgg t item then
    some { item with toTaskHead := onTask now t.toTaskHead item.toTaskHead }
  else none

/-- The third component is what is written to `snark_path`; `io` says whether
    that file can be created and written. -/
def onAggTask (now : Nat) (io : Bool) (t : AggTask β) (s : Stage β) :
    Option (Stage β × AggTask β × Option β) :=
  let hit := s.aggTasks.find? (matchAgg t)
  let s :=
    { s with
      aggTasks := s.aggTasks.replaceF (takeAgg now t)
      isError := s.isError || (hit.isSome && t.state = .Failed) }
  let t' := if hit.isSome then
    { t with toTaskHead := stampSrc now t.toTaskHead } else t
  if t.state = .Success then
    let s := s.clearAggChildTask t.taskId
    if t.isFinal && s.generateTask.targetStep = .Agg then
      -- `snark_path` also stores the aggregate proof
      if io then some (s, t', some t.output) else none
    else some (s, t', none)
  else some (s, t', none)

/-! ## Snark -/

section Snark

variable [Blob β]

/-- `gen_snark_task`, over the last aggregated proof or the first given
    receipt. -/
def genSnarkTask (s : Stage β) (disk : Disk β) : Option (Stage β) :=
  if s.snarkTask.state = .Initial then
    let g := s.generateTask
    let snark :=
      { s.snarkTask with
        proofId := g.proofId
        inputDir := g.aggPath
        outputPath := g.snarkPath
        taskId := s.uuid
        state := .Unprocessed }
    let s := { s with uuid := s.uuid + 1 }
    match g.fromStep with
    | .Init =>
        match (s.aggTasks.filter fun a => a.isFinal).getLast? with
        | none => some { s with snarkTask := snark }
        | some a =>
            some
              { s with
                snarkTask :=
                  { snark with aggReceipt := a.output, fromInput := false } }
    | .Agg =>
        match (disk.read g.receiptInputsPath).bind Blob.deserialize with
        | some (receipt :: _) =>
            some
              { s with
                snarkTask :=
                  { snark with aggReceipt := receipt, fromInput := true } }
        | _ => none
    | _ => none
  else none

end Snark

/-- `get_snark_task` -/
def getSnarkTask (now : Nat) (s : Stage β) : Option (SnarkTask β) × Stage β :=
  match getTask now s.snarkTask.toTaskHead with
  | some t =>
      let t := { s.snarkTask with toTaskHead := t }
      (some t, { s with snarkTask := t })
  | none => (none, s)

/-- The file is written before the result is looked at. -/
def onSnarkTask (now : Nat) (io : Bool) (t : SnarkTask β) (s : Stage β) :
    Option (Stage β × SnarkTask β × β) :=
  if io then
    some
      ({ s with
          snarkTask :=
            { s.snarkTask with
              toTaskHead := onTask now t.toTaskHead s.snarkTask.toTaskHead }
          isError := s.isError || t.state = .Failed },
        { t with toTaskHead := stampSrc now t.toTaskHead }, t.output)
  else none

/-! ## Single node -/

/-- `get_single_node_task` -/
def getSingleNodeTask [Blob β] (s : Stage β) : SingleNodeTask β where
  toTaskHead :=
    { TaskHead.default with
      taskId := s.uuid
      proofId := s.generateTask.proofId
      state := .Unprocessed }
  programId := s.generateTask.programId
  baseDir := s.generateTask.baseDir
  elfPath := s.generateTask.elfPath
  privateInputPath := s.generateTask.privateInputPath
  receiptInputsPath := s.generateTask.receiptInputsPath
  targetStep := s.generateTask.targetStep
  segSize := s.generateTask.segSize
  totalCycles := 0

/-- The second component is what is written to `snark_path`. -/
def onSingleNodeTask (io : Bool) (t : SingleNodeTask β) (s : Stage β) :
    Option (Stage β × Option β) :=
  if t.state = .Success then
    if s.generateTask.targetStep = .Agg then
      if io then some ({ s with step := .End }, some t.output) else none
    else some ({ s with step := .End }, none)
  else some ({ s with isError := true }, none)

/-! ## Dispatch -/

section Dispatch

variable [Blob β]

/-- Catch up on prove tasks that succeeded before the graph was built. -/
def clearSuccessful (s : Stage β) : Stage β :=
  let ids := (s.proveTasks.filter fun t => t.state = .Success).map (·.taskId)
  ids.foldl (fun s id => s.clearAggChildTask id) s

/-- The graph, unless the proof is composite. -/
def genGraph (feat : Feature) (disk : Disk β) (s : Stage β) :
    Option (Stage β) :=
  if s.generateTask.compositeProof then some s else s.genAggTasks feat disk

/-- The branch of `dispatch` that runs once, when the split is done. -/
def finalise (feat : Feature) (disk : Disk β) (s : Stage β) :
    Option (Stage β) := do
  let s ← s.genProveTaskPost feat disk
  let s ← s.genGraph feat disk
  some { s with isTasksGenDone := true }.clearSuccessful

/-- The end of the `Prove` branch: move on when all work is done. -/
def advance (disk : Disk β) (s : Stage β) : Option (Stage β) :=
  if s.isTasksGenDone && s.proveTasks.all fun t => t.state = .Success then
    if s.generateTask.compositeProof then some { s with step := .End }
    else if s.aggTasks.all fun t => t.state = .Success then
      if s.generateTask.targetStep = .Agg then some { s with step := .End }
      else (s.genSnarkTask disk).map fun s => { s with step := .Snark }
    else some s
  else some s

/-- `dispatch`: the next step of the request, as far as it has come. -/
def dispatch (feat : Feature) (disk : Disk β) (s : Stage β) :
    Option (Stage β) :=
  match s.step with
  | .Init => s.genSplitTask.map fun s => { s with step := .Prove }
  | .Prove => do
      let s ← s.genProveTask disk
      if s.splitTask.state = .Success ∧ ¬ s.isTasksGenDone then
        if s.generateTask.targetStep = .Split then some { s with step := .End }
        else
          let s ← s.finalise feat disk
          s.advance disk
      else s.advance disk
  | .Agg =>
      if s.generateTask.fromStep = .Agg then
        (s.genSnarkTask disk).map fun s => { s with step := .Snark }
      else none
  | .Snark =>
      if s.snarkTask.state = .Success then some { s with step := .End }
      else some s
  | _ => some s

end Dispatch

end Stage

end ZkmProver
