import ZkmProver.Disk
import ZkmProver.Forest

/-! # Task records

    The records a stage keeps for its split, prove, aggregate and snark tasks,
    and the three macros of the scheduler (`get_task!`, `on_task!`,
    `on_prove_task!`) as functions on them.  Every kind of task carries the
    same head (`TaskHead`), which is all that the macros touch. -/

namespace ZkmProver

open Forest

/-- The two builds of the service. -/
inductive Feature where
  | prover
  | proverV2
  deriving DecidableEq

/-- The version a request names. -/
inductive ProverVersion where
  | Zkm
  | Zkm2
  deriving DecidableEq

/-- A step of a request, as the row and `get_status` have it. -/
inductive Step where
  | Init
  | Split
  | Prove
  | Agg
  | Snark
  | End
  deriving DecidableEq

/-- The `TASK_STATE_*` constants. -/
inductive TaskState where
  | Initial
  | Unprocessed
  | Processing
  | Success
  | Failed
  deriving DecidableEq

/-- When a task was handed out and came back, and by which node it was done. -/
structure Trace where
  startTs : Nat
  finishTs : Nat
  nodeInfo : String
  deriving DecidableEq

/-- `Trace::default` -/
def Trace.default : Trace := ⟨0, 0, ""⟩

variable {β : Type}

/-- What every kind of task has.  A task id is a UUID: the `k`-th one drawn
    from the generator is `k`, so no two are equal; 0 stands for the empty
    string. -/
structure TaskHead (β : Type) where
  taskId : Nat
  proofId : String
  state : TaskState
  trace : Trace
  output : β

/-- What `gen_program` makes of a request: the inputs themselves in place of
    their paths. -/
structure Program (β : Type) where
  version : ProverVersion
  elfPath : String
  blockData : List (String × β)
  blockNo : Option Nat
  segSize : Nat
  publicInputStream : β
  privateInputStream : β
  targetStep : Step
  compositeProof : Bool
  receipts : List β
  proofId : String
  outputStream : β

/-- A request as the stage keeps it: the paths of its files, its target, and
    how it is to be proved. -/
structure GenerateTask (β : Type) where
  programId : String
  baseDir : String
  proofId : String
  version : ProverVersion
  elfPath : String
  segPath : String
  provePath : String
  aggPath : String
  snarkPath : String
  publicInputPath : String
  privateInputPath : String
  outputStreamPath : String
  blockNo : Option Nat
  segSize : Nat
  maxProverNum : Nat
  targetStep : Step
  fromStep : Step
  singleNode : Bool
  compositeProof : Bool
  receiptInputsPath : String
  receiptsPath : String
  program : Option (Program β)

/-- The split of the ELF into segments; the totals come back with the
    result. -/
structure SplitTask (β : Type) extends TaskHead β where
  programId : String
  baseDir : String
  elfPath : String
  segPath : String
  publicInputPath : String
  privateInputPath : String
  outputPath : String
  args : String
  blockNo : Option Nat
  segSize : Nat
  recepitInputsPath : String
  totalSteps : Nat
  totalSegments : Nat

/-- The proof of one segment, or of one deferred input. -/
structure ProveTask (β : Type) extends TaskHead β where
  programId : String
  baseDir : String
  fileNo : Nat
  isDeferred : Bool
  segment : String
  program : Program β
  failureCount : Nat

/-- An input of an agg task, by the id of the task that makes it; the receipt
    is filled in when the task is handed out. -/
structure AggregateInput (β : Type) where
  receiptInput : β
  computedRequestId : Nat
  isAgg : Bool

/-- The aggregation of the proofs of `childs`; a child is cleared when its
    proof is there.  `agg_index` is an `i32` in the source: it counts the tasks
    of a plan (`layersOver_index`), so a plan of fewer than 2^31 tasks has the
    same indices. -/
structure AggTask (β : Type) extends TaskHead β where
  blockNo : Option Nat
  segSize : Nat
  vk : β
  inputs : List (AggregateInput β)
  isFinal : Bool
  isFirstShard : Bool
  isLeafLayer : Bool
  fromProve : Bool
  aggIndex : Nat
  isDeferred : Bool
  childs : List (Option Nat)

/-- The last step, over one aggregated receipt. -/
structure SnarkTask (β : Type) extends TaskHead β where
  version : Nat
  inputDir : String
  outputPath : String
  aggReceipt : β
  fromInput : Bool

/-- A request that one node does from the ELF to the proof. -/
structure SingleNodeTask (β : Type) extends TaskHead β where
  programId : String
  baseDir : String
  elfPath : String
  privateInputPath : String
  receiptInputsPath : String
  targetStep : Step
  segSize : Nat
  totalCycles : Nat

/-- A message from a client call back to the stage worker. -/
inductive Task (β : Type) where
  | Split (t : SplitTask β)
  | Prove (t : ProveTask β)
  | Agg (t : AggTask β)
  | Snark (t : SnarkTask β)

/-- A snark result. -/
def Task.isSnark : Task β → Bool
  | .Snark _ => true
  | _ => false

/-- A split into so many segments, or no split. -/
def Task.splitsInto (n : Nat) : Task β → Bool
  | .Split t => t.totalSegments = n
  | _ => true

section Defaults

variable [Blob β]

/-- The head of a task that has not been generated. -/
def TaskHead.default : TaskHead β where
  taskId := 0
  proofId := ""
  state := .Initial
  trace := .default
  output := Blob.empty

omit [Blob β] in
/-- `GenerateTask::default` -/
def GenerateTask.default : GenerateTask β where
  programId := ""
  baseDir := ""
  proofId := ""
  version := .Zkm
  elfPath := ""
  segPath := ""
  provePath := ""
  aggPath := ""
  snarkPath := ""
  publicInputPath := ""
  privateInputPath := ""
  outputStreamPath := ""
  blockNo := none
  segSize := 0
  maxProverNum := 0
  targetStep := .Init
  fromStep := .Init
  singleNode := false
  compositeProof := false
  receiptInputsPath := ""
  receiptsPath := ""
  program := none

/-- `SplitTask::default` -/
def SplitTask.default : SplitTask β where
  toTaskHead := .default
  programId := ""
  baseDir := ""
  elfPath := ""
  segPath := ""
  publicInputPath := ""
  privateInputPath := ""
  outputPath := ""
  args := ""
  blockNo := none
  segSize := 0
  recepitInputsPath := ""
  totalSteps := 0
  totalSegments := 0

/-- `SnarkTask::default` -/
def SnarkTask.default : SnarkTask β where
  toTaskHead := .default
  version := 0
  inputDir := ""
  outputPath := ""
  aggReceipt := Blob.empty
  fromInput := false

/-- `AggTask::default` -/
def AggTask.default : AggTask β where
  toTaskHead := .default
  blockNo := none
  segSize := 0
  vk := Blob.empty
  inputs := []
  isFinal := false
  isFirstShard := false
  isLeafLayer := false
  fromProve := false
  aggIndex := 0
  isDeferred := false
  childs := []

end Defaults

/-! ## The macros -/

/-- The states a result may end in; any other one is ignored by the stage. -/
def TaskState.settled : TaskState → Bool
  | .Failed => true
  | .Success => true
  | .Unprocessed => true
  | _ => false

/-- The states a task may be handed out from. -/
def TaskState.waiting : TaskState → Bool
  | .Unprocessed => true
  | .Failed => true
  | _ => false

/-- The task as it is handed out. -/
def TaskHead.handOut (now : Nat) (src : TaskHead β) : TaskHead β :=
  { src with state := .Processing, trace := { src.trace with startTs := now } }

/-- `get_task!` -/
def getTask (now : Nat) (src : TaskHead β) : Option (TaskHead β) :=
  if src.state.waiting then some (src.handOut now) else none

/-- The stage's copy after `on_task!`. -/
def onTask (now : Nat) (src dst : TaskHead β) : TaskHead β :=
  if src.state.settled then
    if src.state = .Unprocessed then { dst with state := src.state }
    else
      { dst with
        state := src.state
        trace := { dst.trace with finishTs := now }
        output := src.output }
  else dst

/-- The returned copy after `on_task!` or `on_prove_task!`. -/
def stampSrc (now : Nat) (src : TaskHead β) : TaskHead β :=
  if src.state = .Failed ∨ src.state = .Success then
    { src with trace := { src.trace with finishTs := now } }
  else src

/-- The stage's copy after `on_prove_task!`. -/
def onProveTaskDst (now : Nat) (src dst : ProveTask β) : ProveTask β :=
  if src.state.settled then
    if src.state = .Unprocessed then { dst with state := src.state }
    else
      { dst with
        state := src.state
        trace :=
          { dst.trace with finishTs := now, nodeInfo := src.trace.nodeInfo }
        output := src.output
        failureCount :=
          if src.state = .Failed ∧ dst.failureCount < 3
          then dst.failureCount + 1 else dst.failureCount }
  else dst

/-- Does `on_prove_task!` raise the stage's error flag? -/
def onProveTaskError (src dst : ProveTask β) : Bool :=
  src.state = .Failed ∧ ¬ dst.failureCount < 3

/-! ## Aggregation tasks -/

/-- `AggregateInput` of a prove task. -/
def fromProveTask [Blob β] (proveTask : ProveTask β) : AggregateInput β where
  receiptInput := Blob.empty
  computedRequestId := proveTask.taskId
  isAgg := false

/-- The scan of `clear_child_task`: `some` where a child was cleared. -/
def clearChild (taskId : Nat) :
    List (Option Nat) → Option (List (Option Nat))
  | [] => none
  | some t :: childs =>
      if t = taskId then some (none :: childs)
      else (clearChild taskId childs).map (some t :: ·)
  | none :: childs => (clearChild taskId childs).map (none :: ·)

namespace AggTask

/-- `some` is the task after a clearing call that returned `true`. -/
def clearChildTask (taskId : Nat) (a : AggTask β) : Option (AggTask β) :=
  if a.state = .Unprocessed then
    (clearChild taskId a.childs).map fun childs => { a with childs := childs }
  else none

variable [Blob β]

/-- `to_agg_input`; a pseudo task counts as a prove task. -/
def toAggInput (a : AggTask β) : AggregateInput β where
  receiptInput := Blob.empty
  computedRequestId := a.taskId
  isAgg := !a.fromProve

/-- A leaf of the second build: a batch of segments, or one deferred proof. -/
def initFromProveTasks (uuid : Nat) (vk : β)
    (proveTasks : Batch (ProveTask β)) (aggIndex : Nat)
    (isFinal isFirstShard isDeferred : Bool) : AggTask β :=
  { AggTask.default with
    taskId := uuid
    blockNo := proveTasks.head.program.blockNo
    state := .Unprocessed
    segSize := proveTasks.head.program.segSize
    proofId := proveTasks.head.program.proofId
    vk := vk
    inputs := proveTasks.toList.map fromProveTask
    isFinal := isFinal
    isFirstShard := isFirstShard
    isLeafLayer := true
    isDeferred := isDeferred
    aggIndex := aggIndex
    childs :=
      if isDeferred then []
      else proveTasks.toList.map fun t => some t.taskId }

/-- An inner task of the second build. -/
def initFromAggTasks (uuid : Nat) (aggTasks : Batch (AggTask β))
    (aggIndex : Nat) (isFinal : Bool) : AggTask β :=
  { AggTask.default with
    taskId := uuid
    blockNo := aggTasks.head.blockNo
    state := .Unprocessed
    segSize := aggTasks.head.segSize
    proofId := aggTasks.head.proofId
    inputs := aggTasks.toList.map toAggInput
    isFinal := isFinal
    isLeafLayer := false
    aggIndex := aggIndex
    childs := aggTasks.toList.map fun t => some t.taskId }

/-- The pseudo task of a prove task without a partner: it reuses the prove
    task's id and is born successful. -/
def initFromSingleProveTask (proveTask : ProveTask β) (aggIndex : Nat) :
    AggTask β :=
  { AggTask.default with
    taskId := proveTask.taskId
    blockNo := proveTask.program.blockNo
    state := .Success
    segSize := proveTask.program.segSize
    proofId := proveTask.program.proofId
    fromProve := true
    aggIndex := aggIndex }

/-- A leaf of the first build. -/
def initFromTwoProveTask (uuid : Nat) (left right : ProveTask β)
    (aggIndex : Nat) : AggTask β :=
  { AggTask.default with
    taskId := uuid
    blockNo := left.program.blockNo
    state := .Unprocessed
    segSize := left.program.segSize
    proofId := left.program.proofId
    inputs := [fromProveTask left, fromProveTask right]
    aggIndex := aggIndex
    childs := [some left.taskId, some right.taskId] }

/-- An inner task of the first build. -/
def initFromTwoAggTask (uuid : Nat) (left right : AggTask β)
    (aggIndex : Nat) : AggTask β :=
  { AggTask.default with
    taskId := uuid
    blockNo := left.blockNo
    state := .Unprocessed
    segSize := left.segSize
    proofId := left.proofId
    inputs := [left.toAggInput, right.toAggInput]
    aggIndex := aggIndex
    childs := [some left.taskId, some right.taskId] }

end AggTask

/-! ## Facts about the macros -/

/-- A task is handed out when it waits. -/
theorem getTask_eq_some {now : Nat} {src t : TaskHead β} :
    getTask now src = some t ↔ src.state.waiting = true ∧ t = src.handOut now := by
  rw [getTask]
  by_cases h : src.state.waiting = true
  · rw [if_pos h]
    exact ⟨fun ht => ⟨h, (Option.some.inj ht).symm⟩, fun ht => by rw [ht.2]⟩
  · rw [if_neg h]
    exact ⟨fun ht => (nomatch ht), fun ht => absurd ht.1 h⟩

@[simp] theorem handOut_state (now : Nat) (src : TaskHead β) :
    (src.handOut now).state = .Processing := rfl

@[simp] theorem handOut_taskId (now : Nat) (src : TaskHead β) :
    (src.handOut now).taskId = src.taskId := rfl

@[simp] theorem handOut_output (now : Nat) (src : TaskHead β) :
    (src.handOut now).output = src.output := rfl

/-- A result does not change whose it is. -/
@[simp] theorem onTask_taskId (now : Nat) (src dst : TaskHead β) :
    (onTask now src dst).taskId = dst.taskId := by
  unfold onTask
  split
  · split <;> rfl
  · rfl

/-- A settled result decides the state of the stage's copy. -/
theorem onTask_state (now : Nat) (src dst : TaskHead β) :
    (onTask now src dst).state
      = if src.state.settled then src.state else dst.state := by
  unfold onTask
  split
  · split <;> rfl
  · rfl

/-- Only a success or a failure brings an output. -/
theorem onTask_output (now : Nat) (src dst : TaskHead β) :
    (onTask now src dst).output
      = if src.state = .Success ∨ src.state = .Failed
        then src.output else dst.output := by
  unfold onTask
  cases src.state <;> simp [TaskState.settled]

@[simp] theorem stampSrc_taskId (now : Nat) (src : TaskHead β) :
    (stampSrc now src).taskId = src.taskId := by
  unfold stampSrc; split <;> rfl

@[simp] theorem stampSrc_state (now : Nat) (src : TaskHead β) :
    (stampSrc now src).state = src.state := by
  unfold stampSrc; split <;> rfl

@[simp] theorem stampSrc_output (now : Nat) (src : TaskHead β) :
    (stampSrc now src).output = src.output := by
  unfold stampSrc; split <;> rfl

/-- The same of a prove task. -/
@[simp] theorem onProveTaskDst_taskId (now : Nat) (src dst : ProveTask β) :
    (onProveTaskDst now src dst).taskId = dst.taskId := by
  unfold onProveTaskDst
  split
  · split <;> rfl
  · rfl

/-- A settled result decides the state of the prove task. -/
theorem onProveTaskDst_state (now : Nat) (src dst : ProveTask β) :
    (onProveTaskDst now src dst).state
      = if src.state.settled then src.state else dst.state := by
  unfold onProveTaskDst
  split
  · split <;> rfl
  · rfl

/-- Only a success or a failure brings a receipt. -/
theorem onProveTaskDst_output (now : Nat) (src dst : ProveTask β) :
    (onProveTaskDst now src dst).output
      = if src.state = .Success ∨ src.state = .Failed
        then src.output else dst.output := by
  unfold onProveTaskDst
  cases src.state <;> simp [TaskState.settled]

/-- The fields of a prove task that no result changes. -/
theorem onProveTaskDst_fixed (now : Nat) (src dst : ProveTask β) :
    (onProveTaskDst now src dst).fileNo = dst.fileNo ∧
      (onProveTaskDst now src dst).isDeferred = dst.isDeferred ∧
      (onProveTaskDst now src dst).segment = dst.segment := by
  unfold onProveTaskDst
  split
  · split <;> exact ⟨rfl, rfl, rfl⟩
  · exact ⟨rfl, rfl, rfl⟩

end ZkmProver
