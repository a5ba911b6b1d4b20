import ZkmProver.Success

/-! # The worker — `run_stage_task` on one row of `stage_task`

    A turn of the worker loop hands out tasks, receives one result or a tick of
    the clock, and then breaks out of the loop or dispatches.  `runStageTask`
    is what happens up to the first turn and `Ctl.step` is one third of a turn;
    a panic is a state of its own (`Ctl.panicked`), so that the row it leaves
    behind can be looked at.

    The stages the worker goes through are worlds of the scheduler
    (`Runs.inside`), so what was proved of those holds here. -/

namespace ZkmProver

open Forest Keyed Machine

variable {β : Type}

/-! ## The row -/

/-- `stage_service::v1::Status` -/
inductive Status where
  | Success
  | Unspecified
  | Computing
  | InvalidParameter
  | InternalError
  | SplitError
  | ProveError
  | AggError
  | SnarkError
  deriving DecidableEq

/-- The columns of a row of `stage_task` that the worker writes. -/
structure StageRow where
  status : Status
  result : String
  checkAt : Nat
  step : Step

/-- `update_stage_task` -/
def StageRow.updateStageTask (row : StageRow) (status : Status) (result : String) :
    StageRow :=
  { row with status := status, result := result }

/-- `update_stage_task_check_at`: the row is only touched when `check_at` is
    the expected one. -/
def StageRow.updateCheckAt (row : StageRow) (oldCheckAt checkAt : Nat) (step : Step) :
    StageRow :=
  if row.checkAt = oldCheckAt then { row with checkAt := checkAt, step := step }
  else row

/-- The `context` column. -/
inductive Context (β : Type) where
  | absent
  | undecodable
  | request (g : GenerateTask β)

/-- A queued row, as it was read when it was queued. -/
structure StageTask (β : Type) where
  context : Context β
  checkAt : Nat
  step : Step

/-! ## The loop -/

/-- What is received: nothing, or the result of a copy in flight. -/
inductive Event (β : Type) where
  | tick
  | split (i : Nat) (r : SplitReply)
  | prove (i : Nat) (r : Reply β)
  | agg (i : Nat) (r : Reply β) (io : Bool)
  | snark (i : Nat) (r : Reply β) (io : Bool)

/-- One third of a turn, with the answers of the environment: the clock, the
    directory tree, what is received, and the measured duration. -/
inductive Act (β : Type) where
  | handOut (clock : Nat → Nat) (disk : Disk β)
  | receive (now : Nat) (event : Event β)
  | dispatch (now : Nat) (disk : Disk β) (duration : Nat)

/-- The loop variables. -/
structure Loop (β : Type) where
  world : World β
  row : StageRow
  taskCheckAt : Nat
  checkAt : Nat

/-- Where a run of `run_stage_task` is. -/
inductive Ctl (β : Type) where
  /-- at the top of the loop -/
  | looping (l : Loop β)
  /-- at `select!`, with the world after the hand-outs -/
  | waiting (l : Loop β) (w : World β)
  /-- behind it -/
  | received (l : Loop β) (w : World β)
  /-- returned, with the stage if there was one -/
  | returned (row : StageRow) (stage : Option (Stage β))
  | panicked (row : StageRow)

/-- The `get_status` closure. -/
def errorStatus : Step → Status
  | .Split => .SplitError
  | .Prove => .ProveError
  | .Agg => .AggError
  | .Snark => .SnarkError
  | _ => .InternalError

/-- The calls that hand a task out. -/
def Action.gets : Action β → Bool
  | .getSplit _ => true
  | .getProve _ _ => true
  | .getAgg _ => true
  | .getSnark _ => true
  | _ => false

section

variable [Blob β]

/-- A call behind a guard. -/
def World.stepIf (feat : Feature) (guard : Bool) (a : Action β) (w : World β) :
    Option (World β) :=
  if guard then w.step feat a else some w

/-- The hand-outs of one turn, with their guards. -/
def handOuts (feat : Feature) (clock : Nat → Nat) (disk : Disk β)
    (w : World β) : Option (World β) :=
  let max := w.stage.generateTask.maxProverNum
  match w.stage.step with
  | .Prove => do
      let w ← w.step feat (.getSplit (clock 0))
      let w ← w.stepIf feat (w.stage.countProcessingProveTasks < max)
        (.getProve disk (clock 1))
      w.stepIf feat
        (w.stage.isTasksGenDone && w.stage.countUnfinishedProveTasks < max)
        (.getAgg (clock 2))
  | .Snark => w.step feat (.getSnark (clock 3))
  | _ => some w

/-- The call a received message leads to. -/
def Event.action (now : Nat) : Event β → Option (Action β)
  | .tick => none
  | .split i r => some (.onSplit i r now)
  | .prove i r => some (.onProve i r now)
  | .agg i r io => some (.onAgg i r now io)
  | .snark i r io => some (.onSnark i r now io)

/-- `tokio::select!` -/
def receive (feat : Feature) (now : Nat) (e : Event β) (w : World β) :
    Option (World β) :=
  match e.action now with
  | none => some w
  | some a => w.step feat a

/-- After the loop. -/
def finish (duration : Nat) (l : Loop β) (w : World β) : Ctl β :=
  if w.stage.isError then
    .returned (l.row.updateStageTask (errorStatus w.stage.step) "")
      (some w.stage)
  else
    -- the bytes of the result, `none` when the file cannot be read; no bytes
    -- are the empty string
    let result :=
      if w.stage.generateTask.targetStep = .Snark then
        w.snarkFile.map Blob.fromUtf8
      else some (some "")
    match result with
    | none => .panicked l.row
    | some result =>
        let row := l.row.updateCheckAt l.taskCheckAt duration w.stage.step
        match result with
        | none => .panicked row
        | some result =>
            .returned (row.updateStageTask .Success result) (some w.stage)

/-- The update of the row after a dispatch. -/
def Loop.dispatched (l : Loop β) (before : Step) (tsNow : Nat) (w : World β) :
    Loop β :=
  if l.checkAt + 10 < tsNow ∨ before ≠ w.stage.step then
    { world := w
      row := l.row.updateCheckAt l.taskCheckAt tsNow w.stage.step
      taskCheckAt := if l.row.checkAt = l.taskCheckAt then tsNow
        else l.taskCheckAt
      checkAt := tsNow }
  else { l with world := w }

/-- The rest of the turn once something was received. -/
def conclude (feat : Feature) (now : Nat) (disk : Disk β) (duration : Nat)
    (l : Loop β) (w : World β) : Ctl β :=
  if w.stage.isSuccess || w.stage.isError then finish duration l w
  else
    match w.step feat (.dispatch disk) with
    | none => .panicked l.row
    | some w' => .looping (l.dispatched l.world.stage.step now w')

/-! ## Before the loop -/

/-- What `prover_client::single_node` fills in. -/
structure SingleReply (β : Type) where
  state : TaskState
  nodeInfo : String
  totalCycles : Nat
  output : β

omit [Blob β] in
/-- The task after `single_node`. -/
def SingleReply.fill (r : SingleReply β) (t : SingleNodeTask β) :
    SingleNodeTask β :=
  { t with
    state := r.state
    trace := { t.trace with nodeInfo := r.nodeInfo }
    totalCycles := r.totalCycles
    output := r.output }

/-- The answers of the environment before the loop: the clock, the directory
    tree, what is at `snark_path`, and for a single-node request the node's
    reply and whether `snark_path` can be written. -/
structure Boot (β : Type) where
  clock : Nat → Nat
  disk : Disk β
  file : Option β
  single : SingleReply β
  io : Bool
  duration : Nat

/-- The branch of a single-node request; it returns without an update of the
    row if the step column has moved. -/
def runSingleNode (task : StageTask β) (row : StageRow) (b : Boot β)
    (stage : Stage β) : Ctl β :=
  if task.step ≠ .Init then .returned row none
  else
    let checkAt := b.clock 0
    -- the client marks the row before the call
    let row := row.updateCheckAt task.checkAt checkAt .Prove
    let t := b.single.fill stage.getSingleNodeTask
    match stage.onSingleNodeTask b.io t with
    | none => .panicked row
    | some (stage, _) =>
        if stage.isError then
          .returned (row.updateStageTask .InternalError "") (some stage)
        else
          let row := row.updateCheckAt checkAt b.duration stage.step
          let result :=
            if stage.generateTask.targetStep = .Snark then
              Blob.fromUtf8 t.output
            else some ""
          match result with
          | none => .panicked row
          | some result =>
              .returned (row.updateStageTask .Success result) (some stage)

/-- `run_stage_task` up to the loop. -/
def runStageTask (feat : Feature) (task : StageTask β) (row : StageRow)
    (b : Boot β) : Ctl β :=
  match task.context with
  | .absent => .returned row none
  | .undecodable => .returned (row.updateStageTask .InternalError "") none
  | .request g =>
      if g.singleNode then runSingleNode task row b (Stage.new g)
      else
        match (World.start g b.file).step feat (.dispatch b.disk) with
        | none => .panicked row
        | some w =>
            .looping
              { world := w
                row := row.updateCheckAt task.checkAt (b.clock 0) w.stage.step
                taskCheckAt := b.clock 0
                checkAt := b.clock 1 }

/-- One third of a turn. -/
def Ctl.step (feat : Feature) : Ctl β → Act β → Option (Ctl β)
  | .looping l, .handOut clock disk =>
      match handOuts feat clock disk l.world with
      | none => some (.panicked l.row)
      | some w => some (.waiting l w)
  | .waiting l w, .receive now event =>
      match ZkmProver.receive feat now event w with
      | none => some (.panicked l.row)
      | some w' => some (.received l w')
  | .received l w, .dispatch now disk duration =>
      some (conclude feat now disk duration l w)
  | _, _ => none

/-- A run of `run_stage_task`. -/
def Runs (feat : Feature) (task : StageTask β) (row : StageRow) (b : Boot β)
    (acts : List (Act β)) (c : Ctl β) : Prop :=
  run (Ctl.step feat) (runStageTask feat task row b) acts = some c

/-! ## The loop runs the scheduler -/

variable {feat : Feature} {g : GenerateTask β} {w w' : World β}

theorem Reachable.start (g : GenerateTask β) (file : Option β) :
    Reachable feat g (World.start g file) := ⟨file, [], rfl⟩

/-- What a step leads to is reachable. -/
theorem Reachable.step {a : Action β} (h : Reachable feat g w)
    (hstep : w.step feat a = some w') : Reachable feat g w' := by
  obtain ⟨file, acts, hrun⟩ := h
  exact ⟨file, acts ++ [a], run_snoc.mpr ⟨w, hrun, hstep⟩⟩

/-- An invariant of the step is one of the guarded step. -/
theorem stepIf_inv {I : World β → Prop} {guard : Bool} {a : Action β}
    (hstep : w.step feat a = some w' → I w') (h : I w)
    (hw : w.stepIf feat guard a = some w') : I w' := by
  rw [World.stepIf] at hw
  split at hw
  · exact hstep hw
  · cases hw
    exact h

/-- **HAND-OUTS**: what each call that hands out preserves. -/
theorem handOuts_inv {I : World β → Prop}
    (hstep : ∀ a w w', a.gets = true → I w → w.step feat a = some w' → I w')
    {clock : Nat → Nat} {disk : Disk β} (h : I w)
    (hw : handOuts feat clock disk w = some w') : I w' := by
  rw [ZkmProver.handOuts] at hw
  cases hst : w.stage.step with
  | Prove =>
      simp only [hst, Option.bind_eq_bind, Option.bind_eq_some_iff] at hw
      obtain ⟨w₁, h₁, w₂, h₂, h₃⟩ := hw
      have hsplit := hstep _ _ _ rfl h h₁
      have hprove := stepIf_inv (hstep _ _ _ rfl hsplit) hsplit h₂
      exact stepIf_inv (hstep _ _ _ rfl hprove) hprove h₃
  | Snark =>
      simp only [hst] at hw
      exact hstep _ _ _ rfl h hw
  | Init => simp only [hst] at hw; cases hw; exact h
  | Split => simp only [hst] at hw; cases hw; exact h
  | Agg => simp only [hst] at hw; cases hw; exact h
  | End => simp only [hst] at hw; cases hw; exact h

theorem Reachable.stepIf {guard : Bool} {a : Action β}
    (h : Reachable feat g w) (hw : w.stepIf feat guard a = some w') :
    Reachable feat g w' :=
  stepIf_inv h.step h hw

/-- The hand-outs of a turn are steps of the stage. -/
theorem Reachable.handOuts {clock : Nat → Nat} {disk : Disk β}
    (h : Reachable feat g w)
    (hw : handOuts feat clock disk w = some w') : Reachable feat g w' :=
  handOuts_inv (fun _ _ _ _ hv hstep => hv.step hstep) h hw

/-- So is taking a result back. -/
theorem Reachable.receive {now : Nat} {e : Event β} (h : Reachable feat g w)
    (hw : receive feat now e w = some w') : Reachable feat g w' := by
  rw [ZkmProver.receive] at hw
  split at hw
  · cases hw
    exact h
  · exact h.step hw

omit [Blob β] in
@[simp] theorem dispatched_world (l : Loop β) (before : Step) (tsNow : Nat)
    (w : World β) : (l.dispatched before tsNow w).world = w := by
  rw [Loop.dispatched]
  split <;> rfl

/-- A world of the scheduler in which `dispatch` has just returned. -/
def Dispatched (feat : Feature) (g : GenerateTask β) (w : World β) : Prop :=
  ∃ v disk, Reachable feat g v ∧ v.step feat (.dispatch disk) = some w

theorem Dispatched.reachable (h : Dispatched feat g w) : Reachable feat g w := by
  obtain ⟨v, disk, hv, hw⟩ := h
  exact hv.step hw

/-- What the worker holds inside the loop. -/
def Inside (feat : Feature) (g : GenerateTask β) : Ctl β → Prop
  | .looping l => Dispatched feat g l.world
  | .waiting l w => Dispatched feat g l.world ∧ Reachable feat g w
  | .received l w => Dispatched feat g l.world ∧ Reachable feat g w
  | .returned _ _ => True
  | .panicked _ => True

theorem inside_finish (duration : Nat) (l : Loop β) (w : World β) :
    Inside feat g (finish duration l w) := by
  rw [finish]
  split
  · trivial
  · dsimp only
    split
    · trivial
    · split <;> trivial

theorem inside_singleNode (task : StageTask β) (row : StageRow) (b : Boot β)
    (stage : Stage β) : Inside feat g (runSingleNode task row b stage) := by
  rw [runSingleNode]
  split
  · trivial
  · dsimp only
    split
    · trivial
    · split
      · trivial
      · split <;> trivial

/-- The run starts inside the worlds of its request. -/
theorem Inside.start {task : StageTask β} {row : StageRow} {b : Boot β}
    (hctx : task.context = .request g) :
    Inside feat g (runStageTask feat task row b) := by
  rw [runStageTask, hctx]
  dsimp only
  split
  · exact inside_singleNode task row b (Stage.new g)
  · split
    · trivial
    case _ w hw => exact ⟨_, b.disk, .start g b.file, hw⟩

/-- Every third of a turn stays inside them. -/
theorem Inside.step {c c' : Ctl β} {a : Act β} (h : Inside feat g c)
    (hstep : c.step feat a = some c') : Inside feat g c' := by
  cases c with
  | looping l =>
      cases a with
      | handOut clock disk =>
          rw [Ctl.step] at hstep
          split at hstep
          · cases hstep
            trivial
          case _ w hw =>
            cases hstep
            exact ⟨h, h.reachable.handOuts hw⟩
      | receive now event => exact nomatch hstep
      | dispatch now disk duration => exact nomatch hstep
  | waiting l w =>
      cases a with
      | handOut clock disk => exact nomatch hstep
      | receive now event =>
          rw [Ctl.step] at hstep
          split at hstep
          · cases hstep
            trivial
          case _ w' hw =>
            cases hstep
            exact ⟨h.1, h.2.receive hw⟩
      | dispatch now disk duration => exact nomatch hstep
  | received l w =>
      cases a with
      | handOut clock disk => exact nomatch hstep
      | receive now event => exact nomatch hstep
      | dispatch now disk duration =>
          rw [← Option.some.inj hstep, conclude]
          split
          · exact inside_finish duration l w
          · split
            · trivial
            case _ w' hw =>
              show Dispatched feat g (l.dispatched _ now w').world
              rw [dispatched_world]
              exact ⟨w, disk, h.2, hw⟩
  | returned row stage => exact nomatch hstep
  | panicked row => exact nomatch hstep

/-- **INSIDE THE LOOP**: the worlds of a run are reachable, and at the top of
    the loop they have just been dispatched. -/
theorem Runs.inside {task : StageTask β} {row : StageRow} {b : Boot β}
    {acts : List (Act β)} {c : Ctl β} (hctx : task.context = .request g)
    (h : Runs feat task row b acts c) : Inside feat g c :=
  run_inv (fun _ _ _ hc hstep => hc.step hstep) (Inside.start hctx) h

/-- A run that ends where the test is passed. -/
theorem Runs.of_check (feat : Feature) (task : StageTask β) (row : StageRow)
    (b : Boot β) (acts : List (Act β)) (p : Ctl β → Bool)
    (h : (run (Ctl.step feat) (runStageTask feat task row b) acts).any p
      = true) : ∃ c, Runs feat task row b acts c ∧ p c = true :=
  Option.any_eq_true _ _ |>.mp h

end

/-! ## A small run -/

/-- One copy may be out at a time. -/
def proveTask : StageTask (List UInt8) where
  context := .request { aggRequest with maxProverNum := 1 }
  checkAt := 0
  step := .Init

/-- A row as `generate_proof` inserts it. -/
def freshRow : StageRow := ⟨.Computing, "", 0, .Init⟩

/-- A start at which every file is there. -/
def freshBoot : Boot (List UInt8) where
  clock := fun k => k
  disk := .full
  file := none
  single := ⟨.Success, "", 0, []⟩
  io := true
  duration := 0

/-- A turn in which every file is there. -/
def quickTurn (event : Event (List UInt8)) : List (Act (List UInt8)) :=
  [.handOut (fun k => k) .full, .receive 1 event, .dispatch 1 .full 0]

/-- The split comes back with two segments. -/
def splitTurn : List (Act (List UInt8)) :=
  quickTurn (.split 0 ⟨.Success, "a", 10, 2⟩)

end ZkmProver
