import ZkmProver.ErrorStatus
import ZkmProver.PlanShape

/-! # Durations — `Trace::duration` does not underflow

    The duration of a task is asked for when it is saved, and for all tasks
    when a finished stage is printed.  `start_ts` is set anew at every hand-out
    and `finish_ts` with every result that counts, so a task that was handed
    out again after a failure may have started after it finished.  Under a
    clock that does not go back this is over when the task succeeds
    (`InTime`), and a stage that reports success has only such tasks and some
    that never ran (`Reachable.settled`). -/

namespace ZkmProver

open Forest Keyed Machine

variable {β : Type}

/-- `Trace::duration`; `none` is the underflow of the subtraction. -/
def Trace.duration (t : Trace) : Option Nat :=
  if t.startTs ≤ t.finishTs then some (t.finishTs - t.startTs) else none

/-! ## Where durations are asked for -/

/-- `save_task!` -/
def TaskHead.saved (t : TaskHead β) : List Trace :=
  if t.state = .Failed ∨ t.state = .Success then [t.trace] else []

/-- The tasks that `Debug` of a stage prints. -/
def Stage.printed (s : Stage β) : List Trace :=
  s.splitTask.trace :: (s.proveTasks.map (·.trace)
    ++ s.aggTasks.map (·.trace) ++ [s.snarkTask.trace])

section

variable [Blob β]

/-- The task that is saved when a message is received. -/
def Event.saved (now : Nat) (w : World β) : Event β → List Trace
  | .split i r =>
      match w.splits[i]? with
      | some c => (w.stage.onSplitTask now (r.split c)).2.saved
      | none => []
  | .snark i r io =>
      match w.snarks[i]? with
      | some c =>
          match w.stage.onSnarkTask now io (r.snark c) with
          | some (_, t, _) => t.saved
          | none => []
      | none => []
  | _ => []

/-- The traces whose duration is asked for in one third of a turn; the stage is
    printed when it has returned without an error. -/
def Ctl.durations (feat : Feature) : Ctl β → Act β → List Trace
  | .waiting _ w, .receive now event => event.saved now w
  | .received l w, .dispatch now disk duration =>
      match conclude feat now disk duration l w with
      | .returned _ (some stage) => if stage.isError then [] else stage.printed
      | _ => []
  | _, _ => []

/-- The split task that stands for a single-node request: it is made for
    `save_task!`, and no time is written into it. -/
def singleNodeSplit (s : Stage β) (state : TaskState) (totalSteps : Nat) :
    SplitTask β :=
  { SplitTask.default with
    taskId := s.uuid
    proofId := s.generateTask.proofId
    totalSteps := totalSteps
    state := state }

/-- The traces whose duration is asked for before the loop; without a response
    the client call has failed. -/
def bootDurations (task : StageTask β) (b : Boot β)
    (response : Option (SingleReply β)) : List Trace :=
  match task.context with
  | .request g =>
      if g.singleNode ∧ task.step = .Init then
        let stage := Stage.new g
        match response with
        | some r =>
            let t := r.fill stage.getSingleNodeTask
            if (stage.onSingleNodeTask b.io t).isSome then
              (singleNodeSplit stage .Success t.totalCycles).saved
            else []
        | none => (singleNodeSplit stage .Failed 0).saved
      else []
  | _ => []

end

/-! ## In time -/

/-- The clock was read no later than `now`, and a task that succeeded or never
    ran did not start after it finished. -/
structure TaskHead.InTime (now : Nat) (t : TaskHead β) : Prop where
  started : t.trace.startTs ≤ now
  settled : t.state = .Initial ∨ t.state = .Success →
    t.trace.startTs ≤ t.trace.finishTs

namespace TaskHead.InTime

variable {now now' : Nat} {t src dst : TaskHead β}

/-- What is in time is so later on. -/
theorem mono (h : t.InTime now) (hle : now ≤ now') : t.InTime now' :=
  ⟨h.started.trans hle, h.settled⟩

/-- A task that has not been handed out is in time. -/
theorem born (h : t.trace = .default) : t.InTime now := by
  rw [Trace.default] at h
  exact ⟨h ▸ Nat.zero_le _, fun _ => h ▸ Nat.le_refl _⟩

/-- So is one that is handed out now. -/
theorem handOut (t : TaskHead β) : (t.handOut now).InTime now :=
  ⟨Nat.le_refl _, by rintro (h | h) <;> cases h⟩

/-- A task that starts to wait. -/
theorem waiting (h : t.InTime now) {id : Nat} {proofId : String} :
    TaskHead.InTime now
      { t with taskId := id, proofId := proofId, state := .Unprocessed } :=
  ⟨h.started, by rintro (h | h) <;> cases h⟩

/-- A result that counts is stamped with the time it arrives. -/
theorem onTask (h : dst.InTime now) : (onTask now src dst).InTime now := by
  rw [ZkmProver.onTask]
  split
  · split
    · exact ⟨h.started, by rintro (hst | hst) <;> simp_all⟩
    · exact ⟨h.started, fun _ => h.started⟩
  · exact h

end TaskHead.InTime

/-- A result of a prove task is taken in time. -/
theorem onProveTaskDst_inTime {now : Nat} {src dst : ProveTask β}
    (h : dst.InTime now) : (onProveTaskDst now src dst).InTime now := by
  rw [onProveTaskDst]
  split
  · split
    · exact ⟨h.started, by rintro (hst | hst) <;> simp_all⟩
    · exact ⟨h.started, fun _ => h.started⟩
  · exact h

/-- The saved copy has started before it came back. -/
theorem saved_stampSrc {now : Nat} {t : TaskHead β}
    (h : t.trace.startTs ≤ now) :
    ∀ trace ∈ (stampSrc now t).saved, trace.startTs ≤ trace.finishTs := by
  intro trace htrace
  rw [TaskHead.saved] at htrace
  split at htrace
  case isTrue hst =>
    rw [stampSrc_state] at hst
    rw [List.mem_singleton.mp htrace, stampSrc, if_pos hst]
    exact h
  case isFalse => cases htrace

/-- The tasks of a stage at the time `now`. -/
structure Stage.InTime (now : Nat) (s : Stage β) : Prop where
  split : s.splitTask.InTime now
  prove : ∀ t ∈ s.proveTasks, t.InTime now
  agg   : ∀ a ∈ s.aggTasks, a.InTime now
  snark : s.snarkTask.InTime now

/-- And the copies that are saved when they come back. -/
structure InTime (now : Nat) (w : World β) : Prop where
  stage  : w.stage.InTime now
  splits : ∀ c ∈ w.splits, c.trace.startTs ≤ now
  snarks : ∀ c ∈ w.snarks, c.trace.startTs ≤ now

/-- The same for all tasks and copies. -/
theorem InTime.mono {now now' : Nat} {w : World β} (h : InTime now w)
    (hle : now ≤ now') : InTime now' w :=
  ⟨⟨h.stage.split.mono hle, fun t ht => (h.stage.prove t ht).mono hle,
      fun a ha => (h.stage.agg a ha).mono hle, h.stage.snark.mono hle⟩,
    fun c hc => (h.splits c hc).trans hle,
    fun c hc => (h.snarks c hc).trans hle⟩

/-! ## What a dispatch leaves in time -/

section

variable [Blob β] {feat : Feature} {s s' : Stage β} {disk : Disk β} {now : Nat}

/-- New prove tasks have no times. -/
theorem Grown.untimed {g : GenerateTask β} {uuid fileNo : Nat}
    {new : List (ProveTask β)} (h : Grown g uuid fileNo new) :
    ∀ t ∈ new, t.InTime now := by
  intro t ht
  obtain ⟨program, id, no, rfl⟩ := h.mem ht
  exact .born rfl

/-- The normal tasks are old ones or new ones. -/
theorem Completed.inTime {normal : List (ProveTask β)} {u : Nat}
    (h : Completed s normal u) (hprove : ∀ t ∈ s.proveTasks, t.InTime now) :
    ∀ t ∈ normal, t.InTime now := by
  cases h with
  | cut _ => exact fun t ht => hprove t (List.mem_of_mem_take ht)
  | extend new _ _ hg =>
      intro t ht
      rcases List.mem_append.mp ht with ht | ht
      · exact hprove t ht
      · exact hg.untimed t ht

namespace Stage

/-- The deferred tasks have no times. -/
theorem genDeferredTasks_inTime (h : s.genDeferredTasks disk = some s')
    (hprove : ∀ t ∈ s.proveTasks, t.InTime now) :
    ∀ t ∈ s'.proveTasks, t.InTime now := by
  rw [genDeferredTasks, Option.bind_eq_bind, Option.bind_eq_some_iff] at h
  obtain ⟨files, _, h⟩ := h
  dsimp only at h
  split at h
  case isTrue =>
    cases h
    exact hprove
  case isFalse =>
    rw [Option.bind_eq_bind, Option.bind_eq_some_iff] at h
    obtain ⟨program, _, h⟩ := h
    cases h
    intro t ht
    rcases List.mem_append.mp ht with ht | ht
    · exact hprove t ht
    · obtain ⟨k, _, rfl⟩ := List.mem_mapIdx.mp ht
      exact .born rfl

/-- `gen_prove_task_post` stamps nothing. -/
theorem genProveTaskPost_inTime (h : s.genProveTaskPost feat disk = some s')
    (hs : s.InTime now) (hnil : s.aggTasks = []) :
    s'.InTime now ∧ s'.aggTasks = [] := by
  obtain ⟨normal, deferred, u, errmsg, -, -, hs'⟩ := genProveTaskPost_spec h
  have hproves : ∀ t ∈ s'.proveTasks, t.InTime now := by
    rw [genProveTaskPost, Option.bind_eq_bind, Option.bind_eq_some_iff] at h
    obtain ⟨s₁, h₁, h⟩ := h
    obtain ⟨normal, u, hn, rfl⟩ := completeProveTasks_spec h₁
    have hnormal := hn.inTime hs.prove
    cases feat with
    | prover =>
        dsimp only at h
        split at h
        all_goals
          cases h
          exact hnormal
    | proverV2 => exact genDeferredTasks_inTime h hnormal
  subst hs'
  refine ⟨⟨hs.split, hproves, ?_, hs.snark⟩, hnil⟩
  rw [hnil]
  exact fun a ha => (List.not_mem_nil ha).elim

/-- The tasks of a plan have no times yet. -/
theorem genAggTasks_untimed (h : s.genAggTasks feat disk = some s')
    (hnil : s.aggTasks = []) : ∀ a ∈ s'.aggTasks, a.trace = .default := by
  have hlayers : ∀ {group : Nat → Nat → List (AggTask β) → List (AggTask β)}
      {carry : List (AggTask β) → List (AggTask β)},
      (∀ uuid i l, ∀ a ∈ group uuid i l, a.trace = .default) →
        ∀ fuel uuid i layer, ∀ a ∈ layersOver group carry fuel uuid i layer,
          a.trace = .default := by
    intro group carry hgroup fuel uuid i layer
    exact layersOver_forall (P := fun a => a.trace = .default)
      (Q := fun _ => True) (fun uuid i l _ => hgroup uuid i l)
      (fun _ _ _ _ => trivial) (fun _ _ => trivial) fuel uuid i layer
      fun _ _ => trivial
  cases feat with
  | prover =>
      rw [genAggTasks, genAggTasksV1] at h
      split at h
      case isTrue => cases h
      case isFalse =>
        cases h
        refine forall_markFinal (fun _ ha => ha) ?_
        rw [hnil, List.nil_append]
        intro a ha
        rcases List.mem_append.mp ha with ha | ha
        · rcases List.mem_append.mp ha with ha | ha
          · exact pairUp_forall (P := fun a : AggTask β => a.trace = .default)
              (fun _ _ _ _ => rfl) _ _ _ a ha
          · obtain ⟨t, _, rfl⟩ := Option.map_eq_some_iff.mp
              (Option.mem_toList.mp ha)
            rfl
        · exact hlayers (fun uuid i l =>
            pairUp_forall (P := fun a : AggTask β => a.trace = .default)
              (fun _ _ _ _ => rfl) uuid i l) _ _ _ _ a ha
  | proverV2 =>
      rw [genAggTasks, genAggTasksV2, Option.map_eq_some_iff] at h
      obtain ⟨vk, _, rfl⟩ := h
      refine forall_markFinal (fun _ ha => ha) ?_
      rw [hnil, List.nil_append]
      intro a ha
      rcases List.mem_append.mp ha with ha | ha
      · rcases List.mem_append.mp ha with ha | ha
        all_goals
          obtain ⟨k, _, rfl⟩ := List.mem_mapIdx.mp ha
          rfl
      · refine hlayers (fun uuid i l a ha => ?_) _ _ _ _ a ha
        obtain ⟨k, _, rfl⟩ := List.mem_mapIdx.mp ha
        rfl

/-- Nor does the plan over the prove tasks. -/
theorem finalise_inTime (h : s.finalise feat disk = some s')
    (hs : s.InTime now) (hnil : s.aggTasks = []) : s'.InTime now := by
  rw [finalise, Option.bind_eq_bind, Option.bind_eq_some_iff] at h
  obtain ⟨s₁, h₁, h⟩ := h
  rw [Option.bind_eq_some_iff] at h
  obtain ⟨s₂, h₂, h⟩ := h
  obtain ⟨hs₁, hnil₁⟩ := genProveTaskPost_inTime h₁ hs hnil
  have hs₂ : s₂.InTime now := by
    rw [genGraph] at h₂
    split at h₂
    case isTrue =>
      cases h₂
      exact hs₁
    case isFalse =>
      have hagg : ∀ a ∈ s₂.aggTasks, a.InTime now := fun a ha =>
        .born (genAggTasks_untimed h₂ hnil₁ a ha)
      have hrest : s₂ = { s₁ with aggTasks := s₂.aggTasks, uuid := s₂.uuid } := by
        cases feat with
        | prover =>
            rw [genAggTasks, genAggTasksV1] at h₂
            split at h₂
            case isTrue => cases h₂
            case isFalse =>
              cases h₂
              rfl
        | proverV2 =>
            rw [genAggTasks, genAggTasksV2, Option.map_eq_some_iff] at h₂
            obtain ⟨vk, _, rfl⟩ := h₂
            rfl
      rw [hrest]
      exact ⟨hs₁.split, hs₁.prove, hagg, hs₁.snark⟩
  -- clearing the children of an aggregation changes no times
  rw [← Option.some.inj h, clearSuccessful_eq]
  refine ⟨hs₂.split, hs₂.prove, fun a ha => ?_, hs₂.snark⟩
  obtain ⟨b, hb, childs, rfl⟩ := mem_clearAll ha
  exact hs₂.agg b hb

/-- Nor the snark task. -/
theorem genSnarkTask_inTime (h : s.genSnarkTask disk = some s')
    (hs : s.snarkTask.InTime now) : s'.snarkTask.InTime now := by
  have hwaiting : ∀ {g : GenerateTask β}, TaskHead.InTime now
      { s.snarkTask.toTaskHead with
        taskId := s.uuid, proofId := g.proofId, state := .Unprocessed } :=
    hs.waiting
  rw [genSnarkTask] at h
  split at h
  case isFalse => cases h
  case isTrue =>
    dsimp only at h
    split at h
    · split at h
      all_goals
        cases h
        exact hwaiting
    · split at h
      · cases h
        exact hwaiting
      · cases h
    · cases h

omit [Blob β] in
/-- Nor the split task. -/
theorem genSplitTask_inTime (h : s.genSplitTask = some s')
    (hs : s.splitTask.InTime now) : s'.splitTask.InTime now := by
  rw [genSplitTask] at h
  split at h
  case isTrue =>
    cases h
    exact hs.waiting
  case isFalse => cases h

/-- Nor the step from Prove to Snark. -/
theorem advance_inTime (h : s.advance disk = some s') (hs : s.InTime now) :
    s'.InTime now := by
  have hsnark : s'.snarkTask.InTime now := by
    rw [advance] at h
    split at h
    case isFalse =>
      cases h
      exact hs.snark
    case isTrue =>
      split at h
      case isTrue =>
        cases h
        exact hs.snark
      case isFalse =>
        split at h
        case isFalse =>
          cases h
          exact hs.snark
        case isTrue =>
          split at h
          case isTrue =>
            cases h
            exact hs.snark
          case isFalse =>
            obtain ⟨s₁, h₁, rfl⟩ := Option.map_eq_some_iff.mp h
            have hsnark := genSnarkTask_inTime h₁ hs.snark
            exact hsnark
  rw [advance_frame h]
  exact ⟨hs.split, hs.prove, hs.agg, hsnark⟩

/-- Nor `gen_prove_task`. -/
theorem genProveTask_inTime (h : s.genProveTask disk = some s')
    (hs : s.InTime now) : s'.InTime now := by
  obtain ⟨new, hg, -, rfl⟩ := genProveTask_list h
  refine ⟨hs.split, fun t ht => ?_, hs.agg, hs.snark⟩
  rcases List.mem_append.mp ht with ht | ht
  · exact hs.prove t ht
  · exact hg.untimed t ht

/-- **DISPATCH** looks at no clock. -/
theorem dispatch_inTime (hearly : s.isTasksGenDone = false → s.aggTasks = [])
    (h : s.dispatch feat disk = some s') (hs : s.InTime now) :
    s'.InTime now := by
  cases dispatch_step h with
  | start split _ _ _ hgen =>
      have hsplit := genSplitTask_inTime hgen hs.split
      exact ⟨hsplit, hs.prove, hs.agg, hs.snark⟩
  | split s₁ _ h₁ _ _ _ _ =>
      have hs₁ := genProveTask_inTime h₁ hs
      exact ⟨hs₁.split, hs₁.prove, hs₁.agg, hs₁.snark⟩
  | finalise s₁ s₂ _ _ h₁ hmore _ hdone _ h₂ h =>
      have hnil : s₁.aggTasks = [] := by
        rw [hmore]
        exact hearly (hmore.frame.2.1 ▸ hdone)
      exact advance_inTime h
        (finalise_inTime h₂ (genProveTask_inTime h₁ hs) hnil)
  | advance s₁ _ _ h₁ _ _ h =>
      exact advance_inTime h (genProveTask_inTime h₁ hs)
  | snark snark _ _ _ hgen =>
      have hsnark := genSnarkTask_inTime hgen hs.snark
      exact ⟨hs.split, hs.prove, hs.agg, hsnark⟩
  | ended _ _ => exact ⟨hs.split, hs.prove, hs.agg, hs.snark⟩
  | idle _ _ _ _ => exact hs

end Stage

/-! ## What a step leaves in time -/

/-- The reading of the clock in a call. -/
def Action.reading : Action β → Option Nat
  | .dispatch _ => none
  | .getSplit now => some now
  | .getProve _ now => some now
  | .getAgg now => some now
  | .getSnark now => some now
  | .onSplit _ _ now => some now
  | .onProve _ _ now => some now
  | .onAgg _ _ now _ => some now
  | .onSnark _ _ now _ => some now

/-- **STEP**: the clock shows `now` or is not read. -/
theorem InTime.step {w w' : World β} {a : Action β} (hs : Shape w)
    (h : InTime now w) (hnow : ∀ r, a.reading = some r → r = now)
    (hstep : w.step feat a = some w') : InTime now w' := by
  cases World.step_stepped hstep with
  | dispatch disk s hd =>
      exact ⟨Stage.dispatch_inTime (fun hdone => (hs.early hdone).1) hd h.stage,
        h.splits, h.snarks⟩
  | quiet _ _ => exact h
  | getSplit now' t _ ht =>
      obtain rfl := hnow now' rfl
      subst ht
      refine ⟨⟨.handOut _, h.stage.prove, h.stage.agg, h.stage.snark⟩, ?_,
        h.snarks⟩
      intro c hc
      rcases List.mem_append.mp hc with hc | hc
      · exact h.splits c hc
      · rw [List.mem_singleton.mp hc]
        exact Nat.le_refl _
  | getProve disk now' =>
      obtain rfl := hnow now' rfl
      refine ⟨⟨h.stage.split, ?_, h.stage.agg, h.stage.snark⟩, h.splits,
        h.snarks⟩
      refine forall_replaceF h.stage.prove fun x y _ hxy => ?_
      rw [(handProve_eq_some.mp hxy).2.2]
      exact .handOut _
  | getAgg now' t s hget hs' =>
      obtain rfl := hnow now' rfl
      subst hs'
      refine ⟨⟨h.stage.split, h.stage.prove, ?_, h.stage.snark⟩, h.splits,
        h.snarks⟩
      refine forall_replaceF h.stage.agg fun x y _ hxy => ?_
      rw [(handAgg_eq_some.mp hxy).2.2]
      exact .handOut _
  | getSnark now' t _ ht =>
      obtain rfl := hnow now' rfl
      subst ht
      refine ⟨⟨h.stage.split, h.stage.prove, h.stage.agg, .handOut _⟩,
        h.splits, ?_⟩
      intro c hc
      rcases List.mem_append.mp hc with hc | hc
      · exact h.snarks c hc
      · rw [List.mem_singleton.mp hc]
        exact Nat.le_refl _
  | onSplit i r now' c _ =>
      obtain rfl := hnow now' rfl
      exact ⟨⟨h.stage.split.onTask, h.stage.prove, h.stage.agg, h.stage.snark⟩,
        fun c hc => h.splits c (List.mem_of_mem_eraseIdx hc), h.snarks⟩
  | onProve i r now' c _ =>
      obtain rfl := hnow now' rfl
      rw [onProveTask_eq]
      refine ⟨⟨h.stage.split, ?_, fun a ha => ?_, h.stage.snark⟩, h.splits,
        h.snarks⟩
      · refine forall_replaceF h.stage.prove fun x y hx hxy => ?_
        rw [Stage.takeProve] at hxy
        split at hxy
        · cases hxy
          exact onProveTaskDst_inTime hx
        · cases hxy
      · obtain ⟨b, hb, childs, rfl⟩ := mem_clearOn ha
        exact h.stage.agg b hb
  | onAgg i r now' io c t s file _ hon =>
      obtain rfl := hnow now' rfl
      rw [(onAggTask_eq hon).1]
      refine ⟨⟨h.stage.split, h.stage.prove, fun a ha => ?_, h.stage.snark⟩,
        h.splits, h.snarks⟩
      obtain ⟨b, hb, childs, rfl⟩ := mem_clearOn ha
      refine forall_replaceF h.stage.agg (fun x y hx hxy => ?_) b hb
      rw [Stage.takeAgg] at hxy
      split at hxy
      · cases hxy
        exact hx.onTask
      · cases hxy
  | onSnark i r now' io c t s file _ _ hs' =>
      obtain rfl := hnow now' rfl
      rw [hs']
      exact ⟨⟨h.stage.split, h.stage.prove, h.stage.agg, h.stage.snark.onTask⟩,
        h.splits, fun c hc => h.snarks c (List.mem_of_mem_eraseIdx hc)⟩

/-! ## A stage that reports success -/

variable {g : GenerateTask β} {w : World β}

/-- A request that starts at none of the steps that make a task: nothing is
    ever handed out but prove tasks, and those at step `Prove` only. -/
structure Aside (g : GenerateTask β) (w : World β) : Prop where
  step   : w.stage.step = g.fromStep
  split  : w.stage.splitTask.state = .Initial
  snark  : w.stage.snarkTask.state = .Initial
  gen    : w.stage.isTasksGenDone = false
  splits : w.splits = []
  snarks : w.snarks = []
  proves : g.fromStep ≠ .Prove → w.stage.proveTasks = []

/-- A request from another step stays aside over every run. -/
theorem Reachable.aside (hinit : g.fromStep ≠ .Init) (hagg : g.fromStep ≠ .Agg)
    (h : Reachable feat g w) : Aside g w := by
  refine h.inv (I := Aside g)
    (fun file => ⟨rfl, rfl, rfl, rfl, rfl, rfl, fun _ => rfl⟩) ?_
  intro v v' hs ha hm
  cases hm with
  | start split hstep _ _ => exact absurd (ha.step.symm.trans hstep) hinit
  | grow new hstep _ _ _ =>
      exact { ha with
        proves := fun hne => absurd (ha.step.symm.trans hstep) hne }
  | steer step hsteer =>
      cases hsteer with
      | split _ hst _ _ => cases ha.split.symm.trans hst
      | composite _ hp _ => cases ha.gen.symm.trans hp.done
      | agg _ hp _ _ _ => cases ha.gen.symm.trans hp.done
      | snark _ hst => cases ha.snark.symm.trans hst
  | finalise s listing hf =>
      cases hf with
      | mk _ _ _ _ _ _ _ _ _ hst _ _ _ _ => cases ha.split.symm.trans hst
  | snarkNew snark hnew =>
      cases hnew.due with
      | fromAgg hstep _ => exact absurd (ha.step.symm.trans hstep) hagg
      | fromProve _ hp _ _ _ => cases ha.gen.symm.trans hp.done
  | splitOut now t hwait _ =>
      rw [ha.split] at hwait
      cases hwait
  | splitIn i c r now hc =>
      rw [ha.splits] at hc
      cases hc
  | proveOut now x t hx _ _ =>
      refine { ha with proves := fun hne => ?_ }
      rw [ha.proves hne] at hx
      cases hx
  | proveIn i c t r now ps err _ htaken _ _ =>
      refine { ha with proves := fun hne => ?_ }
      cases htaken with
      | miss _ => exact ha.proves hne
      | hit x hx _ _ =>
          rw [ha.proves hne] at hx
          cases hx
  | aggOut now x t inputs _ _ _ _ _ => exact { ha with }
  | aggIn i c t r now as err file _ _ _ _ _ => exact { ha with }
  | snarkOut now t hwait _ =>
      rw [ha.snark] at hwait
      cases hwait
  | snarkIn i c t r now hc _ _ =>
      rw [ha.snarks] at hc
      cases hc

/-- The tasks have succeeded, or never ran. -/
structure Stage.Settled (s : Stage β) : Prop where
  split : s.splitTask.state = .Initial ∨ s.splitTask.state = .Success
  prove : ∀ t ∈ s.proveTasks, t.state = .Success
  agg   : ∀ a ∈ s.aggTasks, a.state = .Success
  snark : s.snarkTask.state = .Initial ∨ s.snarkTask.state = .Success

/-- From the step `Init` on. -/
theorem Reachable.settled_init (hfrom : g.fromStep = .Init)
    (h : Reachable feat g w) (hsucc : w.stage.isSuccess = true) :
    w.stage.Settled := by
  have hp := h.phases (Or.inl hfrom)
  have hreq := hp.request
  -- a snark task is made after the aggregation, and only for target snark
  have hsnark : ¬ (Aggregated w.stage ∧ g.targetStep ≠ .Agg) →
      w.stage.snarkTask.state = .Initial := fun hno =>
    Classical.byContradiction fun hmade => hno (hp.due hmade hfrom)
  rcases hp.outcome hfrom hsucc with ⟨hsplit, htarget⟩ | ⟨hproved, hcomp⟩ |
    ⟨hagg, htarget⟩
  · have hdone : w.stage.isTasksGenDone = false :=
      Bool.eq_false_iff.mpr fun hdone => (hp.gen hdone).2 htarget
    refine ⟨Or.inr hsplit, ?_, ?_, Or.inl (hsnark fun hno => ?_)⟩
    · rw [h.split_target htarget]
      exact fun t ht => (List.not_mem_nil ht).elim
    · rw [(h.shape.early hdone).1]
      exact fun a ha => (List.not_mem_nil ha).elim
    · cases hdone.symm.trans hno.1.proved.done
  · refine ⟨Or.inr (hp.gen hproved.done).1, hproved.all, ?_,
      Or.inl (hsnark fun hno => ?_)⟩
    · rw [h.graph.composite hproved.done (hreq ▸ hcomp)]
      exact fun a ha => (List.not_mem_nil ha).elim
    · cases hcomp.symm.trans (hreq ▸ hno.1.whole)
  · refine ⟨Or.inr (hp.gen hagg.proved.done).1, hagg.proved.all, hagg.aggs, ?_⟩
    rcases htarget with htarget | ⟨_, hst⟩
    · exact Or.inl (hsnark fun hno => hno.2 htarget)
    · exact Or.inr hst

/-- **SETTLED**: whatever the first step, a stage that reports success has
    nothing out and nothing that waits. -/
theorem Reachable.settled (h : Reachable feat g w)
    (hsucc : w.stage.isSuccess = true) : w.stage.Settled := by
  have hended : w.stage.step = .End ∨ w.stage.snarkTask.state = .Success := by
    rwa [Stage.isSuccess, Bool.or_eq_true, decide_eq_true_eq,
      decide_eq_true_eq] at hsucc
  have hnothing : w.stage.isTasksGenDone = false →
      ∀ a ∈ w.stage.aggTasks, a.state = .Success := by
    intro hdone
    rw [(h.shape.early hdone).1]
    exact fun a ha => (List.not_mem_nil ha).elim
  by_cases hinit : g.fromStep = .Init
  · exact h.settled_init hinit hsucc
  by_cases hagg : g.fromStep = .Agg
  · have hp := h.phases (Or.inr hagg)
    have hidle := hp.idle hagg
    refine ⟨Or.inl hidle.split, ?_, hnothing hidle.gen, Or.inr ?_⟩
    · rw [hidle.proves]
      exact fun t ht => (List.not_mem_nil ht).elim
    · refine hended.elim (fun hend => ?_) id
      cases hp.ended hend with
      | split hst _ => cases hidle.split.symm.trans hst
      | composite hproved _ => cases hidle.gen.symm.trans hproved.done
      | agg haggs _ => cases hidle.gen.symm.trans haggs.proved.done
      | snark hst => exact hst
  · have haside := h.aside hinit hagg
    have hend : g.fromStep = .End := by
      rcases hended with hend | hst
      · exact haside.step.symm.trans hend
      · cases haside.snark.symm.trans hst
    refine ⟨Or.inl haside.split, ?_, hnothing haside.gen, Or.inl haside.snark⟩
    rw [haside.proves (by rw [hend]; rintro ⟨⟩)]
    exact fun t ht => (List.not_mem_nil ht).elim

omit [Blob β] in
/-- So no printed duration underflows. -/
theorem Stage.Settled.printed {s : Stage β} (h : s.Settled)
    (htime : s.InTime now) :
    ∀ trace ∈ s.printed, trace.startTs ≤ trace.finishTs := by
  intro trace htrace
  rw [Stage.printed, List.mem_cons, List.mem_append, List.mem_append,
    List.mem_map, List.mem_map, List.mem_singleton] at htrace
  rcases htrace with rfl | (⟨t, ht, rfl⟩ | ⟨a, ha, rfl⟩) | rfl
  · exact htime.split.settled h.split
  · exact (htime.prove t ht).settled (Or.inr (h.prove t ht))
  · exact (htime.agg a ha).settled (Or.inr (h.agg a ha))
  · exact htime.snark.settled h.snark

/-! ## The worker -/

/-- The readings of the clock in one third of a turn, in their order. -/
def Act.readings : Act β → List Nat
  | .handOut clock _ => [clock 0, clock 1, clock 2, clock 3]
  | .receive now _ => [now]
  | .dispatch now _ _ => [now]

/-- A world of the loop, at the time `now`. -/
def Ctl.InTime (now : Nat) : Ctl β → Prop
  | .looping l => ZkmProver.InTime now l.world
  | .waiting _ w => ZkmProver.InTime now w
  | .received _ w => ZkmProver.InTime now w
  | _ => True

/-- A call that may be skipped keeps the times in order. -/
theorem InTime.stepIf {guard : Bool} {a : Action β} {w' : World β}
    (hs : Shape w) (h : InTime now w)
    (hnow : ∀ r, a.reading = some r → r = now)
    (hw : w.stepIf feat guard a = some w') : InTime now w' :=
  stepIf_inv (h.step hs hnow) h hw

/-- The hand-outs of a turn read the clock in the order of `readings`. -/
theorem InTime.handOuts {clock : Nat → Nat} {w' : World β}
    (hw : Reachable feat g w) (h : InTime now w) (h0 : now ≤ clock 0)
    (h1 : clock 0 ≤ clock 1) (h2 : clock 1 ≤ clock 2) (h3 : clock 2 ≤ clock 3)
    (hout : handOuts feat clock disk w = some w') : InTime (clock 3) w' := by
  have hlast : now ≤ clock 3 := h0.trans (h1.trans (h2.trans h3))
  rw [ZkmProver.handOuts] at hout
  cases hst : w.stage.step with
  | Prove =>
      simp only [hst, Option.bind_eq_bind, Option.bind_eq_some_iff] at hout
      -- each hand-out reads the clock anew
      obtain ⟨w₁, hsplit, w₂, hprove, hagg⟩ := hout
      have ht₁ : InTime (clock 0) w₁ :=
        (h.mono h0).step hw.shape (by rintro r ⟨⟩; rfl) hsplit
      have hw₁ := hw.step hsplit
      have ht₂ : InTime (clock 1) w₂ :=
        (ht₁.mono h1).stepIf hw₁.shape (by rintro r ⟨⟩; rfl) hprove
      have hw₂ := hw₁.stepIf hprove
      have ht₃ : InTime (clock 2) w' :=
        (ht₂.mono h2).stepIf hw₂.shape (by rintro r ⟨⟩; rfl) hagg
      exact ht₃.mono h3
  | Snark =>
      simp only [hst] at hout
      exact (h.mono hlast).step hw.shape (by rintro r ⟨⟩; rfl) hout
  | Init => simp only [hst] at hout; cases hout; exact h.mono hlast
  | Split => simp only [hst] at hout; cases hout; exact h.mono hlast
  | Agg => simp only [hst] at hout; cases hout; exact h.mono hlast
  | End => simp only [hst] at hout; cases hout; exact h.mono hlast

omit [Blob β] in
/-- A message is handled at one reading of the clock. -/
theorem Event.reading_action {event : Event β} {a : Action β}
    (ha : event.action now = some a) : a.reading = some now := by
  cases event with
  | tick => cases ha
  | _ =>
      cases ha
      rfl

/-- So does a result. -/
theorem InTime.receive {event : Event β} {w' : World β} (hs : Shape w)
    (h : InTime now w) (hrec : receive feat now event w = some w') :
    InTime now w' := by
  rw [ZkmProver.receive] at hrec
  split at hrec
  · cases hrec
    exact h
  case h_2 a ha =>
    refine h.step hs (fun r hr => ?_) hrec
    exact Option.some.inj (hr.symm.trans (Event.reading_action ha))

/-- A fresh stage is in time at any time. -/
theorem InTime.start (g : GenerateTask β) (file : Option β) :
    InTime now (World.start g file) := by
  refine ⟨⟨.born rfl, ?_, ?_, .born rfl⟩, ?_, ?_⟩
  all_goals exact fun _ h => (List.not_mem_nil h).elim

/-- The stage is in time when a turn ends, too. -/
theorem Ctl.InTime.conclude {l : Loop β} {ts duration : Nat} (hs : Shape w)
    (h : ZkmProver.InTime now w) :
    (conclude feat ts disk duration l w).InTime now := by
  rw [ZkmProver.conclude]
  split
  · rw [finish]
    split
    · trivial
    · dsimp only
      split
      · trivial
      · split <;> trivial
  · split
    · trivial
    case _ w' hw =>
      show ZkmProver.InTime now (l.dispatched _ ts w').world
      rw [dispatched_world]
      exact h.step hs (by rintro r ⟨⟩) hw

/-- A run begins in time. -/
theorem Ctl.InTime.start {task : StageTask β} {row : StageRow} {b : Boot β} :
    (runStageTask feat task row b).InTime now := by
  rw [runStageTask]
  split
  case h_1 => trivial
  case h_2 => trivial
  case h_3 g _ =>
    split
    case isTrue =>
      rw [runSingleNode]
      split
      · trivial
      · dsimp only
        split
        · trivial
        · split
          · trivial
          · split <;> trivial
    case isFalse =>
      split
      · trivial
      case _ w hw =>
        have htime : ZkmProver.InTime now (World.start g b.file) := .start ..
        exact htime.step (Shape.start g b.file) (by rintro r ⟨⟩) hw

/-- A step whose readings are in order keeps the times in order. -/
theorem Ctl.InTime.step {c c' : Ctl β} {a : Act β} {now' : Nat}
    (hin : Inside feat g c) (h : c.InTime now)
    (hsorted : (now :: a.readings).Pairwise (· ≤ ·))
    (hlast : ∀ r ∈ now :: a.readings, r ≤ now')
    (hstep : c.step feat a = some c') : c'.InTime now' := by
  have hnow : now ≤ now' := hlast now List.mem_cons_self
  cases c with
  | looping l =>
      cases a with
      | handOut clock disk =>
          rw [Ctl.step] at hstep
          split at hstep
          · cases hstep
            trivial
          case _ w hw =>
            cases hstep
            simp only [Act.readings, List.pairwise_cons, List.mem_cons,
              forall_eq_or_imp] at hsorted hlast
            have htime : ZkmProver.InTime (clock 3) w :=
              ZkmProver.InTime.handOuts hin.reachable h hsorted.1.1
                hsorted.2.1.1 hsorted.2.2.1.1 hsorted.2.2.2.1.1 hw
            exact htime.mono hlast.2.2.2.2.1
      | receive _ _ => cases hstep
      | dispatch _ _ _ => cases hstep
  | waiting l w =>
      cases a with
      | handOut _ _ => cases hstep
      | receive ts event =>
          rw [Ctl.step] at hstep
          split at hstep
          · cases hstep
            trivial
          case _ w' hw =>
            cases hstep
            have hle : now ≤ ts := List.rel_of_pairwise_cons hsorted
              List.mem_cons_self
            have htime : ZkmProver.InTime now w := h
            exact ((htime.mono hle).receive hin.2.shape hw).mono
              (hlast ts (List.mem_cons_of_mem _ List.mem_cons_self))
      | dispatch _ _ _ => cases hstep
  | received l w =>
      cases a with
      | handOut _ _ => cases hstep
      | receive _ _ => cases hstep
      | dispatch ts disk duration =>
          rw [← Option.some.inj hstep]
          have htime : ZkmProver.InTime now w := h
          exact Ctl.InTime.conclude hin.2.shape (htime.mono hnow)
  | returned row stage => cases hstep
  | panicked row => cases hstep

omit [Blob β] in
/-- Every step reads the clock. -/
theorem Act.readings_cons (a : Act β) :
    ∃ first rest, a.readings = first :: rest := by
  cases a with
  | handOut clock disk => exact ⟨_, _, rfl⟩
  | receive now event => exact ⟨_, _, rfl⟩
  | dispatch now disk duration => exact ⟨_, _, rfl⟩

/-- The worker after these acts, at any time that is not before a reading. -/
def Timed (feat : Feature) (g : GenerateTask β) (acts : List (Act β))
    (c : Ctl β) : Prop :=
  Inside feat g c ∧
    ((acts.flatMap Act.readings).Pairwise (· ≤ ·) →
      ∀ now, (∀ r ∈ acts.flatMap Act.readings, r ≤ now) → c.InTime now)

theorem Timed.start {task : StageTask β} {row : StageRow} {b : Boot β}
    (hctx : task.context = .request g) :
    Timed feat g [] (runStageTask feat task row b) :=
  ⟨Inside.start hctx, fun _ _ _ => .start⟩

/-- A run whose readings are in order, one step longer. -/
theorem Timed.step {acts : List (Act β)} {c c' : Ctl β} {a : Act β}
    (h : Timed feat g acts c) (hstep : c.step feat a = some c') :
    Timed feat g (acts ++ [a]) c' := by
  obtain ⟨hin, htime⟩ := h
  refine ⟨hin.step hstep, fun hsorted now hle => ?_⟩
  rw [List.flatMap_append, List.flatMap_singleton] at hsorted hle
  obtain ⟨hbefore, hlast, hcross⟩ := List.pairwise_append.mp hsorted
  -- at the first reading of the turn everything before is over
  obtain ⟨first, rest, hreadings⟩ := a.readings_cons
  have hfirst : first ∈ a.readings := hreadings ▸ List.mem_cons_self
  have hsince : ∀ r ∈ a.readings, first ≤ r := by
    intro r hr
    rw [hreadings] at hr hlast
    rcases List.mem_cons.mp hr with rfl | hr
    · exact Nat.le_refl _
    · exact List.rel_of_pairwise_cons hlast hr
  refine Ctl.InTime.step hin
    (htime hbefore first fun r hr => hcross r hr first hfirst)
    (List.pairwise_cons.mpr ⟨hsince, hlast⟩) ?_ hstep
  intro r hr
  rcases List.mem_cons.mp hr with rfl | hr
  · exact hle _ (List.mem_append_right _ hfirst)
  · exact hle r (List.mem_append_right _ hr)

/-- In every run with its readings in order the times are. -/
theorem Runs.timed {task : StageTask β} {row : StageRow} {b : Boot β}
    {acts : List (Act β)} {c : Ctl β} (hctx : task.context = .request g)
    (h : Runs feat task row b acts c) : Timed feat g acts c :=
  run_trace (fun _ _ _ _ h => h.step) (Timed.start hctx) h

omit [Blob β] in
/-- What is saved has not ended before it began. -/
theorem Event.saved_inTime (h : InTime now w) (event : Event β) :
    ∀ trace ∈ event.saved now w, trace.startTs ≤ trace.finishTs := by
  cases event with
  | split i r =>
      rw [Event.saved]
      split
      case h_1 c hc =>
        exact saved_stampSrc (h.splits c (List.mem_of_getElem? hc))
      case h_2 => exact fun _ ht => (List.not_mem_nil ht).elim
  | snark i r io =>
      rw [Event.saved]
      split
      case h_1 c hc =>
        split
        case h_1 s t file hon =>
          rw [(onSnarkTask_eq hon).2.1]
          exact saved_stampSrc (h.snarks c (List.mem_of_getElem? hc))
        case h_2 => exact fun _ ht => (List.not_mem_nil ht).elim
      case h_2 => exact fun _ ht => (List.not_mem_nil ht).elim
  | _ => exact fun _ ht => (List.not_mem_nil ht).elim

/-- What is returned with a stage is the stage, and without an error it has
    reported success. -/
theorem conclude_returned {l : Loop β} {ts duration : Nat} {row : StageRow}
    {stage : Stage β}
    (h : conclude feat ts disk duration l w = .returned row (some stage)) :
    stage = w.stage ∧
      (w.stage.isError = false → w.stage.isSuccess = true) := by
  rw [conclude] at h
  split at h
  case isTrue hover =>
    rw [Bool.or_eq_true] at hover
    refine ⟨?_, fun hno => hover.resolve_right (by rw [hno]; rintro ⟨⟩)⟩
    rw [finish] at h
    split at h
    · cases h
      rfl
    · dsimp only at h
      split at h
      · cases h
      · split at h
        · cases h
        · cases h
          rfl
  case isFalse =>
    split at h
    · cases h
    · cases h

/-- A single node is saved without times. -/
theorem bootDurations_default (task : StageTask β) (b : Boot β)
    (response : Option (SingleReply β)) :
    ∀ trace ∈ bootDurations task b response, trace = .default := by
  have hsaved : ∀ (s : Stage β) (state : TaskState) (n : Nat),
      ∀ trace ∈ (singleNodeSplit s state n).saved, trace = .default := by
    intro s state n trace htrace
    rw [TaskHead.saved] at htrace
    split at htrace
    · exact List.mem_singleton.mp htrace
    · cases htrace
  have hnone : ∀ trace ∈ ([] : List Trace), trace = .default := fun _ ht =>
    (List.not_mem_nil ht).elim
  rw [bootDurations]
  split
  · split
    · dsimp only
      split
      · split
        · exact hsaved _ _ _
        · exact hnone
      · exact hsaved _ _ _
    · exact hnone
  · exact hnone

/-- A proof whose context is no request has returned before its loop. -/
theorem Runs.returned {task : StageTask β} {row : StageRow} {b : Boot β}
    {acts : List (Act β)} {c : Ctl β} (h : Runs feat task row b acts c)
    (hctx : ∀ g, task.context ≠ .request g) :
    ∃ row' stage, c = .returned row' stage := by
  refine run_inv (I := fun c => ∃ row' stage, c = .returned row' stage)
    ?_ ?_ h
  · rintro c a c' ⟨row', stage, rfl⟩ hstep
    cases hstep
  · rw [runStageTask]
    split
    · exact ⟨_, _, rfl⟩
    · exact ⟨_, _, rfl⟩
    case h_3 g hg => exact absurd hg (hctx g)

/-- **DURATIONS**: in a run under a clock that does not go back. -/
theorem Runs.durations {task : StageTask β} {row : StageRow} {b : Boot β}
    {acts : List (Act β)} {c : Ctl β} (h : Runs feat task row b acts c)
    (a : Act β)
    (hsorted : ((acts ++ [a]).flatMap Act.readings).Pairwise (· ≤ ·)) :
    ∀ trace ∈ c.durations feat a, trace.startTs ≤ trace.finishTs := by
  have hnone : ∀ trace ∈ ([] : List Trace),
      trace.startTs ≤ trace.finishTs := fun _ ht => (List.not_mem_nil ht).elim
  by_cases hctx : ∃ g, task.context = .request g
  case neg =>
    obtain ⟨row', stage, rfl⟩ := h.returned fun g hg => hctx ⟨g, hg⟩
    exact hnone
  obtain ⟨g, hctx⟩ := hctx
  obtain ⟨hin, htime⟩ := h.timed hctx
  rw [List.flatMap_append, List.flatMap_singleton] at hsorted
  obtain ⟨hbefore, _, hcross⟩ := List.pairwise_append.mp hsorted
  cases c with
  | looping l => exact hnone
  | waiting l w =>
      cases a with
      | handOut clock disk => exact hnone
      | receive now event =>
          have hnow : (Ctl.waiting l w).InTime now :=
            htime hbefore now fun r hr => hcross r hr now List.mem_cons_self
          exact Event.saved_inTime hnow event
      | dispatch now disk duration => exact hnone
  | received l w =>
      cases a with
      | handOut clock disk => exact hnone
      | receive now event => exact hnone
      | dispatch now disk duration =>
          have hnow : (Ctl.received l w).InTime now :=
            htime hbefore now fun r hr => hcross r hr now List.mem_cons_self
          rw [Ctl.durations]
          split
          case h_1 row' stage hend =>
            obtain ⟨rfl, hsucc⟩ := conclude_returned hend
            split
            case isTrue => exact hnone
            case isFalse hno =>
              have hsettled := hin.2.settled
                (hsucc (Bool.eq_false_iff.mpr hno))
              exact hsettled.printed hnow.stage
          case h_2 => exact hnone
  | returned row' stage => exact hnone
  | panicked row' => exact hnone

end

/-- The subtraction does not underflow. -/
theorem Trace.duration_isSome {t : Trace} (h : t.startTs ≤ t.finishTs) :
    t.duration.isSome = true := by
  rw [Trace.duration, if_pos h]
  rfl

/-- **DURATIONS**: in every run under a clock that does not go back, every task
    whose duration is asked for has not started after it finished, and so the
    subtraction does not underflow. -/
theorem durations_fit [Blob β] (feat : Feature) (task : StageTask β)
    (row : StageRow) (b : Boot β) :
    (∀ response, ∀ trace ∈ bootDurations task b response,
      trace.startTs ≤ trace.finishTs ∧ trace.duration.isSome = true) ∧
    ∀ (acts : List (Act β)) (a : Act β) (c : Ctl β),
      Runs feat task row b acts c →
        ((acts ++ [a]).flatMap Act.readings).Pairwise (· ≤ ·) →
          ∀ trace ∈ c.durations feat a,
            trace.startTs ≤ trace.finishTs ∧ trace.duration.isSome = true := by
  constructor
  · intro response trace htrace
    have hle : trace.startTs ≤ trace.finishTs := by
      rw [bootDurations_default task b response trace htrace]
      exact Nat.le_refl 0
    exact ⟨hle, Trace.duration_isSome hle⟩
  · intro acts a c hrun hsorted trace htrace
    have hle := hrun.durations a hsorted trace htrace
    exact ⟨hle, Trace.duration_isSome hle⟩

/-- A split that is all of its request. -/
def splitTask : StageTask (List UInt8) :=
  { proveTask with
    context := .request
      { GenerateTask.default with targetStep := .Split, maxProverNum := 1 } }

/-- The split is started at 1 and back at 2, and printed at 6. -/
theorem durations_fit_split :
    ∃ c, Runs .prover splitTask freshRow freshBoot
        [.handOut (fun _ => 1) .full,
          .receive 2 (.split 0 ⟨.Success, "a", 10, 2⟩), .dispatch 3 .full 0,
          .handOut (fun _ => 4) .full, .receive 5 .tick] c ∧
      (c.durations .prover (.dispatch 6 .full 0)).length = 2 ∧
      ∀ trace ∈ c.durations .prover (.dispatch 6 .full 0),
        trace.startTs ≤ trace.finishTs ∧ trace.duration.isSome = true := by
  obtain ⟨c, hrun, hprinted⟩ := Runs.of_check .prover splitTask freshRow
    freshBoot
    [.handOut (fun _ => 1) .full,
      .receive 2 (.split 0 ⟨.Success, "a", 10, 2⟩), .dispatch 3 .full 0,
      .handOut (fun _ => 4) .full, .receive 5 .tick]
    (fun c => (c.durations .prover (.dispatch 6 .full 0)).length = 2)
    (by decide)
  exact ⟨c, hrun, of_decide_eq_true hprinted,
    (durations_fit .prover splitTask freshRow freshBoot).2 _ _ c hrun
      (by decide)⟩

end ZkmProver
