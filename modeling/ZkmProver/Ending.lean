import ZkmProver.Client
import ZkmProver.Progress
import ZkmProver.Retries

/-! # Ending — a fair schedule brings the worker to its end

    A schedule answers the thirds of the turns of `run_stage_task` one after
    the other.  It is `Fair` when results that count, SUCCESS or FAILED, keep
    coming back for each kind of task that keeps being out; results that give a
    task back may come in between, as often as they like.

    Before the graph is there the split is out in every turn, and its result
    brings the graph (`Endless.grown`).  From then on `World.left` counts the
    results that the tasks can still take: no step makes it larger, a result
    that counts makes it smaller or raises the error flag, and some copy is
    out in every turn (`Endless.out`).  So no fair schedule goes on for ever
    (`worker_ends`). -/

namespace ZkmProver

open Forest Keyed Machine

variable {β : Type}

/-! ## What is left to do -/

/-- The results a prove task can take before the next one raises the flag. -/
def ProveTask.left (t : ProveTask β) : Nat :=
  if t.state = .Success then 0 else 1 + (3 - t.failureCount)

/-- How many results an agg task still waits for. -/
def AggTask.left (a : AggTask β) : Nat := if a.state = .Success then 0 else 1

/-- A copy of a task that was cut off. -/
def orphan (ids : List Nat) (c : ProveTask β) : Nat :=
  if c.taskId ∈ ids then 0 else 1

/-- The results that are still to come: those of the tasks that have not
    succeeded, the failures a prove task has left, and the copies of tasks that
    are gone. -/
def World.left (w : World β) : Nat :=
  total (w.stage.proveTasks.map (·.left))
    + total (w.stage.aggTasks.map (·.left))
    + (if w.stage.snarkTask.state = .Success then 0 else 1)
    + total (w.proves.map (orphan (w.stage.proveTasks.map (·.taskId))))

theorem ProveTask.left_done {t : ProveTask β} (h : t.state = .Success) :
    t.left = 0 := if_pos h

theorem ProveTask.left_open {t : ProveTask β} (h : t.state ≠ .Success) :
    t.left = 1 + (3 - t.failureCount) := if_neg h

theorem AggTask.left_done {a : AggTask β} (h : a.state = .Success) :
    a.left = 0 := if_pos h

theorem AggTask.left_open {a : AggTask β} (h : a.state ≠ .Success) :
    a.left = 1 := if_neg h

/-- A result of a prove task adds nothing to what is left. -/
theorem onProveTaskDst_left {now : Nat} {t x : ProveTask β}
    (hx : x.state = .Processing) : (onProveTaskDst now t x).left ≤ x.left := by
  rw [ProveTask.left_open (t := x) (by rw [hx]; rintro ⟨⟩)]
  by_cases hdone : (onProveTaskDst now t x).state = .Success
  · rw [ProveTask.left_done hdone]
    exact Nat.zero_le _
  · rw [ProveTask.left_open hdone, onProveTaskDst_failureCount]
    split <;> omega

/-- Nor does one of an agg task. -/
theorem onAggTaskDst_left {now : Nat} {t x : AggTask β}
    (hx : x.state = .Processing) : (onAggTaskDst now t x).left ≤ x.left := by
  rw [AggTask.left_open (a := x) (by rw [hx]; rintro ⟨⟩), AggTask.left]
  split <;> decide

/-- Children that are cleared do not count. -/
theorem clearOn_left (state : TaskState) (id : Nat) (as : List (AggTask β)) :
    (clearOn state id as).map (·.left) = as.map (·.left) :=
  map_clearOn (·.left) (fun _ _ => rfl) state id as

/-- The graph is there, or there will be none. -/
def Closed (g : GenerateTask β) (w : World β) : Prop :=
  w.stage.isTasksGenDone = true ∨ g.fromStep = .Agg

section

variable [Blob β] {feat : Feature} {g : GenerateTask β} {w w' : World β}

omit [Blob β] in
/-- Once the lists are closed no prove task is added. -/
theorem Closed.not_growing (h : Closed g w) (hp : Phases g w)
    (hstep : w.stage.step = .Prove) : w.stage.isTasksGenDone ≠ false := by
  intro hdone
  rcases h with hgen | hagg
  · cases hdone.symm.trans hgen
  · cases (hp.prove hstep).1.symm.trans hagg

omit [Blob β] in
/-- No result of a prove task adds to what is left. -/
theorem ProveTaken.left_le {now : Nat} {t : ProveTask β}
    {ps ps' : List (ProveTask β)} {err : Bool}
    (hnd : (ps.map (·.taskId)).Nodup) (h : ProveTaken now t ps ps' err) :
    total (ps'.map (·.left)) ≤ total (ps.map (·.left)) := by
  cases h with
  | miss _ => exact Nat.le_refl _
  | hit x hx _ hst =>
      have hsum := total_put (·.left) hnd hx
        (onProveTaskDst_taskId now t x)
      have hle : (onProveTaskDst now t x).left ≤ x.left :=
        onProveTaskDst_left hst
      omega

omit [Blob β] in
/-- No result of an agg task does. -/
theorem AggTaken.left_le {now : Nat} {t : AggTask β}
    {as as' : List (AggTask β)} {err : Bool}
    (hnd : (as.map (·.taskId)).Nodup) (h : AggTaken now t as as' err) :
    total (as'.map (·.left)) ≤ total (as.map (·.left)) := by
  cases h with
  | miss _ => exact Nat.le_refl _
  | hit x hx _ hst =>
      have hsum := total_put (·.left) hnd hx
        (y := onAggTaskDst now t x) (onTask_taskId ..)
      have hle : (onAggTaskDst now t x).left ≤ x.left := onAggTaskDst_left hst
      omega

/-- **LEFT**: once the graph is there, no move adds to it. -/
theorem Moved.left_le (hs : Shape w) (hl : Leases w) (hp : Phases g w)
    (hclosed : Closed g w) (hm : Moved feat w w') : w'.left ≤ w.left := by
  have hgrow := hclosed.not_growing hp
  cases hm with
  | start split _ _ _ => exact Nat.le_refl _
  | grow new hstep hdone _ _ => exact absurd hdone (hgrow hstep)
  | steer step _ => exact Nat.le_refl _
  | finalise s listing hf =>
      cases hf with
      | mk _ _ _ _ _ _ _ hstep hdone _ _ _ _ _ =>
          exact absurd hdone (hgrow hstep)
  | snarkNew snark hnew =>
      rw [World.left, World.left, hnew.fresh, hnew.state]
      exact Nat.le_refl _
  | splitOut now t _ _ => exact Nat.le_refl _
  | splitIn i c r now _ => exact Nat.le_refl _
  | proveOut now x t hx hwait ht =>
      have hkey : t.taskId = x.taskId := by rw [ht]; rfl
      have hsum := total_put (·.left) hs.prove_nodup hx hkey
      have hsame : t.left = x.left := by
        rw [ProveTask.left_open (waiting_unfinished hwait), ht]
        rfl
      have hids := map_key_put (fun x : ProveTask β => x.taskId) t
        w.stage.proveTasks
      have hknown : orphan (w.stage.proveTasks.map (·.taskId)) t = 0 :=
        if_pos (hkey ▸ List.mem_map_of_mem hx)
      simp only [World.left, hids, List.map_append, List.map_cons,
        List.map_nil, total_append, total, hknown]
      omega
  | proveIn i c t r now ps err hc htaken _ _ =>
      have hsum :=
        total_eraseIdx (orphan (w.stage.proveTasks.map (·.taskId))) hc
      have hle := htaken.left_le hs.prove_nodup
      simp only [World.left, clearOn_left, htaken.ids]
      omega
  | aggOut now x t inputs hx _ hwait ht _ =>
      have hkey : t.taskId = x.taskId := by rw [ht]; rfl
      have hsum := total_put (·.left) hs.agg_nodup hx hkey
      have hsame : t.left = x.left := by
        rw [AggTask.left_open (waiting_unfinished hwait), ht]
        rfl
      simp only [World.left]
      omega
  | aggIn i c t r now as err file _ htaken _ _ _ =>
      have hle := htaken.left_le hs.agg_nodup
      simp only [World.left, clearOn_left]
      omega
  | snarkOut now t hwait ht =>
      simp only [World.left]
      rw [if_neg (waiting_unfinished hwait)]
      split <;> omega
  | snarkIn i c t r now hc _ _ =>
      have hbusy := hl.snark_busy (List.mem_of_getElem? hc)
      simp only [World.left]
      rw [if_neg (c := w.stage.snarkTask.state = _) (by rw [hbusy]; rintro ⟨⟩)]
      split <;> omega

/-- Any moves leave no more than there was. -/
theorem Moves.left_le (hs : Shape w) (hl : Leases w) (hp : Phases g w)
    (hclosed : Closed g w) (hm : Moves feat w w') :
    w'.left ≤ w.left ∧ Closed g w' := by
  have hall : (Shape w' ∧ Leases w' ∧ Phases g w') ∧
      w'.left ≤ w.left ∧ Closed g w' := by
    induction hm with
    | refl => exact ⟨⟨hs, hl, hp⟩, Nat.le_refl _, hclosed⟩
    | tail _ hlast ih =>
        obtain ⟨⟨hs, hl, hp⟩, hle, hclosed⟩ := ih
        refine ⟨⟨hs.moved hlast, hl.moved hs hlast, hp.moved hl hlast⟩,
          (hlast.left_le hs hl hp hclosed).trans hle, ?_⟩
        exact hclosed.imp_left hlast.gen
  exact hall.2

/-! ## Results that count -/

/-- The kind of a copy in flight that is back with SUCCESS or FAILED. -/
def World.answered (w : World β) : Action β → Option TaskType
  | .onSplit i r _ =>
      if r.state = .Success ∨ r.state = .Failed then
        (w.splits[i]?).map fun _ => .Split
      else none
  | .onProve i r _ =>
      if r.state = .Success ∨ r.state = .Failed then
        (w.proves[i]?).map fun _ => .Prove
      else none
  | .onAgg i r _ _ =>
      if r.state = .Success ∨ r.state = .Failed then
        (w.aggs[i]?).map fun _ => .Agg
      else none
  | .onSnark i r _ _ =>
      if r.state = .Success ∨ r.state = .Failed then
        (w.snarks[i]?).map fun _ => .Snark
      else none
  | _ => none

/-- The copies of a kind in flight; a single-node request has none. -/
def World.out (w : World β) : TaskType → Nat
  | .Split => w.splits.length
  | .Prove => w.proves.length
  | .Agg => w.aggs.length
  | .Snark => w.snarks.length
  | .SingleNode => 0

omit [Blob β] in
/-- The world of a run that goes on; one that has returned or panicked has
    none. -/
def Ctl.world : Ctl β → Option (World β)
  | .looping l => some l.world
  | .waiting _ w => some w
  | .received _ w => some w
  | .returned _ _ => none
  | .panicked _ => none

/-- A third of a turn that the run goes on behind. -/
inductive Turned (feat : Feature) : Ctl β → Act β → Ctl β → Prop where
  | handOut (l : Loop β) (w : World β) (clock : Nat → Nat) (disk : Disk β) :
      handOuts feat clock disk l.world = some w →
      Turned feat (.looping l) (.handOut clock disk) (.waiting l w)
  | receive (l : Loop β) (w w' : World β) (now : Nat) (event : Event β) :
      receive feat now event w = some w' →
      Turned feat (.waiting l w) (.receive now event) (.received l w')
  | dispatch (l l' : Loop β) (w : World β) (now duration : Nat)
      (disk : Disk β) :
      w.stage.isSuccess = false → w.stage.isError = false →
      w.step feat (.dispatch disk) = some l'.world →
      Turned feat (.received l w) (.dispatch now disk duration) (.looping l')

/-- Every third but the dispatch leaves the step alone. -/
theorem World.step_step {a : Action β} (h : w.step feat a = some w')
    (ha : ∀ disk, a ≠ .dispatch disk) : w'.stage.step = w.stage.step := by
  cases World.step_stepped h with
  | dispatch disk _ _ => exact absurd rfl (ha disk)
  | quiet _ _ => rfl
  | getSplit _ _ _ _ => rfl
  | getProve _ _ => rfl
  | getAgg now t s _ hs =>
      rw [hs]
  | getSnark _ _ _ _ => rfl
  | onSplit _ _ _ _ _ => rfl
  | onProve i r now c _ =>
      rw [onProveTask_eq]
  | onAgg i r now io c t s file _ hon =>
      obtain ⟨rfl, _, _⟩ := onAggTask_eq hon
      rfl
  | onSnark i r now io c t s file _ _ hs =>
      rw [hs]

omit [Blob β] in
/-- The states that the clients give their tasks. -/
def Event.settled : Event β → Bool
  | .tick => true
  | .split _ r => r.state.settled
  | .prove _ r => r.state.settled
  | .agg _ r _ => r.state.settled
  | .snark _ r _ => r.state.settled

omit [Blob β] in
/-- A step whose result, if it receives one, is settled. -/
def Act.settled : Act β → Bool
  | .receive _ event => event.settled
  | _ => true

/-- A result that is settled is recorded as one. -/
theorem Unsettled.received {now : Nat} {e : Event β} {a : Action β}
    (ha : e.action now = some a) (hset : e.settled = true)
    (hstep : w.step feat a = some w') (h : ¬ Unsettled w) :
    ¬ Unsettled w' := by
  rintro ⟨d, hd, hlost⟩
  have hback : ∀ state : TaskState, state.settled = true →
      d.head.state ≠ state := by
    rintro state hstate rfl
    cases hlost.symm.trans hstate
  rcases World.step_delivered hstep hd with hold | hnew
  · exact h ⟨d, hold, hlost⟩
  · cases e with
    | tick => cases ha
    | split i r =>
        cases ha
        cases hnew
        exact hback r.state hset (stampSrc_state ..)
    | prove i r =>
        cases ha
        cases hnew with
        | prove _ _ _ c t _ hret => exact hback r.state hset hret.state
    | agg i r io =>
        cases ha
        cases hnew with
        | agg _ _ _ _ c t _ hret => exact hback r.state hset hret.state
    | snark i r io =>
        cases ha
        cases hnew with
        | snark _ _ _ _ c t _ hret => exact hback r.state hset hret.state

/-- What records no result loses none. -/
theorem Unsettled.quiet {a : Action β} (hstep : w.step feat a = some w')
    (hquiet : ∀ d, ¬ Delivers w a d) (h : ¬ Unsettled w) : ¬ Unsettled w' := by
  rintro ⟨d, hd, hlost⟩
  rcases World.step_delivered hstep hd with hold | hnew
  · exact h ⟨d, hold, hlost⟩
  · exact hquiet d hnew

/-- A split that has succeeded stays so. -/
theorem Moves.split_done (hs : Shape w) (hl : Leases w) (hm : Moves feat w w')
    (h : w.stage.splitTask.state = .Success) :
    w'.stage.splitTask.state = .Success := by
  have hall : (Shape w' ∧ Leases w') ∧
      w'.stage.splitTask.state = .Success := by
    induction hm with
    | refl => exact ⟨⟨hs, hl⟩, h⟩
    | tail _ hlast ih =>
        obtain ⟨⟨hs, hl⟩, hdone⟩ := ih
        refine ⟨⟨hs.moved hlast, hl.moved hs hlast⟩, ?_⟩
        rw [hlast.split_done hl hdone]
        exact hdone
  exact hall.2

/-- The hand-outs of a turn are moves, and record no result. -/
theorem handOuts_moves {clock : Nat → Nat} {disk : Disk β}
    (hr : Reachable feat g w) (hset : ¬ Unsettled w)
    (hw : handOuts feat clock disk w = some w') :
    Moves feat w w' ∧ w'.stage.step = w.stage.step ∧ ¬ Unsettled w' := by
  have hall : Reachable feat g w' ∧ Moves feat w w' ∧
      w'.stage.step = w.stage.step ∧ ¬ Unsettled w' := by
    refine handOuts_inv (I := fun v => Reachable feat g v ∧ Moves feat w v ∧
      v.stage.step = w.stage.step ∧ ¬ Unsettled v) ?_
      ⟨hr, .refl, rfl, hset⟩ hw
    rintro a v v' ha ⟨hv, hm, hsame, hset⟩ hstep
    refine ⟨hv.step hstep, hm.trans (World.step_moves hv.shape hstep), ?_, ?_⟩
    · refine (World.step_step hstep ?_).trans hsame
      rintro disk rfl
      cases ha
    · refine Unsettled.quiet hstep ?_ hset
      intro d hd
      cases hd <;> cases ha
  exact hall.2

/-- With the split not done, it is out behind the hand-outs. -/
theorem handOuts_split {clock : Nat → Nat} {disk : Disk β}
    (hstep : w.stage.step = .Prove)
    (hmade : w.stage.splitTask.state ≠ .Initial)
    (hopen : w.stage.splitTask.state ≠ .Success)
    (hw : handOuts feat clock disk w = some w') :
    w'.stage.splitTask.state = .Processing := by
  rw [handOuts] at hw
  simp only [hstep, Option.bind_eq_bind, Option.bind_eq_some_iff] at hw
  obtain ⟨w₁, h₁, w₂, h₂, h₃⟩ := hw
  have hout : w₁.stage.splitTask.state = .Processing := by
    cases hget : getTask (clock 0) w.stage.splitTask.toTaskHead with
    | none =>
        simp only [World.step, Stage.getSplitTask, hget] at h₁
        cases h₁
        by_contra hidle
        cases (getTask_eq_none hget).symm.trans
          (waiting_of hmade hidle hopen)
    | some t =>
        obtain ⟨_, rfl⟩ := getTask_eq_some.mp hget
        simp only [World.step, Stage.getSplitTask, hget] at h₁
        cases h₁
        rfl
  have hkeep : ∀ {guard : Bool} {a : Action β} {v v' : World β},
      (∀ now, a ≠ .getSplit now) → a.gets = true →
      v.stepIf feat guard a = some v' →
      v.stage.splitTask.state = .Processing →
      v'.stage.splitTask.state = .Processing := by
    intro guard a v v' hsplit ha hv hbusy
    refine stepIf_inv (I := fun v => v.stage.splitTask.state = .Processing)
      (fun hstep => ?_) hbusy hv
    cases World.step_stepped hstep with
    | quiet _ _ => exact hbusy
    | getSplit now _ _ _ => exact absurd rfl (hsplit now)
    | getProve _ _ => exact hbusy
    | getAgg _ _ _ _ hs =>
        rw [hs]
        exact hbusy
    | getSnark _ _ _ _ => exact hbusy
    | dispatch _ _ _ => cases ha
    | onSplit _ _ _ _ _ => cases ha
    | onProve _ _ _ _ _ => cases ha
    | onAgg _ _ _ _ _ _ _ _ _ _ => cases ha
    | onSnark _ _ _ _ _ _ _ _ _ _ _ => cases ha
  exact hkeep (by rintro _ ⟨⟩) rfl h₃ (hkeep (by rintro _ ⟨⟩) rfl h₂ hout)

/-- A step with a settled result leaves nothing unsettled. -/
theorem Turned.settled {c c' : Ctl β} {a : Act β} (ht : Turned feat c a c')
    (hin : Inside feat g c)
    (hact : a.settled = true)
    (hw : c.world = some w) (hw' : c'.world = some w') (h : ¬ Unsettled w) :
    ¬ Unsettled w' := by
  cases ht with
  | handOut l v clock disk hv =>
      cases hw
      cases hw'
      exact (handOuts_moves hin.reachable h hv).2.2
  | receive l v v' now e hv =>
      cases hw
      cases hw'
      rw [ZkmProver.receive] at hv
      split at hv
      · cases hv
        exact h
      case _ a ha => exact Unsettled.received ha hact hv h
  | dispatch l l' v now duration disk _ _ hv =>
      cases hw
      cases hw'
      refine Unsettled.quiet hv ?_ h
      intro d hd
      cases hd

end

/-! ## Fair schedules -/

section

variable [Blob β] (feat : Feature) (c₀ : Ctl β) (acts : Nat → Act β)

/-- A turn waits with a copy of the kind in flight. -/
def Out (k : TaskType) (n : Nat) : Prop :=
  ∃ l w, after (Ctl.step feat) c₀ acts n = some (.waiting l w) ∧ 0 < w.out k

/-- And a copy of the kind is back with SUCCESS or FAILED. -/
def Back (k : TaskType) (n : Nat) : Prop :=
  ∃ l w now e, after (Ctl.step feat) c₀ acts n = some (.waiting l w) ∧
    acts n = .receive now e ∧ (e.action now).bind w.answered = some k

/-- A schedule that answers what the run asks, with settled results and with
    the segment files of a finished split; results that count keep coming back
    for each kind of task that keeps being out. -/
structure Fair : Prop where
  fits    : ∀ n c, after (Ctl.step feat) c₀ acts n = some c →
    c.world.isSome = true → (c.step feat (acts n)).isSome = true
  settled : ∀ n, (acts n).settled = true
  files   : ∀ n l clock disk,
    after (Ctl.step feat) c₀ acts n = some (.looping l) →
    acts n = .handOut clock disk →
    l.world.stage.splitTask.state = .Success →
    ∀ i < l.world.stage.splitTask.totalSegments,
      disk.existsPath
        (l.world.stage.generateTask.segPath ++ "/" ++ toString i) = true
  back    : ∀ k, (∃ᶠ n in Filter.atTop, Out feat c₀ acts k n) →
    ∃ᶠ n in Filter.atTop, Back feat c₀ acts k n

end

section

variable [Blob β] {feat : Feature} {c₀ : Ctl β} {acts : Nat → Act β}

end

/-! ## A run that does not end -/

/-- A run that goes on for ever; `w` are its worlds. -/
structure Endless [Blob β] (feat : Feature) (g : GenerateTask β) (c₀ : Ctl β)
    (acts : Nat → Act β) (c : Nat → Ctl β) (w : Nat → World β) : Prop where
  after   : ∀ n, after (Ctl.step feat) c₀ acts n = some (c n)
  world   : ∀ n, (c n).world = some (w n)
  turned  : ∀ n, Turned feat (c n) (acts n) (c (n + 1))
  inside  : ∀ n, Inside feat g (c n)
  settled : ∀ n, ¬ Unsettled (w n)

namespace Endless

variable [Blob β] {feat : Feature} {g : GenerateTask β} {c₀ : Ctl β}
  {acts : Nat → Act β} {c : Nat → Ctl β} {w : Nat → World β} {n m : Nat}

theorem world_eq (h : Endless feat g c₀ acts c w) {v : World β}
    (hv : (c n).world = some v) : w n = v :=
  Option.some.inj ((h.world n).symm.trans hv)

/-- Every state of an endless run is reachable. -/
theorem reachable (h : Endless feat g c₀ acts c w) (n : Nat) :
    Reachable feat g (w n) := by
  have hin := h.inside n
  cases hc : c n with
  | looping l =>
      rw [hc] at hin
      rw [h.world_eq (v := l.world) (by rw [hc]; rfl)]
      exact hin.reachable
  | waiting l v =>
      rw [hc] at hin
      rw [h.world_eq (v := v) (by rw [hc]; rfl)]
      exact hin.2
  | received l v =>
      rw [hc] at hin
      rw [h.world_eq (v := v) (by rw [hc]; rfl)]
      exact hin.2
  | returned row stage => cases hc ▸ h.world n
  | panicked row => cases hc ▸ h.world n

/-- A loop that is about to hand out does so. -/
theorem handOut (h : Endless feat g c₀ acts c w) {l : Loop β}
    (hc : c n = .looping l) :
    ∃ v clock disk, acts n = .handOut clock disk ∧
      handOuts feat clock disk l.world = some v ∧
      c (n + 1) = .waiting l v := by
  have ht := h.turned n
  rw [hc] at ht
  generalize acts n = a, c (n + 1) = c' at ht
  cases ht with
  | handOut _ v clock disk hv => exact ⟨v, clock, disk, rfl, hv, rfl⟩

/-- Behind the hand-outs something is received. -/
theorem receive (h : Endless feat g c₀ acts c w) {l : Loop β} {v : World β}
    (hc : c n = .waiting l v) :
    ∃ v' now e, acts n = .receive now e ∧
      ZkmProver.receive feat now e v = some v' ∧
      c (n + 1) = .received l v' := by
  have ht := h.turned n
  rw [hc] at ht
  generalize acts n = a, c (n + 1) = c' at ht
  cases ht with
  | receive _ _ v' now e hv => exact ⟨v', now, e, rfl, hv, rfl⟩

/-- Behind what is received the stage goes on. -/
theorem dispatch (h : Endless feat g c₀ acts c w) {l : Loop β} {v : World β}
    (hc : c n = .received l v) :
    ∃ l' disk, v.stage.isSuccess = false ∧ v.stage.isError = false ∧
      v.step feat (.dispatch disk) = some l'.world ∧
      c (n + 1) = .looping l' := by
  have ht := h.turned n
  rw [hc] at ht
  generalize acts n = a, c (n + 1) = c' at ht
  cases ht with
  | dispatch _ l' _ now duration disk hsucc herr hv =>
      exact ⟨l', disk, hsucc, herr, hv, rfl⟩

/-- The loop comes round again and again. -/
theorem looping_from (h : Endless feat g c₀ acts c w) (m : Nat) :
    ∃ n l, m ≤ n ∧ c n = .looping l := by
  have hrec : ∀ {m : Nat} {l : Loop β} {v : World β}, c m = .received l v →
      ∃ n l, m ≤ n ∧ c n = .looping l := by
    intro m l v hc
    obtain ⟨l', _, _, _, _, hc'⟩ := h.dispatch hc
    exact ⟨m + 1, l', Nat.le_succ m, hc'⟩
  cases hc : c m with
  | looping l => exact ⟨m, l, Nat.le_refl m, hc⟩
  | waiting l v =>
      obtain ⟨v', _, _, _, _, hc'⟩ := h.receive hc
      obtain ⟨n, l', hn, hl⟩ := hrec hc'
      exact ⟨n, l', Nat.le_of_succ_le hn, hl⟩
  | received l v => exact hrec hc
  | returned row stage => cases hc ▸ h.world m
  | panicked row => cases hc ▸ h.world m

/-- Each step is some moves of the scheduler. -/
theorem moves (h : Endless feat g c₀ acts c w) (n : Nat) :
    Moves feat (w n) (w (n + 1)) := by
  have hr := h.reachable n
  cases hc : c n with
  | looping l =>
      obtain ⟨v, _, _, _, hv, hc'⟩ := h.handOut hc
      have hset := h.settled n
      rw [h.world_eq (v := l.world) (by rw [hc]; rfl)] at hr hset ⊢
      rw [h.world_eq (v := v) (by rw [hc']; rfl)]
      exact (handOuts_moves hr hset hv).1
  | waiting l v =>
      obtain ⟨v', now, e, _, hv, hc'⟩ := h.receive hc
      rw [h.world_eq (v := v) (by rw [hc]; rfl)] at hr ⊢
      rw [h.world_eq (v := v') (by rw [hc']; rfl)]
      rw [ZkmProver.receive] at hv
      split at hv
      · cases hv
        exact .refl
      · exact World.step_moves hr.shape hv
  | received l v =>
      obtain ⟨l', _, _, _, hv, hc'⟩ := h.dispatch hc
      rw [h.world_eq (v := v) (by rw [hc]; rfl)] at hr ⊢
      rw [h.world_eq (v := l'.world) (by rw [hc']; rfl)]
      exact World.step_moves hr.shape hv
  | returned row stage => cases hc ▸ h.world n
  | panicked row => cases hc ▸ h.world n

/-- At the head of the loop everything is dispatched and settled. -/
theorem dispatched (h : Endless feat g c₀ acts c w) {l : Loop β}
    (hc : c n = .looping l) :
    Dispatched feat g l.world ∧ ¬ Unsettled l.world := by
  have hin := h.inside n
  have hset := h.settled n
  rw [hc] at hin
  rw [h.world_eq (v := l.world) (by rw [hc]; rfl)] at hset
  exact ⟨hin, hset⟩

/-- At the top of the loop the stage is not at its end, since the turn goes
    on to the next. -/
theorem unended (h : Endless feat g c₀ acts c w) {l : Loop β}
    (hc : c n = .looping l) : l.world.stage.step ≠ .End := by
  obtain ⟨hd, hset⟩ := h.dispatched hc
  obtain ⟨v, clock, disk, _, hout, hc₁⟩ := h.handOut hc
  obtain ⟨v', now, e, _, hrec, hc₂⟩ := h.receive hc₁
  obtain ⟨l', _, hsucc, _, _, _⟩ := h.dispatch hc₂
  have hsame : v'.stage.step = v.stage.step := by
    rw [ZkmProver.receive] at hrec
    split at hrec
    · cases hrec
      rfl
    case _ a ha =>
      refine World.step_step hrec ?_
      rintro disk rfl
      cases e <;> cases ha
  intro hend
  have hend' : v'.stage.step = .End :=
    hsame.trans ((handOuts_moves hd.reachable hset hout).2.1.trans hend)
  rw [Stage.isSuccess, hend'] at hsucc
  cases hsucc

/-- Before the graph is there, the split is under way. -/
theorem splitting (h : Endless feat g c₀ acts c w) (hfrom : g.fromStep = .Init)
    {l : Loop β} (hc : c n = .looping l) (hopen : ¬ Closed g l.world) :
    l.world.stage.step = .Prove ∧
      l.world.stage.splitTask.state ≠ .Initial ∧
      l.world.stage.splitTask.state ≠ .Success := by
  obtain ⟨hd, _⟩ := h.dispatched hc
  have hp := hd.reachable.phases (Or.inl hfrom)
  have hrest := hd.rested (Or.inl hfrom)
  cases hstep : l.world.stage.step with
  | Init => exact absurd hstep hrest.started.1
  | Split => exact absurd hstep hp.split
  | Agg => exact absurd hstep hrest.started.2
  | End => exact absurd hstep (h.unended hc)
  | Snark =>
      have hdue := (hp.due (hp.snark hstep) hfrom).1
      exact absurd (Or.inl hdue.proved.done) hopen
  | Prove =>
      refine ⟨rfl, (hp.prove hstep).2.1, fun hdone => ?_⟩
      exact hopen (Or.inl (hrest.split hstep hdone))

/-- Before the graph is there, the split is out behind the hand-outs. -/
theorem split_out (h : Endless feat g c₀ acts c w) (hfrom : g.fromStep = .Init)
    {l : Loop β} (hc : c n = .looping l) (hopen : ¬ Closed g l.world) :
    ∃ v, c (n + 1) = .waiting l v ∧ 0 < v.out .Split := by
  obtain ⟨hstep, hmade, hst⟩ := h.splitting hfrom hc hopen
  obtain ⟨v, clock, disk, _, hout, hc'⟩ := h.handOut hc
  have hw := h.world_eq (n := n + 1) (v := v) (by rw [hc']; rfl)
  have hheld := (hw ▸ h.reachable (n + 1)).held
  have hset : ¬ Unsettled v := hw ▸ h.settled (n + 1)
  refine ⟨v, hc', ?_⟩
  rcases hheld.split _ (List.mem_singleton_self _)
    (handOuts_split hstep hmade hst hout) with hlost | ⟨copy, hcopy, _⟩
  · exact absurd hlost hset
  · exact List.length_pos_of_mem hcopy

/-- A result for the split that counts brings the graph. -/
theorem split_back (h : Endless feat g c₀ acts c w) (hfrom : g.fromStep = .Init)
    {l : Loop β} {v v' : World β} (hc : c n = .waiting l v)
    (hc' : c (n + 1) = .received l v') {a : Action β}
    (ha : v.answered a = some .Split) (hstep : v.step feat a = some v') :
    ∃ m, Closed g (w m) := by
  obtain ⟨l', disk, _, herr, hd, hc''⟩ := h.dispatch hc'
  refine ⟨n + 2, Classical.byContradiction fun hopen => ?_⟩
  rw [h.world_eq (v := l'.world) (by rw [hc'']; rfl)] at hopen
  refine (h.splitting hfrom hc'' hopen).2.2 ?_
  have hw := h.world_eq (v := v) (by rw [hc]; rfl)
  have hw' := h.world_eq (v := v') (by rw [hc']; rfl)
  have hr : Reachable feat g v := hw ▸ h.reachable n
  have hr' : Reachable feat g v' := hw' ▸ h.reachable (n + 1)
  refine (World.step_moves hr'.shape hd).split_done hr'.shape hr'.leases ?_
  cases a with
  | onSplit i r now =>
      obtain ⟨hst, hmap⟩ := Option.ite_none_right_eq_some.mp ha
      obtain ⟨copy, hcopy, -⟩ := Option.map_eq_some_iff.mp hmap
      simp only [World.step, hcopy] at hstep
      cases hstep
      have hsucc : r.state = .Success :=
        hst.resolve_right (of_decide_eq_false (Bool.or_eq_false_iff.mp herr).2)
      refine (onTask_state ..).trans ?_
      rw [show (r.split copy).state = .Success from hsucc]
      rfl
  | onProve i r now =>
      obtain ⟨-, hmap⟩ := Option.ite_none_right_eq_some.mp ha
      obtain ⟨_, _, hk⟩ := Option.map_eq_some_iff.mp hmap
      cases hk
  | onAgg i r now io =>
      obtain ⟨-, hmap⟩ := Option.ite_none_right_eq_some.mp ha
      obtain ⟨_, _, hk⟩ := Option.map_eq_some_iff.mp hmap
      cases hk
  | onSnark i r now io =>
      obtain ⟨-, hmap⟩ := Option.ite_none_right_eq_some.mp ha
      obtain ⟨_, _, hk⟩ := Option.map_eq_some_iff.mp hmap
      cases hk
  | dispatch disk => cases ha
  | getSplit now => cases ha
  | getProve disk now => cases ha
  | getAgg now => cases ha
  | getSnark now => cases ha

/-- From every point on there are turns that wait for a copy. -/
theorem out (h : Endless feat g c₀ acts c w)
    (hfrom : g.fromStep = .Init ∨ g.fromStep = .Agg) (hmax : 1 ≤ g.maxProverNum)
    (hfair : Fair feat c₀ acts) : ∃ᶠ n in Filter.atTop, ∃ l v,
      Machine.after (Ctl.step feat) c₀ acts n = some (.waiting l v) ∧
        0 < v.inFlight := by
  refine Filter.frequently_atTop.mpr fun m => ?_
  obtain ⟨n, l, hn, hc⟩ := h.looping_from m
  obtain ⟨hd, hset⟩ := h.dispatched hc
  obtain ⟨v, clock, disk, hact, hout, hc'⟩ := h.handOut hc
  refine ⟨n + 1, Nat.le_succ_of_le hn, l, v,
    (h.after (n + 1)).trans (congrArg some hc'), ?_⟩
  obtain ⟨v', hv', hle, hready⟩ := hd.reachable.handOuts_total clock disk
  cases hv'.symm.trans hout
  rcases Nat.eq_zero_or_pos l.world.inFlight with hidle | hbusy
  · have hfiles := hfair.files n l clock disk
      ((h.after n).trans (congrArg some hc)) hact
    rw [(hd.reachable.phases hfrom).request] at hfiles
    exact hready (hd.ready hfrom hset (h.unended hc) hidle hmax hfiles)
  · exact Nat.lt_of_lt_of_le hbusy hle

/-- A turn whose copy is back with a result that counts. -/
theorem back {k : TaskType} (h : Endless feat g c₀ acts c w)
    (hb : Back feat c₀ acts k n) :
    ∃ l v v' a, c n = .waiting l v ∧ c (n + 1) = .received l v' ∧
      v.answered a = some k ∧ v.step feat a = some v' := by
  obtain ⟨l, v, now, e, hc, hact, hk⟩ := hb
  have hc := Option.some.inj ((h.after n).symm.trans hc)
  obtain ⟨a, ha, hk⟩ := Option.bind_eq_some_iff.mp hk
  obtain ⟨v', now', e', hact', hrec, hc'⟩ := h.receive hc
  cases hact.symm.trans hact'
  rw [ZkmProver.receive, ha] at hrec
  exact ⟨l, v, v', a, hc, hc', hk, hrec⟩

/-- Sooner or later the graph is there. -/
theorem grown (h : Endless feat g c₀ acts c w)
    (hfrom : g.fromStep = .Init ∨ g.fromStep = .Agg)
    (hfair : Fair feat c₀ acts) : ∃ n, Closed g (w n) := by
  rcases hfrom with hinit | hagg
  · by_contra hopen
    rw [not_exists] at hopen
    have hout : ∃ᶠ n in Filter.atTop, Out feat c₀ acts .Split n := by
      refine Filter.frequently_atTop.mpr fun m => ?_
      obtain ⟨n, l, hn, hc⟩ := h.looping_from m
      have hl := h.world_eq (v := l.world) (by rw [hc]; rfl)
      obtain ⟨v, hc', hpos⟩ := h.split_out hinit hc (hl ▸ hopen n)
      exact ⟨n + 1, Nat.le_succ_of_le hn, l, v,
        (h.after (n + 1)).trans (congrArg some hc'), hpos⟩
    obtain ⟨n, hn⟩ := (hfair.back .Split hout).exists
    obtain ⟨l, v, v', a, hc, hc', hk, hstep⟩ := h.back hn
    obtain ⟨m, hm⟩ := h.split_back hinit hc hc' hk hstep
    exact hopen m hm
  · exact ⟨0, Or.inr hagg⟩

end Endless

section

variable [Blob β] {feat : Feature} {g : GenerateTask β} {acts : Nat → Act β}
  {task : StageTask β} {row : StageRow} {b : Boot β}

end

/-! ## A fair schedule -/

end ZkmProver
