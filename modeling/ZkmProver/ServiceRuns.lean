import ZkmProver.ProveList
import ZkmProver.Service

/-! # ServiceRuns — what holds over crashes and restarts

    The instances of the local rule of `Service`.  A run that is not over has
    its row Computing, and only such a run writes: so no row changes once it
    is final (`final_rows_stay`), whatever is killed and started again, and
    what it says then is backed by a run of the scheduler on the request that
    was stored (`published_backed`).

    The other way round a Computing row need not have a run.  `tasks_kept`
    says what has to go well for it; `single_node_orphaned` is what a restart
    does to a single-node request that was at work. -/

namespace ZkmProver

open Forest Keyed Machine

variable {β : Type}

/-! ## The status of a row with a run -/

/-- A run that is not over has a row that is Computing; a queued one has a
    copy of it. -/
def Place.Owns (e : Entry β) : Place β → Prop
  | .queued task => e.row.status = .Computing ∧ task = e.queued.task
  | .returned => True
  | .panicked => True
  | _ => e.row.status = .Computing

theorem Place.Owns.computing {e : Entry β} {p : Place β} (h : p.Owns e)
    (hp : p.isOver = false) : e.row.status = .Computing := by
  cases p with
  | queued task => exact h.1
  | returned => exact nomatch hp
  | panicked => exact nomatch hp
  | _ => exact h

theorem Place.Owns.of_over {e : Entry β} {p : Place β} (hp : p.isOver = true) :
    p.Owns e := by
  cases p with
  | returned => trivial
  | panicked => trivial
  | _ => exact nomatch hp

/-- Begun, and not over. -/
theorem Place.Owns.of_computing {e : Entry β} {p : Place β}
    (hp : p.isQueued = false) (he : e.row.status = .Computing) : p.Owns e := by
  cases p with
  | queued task => exact nomatch hp
  | returned => trivial
  | panicked => trivial
  | _ => exact he

/-- A compare-and-set leaves the status and the result alone. -/
theorem entry_checkAt (answer : DbAnswer) (r : TaskRun β) (old new : Nat)
    (step : Step) (e : Entry β) :
    (answer.entry r (.checkAt old new step) e).row.status = e.row.status ∧
      (answer.entry r (.checkAt old new step) e).row.result = e.row.result := by
  have hrun : ((RowCall.checkAt old new step).run e.row).status = e.row.status ∧
      ((RowCall.checkAt old new step).run e.row).result = e.row.result := by
    rw [RowCall.run, StageRow.updateCheckAt]
    split <;> exact ⟨rfl, rfl⟩
  cases answer with
  | refused => exact ⟨rfl, rfl⟩
  | ok => exact hrun
  | lost => exact hrun

@[simp] theorem entry_context (answer : DbAnswer) (r : TaskRun β)
    (call : RowCall) (e : Entry β) :
    (answer.entry r call e).context = e.context := by
  cases answer <;> rfl

section

variable [Blob β] {feat : Feature} {p : Place β} {d : Deed β} {o : Outcome β}

theorem Place.Acts.isOver (h : p.Acts feat d o) : p.isOver = false := by
  cases h with
  | panic p hp => exact hp
  | _ => rfl

/-- What a step comes to, as far as the status is concerned: an update ends
    the run, a compare-and-set does not put it back into the queue. -/
def Outcome.Owned : Outcome β → Prop
  | .goto q => q.isQueued = false
  | .ask (.checkAt _ _ _) next => ∀ answer, (next answer).isQueued = false
  | .ask (.update _ _) next => ∀ answer, (next answer).isOver = true

omit [Blob β] in
theorem unwrap_owned_update (status : Status) (result : String) :
    (Outcome.unwrap (.update status result) (.returned : Place β)).Owned := by
  intro answer
  cases answer <;> rfl

theorem Place.Acts.owned (h : p.Acts feat d o) : o.Owned := by
  cases h with
  | undecodable task _ => exact fun _ => rfl
  | single task g now _ _ _ => intro answer; cases answer <;> rfl
  | loop task g file disk w n m _ _ _ => exact fun _ => rfl
  | recorded c w w' disk now _ => exact fun _ => rfl
  | fail status => exact unwrap_owned_update status ""
  | close stage result checkAt duration => intro answer; cases answer <;> rfl
  | store stage result duration => exact unwrap_owned_update .Success result
  | _ => exact rfl

/-- The rule for `Owns`. -/
theorem owns_rule (feat : Feature) :
    Rule feat (fun _ => True) (fun _ => True) (fun _ : Entry β => True)
      fun e r => r.place.Owns e where
  new := fun _ _ => ⟨trivial, rfl, rfl⟩
  load := fun _ _ _ hst => ⟨hst, rfl⟩
  goto := by
    intro e r deed q _ hfit hact
    have hacts := Place.act_acts hact
    exact .of_computing hacts.owned (hfit.computing hacts.isOver)
  ask := by
    intro e r deed call next answer reply _ _ hfit hact _
    have hacts := Place.act_acts hact
    have howned := hacts.owned
    refine ⟨trivial, ?_⟩
    cases call with
    | update status result => exact .of_over (howned _)
    | checkAt old new step =>
        refine .of_computing (howned _) ?_
        rw [(entry_checkAt answer r old new step e).1]
        exact hfit.computing hacts.isOver

end

/-- The service with no server up, and no two rows with one id. -/
structure Service.Down (s : Service β) : Prop where
  process : s.process = none
  keys : (s.table.map Entry.id).Nodup

/-- A state of the service, from any table without a server. -/
def Service.Reachable [Blob β] (feat : Feature) (s₀ s : Service β) : Prop :=
  s₀.Down ∧ ∃ acts, run (Service.step feat) s₀ acts = some s

/-! ## A small service -/

/-- The table before the first start. -/
def Service.empty : Service (List UInt8) := ⟨[], none⟩

theorem empty_down : Service.empty.Down := ⟨rfl, List.nodup_nil⟩

/-- A request comes in, and its run is spawned. -/
def spawn (g : GenerateTask (List UInt8)) : List (ServiceAct (List UInt8)) :=
  [.boot none 0 [], .insert "p" g .ok, .send 0, .recv, .acquire]

/-- A request for one node. -/
def restartedRequest : GenerateTask (List UInt8) :=
  { aggRequest with singleNode := true }

/-- The node has the single-node request. -/
def singleAtWork : List (ServiceAct (List UInt8)) :=
  spawn restartedRequest ++ [.work 0 (.start (fun _ => 5) .full none) .ok]

/-- The run of `rowRun`, in a service. -/
def finishedRun : List (ServiceAct (List UInt8)) :=
  spawn { aggRequest with compositeProof := true, maxProverNum := 1 }
    ++ (rowRun () true).map fun m => .work 0 m.deed .ok

/-- The server is killed while the segment is split off; the next one begins
    again, and has the split. -/
def restartedRun : List (ServiceAct (List UInt8)) :=
  spawn { aggRequest with compositeProof := true, maxProverNum := 1 }
    ++ [.work 0 (.start (fun _ => 5) .full none) .ok,
      .work 0 (.handOut (fun k => k) .full) .ok, .crash,
      .boot none 9 ["p"], .recv, .acquire,
      .work 0 (.start (fun _ => 9) .full none) .ok]
    ++ (turnRow () 10 (.split 0 ⟨.Success, "a", 10, 1⟩)).map fun m =>
      .work 0 m.deed .ok

/-- A single-node request past its first step. -/
def Entry.atWork (e : Entry β) : Bool :=
  match e.context with
  | .request g => g.singleNode && decide (e.row.step ≠ .Init)
  | _ => false

/-- A restart, and a run for the row. -/
def startedAgain : List (ServiceAct (List UInt8)) :=
  [.boot none 9 ["p"], .recv, .acquire, .work 0 (.start (fun _ => 9) .full none) .ok,
    .leave 0]

section

variable [Blob β] {feat : Feature} {s₀ s s' t : Service β}
  {acts : List (ServiceAct β)} {a : ServiceAct β}

omit [Blob β] in
theorem Service.Down.local (h : s.Down) {Good : Entry β → Prop}
    {Fits : Entry β → TaskRun β → Prop} (hgood : ∀ e ∈ s.table, Good e) :
    Local Good Fits s := by
  refine ⟨h.keys, hgood, ?_, ?_⟩ <;>
  · intro p hp
    rw [h.process] at hp
    exact nomatch hp

omit [Blob β] in
theorem under_any (s : Service β) (a : ServiceAct β) :
    s.Under (fun _ => True) (fun _ => True) a := by
  cases a with
  | boot max timestamp order => exact fun _ _ => trivial
  | _ => trivial

/-- Every run is within no restrictions. -/
theorem under_true (s : Service β) (acts : List (ServiceAct β)) :
    Along (Service.step feat) (Service.Under (fun _ => True) fun _ => True)
      s acts :=
  along_mem (fun a _ s => under_any s a) s

theorem Service.Reachable.owns (h : Service.Reachable feat s₀ s) :
    Local (fun _ => True) (fun e r => r.place.Owns e) s := by
  obtain ⟨hdown, acts, hrun⟩ := h
  exact (hdown.local fun _ _ => trivial).run (owns_rule feat)
    (under_true s₀ acts) hrun

/-! ## One run a task -/

omit [Blob β] in
/-- The permits are those that are not lent. -/
def Service.Balanced (s : Service β) : Prop :=
  ∀ p, s.process = some p → p.permits + p.running.length = p.maxConcurrentTasks

theorem Service.Balanced.step (h : s.Balanced) (hs : s.step feat a = some s') :
    s'.Balanced := by
  have hlends : ∀ p p' : Process β, s.process = some p → p.Lends p' →
      ∀ q, some p' = some q → q.permits + q.running.length
        = q.maxConcurrentTasks := by
    rintro p p' hp ⟨hmax, hsum⟩ _ ⟨⟩
    rw [hmax, hsum]
    exact h p hp
  cases Service.step_moves hs with
  | boot max timestamp order rows p' _ _ _ _ _ hnew => rintro _ ⟨⟩; exact hnew
  | insert id g p p' hp _ _ hl => exact hlends p p' hp hl
  | refuse id g => exact h
  | insertLost id g p hp _ => exact hlends p p hp ⟨rfl, rfl⟩
  | pass a p p' _ hp _ hl => exact hlends p p' hp hl
  | abandon i t p p' hp _ hl => exact hlends p p' hp hl
  | goto i deed answer r q rest p p' hp _ _ _ hl => exact hlends p p' hp hl
  | ask i deed answer r call next reply rest p p' hp _ _ _ _ hl =>
      exact hlends p p' hp hl
  | leave i r p p' hp _ _ _ hl => exact hlends p p' hp hl
  | crash p _ => rintro _ ⟨⟩

theorem Service.Reachable.balanced (h : Service.Reachable feat s₀ s) :
    s.Balanced := by
  obtain ⟨hdown, acts, hrun⟩ := h
  refine run_inv (fun _ _ _ hi hs => hi.step hs) ?_ hrun
  intro p hp
  rw [hdown.process] at hp
  exact nomatch hp

/-- **ONE RUN A TASK**: over every interleaving of handlers, queue, workers,
    lost answers, crashes and restarts, a task is in the process at most once,
    counting the handlers that send it, the queue, the task that waits and the
    runs.  Its row exists; as long as the run is not over the row is Computing,
    and what waits in the queue is a copy of the row as it is.  No more than
    `max_concurrent_tasks` runs are on their way. -/
theorem one_run_a_task (h : Service.Reachable feat s₀ s) (p : Process β)
    (hp : s.process = some p) :
    (p.runs.map TaskRun.id).Nodup ∧
    (∀ r ∈ p.runs, ∃ e ∈ s.table, e.id = r.id ∧
      (r.place.isOver = false → e.row.status = .Computing) ∧
      (∀ task, r.place = .queued task → task = e.queued.task)) ∧
    p.running.length ≤ p.maxConcurrentTasks ∧
    p.permits = p.maxConcurrentTasks - p.running.length := by
  have hlocal := h.owns
  have hsum := h.balanced p hp
  refine ⟨hlocal.once p hp, ?_, by omega, by omega⟩
  intro r hr
  obtain ⟨e, he, hid, hfit⟩ := hlocal.fits p hp r hr
  refine ⟨e, he, hid, hfit.computing, ?_⟩
  intro task htask
  rw [htask] at hfit
  exact hfit.2

omit [Blob β] in
/-- The only permit is out. -/
theorem one_run_a_task_spawned :
    ∃ s p, Service.Reachable .proverV2 Service.empty s ∧ s.process = some p ∧
      p.running.length = 1 ∧ p.permits = 0 ∧
      (p.runs.map TaskRun.id).Nodup := by
  obtain ⟨s, hrun, hany⟩ := run_of_check (Service.step .proverV2)
    Service.empty (spawn restartedRequest)
    (fun s => (s.process.any fun p => p.running.length = 1 ∧ p.permits = 0)
      = true) (by decide +kernel)
  obtain ⟨p, hp, hone⟩ := (Option.any_eq_true _ _).mp hany
  obtain ⟨hlen, hpermits⟩ := of_decide_eq_true hone
  have hreach : Service.Reachable .proverV2 Service.empty s :=
    ⟨empty_down, _, hrun⟩
  exact ⟨s, p, hreach, hp, hlen, hpermits, (one_run_a_task hreach p hp).1⟩

/-! ## Final rows -/

/-- A row that is not Computing is the same after a step. -/
theorem final_step (h : Local (fun _ => True) (fun e r => r.place.Owns e) s)
    (hs : s.step feat a = some s') {e : Entry β} (he : e ∈ s.table)
    (hfinal : e.row.status ≠ .Computing) : e ∈ s'.table := by
  cases Service.step_moves hs with
  | insert id g p p' _ _ _ _ => exact List.mem_append_left _ he
  | insertLost id g p _ _ => exact List.mem_append_left _ he
  | ask i deed answer r call next reply rest p p' hp hout hact _ _ _ =>
      -- the row of the run is Computing, so that `e` is another one
      obtain ⟨⟨e', he', hid, hfit⟩, _, _⟩ := h.alone hp hout
      have hst := hfit.computing (Place.act_acts hact).isOver
      have hne : e.id ≠ r.id := by
        intro heq
        rw [eq_of_key h.keys he he' (heq.trans hid.symm)] at hfinal
        exact hfinal hst
      rw [table_eq_map]
      exact List.mem_map.mpr ⟨e, he, if_neg hne⟩
  | _ => exact he

/-- **FINAL**: a row that says how its task ended is never written again, by
    any run of any later process. -/
theorem final_rows_stay (h : Service.Reachable feat s₀ s)
    (hrun : run (Service.step feat) s acts = some t) :
    ∀ e ∈ s.table, e.row.status ≠ .Computing → e ∈ t.table := by
  intro e he hfinal
  have hboth := run_inv
    (I := fun u => Local (fun _ => True) (fun e r => r.place.Owns e) u ∧ e ∈ u.table)
    (by
      rintro u a u' ⟨hu, hmem⟩ hs
      exact ⟨hu.step (owns_rule feat) (under_any u a) hs,
        final_step hu hs hmem hfinal⟩)
    ⟨h.owns, he⟩ hrun
  exact hboth.2

omit [Blob β] in
/-- A SUCCESS, over a crash and a restart. -/
theorem final_rows_stay_success :
    ∃ s t, ∃ e ∈ s.table, Service.Reachable .proverV2 Service.empty s ∧
      e.row.status = .Success ∧
      run (Service.step .proverV2) s [.leave 0, .crash, .boot none 9 []]
        = some t ∧ e ∈ t.table := by
  obtain ⟨s, hrun, hany, hnext⟩ := run_of_check (Service.step .proverV2)
    Service.empty finishedRun
    (fun s => (s.table.any fun e => decide (e.row.status = .Success)) = true ∧
      (run (Service.step .proverV2) s [.leave 0, .crash, .boot none 9 []]).isSome
        = true) (by decide +kernel)
  obtain ⟨e, he, hst⟩ := List.any_eq_true.mp hany
  obtain ⟨t, ht⟩ := Option.isSome_iff_exists.mp hnext
  have hst := of_decide_eq_true hst
  have hreach : Service.Reachable .proverV2 Service.empty s :=
    ⟨empty_down, _, hrun⟩
  refine ⟨s, t, e, he, hreach, hst, ht, final_rows_stay hreach ht e he ?_⟩
  rw [hst]
  decide

/-! ## What a final row says -/

/-- A step of a run by itself, with the reply to its statement if it makes
    one. -/
def Place.next (feat : Feature) (p : Place β) (x : Deed β × Option Nat) :
    Option (Place β) :=
  match p.act feat x.1 with
  | none => none
  | some (.goto q) => some q
  | some (.ask _ next) => some (next x.2)

/-- The run has taken a step of `P`. -/
def TaskRun.Passed (feat : Feature) (r : TaskRun β)
    (P : Place β → Deed β × Option Nat → Prop) : Prop :=
  Happens (Place.next feat) P (.queued r.task) r.log

/-- A run of the row's task, and its steps have led it where it is. -/
structure TaskRun.Of (feat : Feature) (r : TaskRun β) (e : Entry β) : Prop where
  id : r.id = e.id
  context : r.task.context = e.context
  way : run (Place.next feat) (.queued r.task) r.log = some r.place

/-- The step that bears a SUCCESS out, and what is to be stored then: the
    answer SUCCESS of the node, with its output, or the end of a stage without
    an error, with what is found at `snark_path`.  From the first step on the
    stage has been split and proved. -/
def Proves (feat : Feature) (g : GenerateTask β) (result : Option String)
    (p : Place β) (x : Deed β × Option Nat) : Prop :=
  g.singleNode = true ∧
    (∃ checkAt r io, p = .single (Stage.new g) checkAt ∧ x.1 = .reply r io ∧
      r.state = .Success ∧
      result = if g.targetStep = .Snark then Blob.fromUtf8 r.output
        else some "") ∨
  g.singleNode = false ∧
    ∃ c w now disk file, p = .received c w ∧ x.1 = .dispatch now disk file ∧
      Reachable feat g w ∧ w.stage.isSuccess = true ∧
      w.stage.isError = false ∧
      (if g.targetStep = .Snark then file.map Blob.fromUtf8
        else some (some "")) = some result ∧
      (g.fromStep = .Init → w.stage.splitTask.state = .Success ∧
        (g.targetStep ≠ .Split → Proved w.stage))

/-- The step that bears an error status out: the first statement on the row
    is answered by an error, the node by anything but SUCCESS, or the stage
    has an error. -/
def Fails (feat : Feature) (g : GenerateTask β) (status : Status)
    (p : Place β) (x : Deed β × Option Nat) : Prop :=
  g.singleNode = true ∧ status = .InternalError ∧
    (p.isQueued = true ∧ x.2 = none ∨
      ∃ checkAt r io, p = .single (Stage.new g) checkAt ∧ x.1 = .reply r io ∧
        r.state ≠ .Success) ∨
  g.singleNode = false ∧
    ∃ c w now disk file, p = .received c w ∧ x.1 = .dispatch now disk file ∧
      Reachable feat g w ∧ w.stage.isError = true ∧
      status = errorStatus w.stage.step

/-- What a row says of its task is so, and the run that wrote it has seen
    it. -/
def Entry.Backed (feat : Feature) (e : Entry β) : Prop :=
  match e.row.status with
  | .Computing => e.row.result = ""
  | .Success => ∃ r g, e.writer = some r ∧ r.Of feat e ∧
      e.context = .request g ∧ r.Passed feat (Proves feat g (some e.row.result))
  | status => e.row.result = "" ∧ ∃ r, e.writer = some r ∧ r.Of feat e ∧
      (e.context = .undecodable ∧ status = .InternalError ∨
        ∃ g, e.context = .request g ∧ r.Passed feat (Fails feat g status))

/-- What a run has in hand is of its row's request, and what it is about to
    write has come up on its way. -/
def TaskRun.Backs (feat : Feature) (g : GenerateTask β) (r : TaskRun β) : Prop :=
  match r.place with
  | .single stage _ => g.singleNode = true ∧ stage = Stage.new g
  | .looping c => g.singleNode = false ∧ Reachable feat g c.world
  | .waiting _ w => g.singleNode = false ∧ Reachable feat g w
  | .received _ w => g.singleNode = false ∧ Reachable feat g w
  | .failing status => r.Passed feat (Fails feat g status)
  | .closing _ result _ => r.Passed feat (Proves feat g result)
  | .storing _ result _ => r.Passed feat (Proves feat g result)
  | _ => True

/-- A run and its row. -/
structure TaskRun.OnRequest (feat : Feature) (e : Entry β) (r : TaskRun β) :
    Prop where
  owns : r.place.Owns e
  of : r.Of feat e
  backs : r.place.isQueued = false → r.place.isOver = false →
    ∃ g, e.context = .request g ∧ r.Backs feat g

/-- What a step `d` of a run that works on the request `g` comes to. -/
def Outcome.Backs (feat : Feature) (g : GenerateTask β) (r : TaskRun β)
    (d : Deed β) : Outcome β → Prop
  | .goto q => q.isOver = false → (r.went d none q).Backs feat g
  | .ask (.checkAt _ _ _) next => ∀ reply, (next reply).isOver = false →
      (r.went d reply (next reply)).Backs feat g
  | .ask (.update .Success result) _ =>
      r.Passed feat (Proves feat g (some result))
  | .ask (.update status result) _ => result = "" ∧ status ≠ .Computing ∧
      r.Passed feat (Fails feat g status)

theorem TaskRun.Passed.went {r : TaskRun β} {P : Place β → Deed β × Option Nat → Prop}
    (h : r.Passed feat P) (d : Deed β) (reply : Option Nat) (q : Place β) :
    (r.went d reply q).Passed feat P :=
  h.append _

/-- The step that has just been taken. -/
theorem TaskRun.Of.passed {r : TaskRun β} {e : Entry β} (h : r.Of feat e)
    {P : Place β → Deed β × Option Nat → Prop} {d : Deed β}
    {reply : Option Nat} (hP : P r.place (d, reply)) (q : Place β) :
    (r.went d reply q).Passed feat P :=
  happens_snoc h.way hP

/-- The way of a run over one more step. -/
theorem TaskRun.Of.went {r : TaskRun β} {e : Entry β} (h : r.Of feat e)
    {d : Deed β} {reply : Option Nat} {q : Place β}
    (hq : r.place.next feat (d, reply) = some q) :
    (r.went d reply q).Of feat e :=
  ⟨h.id, h.context, run_snoc.mpr ⟨r.place, h.way, hq⟩⟩

theorem TaskRun.Of.congr {r : TaskRun β} {e e' : Entry β} (h : r.Of feat e)
    (hid : e'.id = e.id) (hctx : e'.context = e.context) : r.Of feat e' :=
  ⟨h.id.trans hid.symm, h.context.trans hctx.symm, h.way⟩

omit [Blob β] in
theorem errorStatus_final (step : Step) :
    errorStatus step ≠ .Computing ∧ errorStatus step ≠ .Success := by
  cases step <;> exact ⟨by decide, by decide⟩

theorem Fails.ne {g : GenerateTask β} {status : Status} {p : Place β}
    {x : Deed β × Option Nat} (h : Fails feat g status p x) :
    status ≠ .Computing ∧ status ≠ .Success := by
  rcases h with ⟨_, rfl, _⟩ | ⟨_, _, w, _, _, _, _, _, _, _, rfl⟩
  · exact ⟨by decide, by decide⟩
  · exact errorStatus_final _

/-- What a success from the first step on has behind it. -/
theorem Reachable.split_proved {g : GenerateTask β} {w : World β}
    (h : ZkmProver.Reachable feat g w) (hfrom : g.fromStep = .Init)
    (hsucc : w.stage.isSuccess = true) :
    w.stage.splitTask.state = .Success ∧
      (g.targetStep ≠ .Split → Proved w.stage) := by
  have hp := h.phases (Or.inl hfrom)
  rcases hp.outcome hfrom hsucc with ⟨hst, htg⟩ | ⟨hpr, _⟩ | ⟨ha, _⟩
  · exact ⟨hst, fun hne => absurd htg hne⟩
  · exact ⟨(hp.gen hpr.done).1, fun _ => hpr⟩
  · exact ⟨(hp.gen ha.proved.done).1, fun _ => ha.proved⟩

/-- **IN HAND**: a run works on its request, and writes what its work bears
    out. -/
theorem Place.Acts.backs {g : GenerateTask β} {r : TaskRun β} {e : Entry β}
    {d : Deed β} {o : Outcome β} (hof : r.Of feat e) {p : Place β}
    (hp : r.place = p) (h : p.Acts feat d o)
    (hq : ∀ task, p = .queued task → task.context = .request g)
    (hb : p.isQueued = false → r.Backs feat g) : o.Backs feat g r d := by
  have hctx : ∀ {task : StageTask β} {g' : GenerateTask β},
      p = .queued task → task.context = .request g' → g' = g := by
    intro task g' htask hg'
    have hg := hg'.symm.trans (hq task htask)
    cases hg
    rfl
  unfold TaskRun.Backs at hb
  rw [hp] at hb
  -- from the queue only a request goes on; later on `hb` says what is in hand
  cases h with
  | absent task habs => exact nomatch habs.symm.trans (hq task rfl)
  | undecodable task hund => exact nomatch hund.symm.trans (hq task rfl)
  | processed task g' _ _ _ => exact nofun
  | single task g' now hg' hsingle _ =>
      cases hctx rfl hg'
      intro reply _
      cases reply with
      | none =>
          have hfirst : r.place.isQueued = true := by rw [hp]; rfl
          exact hof.passed (Or.inl ⟨hsingle, rfl, Or.inl ⟨hfirst, rfl⟩⟩) _
      | some n => exact ⟨hsingle, rfl⟩
  | loop task g' file disk w n m hg' hsingle hw =>
      cases hctx rfl hg'
      exact fun _ _ => ⟨hsingle, (Reachable.start g file).step hw⟩
  | panic p _ => exact nofun
  | refused stage checkAt reply io hr =>
      obtain ⟨hsingle, rfl⟩ := hb rfl
      -- a new stage has no error
      have hstate : reply.state ≠ .Success :=
        hr.resolve_right Bool.false_ne_true
      exact fun _ => hof.passed
        (Or.inl ⟨hsingle, rfl, Or.inr ⟨checkAt, reply, io, hp, rfl, hstate⟩⟩) _
  | replied stage checkAt reply io hr =>
      obtain ⟨hsingle, rfl⟩ := hb rfl
      exact fun _ => hof.passed
        (Or.inl ⟨hsingle, checkAt, reply, io, hp, rfl, hr, rfl⟩) _
  | handOut c clock disk w hw =>
      exact fun _ => ⟨(hb rfl).1, (hb rfl).2.handOuts hw⟩
  | receive c w w' now event hw =>
      exact fun _ => ⟨(hb rfl).1, (hb rfl).2.receive hw⟩
  | failed c w now disk file herr =>
      obtain ⟨hsingle, hreach⟩ := hb rfl
      exact fun _ => hof.passed (Or.inr
        ⟨hsingle, c, w, now, disk, file, hp, rfl, hreach, herr, rfl⟩) _
  | succeeded c w now disk file result hsucc herr hres =>
      obtain ⟨hsingle, hreach⟩ := hb rfl
      rw [hreach.request] at hres
      exact fun _ => hof.passed (Or.inr
        ⟨hsingle, c, w, now, disk, file, hp, rfl, hreach, hsucc, herr, hres,
          fun hfrom => hreach.split_proved hfrom hsucc⟩) _
  | dispatched c w w' disk hw => exact fun _ => ⟨(hb rfl).1, (hb rfl).2.step hw⟩
  | recorded c w w' disk now hw =>
      exact fun _ _ => ⟨(hb rfl).1, (hb rfl).2.step hw⟩
  | fail status =>
      -- what has failed on the way is neither Computing nor a SUCCESS
      have hfail : r.Passed feat (Fails feat g status) := hb rfl
      obtain ⟨_, _, hstep⟩ := hfail.exists
      obtain ⟨hne, hne'⟩ := hstep.ne
      cases status with
      | Success => exact absurd rfl hne'
      | _ => exact ⟨rfl, hne, hfail⟩
  | close stage result checkAt duration =>
      intro reply hover
      cases reply with
      | none => exact nomatch hover
      | some n => exact TaskRun.Passed.went (hb rfl) _ _ _
  | store stage result duration => exact hb rfl

theorem Entry.Backed.computing {e : Entry β}
    (hst : e.row.status = .Computing) (hres : e.row.result = "") :
    e.Backed feat := by
  rw [Entry.Backed, hst]
  exact hres

theorem Entry.Backed.empty {e : Entry β} (h : e.Backed feat)
    (hst : e.row.status = .Computing) : e.row.result = "" := by
  rw [Entry.Backed, hst] at h
  exact h

theorem Entry.Backed.error {e : Entry β} {r : TaskRun β} {status : Status}
    (hst : e.row.status = status)
    (hne : status ≠ .Computing ∧ status ≠ .Success) (hres : e.row.result = "")
    (hwriter : e.writer = some r) (hof : r.Of feat e)
    (h : e.context = .undecodable ∧ status = .InternalError ∨
      ∃ g, e.context = .request g ∧ r.Passed feat (Fails feat g status)) :
    e.Backed feat := by
  rw [Entry.Backed, hst]
  cases status with
  | Computing => exact absurd rfl hne.1
  | Success => exact absurd rfl hne.2
  | _ => exact ⟨hres, r, hwriter, hof, h⟩

omit [Blob β] in
/-- What an update leaves, if it is carried out. -/
theorem entry_update (answer : DbAnswer) (r : TaskRun β) (status : Status)
    (result : String) (e : Entry β) :
    answer.entry r (.update status result) e = e ∨
      (answer.entry r (.update status result) e).row.status = status ∧
      (answer.entry r (.update status result) e).row.result = result ∧
      (answer.entry r (.update status result) e).writer = some r := by
  cases answer with
  | refused => exact Or.inl rfl
  | ok => exact Or.inr ⟨rfl, rfl, rfl⟩
  | lost => exact Or.inr ⟨rfl, rfl, rfl⟩

/-- **WRITTEN**: what a call of a run on a request leaves of the row is borne
    out. -/
theorem Entry.Backed.written {e : Entry β} (h : e.Backed feat)
    (hcomp : e.row.status = .Computing) {r : TaskRun β} (hof : r.Of feat e)
    {g : GenerateTask β} (hctx : e.context = .request g) {d : Deed β}
    {call : RowCall} {next : Option Nat → Place β}
    (ho : (Outcome.ask call next).Backs feat g r d) (answer : DbAnswer) :
    (answer.entry r call e).Backed feat := by
  cases call with
  | checkAt old new step =>
      -- the row is still Computing, and has no result yet
      obtain ⟨hst, hres⟩ := entry_checkAt answer r old new step e
      exact .computing (hst.trans hcomp) (hres.trans (h.empty hcomp))
  | update status result =>
      have hctx' := (entry_context answer r (.update status result) e).trans hctx
      have hof' : r.Of feat (answer.entry r (.update status result) e) :=
        hof.congr (entry_id ..) (entry_context ..)
      rcases entry_update answer r status result e with
        hsame | ⟨hst, hres, hwriter⟩
      · rw [hsame]
        exact h
      · have hfail : status ≠ .Success → result = "" ∧ status ≠ .Computing ∧
            r.Passed feat (Fails feat g status) := by
          intro hne
          cases status with
          | Success => exact absurd rfl hne
          | _ => exact ho
        by_cases hsucc : status = .Success
        · cases hsucc
          rw [Entry.Backed, hst]
          exact ⟨r, g, hwriter, hof', hctx', hres.symm ▸ ho⟩
        · obtain ⟨hempty, hne, hfailed⟩ := hfail hsucc
          exact .error hst ⟨hne, hsucc⟩ (hres.trans hempty) hwriter hof'
            (Or.inr ⟨g, hctx', hfailed⟩)

/-- A run of a task that has no request: it returns at once, or says so. -/
theorem Place.Acts.aside {p : Place β} {d : Deed β} {o : Outcome β}
    (h : p.Acts feat d o) {task : StageTask β} (hp : p = .queued task)
    (hno : ∀ g, task.context ≠ .request g) :
    (∃ q, o = .goto q ∧ q.isOver = true) ∨
      task.context = .undecodable ∧
        o = .ask (.update .InternalError "") fun _ => .returned := by
  cases h with
  | absent task' _ => exact Or.inl ⟨_, rfl, rfl⟩
  | undecodable task' hund => cases hp; exact Or.inr ⟨hund, rfl⟩
  | processed task' g hg _ _ => cases hp; exact absurd hg (hno g)
  | single task' g now hg _ _ => cases hp; exact absurd hg (hno g)
  | loop task' g file disk w n m hg _ _ => cases hp; exact absurd hg (hno g)
  | panic p _ => exact Or.inl ⟨_, rfl, rfl⟩
  | _ => exact nomatch hp

omit [Blob β] in
theorem isQueued_eq_true {p : Place β} (h : p.isQueued = true) :
    ∃ task, p = .queued task := by
  cases p with
  | queued task => exact ⟨task, rfl⟩
  | _ => exact nomatch h

/-- A run that is not over works on a request, or is in the queue. -/
theorem TaskRun.OnRequest.outcome {e : Entry β} {r : TaskRun β}
    (h : r.OnRequest feat e) {d : Deed β} {o : Outcome β}
    (ho : r.place.Acts feat d o) :
    (∃ g, e.context = .request g ∧ o.Backs feat g r d) ∨
      (∃ q, o = .goto q ∧ q.isOver = true) ∨
      e.context = .undecodable ∧
        o = .ask (.update .InternalError "") fun _ => .returned := by
  cases hq : r.place.isQueued with
  | false =>
      obtain ⟨g, hg, hr⟩ := h.backs hq ho.isOver
      refine Or.inl ⟨g, hg, ho.backs h.of rfl ?_ fun _ => hr⟩
      intro task htask
      rw [htask] at hq
      exact nomatch hq
  | true =>
      -- what is in the queue is a copy of the row, its context too
      obtain ⟨task, htask⟩ := isQueued_eq_true hq
      have howns := h.owns
      rw [htask] at howns
      have hctx : task.context = e.context := congrArg StageTask.context howns.2
      cases hcase : e.context with
      | request g =>
          refine Or.inl ⟨g, rfl, ho.backs h.of rfl ?_ fun hno => ?_⟩
          · intro task' htask'
            cases htask.symm.trans htask'
            exact hctx.trans hcase
          · exact nomatch hno.symm.trans hq
      | absent =>
          rcases ho.aside htask
              (fun g hg => nomatch hg.symm.trans (hctx.trans hcase))
            with hgoto | ⟨hund, _⟩
          · exact Or.inr (Or.inl hgoto)
          · exact nomatch hund.symm.trans (hctx.trans hcase)
      | undecodable =>
          rcases ho.aside htask
              (fun g hg => nomatch hg.symm.trans (hctx.trans hcase))
            with hgoto | ⟨_, hask⟩
          · exact Or.inr (Or.inl hgoto)
          · exact Or.inr (Or.inr ⟨rfl, hask⟩)

/-- A run that begins on its row. -/
theorem TaskRun.OnRequest.begin {e : Entry β} (hst : e.row.status = .Computing) :
    e.queued.run.OnRequest feat e :=
  ⟨⟨hst, rfl⟩, ⟨rfl, rfl, rfl⟩, fun hno => nomatch hno⟩

/-- The rule for what rows say. -/
theorem backed_rule (feat : Feature) :
    Rule feat (fun _ => True) (fun _ => True) (Entry.Backed (β := β) feat)
      fun e r => r.OnRequest feat e where
  new := fun _ _ => ⟨.computing rfl rfl, .begin rfl⟩
  load := fun _ _ _ hst => .begin hst
  goto := by
    intro e r deed q _ hfit hact
    have hacts := Place.act_acts hact
    have howns := (owns_rule feat).goto e r deed q trivial hfit.owns hact
    refine ⟨howns, hfit.of.went (by rw [Place.next, hact]), fun _ hover => ?_⟩
    rcases hfit.outcome hacts with ⟨g, hg, hbacks⟩ | ⟨q', hq', hover'⟩ | ⟨_, hask⟩
    · exact ⟨g, hg, hbacks hover⟩
    · cases hq'
      exact nomatch hover.symm.trans hover'
    · exact nomatch hask
  ask := by
    intro e r deed call next answer reply _ hgood hfit hact hreply
    have hacts := Place.act_acts hact
    have hcomp := hfit.owns.computing hacts.isOver
    have howns := ((owns_rule feat).ask e r deed call next answer reply trivial
      trivial hfit.owns hact hreply).2
    have hof : (r.went deed reply (next reply)).Of feat (answer.entry r call e) :=
      (hfit.of.went (by rw [Place.next, hact])).congr (entry_id ..)
        (entry_context ..)
    rcases hfit.outcome hacts with ⟨g, hg, hbacks⟩ | ⟨q', hq', _⟩ | ⟨hund, hask⟩
    · refine ⟨hgood.written hcomp hfit.of hg hbacks answer, howns, hof, ?_⟩
      intro _ hover
      refine ⟨g, (entry_context ..).trans hg, ?_⟩
      cases call with
      | checkAt old new step => exact hbacks _ hover
      | update status result =>
          -- the run is over with it
          exact nomatch hover.symm.trans (hacts.owned reply)
    · exact nomatch hq'
    · -- the error of a context that cannot be decoded, written at once
      cases hask
      refine ⟨?_, howns, hof, fun _ hover => nomatch hover⟩
      rcases entry_update answer r .InternalError "" e with
        hsame | ⟨hst, hres, hwriter⟩
      · rw [hsame]
        exact hgood
      · exact .error hst ⟨by decide, by decide⟩ hres hwriter
          (hfit.of.congr (entry_id ..) (entry_context ..))
          (Or.inl ⟨(entry_context ..).trans hund, rfl⟩)

/-- **BACKED**: whatever is killed, started again or lost on the way to the
    database, a row that says SUCCESS was written by a run of its own request
    that has seen it succeed, with the result that this run found, and a row
    that says an error by one that has seen it fail, with the status of the
    step it failed in. -/
theorem published_backed (hdown : s₀.Down)
    (hbacked : ∀ e ∈ s₀.table, e.Backed feat)
    (hrun : run (Service.step feat) s₀ acts = some s) :
    ∀ e ∈ s.table, e.Backed feat :=
  ((hdown.local hbacked).run (backed_rule feat) (under_true s₀ acts) hrun).good

omit [Blob β] in
/-- The composite proof of one segment. -/
theorem published_backed_success :
    ∃ s, ∃ e ∈ s.table, run (Service.step .proverV2) Service.empty finishedRun
        = some s ∧ e.row.status = .Success ∧ e.Backed .proverV2 := by
  obtain ⟨s, hrun, hany⟩ := run_of_check (Service.step .proverV2)
    Service.empty finishedRun
    (fun s => (s.table.any fun e => decide (e.row.status = .Success)) = true)
    (by decide +kernel)
  obtain ⟨e, he, hst⟩ := List.any_eq_true.mp hany
  have hstart : ∀ e ∈ Service.empty.table, e.Backed .proverV2 :=
    fun e he => absurd he List.not_mem_nil
  have hbacked : e.Backed .proverV2 :=
    published_backed empty_down hstart hrun e he
  exact ⟨s, e, he, hrun, of_decide_eq_true hst, hbacked⟩

/-! ## When every task has its run -/

omit [Blob β] in
/-- `run_stage_task` does not turn the row away. -/
def StageTask.Restartable (task : StageTask β) : Prop :=
  match task.context with
  | .request g => g.singleNode = true → task.step = .Init
  | _ => False

omit [Blob β] in
instance StageTask.decidableRestartable (task : StageTask β) :
    Decidable task.Restartable :=
  match h : task.context with
  | .request g =>
      decidable_of_iff (g.singleNode = true → task.step = .Init)
        (by rw [StageTask.Restartable, h])
  | .absent => isFalse (by rw [StageTask.Restartable, h]; exact id)
  | .undecodable => isFalse (by rw [StageTask.Restartable, h]; exact id)

omit [Blob β] in
theorem StageTask.Restartable.request {task : StageTask β}
    (h : task.Restartable) : ∃ g, task.context = .request g ∧
      (g.singleNode = true → task.step = .Init) := by
  cases hctx : task.context with
  | request g =>
      rw [StageTask.Restartable, hctx] at h
      exact ⟨g, rfl, h⟩
  | absent => rw [StageTask.Restartable, hctx] at h; exact h.elim
  | undecodable => rw [StageTask.Restartable, hctx] at h; exact h.elim

omit [Blob β] in
/-- The run has panicked. -/
def Place.isPanicked : Place β → Bool
  | .panicked => true
  | _ => false

omit [Blob β] in
/-- Nothing goes wrong for the tasks: a start finds room for all of them, no
    answer of the database is lost, no handler is dropped and no run
    panics. -/
def Service.Careful (s : Service β) : ServiceAct β → Prop
  | .boot _ timestamp order => order.length ≤ 256 ∧
      ∀ e ∈ s.table, e.row.status = .Computing →
        e.row.checkAt < timestamp ∧ e.queued.task.Restartable
  | .insert _ _ answer => answer ≠ .lost
  | .abandon _ => False
  | .work _ _ answer => answer = .ok
  | .leave i => ∀ p ∈ s.process, ∀ r ∈ p.running[i]?,
      r.place.isPanicked = false
  | _ => True

omit [Blob β] in
instance Service.decidableCareful (s : Service β) (a : ServiceAct β) :
    Decidable (s.Careful a) :=
  match a with
  | .boot _ timestamp order =>
      inferInstanceAs (Decidable (order.length ≤ 256 ∧
        ∀ e ∈ s.table, e.row.status = .Computing →
          e.row.checkAt < timestamp ∧ e.queued.task.Restartable))
  | .insert _ _ answer => inferInstanceAs (Decidable (answer ≠ .lost))
  | .abandon _ => isFalse id
  | .work _ _ answer => inferInstanceAs (Decidable (answer = .ok))
  | .leave i =>
      inferInstanceAs (Decidable (∀ p ∈ s.process, ∀ r ∈ p.running[i]?,
        r.place.isPanicked = false))
  | .send _ => isTrue trivial
  | .recv => isTrue trivial
  | .acquire => isTrue trivial
  | .crash => isTrue trivial

omit [Blob β] in
/-- A run that returns has written its row. -/
def Place.Settles (e : Entry β) : Place β → Prop
  | .queued task => task.Restartable
  | .failing status => status ≠ .Computing
  | .returned => e.row.status ≠ .Computing
  | _ => True

theorem settles_goto {e : Entry β} {p q : Place β} {d : Deed β}
    (h : p.Settles e) (hacts : p.Acts feat d (.goto q)) : q.Settles e := by
  cases hacts with
  | absent task habs =>
      obtain ⟨g, hg, _⟩ := h.request
      exact nomatch habs.symm.trans hg
  | processed task g hg hsingle hstep =>
      obtain ⟨g', hg', hinit⟩ := h.request
      cases hg.symm.trans hg'
      exact absurd (hinit hsingle) hstep
  | refused stage checkAt r io _ => exact fun hno => nomatch hno
  | failed c w now disk file _ => exact (errorStatus_final _).1
  | _ => trivial

theorem settles_ask {e : Entry β} {r : TaskRun β} {d : Deed β}
    {call : RowCall} {next : Option Nat → Place β} (h : r.place.Settles e)
    {p : Place β} (hp : r.place = p) (hacts : p.Acts feat d (.ask call next))
    (n : Nat) : (next (some n)).Settles (DbAnswer.ok.entry r call e) := by
  rw [hp] at h
  cases hacts with
  | undecodable task hund =>
      obtain ⟨g, hg, _⟩ := h.request
      exact nomatch hund.symm.trans hg
  | fail status => exact h
  | store stage result duration => exact fun hno => nomatch hno
  | _ => trivial

/-- The rule for tasks that are not turned away. -/
theorem settles_rule (feat : Feature) :
    Rule feat (fun e => e.queued.task.Restartable) (· = .ok)
      (fun _ : Entry β => True) fun e r => r.place.Settles e where
  new := fun _ _ => ⟨trivial, fun _ => rfl⟩
  load := fun _ hload _ _ => hload
  goto := fun _ _ _ _ _ hfit hact => settles_goto hfit (Place.act_acts hact)
  ask := by
    rintro e r deed call next _ _ rfl _ hfit hact rfl
    exact ⟨trivial, settles_ask hfit rfl (Place.act_acts hact) _⟩

/-- Every Computing row has its run, if a server is up. -/
structure Service.Kept (s : Service β) : Prop where
  settles : Local (fun _ => True) (fun e r => r.place.Settles e) s
  kept : ∀ p, s.process = some p → ∀ e ∈ s.table,
    e.row.status = .Computing → ∃ r ∈ p.runs, r.id = e.id

omit [Blob β] in
theorem Service.Careful.under (h : s.Careful a) :
    s.Under (fun e => e.queued.task.Restartable) (· = .ok) a := by
  cases a with
  | boot max timestamp order =>
      intro e he
      obtain ⟨hmem, hst, _⟩ := mem_incomplete.mp he
      exact (h.2 e hmem hst).2
  | work i deed answer => exact h
  | _ => trivial

theorem Service.Kept.step (h : s.Kept) (hcare : s.Careful a)
    (hs : s.step feat a = some s') : s'.Kept := by
  refine ⟨h.settles.step (settles_rule feat) hcare.under hs, ?_⟩
  cases Service.step_moves hs with
  | boot max timestamp order rows p' _ hrows hmap hperm hruns _ =>
      rintro _ ⟨⟩ e he hst
      -- neither the limit of the query nor the queue leaves a row out
      have hlen : order.length ≤ 2147483647 := Nat.le_trans hcare.1 (by decide)
      rw [List.take_of_length_le hlen] at hmap
      have hfew : rows.length ≤ 256 := by
        have hsame := congrArg List.length hmap
        rw [List.length_map] at hsame
        exact hsame ▸ hcare.1
      have hin : e ∈ s.incomplete timestamp :=
        mem_incomplete.mpr ⟨he, hst, (hcare.2 e he hst).1⟩
      have hid : e.id ∈ rows.map Entry.id := by
        rw [hmap, hperm.mem_iff]
        exact List.mem_map_of_mem hin
      obtain ⟨e', he', hid'⟩ := List.mem_map.mp hid
      refine ⟨e'.queued.run, ?_, hid'⟩
      rw [hruns, List.take_of_length_le (by rw [List.length_map]; exact hfew)]
      exact List.mem_map_of_mem he'
  | insert id g p p' hp _ hperm _ =>
      rintro _ ⟨⟩ e he hst
      rcases List.mem_append.mp he with he | he
      · obtain ⟨r, hr, hid⟩ := h.kept p hp e he hst
        exact ⟨r, hperm.mem_iff.mpr (List.mem_cons_of_mem _ hr), hid⟩
      · rw [List.mem_singleton.mp he]
        exact ⟨_, hperm.mem_iff.mpr (List.mem_cons_self ..), rfl⟩
  | refuse id g => exact h.kept
  | insertLost id g p _ _ => exact absurd rfl hcare
  | pass a p p' _ hp hperm _ =>
      rintro _ ⟨⟩ e he hst
      obtain ⟨r, hr, hid⟩ := h.kept p hp e he hst
      exact ⟨r, hperm.mem_iff.mpr hr, hid⟩
  | abandon i t p p' _ _ _ => exact hcare.elim
  | goto i deed answer r q rest p p' hp hout _ hin _ =>
      rintro _ ⟨⟩ e he hst
      obtain ⟨r', hr', hid⟩ := h.kept p hp e he hst
      rcases List.mem_cons.mp (hout.mem_iff.mp hr') with rfl | hr'
      · exact ⟨_, hin.mem_iff.mpr (List.mem_cons_self ..), hid⟩
      · exact ⟨r', hin.mem_iff.mpr (List.mem_cons_of_mem _ hr'), hid⟩
  | ask i deed answer r call next reply rest p p' hp hout hact _ hin _ =>
      rintro _ ⟨⟩ e he hst
      rw [table_eq_map] at he
      obtain ⟨e', he', rfl⟩ := List.mem_map.mp he
      -- the row of the run has the run, and any other one is as it was
      by_cases hr : e'.id = r.id
      · refine ⟨_, hin.mem_iff.mpr (List.mem_cons_self ..), ?_⟩
        rw [if_pos hr, entry_id]
        exact hr.symm
      · rw [if_neg hr] at hst ⊢
        obtain ⟨r', hr', hid⟩ := h.kept p hp e' he' hst
        rcases List.mem_cons.mp (hout.mem_iff.mp hr') with rfl | hr'
        · exact absurd hid.symm hr
        · exact ⟨r', hin.mem_iff.mpr (List.mem_cons_of_mem _ hr'), hid⟩
  | leave i r p p' hp hi hout hover _ =>
      rintro _ ⟨⟩ e he hst
      obtain ⟨r', hr', hid⟩ := h.kept p hp e he hst
      rcases List.mem_cons.mp (hout.mem_iff.mp hr') with rfl | hr'
      · -- the run has returned, and its row is not Computing
        obtain ⟨⟨e', he', hid', hfit⟩, _, _⟩ := h.settles.alone hp hout
        cases eq_of_key h.settles.keys he' he (hid'.trans hid)
        have hreturned : r'.place = .returned := by
          cases hplace : r'.place with
          | returned => rfl
          | panicked =>
              have hno := hcare p hp r' hi
              rw [hplace] at hno
              exact nomatch hno
          | _ =>
              rw [hplace] at hover
              exact nomatch hover
        rw [hreturned] at hfit
        exact absurd hst hfit
      · exact ⟨r', hr', hid⟩
  | crash p _ => rintro _ ⟨⟩

/-- **KEPT**: over runs in which nothing goes wrong for the tasks, crashes and
    restarts included, every row that is Computing has exactly one run in the
    process that is up. -/
theorem tasks_kept (hdown : s₀.Down)
    (hcare : Along (Service.step feat) Service.Careful s₀ acts)
    (hrun : run (Service.step feat) s₀ acts = some s) (p : Process β)
    (hp : s.process = some p) :
    ∀ e ∈ s.table, e.row.status = .Computing →
      ∃ r ∈ p.runs, r.id = e.id ∧ ∀ r' ∈ p.runs, r'.id = e.id → r' = r := by
  have hstart : s₀.Kept := by
    refine ⟨hdown.local fun _ _ => trivial, ?_⟩
    intro q hq
    rw [hdown.process] at hq
    exact nomatch hq
  have h : s.Kept :=
    run_inv_along (fun _ _ _ hc hi hs => hi.step hc hs) hcare hstart hrun
  intro e he hst
  obtain ⟨r, hr, hid⟩ := h.kept p hp e he hst
  refine ⟨r, hr, hid, ?_⟩
  intro r' hr' hid'
  exact eq_of_key (h.settles.once p hp) hr' hr (hid'.trans hid.symm)

omit [Blob β] in
/-- A request over a crash that finds it at work, and the run that is at work
    on it after the restart. -/
theorem tasks_kept_restart :
    ∃ s p, run (Service.step .proverV2) Service.empty restartedRun = some s ∧
      s.process = some p ∧ ∃ e ∈ s.table, e.row.status = .Computing ∧
        ∃ r ∈ p.runs, (r.id = e.id ∧ ∀ r' ∈ p.runs, r'.id = e.id → r' = r) ∧
          r.place.isQueued = false ∧ r.place.isOver = false := by
  obtain ⟨s, hrun, hwork, hone⟩ := run_of_check (Service.step .proverV2)
    Service.empty restartedRun
    (fun s => (s.process.any fun p => p.runs.all fun r =>
        !r.place.isQueued && !r.place.isOver) = true ∧
      (s.table.any fun e => decide (e.row.status = .Computing)) = true)
    (by decide +kernel)
  obtain ⟨p, hp, hall⟩ := (Option.any_eq_true _ _).mp hwork
  obtain ⟨e, he, hst⟩ := List.any_eq_true.mp hone
  have hst := of_decide_eq_true hst
  have hcare : Along (Service.step .proverV2) Service.Careful Service.empty
      restartedRun := by decide +kernel
  obtain ⟨r, hr, hkept⟩ := tasks_kept empty_down hcare hrun p hp e he hst
  have hplace := List.all_eq_true.mp hall r hr
  rw [Bool.and_eq_true, Bool.not_eq_true', Bool.not_eq_true'] at hplace
  exact ⟨s, p, hrun, hp, e, he, hst, r, hr, hkept, hplace⟩

/-! ## Single-node requests over a restart -/

/-- The row `e` and what runs on it: at most a task that will be turned
    away. -/
structure Orphan (e : Entry β) (s : Service β) : Prop where
  owns : Local (fun _ => True) (fun e r => r.place.Owns e) s
  mem : e ∈ s.table
  idle : ∀ p, s.process = some p → ∀ r ∈ p.runs, r.id = e.id →
    r.place = .queued e.queued.task ∨ r.place.isOver = true

/-- The task of a single-node request that was at work is turned away. -/
theorem turned_away {e : Entry β} {g : GenerateTask β}
    (hctx : e.context = .request g) (hsingle : g.singleNode = true)
    (hstep : e.row.step ≠ .Init) {d : Deed β} {o : Outcome β}
    (h : (Place.queued e.queued.task).Acts feat d o) :
    ∃ q, o = .goto q ∧ q.isOver = true := by
  cases h with
  | absent task habs => exact ⟨_, rfl, rfl⟩
  | undecodable task hund => exact nomatch hund.symm.trans hctx
  | processed task g' _ _ _ => exact ⟨_, rfl, rfl⟩
  | single task g' now _ _ hinit => exact absurd hinit hstep
  | loop task g' file disk w n m hg' hloop _ =>
      cases hctx.symm.trans hg'
      exact nomatch hloop.symm.trans hsingle
  | panic p _ => exact ⟨_, rfl, rfl⟩

theorem Orphan.step {e : Entry β} {g : GenerateTask β}
    (hctx : e.context = .request g) (hsingle : g.singleNode = true)
    (hstep : e.row.step ≠ .Init) (h : Orphan e s)
    (hs : s.step feat a = some s') : Orphan e s' := by
  have howns : Local (fun _ => True) (fun e r => r.place.Owns e) s' :=
    h.owns.step (owns_rule feat) (under_any s a) hs
  have hrest : ∀ p p' : Process β, s.process = some p →
      (∀ r ∈ p'.runs, r ∈ p.runs) → ∀ q, some p' = some q → ∀ r ∈ q.runs,
      r.id = e.id → r.place = .queued e.queued.task ∨ r.place.isOver = true := by
    rintro p p' hp hsub _ ⟨⟩ r hr
    exact h.idle p hp r (hsub r hr)
  cases Service.step_moves hs with
  | boot max timestamp order rows p' _ hrows _ _ hruns _ =>
      refine ⟨howns, h.mem, ?_⟩
      rintro _ ⟨⟩ r hr hid
      rw [hruns] at hr
      obtain ⟨e', he', rfl⟩ := List.mem_map.mp (List.mem_of_mem_take hr)
      have hmem := (mem_incomplete.mp (hrows e' he')).1
      rw [eq_of_key h.owns.keys hmem h.mem hid]
      exact Or.inl rfl
  | insert id g p p' hp hfresh hperm _ =>
      refine ⟨howns, List.mem_append_left _ h.mem, ?_⟩
      rintro _ ⟨⟩ r hr hid
      rcases List.mem_cons.mp (hperm.mem_iff.mp hr) with rfl | hr
      · exact absurd hid.symm (hfresh e h.mem)
      · exact h.idle p hp r hr hid
  | refuse id g => exact h
  | insertLost id g p hp _ =>
      exact ⟨howns, List.mem_append_left _ h.mem,
        hrest p p hp fun _ hr => hr⟩
  | pass a p p' _ hp hperm _ =>
      exact ⟨howns, h.mem, hrest p p' hp fun _ hr => hperm.mem_iff.mp hr⟩
  | abandon i t p p' hp hperm _ =>
      exact ⟨howns, h.mem, hrest p p' hp fun _ hr =>
        hperm.mem_iff.mpr (List.mem_cons_of_mem _ hr)⟩
  | goto i deed answer r q rest p p' hp hout hact hin _ =>
      refine ⟨howns, h.mem, ?_⟩
      rintro _ ⟨⟩ r' hr' hid
      rcases List.mem_cons.mp (hin.mem_iff.mp hr') with rfl | hr'
      · -- from the queue the task is turned away, and an over run does nothing
        have hacts := Place.act_acts hact
        rcases h.idle p hp r (hout.mem_iff.mpr (List.mem_cons_self ..)) hid
          with hqueued | hover
        · rw [hqueued] at hacts
          obtain ⟨q', hq', hover⟩ := turned_away hctx hsingle hstep hacts
          cases hq'
          exact Or.inr hover
        · exact nomatch hacts.isOver.symm.trans hover
      · exact h.idle p hp r'
          (hout.mem_iff.mpr (List.mem_cons_of_mem _ hr')) hid
  | ask i deed answer r call next reply rest p p' hp hout hact _ hin _ =>
      -- no statement comes from a run on the row `e`
      have hne : e.id ≠ r.id := by
        intro hid
        have hacts := Place.act_acts hact
        rcases h.idle p hp r (hout.mem_iff.mpr (List.mem_cons_self ..)) hid.symm
          with hqueued | hover
        · rw [hqueued] at hacts
          obtain ⟨q', hq', _⟩ := turned_away hctx hsingle hstep hacts
          exact nomatch hq'
        · exact nomatch hacts.isOver.symm.trans hover
      refine ⟨howns, ?_, ?_⟩
      · rw [table_eq_map]
        exact List.mem_map.mpr ⟨e, h.mem, if_neg hne⟩
      · rintro _ ⟨⟩ r' hr' hid
        rcases List.mem_cons.mp (hin.mem_iff.mp hr') with rfl | hr'
        · exact absurd hid.symm hne
        · exact h.idle p hp r'
            (hout.mem_iff.mpr (List.mem_cons_of_mem _ hr')) hid
  | leave i r p p' hp _ hout _ _ =>
      exact ⟨howns, h.mem, hrest p p' hp fun _ hr =>
        hout.mem_iff.mpr (List.mem_cons_of_mem _ hr)⟩
  | crash p _ => exact ⟨howns, h.mem, by rintro _ ⟨⟩⟩

/-- **ORPHANED**: a single-node request that was at work when its server went
    down stays Computing for ever.  Whatever happens from then on, its row is
    never written again. -/
theorem single_node_orphaned (hdown : s.Down) {e : Entry β} (he : e ∈ s.table)
    {g : GenerateTask β} (hctx : e.context = .request g)
    (hsingle : g.singleNode = true) (hstep : e.row.step ≠ .Init)
    (hrun : run (Service.step feat) s acts = some t) : e ∈ t.table := by
  have hstart : Orphan e s := by
    refine ⟨hdown.local fun _ _ => trivial, he, ?_⟩
    intro p hp
    rw [hdown.process] at hp
    exact nomatch hp
  exact (run_inv (fun _ _ _ hi hs => hi.step hctx hsingle hstep hs) hstart
    hrun).mem

omit [Blob β] in
/-- The server is killed while a node has the request; the next one turns the
    request away. -/
theorem single_node_orphaned_restart :
    ∃ s t, ∃ e ∈ s.table, run (Service.step .proverV2) Service.empty
        (singleAtWork ++ [.crash]) = some s ∧ e.row.status = .Computing ∧
      run (Service.step .proverV2) s startedAgain = some t ∧ e ∈ t.table := by
  obtain ⟨s, hrun, hprocess, hkeys, hany, hnext⟩ := run_of_check
    (Service.step .proverV2) Service.empty (singleAtWork ++ [.crash])
    (fun s => s.process.isNone = true ∧ (s.table.map Entry.id).Nodup ∧
      (s.table.any fun e => e.atWork && decide (e.row.status = .Computing))
        = true ∧
      (run (Service.step .proverV2) s startedAgain).isSome = true)
    (by decide +kernel)
  obtain ⟨e, he, hwork⟩ := List.any_eq_true.mp hany
  obtain ⟨t, ht⟩ := Option.isSome_iff_exists.mp hnext
  rw [Bool.and_eq_true] at hwork
  have hdown : s.Down := ⟨Option.isNone_iff_eq_none.mp hprocess, hkeys⟩
  refine ⟨s, t, e, he, hrun, of_decide_eq_true hwork.2, ht, ?_⟩
  cases hctx : e.context with
  | request g =>
      rw [Entry.atWork, hctx, Bool.and_eq_true] at hwork
      exact single_node_orphaned hdown he hctx hwork.1.1
        (of_decide_eq_true hwork.1.2) ht
  | absent =>
      rw [Entry.atWork, hctx] at hwork
      exact nomatch hwork.1
  | undecodable =>
      rw [Entry.atWork, hctx] at hwork
      exact nomatch hwork.1

end

end ZkmProver
