import Mathlib.Data.List.Perm.Subperm
import ZkmProver.Chan
import ZkmProver.Owners

/-! # Service — the task table and the processes that come and go

    `Startup` follows the queue of one process, and `Owners` the workers on
    one row.  Here both are parts of one machine: the table `stage_task`, and
    the stage server on it, which may be killed at any point and started
    again.  The handlers of `generate_proof` insert rows and send tasks, the
    task manager takes them from the queue against a permit, and each run of
    `run_stage_task` makes its calls on its row one at a time.  A call on the
    database may be carried out although its answer is lost.

    Two things are kept that the server does not keep: each run has the list
    of its steps with it, and each row the run that wrote it last.  Nothing
    reads them on the way; they are there for what is said about a row
    afterwards.

    No invariant here looks at a run together with the rest of the process.
    `Rule` says what has to be checked of one run and its own row, and
    `Local.run` is the induction over the machine, made once. -/

namespace ZkmProver

open Forest Keyed Machine

variable {β : Type}

/-! ## The state -/

/-- A message of the task queue. -/
structure QueuedTask (β : Type) where
  id : String
  task : StageTask β

/-- A task of the process and where its `run_stage_task` is, with the copy of
    the row it was given and the steps that have led it there, each with the
    reply of the database if it asked for one. -/
structure TaskRun (β : Type) where
  id : String
  task : StageTask β
  log : List (Deed β × Option Nat)
  place : Place β

/-- A row of `stage_task`: what `generate_proof` fills in, the columns that
    change, and the run whose statement was the last to be carried out on it,
    as it was when it made the statement. -/
structure Entry (β : Type) where
  id : String
  context : Context β
  row : StageRow
  writer : Option (TaskRun β)

/-- The row as the queries return it. -/
def Entry.queued (e : Entry β) : QueuedTask β :=
  ⟨e.id, ⟨e.context, e.row.checkAt, e.row.step⟩⟩

/-- A queued task is one whose run has not begun. -/
def QueuedTask.run (t : QueuedTask β) : TaskRun β :=
  ⟨t.id, t.task, [], .queued t.task⟩

/-- The run after one more step. -/
def TaskRun.went (r : TaskRun β) (deed : Deed β) (reply : Option Nat)
    (q : Place β) : TaskRun β :=
  { r with log := r.log ++ [(deed, reply)], place := q }

/-- What a stage server has in memory: the handlers of `generate_proof` that
    are at `tx.send`, the queue, the task that waits for a permit, the permits
    of the semaphore, and the runs that hold one. -/
structure Process (β : Type) where
  maxConcurrentTasks : Nat
  sending : List (QueuedTask β)
  queue : Chan (QueuedTask β) 256
  waiting : Option (QueuedTask β)
  permits : Nat
  running : List (TaskRun β)

/-- The table, and the stage server if one is up. -/
structure Service (β : Type) where
  table : List (Entry β)
  process : Option (Process β)

/-- How a statement sent to the database ends: it is carried out, it is not,
    or it is and the caller sees an error. -/
inductive DbAnswer where
  | ok
  | refused
  | lost
  deriving DecidableEq

/-- A step of the table or the server. -/
inductive ServiceAct (β : Type) where
  /-- `StageServiceSVC::new`; `order` is the order in which the query returns
      the rows -/
  | boot (maxConcurrentTasks : Option Nat) (timestamp : Nat)
      (order : List String)
  /-- `insert_stage_task`, in a handler of `generate_proof` -/
  | insert (id : String) (g : GenerateTask β) (answer : DbAnswer)
  /-- the `i`-th handler gets its task into the queue -/
  | send (i : Nat)
  /-- the `i`-th handler is dropped with its connection -/
  | abandon (i : Nat)
  /-- `task_receiver.recv()` -/
  | recv
  /-- `acquire_owned()`, and the run is spawned -/
  | acquire
  /-- a step of the `i`-th run -/
  | work (i : Nat) (deed : Deed β) (answer : DbAnswer)
  /-- the `i`-th run is over, and its permit is dropped -/
  | leave (i : Nat)
  /-- the server is killed -/
  | crash

/-! ## The statements -/

/-- `get_incomplete_stage_tasks` -/
def Service.incomplete (s : Service β) (timestamp : Nat) : List (Entry β) :=
  s.table.filter fun e =>
    decide (e.row.status = .Computing) && decide (e.row.checkAt < timestamp)

/-- `rows_affected` -/
def Service.affected (s : Service β) (id : String) (call : RowCall) : Nat :=
  match s.table.find? fun e => e.id = id with
  | some e => call.rowsAffected e.row
  | none => 0

/-- An `UPDATE .. where id = ?` of the run `r` on one row. -/
def Entry.updated (r : TaskRun β) (call : RowCall) (e : Entry β) : Entry β :=
  if e.id = r.id then { e with row := call.run e.row, writer := some r } else e

/-- What the statement does to the table. -/
def DbAnswer.table (answer : DbAnswer) (r : TaskRun β) (call : RowCall)
    (table : List (Entry β)) : List (Entry β) :=
  match answer with
  | .refused => table
  | _ => table.map (Entry.updated r call)

/-- What the caller sees of the rows it affected. -/
def DbAnswer.reply (answer : DbAnswer) (affected : Nat) : Option Nat :=
  match answer with
  | .ok => some affected
  | _ => none

/-! ## The steps -/

/-- `TaskManager::new` and `load_incomplete_tasks_from_db` -/
def Process.new (maxConcurrentTasks : Option Nat)
    (tasks : List (QueuedTask β)) : Process β where
  maxConcurrentTasks := maxConcurrentTasks.getD 1
  sending := []
  queue := Chan.empty.sendUntilFull tasks
  waiting := none
  permits := maxConcurrentTasks.getD 1
  running := []

/-- Whether `run_stage_task` is over. -/
def Place.isOver : Place β → Bool
  | .returned => true
  | .panicked => true
  | _ => false

section

variable [Blob β]

/-- The steps of a server that is up. -/
def Process.act (p : Process β) (s : Service β) (feat : Feature) :
    ServiceAct β → Option (Service β)
  | .boot _ _ _ => none
  | .insert id g answer =>
      -- `id` is the primary key
      if s.table.any fun e => e.id = id then none
      else
        let e : Entry β := ⟨id, .request g, ⟨.Computing, "", 0, .Init⟩, none⟩
        match answer with
        | .ok =>
            some ⟨s.table ++ [e],
              some { p with sending := p.sending ++ [e.queued] }⟩
        | .refused => some s
        | .lost => some ⟨s.table ++ [e], some p⟩
  | .send i => do
      let t ← p.sending[i]?
      let queue ← p.queue.trySend t
      some ⟨s.table, some
        { p with sending := p.sending.eraseIdx i, queue := queue }⟩
  | .abandon i => do
      let _ ← p.sending[i]?
      some ⟨s.table, some { p with sending := p.sending.eraseIdx i }⟩
  | .recv =>
      match p.waiting with
      | some _ => none
      | none => do
          let (t, queue) ← p.queue.recv
          some ⟨s.table, some { p with queue := queue, waiting := some t }⟩
  | .acquire =>
      match p.waiting, p.permits with
      | some t, permits + 1 =>
          some ⟨s.table, some
            { p with
              waiting := none
              permits := permits
              running := p.running ++ [t.run] }⟩
      | _, _ => none
  | .work i deed answer => do
      let r ← p.running[i]?
      match ← r.place.act feat deed with
      | .goto q =>
          some ⟨s.table, some
            { p with running := p.running.set i (r.went deed none q) }⟩
      | .ask call next =>
          let reply := answer.reply (s.affected r.id call)
          let r' := r.went deed reply (next reply)
          some ⟨answer.table r call s.table, some
            { p with running := p.running.set i r' }⟩
  | .leave i => do
      let r ← p.running[i]?
      if r.place.isOver then
        some ⟨s.table, some
          { p with
            permits := p.permits + 1
            running := p.running.eraseIdx i }⟩
      else none
  | .crash => some ⟨s.table, none⟩

/-- A step with a server up, or the start of one. -/
def Service.step (feat : Feature) (s : Service β) (a : ServiceAct β) :
    Option (Service β) :=
  match s.process with
  | some p => p.act s feat a
  | none =>
      match a with
      | .boot maxConcurrentTasks timestamp order =>
          let rows := s.incomplete timestamp
          if order.Perm (rows.map Entry.id) then
            let tasks := order.filterMap fun id => rows.find? fun e => e.id = id
            -- the limit of the query
            let tasks := tasks.take 2147483647
            some ⟨s.table, some
              (.new maxConcurrentTasks (tasks.map Entry.queued))⟩
          else none
      | _ => none

end

/-! ## What a step can do -/

/-- The runs of a process, begun or not. -/
def Process.runs (p : Process β) : List (TaskRun β) :=
  (p.sending ++ p.queue.items ++ p.waiting.toList).map QueuedTask.run
    ++ p.running

/-- The entry of a new task. -/
def Entry.new (id : String) (g : GenerateTask β) : Entry β :=
  ⟨id, .request g, ⟨.Computing, "", 0, .Init⟩, none⟩

/-- Permits and runs, between the two ends of a step. -/
def Process.Lends (p p' : Process β) : Prop :=
  p'.maxConcurrentTasks = p.maxConcurrentTasks ∧
    p'.permits + p'.running.length = p.permits + p.running.length

/-- What a step of the service can do, as far as the runs are concerned. -/
inductive Service.Moves [Blob β] (feat : Feature) (s : Service β) :
    ServiceAct β → Service β → Prop where
  | boot (max : Option Nat) (timestamp : Nat) (order : List String)
      (rows : List (Entry β)) (p' : Process β) :
      s.process = none → (∀ e ∈ rows, e ∈ s.incomplete timestamp) →
      rows.map Entry.id = order.take 2147483647 →
      order.Perm ((s.incomplete timestamp).map Entry.id) →
      p'.runs = (rows.map fun e => e.queued.run).take 256 →
      p'.permits + p'.running.length = p'.maxConcurrentTasks →
      Moves feat s (.boot max timestamp order) ⟨s.table, some p'⟩
  | insert (id : String) (g : GenerateTask β) (p p' : Process β) :
      s.process = some p → (∀ e ∈ s.table, e.id ≠ id) →
      p'.runs.Perm ((Entry.new id g).queued.run :: p.runs) → p.Lends p' →
      Moves feat s (.insert id g .ok) ⟨s.table ++ [.new id g], some p'⟩
  | refuse (id : String) (g : GenerateTask β) :
      Moves feat s (.insert id g .refused) s
  | insertLost (id : String) (g : GenerateTask β) (p : Process β) :
      s.process = some p → (∀ e ∈ s.table, e.id ≠ id) →
      Moves feat s (.insert id g .lost) ⟨s.table ++ [.new id g], some p⟩
  | pass (a : ServiceAct β) (p p' : Process β) :
      (∃ i, a = .send i) ∨ a = .recv ∨ a = .acquire → s.process = some p →
      p'.runs.Perm p.runs → p.Lends p' →
      Moves feat s a ⟨s.table, some p'⟩
  | abandon (i : Nat) (t : QueuedTask β) (p p' : Process β) :
      s.process = some p → p.runs.Perm (t.run :: p'.runs) → p.Lends p' →
      Moves feat s (.abandon i) ⟨s.table, some p'⟩
  | goto (i : Nat) (deed : Deed β) (answer : DbAnswer) (r : TaskRun β)
      (q : Place β) (rest : List (TaskRun β)) (p p' : Process β) :
      s.process = some p → p.runs.Perm (r :: rest) →
      r.place.act feat deed = some (.goto q) →
      p'.runs.Perm (r.went deed none q :: rest) → p.Lends p' →
      Moves feat s (.work i deed answer) ⟨s.table, some p'⟩
  | ask (i : Nat) (deed : Deed β) (answer : DbAnswer) (r : TaskRun β)
      (call : RowCall) (next : Option Nat → Place β) (reply : Option Nat)
      (rest : List (TaskRun β)) (p p' : Process β) :
      s.process = some p → p.runs.Perm (r :: rest) →
      r.place.act feat deed = some (.ask call next) →
      reply = answer.reply (s.affected r.id call) →
      p'.runs.Perm (r.went deed reply (next reply) :: rest) →
      p.Lends p' →
      Moves feat s (.work i deed answer)
        ⟨answer.table r call s.table, some p'⟩
  | leave (i : Nat) (r : TaskRun β) (p p' : Process β) :
      s.process = some p → p.running[i]? = some r →
      p.runs.Perm (r :: p'.runs) → r.place.isOver = true → p.Lends p' →
      Moves feat s (.leave i) ⟨s.table, some p'⟩
  | crash (p : Process β) : s.process = some p →
      Moves feat s .crash ⟨s.table, none⟩

section

variable {p : Process β} {t : QueuedTask β} {r : TaskRun β}

/-! The four places where a process keeps its tasks, one run taken out. -/

theorem perm_sending {l : List (QueuedTask β)} (h : p.sending.Perm (t :: l)) :
    p.runs.Perm (t.run :: { p with sending := l }.runs) := by
  rw [Process.runs, Process.runs, ← List.cons_append, ← List.map_cons,
    List.append_assoc, List.append_assoc]
  exact ((h.append_right _).map _).append_right _

theorem perm_queue {queue : Chan (QueuedTask β) 256}
    (h : p.queue.items.Perm (t :: queue.items)) :
    p.runs.Perm (t.run :: { p with queue := queue }.runs) := by
  rw [Process.runs, Process.runs, ← List.cons_append, ← List.map_cons]
  refine List.Perm.append_right _ (List.Perm.map _ ?_)
  refine ((h.append_left _).append_right _).trans ?_
  rw [List.append_assoc, List.append_assoc]
  exact List.perm_middle

theorem perm_waiting (h : p.waiting = some t) :
    p.runs.Perm (t.run :: { p with waiting := none }.runs) := by
  rw [Process.runs, Process.runs, ← List.cons_append, ← List.map_cons, h]
  refine List.Perm.append_right _ (List.Perm.map _ ?_)
  rw [Option.toList_some, Option.toList_none, List.append_nil]
  exact List.perm_append_singleton t _

theorem perm_running {l : List (TaskRun β)} (h : p.running.Perm (r :: l)) :
    p.runs.Perm (r :: { p with running := l }.runs) :=
  (h.append_left _).trans List.perm_middle

/-- The `i`-th of a list, and the others. -/
theorem perm_of_getElem? {α : Type} {l : List α} {i : Nat} {x : α}
    (h : l[i]? = some x) : l.Perm (x :: l.eraseIdx i) := by
  obtain ⟨hi, rfl⟩ := List.getElem?_eq_some_iff.mp h
  exact (List.getElem_cons_eraseIdx_perm hi).symm

theorem length_of_getElem? {α : Type} {l : List α} {i : Nat} {x : α}
    (h : l[i]? = some x) : (l.eraseIdx i).length + 1 = l.length :=
  (perm_of_getElem? h).length_eq.symm

/-- A run that goes on. -/
theorem perm_set_running {i : Nat} (h : p.running[i]? = some r)
    (r' : TaskRun β) :
    { p with running := p.running.set i r' }.runs.Perm
      (r' :: { p with running := p.running.eraseIdx i }.runs) := by
  obtain ⟨hi, _⟩ := List.getElem?_eq_some_iff.mp h
  exact perm_running (List.set_perm_cons_eraseIdx hi _)

end

section

variable [Blob β] {feat : Feature} {s s' : Service β} {a : ServiceAct β}

theorem act_moves {p : Process β} (hp : s.process = some p)
    (h : p.act s feat a = some s') : s.Moves feat a s' := by
  cases a with
  | boot max timestamp order => exact nomatch h
  | insert id g answer =>
      rw [Process.act] at h
      split at h
      · exact nomatch h
      case isFalse hany =>
        -- the key is new, whatever becomes of the answer
        have hfresh : ∀ e ∈ s.table, e.id ≠ id := by
          intro e he hid
          exact hany (List.any_eq_true.mpr ⟨e, he, decide_eq_true hid⟩)
        cases answer with
        | ok =>
            cases h
            refine .insert id g p _ hp hfresh ?_ ⟨rfl, rfl⟩
            exact perm_sending (List.perm_append_singleton _ _)
        | refused => cases h; exact .refuse id g
        | lost => cases h; exact .insertLost id g p hp hfresh
  | send i =>
      simp only [Process.act, Option.bind_eq_bind, Option.bind_eq_some_iff] at h
      obtain ⟨t, ht, queue, hq, h⟩ := h
      cases h
      obtain ⟨_, hitems⟩ := Chan.trySend_eq_some.mp hq
      have hout := perm_sending (perm_of_getElem? ht)
      have hin : ({ p with
          sending := p.sending.eraseIdx i, queue := queue } : Process β).runs.Perm
          (t.run :: { p with sending := p.sending.eraseIdx i }.runs) :=
        perm_queue (hitems ▸ List.perm_append_singleton t p.queue.items)
      exact .pass _ p _ (Or.inl ⟨i, rfl⟩) hp (hin.trans hout.symm) ⟨rfl, rfl⟩
  | abandon i =>
      simp only [Process.act, Option.bind_eq_bind, Option.bind_eq_some_iff] at h
      obtain ⟨t, ht, h⟩ := h
      cases h
      exact .abandon i t p _ hp (perm_sending (perm_of_getElem? ht)) ⟨rfl, rfl⟩
  | recv =>
      rw [Process.act] at h
      split at h
      · exact nomatch h
      case h_2 hwait =>
        simp only [Option.bind_eq_bind, Option.bind_eq_some_iff] at h
        obtain ⟨⟨t, queue⟩, hq, h⟩ := h
        cases h
        have hitems := Chan.recv_eq_some.mp hq
        have hout := perm_queue (p := p) (List.Perm.of_eq hitems)
        have hin : ({ p with
            queue := queue, waiting := some t } : Process β).runs.Perm
            (t.run :: { p with queue := queue, waiting := none }.runs) :=
          perm_waiting rfl
        rw [← hwait] at hin
        exact .pass _ p _ (Or.inr (Or.inl rfl)) hp (hin.trans hout.symm)
          ⟨rfl, rfl⟩
  | acquire =>
      rw [Process.act] at h
      split at h
      case h_1 t permits hwait hpermits =>
        cases h
        have hin : ({ p with
            waiting := none
            permits := permits
            running := p.running ++ [t.run] } : Process β).runs.Perm
            (t.run :: { p with waiting := none }.runs) :=
          perm_running (List.perm_append_singleton _ _)
        refine .pass _ p _ (Or.inr (Or.inr rfl)) hp
          (hin.trans (perm_waiting hwait).symm) ⟨rfl, ?_⟩
        show permits + (p.running ++ [t.run]).length = _
        rw [List.length_append, List.length_singleton, hpermits]
        omega
      case h_2 => exact nomatch h
  | work i deed answer =>
      simp only [Process.act, Option.bind_eq_bind, Option.bind_eq_some_iff] at h
      obtain ⟨r, hr, o, ho, h⟩ := h
      have hout := perm_running (perm_of_getElem? hr)
      cases o with
      | goto q =>
          cases h
          refine .goto i deed answer r q _ p _ hp hout ho
            (perm_set_running hr _) ⟨rfl, ?_⟩
          rw [List.length_set]
      | ask call next =>
          cases h
          refine .ask i deed answer r call next _ _ p _ hp hout ho rfl
            (perm_set_running hr _) ⟨rfl, ?_⟩
          rw [List.length_set]
  | leave i =>
      simp only [Process.act, Option.bind_eq_bind, Option.bind_eq_some_iff] at h
      obtain ⟨r, hr, h⟩ := h
      split at h
      case isTrue hover =>
        cases h
        refine .leave i r p _ hp hr (perm_running (perm_of_getElem? hr)) hover
          ⟨rfl, ?_⟩
        have hlen := length_of_getElem? hr
        show p.permits + 1 + (p.running.eraseIdx i).length = _
        omega
      case isFalse => exact nomatch h
  | crash => cases h; exact .crash p hp

omit [Blob β] in
theorem mem_incomplete {timestamp : Nat} {e : Entry β} :
    e ∈ s.incomplete timestamp ↔
      e ∈ s.table ∧ e.row.status = .Computing ∧ e.row.checkAt < timestamp := by
  rw [Service.incomplete, List.mem_filter, Bool.and_eq_true,
    decide_eq_true_eq, decide_eq_true_eq]

omit [Blob β] in
theorem runs_new (max : Option Nat) (tasks : List (QueuedTask β)) :
    (Process.new max tasks).runs = (tasks.map QueuedTask.run).take 256 := by
  show (([] ++ (Chan.empty.sendUntilFull tasks : Chan _ 256).items ++ []).map _)
    ++ [] = _
  rw [List.nil_append, List.append_nil, List.append_nil,
    Chan.items_sendUntilFull, Chan.items_empty, List.nil_append,
    List.length_nil, List.map_take]

theorem Service.step_moves (h : s.step feat a = some s') :
    s.Moves feat a s' := by
  unfold Service.step at h
  cases hp : s.process with
  | some p =>
      rw [hp] at h
      exact act_moves hp h
  | none =>
    rw [hp] at h
    cases a with
    | boot max timestamp order =>
        dsimp only at h
        split at h
        case isTrue hperm =>
          cases h
          have hkeys : ∀ id ∈ order,
              ∃ e ∈ s.incomplete timestamp, e.id = id := by
            intro id hid
            exact List.mem_map.mp (hperm.mem_iff.mp hid)
          -- each id of the order finds its own row again
          have hmap := map_key_lookup hkeys
          refine .boot max timestamp order _ _ hp ?_
            (by rw [List.map_take, hmap]) hperm ?_ rfl
          · intro e he
            obtain ⟨id, _, hfind⟩ :=
              List.mem_filterMap.mp (List.mem_of_mem_take he)
            exact List.mem_of_find?_eq_some hfind
          · rw [runs_new, List.map_map]
            rfl
        case isFalse => exact nomatch h
    | _ => exact nomatch h

end

/-! ## What a run can do -/

/-- What a step of `run_stage_task` can come to, whatever is answered. -/
inductive Place.Acts [Blob β] (feat : Feature) :
    Place β → Deed β → Outcome β → Prop where
  | absent {d : Deed β} (task : StageTask β) : task.context = .absent →
      Acts feat (.queued task) d (.goto .returned)
  | undecodable {d : Deed β} (task : StageTask β) :
      task.context = .undecodable →
      Acts feat (.queued task) d
        (.ask (.update .InternalError "") fun _ => .returned)
  | processed {d : Deed β} (task : StageTask β) (g : GenerateTask β) :
      task.context = .request g → g.singleNode = true → task.step ≠ .Init →
      Acts feat (.queued task) d (.goto .returned)
  | single {d : Deed β} (task : StageTask β) (g : GenerateTask β) (now : Nat) :
      task.context = .request g → g.singleNode = true → task.step = .Init →
      Acts feat (.queued task) d
        (.ask (.checkAt task.checkAt now .Prove) fun answer =>
          if answer.isSome then .single (Stage.new g) now
          else .failing .InternalError)
  | loop {d : Deed β} (task : StageTask β) (g : GenerateTask β)
      (file : Option β) (disk : Disk β) (w : World β) (n m : Nat) :
      task.context = .request g → g.singleNode = false →
      (World.start g file).step feat (.dispatch disk) = some w →
      Acts feat (.queued task) d
        (.ask (.checkAt task.checkAt n w.stage.step) fun _ => .looping ⟨w, n, m⟩)
  | panic {d : Deed β} (p : Place β) : p.isOver = false →
      Acts feat p d (.goto .panicked)
  | refused (stage : Stage β) (checkAt : Nat) (r : SingleReply β) (io : Bool) :
      r.state ≠ .Success ∨ stage.isError = true →
      Acts feat (.single stage checkAt) (.reply r io)
        (.goto (.failing .InternalError))
  | replied (stage : Stage β) (checkAt : Nat) (r : SingleReply β) (io : Bool) :
      r.state = .Success →
      Acts feat (.single stage checkAt) (.reply r io)
        (.goto (.closing { stage with step := .End }
          (if stage.generateTask.targetStep = .Snark then
            Blob.fromUtf8 r.output else some "") checkAt))
  | handOut {d : Deed β} (c : Copy β) (clock : Nat → Nat) (disk : Disk β)
      (w : World β) :
      handOuts feat clock disk c.world = some w →
      Acts feat (.looping c) d (.goto (.waiting c w))
  | receive {d : Deed β} (c : Copy β) (w w' : World β) (now : Nat)
      (event : Event β) :
      ZkmProver.receive feat now event w = some w' →
      Acts feat (.waiting c w) d (.goto (.received c w'))
  | failed (c : Copy β) (w : World β) (now : Nat) (disk : Disk β)
      (file : Option β) : w.stage.isError = true →
      Acts feat (.received c w) (.dispatch now disk file)
        (.goto (.failing (errorStatus w.stage.step)))
  | succeeded (c : Copy β) (w : World β) (now : Nat) (disk : Disk β)
      (file : Option β) (result : Option String) :
      w.stage.isSuccess = true → w.stage.isError = false →
      (if w.stage.generateTask.targetStep = .Snark then file.map Blob.fromUtf8
        else some (some "")) = some result →
      Acts feat (.received c w) (.dispatch now disk file)
        (.goto (.closing w.stage result c.taskCheckAt))
  | dispatched {d : Deed β} (c : Copy β) (w w' : World β) (disk : Disk β) :
      w.step feat (.dispatch disk) = some w' →
      Acts feat (.received c w) d (.goto (.looping { c with world := w' }))
  | recorded {d : Deed β} (c : Copy β) (w w' : World β) (disk : Disk β)
      (now : Nat) :
      w.step feat (.dispatch disk) = some w' →
      Acts feat (.received c w) d
        (.ask (.checkAt c.taskCheckAt now w'.stage.step) fun answer =>
          .looping
            { world := w'
              taskCheckAt := if answer = some 1 then now else c.taskCheckAt
              checkAt := now })
  | fail {d : Deed β} (status : Status) :
      Acts feat (.failing status) d (.unwrap (.update status "") .returned)
  | close {d : Deed β} (stage : Stage β) (result : Option String)
      (checkAt duration : Nat) :
      Acts feat (.closing stage result checkAt) d
        (.unwrap (.checkAt checkAt duration stage.step)
          (.storing stage result duration))
  | store {d : Deed β} (stage : Stage β) (result : String) (duration : Nat) :
      Acts feat (.storing stage (some result) duration) d
        (.unwrap (.update .Success result) .returned)

section

variable [Blob β] {feat : Feature}

theorem start_acts (task : StageTask β) (clock : Nat → Nat) (disk : Disk β)
    (file : Option β) :
    Place.Acts feat (.queued task) (.start clock disk file)
      (Place.start feat task clock disk file) := by
  rw [Place.start]
  cases hctx : task.context with
  | absent => exact .absent task hctx
  | undecodable => exact .undecodable task hctx
  | request g =>
      dsimp only
      cases hsingle : g.singleNode with
      | true =>
          rw [if_pos rfl]
          by_cases hstep : task.step = .Init
          · rw [if_neg (not_not_intro hstep)]
            exact .single task g (clock 0) hctx hsingle hstep
          · rw [if_pos hstep]
            exact .processed task g hctx hsingle hstep
      | false =>
          rw [if_neg Bool.false_ne_true]
          cases hw : (World.start g file).step feat (.dispatch disk) with
          | none => exact .panic _ rfl
          | some w =>
              exact .loop task g file disk w (clock 0) (clock 1) hctx hsingle hw

theorem replied_acts (stage : Stage β) (checkAt : Nat) (r : SingleReply β)
    (io : Bool) :
    Place.Acts feat (.single stage checkAt) (.reply r io)
      (.goto (Place.replied stage checkAt r io)) := by
  have hstate : (r.fill stage.getSingleNodeTask).state = r.state := rfl
  rw [Place.replied]
  dsimp only
  by_cases hr : r.state = .Success
  · -- the proof that cannot be written is the panic
    have hon : stage.onSingleNodeTask io (r.fill stage.getSingleNodeTask) = none ∨
        ∃ file, stage.onSingleNodeTask io (r.fill stage.getSingleNodeTask)
          = some ({ stage with step := .End }, file) := by
      rw [Stage.onSingleNodeTask, hstate, if_pos hr]
      split
      · split
        · exact Or.inr ⟨_, rfl⟩
        · exact Or.inl rfl
      · exact Or.inr ⟨_, rfl⟩
    rcases hon with hnone | ⟨file, hsome⟩
    · rw [hnone]
      exact .panic _ rfl
    · rw [hsome]
      dsimp only
      by_cases herr : stage.isError = true
      · rw [if_pos herr]
        exact .refused stage checkAt r io (Or.inr herr)
      · rw [if_neg herr]
        exact .replied stage checkAt r io hr
  · rw [Stage.onSingleNodeTask, hstate, if_neg hr]
    exact .refused stage checkAt r io (Or.inl hr)

theorem conclude_acts (c : Copy β) (w : World β) (now : Nat) (disk : Disk β)
    (file : Option β) :
    Place.Acts feat (.received c w) (.dispatch now disk file)
      (c.conclude feat now disk file w) := by
  rw [Copy.conclude]
  split
  case isTrue hend =>
    rw [Copy.leave]
    by_cases herr : w.stage.isError = true
    · rw [if_pos herr]
      exact .failed c w now disk file herr
    · rw [if_neg herr]
      rw [Bool.not_eq_true] at herr
      have hsuccess : w.stage.isSuccess = true := by simpa [herr] using hend
      dsimp only
      split
      · exact .panic _ rfl
      case h_2 result hresult =>
        exact .succeeded c w now disk file result hsuccess herr hresult
  case isFalse =>
    cases hw : w.step feat (.dispatch disk) with
    | none => exact .panic _ rfl
    | some w' =>
        dsimp only
        split
        · exact .recorded c w w' disk now hw
        · exact .dispatched c w w' disk hw

theorem Place.act_acts {p : Place β} {d : Deed β} {o : Outcome β}
    (h : p.act feat d = some o) : p.Acts feat d o := by
  cases p with
  | queued task =>
      cases d with
      | start clock disk file => cases h; exact start_acts task clock disk file
      | _ => cases h
  | single stage checkAt =>
      cases d with
      | reply r io => cases h; exact replied_acts stage checkAt r io
      | _ => cases h
  | looping c =>
      cases d with
      | handOut clock disk =>
          rw [Place.act] at h
          split at h
          · cases h
            exact .panic _ rfl
          case h_2 w hw => cases h; exact .handOut c clock disk w hw
      | _ => cases h
  | waiting c w =>
      cases d with
      | receive now event =>
          rw [Place.act] at h
          split at h
          · cases h
            exact .panic _ rfl
          case h_2 w' hw => cases h; exact .receive c w w' now event hw
      | _ => cases h
  | received c w =>
      cases d with
      | dispatch now disk file => cases h; exact conclude_acts c w now disk file
      | _ => cases h
  | failing status =>
      cases d with
      | write => cases h; exact .fail status
      | _ => cases h
  | closing stage result checkAt =>
      cases d with
      | close duration => cases h; exact .close stage result checkAt duration
      | _ => cases h
  | storing stage result duration =>
      cases result with
      | none =>
          cases d with
          | write => cases h; exact .panic _ rfl
          | _ => cases h
      | some result =>
          cases d with
          | write => cases h; exact .store stage result duration
          | _ => cases h
  | returned => cases d <;> cases h
  | panicked => cases d <;> cases h

end

/-! ## One run and its own row -/

/-- Something known of every row, and of every run with its own row; no two
    runs of the process are on one row. -/
structure Local (Good : Entry β → Prop) (Fits : Entry β → TaskRun β → Prop)
    (s : Service β) : Prop where
  keys : (s.table.map Entry.id).Nodup
  good : ∀ e ∈ s.table, Good e
  once : ∀ p, s.process = some p → (p.runs.map TaskRun.id).Nodup
  fits : ∀ p, s.process = some p → ∀ r ∈ p.runs,
    ∃ e ∈ s.table, e.id = r.id ∧ Fits e r

/-- What a statement of the run `r` leaves of its row. -/
def DbAnswer.entry (answer : DbAnswer) (r : TaskRun β) (call : RowCall)
    (e : Entry β) : Entry β :=
  match answer with
  | .refused => e
  | _ => { e with row := call.run e.row, writer := some r }

/-- What has to be checked of one run and its row: a row that is new or
    loaded, and each step of the run with each answer to its call.  The rows
    that are loaded and the answers can be restricted. -/
structure Rule [Blob β] (feat : Feature) (Loads : Entry β → Prop)
    (Answers : DbAnswer → Prop) (Good : Entry β → Prop)
    (Fits : Entry β → TaskRun β → Prop) : Prop where
  new : ∀ id g, Good (.new id g) ∧ Fits (.new id g) (Entry.new id g).queued.run
  load : ∀ e, Loads e → Good e → e.row.status = .Computing →
    Fits e e.queued.run
  goto : ∀ e r deed q, Good e → Fits e r →
    r.place.act feat deed = some (.goto q) → Fits e (r.went deed none q)
  ask : ∀ e r deed call next answer reply, Answers answer → Good e →
    Fits e r → r.place.act feat deed = some (.ask call next) →
    reply = answer.reply (call.rowsAffected e.row) →
    Good (answer.entry r call e) ∧
      Fits (answer.entry r call e) (r.went deed reply (next reply))

/-- A step within the restrictions. -/
def Service.Under (Loads : Entry β → Prop) (Answers : DbAnswer → Prop)
    (s : Service β) : ServiceAct β → Prop
  | .boot _ timestamp _ => ∀ e ∈ s.incomplete timestamp, Loads e
  | .work _ _ answer => Answers answer
  | _ => True

@[simp] theorem entry_id (answer : DbAnswer) (r : TaskRun β) (call : RowCall)
    (e : Entry β) : (answer.entry r call e).id = e.id := by
  cases answer <;> rfl

/-- The statement on the whole table, row by row. -/
theorem table_eq_map (answer : DbAnswer) (r : TaskRun β) (call : RowCall)
    (table : List (Entry β)) :
    answer.table r call table
      = table.map fun e => if e.id = r.id then answer.entry r call e else e := by
  cases answer with
  | refused =>
      show table = table.map fun e => if e.id = r.id then e else e
      simp
  | ok => rfl
  | lost => rfl

namespace Local

variable {Good : Entry β → Prop} {Fits : Entry β → TaskRun β → Prop}
  {s : Service β} {p p' : Process β} {r : TaskRun β} {rest : List (TaskRun β)}

/-- Runs change their place in the process, or are gone. -/
theorem subperm (h : Local Good Fits s) (hp : s.process = some p)
    (hsub : p'.runs.Subperm p.runs) : Local Good Fits ⟨s.table, some p'⟩ := by
  refine ⟨h.keys, h.good, ?_, ?_⟩
  · rintro _ ⟨⟩
    obtain ⟨l, hperm, hsub⟩ := hsub
    exact (hperm.map _).nodup_iff.mp ((h.once p hp).sublist (hsub.map _))
  · rintro _ ⟨⟩ r hr
    exact h.fits p hp r (hsub.subset hr)

/-- A row is inserted, with its run or without. -/
theorem insert (h : Local Good Fits s) (hp : s.process = some p)
    {e : Entry β} (hfresh : ∀ e' ∈ s.table, e'.id ≠ e.id) (hgood : Good e)
    (hruns : p'.runs.Perm p.runs ∨
      p'.runs.Perm (e.queued.run :: p.runs) ∧ Fits e e.queued.run) :
    Local Good Fits ⟨s.table ++ [e], some p'⟩ := by
  have hold : ∀ r ∈ p.runs, ∃ e' ∈ s.table ++ [e], e'.id = r.id ∧
      Fits e' r := by
    intro r hr
    obtain ⟨e', he', hid, hfit⟩ := h.fits p hp r hr
    exact ⟨e', List.mem_append_left _ he', hid, hfit⟩
  refine ⟨?_, ?_, ?_, ?_⟩
  · rw [List.map_append, List.map_singleton, List.nodup_append]
    refine ⟨h.keys, List.nodup_singleton _, ?_⟩
    intro id hid id' hid'
    obtain ⟨e', he', rfl⟩ := List.mem_map.mp hid
    rw [List.mem_singleton.mp hid']
    exact hfresh e' he'
  · intro e' he'
    rcases List.mem_append.mp he' with he' | he'
    · exact h.good e' he'
    · rw [List.mem_singleton.mp he']
      exact hgood
  · rintro _ ⟨⟩
    rcases hruns with hperm | ⟨hperm, _⟩
    · exact (hperm.map _).nodup_iff.mpr (h.once p hp)
    · rw [(hperm.map _).nodup_iff, List.map_cons, List.nodup_cons]
      refine ⟨?_, h.once p hp⟩
      intro hmem
      obtain ⟨r, hr, hid⟩ := List.mem_map.mp hmem
      obtain ⟨e', he', hid', _⟩ := h.fits p hp r hr
      exact hfresh e' he' (hid'.trans hid)
  · rintro _ ⟨⟩ r hr
    rcases hruns with hperm | ⟨hperm, hfit⟩
    · exact hold r (hperm.mem_iff.mp hr)
    · rcases List.mem_cons.mp (hperm.mem_iff.mp hr) with rfl | hr
      · exact ⟨e, by simp, rfl, hfit⟩
      · exact hold r hr

/-- The row of a run is in the table, and no other run is on it. -/
theorem alone (h : Local Good Fits s) (hp : s.process = some p)
    (hout : p.runs.Perm (r :: rest)) :
    (∃ e ∈ s.table, e.id = r.id ∧ Fits e r) ∧
      (∀ r' ∈ rest, r'.id ≠ r.id) ∧ (rest.map TaskRun.id).Nodup := by
  have hnd := (hout.map _).nodup_iff.mp (h.once p hp)
  rw [List.map_cons, List.nodup_cons] at hnd
  refine ⟨h.fits p hp r (hout.mem_iff.mpr (List.mem_cons_self ..)), ?_, hnd.2⟩
  intro r' hr' hid
  exact hnd.1 (hid ▸ List.mem_map_of_mem hr')

/-- **ONE RUN**: a run takes a step, and its own row changes. -/
theorem work (h : Local Good Fits s) (hp : s.process = some p)
    (hout : p.runs.Perm (r :: rest)) {r' : TaskRun β}
    (hin : p'.runs.Perm (r' :: rest)) (hr' : r'.id = r.id) {f : Entry β → Entry β}
    (hid : ∀ e, (f e).id = e.id)
    (hstep : ∀ e ∈ s.table, e.id = r.id → Fits e r →
      Good (f e) ∧ Fits (f e) r') :
    Local Good Fits
      ⟨s.table.map fun e => if e.id = r.id then f e else e, some p'⟩ := by
  obtain ⟨⟨e₀, he₀, hid₀, hfit₀⟩, hother, hnd⟩ := h.alone hp hout
  have hgo := hstep e₀ he₀ hid₀ hfit₀
  -- the ids stay, in the table as among the runs
  have hkey : ∀ e : Entry β, (if e.id = r.id then f e else e).id = e.id := by
    intro e
    split
    · exact hid e
    · rfl
  refine ⟨?_, ?_, ?_, ?_⟩
  · have hsame : (s.table.map fun e => if e.id = r.id then f e else e).map
        Entry.id = s.table.map Entry.id := by
      rw [List.map_map]
      exact List.map_congr_left fun e _ => hkey e
    exact hsame ▸ h.keys
  · intro e he
    obtain ⟨e', he', rfl⟩ := List.mem_map.mp he
    split
    case isTrue hr =>
      rw [eq_of_key h.keys he' he₀ (hr.trans hid₀.symm)]
      exact hgo.1
    case isFalse => exact h.good e' he'
  · rintro _ ⟨⟩
    rw [(hin.map _).nodup_iff, List.map_cons, List.nodup_cons, hr']
    refine ⟨?_, hnd⟩
    intro hmem
    obtain ⟨o, ho, hid'⟩ := List.mem_map.mp hmem
    exact hother o ho hid'
  · rintro _ ⟨⟩ o ho
    rcases List.mem_cons.mp (hin.mem_iff.mp ho) with rfl | ho
    · refine ⟨f e₀, List.mem_map.mpr ⟨e₀, he₀, if_pos hid₀⟩, ?_, hgo.2⟩
      exact (hid e₀).trans (hid₀.trans hr'.symm)
    · -- another run has another row, and that has not changed
      obtain ⟨e, he, hid', hfit⟩ := h.fits p hp o
        (hout.mem_iff.mpr (List.mem_cons_of_mem _ ho))
      refine ⟨e, List.mem_map.mpr ⟨e, he, if_neg ?_⟩, hid', hfit⟩
      rw [hid']
      exact hother o ho

variable [Blob β] {feat : Feature} {Loads : Entry β → Prop}
  {Answers : DbAnswer → Prop} {s' t : Service β} {a : ServiceAct β}
  {acts : List (ServiceAct β)}

/-- The tasks that are loaded have rows of their own. -/
theorem boot (hrule : Rule feat Loads Answers Good Fits)
    (h : Local Good Fits s) {timestamp : Nat} {order : List String}
    {rows : List (Entry β)} {n : Nat}
    (hrows : ∀ e ∈ rows, e ∈ s.incomplete timestamp)
    (hmap : rows.map Entry.id = order.take n)
    (hperm : order.Perm ((s.incomplete timestamp).map Entry.id))
    (hruns : p'.runs = (rows.map fun e => e.queued.run).take 256)
    (hloads : ∀ e ∈ s.incomplete timestamp, Loads e) :
    Local Good Fits ⟨s.table, some p'⟩ := by
  have hnd : (rows.map Entry.id).Nodup := by
    rw [hmap]
    refine (hperm.nodup_iff.mpr ?_).sublist (List.take_sublist _ _)
    exact h.keys.sublist (List.filter_sublist.map _)
  have hids : (rows.map fun e => e.queued.run).map TaskRun.id
      = rows.map Entry.id := by
    rw [List.map_map]
    rfl
  refine ⟨h.keys, h.good, ?_, ?_⟩
  · rintro _ ⟨⟩
    rw [hruns, List.map_take, hids]
    exact hnd.sublist (List.take_sublist _ _)
  · rintro _ ⟨⟩ r hr
    rw [hruns] at hr
    obtain ⟨e, he, rfl⟩ := List.mem_map.mp (List.mem_of_mem_take hr)
    obtain ⟨hmem, hst, _⟩ := mem_incomplete.mp (hrows e he)
    exact ⟨e, hmem, rfl,
      hrule.load e (hloads e (hrows e he)) (h.good e hmem) hst⟩

theorem step (hrule : Rule feat Loads Answers Good Fits)
    (hunder : s.Under Loads Answers a) (h : Local Good Fits s)
    (hs : s.step feat a = some s') : Local Good Fits s' := by
  cases Service.step_moves hs with
  | boot max timestamp order rows p' _ hrows hmap hperm hruns _ =>
      exact h.boot hrule hrows hmap hperm hruns hunder
  | insert id g p p' hp hfresh hperm _ =>
      exact h.insert hp hfresh (hrule.new id g).1
        (Or.inr ⟨hperm, (hrule.new id g).2⟩)
  | refuse id g => exact h
  | insertLost id g p hp hfresh =>
      exact h.insert hp hfresh (hrule.new id g).1 (Or.inl (.refl _))
  | pass a p p' _ hp hperm _ => exact h.subperm hp hperm.subperm
  | abandon i t p p' hp hperm _ =>
      exact h.subperm hp
        ((List.sublist_cons_self _ _).subperm.trans hperm.symm.subperm)
  | goto i deed answer r q rest p p' hp hout hact hin _ =>
      have hmoved := h.work (f := id) hp hout hin rfl (fun _ => rfl) (by
        intro e he _ hfit
        exact ⟨h.good e he, hrule.goto e _ deed q (h.good e he) hfit hact⟩)
      simpa using hmoved
  | ask i deed answer r call next reply rest p p' hp hout hact hreply hin _ =>
      rw [table_eq_map]
      refine h.work hp hout hin rfl (entry_id answer r call) ?_
      intro e he hid hfit
      -- the statement meets the row of the run, by its key
      have haff : s.affected r.id call = call.rowsAffected e.row := by
        rw [Service.affected, ← hid, find?_of_mem h.keys he]
      rw [haff] at hreply
      exact hrule.ask e r deed call next answer reply hunder (h.good e he) hfit
        hact hreply
  | leave i r p p' hp _ hperm _ _ =>
      exact h.subperm hp
        ((List.sublist_cons_self _ _).subperm.trans hperm.symm.subperm)
  | crash p _ => exact ⟨h.keys, h.good, by rintro _ ⟨⟩, by rintro _ ⟨⟩⟩

/-- **LOCAL RULE**: what is checked of one run and its row holds of all of
    them, over every run of the machine. -/
theorem run (hrule : Rule feat Loads Answers Good Fits)
    (h : Local Good Fits s)
    (hunder : Along (Service.step feat) (Service.Under Loads Answers) s acts)
    (hrun : Machine.run (Service.step feat) s acts = some t) :
    Local Good Fits t :=
  run_inv_along (fun _ _ _ hu hi hs => hi.step hrule hu hs) hunder h hrun

end Local

end ZkmProver
