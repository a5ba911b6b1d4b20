import Mathlib.Data.List.Basic
import Mathlib.Data.List.Count
import Mathlib.Data.List.Nodup
import ZkmProver.Chan
import ZkmProver.Machine

/-! # Startup — `TaskManager` and the rows it loads

    `StageServiceSVC::new` loads the incomplete rows into the task queue and
    starts the consumer behind that.  The load stops at the first row that
    does not fit, and the query passes over rows whose `check_at` is not in
    the past: what is queued is a prefix of the rows that match.

    From the queue on nothing is lost: the consumer takes the rows in order,
    each once (`Manager.conserved`). -/

namespace ZkmProver

open Machine

/-! ## The table -/

/-- A row of `stage_task` as the queries return it. -/
structure TaskRow where
  id : String
  status : Int
  context : Option String
  result : Option String
  checkAt : Int
  step : Int
  deriving DecidableEq

/-- `stage_service::v1::Status::Computing` -/
def computing : Int := 2

/-- `get_incomplete_stage_tasks`, over the rows in the order the database
    comes by them. -/
def getIncompleteStageTasks (table : List TaskRow) (status checkAt : Int)
    (limit : Nat) : List TaskRow :=
  (table.filter fun row => row.status = status && row.checkAt < checkAt).take
    limit

/-! ## The task manager -/

/-- The queue, the row that waits for a permit, the permits of the semaphore,
    the runs that hold one, and the rows passed to `run_stage_task` so far. -/
structure Manager where
  queue : Chan TaskRow 256
  waiting : Option TaskRow
  permits : Nat
  running : List TaskRow
  passed : List TaskRow

/-- A step of the task manager. -/
inductive ManagerAction where
  /-- `task_receiver.recv()` -/
  | recv
  /-- `acquire_owned()`, and the run is spawned -/
  | acquire
  /-- the `i`-th run returns, and its permit is dropped -/
  | finish (i : Nat)
  /-- `generate_proof` sends a row -/
  | send (row : TaskRow)

namespace Manager

/-- `TaskManager::new` -/
def new (maxConcurrentTasks : Option Nat) : Manager where
  queue := .empty
  waiting := none
  permits := maxConcurrentTasks.getD 1
  running := []
  passed := []

/-- `load_incomplete_tasks_from_db`; the receiver is there, so that the queue
    is never closed. -/
def loadIncompleteTasksFromDb (table : List TaskRow) (timestamp : Int)
    (m : Manager) : Manager :=
  let tasks := getIncompleteStageTasks table computing timestamp 2147483647
  { m with queue := m.queue.sendUntilFull tasks }

/-- `StageServiceSVC::new`, as far as the queue is concerned. -/
def serviceNew (table : List TaskRow) (timestamp : Int)
    (maxConcurrentTasks : Option Nat) : Manager :=
  (new maxConcurrentTasks).loadIncompleteTasksFromDb table timestamp

/-- `process_tasks`, and what goes on beside it. -/
def step (m : Manager) : ManagerAction → Option Manager
  | .recv =>
      match m.waiting with
      | some _ => none
      | none =>
          m.queue.recv.map fun (row, queue) =>
            { m with queue := queue, waiting := some row }
  | .acquire =>
      match m.waiting, m.permits with
      | some row, permits + 1 =>
          some
            { m with
              waiting := none
              permits := permits
              running := m.running ++ [row]
              passed := m.passed ++ [row] }
      | _, _ => none
  | .finish i =>
      if i < m.running.length then
        some
          { m with
            running := m.running.eraseIdx i
            permits := m.permits + 1 }
      else none
  | .send row =>
      (m.queue.trySend row).map fun queue => { m with queue := queue }

/-- The rows that `generate_proof` sent in a run. -/
def sent (acts : List ManagerAction) : List TaskRow :=
  acts.filterMap fun a =>
    match a with
    | .send row => some row
    | _ => none

/-- All the rows the manager has been given, in order. -/
def seen (m : Manager) : List TaskRow :=
  m.passed ++ m.waiting.toList ++ m.queue.items

/-! ## Steps -/

/-- One step of the manager. -/
inductive Moves (m : Manager) : ManagerAction → Manager → Prop where
  | recv (row : TaskRow) (queue : Chan TaskRow 256) : m.waiting = none →
      m.queue.items = row :: queue.items →
      Moves m .recv { m with queue := queue, waiting := some row }
  | acquire (row : TaskRow) (permits : Nat) : m.waiting = some row →
      m.permits = permits + 1 →
      Moves m .acquire
        { m with
          waiting := none
          permits := permits
          running := m.running ++ [row]
          passed := m.passed ++ [row] }
  | finish (i : Nat) : i < m.running.length →
      Moves m (.finish i)
        { m with
          running := m.running.eraseIdx i
          permits := m.permits + 1 }
  | send (row : TaskRow) (queue : Chan TaskRow 256) :
      queue.items = m.queue.items ++ [row] →
      Moves m (.send row) { m with queue := queue }

theorem step_moves {m m' : Manager} {a : ManagerAction}
    (h : m.step a = some m') : Moves m a m' := by
  cases a with
  | recv =>
      rw [step] at h
      cases hwait : m.waiting with
      | some row =>
          rw [hwait] at h
          exact nomatch h
      | none =>
          rw [hwait] at h
          obtain ⟨⟨row, queue⟩, hq, rfl⟩ := Option.map_eq_some_iff.mp h
          exact .recv row queue hwait (Chan.recv_eq_some.mp hq)
  | acquire =>
      rw [step] at h
      split at h
      case h_1 row permits hwait hpermits =>
        cases h
        exact .acquire row permits hwait hpermits
      case h_2 => exact nomatch h
  | finish i =>
      rw [step] at h
      split at h
      case isTrue hi =>
        cases h
        exact .finish i hi
      case isFalse => exact nomatch h
  | send row =>
      rw [step] at h
      obtain ⟨queue, hq, rfl⟩ := Option.map_eq_some_iff.mp h
      exact .send row queue (Chan.trySend_eq_some.mp hq).2

/-- No row is lost, doubled or overtaken. -/
theorem Moves.seen {m m' : Manager} {a : ManagerAction} (h : Moves m a m') :
    m'.seen = m.seen ++ sent [a] := by
  cases h with
  | recv row queue hwait hq =>
      simp [Manager.seen, sent, hwait, hq]
  | acquire row permits hwait _ =>
      simp [Manager.seen, sent, hwait]
  | finish i _ => simp [Manager.seen, sent]
  | send row queue hq =>
      simp [Manager.seen, sent, hq]

/-- Permits are only lent. -/
theorem Moves.permits {m m' : Manager} {a : ManagerAction} (h : Moves m a m') :
    m'.permits + m'.running.length = m.permits + m.running.length := by
  cases h with
  | recv row queue _ _ => rfl
  | acquire row permits _ hpermits =>
      show permits + (m.running ++ [row]).length = _
      rw [List.length_append, List.length_singleton, hpermits]
      omega
  | finish i hi =>
      show m.permits + 1 + (m.running.eraseIdx i).length = _
      rw [List.length_eraseIdx_of_lt hi]
      omega
  | send row queue _ => rfl

/-- The rows given to the manager so far. -/
structure Account (start : Manager) (acts : List ManagerAction)
    (m : Manager) : Prop where
  seen : m.seen = start.seen ++ sent acts
  permits : m.permits + m.running.length
    = start.permits + start.running.length

theorem Account.step {start m m' : Manager} {acts : List ManagerAction}
    {a : ManagerAction} (h : Account start acts m)
    (hs : m.step a = some m') : Account start (acts ++ [a]) m' where
  seen := by
    rw [(step_moves hs).seen, h.seen, List.append_assoc, sent, sent, sent,
      List.filterMap_append]
  permits := (step_moves hs).permits.trans h.permits

/-- **CONSERVED**: over every run the rows passed on, the one that waits and
    the ones in the queue are the ones loaded and sent, in that order. -/
theorem conserved {start m : Manager} {acts : List ManagerAction}
    (h : run step start acts = some m) : Account start acts m := by
  have hstart : Account start [] start := ⟨(List.append_nil _).symm, rfl⟩
  exact run_trace (fun _ _ _ _ hi hs => hi.step hs) hstart h

/-! ## What is queued is passed on -/

/-- The row that waits gets a permit, after a run has returned if need be. -/
theorem acquires {m : Manager} {row : TaskRow}
    (hpos : 0 < m.permits + m.running.length) (hwait : m.waiting = some row) :
    ∃ acts m', run step m acts = some m' ∧ sent acts = [] ∧
      m'.waiting = none ∧ m'.queue = m.queue := by
  cases hpermits : m.permits with
  | succ permits =>
      have hstep : m.step .acquire = some
          { m with
            waiting := none
            permits := permits
            running := m.running ++ [row]
            passed := m.passed ++ [row] } := by
        rw [step, hwait, hpermits]
      exact ⟨[.acquire], _, run_cons.mpr ⟨_, hstep, rfl⟩, rfl, rfl, rfl⟩
  | zero =>
      have hlen : 0 < m.running.length := by omega
      have hstep : step
          { m with
            running := m.running.eraseIdx 0
            permits := m.permits + 1 } .acquire = some
          { m with
            waiting := none
            permits := m.permits
            running := m.running.eraseIdx 0 ++ [row]
            passed := m.passed ++ [row] } := by
        rw [step, hwait]
      exact ⟨[.finish 0, .acquire], _,
        run_cons.mpr ⟨_, if_pos hlen, run_cons.mpr ⟨_, hstep, rfl⟩⟩,
        rfl, rfl, rfl⟩

/-- **PASSED ON**: with a permit in the semaphore, every row the manager has
    been given can still be passed to `run_stage_task`. -/
theorem drains {m : Manager} (hpos : 0 < m.permits + m.running.length) :
    ∃ acts m', run step m acts = some m' ∧ sent acts = [] ∧
      m'.passed = m.seen := by
  have idle : ∀ items : List TaskRow, ∀ m : Manager,
      0 < m.permits + m.running.length → m.queue.items = items →
      m.waiting = none →
      ∃ acts m', run step m acts = some m' ∧ sent acts = [] ∧
        m'.passed = m.seen := by
    intro items
    induction items with
    | nil =>
        intro m _ hitems hwait
        exact ⟨[], m, rfl, rfl, by simp [seen, hitems, hwait]⟩
    | cons row items ih =>
        intro m hpos hitems hwait
        have hbound : items.length ≤ 256 := by
          have hle := m.queue.bounded
          rw [hitems, List.length_cons] at hle
          omega
        have hrecv : m.step .recv
            = some { m with queue := ⟨items, hbound⟩, waiting := some row } := by
          have hq : m.queue.recv = some (row, ⟨items, hbound⟩) :=
            Chan.recv_eq_some.mpr hitems
          rw [step, hwait, hq]
          rfl
        obtain ⟨acts₁, m₁, hrun₁, hsent₁, hwait₁, hqueue₁⟩ :=
          acquires (m := { m with
            queue := ⟨items, hbound⟩, waiting := some row }) hpos rfl
        have hacc := conserved (run_cons.mpr ⟨_, hrecv, hrun₁⟩)
        obtain ⟨acts₂, m₂, hrun₂, hsent₂, hpassed⟩ :=
          ih m₁ (by rw [hacc.permits]; exact hpos) (by rw [hqueue₁]) hwait₁
        refine ⟨.recv :: acts₁ ++ acts₂, m₂, run_append.mpr
          ⟨m₁, run_cons.mpr ⟨_, hrecv, hrun₁⟩, hrun₂⟩, ?_, ?_⟩
        · have hnone : sent (.recv :: acts₁) = sent acts₁ := rfl
          rw [sent, List.filterMap_append, ← sent, ← sent, hnone, hsent₁,
            hsent₂]
          rfl
        · have hnone : sent (.recv :: acts₁) = sent acts₁ := rfl
          rw [hpassed, hacc.seen, hnone, hsent₁, List.append_nil]
  cases hwait : m.waiting with
  | none => exact idle _ m hpos rfl hwait
  | some row =>
      obtain ⟨acts₁, m₁, hrun₁, hsent₁, hwait₁, hqueue₁⟩ :=
        acquires hpos hwait
      have hacc := conserved hrun₁
      obtain ⟨acts₂, m₂, hrun₂, hsent₂, hpassed⟩ :=
        idle _ m₁ (by rw [hacc.permits]; exact hpos) rfl hwait₁
      refine ⟨acts₁ ++ acts₂, m₂, run_append.mpr ⟨m₁, hrun₁, hrun₂⟩, ?_, ?_⟩
      · rw [sent, List.filterMap_append, ← sent, ← sent, hsent₁, hsent₂]
        rfl
      · rw [hpassed, hacc.seen, hsent₁, List.append_nil]

end Manager

/-! ## What is loaded -/

/-- The rows the query of the startup asks for. -/
def loadable (table : List TaskRow) (timestamp : Int) : List TaskRow :=
  table.filter fun row => row.status = computing && row.checkAt < timestamp

theorem mem_loadable {table : List TaskRow} {timestamp : Int} {row : TaskRow} :
    row ∈ loadable table timestamp ↔
      row ∈ table ∧ row.status = computing ∧ row.checkAt < timestamp := by
  rw [loadable, List.mem_filter, Bool.and_eq_true, decide_eq_true_eq,
    decide_eq_true_eq]

theorem items_serviceNew (table : List TaskRow) (timestamp : Int)
    (max : Option Nat) :
    (Manager.serviceNew table timestamp max).queue.items
      = (loadable table timestamp).take 256 := by
  show ((Chan.empty : Chan TaskRow 256).sendUntilFull _).items = _
  rw [Chan.items_sendUntilFull, Chan.items_empty, List.nil_append,
    List.length_nil, getIncompleteStageTasks, List.take_take]
  rfl

/-- The first rows of a list are all of them just when they fit. -/
theorem forall_mem_take {l : List TaskRow} (hnd : l.Nodup) (n : Nat) :
    (∀ row ∈ l, row ∈ l.take n) ↔ l.length ≤ n := by
  constructor
  · intro hall
    have hle := (List.subperm_of_subset hnd hall).length_le
    rw [List.length_take] at hle
    omega
  · intro hle row hrow
    rwa [List.take_of_length_le hle]

/-- **STARTUP**: the queue holds, in the order of the query and each once, the
    first 256 of the rows that are `Computing` with a `check_at` before the
    startup.  These are all the `Computing` rows just when each of them has
    such a `check_at` and they are at most 256.  What is queued is passed to
    `run_stage_task` in that order, each once, and if the semaphore has a
    permit all of it can be. -/
theorem startup_loads (table : List TaskRow)
    (hkey : (table.map (·.id)).Nodup) (timestamp : Int) (max : Option Nat) :
    let m := Manager.serviceNew table timestamp max
    m.queue.items = (loadable table timestamp).take 256 ∧
    (m.queue.items.map (·.id)).Nodup ∧
    ((∀ row ∈ table, row.status = computing → row ∈ m.queue.items) ↔
      (∀ row ∈ table, row.status = computing → row.checkAt < timestamp) ∧
        (loadable table timestamp).length ≤ 256) ∧
    (∀ acts m', run Manager.step m acts = some m' →
      m'.passed ++ m'.waiting.toList ++ m'.queue.items
        = m.queue.items ++ Manager.sent acts) ∧
    (0 < max.getD 1 → ∀ acts m', run Manager.step m acts = some m' →
      ∃ acts' m'', run Manager.step m' acts' = some m'' ∧
        Manager.sent acts' = [] ∧
        m''.passed = m.queue.items ++ Manager.sent acts) := by
  intro m
  have hitems : m.queue.items = (loadable table timestamp).take 256 :=
    items_serviceNew table timestamp max
  have hnd : (loadable table timestamp).Nodup :=
    (List.Nodup.of_map _ hkey).filter _
  have hseen : m.seen = m.queue.items := rfl
  refine ⟨hitems, ?_, ?_, ?_, ?_⟩
  · rw [hitems]
    exact hkey.sublist
      (((List.take_sublist _ _).trans List.filter_sublist).map _)
  · rw [hitems, ← forall_mem_take hnd]
    constructor
    · intro hall
      refine ⟨fun row hrow hst => ?_, fun row hrow => ?_⟩
      · exact (mem_loadable.mp
          (List.mem_of_mem_take (hall row hrow hst))).2.2
      · obtain ⟨hmem, hst, _⟩ := mem_loadable.mp hrow
        exact hall row hmem hst
    · rintro ⟨hpast, hall⟩ row hrow hst
      exact hall row (mem_loadable.mpr ⟨hrow, hst, hpast row hrow hst⟩)
  · intro acts m' hrun
    have hacc := (Manager.conserved hrun).seen
    rwa [hseen] at hacc
  · intro hpos acts m' hrun
    have hacc := Manager.conserved hrun
    obtain ⟨acts', m'', hrun', hsent, hpassed⟩ :=
      Manager.drains (m := m') (by rw [hacc.permits]; exact hpos)
    refine ⟨acts', m'', hrun', hsent, ?_⟩
    rw [hpassed, hacc.seen, hseen]

/-- A row that was never run, with an id of its own. -/
def rowAt (k : Nat) : TaskRow where
  id := String.ofList (List.replicate k 'a')
  status := computing
  context := none
  result := none
  checkAt := 0
  step := 0

theorem rowAt_id {j k : Nat} (h : (rowAt j).id = (rowAt k).id) : j = k := by
  have hlist := congrArg (fun s => s.toList.length) h
  simpa [rowAt] using hlist

/-- One such row is loaded. -/
theorem startup_loads_one :
    let m := Manager.serviceNew [rowAt 1] 1 none
    m.queue.items = [rowAt 1] ∧
      ∀ row ∈ [rowAt 1], row.status = computing → row ∈ m.queue.items := by
  intro m
  obtain ⟨hitems, _, hall, _⟩ := startup_loads [rowAt 1]
    (List.nodup_singleton _) 1 none
  refine ⟨hitems.trans rfl, hall.mpr ⟨?_, ?_⟩⟩
  · intro row hrow _
    rw [List.mem_singleton.mp hrow]
    decide
  · decide

/-- With 257 such rows the last one is not. -/
theorem startup_drops :
    let table := (List.range 257).map rowAt
    (table.map (·.id)).Nodup ∧ rowAt 256 ∈ table ∧
      (rowAt 256).status = computing ∧ (rowAt 256).checkAt < 1 ∧
      rowAt 256 ∉ (Manager.serviceNew table 1 none).queue.items := by
  intro table
  refine ⟨?_, ?_, rfl, by decide, ?_⟩
  · rw [List.map_map]
    exact List.nodup_range.map fun j k h => rowAt_id h
  · exact List.mem_map.mpr ⟨256, List.mem_range.mpr (by omega), rfl⟩
  · rw [items_serviceNew]
    intro hmem
    have hall : loadable table 1 = table :=
      List.filter_eq_self.mpr fun row hrow => by
        obtain ⟨k, _, rfl⟩ := List.mem_map.mp hrow
        rfl
    rw [hall, ← List.map_take, List.take_range] at hmem
    obtain ⟨k, hk, hrow⟩ := List.mem_map.mp hmem
    have hlt := List.mem_range.mp hk
    have heq := rowAt_id (congrArg TaskRow.id hrow)
    omega

end ZkmProver
