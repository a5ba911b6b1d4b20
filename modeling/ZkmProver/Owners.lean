import ZkmProver.Worker

/-! # Owners — workers that share a row of `stage_task`

    `Worker` follows one worker whose calls on the row all succeed, and takes
    the two calls behind the loop as one step.  Here a step makes at most one
    call on the row and the call may fail, so that the workers of several
    stage services can be interleaved between their calls; `Ctl.sharedRow` ties
    the two models together.

    `update_stage_task_check_at` is a compare-and-set on `check_at`.  A worker
    keeps the value it expects in its own variable, and `Place.Tracks` says
    that the variable is right.  Inside the loop the two stay in step
    (`Tracks.act`): the variable is only moved when the call affected a row.
    The first update moves it in any case. -/

namespace ZkmProver

open Forest Keyed Machine

variable {β ι : Type}

/-! ## Calls on the row -/

/-- The two statements of `run_stage_task` on its row. -/
inductive RowCall where
  /-- `update_stage_task` -/
  | update (status : Status) (result : String)
  /-- `update_stage_task_check_at` -/
  | checkAt (old new : Nat) (step : Step)

/-- `rows_affected`; a row with the task's id exists. -/
def RowCall.rowsAffected (row : StageRow) : RowCall → Nat
  | .update _ _ => 1
  | .checkAt old _ _ => if row.checkAt = old then 1 else 0

/-- What a statement makes of the row. -/
def RowCall.run (row : StageRow) : RowCall → StageRow
  | .update status result => row.updateStageTask status result
  | .checkAt old new step => row.updateCheckAt old new step

/-! ## One worker -/

/-- The loop variables of a worker, without the row. -/
structure Copy (β : Type) where
  world : World β
  taskCheckAt : Nat
  checkAt : Nat

/-- Where a worker is in `run_stage_task`. -/
inductive Place (β : Type) where
  /-- it has been passed its copy of the row -/
  | queued (task : StageTask β)
  /-- a node has the single-node request -/
  | single (stage : Stage β) (checkAt : Nat)
  /-- at the top of the loop -/
  | looping (c : Copy β)
  /-- at `select!`, with the world after the hand-outs -/
  | waiting (c : Copy β) (w : World β)
  /-- behind it -/
  | received (c : Copy β) (w : World β)
  /-- about to write an error status -/
  | failing (status : Status)
  /-- about to record the duration -/
  | closing (stage : Stage β) (result : Option String) (checkAt : Nat)
  /-- about to write SUCCESS -/
  | storing (stage : Stage β) (result : Option String) (duration : Nat)
  | returned
  | panicked

/-- One step of a worker, with the answers of the environment. -/
inductive Deed (β : Type) where
  | start (clock : Nat → Nat) (disk : Disk β) (file : Option β)
  | reply (r : SingleReply β) (io : Bool)
  | handOut (clock : Nat → Nat) (disk : Disk β)
  | receive (now : Nat) (event : Event β)
  | dispatch (now : Nat) (disk : Disk β) (file : Option β)
  | close (duration : Nat)
  | write

/-- What a step comes to: another place, or a call on the row and the place
    for each answer to it (`none` is an error). -/
inductive Outcome (β : Type) where
  | goto (p : Place β)
  | ask (call : RowCall) (next : Option Nat → Place β)

/-- A call whose error is unwrapped. -/
def Outcome.unwrap (call : RowCall) (p : Place β) : Outcome β :=
  .ask call fun answer => if answer.isSome then p else .panicked

section

variable [Blob β]

/-- `run_stage_task` up to the first update.  For a single node that is in
    the client, which passes an error on. -/
def Place.start (feat : Feature) (task : StageTask β) (clock : Nat → Nat)
    (disk : Disk β) (file : Option β) : Outcome β :=
  match task.context with
  | .absent => .goto .returned
  | .undecodable => .ask (.update .InternalError "") fun _ => .returned
  | .request g =>
      if g.singleNode then
        if task.step ≠ .Init then .goto .returned
        else
          .ask (.checkAt task.checkAt (clock 0) .Prove) fun answer =>
            if answer.isSome then .single (Stage.new g) (clock 0)
            else .failing .InternalError
      else
        match (World.start g file).step feat (.dispatch disk) with
        | none => .goto .panicked
        | some w =>
            -- `let _ =`: both an error and a missed row are ignored
            .ask (.checkAt task.checkAt (clock 0) w.stage.step) fun _ =>
              .looping ⟨w, clock 0, clock 1⟩

/-- The single-node branch behind the client. -/
def Place.replied (stage : Stage β) (checkAt : Nat) (r : SingleReply β)
    (io : Bool) : Place β :=
  let t := r.fill stage.getSingleNodeTask
  match stage.onSingleNodeTask io t with
  | none => .panicked
  | some (stage, _) =>
      if stage.isError then .failing .InternalError
      else
        let result :=
          if stage.generateTask.targetStep = .Snark then
            Blob.fromUtf8 t.output
          else some ""
        .closing stage result checkAt

/-- After the loop; `file` is what is at `snark_path`. -/
def Copy.leave (c : Copy β) (w : World β) (file : Option β) : Place β :=
  if w.stage.isError then .failing (errorStatus w.stage.step)
  else
    let result :=
      if w.stage.generateTask.targetStep = .Snark then
        file.map Blob.fromUtf8
      else some (some "")
    match result with
    | none => .panicked
    | some result => .closing w.stage result c.taskCheckAt

/-- The rest of a turn once something was received. -/
def Copy.conclude (feat : Feature) (now : Nat) (disk : Disk β)
    (file : Option β) (c : Copy β) (w : World β) : Outcome β :=
  if w.stage.isSuccess || w.stage.isError then .goto (c.leave w file)
  else
    match w.step feat (.dispatch disk) with
    | none => .goto .panicked
    | some w' =>
        if c.checkAt + 10 < now ∨ c.world.stage.step ≠ w'.stage.step then
          .ask (.checkAt c.taskCheckAt now w'.stage.step) fun answer =>
            .looping
              { world := w'
                taskCheckAt := if answer = some 1 then now else c.taskCheckAt
                checkAt := now }
        else .goto (.looping { c with world := w' })

/-- One step of a worker. -/
def Place.act (feat : Feature) : Place β → Deed β → Option (Outcome β)
  | .queued task, .start clock disk file =>
      some (Place.start feat task clock disk file)
  | .single stage checkAt, .reply r io =>
      some (.goto (Place.replied stage checkAt r io))
  | .looping c, .handOut clock disk =>
      match handOuts feat clock disk c.world with
      | none => some (.goto .panicked)
      | some w => some (.goto (.waiting c w))
  | .waiting c w, .receive now event =>
      match ZkmProver.receive feat now event w with
      | none => some (.goto .panicked)
      | some w' => some (.goto (.received c w'))
  | .received c w, .dispatch now disk file =>
      some (c.conclude feat now disk file w)
  | .failing status, .write => some (.unwrap (.update status "") .returned)
  | .closing stage result checkAt, .close duration =>
      some (.unwrap (.checkAt checkAt duration stage.step)
        (.storing stage result duration))
  | .storing _ none _, .write => some (.goto .panicked)
  | .storing _ (some result) _, .write =>
      some (.unwrap (.update .Success result) .returned)
  | _, _ => none

/-! ## Several workers -/

end

/-- The row and the workers on it. -/
structure SharedRow (β ι : Type) where
  row : StageRow
  place : ι → Place β

/-- A step of one worker; `ok` says whether its call, if it makes one, comes
    back without an error. -/
structure Move (β ι : Type) where
  who : ι
  deed : Deed β
  ok : Bool

section

variable [Blob β] [DecidableEq ι]

/-- A step of one worker; the statement that it makes is carried out on the row,
    or fails and leaves it. -/
def SharedRow.step (feat : Feature) (s : SharedRow β ι) (a : Move β ι) :
    Option (SharedRow β ι) :=
  match (s.place a.who).act feat a.deed with
  | none => none
  | some (.goto p) => some { s with place := Function.update s.place a.who p }
  | some (.ask call next) =>
      if a.ok then
        some
          { row := call.run s.row
            place := Function.update s.place a.who
              (next (some (call.rowsAffected s.row))) }
      else
        some { s with place := Function.update s.place a.who (next none) }

/-- Every worker has been passed its copy of the row. -/
def SharedRow.start (row : StageRow) (task : StageTask β) : SharedRow β ι :=
  ⟨row, fun _ => .queued task⟩

omit [DecidableEq ι] in
/-- The call a step makes on the row. -/
def SharedRow.call (feat : Feature) (s : SharedRow β ι) (a : Move β ι) :
    Option RowCall :=
  match (s.place a.who).act feat a.deed with
  | some (.ask call _) => some call
  | _ => none

omit [DecidableEq ι] in
/-- A compare-and-set that matches no row. -/
def SharedRow.misses (feat : Feature) (s : SharedRow β ι) (a : Move β ι) : Bool :=
  match s.call feat a with
  | some (.checkAt old _ _) => a.ok && s.row.checkAt != old
  | _ => false

omit [DecidableEq ι] in
/-- A call that writes the row. -/
def SharedRow.writes (feat : Feature) (s : SharedRow β ι) (a : Move β ι) : Bool :=
  match s.call feat a with
  | some call => a.ok && call.rowsAffected s.row == 1
  | none => false

omit [Blob β] [DecidableEq ι] in
/-- The step hands out tasks, or the worker has its single-node request
    out. -/
def SharedRow.handsOut (s : SharedRow β ι) (a : Move β ι) : Bool :=
  match s.place a.who, a.deed with
  | .looping _, .handOut _ _ => true
  | .single _ _, .reply _ _ => true
  | _, _ => false

/-- The row has one owner in a run: at most one worker hands out tasks, and
    none writes the row after one of its compare-and-sets has matched no
    row. -/
structure Owned (feat : Feature) (s : SharedRow β ι) (as : List (Move β ι)) :
    Prop where
  one   : ∀ i j,
    Happens (SharedRow.step feat) (fun s a => a.who = i ∧ s.handsOut a = true)
      s as →
    Happens (SharedRow.step feat) (fun s a => a.who = j ∧ s.handsOut a = true)
      s as → i = j
  stops : ∀ i, ¬ Follows (SharedRow.step feat)
    (fun s a => a.who = i ∧ s.misses feat a = true)
    (fun s a => a.who = i ∧ s.writes feat a = true) s as

omit [Blob β] in
/-- The worker has not begun. -/
def Place.isQueued : Place β → Bool
  | .queued _ => true
  | _ => false

omit [DecidableEq ι] in
/-- A first update finds the row as its worker's copy has it, with `n` in
    `check_at`, and comes back without an error; and no update puts `n` into
    `check_at` again. -/
def SharedRow.clean (feat : Feature) (n : Nat) (s : SharedRow β ι) (a : Move β ι) :
    Bool :=
  match s.call feat a with
  | some (.checkAt old new _) =>
      if (s.place a.who).isQueued then
        a.ok && s.row.checkAt == old && new != n
      else !a.ok || new != n
  | _ => true

/-- The variable of a worker holds the row's `check_at`; once the duration is
    recorded, the step is recorded with it. -/
def Place.Tracks (row : StageRow) : Place β → Prop
  | .looping c => row.checkAt = c.taskCheckAt
  | .waiting c _ => row.checkAt = c.taskCheckAt
  | .received c _ => row.checkAt = c.taskCheckAt
  | .single _ checkAt => row.checkAt = checkAt
  | .closing _ _ checkAt => row.checkAt = checkAt
  | .storing stage _ duration => row.checkAt = duration ∧ row.step = stage.step
  | .queued _ => False
  | _ => True

/-- Behind the first update the worker tracks the row, and no compare-and-set
    of the run misses it. -/
structure Tracked (feat : Feature) (s : SharedRow β Unit)
    (as : List (Move β Unit)) : Prop where
  tracks : ∀ pre t, pre ≠ [] → pre <+: as →
    run (SharedRow.step feat) s pre = some t → (t.place ()).Tracks t.row
  found  : Along (SharedRow.step feat) (fun t a => t.misses feat a = false) s as

end

/-! ## A small run

    A composite proof of one segment. -/

/-- A composite proof from the first step on, as it is loaded. -/
def rowTask : StageTask (List UInt8) where
  context := .request
    { aggRequest with compositeProof := true, maxProverNum := 1 }
  checkAt := 0
  step := .Init

/-- The first update of a worker, at the time `now`. -/
def claimRow (i : ι) (now : Nat) (ok : Bool) : Move (List UInt8) ι :=
  ⟨i, .start (fun _ => now) .full none, ok⟩

/-- A turn of the loop. -/
def turnRow (i : ι) (now : Nat) (event : Event (List UInt8)) :
    List (Move (List UInt8) ι) :=
  [⟨i, .handOut (fun k => k) .full, true⟩, ⟨i, .receive now event, true⟩,
    ⟨i, .dispatch now .full none, true⟩]

/-- The segment is split off and proved, and the proof stored. -/
def rowRun (i : ι) (ok : Bool) : List (Move (List UInt8) ι) :=
  claimRow i 5 ok ::
    (turnRow i 6 (.split 0 ⟨.Success, "a", 10, 1⟩)
      ++ turnRow i 7 (.prove 0 ⟨.Success, "a", [20]⟩)
      ++ turnRow i 8 .tick ++ [⟨i, .close 900, true⟩, ⟨i, .write, true⟩])

/-- A receipt to be wrapped. -/
def receiptTask : StageTask (List UInt8) where
  context := .request
    { aggRequest with fromStep := .Agg, targetStep := .Snark, maxProverNum := 1 }
  checkAt := 0
  step := .Init

/-- The second worker cannot read the receipt and panics before its first
    update; the first one wraps it. -/
def readableRun : List (Move (List UInt8) Bool) :=
  [⟨true, .start (fun _ => 5) .receipt none, true⟩,
    ⟨false, .start (fun _ => 6) .full none, true⟩,
    ⟨true, .handOut (fun k => k) .full, true⟩,
    ⟨true, .receive 7 (.snark 0 ⟨.Success, "n", [8]⟩ true), true⟩,
    ⟨true, .dispatch 7 .full (some [8]), true⟩, ⟨true, .close 900, true⟩,
    ⟨true, .write, true⟩]

/-- A second worker claims the row in vain, and its split fails while the
    first worker is at work. -/
def contestedRun : List (Move (List UInt8) Bool) :=
  [claimRow true 5 true, claimRow false 6 true,
      ⟨true, .handOut (fun k => k) .full, true⟩]
    ++ turnRow false 7 (.split 0 ⟨.Failed, "a", 0, 0⟩)
    ++ [⟨false, .write, true⟩]

section

variable [Blob β] [DecidableEq ι]

/-! ## What a worker knows of its row -/

variable {feat : Feature} {s s' : SharedRow β ι} {a : Move β ι} {p : Place β}
  {row : StageRow}

/-- What a worker that tracks its row can do next: its call finds the row,
    and it tracks the row whether the call errs or not. -/
def Outcome.Tracks (row : StageRow) : Outcome β → Prop
  | .goto p => p.Tracks row
  | .ask call next => call.rowsAffected row = 1 ∧
      (next none).Tracks row ∧ (next (some 1)).Tracks (call.run row)

omit [Blob β] [DecidableEq ι] in
/-- A compare-and-set with the right value affects one row. -/
theorem rowsAffected_checkAt {old new : Nat} {step : Step}
    (h : row.checkAt = old) :
    (RowCall.checkAt old new step).rowsAffected row = 1 := if_pos h

omit [Blob β] [DecidableEq ι] in
/-- It sets both columns. -/
theorem run_checkAt {old new : Nat} {step : Step} (h : row.checkAt = old) :
    (RowCall.checkAt old new step).run row
      = { row with checkAt := new, step := step } := if_pos h

omit [DecidableEq ι] in
/-- The reply of a single node leaves the copy right. -/
theorem replied_tracks {stage : Stage β} {checkAt : Nat} {r : SingleReply β}
    {io : Bool} (h : row.checkAt = checkAt) :
    (Place.replied stage checkAt r io).Tracks row := by
  rw [Place.replied]
  dsimp only
  split
  · trivial
  · split
    · trivial
    · exact h

omit [DecidableEq ι] in
/-- So does the end of the loop. -/
theorem leave_tracks {c : Copy β} {w : World β} {file : Option β}
    (h : row.checkAt = c.taskCheckAt) : (c.leave w file).Tracks row := by
  rw [Copy.leave]
  split
  · trivial
  · dsimp only
    split
    · trivial
    · exact h

omit [DecidableEq ι] in
/-- So does a turn of the loop. -/
theorem conclude_tracks {c : Copy β} {w : World β} {now : Nat}
    {disk : Disk β} {file : Option β} (h : row.checkAt = c.taskCheckAt) :
    (c.conclude feat now disk file w).Tracks row := by
  rw [Copy.conclude]
  split
  · exact leave_tracks h
  · split
    · trivial
    · split
      · -- the variable moves with the row or not at all
        refine ⟨rowsAffected_checkAt h, h, ?_⟩
        rw [run_checkAt h]
        rfl
      · exact h

omit [DecidableEq ι] in
/-- **TRACKING**: a worker that tracks its row goes on tracking it. -/
theorem Place.Tracks.act {d : Deed β} {o : Outcome β} (h : p.Tracks row)
    (ha : p.act feat d = some o) : o.Tracks row := by
  cases p with
  | queued task => exact h.elim
  | single stage checkAt =>
      cases d with
      | reply r io => cases ha; exact replied_tracks h
      | _ => exact nomatch ha
  | looping c =>
      cases d with
      | handOut clock disk =>
          rw [Place.act] at ha
          split at ha
          · cases ha
            trivial
          · cases ha
            exact h
      | _ => exact nomatch ha
  | waiting c w =>
      cases d with
      | receive now event =>
          rw [Place.act] at ha
          split at ha
          · cases ha
            trivial
          · cases ha
            exact h
      | _ => exact nomatch ha
  | received c w =>
      cases d with
      | dispatch now disk file => cases ha; exact conclude_tracks h
      | _ => exact nomatch ha
  | failing status =>
      cases d with
      | write => cases ha; exact ⟨rfl, trivial, trivial⟩
      | _ => exact nomatch ha
  | closing stage result checkAt =>
      cases d with
      | close duration =>
          cases ha
          -- the copy agrees with the row, so the statement finds it
          refine ⟨rowsAffected_checkAt h, trivial, ?_⟩
          rw [run_checkAt h]
          exact ⟨rfl, rfl⟩
      | _ => exact nomatch ha
  | storing stage result duration =>
      cases result with
      | none =>
          cases d with
          | write => cases ha; trivial
          | _ => exact nomatch ha
      | some result =>
          cases d with
          | write => cases ha; exact ⟨rfl, trivial, trivial⟩
          | _ => exact nomatch ha
  | returned => cases d <;> exact nomatch ha
  | panicked => cases d <;> exact nomatch ha

/-! ## One worker and nobody else -/

/-- The three things a step can come to. -/
theorem SharedRow.step_cases (h : s.step feat a = some s') :
    (∃ p, (s.place a.who).act feat a.deed = some (.goto p) ∧
      s' = { s with place := Function.update s.place a.who p }) ∨
    (∃ call next, (s.place a.who).act feat a.deed = some (.ask call next) ∧
      a.ok = true ∧
      s' =
        { row := call.run s.row
          place := Function.update s.place a.who
            (next (some (call.rowsAffected s.row))) }) ∨
    (∃ call next, (s.place a.who).act feat a.deed = some (.ask call next) ∧
      a.ok = false ∧
      s' = { s with place := Function.update s.place a.who (next none) }) := by
  rw [SharedRow.step] at h
  split at h
  case h_1 => exact nomatch h
  case h_2 p hp => exact Or.inl ⟨p, hp, (Option.some.inj h).symm⟩
  case h_3 call next hask =>
    split at h
    case isTrue hok =>
      exact Or.inr (Or.inl ⟨call, next, hask, hok, (Option.some.inj h).symm⟩)
    case isFalse hok =>
      rw [Bool.not_eq_true] at hok
      exact Or.inr (Or.inr ⟨call, next, hask, hok, (Option.some.inj h).symm⟩)

/-- A worker by itself goes on tracking its row. -/
theorem SharedRow.Tracks.step (h : (s.place a.who).Tracks s.row)
    (hs : s.step feat a = some s') : (s'.place a.who).Tracks s'.row := by
  rcases SharedRow.step_cases hs with ⟨p, hp, rfl⟩ | ⟨call, next, hask, _, rfl⟩ |
    ⟨call, next, hask, _, rfl⟩
  · dsimp only
    rw [Function.update_self]
    exact h.act hp
  · obtain ⟨hrows, _, hok⟩ := h.act hask
    dsimp only
    rw [Function.update_self, hrows]
    exact hok
  · obtain ⟨_, herr, _⟩ := h.act hask
    dsimp only
    rw [Function.update_self]
    exact herr

omit [DecidableEq ι] in
/-- A worker that tracks its row does not miss it. -/
theorem SharedRow.Tracks.found (h : (s.place a.who).Tracks s.row) :
    s.misses feat a = false := by
  rw [SharedRow.misses]
  split
  case h_1 old new step hcall =>
    rw [SharedRow.call] at hcall
    split at hcall
    case h_1 call next hask =>
      cases hcall
      have hrows := (h.act hask).1
      rw [RowCall.rowsAffected] at hrows
      split at hrows
      case isTrue heq => simp [heq]
      case isFalse => exact nomatch hrows
    case h_2 => exact nomatch hcall
  case h_2 => rfl

section

variable {g : GenerateTask β} {task : StageTask β} {clock : Nat → Nat}
  {disk : Disk β} {file : Option β} {w : World β} {ok : Bool}

omit [DecidableEq ι] in
/-- The first statement of a request that is not for a single node. -/
theorem start_loop (hctx : task.context = .request g)
    (hsingle : g.singleNode = false)
    (hboot : (World.start g file).step feat (.dispatch disk) = some w) :
    Place.start feat task clock disk file
      = .ask (.checkAt task.checkAt (clock 0) w.stage.step)
          fun _ => .looping ⟨w, clock 0, clock 1⟩ := by
  rw [Place.start, hctx]
  dsimp only
  rw [hsingle, if_neg Bool.false_ne_true, hboot]

/-- The state behind the first update, with the update or without it. -/
theorem first_step (hctx : task.context = .request g)
    (hsingle : g.singleNode = false)
    (hboot : (World.start g file).step feat (.dispatch disk) = some w)
    (i : ι) :
    ((SharedRow.start row task).step feat ⟨i, .start clock disk file, ok⟩
      : Option (SharedRow β ι))
      = some
          { row :=
              if ok then row.updateCheckAt task.checkAt (clock 0) w.stage.step
              else row
            place := Function.update (fun _ => .queued task) i
              (.looping ⟨w, clock 0, clock 1⟩) } := by
  rw [SharedRow.step]
  simp only [SharedRow.start, Place.act, start_loop hctx hsingle hboot]
  cases ok <;> rfl

/-- **TRACKED**: the worker keeps track of its row's `check_at` exactly when
    its first update does not err, unless the row already held the value. -/
theorem check_at_tracked {as : List (Move β Unit)}
    (hctx : task.context = .request g) (hsingle : g.singleNode = false)
    (hcopy : task.checkAt = row.checkAt)
    (hboot : (World.start g file).step feat (.dispatch disk) = some w) :
    Tracked feat (SharedRow.start row task)
        (⟨(), .start clock disk file, ok⟩ :: as) ↔
      ok = true ∨ clock 0 = row.checkAt := by
  have hfirst := @first_step β Unit _ _ feat row g task clock disk file w ok
    hctx hsingle hboot ()
  constructor
  · intro h
    have ht := h.tracks [⟨(), .start clock disk file, ok⟩] _ nofun
      (List.prefix_cons_inj _ |>.mpr List.nil_prefix)
      (run_cons.mpr ⟨_, hfirst, rfl⟩)
    cases ok with
    | true => exact Or.inl rfl
    | false => exact Or.inr ht.symm
  · intro hcond
    have htracks : ∀ s₁ : SharedRow β Unit,
        (SharedRow.start row task).step feat ⟨(), .start clock disk file, ok⟩
          = some s₁ → (s₁.place ()).Tracks s₁.row := by
      intro s₁ hs₁
      cases hfirst.symm.trans hs₁
      show StageRow.checkAt (if ok then _ else row) = clock 0
      rw [hcopy, StageRow.updateCheckAt, if_pos rfl]
      rcases hcond with rfl | hclock
      · rfl
      · cases ok
        · exact hclock.symm
        · rfl
    refine ⟨?_, ?_, ?_⟩
    · intro pre t hpre hprefix hrun
      obtain ⟨a, pre, rfl⟩ := List.exists_cons_of_ne_nil hpre
      obtain ⟨rfl, _⟩ := List.cons_prefix_cons.mp hprefix
      obtain ⟨s₁, hs₁, hr⟩ := run_cons.mp hrun
      exact run_inv (I := fun s : SharedRow β Unit => (s.place ()).Tracks s.row)
        (fun _ _ _ hi hs => SharedRow.Tracks.step hi hs) (htracks s₁ hs₁) hr
    · show (SharedRow.start row task : SharedRow β Unit).misses feat _ = false
      rw [SharedRow.misses, SharedRow.call]
      simp only [SharedRow.start, Place.act, start_loop hctx hsingle hboot]
      simp [hcopy]
    · intro s₁ hs₁
      exact along_of (I := fun s : SharedRow β Unit => (s.place ()).Tracks s.row)
        (fun _ _ _ _ hi hs => SharedRow.Tracks.step hi hs)
        (fun _ _ _ hi => SharedRow.Tracks.found hi) (along_true s₁ as)
        (htracks s₁ hs₁)

end

end

/-- In the whole small run the step and the duration are recorded. -/
theorem check_at_tracked_run :
    Tracked .proverV2 (SharedRow.start freshRow rowTask) (rowRun () true) ∧
      ∃ t, run (SharedRow.step .proverV2) (SharedRow.start freshRow rowTask)
          (rowRun () true) = some t ∧
        t.row.status = .Success ∧ t.row.checkAt = 900 ∧ t.row.step = .End := by
  have hboot : ((World.start
      ({ aggRequest with compositeProof := true, maxProverNum := 1 }
        : GenerateTask (List UInt8)) none).step .proverV2
      (.dispatch .full)).isSome = true := by decide
  obtain ⟨w, hw⟩ := Option.isSome_iff_exists.mp hboot
  refine ⟨(check_at_tracked rfl rfl rfl hw).mpr (Or.inl rfl), ?_⟩
  obtain ⟨t, ht, hrow⟩ := (Option.any_eq_true (fun t : SharedRow _ Unit =>
    decide (t.row.status = .Success ∧ t.row.checkAt = 900 ∧
      t.row.step = .End)) _).mp
    (show (run (SharedRow.step .proverV2) (SharedRow.start freshRow rowTask)
      (rowRun () true)).any _ = true by decide +kernel)
  exact ⟨t, ht, of_decide_eq_true hrow⟩

/-- The first update errs: the run goes on to SUCCESS, and neither the step
    nor the duration ever reaches the row. -/
theorem check_at_lost :
    ¬ Tracked .proverV2 (SharedRow.start freshRow rowTask) (rowRun () false) ∧
      ∃ t, run (SharedRow.step .proverV2) (SharedRow.start freshRow rowTask)
          (rowRun () false) = some t ∧
        t.row.status = .Success ∧ t.row.checkAt = 0 ∧ t.row.step = .Init := by
  constructor
  · intro h
    have hmiss : ¬ Along (SharedRow.step .proverV2)
        (fun t a => t.misses .proverV2 a = false)
        (SharedRow.start freshRow rowTask) (rowRun () false) := by decide +kernel
    exact hmiss h.found
  · obtain ⟨t, ht, hrow⟩ := (Option.any_eq_true (fun t : SharedRow _ Unit =>
      decide (t.row.status = .Success ∧ t.row.checkAt = 0 ∧
        t.row.step = .Init)) _).mp
      (show (run (SharedRow.step .proverV2) (SharedRow.start freshRow rowTask)
        (rowRun () false)).any _ = true by decide +kernel)
    exact ⟨t, ht, of_decide_eq_true hrow⟩

section

variable [Blob β] [DecidableEq ι] {feat : Feature} {s s' : SharedRow β ι}
  {a : Move β ι} {p : Place β} {row : StageRow}

/-! ## At most one owner -/

/-- A worker that has not claimed the row. -/
def Place.Outside (task : StageTask β) (p : Place β) : Prop :=
  p = .queued task ∨ p = .returned ∨ p = .panicked

/-- `o` is the only worker that has claimed the row, if one has; `n` is what
    the copies of the row expect in `check_at`. -/
structure OneOwner (task : StageTask β) (n : Nat) (o : Option ι)
    (s : SharedRow β ι) : Prop where
  outside : ∀ i, o ≠ some i → (s.place i).Outside task
  free    : o = none → s.row.checkAt = n
  tracks  : ∀ i, o = some i → (s.place i).Tracks s.row
  taken   : ∀ i, o = some i → s.row.checkAt ≠ n

variable {task : StageTask β} {n : Nat} {o : Option ι}

omit [DecidableEq ι] in
/-- What the start of a worker can come to. -/
theorem start_cases (feat : Feature) (task : StageTask β)
    (clock : Nat → Nat) (disk : Disk β) (file : Option β) :
    (∃ p, Place.start feat task clock disk file = .goto p ∧
      p.Outside task) ∨
    (∃ status, Place.start feat task clock disk file
      = .ask (.update status "") fun _ => .returned) ∨
    ∃ new step next, Place.start feat task clock disk file
        = .ask (.checkAt task.checkAt new step) next ∧
      ∀ row : StageRow, row.checkAt = new →
        (next (some 1)).Tracks row := by
  rw [Place.start]
  split
  · exact Or.inl ⟨_, rfl, Or.inr (Or.inl rfl)⟩
  · exact Or.inr (Or.inl ⟨_, rfl⟩)
  · split
    · split
      · exact Or.inl ⟨_, rfl, Or.inr (Or.inl rfl)⟩
      · exact Or.inr (Or.inr ⟨_, _, _, rfl, fun _ h => h⟩)
    · split
      · exact Or.inl ⟨_, rfl, Or.inr (Or.inr rfl)⟩
      · exact Or.inr (Or.inr ⟨_, _, _, rfl, fun _ h => h⟩)

omit [DecidableEq ι] [Blob β] in
/-- Tracking is about `check_at` and the step alone. -/
theorem Place.Tracks.update {status : Status} {result : String}
    (h : p.Tracks row) : p.Tracks (row.updateStageTask status result) := by
  cases p <;> exact h

omit [Blob β] in
/-- A step of a worker outside that leaves it outside, and leaves `check_at`
    and the step alone. -/
theorem OneOwner.stay {i : ι} (h : OneOwner task n o s) (hi : o ≠ some i)
    (hp : p.Outside task) (hrow : row = s.row ∨ ∃ status result,
      row = s.row.updateStageTask status result) :
    OneOwner task n o ⟨row, Function.update s.place i p⟩ := by
  have hcheck : row.checkAt = s.row.checkAt := by
    rcases hrow with rfl | ⟨_, _, rfl⟩ <;> rfl
  refine ⟨?_, fun ho => hcheck.trans (h.free ho), ?_,
    fun j hj => by rw [hcheck]; exact h.taken j hj⟩
  · intro j hj
    show (Function.update s.place i p j).Outside task
    by_cases hji : j = i
    · rw [hji, Function.update_self]
      exact hp
    · rw [Function.update_of_ne hji]
      exact h.outside j hj
  · intro j hj
    have hji : j ≠ i := fun heq => hi (heq ▸ hj)
    show (Function.update s.place i p j).Tracks row
    rw [Function.update_of_ne hji]
    rcases hrow with rfl | ⟨_, _, rfl⟩
    · exact h.tracks j hj
    · exact (h.tracks j hj).update

omit [Blob β] in
/-- A step of the owner, or the claim of the free row. -/
theorem OneOwner.put {i : ι} (h : ∀ j, j ≠ i → (s.place j).Outside task)
    (hp : p.Tracks row) (hrow : row.checkAt ≠ n) :
    OneOwner task n (some i) ⟨row, Function.update s.place i p⟩ := by
  refine ⟨?_, nofun, ?_, fun _ _ => hrow⟩
  · intro j hj
    have hji : j ≠ i := fun heq => hj (congrArg some heq.symm)
    show (Function.update s.place i p j).Outside task
    rw [Function.update_of_ne hji]
    exact h j hji
  · intro j hj
    cases hj
    show (Function.update s.place i p i).Tracks row
    rw [Function.update_self]
    exact hp

omit [DecidableEq ι] in
/-- A clean first statement finds the row as it was loaded. -/
theorem clean_first {old new : Nat} {step : Step}
    (h : s.clean feat n a = true)
    (hcall : s.call feat a = some (.checkAt old new step))
    (hq : (s.place a.who).isQueued = true) :
    a.ok = true ∧ s.row.checkAt = old ∧ new ≠ n := by
  rw [SharedRow.clean, hcall] at h
  dsimp only at h
  rw [if_pos hq, Bool.and_eq_true, Bool.and_eq_true, beq_iff_eq,
    bne_iff_ne] at h
  exact ⟨h.1.1, h.1.2, h.2⟩

omit [DecidableEq ι] in
/-- A clean statement does not write the loaded time again. -/
theorem clean_new {old new : Nat} {step : Step}
    (h : s.clean feat n a = true)
    (hcall : s.call feat a = some (.checkAt old new step))
    (hok : a.ok = true) : new ≠ n := by
  cases hq : (s.place a.who).isQueued with
  | true => exact (clean_first h hcall hq).2.2
  | false =>
      rw [SharedRow.clean, hcall] at h
      dsimp only at h
      rw [if_neg (by rw [hq]; exact nofun), hok, Bool.not_true,
        Bool.false_or, bne_iff_ne] at h
      exact h

omit [DecidableEq ι] in
/-- The statement of a step. -/
theorem call_of_ask {call : RowCall} {next : Option Nat → Place β}
    (h : (s.place a.who).act feat a.deed = some (.ask call next)) :
    s.call feat a = some call := by
  rw [SharedRow.call, h]

/-- A step of the owner. -/
theorem OneOwner.step_own (h : OneOwner task n (some a.who) s)
    (hclean : s.clean feat n a = true) (hs : s.step feat a = some s') :
    OneOwner task n (some a.who) s' := by
  have htracks := h.tracks a.who rfl
  have htaken := h.taken a.who rfl
  have hout : ∀ j, j ≠ a.who → (s.place j).Outside task :=
    fun j hj => h.outside j fun heq => hj (Option.some.inj heq).symm
  rcases SharedRow.step_cases hs with ⟨p, hp, rfl⟩ |
    ⟨call, next, hask, hok, rfl⟩ | ⟨call, next, hask, _, rfl⟩
  · exact .put hout (htracks.act hp) htaken
  · obtain ⟨hrows, _, hnext⟩ := htracks.act hask
    rw [hrows]
    refine .put hout hnext ?_
    cases call with
    | update status result => exact htaken
    | checkAt old new step =>
        have hold : s.row.checkAt = old := by
          rw [RowCall.rowsAffected] at hrows
          split at hrows
          case isTrue heq => exact heq
          case isFalse => exact nomatch hrows
        rw [run_checkAt hold]
        exact clean_new hclean (call_of_ask hask) hok
  · exact .put hout (htracks.act hask).2.1 htaken

omit [DecidableEq ι] in
/-- A worker outside can only start. -/
theorem Place.Outside.act {d : Deed β} {out : Outcome β}
    (h : p.Outside task) (ha : p.act feat d = some out) :
    p.isQueued = true ∧ ∃ clock disk file,
      Place.start feat task clock disk file = out := by
  rcases h with rfl | rfl | rfl
  · cases d with
    | start clock disk file =>
        exact ⟨rfl, clock, disk, file, Option.some.inj ha⟩
    | _ => exact nomatch ha
  · cases d <;> exact nomatch ha
  · cases d <;> exact nomatch ha

/-- A step of a worker outside: it stays outside, or the row was free and is
    now its own. -/
theorem OneOwner.step_outside (hcopy : task.checkAt = n)
    (h : OneOwner task n o s) (ho : o ≠ some a.who)
    (hclean : s.clean feat n a = true) (hs : s.step feat a = some s') :
    OneOwner task n o s' ∨ o = none ∧ OneOwner task n (some a.who) s' := by
  have hreturned : (Place.returned : Place β).Outside task :=
    Or.inr (Or.inl rfl)
  rcases SharedRow.step_cases hs with ⟨p, hact, rfl⟩ |
    ⟨call, next, hact, hok, rfl⟩ | ⟨call, next, hact, herr, rfl⟩
  · obtain ⟨_, clock, disk, file, hstart⟩ := (h.outside a.who ho).act hact
    rcases start_cases feat task clock disk file with ⟨p', hcase, hp⟩ |
      ⟨status, hcase⟩ | ⟨new, step, next, hcase, _⟩
    · cases hcase.symm.trans hstart
      exact Or.inl (h.stay ho hp (Or.inl rfl))
    · cases hcase.symm.trans hstart
    · cases hcase.symm.trans hstart
  · obtain ⟨hq, clock, disk, file, hstart⟩ := (h.outside a.who ho).act hact
    rcases start_cases feat task clock disk file with ⟨p', hcase, _⟩ |
      ⟨status, hcase⟩ | ⟨new, step, next', hcase, hnext⟩
    · cases hcase.symm.trans hstart
    · cases hcase.symm.trans hstart
      exact Or.inl (h.stay ho hreturned (Or.inr ⟨_, _, rfl⟩))
    · -- the first update: it found the row, so the row was free
      cases hcase.symm.trans hstart
      obtain ⟨_, hold, hnew⟩ := clean_first hclean (call_of_ask hact) hq
      have hfree : o = none := by
        cases o with
        | none => rfl
        | some i => exact absurd (hold.trans hcopy) (h.taken i rfl)
      refine Or.inr ⟨hfree, ?_⟩
      rw [rowsAffected_checkAt hold, run_checkAt hold]
      refine .put (fun j _ => h.outside j ?_) (hnext _ rfl) hnew
      rw [hfree]
      rintro ⟨⟩
  · obtain ⟨hq, clock, disk, file, hstart⟩ := (h.outside a.who ho).act hact
    rcases start_cases feat task clock disk file with ⟨p', hcase, _⟩ |
      ⟨status, hcase⟩ | ⟨new, step, next', hcase, _⟩
    · cases hcase.symm.trans hstart
    · cases hcase.symm.trans hstart
      exact Or.inl (h.stay ho hreturned (Or.inl rfl))
    · cases hcase.symm.trans hstart
      have hok := (clean_first hclean (call_of_ask hact) hq).1
      cases hok.symm.trans herr

/-- The owner stays, once there is one. -/
theorem OneOwner.step (hcopy : task.checkAt = n) (h : OneOwner task n o s)
    (hclean : s.clean feat n a = true) (hs : s.step feat a = some s') :
    ∃ o', OneOwner task n o' s' ∧ (o = none ∨ o' = o) := by
  by_cases ho : o = some a.who
  · subst ho
    exact ⟨_, h.step_own hclean hs, Or.inr rfl⟩
  · rcases h.step_outside hcopy ho hclean hs with hstay | ⟨hfree, hnew⟩
    · exact ⟨o, hstay, Or.inr rfl⟩
    · exact ⟨_, hnew, Or.inl hfree⟩

omit [Blob β] [DecidableEq ι] in
/-- Only the owner hands out tasks. -/
theorem OneOwner.handsOut (h : OneOwner task n o s)
    (ha : s.handsOut a = true) : o = some a.who := by
  by_contra ho
  rw [SharedRow.handsOut] at ha
  rcases h.outside a.who ho with hq | hret | hpan
  · rw [hq] at ha
    exact nomatch ha
  · rw [hret] at ha
    exact nomatch ha
  · rw [hpan] at ha
    exact nomatch ha

/-- In a clean run no compare-and-set misses. -/
theorem OneOwner.found (h : OneOwner task n o s)
    (hclean : s.clean feat n a = true) : s.misses feat a = false := by
  by_cases ho : o = some a.who
  · exact SharedRow.Tracks.found (h.tracks a.who ho)
  · rw [SharedRow.misses]
    split
    case h_1 old new step hcall =>
      have hask : ∃ next, (s.place a.who).act feat a.deed
          = some (.ask (.checkAt old new step) next) := by
        rw [SharedRow.call] at hcall
        split at hcall
        case h_1 call next hask =>
          cases hcall
          exact ⟨next, hask⟩
        case h_2 => exact nomatch hcall
      obtain ⟨next, hask⟩ := hask
      have hq := ((h.outside a.who ho).act hask).1
      have hold := (clean_first hclean hcall hq).2.1
      rw [hold, bne_self_eq_false, Bool.and_false]
    case h_2 => rfl

/-- The worker that hands out tasks along a clean run is the same one. -/
theorem OneOwner.one (hcopy : task.checkAt = n) {as : List (Move β ι)}
    (h : OneOwner task n o s)
    (hclean : Along (SharedRow.step feat) (fun s a => s.clean feat n a = true)
      s as) :
    ∃ o', (o = none ∨ o' = o) ∧ ∀ i,
      Happens (SharedRow.step feat) (fun s a => a.who = i ∧ s.handsOut a = true)
        s as → o' = some i := by
  induction as generalizing s o with
  | nil => exact ⟨o, Or.inr rfl, fun _ hno => hno.elim⟩
  | cons a as ih =>
      cases hs : s.step feat a with
      | none =>
          refine ⟨o, Or.inr rfl, fun i hi => ?_⟩
          rcases hi with ⟨rfl, ha⟩ | ⟨s', hs', _⟩
          · exact h.handsOut ha
          · exact nomatch hs.symm.trans hs'
      | some s' =>
          obtain ⟨o₁, h₁, ho₁⟩ := h.step hcopy hclean.1 hs
          obtain ⟨o₂, ho₂, hall⟩ := ih h₁ (hclean.2 s' hs)
          have hkeep : o = none ∨ o₂ = o := by
            rcases ho₁ with hnone | rfl
            · exact Or.inl hnone
            · exact ho₂
          refine ⟨o₂, hkeep, fun i hi => ?_⟩
          rcases hi with ⟨rfl, ha⟩ | ⟨t, ht, hrest⟩
          · -- it owned the row already
            have hown := h.handsOut ha
            rcases hkeep with hnone | heq
            · exact nomatch hnone.symm.trans hown
            · exact heq.trans hown
          · cases hs.symm.trans ht
            exact hall i hrest

/-- **ONE OWNER**: when every first update finds its row, errs on none and
    leaves a `check_at` that nobody puts back, the row has one owner, however
    the steps of the workers are interleaved. -/
theorem row_owned {as : List (Move β ι)} (hcopy : task.checkAt = row.checkAt)
    (hclean : Along (SharedRow.step feat)
      (fun s a => s.clean feat row.checkAt a = true)
      (SharedRow.start row task) as) :
    Owned feat (SharedRow.start row task) as := by
  have hstart : OneOwner task row.checkAt none
      (SharedRow.start row task : SharedRow β ι) :=
    ⟨fun _ _ => Or.inl rfl, fun _ => rfl, nofun, nofun⟩
  obtain ⟨o, _, hone⟩ := hstart.one hcopy hclean
  refine ⟨?_, ?_⟩
  · intro i j hi hj
    exact Option.some.inj ((hone i hi).symm.trans (hone j hj))
  · intro i
    refine not_follows (along_of
      (I := fun s => ∃ o, OneOwner task row.checkAt o s) ?_ ?_ hclean
      ⟨none, hstart⟩)
    · rintro s a s' ha ⟨o, ho⟩ hs
      obtain ⟨o', ho', _⟩ := ho.step hcopy ha hs
      exact ⟨o', ho'⟩
    · rintro s a ha ⟨o, ho⟩ ⟨_, hmiss⟩
      exact nomatch (ho.found ha).symm.trans hmiss

end

/-- The first of two workers does all the work, and the second is over. -/
theorem row_owned_first :
    Owned .proverV2 (SharedRow.start freshRow receiptTask) readableRun ∧
      Happens (SharedRow.step .proverV2)
        (fun s a => a.who = true ∧ s.handsOut a = true)
        (SharedRow.start freshRow receiptTask) readableRun ∧
      ∃ t, run (SharedRow.step .proverV2) (SharedRow.start freshRow receiptTask)
          readableRun = some t ∧ t.row.status = .Success ∧
        (t.place false).isQueued = false := by
  refine ⟨row_owned rfl (by decide +kernel), by decide +kernel, ?_⟩
  exact run_of_check (SharedRow.step .proverV2)
    (SharedRow.start freshRow receiptTask) readableRun
    (fun t => t.row.status = .Success ∧ (t.place false).isQueued = false)
    (by decide +kernel)

/-- Both workers hand out tasks, and the one whose first update matched no
    row writes its status. -/
theorem row_two_owners :
    ¬ Owned .proverV2 (SharedRow.start freshRow rowTask) contestedRun ∧
      Follows (SharedRow.step .proverV2)
        (fun s a => a.who = false ∧ s.misses .proverV2 a = true)
        (fun s a => a.who = false ∧ s.writes .proverV2 a = true)
        (SharedRow.start freshRow rowTask) contestedRun ∧
      ∃ t, run (SharedRow.step .proverV2) (SharedRow.start freshRow rowTask)
          contestedRun = some t ∧ t.row.status = .ProveError ∧
        t.row.checkAt = 5 := by
  refine ⟨?_, by decide +kernel, ?_⟩
  · intro h
    have hboth : (true : Bool) = false :=
      h.one true false (by decide +kernel) (by decide +kernel)
    exact nomatch hboth
  · obtain ⟨t, ht, hrow⟩ := (Option.any_eq_true (fun t : SharedRow _ Bool =>
      decide (t.row.status = .ProveError ∧ t.row.checkAt = 5)) _).mp
      (show (run (SharedRow.step .proverV2) (SharedRow.start freshRow rowTask)
        contestedRun).any _ = true by decide +kernel)
    exact ⟨t, ht, of_decide_eq_true hrow⟩

section

variable [Blob β] [DecidableEq ι] {feat : Feature} {s s' : SharedRow β ι}
  {a : Move β ι} {p : Place β} {row : StageRow}

/-! ## The loser goes on -/

omit [Blob β] in
/-- A step does not go back to the queue, and returns only through a status
    it has written. -/
def Outcome.GoesOn : Outcome β → Prop
  | .goto p => p.isQueued = false ∧ p ≠ .returned
  | .ask call next => ∀ answer, (next answer).isQueued = false ∧
      (next answer = .returned → answer.isSome = true ∧
        ∃ status result, call = .update status result)

omit [Blob β] in
theorem unwrap_goesOn (status : Status) (result : String) :
    (Outcome.unwrap (.update status result)
      (.returned : Place β)).GoesOn := by
  intro answer
  cases answer with
  | none => exact ⟨rfl, nofun⟩
  | some rows => exact ⟨rfl, fun _ => ⟨rfl, status, result, rfl⟩⟩

/-- A run that has begun does not go back to the queue, and ends with a
    statement. -/
theorem Place.act_goesOn {d : Deed β} {out : Outcome β}
    (hp : p.isQueued = false) (ha : p.act feat d = some out) :
    out.GoesOn := by
  cases p with
  | queued task => exact nomatch hp
  | single stage checkAt =>
      cases d with
      | reply r io =>
          cases ha
          rw [Place.replied]
          dsimp only
          split
          · exact ⟨rfl, nofun⟩
          · split <;> exact ⟨rfl, nofun⟩
      | _ => exact nomatch ha
  | looping c =>
      cases d with
      | handOut clock disk =>
          rw [Place.act] at ha
          split at ha <;> cases ha <;> exact ⟨rfl, nofun⟩
      | _ => exact nomatch ha
  | waiting c w =>
      cases d with
      | receive now event =>
          rw [Place.act] at ha
          split at ha <;> cases ha <;> exact ⟨rfl, nofun⟩
      | _ => exact nomatch ha
  | received c w =>
      cases d with
      | dispatch now disk file =>
          cases ha
          rw [Copy.conclude]
          split
          · rw [Copy.leave]
            split
            · exact ⟨rfl, nofun⟩
            · dsimp only
              split <;> exact ⟨rfl, nofun⟩
          · split
            · exact ⟨rfl, nofun⟩
            · split
              · exact fun _ => ⟨rfl, nofun⟩
              · exact ⟨rfl, nofun⟩
      | _ => exact nomatch ha
  | failing status =>
      cases d with
      | write => cases ha; exact unwrap_goesOn status ""
      | _ => exact nomatch ha
  | closing stage result checkAt =>
      cases d with
      | close duration =>
          cases ha
          intro answer
          cases answer <;> exact ⟨rfl, nofun⟩
      | _ => exact nomatch ha
  | storing stage result duration =>
      cases result with
      | none =>
          cases d with
          | write => cases ha; exact ⟨rfl, nofun⟩
          | _ => exact nomatch ha
      | some result =>
          cases d with
          | write => cases ha; exact unwrap_goesOn .Success result
          | _ => exact nomatch ha
  | returned => cases d <;> exact nomatch ha
  | panicked => cases d <;> exact nomatch ha

/-- A worker behind its start that has not returned: it is still behind its
    start after a step, and has returned only by writing the row. -/
theorem SharedRow.step_goesOn {i : ι} (hi : (s.place i).isQueued = false)
    (hs : s.step feat a = some s') :
    (s'.place i).isQueued = false ∧
      (s'.place i = .returned → s.place i = .returned ∨
        a.who = i ∧ s.writes feat a = true) := by
  by_cases hwho : a.who = i
  · rw [← hwho] at hi ⊢
    rcases SharedRow.step_cases hs with ⟨p, hact, rfl⟩ |
      ⟨call, next, hact, hok, rfl⟩ | ⟨call, next, hact, _, rfl⟩
    · obtain ⟨hq, hret⟩ := Place.act_goesOn hi hact
      dsimp only
      rw [Function.update_self]
      exact ⟨hq, fun h => absurd h hret⟩
    · obtain ⟨hq, hret⟩ :=
        Place.act_goesOn hi hact (some (call.rowsAffected s.row))
      dsimp only
      rw [Function.update_self]
      refine ⟨hq, fun h => Or.inr ⟨rfl, ?_⟩⟩
      obtain ⟨_, status, result, rfl⟩ := hret h
      rw [SharedRow.writes, call_of_ask hact]
      dsimp only
      rw [hok]
      rfl
    · obtain ⟨hq, hret⟩ := Place.act_goesOn hi hact none
      dsimp only
      rw [Function.update_self]
      exact ⟨hq, fun h => nomatch (hret h).1⟩
  · have hsame : s'.place i = s.place i := by
      have hne : i ≠ a.who := fun heq => hwho heq.symm
      rcases SharedRow.step_cases hs with ⟨p, _, rfl⟩ |
        ⟨call, next, _, _, rfl⟩ | ⟨call, next, _, _, rfl⟩ <;>
        exact Function.update_of_ne hne ..
    rw [hsame]
    exact ⟨hi, Or.inl⟩

/-- A run that has returned has written its row on the way. -/
theorem happens_write {i : ι} {as : List (Move β ι)} {t : SharedRow β ι}
    (hi : (s.place i).isQueued = false) (hret : s.place i ≠ .returned)
    (hrun : run (SharedRow.step feat) s as = some t)
    (ht : t.place i = .returned) :
    Happens (SharedRow.step feat)
      (fun s a => a.who = i ∧ s.writes feat a = true) s as := by
  induction as generalizing s with
  | nil =>
      cases hrun
      exact absurd ht hret
  | cons a as ih =>
      obtain ⟨s', hs, hr⟩ := run_cons.mp hrun
      obtain ⟨hq, hwrites⟩ := SharedRow.step_goesOn hi hs
      by_cases hret' : s'.place i = .returned
      · exact Or.inl ((hwrites hret').resolve_left hret)
      · exact Or.inr ⟨s', hs, ih hq hret' hr⟩

/-- **THE LOSER GOES ON**: a worker whose first update has missed the row
    writes it all the same before it returns. -/
theorem loser_writes {i : ι} {as bs : List (Move β ι)} {s₀ t : SharedRow β ι}
    (hrun : run (SharedRow.step feat) s₀ as = some s) (hwho : a.who = i)
    (hmiss : s.misses feat a = true) (hs : s.step feat a = some s')
    (hi : (s'.place i).isQueued = false) (hret : s'.place i ≠ .returned)
    (hrest : run (SharedRow.step feat) s' bs = some t)
    (ht : t.place i = .returned) :
    ¬ Owned feat s₀ (as ++ a :: bs) := by
  intro howned
  refine howned.stops i (follows_append hrun ⟨s', hs, Or.inl ⟨⟨hwho, hmiss⟩, ?_⟩⟩)
  exact happens_write hi hret hrest ht

/-! ## The worker of `Worker`

    Alone on its row, with every call answered, a worker does what
    `runStageTask` and `Ctl.step` say. -/

omit [Blob β] in
/-- What a worker of `Worker` has in hand. -/
def Loop.copy (l : Loop β) : Copy β := ⟨l.world, l.taskCheckAt, l.checkAt⟩

omit [Blob β] in
/-- A worker of `Worker` as the only one on its row. -/
def Ctl.sharedRow : Ctl β → SharedRow β Unit
  | .looping l => ⟨l.row, fun _ => .looping l.copy⟩
  | .waiting l w => ⟨l.row, fun _ => .waiting l.copy w⟩
  | .received l w => ⟨l.row, fun _ => .received l.copy w⟩
  | .returned row _ => ⟨row, fun _ => .returned⟩
  | .panicked row => ⟨row, fun _ => .panicked⟩

omit [Blob β] in
/-- One worker is all. -/
theorem update_unit (f : Unit → Place β) :
    Function.update f () p = fun _ => p := by
  funext i
  rw [Function.update_apply, if_pos rfl]

/-- One worker alone: the step of a deed whose call, if any, is answered. -/
theorem alone_goto {q : Place β} {d : Deed β}
    (h : p.act feat d = some (.goto q)) :
    SharedRow.step feat ⟨row, fun _ => p⟩ ⟨(), d, true⟩
      = some ⟨row, fun _ : Unit => q⟩ := by
  rw [SharedRow.step]
  dsimp only
  rw [h]
  dsimp only
  rw [update_unit]

/-- A statement of the only worker. -/
theorem alone_ask {call : RowCall} {next : Option Nat → Place β} {d : Deed β}
    (h : p.act feat d = some (.ask call next)) :
    SharedRow.step feat ⟨row, fun _ => p⟩ ⟨(), d, true⟩
      = some ⟨call.run row,
          fun _ : Unit => next (some (call.rowsAffected row))⟩ := by
  rw [SharedRow.step]
  dsimp only
  rw [h]
  dsimp only
  rw [if_pos rfl, update_unit]

theorem alone_unwrap {q : Place β} {call : RowCall} {d : Deed β}
    (h : p.act feat d = some (.unwrap call q)) :
    SharedRow.step feat ⟨row, fun _ => p⟩ ⟨(), d, true⟩
      = some ⟨call.run row, fun _ : Unit => q⟩ := alone_ask h

theorem run_one {d : Deed β} {t u : SharedRow β Unit}
    (h : t.step feat ⟨(), d, true⟩ = some u) :
    ∃ bs, run (SharedRow.step feat) t bs = some u :=
  ⟨[⟨(), d, true⟩], run_cons.mpr ⟨u, h, rfl⟩⟩

/-- A step and a run behind it. -/
theorem run_then {d : Deed β} {t u v : SharedRow β Unit}
    (h : t.step feat ⟨(), d, true⟩ = some u)
    (hrest : ∃ bs, run (SharedRow.step feat) u bs = some v) :
    ∃ bs, run (SharedRow.step feat) t bs = some v := by
  obtain ⟨bs, hbs⟩ := hrest
  exact ⟨⟨(), d, true⟩ :: bs, run_cons.mpr ⟨u, h, hbs⟩⟩

/-- From the end of the loop on. -/
theorem closing_shared {stage : Stage β} {result : Option String}
    {checkAt duration : Nat} {out : Option (Stage β)} :
    ∃ bs, run (SharedRow.step feat)
      (⟨row, fun _ => .closing stage result checkAt⟩ : SharedRow β Unit) bs
        = some (match result with
          | none => Ctl.panicked (row.updateCheckAt checkAt duration stage.step)
          | some result =>
              Ctl.returned ((row.updateCheckAt checkAt duration
                stage.step).updateStageTask .Success result) out).sharedRow := by
  have hclose : (Place.closing stage result checkAt).act feat
      (.close duration)
        = some (.unwrap (.checkAt checkAt duration stage.step)
          (.storing stage result duration)) := rfl
  refine run_then (alone_unwrap hclose) ?_
  cases result with
  | none =>
      have hwrite : (Place.storing stage none duration).act feat .write
          = some (.goto .panicked) := rfl
      exact run_one (alone_goto hwrite)
  | some result =>
      have hwrite : (Place.storing stage (some result) duration).act feat
          .write = some (.unwrap (.update .Success result) .returned) := rfl
      exact run_one (alone_unwrap hwrite)

/-- The end of the loop, one statement at a time. -/
theorem finish_shared (now : Nat) (disk : Disk β) (duration : Nat)
    (l : Loop β) (w : World β)
    (hend : (w.stage.isSuccess || w.stage.isError) = true) :
    ∃ bs, run (SharedRow.step feat) (Ctl.received l w).sharedRow bs
      = some (finish duration l w).sharedRow := by
  have hact : (Place.received l.copy w).act feat
      (.dispatch now disk w.snarkFile)
        = some (.goto (l.copy.leave w w.snarkFile)) := by
    rw [Place.act, Copy.conclude, if_pos hend]
  refine run_then (alone_goto hact) ?_
  rw [Copy.leave, finish]
  by_cases herr : w.stage.isError = true
  · rw [if_pos herr, if_pos herr]
    have hwrite : (Place.failing (errorStatus w.stage.step)).act feat
        .write = some (.unwrap (.update (errorStatus w.stage.step) "")
          (.returned : Place β)) := rfl
    exact run_one (alone_unwrap hwrite)
  · rw [if_neg herr, if_neg herr]
    dsimp only
    generalize (if w.stage.generateTask.targetStep = .Snark then
      w.snarkFile.map Blob.fromUtf8 else some (some "")) = result
    cases result with
    | none => exact ⟨[], rfl⟩
    | some result =>
        have hclose := @closing_shared β _ feat l.row w.stage result
          l.taskCheckAt duration (some w.stage)
        cases result with
        | none => exact hclose
        | some result => exact hclose

/-- A turn of the loop, one statement at a time. -/
theorem conclude_shared (now : Nat) (disk : Disk β) (duration : Nat)
    (l : Loop β) (w : World β) :
    ∃ bs, run (SharedRow.step feat) (Ctl.received l w).sharedRow bs
      = some (conclude feat now disk duration l w).sharedRow := by
  rw [conclude]
  by_cases hend : (w.stage.isSuccess || w.stage.isError) = true
  · rw [if_pos hend]
    exact finish_shared now disk duration l w hend
  · rw [if_neg hend]
    cases hw : w.step feat (.dispatch disk) with
    | none =>
        refine run_one (alone_goto (d := .dispatch now disk none) ?_)
        rw [Place.act, Copy.conclude, if_neg hend, hw]
    | some w' =>
        dsimp only
        rw [Loop.dispatched]
        by_cases hbeat : l.checkAt + 10 < now ∨
            l.world.stage.step ≠ w'.stage.step
        · rw [if_pos hbeat]
          have hact : (Place.received l.copy w).act feat
              (.dispatch now disk none)
              = some (.ask (.checkAt l.taskCheckAt now w'.stage.step)
                fun answer => .looping
                  { world := w'
                    taskCheckAt :=
                      if answer = some 1 then now else l.taskCheckAt
                    checkAt := now }) := by
            rw [Place.act, Copy.conclude, if_neg hend, hw]
            exact congrArg some (if_pos hbeat)
          refine run_one ((alone_ask hact).trans ?_)
          rw [Ctl.sharedRow, RowCall.rowsAffected]
          by_cases hrow : l.row.checkAt = l.taskCheckAt
          · rw [if_pos hrow, if_pos hrow]
            rfl
          · rw [if_neg hrow, if_neg hrow]
            rfl
        · rw [if_neg hbeat]
          refine run_one (alone_goto (d := .dispatch now disk none) ?_)
          rw [Place.act, Copy.conclude, if_neg hend, hw]
          exact congrArg some (if_neg hbeat)

/-- The start, one statement at a time. -/
theorem start_shared (task : StageTask β) (b : Boot β) :
    ∃ bs, run (SharedRow.step feat) (SharedRow.start row task) bs
      = some (runStageTask feat task row b).sharedRow := by
  have hact : (Place.queued task).act feat (.start b.clock b.disk b.file)
      = some (Place.start feat task b.clock b.disk b.file) := rfl
  cases hctx : task.context with
  | absent =>
    rw [Place.start, hctx] at hact
    rw [runStageTask, hctx]
    exact run_one (alone_goto hact)
  | undecodable =>
    rw [Place.start, hctx] at hact
    rw [runStageTask, hctx]
    exact run_one (alone_ask hact)
  | request g =>
    rw [Place.start, hctx] at hact
    rw [runStageTask, hctx]
    dsimp only at hact ⊢
    by_cases hsingle : g.singleNode = true
    · rw [if_pos hsingle] at hact ⊢
      rw [runSingleNode]
      by_cases hstep : task.step ≠ .Init
      · rw [if_pos hstep] at hact ⊢
        exact run_one (alone_goto hact)
      · rw [if_neg hstep] at hact ⊢
        have hstart : (SharedRow.start row task).step feat
            ⟨(), .start b.clock b.disk b.file, true⟩
              = some ⟨row.updateCheckAt task.checkAt (b.clock 0) .Prove,
                fun _ : Unit => .single (Stage.new g) (b.clock 0)⟩ :=
          alone_ask hact
        have hreply : (Place.single (Stage.new g) (b.clock 0)).act feat
            (.reply b.single b.io)
              = some (.goto (Place.replied (Stage.new g) (b.clock 0) b.single
                b.io)) := rfl
        refine run_then hstart (run_then (alone_goto hreply) ?_)
        rw [Place.replied]
        dsimp only
        cases hon : (Stage.new g).onSingleNodeTask b.io
            (b.single.fill (Stage.new g).getSingleNodeTask) with
        | none => exact ⟨[], rfl⟩
        | some x =>
            obtain ⟨stage, f⟩ := x
            dsimp only
            by_cases herr : stage.isError = true
            · rw [if_pos herr, if_pos herr]
              have hwrite : (Place.failing .InternalError).act feat .write
                  = some (.unwrap (.update .InternalError "")
                    (.returned : Place β)) := rfl
              exact run_one (alone_unwrap hwrite)
            · rw [if_neg herr, if_neg herr]
              generalize (if stage.generateTask.targetStep = .Snark then
                Blob.fromUtf8 (b.single.fill
                  (Stage.new g).getSingleNodeTask).output
                else some "") = result
              have hclose := @closing_shared β _ feat
                (row.updateCheckAt task.checkAt (b.clock 0) .Prove) stage
                result (b.clock 0) b.duration (some stage)
              cases result with
              | none => exact hclose
              | some result => exact hclose
    · rw [if_neg hsingle] at hact ⊢
      cases hw : (World.start g b.file).step feat (.dispatch b.disk) with
      | none =>
          rw [hw] at hact
          exact run_one (alone_goto hact)
      | some w =>
          rw [hw] at hact
          exact run_one (alone_ask hact)

/-- **SIMULATION**: what `runStageTask` and `Ctl.step` do in a run, a worker
    alone on its row does step by step. -/
theorem runs_shared {task : StageTask β} {b : Boot β} {acts : List (Act β)}
    {c : Ctl β} (h : Runs feat task row b acts c) :
    ∃ bs, run (SharedRow.step feat) (SharedRow.start row task) bs
      = some c.sharedRow := by
  have hstep : ∀ (c : Ctl β) (a : Act β) (c' : Ctl β),
      c.step feat a = some c' →
      ∃ bs, run (SharedRow.step feat) c.sharedRow bs = some c'.sharedRow := by
    intro c a c' hs
    cases c with
    | looping l =>
        cases a with
        | handOut clock disk =>
            rw [Ctl.step] at hs
            split at hs
            case h_1 hw =>
              cases hs
              refine run_one (alone_goto (d := .handOut clock disk) ?_)
              rw [Place.act, Loop.copy, hw]
            case h_2 w hw =>
              cases hs
              refine run_one (alone_goto (d := .handOut clock disk) ?_)
              rw [Place.act, Loop.copy, hw]
        | _ => cases hs
    | waiting l w =>
        cases a with
        | receive now event =>
            rw [Ctl.step] at hs
            split at hs
            case h_1 hw =>
              cases hs
              refine run_one (alone_goto (d := .receive now event) ?_)
              rw [Place.act, hw]
            case h_2 w' hw =>
              cases hs
              refine run_one (alone_goto (d := .receive now event) ?_)
              rw [Place.act, hw]
        | _ => cases hs
    | received l w =>
        cases a with
        | dispatch now disk duration =>
            cases hs
            exact conclude_shared now disk duration l w
        | _ => cases hs
    | returned row stage => cases a <;> cases hs
    | panicked row => cases a <;> cases hs
  obtain ⟨bs, hbs⟩ := start_shared task b
  obtain ⟨cs, hcs⟩ := run_sim hstep h
  exact ⟨bs ++ cs, run_append.mpr ⟨_, hbs, hcs⟩⟩

end

end ZkmProver
