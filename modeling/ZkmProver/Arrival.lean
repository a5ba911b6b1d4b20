import ZkmProver.ErrorStatus

/-! # Arrival — the order in which results arrive does not matter

    A result is the copy of a task with what its call filled in.  What a
    result does to the stage is a change of the split task, of one prove task
    and of one agg task, a child taken off a list, the error flag raised, and
    the file written (`deliver_eq`).  For distinct tasks in flight these
    changes do not get into each other's way (`deliver_comm`), so any two
    orders of arrival end in the same stage, up to the finish times. -/

namespace ZkmProver

open Forest Keyed Machine

variable {β : Type}

/-! ## Results -/

/-- A task as it comes back; `io` says whether the file at `snark_path` can
    be created and written. -/
inductive Arrival (β : Type) where
  | split (t : SplitTask β)
  | prove (t : ProveTask β)
  | agg (t : AggTask β) (io : Bool)

namespace Arrival

/-- Which task the result is for. -/
def task : Arrival β → Kind × Nat
  | .split t => (.split, t.taskId)
  | .prove t => (.prove, t.taskId)
  | .agg t _ => (.agg, t.taskId)

/-- The `on_*_task` of the result, on a stage and the file at `snark_path`;
    `none` is a panic. -/
def deliver (now : Nat) (r : Arrival β) (x : Stage β × Option β) :
    Option (Stage β × Option β) :=
  match r with
  | .split t => some ((x.1.onSplitTask now t).1, x.2)
  | .prove t => some ((x.1.onProveTask now t).1, x.2)
  | .agg t io =>
      (x.1.onAggTask now io t).map fun (s, _, file) => (s, file.or x.2)

end Arrival

/-- Results with their times of arrival, one after the other. -/
def deliverAll (rs : List (Nat × Arrival β)) (x : Stage β × Option β) :
    Option (Stage β × Option β) :=
  run (fun x r => r.2.deliver r.1 x) x rs

/-- A copy in flight comes back. -/
inductive World.Brings (w : World β) : Arrival β → Prop where
  | split (c : SplitTask β) (r : SplitReply) : c ∈ w.splits →
      Brings w (.split (r.split c))
  | prove (c : ProveTask β) (r : Reply β) : c ∈ w.proves →
      Brings w (.prove (r.prove c))
  | agg (c : AggTask β) (r : Reply β) (io : Bool) : c ∈ w.aggs →
      Brings w (.agg (r.agg c) io)

/-! ## Finish times -/

/-- A head without its finish time. -/
def TaskHead.untimed (t : TaskHead β) : TaskHead β :=
  { t with trace := { t.trace with finishTs := 0 } }

/-- The split without its finish time. -/
def SplitTask.untimed (t : SplitTask β) : SplitTask β :=
  { t with toTaskHead := t.toTaskHead.untimed }

/-- A prove task without its finish time. -/
def ProveTask.untimed (t : ProveTask β) : ProveTask β :=
  { t with toTaskHead := t.toTaskHead.untimed }

/-- An agg task without its finish time. -/
def AggTask.untimed (t : AggTask β) : AggTask β :=
  { t with toTaskHead := t.toTaskHead.untimed }

/-- The snark task without its finish time. -/
def SnarkTask.untimed (t : SnarkTask β) : SnarkTask β :=
  { t with toTaskHead := t.toTaskHead.untimed }

/-- A stage without its finish times. -/
def Stage.untimed (s : Stage β) : Stage β :=
  { s with
    splitTask := s.splitTask.untimed
    proveTasks := s.proveTasks.map ProveTask.untimed
    aggTasks := s.aggTasks.map AggTask.untimed
    snarkTask := s.snarkTask.untimed }

/-- A stage without its finish times, and the file. -/
def untimed (x : Stage β × Option β) : Stage β × Option β :=
  (x.1.untimed, x.2)

/-! ## What a result does -/

namespace Arrival

/-- What a result makes of the stage's split task. -/
def onSplit (now : Nat) : Arrival β → SplitTask β → SplitTask β
  | .split t => fun dst =>
      { dst with
        toTaskHead := onTask now t.toTaskHead dst.toTaskHead
        totalSteps := t.totalSteps
        totalSegments := t.totalSegments }
  | _ => id

/-- Whether a result is that of this prove task, and what it makes of it. -/
def takesProve (now : Nat) : Arrival β → ProveTask β → Option (ProveTask β)
  | .prove t => Stage.takeProve now t
  | _ => fun _ => none

/-- Whether a result is that of this agg task, and what it makes of it. -/
def takesAgg (now : Nat) : Arrival β → AggTask β → Option (AggTask β)
  | .agg t _ => Stage.takeAgg now t
  | _ => fun _ => none

/-- The child that is cleared when the result is a success. -/
def clears : Arrival β → AggTask β → Option (AggTask β)
  | .split _ => fun _ => none
  | .prove t =>
      if t.state = .Success then AggTask.clearChildTask t.taskId
      else fun _ => none
  | .agg t _ =>
      if t.state = .Success then AggTask.clearChildTask t.taskId
      else fun _ => none

/-- Does the result raise the error flag? -/
def fails (s : Stage β) : Arrival β → Bool
  | .split t => t.state = .Failed
  | .prove t => (s.proveTasks.find? (Stage.matchProve t)).any (onProveTaskError t)
  | .agg t _ => (s.aggTasks.find? (Stage.matchAgg t)).isSome && t.state = .Failed

/-- What the result writes at `snark_path`. -/
def writes (s : Stage β) : Arrival β → Option β
  | .agg t _ =>
      if t.state = .Success ∧ t.isFinal = true ∧
        s.generateTask.targetStep = .Agg then some t.output else none
  | _ => none

/-- The file is to be written and cannot be. -/
def refused (s : Stage β) : Arrival β → Bool
  | .agg t io =>
      t.state = .Success && t.isFinal && s.generateTask.targetStep = .Agg && !io
  | _ => false

/-- The stage behind the result. -/
def onStage (now : Nat) (r : Arrival β) (s : Stage β) : Stage β :=
  { s with
    splitTask := r.onSplit now s.splitTask
    proveTasks := s.proveTasks.replaceF (r.takesProve now)
    aggTasks := (s.aggTasks.replaceF (r.takesAgg now)).replaceF r.clears
    isError := s.isError || r.fails s }

end Arrival

theorem replaceF_none {α : Type} (l : List α) :
    l.replaceF (fun _ => none) = l :=
  List.replaceF_of_forall_none fun _ _ => rfl

namespace Arrival

variable {s : Stage β} {r : Arrival β}

/-- `clear_child_task` on the list, as a replacement of its first hit. -/
theorem clearOn_eq (state : TaskState) (id : Nat) (as : List (AggTask β)) :
    clearOn state id as = as.replaceF
      (if state = .Success then AggTask.clearChildTask id else fun _ => none) := by
  rw [clearOn]
  split
  · rfl
  · rw [replaceF_none]

/-- A result of an agg task is refused just when it cannot be written. -/
theorem onAggTask_isSome (now : Nat) (io : Bool) (t : AggTask β)
    (s : Stage β) : (s.onAggTask now io t).isSome
      = !(Arrival.agg t io).refused s := by
  rw [Stage.onAggTask, refused]
  by_cases hst : t.state = .Success
  · simp only [hst, if_true, decide_true, Bool.true_and]
    show (if (t.isFinal && decide (s.generateTask.targetStep = .Agg)) = true
      then _ else _ : Option _).isSome = _
    cases t.isFinal && decide (s.generateTask.targetStep = .Agg) with
    | false => rfl
    | true => cases io <;> rfl
  · simp only [hst, if_false, decide_false, Bool.false_and]
    rfl

/-- **ONE FORM**: what the three handlers do. -/
theorem deliver_eq (now : Nat) (r : Arrival β) (s : Stage β)
    (file : Option β) :
    r.deliver now (s, file) = if r.refused s = true then none
      else some (r.onStage now s, (r.writes s).or file) := by
  cases r with
  | split t =>
      show some _ = some _
      simp only [onStage, takesProve, takesAgg, clears, replaceF_none]
      rfl
  | prove t =>
      show some _ = some _
      rw [onProveTask_eq]
      simp only [onStage, takesAgg, clears, replaceF_none, clearOn_eq]
      rfl
  | agg t io =>
      have hsome := onAggTask_isSome now io t s
      rw [deliver]
      cases hon : s.onAggTask now io t with
      | none =>
          rw [hon, Option.isSome_none, Bool.false_eq, Bool.not_eq_false'] at hsome
          rw [if_pos hsome]
          rfl
      | some y =>
          obtain ⟨s', t', f⟩ := y
          obtain ⟨rfl, _, rfl⟩ := onAggTask_eq hon
          rw [hon, Option.isSome_some, Bool.true_eq, Bool.not_eq_true'] at hsome
          have hno : ¬ refused s (agg t io) = true := by
            rw [hsome]
            rintro ⟨⟩
          rw [if_neg hno, clearOn_eq]
          simp only [onStage, takesProve, replaceF_none]
          rfl

end Arrival

/-! ## Two results -/

theorem clearChild_none_cons (id : Nat) (l : List (Option Nat)) :
    clearChild id (none :: l) = (clearChild id l).map (none :: ·) := rfl

/-- A child with another id is passed over. -/
theorem clearChild_other {id t : Nat} (ht : t ≠ id) (l : List (Option Nat)) :
    clearChild id (some t :: l) = (clearChild id l).map (some t :: ·) := by
  rw [clearChild, if_neg ht]

/-- The first child with the id is cleared. -/
theorem clearChild_hit {id : Nat} (l : List (Option Nat)) :
    clearChild id (some id :: l) = some (none :: l) := by
  rw [clearChild, if_pos rfl]

/-- The first call clears the head of the list. -/
theorem clearChild_apart_head {id id' : Nat} (hne : id ≠ id')
    (childs : List (Option Nat)) :
    Apart (clearChild id) (clearChild id') (some id :: childs) := by
  cases hrest : clearChild id' childs with
  | none =>
      refine .left (none :: childs) (clearChild_hit childs) ?_ ?_
      · rw [clearChild_other hne, hrest, Option.map_none]
      · rw [clearChild_none_cons, hrest, Option.map_none]
  | some rest =>
      refine .both (none :: childs) (some id :: rest) (none :: rest)
        (clearChild_hit childs) ?_ ?_ (clearChild_hit rest)
      · rw [clearChild_other hne, hrest, Option.map_some]
      · rw [clearChild_none_cons, hrest, Option.map_some]

/-- Two ids are cleared at two places. -/
theorem clearChild_apart {id id' : Nat} (hne : id ≠ id')
    (childs : List (Option Nat)) :
    Apart (clearChild id) (clearChild id') childs := by
  induction childs with
  | nil => exact .neither rfl rfl
  | cons c childs ih =>
      cases c with
      | none =>
          exact ih.map (clearChild_none_cons id) (clearChild_none_cons id')
      | some t =>
          by_cases ht : t = id
          · subst ht
            exact clearChild_apart_head hne childs
          · by_cases ht' : t = id'
            · subst ht'
              exact (clearChild_apart_head (Ne.symm hne) childs).symm
            · exact ih.map (clearChild_other ht) (clearChild_other ht')

/-- So are those of an agg task. -/
theorem clearChildTask_apart {id id' : Nat} (hne : id ≠ id')
    (a : AggTask β) :
    Apart (AggTask.clearChildTask id) (AggTask.clearChildTask id') a := by
  by_cases hst : a.state = .Unprocessed
  · have hclear : ∀ (id : Nat) (childs : List (Option Nat)),
        AggTask.clearChildTask id { a with childs := childs }
          = (clearChild id childs).map fun cs => { a with childs := cs } :=
      fun _ _ => if_pos hst
    exact (clearChild_apart hne a.childs).map (u := fun cs =>
      ({ a with childs := cs } : AggTask β)) (hclear id) (hclear id')
  · refine .neither ?_ ?_
    · rw [AggTask.clearChildTask, if_neg hst]
    · rw [AggTask.clearChildTask, if_neg hst]

namespace Arrival

variable {r r' : Arrival β} {s : Stage β}

/-- The result of the last agg task. -/
def isFinal : Arrival β → Bool
  | .agg t _ => t.isFinal
  | _ => false

/-- Results for two tasks, not both of them the split and not both the last
    agg task. -/
structure Distinct (r r' : Arrival β) : Prop where
  task  : r.task ≠ r'.task
  split : ¬ (r.task.1 = .split ∧ r'.task.1 = .split)
  final : ¬ (r.isFinal = true ∧ r'.isFinal = true)

theorem Distinct.symm (h : Distinct r r') : Distinct r' r :=
  ⟨Ne.symm h.task, fun hs => h.split hs.symm, fun hf => h.final hf.symm⟩

/-- A busy agg task has nothing listed. -/
def Unlisted (as : List (AggTask β)) : Prop :=
  ∀ a ∈ as, a.state = .Processing → ∀ id, clearChild id a.childs = none

/-- The task that takes a result has its id and is out. -/
theorem takeProve_eq_some {now : Nat} {t x y : ProveTask β}
    (h : Stage.takeProve now t x = some y) :
    x.taskId = t.taskId ∧ x.state = .Processing ∧
      y = onProveTaskDst now t x := by
  rw [Stage.takeProve] at h
  split at h
  case isTrue hm =>
    cases h
    rw [Stage.matchProve, Bool.and_eq_true, decide_eq_true_eq,
      decide_eq_true_eq] at hm
    exact ⟨hm.1, hm.2, rfl⟩
  case isFalse => cases h

/-- The same for an agg task. -/
theorem takeAgg_eq_some {now : Nat} {t x y : AggTask β}
    (h : Stage.takeAgg now t x = some y) :
    x.taskId = t.taskId ∧ x.state = .Processing ∧
      y = { x with toTaskHead := onTask now t.toTaskHead x.toTaskHead } := by
  rw [Stage.takeAgg] at h
  split at h
  case isTrue hm =>
    cases h
    rw [Stage.matchAgg, Bool.and_eq_true, decide_eq_true_eq,
      decide_eq_true_eq] at hm
    exact ⟨hm.1, hm.2, rfl⟩
  case isFalse => cases h

theorem takeProve_key {now : Nat} {t : ProveTask β} :
    ∀ x y, Stage.takeProve now t x = some y →
      x.taskId = t.taskId ∧ y.taskId = t.taskId := by
  intro x y h
  obtain ⟨hid, _, rfl⟩ := takeProve_eq_some h
  exact ⟨hid, (onProveTaskDst_taskId ..).trans hid⟩

theorem takeAgg_key {now : Nat} {t : AggTask β} :
    ∀ x y, Stage.takeAgg now t x = some y →
      x.taskId = t.taskId ∧ y.taskId = t.taskId := by
  intro x y h
  obtain ⟨hid, _, rfl⟩ := takeAgg_eq_some h
  exact ⟨hid, (onTask_taskId ..).trans hid⟩

/-- Two results are taken by two prove tasks. -/
theorem takesProve_apart (h : r.task ≠ r'.task) (now : Nat)
    (x : ProveTask β) :
    Apart (r.takesProve now) (r'.takesProve now) x := by
  cases r with
  | split t => exact .none x
  | agg t io => exact .none x
  | prove t =>
      cases r' with
      | split t' => exact (Apart.none x).symm
      | agg t' io => exact (Apart.none x).symm
      | prove t' =>
          have hne : t.taskId ≠ t'.taskId :=
            fun hid => h (congrArg (Prod.mk Kind.prove) hid)
          exact .of_key hne takeProve_key takeProve_key x

/-- Two results are taken by two agg tasks. -/
theorem takesAgg_apart (h : r.task ≠ r'.task) (now : Nat) (x : AggTask β) :
    Apart (r.takesAgg now) (r'.takesAgg now) x := by
  cases r with
  | split t => exact .none x
  | prove t => exact .none x
  | agg t io =>
      cases r' with
      | split t' => exact (Apart.none x).symm
      | prove t' => exact (Apart.none x).symm
      | agg t' io' =>
          have hne : t.taskId ≠ t'.taskId :=
            fun hid => h (congrArg (Prod.mk Kind.agg) hid)
          exact .of_key hne takeAgg_key takeAgg_key x

/-- A result clears nothing, or one id wherever it is listed. -/
theorem clears_cases (r : Arrival β) :
    r.clears = (fun _ => none) ∨
      ∃ id, r.clears = AggTask.clearChildTask id := by
  cases r with
  | split t => exact Or.inl rfl
  | prove t =>
      rw [clears]
      split
      · exact Or.inr ⟨_, rfl⟩
      · exact Or.inl rfl
  | agg t io =>
      rw [clears]
      split
      · exact Or.inr ⟨_, rfl⟩
      · exact Or.inl rfl

/-- An agg task is cleared of one child, and only while it waits. -/
theorem clears_eq_some {x y : AggTask β} (h : r.clears x = some y) :
    x.state = .Unprocessed ∧ ∃ id childs,
      clearChild id x.childs = some childs ∧ y = { x with childs := childs } := by
  rcases r.clears_cases with hno | ⟨id, hid⟩
  · rw [hno] at h
    cases h
  · rw [hid] at h
    obtain ⟨hst, childs, hc, rfl⟩ := clearChildTask_eq_some h
    exact ⟨hst, id, childs, hc, rfl⟩

/-- A busy agg task is only taken, one with a child left only cleared. -/
theorem takesAgg_clears_apart (now : Nat) {x : AggTask β}
    (hx : x.state = .Processing → ∀ id, clearChild id x.childs = none) :
    Apart (r.takesAgg now) r'.clears x := by
  cases r with
  | split t => exact .none x
  | prove t => exact .none x
  | agg t io =>
      have hbusy : ∀ y, Stage.takeAgg now t x = some y →
          ∀ childs, r'.clears { y with childs := x.childs } = some childs →
            False := by
        intro y hy z hz
        obtain ⟨_, hst, rfl⟩ := takeAgg_eq_some hy
        obtain ⟨_, id, childs, hc, _⟩ := clears_eq_some hz
        cases (hx hst id).symm.trans hc
      cases htake : Stage.takeAgg now t x with
      | some y =>
          obtain ⟨_, hst, hy⟩ := takeAgg_eq_some htake
          refine .left y htake ?_ ?_
          · refine Option.eq_none_iff_forall_ne_some.mpr fun z hz => ?_
            cases hst.symm.trans (clears_eq_some hz).1
          · refine Option.eq_none_iff_forall_ne_some.mpr fun z hz => ?_
            refine hbusy y htake z ?_
            rw [hy] at hz ⊢
            exact hz
      | none =>
          cases hclear : r'.clears x with
          | none => exact .neither htake hclear
          | some z =>
              refine .right z hclear htake ?_
              obtain ⟨hst, _, childs, _, rfl⟩ := clears_eq_some hclear
              refine Option.eq_none_iff_forall_ne_some.mpr fun v hv => ?_
              have hbusy := (takeAgg_eq_some hv).2.1
              cases hst.symm.trans hbusy

/-- The agg tasks behind a result. -/
def onAggs (now : Nat) (r : Arrival β) (as : List (AggTask β)) :
    List (AggTask β) :=
  (as.replaceF (r.takesAgg now)).replaceF r.clears

/-- The agg task that takes a result keeps its children. -/
theorem takesAgg_eq_some {now : Nat} {x y : AggTask β}
    (h : r.takesAgg now x = some y) :
    (Kind.agg, x.taskId) = r.task ∧ y.taskId = x.taskId ∧
      x.state = .Processing ∧ y.childs = x.childs := by
  cases r with
  | split t => cases h
  | prove t => cases h
  | agg t io =>
      obtain ⟨hid, hst, rfl⟩ := takeAgg_eq_some h
      exact ⟨congrArg _ hid, onTask_taskId .., hst, rfl⟩

/-- A result taken leaves the tasks unlisted. -/
theorem Unlisted.takes {as : List (AggTask β)} (h : Unlisted as) (now : Nat)
    (r : Arrival β) : Unlisted (as.replaceF (r.takesAgg now)) := by
  refine forall_replaceF h fun x y hx hxy _ => ?_
  obtain ⟨_, _, hbusy, hchilds⟩ := takesAgg_eq_some hxy
  rw [hchilds]
  exact hx hbusy

/-- So does a child cleared. -/
theorem Unlisted.clears {as : List (AggTask β)} (h : Unlisted as)
    (r : Arrival β) : Unlisted (as.replaceF r.clears) := by
  refine forall_replaceF h fun x y _ hxy hst => ?_
  obtain ⟨hwaits, _, _, _, rfl⟩ := clears_eq_some hxy
  cases hwaits.symm.trans hst

theorem Unlisted.onAggs {as : List (AggTask β)} (h : Unlisted as) (now : Nat)
    (r : Arrival β) : Unlisted (r.onAggs now as) :=
  (h.takes now r).clears r

/-- Two results clear their children in either order. -/
theorem clears_comm (r r' : Arrival β) (as : List (AggTask β)) :
    (as.replaceF r.clears).replaceF r'.clears
      = (as.replaceF r'.clears).replaceF r.clears := by
  rcases r.clears_cases with hno | ⟨id, hid⟩
  · rw [hno, replaceF_none, replaceF_none]
  · rcases r'.clears_cases with hno' | ⟨id', hid'⟩
    · rw [hno', replaceF_none, replaceF_none]
    · rw [hid, hid']
      by_cases hne : id = id'
      · rw [hne]
      · exact replaceF_comm fun a _ => clearChildTask_apart hne a

/-- A result is taken and a child is cleared in either order. -/
theorem takes_clears_comm {as : List (AggTask β)} (h : Unlisted as)
    (now : Nat) (r r' : Arrival β) :
    (as.replaceF (r.takesAgg now)).replaceF r'.clears
      = (as.replaceF r'.clears).replaceF (r.takesAgg now) :=
  replaceF_comm fun a ha => takesAgg_clears_apart now (h a ha)

/-- What two results do to the agg tasks commutes: taken or cleared, one
    update at a time is moved past the other ones. -/
theorem onAggs_comm (h : r.task ≠ r'.task) {as : List (AggTask β)}
    (hun : Unlisted as) (now : Nat) :
    r'.onAggs now (r.onAggs now as) = r.onAggs now (r'.onAggs now as) := by
  have htakes : (as.replaceF (r.takesAgg now)).replaceF (r'.takesAgg now)
      = (as.replaceF (r'.takesAgg now)).replaceF (r.takesAgg now) :=
    replaceF_comm fun a _ => takesAgg_apart h now a
  simp only [onAggs]
  rw [← takes_clears_comm (hun.takes now r) now r' r, htakes,
    clears_comm r r', takes_clears_comm (hun.takes now r') now r r']

/-- Two results are taken by the prove tasks in either order. -/
theorem onProves_comm (h : r.task ≠ r'.task) (now : Nat)
    (ps : List (ProveTask β)) :
    (ps.replaceF (r.takesProve now)).replaceF (r'.takesProve now)
      = (ps.replaceF (r'.takesProve now)).replaceF (r.takesProve now) :=
  replaceF_comm fun t _ => takesProve_apart h now t

/-- Two results reach the split task in either order. -/
theorem onSplit_comm (h : ¬ (r.task.1 = .split ∧ r'.task.1 = .split))
    (now : Nat) (t : SplitTask β) :
    r'.onSplit now (r.onSplit now t) = r.onSplit now (r'.onSplit now t) := by
  cases r with
  | split t =>
      cases r' with
      | split t' => exact absurd ⟨rfl, rfl⟩ h
      | prove t' => rfl
      | agg t' io' => rfl
  | prove t => rfl
  | agg t io => rfl

/-! ## The error flag and the file -/

/-- What one result takes, the other does not match. -/
theorem takesProve_other (h : r.task ≠ r'.task) {now : Nat} {t : ProveTask β}
    (hr' : r' = .prove t) (x y : ProveTask β)
    (hxy : r.takesProve now x = some y) :
    Stage.matchProve t x = false ∧ Stage.matchProve t y = false := by
  subst hr'
  cases r with
  | split t' => cases hxy
  | agg t' io => cases hxy
  | prove t' =>
      have hne : t'.taskId ≠ t.taskId :=
        fun hid => h (congrArg (Prod.mk Kind.prove) hid)
      obtain ⟨hx, hy⟩ := takeProve_key x y hxy
      rw [Stage.matchProve, Stage.matchProve, hx, hy, decide_eq_false hne]
      exact ⟨rfl, rfl⟩

/-- Taking a result does not make another one match. -/
theorem matchAgg_takes (h : r.task ≠ r'.task) {now : Nat} {t : AggTask β}
    {io : Bool} (hr' : r' = .agg t io) (x y : AggTask β)
    (hxy : r.takesAgg now x = some y) :
    Stage.matchAgg t y = Stage.matchAgg t x := by
  subst hr'
  obtain ⟨htask, hid, _, _⟩ := takesAgg_eq_some hxy
  have hne : x.taskId ≠ t.taskId := by
    intro heq
    rw [heq] at htask
    exact h htask.symm
  rw [Stage.matchAgg, Stage.matchAgg, hid, decide_eq_false hne,
    Bool.false_and, Bool.false_and]

/-- Nor does clearing a child. -/
theorem matchAgg_clears (t x y : AggTask β) (hxy : r.clears x = some y) :
    Stage.matchAgg t y = Stage.matchAgg t x := by
  obtain ⟨_, _, _, _, rfl⟩ := clears_eq_some hxy
  rfl

/-- Whether a result is a failure of its task does not depend on the other
    result. -/
theorem fails_onStage (h : r.task ≠ r'.task) (now : Nat) (s : Stage β) :
    r'.fails (r.onStage now s) = r'.fails s := by
  cases hr' : r' with
  | split t => rfl
  | prove t =>
      show ((s.proveTasks.replaceF (r.takesProve now)).find? _).any _ = _
      rw [find?_replaceF (takesProve_other h hr')]
      rfl
  | agg t io =>
      show ((((s.aggTasks.replaceF (r.takesAgg now)).replaceF
        r.clears).find? _).isSome && _) = _
      rw [find?_isSome_replaceF fun x _ y hxy => matchAgg_clears t x y hxy,
        find?_isSome_replaceF fun x _ y hxy => matchAgg_takes h hr' x y hxy]
      rfl

/-- Whether a result is refused does not depend on the others. -/
theorem refused_onStage (now : Nat) (r r' : Arrival β) (s : Stage β) :
    r'.refused (r.onStage now s) = r'.refused s := by
  cases r' <;> rfl

/-- Nor does what it writes. -/
theorem writes_onStage (now : Nat) (r r' : Arrival β) (s : Stage β) :
    r'.writes (r.onStage now s) = r'.writes s := by
  cases r' <;> rfl

/-- Only the final agg task and the snark task write. -/
theorem writes_final {s : Stage β} {b : β} (h : r.writes s = some b) :
    r.isFinal = true := by
  cases r with
  | split t => cases h
  | prove t => cases h
  | agg t io =>
      rw [writes] at h
      split at h
      case isTrue hc => exact hc.2.1
      case isFalse => cases h

/-- What is in the file behind two results does not depend on their order. -/
theorem writes_comm (h : ¬ (r.isFinal = true ∧ r'.isFinal = true))
    (s : Stage β) (file : Option β) :
    (r'.writes s).or ((r.writes s).or file)
      = (r.writes s).or ((r'.writes s).or file) := by
  cases hw : r.writes s with
  | none => rfl
  | some b =>
      cases hw' : r'.writes s with
      | none => rfl
      | some b' => exact absurd ⟨writes_final hw, writes_final hw'⟩ h

/-! ## Two results commute -/

/-- The stage behind two results is the same in either order. -/
theorem onStage_comm (h : Distinct r r') (hun : Unlisted s.aggTasks)
    (now : Nat) :
    r'.onStage now (r.onStage now s) = r.onStage now (r'.onStage now s) := by
  have hsplit := onSplit_comm h.split now s.splitTask
  have hproves := onProves_comm h.task now s.proveTasks
  have haggs := onAggs_comm h.task hun now
  have herr : (s.isError || r.fails s || r'.fails (r.onStage now s))
      = (s.isError || r'.fails s || r.fails (r'.onStage now s)) := by
    rw [fails_onStage h.task, fails_onStage h.symm.task, Bool.or_right_comm]
  show ({ s with
      splitTask := r'.onSplit now (r.onSplit now s.splitTask)
      proveTasks :=
        (s.proveTasks.replaceF (r.takesProve now)).replaceF (r'.takesProve now)
      aggTasks := r'.onAggs now (r.onAggs now s.aggTasks)
      isError := s.isError || r.fails s || r'.fails (r.onStage now s) } :
    Stage β) = _
  rw [hsplit, hproves, haggs, herr]
  rfl

/-- **TWO RESULTS**: for distinct tasks they commute, files and panics
    included. -/
theorem deliver_comm (h : Distinct r r') (hun : Unlisted s.aggTasks)
    (now : Nat) (file : Option β) :
    (r.deliver now (s, file)).bind (r'.deliver now)
      = (r'.deliver now (s, file)).bind (r.deliver now) := by
  have hboth : ∀ r r' : Arrival β,
      (r.deliver now (s, file)).bind (r'.deliver now)
        = if r.refused s = true ∨ r'.refused s = true then none
          else some (r'.onStage now (r.onStage now s),
            (r'.writes s).or ((r.writes s).or file)) := by
    intro r r'
    rw [deliver_eq]
    by_cases href : r.refused s = true
    · rw [if_pos href, if_pos (Or.inl href), Option.bind_none]
    · rw [if_neg href, Option.bind_some, deliver_eq, refused_onStage,
        writes_onStage]
      by_cases href' : r'.refused s = true
      · rw [if_pos href', if_pos (Or.inr href')]
      · rw [if_neg href', if_neg (not_or.mpr ⟨href, href'⟩)]
  rw [hboth r r', hboth r' r, onStage_comm h hun, writes_comm h.final]
  by_cases href : r.refused s = true ∨ r'.refused s = true
  · rw [if_pos href, if_pos href.symm]
  · rw [if_neg href, if_neg fun h => href h.symm]

/-! ## Times of arrival -/

/-- `on_task!` at another time differs in the finish time only. -/
theorem onTask_untimed (now : Nat) (src dst : TaskHead β) :
    (onTask now src dst).untimed = onTask 0 src dst.untimed := by
  unfold onTask
  split
  · split <;> rfl
  · rfl

/-- So does `on_prove_task!`. -/
theorem onProveTaskDst_untimed (now : Nat) (src dst : ProveTask β) :
    (onProveTaskDst now src dst).untimed
      = onProveTaskDst 0 src dst.untimed := by
  unfold onProveTaskDst
  split
  · split <;> rfl
  · rfl

theorem onSplit_untimed (now : Nat) (r : Arrival β) (t : SplitTask β) :
    (r.onSplit now t).untimed = r.onSplit 0 t.untimed := by
  cases r with
  | prove c => rfl
  | agg c io => rfl
  | split c =>
      show ({ t with
        toTaskHead := (onTask now c.toTaskHead t.toTaskHead).untimed
        totalSteps := c.totalSteps
        totalSegments := c.totalSegments } : SplitTask β) = _
      rw [onTask_untimed]
      rfl

theorem takesProve_untimed (now : Nat) (r : Arrival β) (t : ProveTask β) :
    (r.takesProve now t).map ProveTask.untimed
      = r.takesProve 0 t.untimed := by
  cases r with
  | split c => rfl
  | agg c io => rfl
  | prove c =>
      show (Stage.takeProve now c t).map _ = Stage.takeProve 0 c t.untimed
      have hmatch : Stage.matchProve c t.untimed = Stage.matchProve c t := rfl
      rw [Stage.takeProve, Stage.takeProve, hmatch]
      split
      · rw [Option.map_some, onProveTaskDst_untimed]
      · rfl

theorem takesAgg_untimed (now : Nat) (r : Arrival β) (a : AggTask β) :
    (r.takesAgg now a).map AggTask.untimed = r.takesAgg 0 a.untimed := by
  cases r with
  | split c => rfl
  | prove c => rfl
  | agg c io =>
      show (Stage.takeAgg now c a).map _ = Stage.takeAgg 0 c a.untimed
      have hmatch : Stage.matchAgg c a.untimed = Stage.matchAgg c a := rfl
      rw [Stage.takeAgg, Stage.takeAgg, hmatch]
      split
      · show some ({ a with toTaskHead :=
          (onTask now c.toTaskHead a.toTaskHead).untimed } : AggTask β) = _
        rw [onTask_untimed]
        rfl
      · rfl

theorem clearChildTask_untimed (id : Nat) (a : AggTask β) :
    (AggTask.clearChildTask id a).map AggTask.untimed
      = AggTask.clearChildTask id a.untimed := by
  have hstate : a.untimed.state = a.state := rfl
  rw [AggTask.clearChildTask, AggTask.clearChildTask, hstate]
  split
  · rw [Option.map_map]
    rfl
  · rfl

theorem clears_untimed (r : Arrival β) (a : AggTask β) :
    (r.clears a).map AggTask.untimed = r.clears a.untimed := by
  rcases r.clears_cases with hno | ⟨id, hid⟩
  · rw [hno]
    rfl
  · rw [hid]
    exact clearChildTask_untimed id a

theorem fails_untimed (r : Arrival β) (s : Stage β) :
    r.fails s.untimed = r.fails s := by
  cases r with
  | split t => rfl
  | prove t =>
      show ((s.proveTasks.map ProveTask.untimed).find? _).any _ = _
      rw [List.find?_map, Option.any_map]
      rfl
  | agg t io =>
      show (((s.aggTasks.map AggTask.untimed).find? _).isSome && _) = _
      rw [List.find?_map, Option.isSome_map]
      rfl

/-- So does the whole stage. -/
theorem onStage_untimed (now : Nat) (r : Arrival β) (s : Stage β) :
    (r.onStage now s).untimed = r.onStage 0 s.untimed := by
  have hproves := replaceF_map (takesProve_untimed now r) s.proveTasks
  have haggs : (r.onAggs now s.aggTasks).map AggTask.untimed
      = r.onAggs 0 (s.aggTasks.map AggTask.untimed) := by
    rw [onAggs, onAggs, replaceF_map (clears_untimed r),
      replaceF_map (takesAgg_untimed now r)]
  show ({ s with
      splitTask := (r.onSplit now s.splitTask).untimed
      proveTasks :=
        (s.proveTasks.replaceF (r.takesProve now)).map ProveTask.untimed
      aggTasks := (r.onAggs now s.aggTasks).map AggTask.untimed
      snarkTask := s.snarkTask.untimed
      isError := s.isError || r.fails s } : Stage β) = _
  rw [onSplit_untimed, hproves, haggs, ← fails_untimed]
  rfl

/-- **NO CLOCK**: the time of arrival shows in the finish times only. -/
theorem deliver_untimed (now : Nat) (r : Arrival β)
    (x : Stage β × Option β) :
    (r.deliver now x).map untimed = r.deliver 0 (untimed x) := by
  obtain ⟨s, file⟩ := x
  have hrefused : r.refused s.untimed = r.refused s := by cases r <;> rfl
  have hwrites : r.writes s.untimed = r.writes s := by cases r <;> rfl
  show _ = r.deliver 0 (s.untimed, file)
  rw [deliver_eq, deliver_eq, hrefused, hwrites, ← onStage_untimed now]
  split <;> rfl

/-- Results leave the tasks unlisted. -/
theorem Unlisted.deliver {x x' : Stage β × Option β} {now : Nat}
    (h : Unlisted x.1.aggTasks) (hd : r.deliver now x = some x') :
    Unlisted x'.1.aggTasks := by
  obtain ⟨s, file⟩ := x
  rw [deliver_eq] at hd
  split at hd
  case isTrue => cases hd
  case isFalse =>
    cases hd
    exact h.onAggs now r

theorem Unlisted.untimed {as : List (AggTask β)} (h : Unlisted as) :
    Unlisted (as.map AggTask.untimed) := by
  intro a ha hst
  obtain ⟨b, hb, rfl⟩ := List.mem_map.mp ha
  exact h b hb hst

end Arrival

/-! ## Any order -/

/-- Results at any times, up to the finish times. -/
theorem deliverAll_untimed (rs : List (Nat × Arrival β))
    (x : Stage β × Option β) :
    (deliverAll rs x).map untimed
      = run (fun x (r : Arrival β) => r.deliver 0 x) (untimed x)
          (rs.map (·.2)) :=
  run_map (fun x r => r.2.deliver_untimed r.1 x) x rs

/-- **ANY ORDER**: pairwise distinct results may arrive in any order, and at
    any times. -/
theorem deliverAll_perm {rs rs' : List (Nat × Arrival β)}
    (hperm : (rs.map (·.2)).Perm (rs'.map (·.2)))
    (hrs : (rs.map (·.2)).Pairwise Arrival.Distinct) {x : Stage β × Option β}
    (hx : Arrival.Unlisted x.1.aggTasks) :
    (deliverAll rs x).map untimed = (deliverAll rs' x).map untimed := by
  rw [deliverAll_untimed, deliverAll_untimed]
  exact run_perm (I := fun x => Arrival.Unlisted x.1.aggTasks)
    (fun _ _ h => h.symm) (fun _ _ _ h hd => h.deliver hd)
    (fun x r r' hun h => Arrival.deliver_comm h hun 0 x.2) hperm hrs
    hx.untimed

/-! ## Results of a reachable world -/

section

variable [Blob β] {feat : Feature} {g : GenerateTask β} {w : World β}

omit [Blob β] in
/-- No agg task waits for itself, as its children are earlier ones. -/
theorem Graph.unlisted (h : Graph feat w) :
    Arrival.Unlisted w.stage.aggTasks := by
  intro a ha hst id
  cases hc : clearChild id a.childs with
  | none => rfl
  | some childs =>
      have hwaits := h.listed.waits a ha id (clearChild_some hc).1
      cases hst.symm.trans hwaits

/-- The result that a call of the scheduler delivers. -/
def World.arrival (w : World β) : Action β → Option (Nat × Arrival β)
  | .onSplit i r now => w.splits[i]?.map fun c => (now, .split (r.split c))
  | .onProve i r now => w.proves[i]?.map fun c => (now, .prove (r.prove c))
  | .onAgg i r now io => w.aggs[i]?.map fun c => (now, .agg (r.agg c) io)
  | _ => none

/-- A result of the scheduler is one in flight, and is delivered as such. -/
theorem World.step_deliver {a : Action β} {r : Nat × Arrival β}
    (ha : w.arrival a = some r) :
    w.Brings r.2 ∧ (w.step feat a).map (fun w => (w.stage, w.snarkFile))
      = r.2.deliver r.1 (w.stage, w.snarkFile) := by
  cases a with
  | onSplit i q now =>
      obtain ⟨c, hc, rfl⟩ := Option.map_eq_some_iff.mp ha
      simp only [World.step, hc]
      exact ⟨.split c q (List.mem_of_getElem? hc), rfl⟩
  | onProve i q now =>
      obtain ⟨c, hc, rfl⟩ := Option.map_eq_some_iff.mp ha
      simp only [World.step, hc]
      exact ⟨.prove c q (List.mem_of_getElem? hc), rfl⟩
  | onAgg i q now io =>
      obtain ⟨c, hc, rfl⟩ := Option.map_eq_some_iff.mp ha
      simp only [World.step, hc, Option.map_map]
      exact ⟨.agg c q io (List.mem_of_getElem? hc), rfl⟩
  | dispatch disk => cases ha
  | getSplit now => cases ha
  | getProve disk now => cases ha
  | getAgg now => cases ha
  | getSnark now => cases ha
  | onSnark i q now io => cases ha

omit [Blob β] in
/-- There is one split task out at most. -/
theorem World.Brings.split_unique (hl : Leases w) {r r' : Arrival β}
    (hr : w.Brings r) (hr' : w.Brings r') (hs : r.task.1 = .split)
    (hs' : r'.task.1 = .split) : r.task = r'.task := by
  cases hr with
  | prove c q hc => cases hs
  | agg c q io hc => cases hs
  | split c q hc =>
      cases hr' with
      | prove c' q' hc' => cases hs'
      | agg c' q' io hc' => cases hs'
      | split c' q' hc' =>
          obtain ⟨i, hi⟩ := List.mem_iff_getElem?.mp hc
          obtain ⟨j, hj⟩ := List.mem_iff_getElem?.mp hc'
          by_cases hij : i = j
          · subst hij
            cases hi.symm.trans hj
            rfl
          · have htwo : 2 ≤ copies (fun _ => ()) () w.splits :=
              two_le_copies hi hj hij rfl rfl
            have hone := hl.split.once ()
            omega

omit [Blob β] in
/-- The last agg task has one copy out at most. -/
theorem World.Brings.final_unique (hs : Shape w) (hl : Leases w)
    (hg : Graph feat w) (hc : Credit w) {r r' : Arrival β} (hr : w.Brings r)
    (hr' : w.Brings r') (hf : r.isFinal = true) (hf' : r'.isFinal = true) :
    r.task = r'.task := by
  cases hr with
  | split c q hcm => cases hf
  | prove c q hcm => cases hf
  | agg c q io hcm =>
      cases hr' with
      | split c' q' hcm' => cases hf'
      | prove c' q' hcm' => cases hf'
      | agg c' q' io' hcm' =>
          obtain ⟨a, ha, hid⟩ := hl.known c hcm
          obtain ⟨a', ha', hid'⟩ := hl.known c' hcm'
          have hfa := ((hc.copy c hcm a ha hid).1.symm.trans hf)
          have hfa' := ((hc.copy c' hcm' a' ha' hid').1.symm.trans hf')
          have haa := hg.final_unique hs ha ha' hfa hfa'
          show (Kind.agg, c.taskId) = (Kind.agg, c'.taskId)
          rw [← hid, ← hid', haa]

/-- Of two results of different tasks one at most is of the split, and one at
    most is final. -/
theorem Reachable.distinct (h : Reachable feat g w) {r r' : Arrival β}
    (hr : w.Brings r) (hr' : w.Brings r') (hne : r.task ≠ r'.task) :
    r.Distinct r' where
  task := hne
  split := fun hs => hne (hr.split_unique h.leases hr' hs.1 hs.2)
  final := fun hf =>
    hne (hr.final_unique h.shape h.leases h.graph h.credit hr' hf.1 hf.2)

/-- **ORDER OF ARRIVAL**: results in flight for distinct tasks leave the same
    stage and the same file in whatever order, and at whatever times, they
    arrive. -/
theorem order_of_arrival (h : Reachable feat g w)
    {rs rs' : List (Nat × Arrival β)} (hout : ∀ r ∈ rs, w.Brings r.2)
    (htasks : (rs.map fun r => r.2.task).Nodup)
    (hperm : (rs.map (·.2)).Perm (rs'.map (·.2))) :
    (deliverAll rs (w.stage, w.snarkFile)).map untimed
      = (deliverAll rs' (w.stage, w.snarkFile)).map untimed := by
  have hpair : (rs.map (·.2)).Pairwise Arrival.Distinct := by
    rw [List.pairwise_map]
    rw [List.Nodup, List.pairwise_map] at htasks
    exact htasks.imp_of_mem fun hr hr' hne =>
      h.distinct (hout _ hr) (hout _ hr') hne
  exact deliverAll_perm hperm hpair h.graph.unlisted

end

/-- One proof and one failure, in either order. -/
theorem order_of_arrival_two :
    ∃ (w : World (List UInt8)) (c c' : ProveTask (List UInt8)),
      Reachable .prover aggRequest w ∧ w.proves = [c, c'] ∧
      (deliverAll
          [(4, .prove ((Reply.mk .Success "a" [20]).prove c)),
            (5, .prove ((Reply.mk .Failed "b" []).prove c'))]
          (w.stage, w.snarkFile)).map untimed
        = (deliverAll
          [(6, .prove ((Reply.mk .Failed "b" []).prove c')),
            (7, .prove ((Reply.mk .Success "a" [20]).prove c))]
          (w.stage, w.snarkFile)).map untimed := by
  obtain ⟨w, hw, hp⟩ := Reachable.of_check .prover aggRequest
    (splitRun ++ [.getProve .full 3, .getProve .full 3])
    (fun w => w.proves.length = 2 ∧ (w.proves.map (·.taskId)).Nodup)
    (by decide)
  obtain ⟨hlen, hnd⟩ := of_decide_eq_true hp
  obtain ⟨c, c', hcs⟩ := List.length_eq_two.mp hlen
  rw [hcs] at hnd
  refine ⟨w, c, c', hw, hcs, order_of_arrival hw ?_ ?_ ?_⟩
  · intro r hr
    rcases List.mem_pair.mp hr with rfl | rfl
    · exact .prove c _ (hcs ▸ List.mem_cons_self)
    · exact .prove c' _ (hcs ▸ List.mem_cons_of_mem _ List.mem_cons_self)
  · refine List.Nodup.of_map (·.2) ?_
    exact hnd
  · exact List.Perm.swap ..

end ZkmProver
