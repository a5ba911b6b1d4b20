import ZkmProver.Worker

/-! # Error status — which status a failed run leaves behind

    The status is read off the step field when the loop is left.  Split, prove
    and agg tasks are all in flight under step `Prove`, snark tasks under step
    `Snark` (`Reachable.under_prove`, `Reachable.under_snark`), so the status
    names the failing phase for prove and snark results only. -/

namespace ZkmProver

open Forest Keyed Machine

variable {β : Type} [Blob β]

/-- The phases that have an error status of their own. -/
inductive Kind where
  | split
  | prove
  | agg
  | snark
  deriving DecidableEq

/-- The status the API documentation gives a failure in this phase. -/
def Kind.documented : Kind → Status
  | .split => .SplitError
  | .prove => .ProveError
  | .agg => .AggError
  | .snark => .SnarkError

omit [Blob β] in
/-- The phase of a FAILED result. -/
def Event.failed : Event β → Option Kind
  | .tick => none
  | .split _ r => if r.state = .Failed then some .split else none
  | .prove _ r => if r.state = .Failed then some .prove else none
  | .agg _ r _ => if r.state = .Failed then some .agg else none
  | .snark _ r _ => if r.state = .Failed then some .snark else none

section

variable {feat : Feature} {g : GenerateTask β} {w w' : World β}

/-! ## Where a stage is when a copy is out -/

/-- With target `Split` there are no prove tasks. -/
theorem Reachable.split_target (h : Reachable feat g w)
    (ht : g.targetStep = .Split) : w.stage.proveTasks = [] := by
  have hboth : w.stage.generateTask = g ∧ w.stage.proveTasks = [] := by
    refine h.inv (I := fun w => w.stage.generateTask = g ∧
      w.stage.proveTasks = []) (fun file => ⟨rfl, rfl⟩) ?_
    rintro v v' _ ⟨hreq, hnil⟩ hm
    refine ⟨hm.request.trans hreq, ?_⟩
    cases hm with
    | grow new _ _ hne _ => exact absurd (hreq ▸ ht) hne
    | finalise s listing hf =>
        cases hf with
        | mk _ _ _ _ _ _ _ _ _ _ hne _ _ _ => exact absurd (hreq ▸ ht) hne
    | proveOut now x t hx _ _ =>
        rw [hnil] at hx
        exact nomatch hx
    | proveIn i c t r now ps err _ htaken _ _ =>
        cases htaken with
        | miss _ => exact hnil
        | hit x hx _ _ =>
            rw [hnil] at hx
            exact nomatch hx
    | _ => exact hnil
  exact hboth.2

/-- Some split, prove or agg task is out. -/
inductive Proving (s : Stage β) : Prop where
  | split : s.splitTask.state = .Processing → Proving s
  | prove (t : ProveTask β) : t ∈ s.proveTasks → t.state = .Processing →
      Proving s
  | agg (a : AggTask β) : a ∈ s.aggTasks → a.state = .Processing → Proving s

omit [Blob β] in
/-- A stage that has not begun has no task out. -/
theorem Idle.not_proving {s : Stage β} (h : Idle s) (haggs : s.aggTasks = []) :
    ¬ Proving s := by
  intro hp
  cases hp with
  | split hst => exact nomatch h.split.symm.trans hst
  | prove t ht _ =>
      rw [h.proves] at ht
      exact nomatch ht
  | agg a ha _ =>
      rw [haggs] at ha
      exact nomatch ha

omit [Blob β] in
/-- Nor has one that has aggregated. -/
theorem Aggregated.not_proving {s : Stage β} (h : Aggregated s)
    (hsplit : s.splitTask.state = .Success) : ¬ Proving s := by
  intro hp
  cases hp with
  | split hst => exact nomatch hsplit.symm.trans hst
  | prove t ht hst => exact nomatch (h.proved.all t ht).symm.trans hst
  | agg a ha hst => exact nomatch (h.aggs a ha).symm.trans hst

/-- A stage with a snark task has nothing else out. -/
theorem Reachable.snark_alone (hfrom : g.fromStep = .Init ∨ g.fromStep = .Agg)
    (h : Reachable feat g w) (hsn : w.stage.snarkTask.state ≠ .Initial) :
    ¬ Proving w.stage := by
  have hp := h.phases hfrom
  rcases hfrom with hf | hf
  · have hagg := (hp.due hsn hf).1
    exact hagg.not_proving (hp.gen hagg.proved.done).1
  · have hidle := hp.idle hf
    exact hidle.not_proving (h.shape.early hidle.gen).1

/-- **UNDER PROVE**: a split, prove or agg task is out at step `Prove` only. -/
theorem Reachable.under_prove
    (hfrom : g.fromStep = .Init ∨ g.fromStep = .Agg)
    (h : Reachable feat g w) (hout : Proving w.stage) :
    w.stage.step = .Prove := by
  have hp := h.phases hfrom
  have hno : w.stage.snarkTask.state = .Initial :=
    Classical.byContradiction fun hsn => h.snark_alone hfrom hsn hout
  have hidle : Idle w.stage → False := fun hi =>
    hi.not_proving (h.shape.early hi.gen).1 hout
  cases hstep : w.stage.step with
  | Prove => rfl
  | Init => exact (hidle (hp.init hstep).2.1).elim
  | Split => exact absurd hstep hp.split
  | Agg => exact (hidle (hp.idle (hp.agg hstep).1)).elim
  | Snark => exact absurd hno (hp.snark hstep)
  | End =>
      cases hp.ended hstep with
      | split hst ht =>
          -- a split alone: no prove task and no agg task was made
          rw [hp.request] at ht
          cases hout with
          | split hb => exact nomatch hst.symm.trans hb
          | prove t hmem _ =>
              rw [h.split_target ht] at hmem
              exact nomatch hmem
          | agg a hmem _ =>
              cases hd : w.stage.isTasksGenDone with
              | false =>
                  rw [(h.shape.early hd).1] at hmem
                  exact nomatch hmem
              | true => exact absurd ht (hp.gen hd).2
      | composite hproved hc =>
          cases hout with
          | split hb => exact nomatch (hp.gen hproved.done).1.symm.trans hb
          | prove t hmem hb => exact nomatch (hproved.all t hmem).symm.trans hb
          | agg a hmem _ =>
              rw [h.graph.composite hproved.done hc] at hmem
              exact nomatch hmem
      | agg hagg _ =>
          exact (hagg.not_proving (hp.gen hagg.proved.done).1 hout).elim
      | snark hst => exact nomatch hno.symm.trans hst

/-- **UNDER SNARK**: the snark task is out at step `Snark` only. -/
theorem Reachable.under_snark
    (hfrom : g.fromStep = .Init ∨ g.fromStep = .Agg)
    (h : Reachable feat g w)
    (hout : w.stage.snarkTask.state = .Processing) :
    w.stage.step = .Snark := by
  have hp := h.phases hfrom
  have hne : w.stage.snarkTask.state ≠ .Initial := by
    rw [hout]
    exact nofun
  -- a stage from `Agg` has made nothing but its snark task
  have hlate : w.stage.isTasksGenDone = true → Aggregated w.stage ∧
      g.targetStep ≠ .Agg := by
    intro hd
    rcases hfrom with hf | hf
    · exact hp.due hne hf
    · exact nomatch (hp.idle hf).gen.symm.trans hd
  cases hstep : w.stage.step with
  | Snark => rfl
  | Init => exact absurd (hp.init hstep).2.2 hne
  | Split => exact absurd hstep hp.split
  | Agg => exact absurd (hp.agg hstep).2 hne
  | Prove => exact absurd (hp.prove hstep).2.2 hne
  | End =>
      cases hp.ended hstep with
      | split hst ht =>
          rcases hfrom with hf | hf
          · have hagg := (hp.due hne hf).1
            rw [hp.request] at ht
            exact absurd ht (hp.gen hagg.proved.done).2
          · exact nomatch (hp.idle hf).split.symm.trans hst
      | composite hproved hc =>
          exact nomatch (hlate hproved.done).1.whole.symm.trans hc
      | agg hagg ht =>
          rw [hp.request] at ht
          exact absurd ht (hlate hagg.proved.done).2
      | snark hst => exact nomatch hst.symm.trans hout

/-! ## A result that raises the error flag -/

/-- What is out when the flag is raised. -/
def Blamed (s : Stage β) : Kind → Prop
  | .snark => s.snarkTask.state = .Processing
  | _ => Proving s

omit [Blob β] in
/-- A result that finds its prove task comes while it is out. -/
theorem find_matchProve {s : Stage β} {t x : ProveTask β}
    (h : s.proveTasks.find? (Stage.matchProve t) = some x) : Proving s := by
  have hmatch := List.find?_some h
  rw [Stage.matchProve, Bool.and_eq_true, decide_eq_true_eq,
    decide_eq_true_eq] at hmatch
  exact .prove x (List.mem_of_find?_eq_some h) hmatch.2

omit [Blob β] in
/-- The same for an agg task. -/
theorem find_matchAgg {s : Stage β} {t x : AggTask β}
    (h : s.aggTasks.find? (Stage.matchAgg t) = some x) : Proving s := by
  have hmatch := List.find?_some h
  rw [Stage.matchAgg, Bool.and_eq_true, decide_eq_true_eq,
    decide_eq_true_eq] at hmatch
  exact .agg x (List.mem_of_find?_eq_some h) hmatch.2

/-- **BLAME**: a FAILED result raises the flag only if the stage's task is
    out, and it leaves the step alone. -/
theorem Reachable.blamed {v : World β} (h : Reachable feat g v) {now : Nat}
    {e : Event β} {k : Kind} (hk : e.failed = some k)
    (hrec : ZkmProver.receive feat now e v = some w)
    (hbefore : v.stage.isError = false) (hafter : w.stage.isError = true) :
    Blamed v.stage k ∧ w.stage.step = v.stage.step := by
  have hsame : w = v → False := by
    rintro rfl
    exact nomatch hbefore.symm.trans hafter
  cases e with
  | tick => exact nomatch hk
  | split i r =>
      rw [Event.failed] at hk
      split at hk <;> cases hk
      simp only [ZkmProver.receive, Event.action, World.step] at hrec
      cases hc : v.splits[i]? with
      | none =>
          simp only [hc, Option.some.injEq] at hrec
          exact (hsame hrec.symm).elim
      | some c =>
          simp only [hc, Option.some.injEq] at hrec
          subst hrec
          exact ⟨.split (h.leases.split_busy (List.mem_of_getElem? hc)), rfl⟩
  | prove i r =>
      rw [Event.failed] at hk
      split at hk <;> cases hk
      simp only [ZkmProver.receive, Event.action, World.step] at hrec
      cases hc : v.proves[i]? with
      | none =>
          simp only [hc, Option.some.injEq] at hrec
          exact (hsame hrec.symm).elim
      | some c =>
          simp only [hc, onProveTask_eq, Option.some.injEq] at hrec
          subst hrec
          refine ⟨?_, rfl⟩
          simp only [hbefore, Bool.false_or, Option.any_eq_true] at hafter
          obtain ⟨x, hx, _⟩ := hafter
          exact find_matchProve hx
  | agg i r io =>
      rw [Event.failed] at hk
      split at hk <;> cases hk
      simp only [ZkmProver.receive, Event.action, World.step] at hrec
      cases hc : v.aggs[i]? with
      | none =>
          simp only [hc, Option.some.injEq] at hrec
          exact (hsame hrec.symm).elim
      | some c =>
          simp only [hc, Option.map_eq_some_iff] at hrec
          obtain ⟨⟨s, t, file⟩, hon, rfl⟩ := hrec
          obtain ⟨rfl, _, _⟩ := onAggTask_eq hon
          refine ⟨?_, rfl⟩
          simp only [hbefore, Bool.false_or, Bool.and_eq_true] at hafter
          obtain ⟨x, hx⟩ := Option.isSome_iff_exists.mp hafter.1
          exact find_matchAgg hx
  | snark i r io =>
      rw [Event.failed] at hk
      split at hk <;> cases hk
      simp only [ZkmProver.receive, Event.action, World.step] at hrec
      cases hc : v.snarks[i]? with
      | none =>
          simp only [hc, Option.some.injEq] at hrec
          exact (hsame hrec.symm).elim
      | some c =>
          simp only [hc, Option.map_eq_some_iff] at hrec
          obtain ⟨⟨s, t, file⟩, hon, rfl⟩ := hrec
          obtain ⟨rfl, _, _⟩ := onSnarkTask_eq hon
          exact ⟨h.leases.snark_busy (List.mem_of_getElem? hc), rfl⟩

/-- The status goes by the step, which is Snark for a snark task and Prove for
    the others. -/
theorem errorStatus_blamed (hfrom : g.fromStep = .Init ∨ g.fromStep = .Agg)
    {v : World β} (h : Reachable feat g v) {k : Kind}
    (hb : Blamed v.stage k) :
    errorStatus v.stage.step
      = if k = .snark then Status.SnarkError else .ProveError := by
  cases k with
  | snark =>
      rw [h.under_snark hfrom hb]
      rfl
  | split =>
      rw [h.under_prove hfrom hb]
      rfl
  | prove =>
      rw [h.under_prove hfrom hb]
      rfl
  | agg =>
      rw [h.under_prove hfrom hb]
      rfl

end

/-! ## The row -/

/-- The run `acts` has come to the world `v`, where the FAILED result `e` of a
    task of kind `k` arrives and raises the error flag. -/
structure EndsBy (feat : Feature) (task : StageTask β) (row : StageRow)
    (b : Boot β) (acts : List (Act β)) (now : Nat) (e : Event β) (k : Kind)
    (l : Loop β) (v w : World β) : Prop where
  run    : Runs feat task row b acts (.waiting l v)
  result : e.failed = some k
  taken  : ZkmProver.receive feat now e v = some w
  before : v.stage.isError = false
  after  : w.stage.isError = true

/-- Such a run returns with the status of the step it is at. -/
theorem EndsBy.returned {feat : Feature} {task : StageTask β} {row : StageRow}
    {b : Boot β} {acts : List (Act β)} {now : Nat} {e : Event β} {k : Kind}
    {l : Loop β} {v w : World β}
    (h : EndsBy feat task row b acts now e k l v w) (now' : Nat)
    (disk : Disk β) (duration : Nat) :
    Runs feat task row b
      (acts ++ [.receive now e, .dispatch now' disk duration])
      (.returned (l.row.updateStageTask (errorStatus w.stage.step) "")
        (some w.stage)) := by
  refine run_append.mpr ⟨_, h.run, run_cons.mpr ⟨.received l w, ?_, ?_⟩⟩
  · simp only [Ctl.step, h.taken]
  · refine run_cons.mpr ⟨_, rfl, ?_⟩
    simp only [run_nil, conclude, finish, h.after, Bool.or_true, if_true]

/-- **ERROR STATUS**: a run that a FAILED result ends writes the documented
    status of the phase just when it is the prove or the snark phase. -/
theorem error_status_phase {feat : Feature} {g : GenerateTask β}
    (hfrom : g.fromStep = .Init ∨ g.fromStep = .Agg) {task : StageTask β}
    {row : StageRow} {b : Boot β} {acts : List (Act β)} {now : Nat}
    {e : Event β} {k : Kind} {l : Loop β} {v w : World β}
    (hctx : task.context = .request g)
    (h : EndsBy feat task row b acts now e k l v w) (now' : Nat)
    (disk : Disk β) (duration : Nat) :
    ∃ row', Runs feat task row b
        (acts ++ [.receive now e, .dispatch now' disk duration])
        (.returned row' (some w.stage)) ∧
      (row'.status = k.documented ↔ k = .prove ∨ k = .snark) := by
  have hr : Reachable feat g v := (h.run.inside hctx).2
  obtain ⟨hblamed, hstep⟩ := hr.blamed h.result h.taken h.before h.after
  refine ⟨_, h.returned now' disk duration, ?_⟩
  show errorStatus w.stage.step = _ ↔ _
  rw [hstep, errorStatus_blamed hfrom hr hblamed]
  cases k <;> decide

/-- A request that starts from given receipts. -/
def snarkTaskRow : StageTask (List UInt8) where
  context := .request
    { GenerateTask.default with
      fromStep := .Agg
      targetStep := .Snark
      maxProverNum := 1 }
  checkAt := 0
  step := .Init

/-- One receipt of one byte, at any path. -/
def receiptBoot : Boot (List UInt8) :=
  { freshBoot with
    disk := { Disk.full with
      read := fun _ => some
        [1, 0, 0, 0, 0, 0, 0, 0, 1, 0, 0, 0, 0, 0, 0, 0, 7] } }

/-- A failed snark result is recorded as such. -/
theorem error_status_snark :
    ∃ row s, Runs .prover snarkTaskRow freshRow receiptBoot
        (quickTurn (.snark 0 ⟨.Failed, "a", []⟩ true)) (.returned row s) ∧
      row.status = .SnarkError := by
  obtain ⟨c, hrun, hc⟩ := Runs.of_check .prover snarkTaskRow freshRow
    receiptBoot [.handOut (fun k => k) .full] (fun c => match c with
      | .waiting _ v => v.stage.isError = false ∧
          (receive .prover 1 (.snark 0 ⟨.Failed, "a", []⟩ true) v).any
            (fun w => w.stage.isError) = true
      | _ => false) (by decide)
  cases c with
  | waiting l v =>
      obtain ⟨hbefore, hafter⟩ := of_decide_eq_true hc
      obtain ⟨w, htaken, herr⟩ := (Option.any_eq_true _ _).mp hafter
      obtain ⟨row, hend, hiff⟩ := error_status_phase (Or.inr rfl) rfl
        ⟨hrun, rfl, htaken, hbefore, herr⟩ 1 .full 0
      exact ⟨row, some w.stage, hend, hiff.mpr (Or.inr rfl)⟩
  | looping l => exact nomatch hc
  | received l w => exact nomatch hc
  | returned row stage => exact nomatch hc
  | panicked row => exact nomatch hc

/-- The split fails at once, and the row says PROVE_ERROR. -/
theorem error_status_split :
    ∃ l v w row, EndsBy .prover proveTask freshRow freshBoot
        [.handOut (fun k => k) .full] 1 (.split 0 ⟨.Failed, "a", 0, 0⟩) .split
        l v w ∧
      Runs .prover proveTask freshRow freshBoot
        (quickTurn (.split 0 ⟨.Failed, "a", 0, 0⟩))
        (.returned row (some w.stage)) ∧
      row.status = .ProveError ∧ row.status ≠ Kind.documented .split := by
  obtain ⟨c, hrun, hc⟩ := Runs.of_check .prover proveTask freshRow freshBoot
    [.handOut (fun k => k) .full] (fun c => match c with
      | .waiting _ v => v.stage.isError = false ∧
          (receive .prover 1 (.split 0 ⟨.Failed, "a", 0, 0⟩) v).any
            (fun w => w.stage.isError && w.stage.step = .Prove) = true
      | _ => false) (by decide)
  cases c with
  | waiting l v =>
      obtain ⟨hbefore, hafter⟩ := of_decide_eq_true hc
      obtain ⟨w, htaken, hw⟩ := (Option.any_eq_true _ _).mp hafter
      rw [Bool.and_eq_true, decide_eq_true_eq] at hw
      have hstatus : errorStatus w.stage.step = .ProveError := by
        rw [hw.2]
        rfl
      have hends : EndsBy .prover proveTask freshRow freshBoot
          [.handOut (fun k => k) .full] 1 (.split 0 ⟨.Failed, "a", 0, 0⟩)
          .split l v w := ⟨hrun, rfl, htaken, hbefore, hw.1⟩
      refine ⟨l, v, w, _, hends, hends.returned 1 .full 0, hstatus, ?_⟩
      show errorStatus w.stage.step ≠ _
      rw [hstatus]
      exact nofun
  | looping l => exact nomatch hc
  | received l w => exact nomatch hc
  | returned row stage => exact nomatch hc
  | panicked row => exact nomatch hc

end ZkmProver
