import ZkmProver.ProveList

/-! # Retries — the failure count of a prove task

    `on_prove_task!` counts the FAILED results of a task on the stage's copy,
    and stops counting at 3.  It raises the error flag where a FAILED result
    finds the count at 3 already: not at the third of them, as its comment
    says, but at the next one. -/

namespace ZkmProver

open Forest Keyed Machine

variable {β : Type} [Blob β]

/-! ## Counting -/

omit [Blob β] in
/-- The stage's task that a FAILED result is accepted for. -/
def World.failing (w : World β) : Action β → Option (ProveTask β)
  | .onProve i r _ =>
      if r.state = .Failed then
        (w.proves[i]?).bind fun c =>
          w.stage.proveTasks.find? (Stage.matchProve (r.prove c))
      else none
  | _ => none

omit [Blob β] in
/-- A FAILED result for a task that has failed twice, or more often. -/
def World.third (w : World β) (a : Action β) : Bool :=
  (w.failing a).any fun t => 2 ≤ t.failureCount

/-- The tasks that the FAILED results of a run were accepted for. -/
def failedIds (feat : Feature) (g : GenerateTask β) (file : Option β)
    (acts : List (Action β)) : List Nat :=
  collect (World.step feat) (fun w a => (w.failing a).map (·.taskId))
    (World.start g file) acts

/-- The number of FAILED results accepted for a task. -/
def failures (feat : Feature) (g : GenerateTask β) (file : Option β)
    (acts : List (Action β)) (id : Nat) : Nat :=
  (failedIds feat g file acts).count id

section

variable {feat : Feature} {g : GenerateTask β} {file : Option β}
  {w w' : World β} {a : Action β} {acts : List (Action β)}

omit [Blob β] in
/-- A failed result counts, up to three. -/
theorem onProveTaskDst_failureCount (now : Nat) (src dst : ProveTask β) :
    (onProveTaskDst now src dst).failureCount
      = if src.state = .Failed ∧ dst.failureCount < 3
        then dst.failureCount + 1 else dst.failureCount := by
  unfold onProveTaskDst
  cases src.state <;> simp [TaskState.settled]

omit [Blob β] in
/-- A result fails the task it matches, if it is a failure. -/
theorem failing_onProve {i now : Nat} {r : Reply β} {c : ProveTask β}
    (hc : w.proves[i]? = some c) :
    w.failing (.onProve i r now) = if r.state = .Failed
      then w.stage.proveTasks.find? (Stage.matchProve (r.prove c)) else none := by
  rw [World.failing, hc]
  rfl

omit [Blob β] in
/-- The task that fails is on the list. -/
theorem World.failing_mem {x : ProveTask β} (h : w.failing a = some x) :
    x ∈ w.stage.proveTasks := by
  cases a with
  | onProve i r now =>
      rw [World.failing] at h
      split at h
      · obtain ⟨c, _, hx⟩ := Option.bind_eq_some_iff.mp h
        exact List.mem_of_find?_eq_some hx
      · cases h
  | dispatch disk => cases h
  | getSplit now => cases h
  | getProve disk now => cases h
  | getAgg now => cases h
  | getSnark now => cases h
  | onSplit i r now => cases h
  | onAgg i r now io => cases h
  | onSnark i r now io => cases h

/-- How a task of the list has come out of a step: it is new, or it was there
    and is the one that has failed, or it has the count it had. -/
inductive Scored (w : World β) (a : Action β) (t' : ProveTask β) : Prop where
  | fresh : w.stage.uuid ≤ t'.taskId → t'.failureCount = 0 →
      w.failing a = none → Scored w a t'
  | failed (t : ProveTask β) : w.failing a = some t → t'.taskId = t.taskId →
      t'.failureCount
        = (if t.failureCount < 3 then t.failureCount + 1 else t.failureCount) →
      Scored w a t'
  | kept (t : ProveTask β) : t ∈ w.stage.proveTasks → t'.taskId = t.taskId →
      (∀ x, w.failing a = some x → x.taskId ≠ t'.taskId) →
      t'.failureCount = t.failureCount → Scored w a t'

omit [Blob β] in
/-- The count as it was, for a step that no task fails in. -/
theorem Scored.of_row {t' : ProveTask β} (hno : w.failing a = none)
    (hrow : w'.stage.proveTasks.map (fun t => (t.taskId, t.failureCount))
      = w.stage.proveTasks.map fun t => (t.taskId, t.failureCount))
    (ht' : t' ∈ w'.stage.proveTasks) : Scored w a t' := by
  obtain ⟨t, ht, hpair⟩ := exists_key hrow.symm ht'
  obtain ⟨hid, hcount⟩ := Prod.mk.inj hpair
  refine .kept t ht hid.symm (fun x hx => ?_) hcount.symm
  cases hno.symm.trans hx

/-- A `dispatch` counts no failure. -/
theorem Scored.relisted {disk : Disk β} (h : Relisted feat w.stage w'.stage)
    {t' : ProveTask β} (ht' : t' ∈ w'.stage.proveTasks) :
    Scored w (.dispatch disk) t' := by
  have stays : ∀ t ∈ w.stage.proveTasks, Scored w (.dispatch disk) t :=
    fun t ht => .kept t ht rfl (fun x hx => by cases hx) rfl
  have born : ∀ {new : List (ProveTask β)},
      Grown w.stage.generateTask w.stage.uuid w.stage.proveTasks.length new →
      ∀ t ∈ new, Scored w (.dispatch disk) t := by
    intro new hg t ht
    obtain ⟨program, u, k, rfl⟩ := hg.mem ht
    exact .fresh (fresh_range hg.ids _ ht).1 rfl rfl
  cases h with
  | grown new hg _ hlist _ =>
      rw [hlist] at ht'
      rcases List.mem_append.mp ht' with ht | ht
      · exact stays t' ht
      · exact born hg t' ht
  | finalised new deferred hg _ _ _ _ hlist hlate =>
      rw [hlist] at ht'
      rcases List.mem_append.mp ht' with ht | ht
      · rcases List.mem_append.mp (List.mem_of_mem_take ht) with ht | ht
        · exact stays t' ht
        · exact born hg t' ht
      · obtain ⟨hid, _, hcount⟩ := hlate.born t' ht
        exact .fresh hid hcount rfl

omit [Blob β] in
/-- What a result for a prove task does to the counts. -/
theorem Scored.taken (hs : Shape w) {i now : Nat} {r : Reply β}
    {c t' : ProveTask β} (hc : w.proves[i]? = some c)
    (hlist : w'.stage.proveTasks
      = w.stage.proveTasks.replaceF (Stage.takeProve now (r.prove c)))
    (ht' : t' ∈ w'.stage.proveTasks) :
    Scored w (.onProve i r now) t' := by
  by_cases hfail : r.state = .Failed
  · have hfailing : w.failing (.onProve i r now)
        = w.stage.proveTasks.find? (Stage.matchProve (r.prove c)) := by
      rw [failing_onProve hc, if_pos hfail]
    rw [hlist] at ht'
    cases hx : w.stage.proveTasks.find? (Stage.matchProve (r.prove c)) with
    | none =>
        have hsame : w.stage.proveTasks.replaceF (Stage.takeProve now (r.prove c))
            = w.stage.proveTasks := replaceF_find?_none hx
        rw [hsame] at ht'
        refine .kept t' ht' rfl (fun x hf => ?_) rfl
        cases (hfailing.trans hx).symm.trans hf
    | some x =>
        have hput : w.stage.proveTasks.replaceF (Stage.takeProve now (r.prove c))
            = put (·.taskId) (onProveTaskDst now (r.prove c) x)
                w.stage.proveTasks :=
          replaceF_find?_some hs.prove_nodup
            (fun y => onProveTaskDst_taskId now (r.prove c) y) hx
        rw [hput] at ht'
        have hid := onProveTaskDst_taskId now (r.prove c) x
        rcases mem_put.mp ht' with ⟨ht, hne⟩ | ⟨rfl, _⟩
        · refine .kept t' ht rfl (fun y hy hyt => ?_) rfl
          cases (hfailing.trans hx).symm.trans hy
          exact hne (hyt.symm.trans hid.symm)
        · refine .failed x (hfailing.trans hx) hid ?_
          have hstate : (r.prove c).state = .Failed := hfail
          rw [onProveTaskDst_failureCount]
          simp only [hstate, true_and]
  · have hno : w.failing (.onProve i r now) = none := by
      rw [failing_onProve hc, if_neg hfail]
    refine Scored.of_row hno ?_ ht'
    rw [hlist]
    refine map_replaceF _ (fun x y hxy => ?_) _
    rw [Stage.takeProve] at hxy
    split at hxy
    · cases hxy
      have hstate : (r.prove c).state ≠ .Failed := hfail
      rw [onProveTaskDst_taskId, onProveTaskDst_failureCount,
        if_neg (fun h => hstate h.1)]
    · cases hxy

/-- **ONE STEP**: the count of a task goes up at its FAILED results only. -/
theorem World.step_scored (hs : Shape w) (h : w.step feat a = some w')
    {t' : ProveTask β} (ht' : t' ∈ w'.stage.proveTasks) : Scored w a t' := by
  cases World.step_listStep h with
  | relisted disk hlist => exact Scored.relisted hlist ht'
  | handed disk now hlist _ =>
      refine Scored.of_row rfl ?_ ht'
      rw [hlist]
      refine map_replaceF _ (fun x y hxy => ?_) _
      obtain ⟨_, _, rfl⟩ := handProve_eq_some.mp hxy
      rfl
  | taken i r now c hc hlist _ _ => exact Scored.taken hs hc hlist ht'
  | missing i r now hc hw =>
      have hno : w.failing (.onProve i r now) = none := by
        rw [World.failing, hc]
        split <;> rfl
      exact Scored.of_row hno (by rw [hw]) ht'
  | other a hother hlist _ =>
      have hno : w.failing a = none := by
        cases a with
        | onProve i r now => exact absurd rfl (hother i r now)
        | dispatch disk => rfl
        | getSplit now => rfl
        | getProve disk now => rfl
        | getAgg now => rfl
        | getSnark now => rfl
        | onSplit i r now => rfl
        | onAgg i r now io => rfl
        | onSnark i r now io => rfl
      exact Scored.of_row hno (by rw [hlist]) ht'

/-! ## Over a run -/

/-- One more step adds the failure it counts. -/
theorem failures_snoc
    (hrun : run (World.step feat) (World.start g file) acts = some w)
    (h : w.step feat a = some w') (id : Nat) :
    failures feat g file (acts ++ [a]) id = failures feat g file acts id
      + ((w.failing a).map (·.taskId)).toList.count id := by
  rw [failures, failedIds, collect_snoc hrun h, List.count_append]
  rfl

/-- The counts of the stage and the results of the run. -/
structure FailureBook (feat : Feature) (g : GenerateTask β) (file : Option β)
    (acts : List (Action β)) (w : World β) : Prop where
  run   : run (World.step feat) (World.start g file) acts = some w
  count : ∀ t ∈ w.stage.proveTasks,
    t.failureCount = min 3 (failures feat g file acts t.taskId)
  drawn : ∀ id ∈ failedIds feat g file acts, id < w.stage.uuid

/-- A run with a book is a run. -/
theorem FailureBook.reachable (h : FailureBook feat g file acts w) :
    Reachable feat g w := ⟨file, acts, h.run⟩

/-- Before the first step no failure is counted. -/
theorem FailureBook.start : FailureBook feat g file [] (World.start g file) :=
  ⟨rfl, fun _ ht => absurd ht List.not_mem_nil,
    fun _ hid => absurd hid List.not_mem_nil⟩

/-- Every step enters the failure it counts. -/
theorem FailureBook.step (h : FailureBook feat g file acts w)
    (hstep : w.step feat a = some w') :
    FailureBook feat g file (acts ++ [a]) w' := by
  have hs := h.reachable.shape
  have huuid := ((World.step_moves hs hstep).kept hs).1.uuid
  refine ⟨run_snoc.mpr ⟨w, h.run, hstep⟩, ?_, ?_⟩
  · intro t' ht'
    rw [failures_snoc h.run hstep]
    cases World.step_scored hs hstep ht' with
    | fresh hid hcount hno =>
        have hnone : failures feat g file acts t'.taskId = 0 := by
          refine List.count_eq_zero.mpr (fun hmem => ?_)
          exact absurd (h.drawn _ hmem) (Nat.not_lt.mpr hid)
        rw [hcount, hno, hnone]
        rfl
    | failed t hfail hid hcount =>
        have ht := h.count t (World.failing_mem hfail)
        have hone : ((w.failing a).map (·.taskId)).toList.count t'.taskId
            = 1 := by
          rw [hfail, hid]
          exact List.count_singleton_self
        rw [hone, hcount, hid]
        split <;> omega
    | kept t ht hid hothers hcount =>
        have hzero : ((w.failing a).map (·.taskId)).toList.count t'.taskId
            = 0 := by
          refine List.count_eq_zero.mpr (fun hmem => ?_)
          obtain ⟨x, hx, hxt⟩ :=
            Option.map_eq_some_iff.mp (Option.mem_toList.mp hmem)
          exact hothers x hx hxt
        rw [hzero, hcount, hid]
        exact h.count t ht
  · intro id hid
    rw [failedIds, collect_snoc h.run hstep] at hid
    rcases List.mem_append.mp hid with hold | hnew
    · exact Nat.lt_of_lt_of_le (h.drawn id hold) huuid
    · obtain ⟨x, hx, rfl⟩ :=
        Option.map_eq_some_iff.mp (Option.mem_toList.mp hnew)
      exact Nat.lt_of_lt_of_le (hs.prove_lt x (World.failing_mem hx)) huuid

/-- **THE COUNT**: the FAILED results of a task, as far as 3. -/
theorem failureBook
    (hrun : run (World.step feat) (World.start g file) acts = some w) :
    FailureBook feat g file acts w :=
  run_trace (I := FailureBook feat g file) (fun _ _ _ _ h => h.step) .start hrun

/-! ## The budget -/

/-- Without a third failure a step takes no task to three. -/
theorem World.step_below (hs : Shape w) (hthird : w.third a = false)
    (hbelow : ∀ t ∈ w.stage.proveTasks, t.failureCount < 3)
    (h : w.step feat a = some w') :
    ∀ t ∈ w'.stage.proveTasks, t.failureCount < 3 := by
  intro t' ht'
  cases World.step_scored hs h ht' with
  | fresh _ hcount _ => omega
  | kept t ht _ _ hcount => rw [hcount]; exact hbelow t ht
  | failed t hfail _ hcount =>
      rw [World.third, hfail] at hthird
      have hlt : t.failureCount < 2 := Nat.not_le.mp (of_decide_eq_false hthird)
      rw [if_pos (Nat.lt_succ_of_lt hlt)] at hcount
      omega

/-- Without a third failure every count stays below three. -/
theorem below_of_along
    (hrun : run (World.step feat) (World.start g file) acts = some w)
    (hok : Along (World.step feat) (fun w a => w.third a = false)
      (World.start g file) acts) :
    ∀ t ∈ w.stage.proveTasks, t.failureCount < 3 := by
  have hall : Reachable feat g w ∧
      ∀ t ∈ w.stage.proveTasks, t.failureCount < 3 := by
    refine run_inv_along (I := fun w => Reachable feat g w ∧
      ∀ t ∈ w.stage.proveTasks, t.failureCount < 3) ?_ hok
      ⟨.start g file, fun t ht => absurd ht List.not_mem_nil⟩ hrun
    intro v a v' hthird hv hstep
    exact ⟨hv.1.step hstep, World.step_below hv.1.shape hthird hv.2 hstep⟩
  exact hall.2

/-- The flag after a result for a prove task. -/
theorem World.onProve_isError {i now : Nat} {r : Reply β}
    (h : w.step feat (.onProve i r now) = some w') :
    w'.stage.isError = (w.stage.isError ||
      (w.failing (.onProve i r now)).any fun t => 3 ≤ t.failureCount) := by
  cases World.step_listStep h with
  | taken _ _ _ c hc _ _ herr =>
      rw [herr, failing_onProve hc]
      have hstate : (r.prove c).state = r.state := rfl
      by_cases hfail : r.state = .Failed
      · rw [if_pos hfail]
        congr 2
        funext t
        simp [onProveTaskError, hstate, hfail]
      · rw [if_neg hfail]
        cases w.stage.proveTasks.find? (Stage.matchProve (r.prove c)) with
        | none => rfl
        | some x => simp [onProveTaskError, hstate, hfail]
  | missing _ _ _ hc hw =>
      rw [hw, World.failing, hc]
      split <;> simp
  | other _ hother _ _ => exact absurd rfl (hother i r now)

/-- A third failure takes its task to three. -/
theorem FailureBook.third (h : FailureBook feat g file acts w)
    {i now : Nat} {r : Reply β} (hstep : w.step feat (.onProve i r now) = some w')
    (hbelow : ∀ t ∈ w.stage.proveTasks, t.failureCount < 3)
    (hthird : w.third (.onProve i r now) = true) :
    ∃ t ∈ w'.stage.proveTasks,
      failures feat g file (acts ++ [.onProve i r now]) t.taskId = 3 := by
  obtain ⟨t, hfail, htwo⟩ := (Option.any_eq_true _ _).mp hthird
  have ht := World.failing_mem hfail
  have hspots : w'.stage.proveTasks.map ProveTask.spot
      = w.stage.proveTasks.map ProveTask.spot := by
    rcases World.step_list hstep with ⟨_, ha, _⟩ | hrow
    · cases ha
    · exact hrow.1
  obtain ⟨t', ht', hspot⟩ := exists_key hspots ht
  have hid : t'.taskId = t.taskId := congrArg Spot.id hspot
  have hone : ((w.failing (.onProve i r now)).map (·.taskId)).toList.count
      t.taskId = 1 := by
    rw [hfail]
    exact List.count_singleton_self
  refine ⟨t', ht', ?_⟩
  rw [hid, failures_snoc h.run hstep, hone]
  have hcount := h.count t ht
  have hlt := hbelow t ht
  have htwo := of_decide_eq_true htwo
  omega

/-- **THE RETRY BUDGET**: in a run without a third FAILED result for one task,
    the count of a task is the number of its FAILED results, a FAILED task is
    eligible again, and the next result raises the flag just if it takes some
    task to three, unless it is itself a third FAILED result. -/
theorem retry_budget
    (hrun : run (World.step feat) (World.start g file) acts = some w)
    (hok : Along (World.step feat) (fun w a => w.third a = false)
      (World.start g file) acts) :
    (∀ t ∈ w.stage.proveTasks,
      t.failureCount = failures feat g file acts t.taskId ∧
      t.failureCount < 3 ∧
      (t.state = .Failed → ∀ (disk : Disk β) (now : Nat),
        disk.existsPath t.segment = true →
          (Stage.handProve disk now t).isSome = true)) ∧
    ∀ (i : Nat) (r : Reply β) (now : Nat) (w' : World β),
      w.step feat (.onProve i r now) = some w' → w.stage.isError = false →
      ((w'.stage.isError = true ↔ ∃ t ∈ w'.stage.proveTasks,
          failures feat g file (acts ++ [.onProve i r now]) t.taskId = 3) ↔
        w.third (.onProve i r now) = false) := by
  have hbook := failureBook hrun
  have hs := hbook.reachable.shape
  have hbelow := below_of_along hrun hok
  refine ⟨fun t ht => ⟨?_, hbelow t ht, ?_⟩, ?_⟩
  · have hcount := hbook.count t ht
    have hlt := hbelow t ht
    omega
  · intro hfailed disk now hseg
    rw [Option.isSome_iff_exists]
    refine ⟨_, handProve_eq_some.mpr ⟨?_, hseg, rfl⟩⟩
    rw [hfailed]
    rfl
  · intro i r now w' hstep herr
    have hquiet : w'.stage.isError = false := by
      rw [World.onProve_isError hstep, herr, Bool.false_or]
      cases hfail : w.failing (.onProve i r now) with
      | none => rfl
      | some t =>
          have hlt := hbelow t (World.failing_mem hfail)
          exact decide_eq_false (Nat.not_le.mpr hlt)
    have hreach : (∃ t ∈ w'.stage.proveTasks,
        failures feat g file (acts ++ [.onProve i r now]) t.taskId = 3) ↔
        w.third (.onProve i r now) = true := by
      constructor
      · rintro ⟨t, ht, hthree⟩
        have hcount := (hbook.step hstep).count t ht
        by_contra hthird
        rw [Bool.not_eq_true] at hthird
        have hlt := World.step_below hs hthird hbelow hstep t ht
        omega
      · exact hbook.third hstep hbelow
    rw [hquiet, hreach]
    simp

end

/-- One attempt, on the first task that waits, and its failure. -/
def failedAttempt : List (Action (List UInt8)) :=
  [.getProve .full 3, .onProve 0 ⟨.Failed, "a", []⟩ 4]

/-- One failure is counted, and the task is handed out again. -/
theorem retry_budget_once :
    ∃ w : World (List UInt8),
      run (World.step .prover) (World.start aggRequest none)
        (splitRun ++ failedAttempt) = some w ∧
      ∃ t ∈ w.stage.proveTasks, t.state = .Failed ∧
        failures .prover aggRequest none (splitRun ++ failedAttempt) t.taskId
          = 1 ∧
        t.failureCount = 1 ∧ (Stage.handProve .full 5 t).isSome = true := by
  obtain ⟨w, hrun, hw⟩ := (Option.any_eq_true _ _).mp
    (show (run (World.step .prover) (World.start aggRequest none)
      (splitRun ++ failedAttempt)).any (fun w => w.stage.proveTasks.any fun t =>
        t.state = .Failed && failures .prover aggRequest none
          (splitRun ++ failedAttempt) t.taskId = 1) = true by decide)
  obtain ⟨t, ht, hp⟩ := List.any_eq_true.mp hw
  rw [Bool.and_eq_true, decide_eq_true_eq, decide_eq_true_eq] at hp
  obtain ⟨hcount, _, hagain⟩ := (retry_budget hrun (by decide)).1 t ht
  exact ⟨w, hrun, t, ht, hp.1, hp.2, hcount.trans hp.2,
    hagain hp.1 .full 5 rfl⟩

/-- Three failures of one task, and the stage is not in error. -/
theorem third_failure_unseen :
    ∃ w : World (List UInt8),
      run (World.step .prover) (World.start aggRequest none)
        (splitRun ++ failedAttempt ++ failedAttempt ++ failedAttempt)
          = some w ∧
      (∃ t ∈ w.stage.proveTasks, failures .prover aggRequest none
        (splitRun ++ failedAttempt ++ failedAttempt ++ failedAttempt) t.taskId
          = 3) ∧
      w.stage.isError = false := by
  obtain ⟨w, hrun, hw⟩ := (Option.any_eq_true _ _).mp
    (show (run (World.step .prover) (World.start aggRequest none)
      (splitRun ++ failedAttempt ++ failedAttempt ++ failedAttempt)).any
      (fun w => !w.stage.isError && w.stage.proveTasks.any fun t =>
        failures .prover aggRequest none
          (splitRun ++ failedAttempt ++ failedAttempt ++ failedAttempt)
          t.taskId = 3) = true by decide)
  rw [Bool.and_eq_true, Bool.not_eq_true'] at hw
  obtain ⟨t, ht, hp⟩ := List.any_eq_true.mp hw.2
  exact ⟨w, hrun, ⟨t, ht, of_decide_eq_true hp⟩, hw.1⟩

end ZkmProver
