import ZkmProver.Dependencies
import ZkmProver.Worker

/-! # Progress — a turn with nothing in flight hands something out

    When no copy is in flight, no task is PROCESSING.  A stage that has just
    been dispatched and is not at its end then has a waiting task whose guard
    is open: the split task, a prove task, an agg task all of whose producers
    are finished (`Built.ready`), or the snark task. -/

namespace ZkmProver

open Forest Keyed Machine

variable {β : Type} [Blob β]

/-! ## Tasks as they were made -/

/-- Normal prove tasks name their segment file, and no task of a list is in
    state INITIAL. -/
structure Made (g : GenerateTask β) (w : World β) : Prop where
  segment : ∀ t ∈ w.stage.proveTasks, t.isDeferred = false →
    t.segment = g.segPath ++ "/" ++ toString t.fileNo
  prove   : ∀ t ∈ w.stage.proveTasks, t.state ≠ .Initial
  agg     : ∀ a ∈ w.stage.aggTasks, a.state ≠ .Initial

section

variable {feat : Feature} {g : GenerateTask β} {w w' : World β}

/-- A new stage has no task that could be made wrongly. -/
theorem Made.start (file : Option β) : Made g (World.start g file) := by
  refine ⟨?_, ?_, ?_⟩
  all_goals intro t ht; exact nomatch ht

/-- A task that joins the list names its segment file. -/
theorem Grown.made {uuid fileNo : Nat} {new : List (ProveTask β)}
    (h : Grown g uuid fileNo new) : ∀ t ∈ new,
      t.segment = g.segPath ++ "/" ++ toString t.fileNo := by
  intro t ht
  obtain ⟨program, id, no, rfl⟩ := h.mem ht
  rfl

/-- A move keeps the tasks as they were made. -/
theorem Made.moved (hreq : w.stage.generateTask = g) (h : Made g w)
    (hm : Moved feat w w') : Made g w' := by
  cases hm with
  | grow new _ _ _ hgr =>
      rw [hreq] at hgr
      refine ⟨?_, ?_, h.agg⟩
      · intro t ht hdef
        rcases List.mem_append.mp ht with ht | ht
        · exact h.segment t ht hdef
        · exact hgr.made t ht
      · intro t ht
        rcases List.mem_append.mp ht with ht | ht
        · exact h.prove t ht
        · obtain ⟨program, id, no, rfl⟩ := hgr.mem ht
          exact nofun
  | finalise s listing hf =>
      have hprove := hf.mem_prove
      have hagg := hf.mem_agg
      refine ⟨?_, ?_, ?_⟩
      · cases hf with
        | mk normal deferred as u u' errmsg listing _ _ _ _ hn hd _ =>
            intro t ht hdef
            rcases List.mem_append.mp ht with ht | ht
            · cases hn with
              | cut _ => exact h.segment t (List.mem_of_mem_take ht) hdef
              | extend new _ _ hgr =>
                  rw [hreq] at hgr
                  rcases List.mem_append.mp ht with ht | ht
                  · exact h.segment t ht hdef
                  · exact hgr.made t ht
            · exact nomatch hdef.symm.trans (hd.born t ht).1
      · intro t ht
        rcases hprove t ht with ht | ht
        · exact h.prove t ht
        · cases ht with
          | normal _ _ hst => rw [hst]; exact nofun
          | deferred _ _ hst => rw [hst]; exact nofun
      · intro a ha
        rw [hagg a ha]
        split <;> exact nofun
  | proveOut now x t hx _ ht =>
      subst ht
      refine ⟨?_, ?_, h.agg⟩
      · intro y hy hdef
        rcases mem_put.mp hy with ⟨hy, _⟩ | ⟨rfl, _⟩
        · exact h.segment y hy hdef
        · exact h.segment x hx hdef
      · intro y hy
        rcases mem_put.mp hy with ⟨hy, _⟩ | ⟨rfl, _⟩
        · exact h.prove y hy
        · exact nofun
  | proveIn i c t r now ps err _ htaken _ _ =>
      have hagg : ∀ a ∈ clearOn r.state c.taskId w.stage.aggTasks,
          a.state ≠ .Initial := by
        intro a ha
        obtain ⟨b, hb, _, rfl⟩ := mem_clearOn ha
        exact h.agg b hb
      cases htaken with
      | miss _ => exact ⟨h.segment, h.prove, hagg⟩
      | hit x hx _ hst =>
          refine ⟨?_, ?_, hagg⟩
          · intro y hy hdef
            rcases mem_put.mp hy with ⟨hy, _⟩ | ⟨rfl, _⟩
            · exact h.segment y hy hdef
            · obtain ⟨hno, hd, hseg⟩ := onProveTaskDst_fixed now (r.prove c) x
              rw [hseg, hno]
              exact h.segment x hx (hd.symm.trans hdef)
          · intro y hy
            rcases mem_put.mp hy with ⟨hy, _⟩ | ⟨rfl, _⟩
            · exact h.prove y hy
            · rw [onProveTaskDst_state, hst]
              cases (r.prove c).state <;> exact nofun
  | aggOut now x t inputs hx _ _ ht _ =>
      refine ⟨h.segment, h.prove, ?_⟩
      intro y hy
      rcases mem_put.mp hy with ⟨hy, _⟩ | ⟨rfl, _⟩
      · exact h.agg y hy
      · rw [ht]
        exact nofun
  | aggIn i c t r now as err file _ htaken _ _ _ =>
      refine ⟨h.segment, h.prove, ?_⟩
      intro a ha
      obtain ⟨b, hb, _, rfl⟩ := mem_clearOn ha
      cases htaken with
      | miss _ => exact h.agg b hb
      | hit x hx _ hst =>
          rcases mem_put.mp hb with ⟨hb, _⟩ | ⟨rfl, _⟩
          · exact h.agg b hb
          · exact onTask_made hst
  | splitIn i c r now _ => exact ⟨h.segment, h.prove, h.agg⟩
  | snarkIn i c t r now _ _ _ => exact ⟨h.segment, h.prove, h.agg⟩
  | _ => exact ⟨h.segment, h.prove, h.agg⟩

/-- Every task of a reachable stage is as it was made. -/
theorem Reachable.made (h : Reachable feat g w) : Made g w := by
  have hboth : w.stage.generateTask = g ∧ Made g w :=
    h.inv (I := fun w => w.stage.generateTask = g ∧ Made g w)
      (fun file => ⟨rfl, Made.start file⟩)
      fun _ _ _ hi hm => ⟨hm.request.trans hi.1, hi.2.moved hi.1 hm⟩
  exact hboth.2

/-! ## What a dispatch leaves behind -/

/-- A stage that was just dispatched: it waits for results. -/
structure Rested (s : Stage β) : Prop where
  started : s.step ≠ .Init ∧ s.step ≠ .Agg
  split   : s.step = .Prove → s.splitTask.state = .Success →
    s.isTasksGenDone = true
  work    : s.step = .Prove → Proved s →
    s.generateTask.compositeProof = false ∧
      ∃ a ∈ s.aggTasks, a.state ≠ .Success
  snark   : s.step = .Snark → s.snarkTask.state ≠ .Success

/-- The end of the `Prove` branch moves on, or there is work left. -/
inductive Advanced (s : Stage β) : Stage β → Prop where
  | ended (s' : Stage β) : s'.step = .End → Advanced s s'
  | snark (s' : Stage β) : s'.step = .Snark →
      s'.snarkTask.state = .Unprocessed → Advanced s s'
  | stay : (Proved s → s.generateTask.compositeProof = false ∧
      ∃ a ∈ s.aggTasks, a.state ≠ .Success) → Advanced s s

/-- The end of the `Prove` branch, case by case. -/
theorem advanced {s s' : Stage β} {disk : Disk β}
    (h : s.advance disk = some s') : Advanced s s' := by
  rw [Stage.advance] at h
  by_cases hp : (s.isTasksGenDone
      && s.proveTasks.all fun t => t.state = .Success) = true
  · rw [if_pos hp] at h
    by_cases hc : s.generateTask.compositeProof = true
    · rw [if_pos hc] at h
      cases h
      exact .ended _ rfl
    · rw [if_neg hc] at h
      by_cases ha : (s.aggTasks.all fun t => t.state = .Success) = true
      · rw [if_pos ha] at h
        by_cases ht : s.generateTask.targetStep = .Agg
        · rw [if_pos ht] at h
          cases h
          exact .ended _ rfl
        · rw [if_neg ht] at h
          obtain ⟨s₁, h₁, rfl⟩ := Option.map_eq_some_iff.mp h
          obtain ⟨snark, _, hst, _, rfl⟩ := genSnarkTask_spec h₁
          exact .snark _ rfl hst
      · rw [if_neg ha] at h
        cases h
        refine .stay fun _ => ⟨Bool.eq_false_iff.mpr hc, ?_⟩
        rw [List.all_eq_true] at ha
        refine Classical.byContradiction fun hno => ha fun a hmem => ?_
        refine decide_eq_true (Classical.byContradiction fun hst => ?_)
        exact hno ⟨a, hmem, hst⟩
  · rw [if_neg hp] at h
    cases h
    refine .stay fun hproved => absurd ?_ hp
    rw [hproved.done, Bool.true_and, List.all_eq_true]
    exact fun t ht => decide_eq_true (hproved.all t ht)

omit [Blob β] in
/-- A stage that has advanced is at rest. -/
theorem Advanced.rested {s s' : Stage β} (h : Advanced s s')
    (hstep : s.step = .Prove)
    (hsplit : s.splitTask.state = .Success → s.isTasksGenDone = true) :
    Rested s' := by
  cases h with
  | ended _ he =>
      refine ⟨?_, ?_, ?_, ?_⟩ <;> rw [he]
      · exact ⟨nofun, nofun⟩
      all_goals exact nofun
  | snark _ hs hst =>
      refine ⟨?_, ?_, ?_, ?_⟩ <;> rw [hs]
      · exact ⟨nofun, nofun⟩
      · exact nofun
      · exact nofun
      · rw [hst]
        exact nofun
  | stay hwork =>
      refine ⟨?_, fun _ => hsplit, fun _ => hwork, ?_⟩ <;> rw [hstep]
      · exact ⟨nofun, nofun⟩
      · exact nofun

/-- **DISPATCH**: from every phase it leaves a rested stage. -/
theorem dispatch_rested {s' : Stage β} {disk : Disk β} (hs : Shape w)
    (hp : Phases g w) (h : w.stage.dispatch feat disk = some s') :
    Rested s' := by
  cases dispatch_step h with
  | start split hstep _ hfresh _ =>
      have hgen := (hp.init hstep).2.1.gen
      refine ⟨⟨by rintro ⟨⟩, by rintro ⟨⟩⟩, fun _ hsucc => ?_,
        fun _ hproved => ?_, by rintro ⟨⟩⟩
      · cases hfresh.symm.trans hsucc
      · cases hgen.symm.trans hproved.done
  | split s₁ _ _ _ _ _ _ => refine ⟨⟨?_, ?_⟩, ?_, ?_, ?_⟩ <;> rintro ⟨⟩
  | finalise s₁ s₂ _ hstep h₁ hmore hsplit hdone htarget h₂ h =>
      have hfinal : Finalised feat s₁ s₂
          (World.listed feat disk s₁ s₂ w.listing) :=
        @finalise_spec _ _ feat { w with stage := s₁ } _ _
          (hs.genProveTask hstep h₁)
          (hmore.frame.1.trans hstep) hdone hsplit htarget h₂
      exact (advanced h).rested hfinal.frame.1 fun _ => hfinal.frame.2
  | advance s₁ _ hstep _ hmore hdue h =>
      exact (advanced h).rested (hmore.frame.1.trans hstep) hdue
  | snark snark _ _ hnew _ =>
      refine ⟨⟨by rintro ⟨⟩, by rintro ⟨⟩⟩, by rintro ⟨⟩, by rintro ⟨⟩,
        fun _ => ?_⟩
      show snark.state ≠ .Success
      rw [hnew.state]
      rintro ⟨⟩
  | ended _ _ => refine ⟨⟨?_, ?_⟩, ?_, ?_, ?_⟩ <;> rintro ⟨⟩
  | idle hinit hprove hagg hsnark =>
      exact ⟨⟨hinit, hagg⟩, fun hst => absurd hst hprove,
        fun hst => absurd hst hprove, hsnark⟩

/-- Every stage that was dispatched without a panic is at rest. -/
theorem Dispatched.rested
    (hfrom : g.fromStep = .Init ∨ g.fromStep = .Agg)
    (h : Dispatched feat g w) : Rested w.stage := by
  obtain ⟨v, disk, hv, hw⟩ := h
  obtain ⟨s, hs, rfl⟩ := Option.map_eq_some_iff.mp hw
  exact dispatch_rested hv.shape (hv.phases hfrom) hs

/-! ## Hand-outs -/

omit [Blob β] in
/-- A made task that is neither out nor finished waits. -/
theorem waiting_of {state : TaskState} (hmade : state ≠ .Initial)
    (hidle : state ≠ .Processing) (hunfinished : state ≠ .Success) :
    state.waiting = true := by
  cases state with
  | Initial => exact absurd rfl hmade
  | Processing => exact absurd rfl hidle
  | Success => exact absurd rfl hunfinished
  | Unprocessed => rfl
  | Failed => rfl

omit [Blob β] in
/-- A task that is not handed out does not wait. -/
theorem getTask_eq_none {now : Nat} {src : TaskHead β}
    (h : getTask now src = none) : src.state.waiting = false := by
  rw [getTask] at h
  split at h
  · cases h
  · exact Bool.eq_false_iff.mpr ‹_›

/-- The split task goes out, or nothing happens. -/
theorem getSplit_total (now : Nat) (w : World β) :
    ∃ w', w.step feat (.getSplit now) = some w' ∧ w.inFlight ≤ w'.inFlight ∧
      (w.stage.splitTask.state.waiting = true → 0 < w'.inFlight) ∧
      (w.stage.splitTask.state.waiting = false → w' = w) := by
  cases hget : getTask now w.stage.splitTask.toTaskHead with
  | none =>
      have hno := getTask_eq_none hget
      refine ⟨w, ?_, Nat.le_refl _, ?_, fun _ => rfl⟩
      · simp [World.step, Stage.getSplitTask, hget]
      · intro hwait
        cases hno.symm.trans hwait
  | some t =>
      have hwait := (getTask_eq_some.mp hget).1
      refine ⟨_, by simp only [World.step, Stage.getSplitTask, hget]; rfl,
        ?_, ?_, ?_⟩
      · simp only [World.inFlight, List.length_append, Option.toList_some,
          List.length_singleton]
        omega
      · intro _
        simp only [World.inFlight, List.length_append, Option.toList_some,
          List.length_singleton]
        omega
      · intro hno
        cases hno.symm.trans hwait

/-- A prove task goes out, or nothing happens. -/
theorem getProve_total (disk : Disk β) (now : Nat) (w : World β) :
    ∃ w', w.step feat (.getProve disk now) = some w' ∧
      w.inFlight ≤ w'.inFlight ∧
      ((∃ t ∈ w.stage.proveTasks, t.state.waiting = true ∧
        disk.existsPath t.segment = true) → 0 < w'.inFlight) ∧
      ((∀ t ∈ w.stage.proveTasks, t.state.waiting = false) → w' = w) := by
  cases hfind : w.stage.proveTasks.findSome? (Stage.handProve disk now) with
  | none =>
      refine ⟨w, ?_, Nat.le_refl _, ?_, fun _ => rfl⟩
      · simp [World.step, Stage.getProveTask, hfind, findSome?_none hfind]
      · rintro ⟨t, ht, hwait, hfile⟩
        have hnone := List.findSome?_eq_none_iff.mp hfind t ht
        cases hnone.symm.trans
          (handProve_eq_some.mpr ⟨hwait, hfile, rfl⟩)
  | some t =>
      refine ⟨_, by simp only [World.step, Stage.getProveTask, hfind]; rfl,
        ?_, ?_, ?_⟩
      · simp only [World.inFlight, List.length_append, Option.toList_some,
          List.length_singleton]
        omega
      · intro _
        simp only [World.inFlight, List.length_append, Option.toList_some,
          List.length_singleton]
        omega
      · intro hno
        obtain ⟨x, hx, hxt⟩ := List.exists_of_findSome?_eq_some hfind
        cases (hno x hx).symm.trans (handProve_eq_some.mp hxt).1

/-- An agg task goes out if one is ready. -/
theorem getAgg_total (hg : Graph feat w) (hs : Shape w) (hc : Credit w)
    (now : Nat) :
    ∃ w', w.step feat (.getAgg now) = some w' ∧ w.inFlight ≤ w'.inFlight ∧
      ((∃ a ∈ w.stage.aggTasks, (∀ c ∈ a.childs, c = none) ∧
        a.state.waiting = true) → 0 < w'.inFlight) ∧
      ((∀ a ∈ w.stage.aggTasks, a.state.waiting = false) → w' = w) := by
  obtain ⟨t, s, hget, _⟩ := hg.getAggTask hs hc now
  cases hfind : w.stage.aggTasks.findSome? (Stage.handAgg now) with
  | none =>
      refine ⟨w, ?_, Nat.le_refl _, ?_, fun _ => rfl⟩
      · simp [World.step, Stage.getAggTask, hfind, findSome?_none hfind]
      · rintro ⟨a, ha, hnone, hwait⟩
        have hno := List.findSome?_eq_none_iff.mp hfind a ha
        cases hno.symm.trans (handAgg_eq_some.mpr ⟨hnone, hwait, rfl⟩)
  | some a =>
      have hout : ∃ b, t = some b := by
        simp only [Stage.getAggTask, hfind] at hget
        obtain ⟨inputs, _, heq⟩ := Option.map_eq_some_iff.mp hget
        exact ⟨_, (congrArg Prod.fst heq).symm⟩
      obtain ⟨b, rfl⟩ := hout
      refine ⟨_, by simp only [World.step, hget, Option.map_some]; rfl, ?_, ?_, ?_⟩
      · simp only [World.inFlight, List.length_append]
        omega
      · intro _
        simp only [World.inFlight, List.length_append, Option.toList_some,
          List.length_singleton]
        omega
      · intro hno
        obtain ⟨x, hx, hxa⟩ := List.exists_of_findSome?_eq_some hfind
        cases (hno x hx).symm.trans (handAgg_eq_some.mp hxa).2.1

/-- The snark task goes out if it waits. -/
theorem getSnark_total (now : Nat) (w : World β) :
    ∃ w', w.step feat (.getSnark now) = some w' ∧ w.inFlight ≤ w'.inFlight ∧
      (w.stage.snarkTask.state.waiting = true → 0 < w'.inFlight) := by
  cases hget : getTask now w.stage.snarkTask.toTaskHead with
  | none =>
      refine ⟨w, ?_, Nat.le_refl _, ?_⟩
      · simp [World.step, Stage.getSnarkTask, hget]
      · intro hwait
        cases (getTask_eq_none hget).symm.trans hwait
  | some t =>
      refine ⟨_, by simp only [World.step, Stage.getSnarkTask, hget]; rfl, ?_, ?_⟩
      · simp only [World.inFlight, List.length_append, Option.toList_some,
          List.length_singleton]
        omega
      · intro _
        simp only [World.inFlight, List.length_append, Option.toList_some,
          List.length_singleton]
        omega

/-- A call behind a guard, for a call that hands out when it is `ready` and
    does nothing when it is `stuck`. -/
theorem stepIf_total (guard : Bool) {a : Action β} {ready stuck : Prop}
    (h : ∃ w', w.step feat a = some w' ∧ w.inFlight ≤ w'.inFlight ∧
      (ready → 0 < w'.inFlight) ∧ (stuck → w' = w)) :
    ∃ w', w.stepIf feat guard a = some w' ∧ w.inFlight ≤ w'.inFlight ∧
      (guard = true → ready → 0 < w'.inFlight) ∧ (stuck → w' = w) := by
  cases guard with
  | false => exact ⟨w, rfl, Nat.le_refl _, nofun, fun _ => rfl⟩
  | true =>
      obtain ⟨w', hw, hle, hready, hstuck⟩ := h
      exact ⟨w', hw, hle, fun _ => hready, hstuck⟩

omit [Blob β] in
/-- Some task can go out, past the guards. -/
inductive Ready (disk : Disk β) (w : World β) : Prop where
  | split : w.stage.step = .Prove →
      w.stage.splitTask.state.waiting = true → Ready disk w
  | prove (t : ProveTask β) : w.stage.step = .Prove →
      w.stage.splitTask.state.waiting = false →
      w.stage.countProcessingProveTasks < w.stage.generateTask.maxProverNum →
      t ∈ w.stage.proveTasks → t.state.waiting = true →
      disk.existsPath t.segment = true → Ready disk w
  | agg (a : AggTask β) : w.stage.step = .Prove →
      w.stage.splitTask.state.waiting = false →
      (∀ t ∈ w.stage.proveTasks, t.state.waiting = false) →
      w.stage.isTasksGenDone = true →
      w.stage.countUnfinishedProveTasks < w.stage.generateTask.maxProverNum →
      a ∈ w.stage.aggTasks → (∀ c ∈ a.childs, c = none) →
      a.state.waiting = true → Ready disk w
  | snark : w.stage.step = .Snark →
      w.stage.snarkTask.state.waiting = true → Ready disk w

/-- **HAND-OUTS**: they never panic, and a task that can go out does. -/
theorem Reachable.handOuts_total (h : Reachable feat g w) (clock : Nat → Nat)
    (disk : Disk β) :
    ∃ w', ZkmProver.handOuts feat clock disk w = some w' ∧
      w.inFlight ≤ w'.inFlight ∧ (Ready disk w → 0 < w'.inFlight) := by
  have hstay : w.stage.step ≠ .Prove → w.stage.step ≠ .Snark →
      ∃ w', some w = some w' ∧ w.inFlight ≤ w'.inFlight ∧
        (Ready disk w → 0 < w'.inFlight) := by
    intro hprove hsnark
    refine ⟨w, rfl, Nat.le_refl _, fun hready => ?_⟩
    cases hready with
    | split hs _ => exact absurd hs hprove
    | prove t hs _ _ _ _ _ => exact absurd hs hprove
    | agg a hs _ _ _ _ _ _ _ => exact absurd hs hprove
    | snark hs _ => exact absurd hs hsnark
  rw [ZkmProver.handOuts]
  cases hstep : w.stage.step with
  | Prove =>
      obtain ⟨w₁, h₁, hle₁, hout₁, hsame₁⟩ :=
        @getSplit_total _ _ feat (clock 0) w
      have hr₁ := h.step h₁
      obtain ⟨w₂, h₂, hle₂, hout₂, hsame₂⟩ := stepIf_total
        (w₁.stage.countProcessingProveTasks
          < w.stage.generateTask.maxProverNum)
        (@getProve_total _ _ feat disk (clock 1) w₁)
      have hr₂ := hr₁.stepIf h₂
      obtain ⟨w₃, h₃, hle₃, hout₃, _⟩ := stepIf_total
        (w₂.stage.isTasksGenDone
          && w₂.stage.countUnfinishedProveTasks
            < w.stage.generateTask.maxProverNum)
        (getAgg_total hr₂.graph hr₂.shape hr₂.credit (clock 2))
      refine ⟨w₃, ?_, by omega, fun hready => ?_⟩
      · simp only [h₁, h₂, h₃, Option.bind_eq_bind, Option.bind_some]
      · cases hready with
        | split _ hwait =>
            have := hout₁ hwait
            omega
        | prove t _ hno hguard ht hwait hfile =>
            rw [hsame₁ hno] at hout₂
            have := hout₂ (decide_eq_true hguard) ⟨t, ht, hwait, hfile⟩
            omega
        | agg a _ hno hdone hgen hguard ha hnone hwait =>
            have hsame := hsame₁ hno
            subst hsame
            have hsame := hsame₂ hdone
            subst hsame
            refine hout₃ ?_ ⟨a, ha, hnone, hwait⟩
            rw [hgen, decide_eq_true hguard]
            rfl
        | snark hs _ => cases hstep.symm.trans hs
  | Snark =>
      obtain ⟨w', h', hle, hout⟩ := @getSnark_total _ _ feat (clock 3) w
      refine ⟨w', h', hle, fun hready => ?_⟩
      cases hready with
      | split hs _ => cases hstep.symm.trans hs
      | prove t hs _ _ _ _ _ => cases hstep.symm.trans hs
      | agg a hs _ _ _ _ _ _ _ => cases hstep.symm.trans hs
      | snark _ hwait => exact hout hwait
  | Init => exact hstay (by rw [hstep]; rintro ⟨⟩) (by rw [hstep]; rintro ⟨⟩)
  | Split => exact hstay (by rw [hstep]; rintro ⟨⟩) (by rw [hstep]; rintro ⟨⟩)
  | Agg => exact hstay (by rw [hstep]; rintro ⟨⟩) (by rw [hstep]; rintro ⟨⟩)
  | End => exact hstay (by rw [hstep]; rintro ⟨⟩) (by rw [hstep]; rintro ⟨⟩)

/-! ## Nothing in flight -/

omit [Blob β] in
/-- Without a lost result and without a copy in flight no task is busy. -/
theorem Held.idle {α κ : Type} {key : α → κ} {busy : α → Prop}
    {table out : List α} (h : Accounted key busy table out (Unsettled w))
    (hset : ¬ Unsettled w) (hout : out = []) : ∀ x ∈ table, ¬ busy x := by
  intro x hx hb
  rcases h x hx hb with hlost | ⟨c, hc, _⟩
  · exact hset hlost
  · rw [hout] at hc
    exact nomatch hc

omit [Blob β] in
/-- **READY AGG TASK**: once all prove tasks are done and no agg task is busy,
    an unfinished graph has a task whose producers are all done. -/
theorem Graph.ready_agg (hg : Graph feat w) (hs : Shape w)
    (hproved : ∀ t ∈ w.stage.proveTasks, t.state = .Success)
    {a : AggTask β} (ha : a ∈ w.stage.aggTasks) (hst : a.state ≠ .Success) :
    ∃ b ∈ w.stage.aggTasks, b.state ≠ .Success ∧ ∀ c ∈ b.childs, c = none := by
  rcases hg.cases hs with hnil | ⟨base, next, hfin, _, _⟩
  · rw [hnil] at ha
    exact nomatch ha
  -- unfinished tasks are real, so they are nodes of the forest
  have hnode : ∀ b ∈ w.stage.aggTasks, b.state ≠ .Success →
      b.item.node ∈ planNodes (w.stage.aggTasks.map (·.item)) := by
    intro b hb hbst
    refine mem_planNodes.mpr ⟨b.item, List.mem_map_of_mem hb, ?_, rfl⟩
    refine Bool.eq_false_iff.mpr fun hp => hbst ?_
    exact (hg.pseudo b hb hp).1
  have hundone : ∀ b ∈ w.stage.aggTasks, b.state ≠ .Success →
      ¬ Done w.stage.proveTasks w.stage.aggTasks (.node b.taskId) := by
    rintro b hb hbst ⟨x, hx, hid, hxst⟩
    rw [eq_of_key hs.agg_nodup hx hb hid] at hxst
    exact hbst hxst
  have hleaves : ∀ l ∈ w.stage.proveTasks.map (·.taskId),
      Done w.stage.proveTasks w.stage.aggTasks (.leaf l) := by
    intro l hl
    obtain ⟨t, ht, rfl⟩ := List.mem_map.mp hl
    exact ⟨t, ht, rfl, hproved t ht⟩
  obtain ⟨n, hn, hnd, hsrcs⟩ := hfin.plan.built.ready hleaves
    ⟨a.item.node, hnode a ha hst, hundone a ha hst⟩
  obtain ⟨item, hitem, _, rfl⟩ := mem_planNodes.mp hn
  obtain ⟨b, hb, rfl⟩ := List.mem_map.mp hitem
  refine ⟨b, hb, fun hbst => hnd ⟨b, hb, rfl, hbst⟩, ?_⟩
  intro c hc
  cases c with
  | none => rfl
  | some id =>
      -- a listed child is an unfinished producer
      obtain ⟨i, hi, rfl⟩ := hg.listed.only b hb id (mem_pending.mpr hc)
      have hmem := mem_pending.mpr hc
      exact absurd (hsrcs i.src (mem_srcs hi)) ((hg.listed.iff b hb i hi).mp hmem)

omit [Blob β] in
/-- With nothing in flight all four lists of copies are empty. -/
theorem inFlight_eq_zero (h : w.inFlight = 0) :
    w.splits = [] ∧ w.proves = [] ∧ w.aggs = [] ∧ w.snarks = [] := by
  rw [World.inFlight] at h
  refine ⟨?_, ?_, ?_, ?_⟩ <;> exact List.length_eq_zero_iff.mp (by omega)

/-- A dispatched stage with nothing in flight that is not at its end has a
    task that can go out. -/
theorem Dispatched.ready (hfrom : g.fromStep = .Init ∨ g.fromStep = .Agg)
    (h : Dispatched feat g w) (hset : ¬ Unsettled w)
    (hend : w.stage.step ≠ .End) (hidle : w.inFlight = 0)
    (hmax : 1 ≤ g.maxProverNum) {disk : Disk β}
    (hfiles : w.stage.splitTask.state = .Success →
      ∀ i < w.stage.splitTask.totalSegments,
        disk.existsPath (g.segPath ++ "/" ++ toString i) = true) :
    Ready disk w := by
  have hr := h.reachable
  have hrest := h.rested hfrom
  have hphases := hr.phases hfrom
  have hmade := hr.made
  obtain ⟨hsp, hpr, hag, hsn⟩ := inFlight_eq_zero hidle
  have hmax' : 0 < w.stage.generateTask.maxProverNum := by
    rw [hphases.request]
    exact hmax
  have hsplit : w.stage.splitTask.state ≠ .Processing :=
    Held.idle hr.held.split hset hsp _ (List.mem_singleton_self _)
  have hprove := Held.idle hr.held.prove hset hpr
  have hagg := Held.idle hr.held.agg hset hag
  have hsnark : w.stage.snarkTask.state ≠ .Processing :=
    Held.idle hr.held.snark hset hsn _ (List.mem_singleton_self _)
  cases hstep : w.stage.step with
  | Init => exact absurd hstep hrest.started.1
  | Split => exact absurd hstep hphases.split
  | Agg => exact absurd hstep hrest.started.2
  | End => exact absurd hstep hend
  | Snark =>
      exact .snark hstep
        (waiting_of (hphases.snark hstep) hsnark (hrest.snark hstep))
  | Prove =>
      by_cases hdone : w.stage.splitTask.state = .Success
      case neg =>
        exact .split hstep
          (waiting_of (hphases.prove hstep).2.1 hsplit hdone)
      have hgen := hrest.split hstep hdone
      have hno : w.stage.splitTask.state.waiting = false := by
        rw [hdone]
        rfl
      by_cases hall : ∀ t ∈ w.stage.proveTasks, t.state = .Success
      · -- only agg tasks are left
        obtain ⟨_, a, ha, hst⟩ := hrest.work hstep ⟨hgen, hall⟩
        obtain ⟨b, hb, hbst, hnone⟩ := hr.graph.ready_agg hr.shape hall ha hst
        have hcount : w.stage.countUnfinishedProveTasks = 0 :=
          List.countP_eq_zero.mpr fun t ht => by simp [hall t ht]
        refine .agg b hstep hno ?_ hgen (by omega) hb hnone
          (waiting_of (hmade.agg b hb) (hagg b hb) hbst)
        intro t ht
        rw [hall t ht]
        rfl
      · obtain ⟨t, ht, hst⟩ : ∃ t ∈ w.stage.proveTasks, t.state ≠ .Success := by
          refine Classical.byContradiction fun hex => hall fun t ht => ?_
          exact Classical.byContradiction fun hst => hex ⟨t, ht, hst⟩
        have hdef : t.isDeferred = false :=
          Bool.eq_false_iff.mpr fun hd => hst (hr.graph.deferred t ht hd)
        have hlt : t.fileNo < w.stage.splitTask.totalSegments :=
          ((hr.rows hfrom).row hgen).fileNo_lt (mem_labels ht) hdef
        have hcount : w.stage.countProcessingProveTasks = 0 :=
          List.countP_eq_zero.mpr fun u hu => by simpa using hprove u hu
        refine .prove t hstep hno (by omega) ht
          (waiting_of (hmade.prove t ht) (hprove t ht) hst) ?_
        rw [hmade.segment t ht hdef]
        exact hfiles hdone _ hlt

end

section

variable {feat : Feature} {g : GenerateTask β}

/-- **NO DEADLOCK**: with no copy in flight, the hand-outs of the next turn
    hand something out. -/
theorem no_deadlock (hfrom : g.fromStep = .Init ∨ g.fromStep = .Agg)
    {task : StageTask β} {row : StageRow} {b : Boot β} {acts : List (Act β)}
    {l : Loop β} (hctx : task.context = .request g)
    (hrun : Runs feat task row b acts (.looping l))
    (hset : ¬ Unsettled l.world) (hend : l.world.stage.step ≠ .End)
    (hidle : l.world.inFlight = 0) (hmax : 1 ≤ g.maxProverNum)
    (clock : Nat → Nat) {disk : Disk β}
    (hfiles : l.world.stage.splitTask.state = .Success →
      ∀ i < l.world.stage.splitTask.totalSegments,
        disk.existsPath (g.segPath ++ "/" ++ toString i) = true) :
    ∃ w', handOuts feat clock disk l.world = some w' ∧ 0 < w'.inFlight := by
  have hd : Dispatched feat g l.world := hrun.inside hctx
  obtain ⟨w', hw, _, hout⟩ := hd.reachable.handOuts_total clock disk
  exact ⟨w', hw, hout (hd.ready hfrom hset hend hidle hmax hfiles)⟩

/-- At the top of the loop, with the split done and nothing out. -/
def Ctl.resting : Ctl (List UInt8) → Bool
  | .looping l => l.world.inFlight = 0 ∧ ¬ Unsettled l.world ∧
      l.world.stage.splitTask.state = .Success ∧ l.world.stage.step = .Prove
  | _ => false

/-- The split is back and nothing is out: the first prove task goes out. -/
theorem no_deadlock_split :
    ∃ l, Runs .prover proveTask freshRow freshBoot splitTurn (.looping l) ∧
      l.world.inFlight = 0 ∧ l.world.stage.splitTask.state = .Success ∧
      ∃ w', handOuts .prover id .full l.world = some w' ∧ 0 < w'.inFlight := by
  obtain ⟨c, hrun, hc⟩ := Runs.of_check .prover proveTask freshRow freshBoot
    splitTurn Ctl.resting (by decide)
  cases c with
  | looping l =>
      obtain ⟨hidle, hset, hdone, hstep⟩ := of_decide_eq_true hc
      refine ⟨l, hrun, hidle, hdone, ?_⟩
      refine no_deadlock (Or.inl rfl) rfl hrun hset ?_ hidle ?_ id ?_
      · rw [hstep]
        rintro ⟨⟩
      · decide
      · exact fun _ _ _ => rfl
  | waiting l w => cases hc
  | received l w => cases hc
  | returned row stage => cases hc
  | panicked row => cases hc

end

end ZkmProver
