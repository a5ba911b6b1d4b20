import ZkmProver.InFlight

/-! # Phases — how far a stage is

    What is finished stays finished (`Moved.split_done`, `Moved.proved`,
    `Moved.aggs_done`, `Moved.snark_done`), so each value of the step field
    stands for what has been finished on the way there (`Phases`). -/

namespace ZkmProver

open Forest Keyed Machine

variable {β : Type}

/-- No split task was made, and so no prove task. -/
structure Idle (s : Stage β) : Prop where
  split  : s.splitTask.state = .Initial
  gen    : s.isTasksGenDone = false
  proves : s.proveTasks = []

/-- All prove tasks and all agg tasks are done. -/
structure Aggregated (s : Stage β) : Prop where
  proved : Proved s
  whole  : s.generateTask.compositeProof = false
  aggs   : ∀ a ∈ s.aggTasks, a.state = .Success

/-- Why a stage came to its end. -/
inductive Ended (s : Stage β) : Prop where
  | split : s.splitTask.state = .Success →
      s.generateTask.targetStep = .Split → Ended s
  | composite : Proved s → s.generateTask.compositeProof = true → Ended s
  | agg : Aggregated s → s.generateTask.targetStep = .Agg → Ended s
  | snark : s.snarkTask.state = .Success → Ended s

/-- What the step field stands for, in a stage of the request `g`. -/
structure Phases (g : GenerateTask β) (w : World β) : Prop where
  request : w.stage.generateTask = g
  init    : w.stage.step = .Init →
    g.fromStep = .Init ∧ Idle w.stage ∧ w.stage.snarkTask.state = .Initial
  agg     : w.stage.step = .Agg →
    g.fromStep = .Agg ∧ w.stage.snarkTask.state = .Initial
  prove   : w.stage.step = .Prove →
    g.fromStep = .Init ∧ w.stage.splitTask.state ≠ .Initial ∧
      w.stage.snarkTask.state = .Initial
  snark   : w.stage.step = .Snark → w.stage.snarkTask.state ≠ .Initial
  ended   : w.stage.step = .End → Ended w.stage
  split   : w.stage.step ≠ .Split
  gen     : w.stage.isTasksGenDone = true →
    w.stage.splitTask.state = .Success ∧ g.targetStep ≠ .Split
  idle    : g.fromStep = .Agg → Idle w.stage
  due     : w.stage.snarkTask.state ≠ .Initial → g.fromStep = .Init →
    Aggregated w.stage ∧ g.targetStep ≠ .Agg

section

variable [Blob β] {feat : Feature} {w w' : World β}

/-! ## What is finished stays finished -/

/-- A move leaves the request as it is. -/
theorem Moved.request (hm : Moved feat w w') :
    w'.stage.generateTask = w.stage.generateTask := by
  cases hm with
  | finalise s listing hf =>
      cases hf with
      | mk _ _ _ _ _ _ _ _ _ _ _ _ _ _ => rfl
  | _ => rfl

/-- Once the tasks are generated, they stay generated. -/
theorem Moved.gen (hm : Moved feat w w')
    (h : w.stage.isTasksGenDone = true) : w'.stage.isTasksGenDone = true := by
  cases hm with
  | finalise s listing hf => exact hf.frame.2
  | _ => exact h

omit [Blob β] in
/-- The stage's copy of a task that is out. -/
theorem Leases.split_busy (hl : Leases w) {c : SplitTask β}
    (hc : c ∈ w.splits) : w.stage.splitTask.state = .Processing :=
  hl.split.busy c hc w.stage.splitTask (List.mem_singleton_self _) rfl

omit [Blob β] in
/-- While a snark task is out, the stage's own is `Processing`. -/
theorem Leases.snark_busy (hl : Leases w) {c : SnarkTask β}
    (hc : c ∈ w.snarks) : w.stage.snarkTask.state = .Processing :=
  hl.snark.busy c hc w.stage.snarkTask (List.mem_singleton_self _) rfl

/-- A split that has succeeded is never written again. -/
theorem Moved.split_done (hl : Leases w) (hm : Moved feat w w')
    (h : w.stage.splitTask.state = .Success) :
    w'.stage.splitTask = w.stage.splitTask := by
  cases hm with
  | start split _ hfresh _ => exact nomatch h.symm.trans hfresh
  | finalise s listing hf =>
      cases hf with
      | mk _ _ _ _ _ _ _ _ _ _ _ _ _ _ => rfl
  | splitOut now t hwait _ => exact absurd h (waiting_unfinished hwait)
  | splitIn i c r now hc =>
      exact nomatch h.symm.trans (hl.split_busy (List.mem_of_getElem? hc))
  | _ => rfl

omit [Blob β] in
/-- A result never makes a task look new. -/
theorem onTask_made {now : Nat} {src dst : TaskHead β}
    (h : dst.state = .Processing) : (onTask now src dst).state ≠ .Initial := by
  rw [onTask_state, h]
  cases src.state <;> exact nofun

omit [Blob β] in
/-- A busy task becomes successful through a successful result only. -/
theorem onTask_success {now : Nat} {src dst : TaskHead β}
    (hbusy : dst.state = .Processing)
    (h : (onTask now src dst).state = .Success) :
    src.state = .Success ∧ (onTask now src dst).output = src.output := by
  have hsrc : src.state = .Success := by
    rw [onTask_state, hbusy] at h
    cases hs : src.state <;> simp [hs, TaskState.settled] at h ⊢
  exact ⟨hsrc, (onTask_output ..).trans (if_pos (Or.inl hsrc))⟩

/-- A split task that was made is never unmade. -/
theorem Moved.split_made (hl : Leases w) (hm : Moved feat w w')
    (h : w.stage.splitTask.state ≠ .Initial) :
    w'.stage.splitTask.state ≠ .Initial := by
  cases hm with
  | start split _ hfresh _ => exact absurd hfresh h
  | finalise s listing hf =>
      cases hf with
      | mk _ _ _ _ _ _ _ _ _ _ _ _ _ _ => exact h
  | splitOut now t _ ht =>
      rw [ht]
      exact nofun
  | splitIn i c r now hc =>
      exact onTask_made (hl.split_busy (List.mem_of_getElem? hc))
  | _ => exact h

/-- A snark task that has succeeded is never written again. -/
theorem Moved.snark_done (hl : Leases w) (hm : Moved feat w w')
    (h : w.stage.snarkTask.state = .Success) :
    w'.stage.snarkTask = w.stage.snarkTask := by
  cases hm with
  | snarkNew snark hnew => exact nomatch h.symm.trans hnew.fresh
  | finalise s listing hf =>
      cases hf with
      | mk _ _ _ _ _ _ _ _ _ _ _ _ _ _ => rfl
  | snarkOut now t hwait _ => exact absurd h (waiting_unfinished hwait)
  | snarkIn i c t r now hc _ _ =>
      exact nomatch h.symm.trans (hl.snark_busy (List.mem_of_getElem? hc))
  | _ => rfl

/-- A snark task that was made is never unmade. -/
theorem Moved.snark_made (hl : Leases w) (hm : Moved feat w w')
    (h : w.stage.snarkTask.state ≠ .Initial) :
    w'.stage.snarkTask.state ≠ .Initial := by
  cases hm with
  | snarkNew snark hnew => exact absurd hnew.fresh h
  | finalise s listing hf =>
      cases hf with
      | mk _ _ _ _ _ _ _ _ _ _ _ _ _ _ => exact h
  | snarkOut now t _ ht =>
      rw [ht]
      exact nofun
  | snarkIn i c t r now hc _ _ =>
      exact onTask_made (hl.snark_busy (List.mem_of_getElem? hc))
  | _ => exact h

/-- **PROVED** is final: late copies find nothing to change. -/
theorem Moved.proved (hm : Moved feat w w') (h : Proved w.stage) :
    w'.stage.proveTasks = w.stage.proveTasks ∧ Proved w'.stage := by
  have hsame : w'.stage.proveTasks = w.stage.proveTasks := by
    cases hm with
    | grow new _ hdone _ _ => exact nomatch hdone.symm.trans h.done
    | finalise s listing hf =>
        cases hf with
        | mk _ _ _ _ _ _ _ _ hdone _ _ _ _ _ =>
            exact nomatch hdone.symm.trans h.done
    | proveOut now x t hx hwait _ =>
        exact absurd (h.all x hx) (waiting_unfinished hwait)
    | proveIn i c t r now ps err _ htaken _ _ =>
        cases htaken with
        | miss _ => rfl
        | hit x hx _ hst => exact nomatch hst.symm.trans (h.all x hx)
    | _ => rfl
  exact ⟨hsame, hm.gen h.done, by rw [hsame]; exact h.all⟩

/-- The part of an agg task that is settled once it is done. -/
def AggTask.settledPart (a : AggTask β) : Nat × TaskState × β × Bool :=
  (a.taskId, a.state, a.output, a.isFinal)

/-- When every aggregation has succeeded, their settled parts stay. -/
theorem Moved.aggs_done (hm : Moved feat w w')
    (h : ∀ a ∈ w.stage.aggTasks, a.state = .Success)
    (hd : w.stage.isTasksGenDone = true) :
    w'.stage.aggTasks.map AggTask.settledPart
      = w.stage.aggTasks.map AggTask.settledPart := by
  cases hm with
  | finalise s listing hf =>
      cases hf with
      | mk _ _ _ _ _ _ _ _ hdone _ _ _ _ _ => exact nomatch hdone.symm.trans hd
  | proveIn i c t r now ps err _ _ _ _ =>
      exact map_clearOn AggTask.settledPart (fun _ _ => rfl) _ _ _
  | aggOut now x t inputs hx _ hwait _ _ =>
      exact absurd (h x hx) (waiting_unfinished hwait)
  | aggIn i c t r now as err file _ htaken _ _ _ =>
      refine (map_clearOn AggTask.settledPart (fun _ _ => rfl) _ _ _).trans ?_
      cases htaken with
      | miss _ => rfl
      | hit x hx _ hst => exact nomatch hst.symm.trans (h x hx)
  | _ => rfl

/-- **AGGREGATED** is final. -/
theorem Moved.aggregated (hm : Moved feat w w')
    (h : Aggregated w.stage) : Aggregated w'.stage := by
  refine ⟨(hm.proved h.proved).2, by rw [hm.request]; exact h.whole, ?_⟩
  intro a ha
  obtain ⟨b, hb, hab⟩ := exists_key
    (hm.aggs_done h.aggs h.proved.done).symm ha
  have hst : b.state = a.state := congrArg (fun p => p.2.1) hab
  rw [← hst]
  exact h.aggs b hb

/-- An ended stage stays ended. -/
theorem Ended.moved (hl : Leases w) (hm : Moved feat w w')
    (h : Ended w.stage) : Ended w'.stage := by
  cases h with
  | split hst htarget =>
      exact .split (by rw [hm.split_done hl hst]; exact hst)
        (by rw [hm.request]; exact htarget)
  | composite hp hc =>
      exact .composite (hm.proved hp).2 (by rw [hm.request]; exact hc)
  | agg ha htarget =>
      exact .agg (hm.aggregated ha) (by rw [hm.request]; exact htarget)
  | snark hst => exact .snark (by rw [hm.snark_done hl hst]; exact hst)

/-! ## The invariant -/

/-- The phases hold of a new stage. -/
theorem Phases.start {g : GenerateTask β}
    (hfrom : g.fromStep = .Init ∨ g.fromStep = .Agg) (file : Option β) :
    Phases g (World.start g file) := by
  have hidle : Idle (World.start g file).stage := ⟨rfl, rfl, rfl⟩
  have hstep : (World.start g file).stage.step = g.fromStep := rfl
  refine ⟨rfl, ?_, ?_, ?_, ?_, ?_, ?_, nofun, fun _ => hidle, ?_⟩
  · exact fun h => ⟨hstep ▸ h, hidle, rfl⟩
  · exact fun h => ⟨hstep ▸ h, rfl⟩
  · intro h
    rw [hstep] at h
    rcases hfrom with hf | hf <;> exact nomatch hf.symm.trans h
  · intro h
    rw [hstep] at h
    rcases hfrom with hf | hf <;> exact nomatch hf.symm.trans h
  · intro h
    rw [hstep] at h
    rcases hfrom with hf | hf <;> exact nomatch hf.symm.trans h
  · intro h
    rw [hstep] at h
    rcases hfrom with hf | hf <;> exact nomatch hf.symm.trans h
  · exact fun h => absurd rfl h

/-- A move that neither steers nor makes a task keeps the phase. -/
theorem Phases.keep {g : GenerateTask β} (hl : Leases w) (h : Phases g w)
    (hm : Moved feat w w') (hstep : w'.stage.step = w.stage.step)
    (hidle : w.stage.step ≠ .Prove → Idle w.stage → Idle w'.stage)
    (hsnark : w.stage.snarkTask.state = .Initial →
      w'.stage.snarkTask.state = .Initial)
    (hgen : w'.stage.isTasksGenDone = w.stage.isTasksGenDone) :
    Phases g w' := by
  refine ⟨hm.request.trans h.request, ?_, ?_, ?_, ?_, ?_, ?_, ?_, ?_, ?_⟩
  · intro hs
    have hinit := hstep.symm.trans hs
    obtain ⟨hfrom, hi, hsn⟩ := h.init hinit
    exact ⟨hfrom, hidle (by rw [hinit]; exact nofun) hi, hsnark hsn⟩
  · intro hs
    obtain ⟨hfrom, hsn⟩ := h.agg (hstep.symm.trans hs)
    exact ⟨hfrom, hsnark hsn⟩
  · intro hs
    obtain ⟨hfrom, hsplit, hsn⟩ := h.prove (hstep.symm.trans hs)
    exact ⟨hfrom, hm.split_made hl hsplit, hsnark hsn⟩
  · exact fun hs => hm.snark_made hl (h.snark (hstep.symm.trans hs))
  · exact fun hs => (h.ended (hstep.symm.trans hs)).moved hl hm
  · rw [hstep]
    exact h.split
  · intro hd
    obtain ⟨hst, htarget⟩ := h.gen (hgen.symm.trans hd)
    exact ⟨by rw [hm.split_done hl hst]; exact hst, htarget⟩
  · intro hfrom
    refine hidle (fun hs => ?_) (h.idle hfrom)
    exact nomatch hfrom.symm.trans (h.prove hs).1
  · intro hsn hfrom
    obtain ⟨ha, htarget⟩ := h.due (fun hi => hsn (hsnark hi)) hfrom
    exact ⟨hm.aggregated ha, htarget⟩

/-- **PHASES**: moves keep the meaning of the step field. -/
theorem Phases.moved {g : GenerateTask β} (hl : Leases w) (h : Phases g w)
    (hm : Moved feat w w') : Phases g w' := by
  have hkeep := h.keep hl hm
  cases hm with
  | start split hinit hfresh hst =>
      obtain ⟨hfrom, hi, hsn⟩ := h.init hinit
      refine ⟨h.request, nofun, nofun, ?_, nofun, nofun, nofun, ?_, ?_, ?_⟩
      · exact fun _ => ⟨hfrom, by rw [hst]; exact nofun, hsn⟩
      · exact fun hd => nomatch hi.gen.symm.trans hd
      · exact fun hf => nomatch hfrom.symm.trans hf
      · exact fun hne => absurd hsn hne
  | grow new hprove _ _ _ =>
      exact hkeep rfl (fun hne => absurd hprove hne) id rfl
  | steer step hsteer =>
      have hend : step = .End ∧ Ended w.stage := by
        cases hsteer with
        | split _ hst _ htarget => exact ⟨rfl, .split hst htarget⟩
        | composite _ hp hc => exact ⟨rfl, .composite hp hc⟩
        | agg _ hp hc ha htarget => exact ⟨rfl, .agg ⟨hp, hc, ha⟩ htarget⟩
        | snark _ hst => exact ⟨rfl, .snark hst⟩
      obtain ⟨rfl, hended⟩ := hend
      refine ⟨h.request, nofun, nofun, nofun, nofun, ?_, nofun, h.gen, ?_, ?_⟩
      · intro _
        cases hended with
        | split hst htarget => exact .split hst htarget
        | composite hp hc => exact .composite ⟨hp.done, hp.all⟩ hc
        | agg ha htarget =>
            exact .agg ⟨⟨ha.proved.done, ha.proved.all⟩, ha.whole, ha.aggs⟩
              htarget
        | snark hst => exact .snark hst
      · intro hfrom
        have hi := h.idle hfrom
        exact ⟨hi.split, hi.gen, hi.proves⟩
      · intro hsn hfrom
        obtain ⟨ha, htarget⟩ := h.due hsn hfrom
        exact ⟨⟨⟨ha.proved.done, ha.proved.all⟩, ha.whole, ha.aggs⟩, htarget⟩
  | finalise s listing hf =>
      cases hf with
      | mk _ _ _ _ _ _ _ hprove _ hst htarget _ _ _ =>
          obtain ⟨hfrom, hsplit, hsn⟩ := h.prove hprove
          have hother : ∀ p, p ≠ Step.Prove → w.stage.step ≠ p :=
            fun p hne hs => hne (hs.symm.trans hprove)
          refine ⟨h.request, ?_, ?_, ?_, ?_, ?_, ?_, ?_, ?_, ?_⟩
          · exact fun hs => absurd hs (hother _ nofun)
          · exact fun hs => absurd hs (hother _ nofun)
          · exact fun _ => ⟨hfrom, hsplit, hsn⟩
          · exact fun hs => absurd hs (hother _ nofun)
          · exact fun hs => absurd hs (hother _ nofun)
          · exact hother _ nofun
          · exact fun _ => ⟨hst, by rw [← h.request]; exact htarget⟩
          · exact fun hf => nomatch hfrom.symm.trans hf
          · exact fun hne => absurd hsn hne
  | snarkNew snark hnew =>
      refine ⟨h.request, nofun, nofun, nofun, ?_, nofun, nofun, h.gen, ?_, ?_⟩
      · exact fun _ => by rw [hnew.state]; exact nofun
      · intro hfrom
        have hi := h.idle hfrom
        exact ⟨hi.split, hi.gen, hi.proves⟩
      · intro _ hfrom
        cases hnew.due with
        | fromAgg _ hf =>
            rw [h.request] at hf
            exact nomatch hfrom.symm.trans hf
        | fromProve _ hp hc ha htarget =>
            rw [h.request] at htarget
            exact ⟨⟨⟨hp.done, hp.all⟩, hc, ha⟩, htarget⟩
  | splitOut now t hwait ht =>
      refine hkeep rfl (fun _ hi => ?_) id rfl
      rw [hi.split] at hwait
      exact nomatch hwait
  | splitIn i c r now hc =>
      refine hkeep rfl (fun _ hi => ?_) id rfl
      exact nomatch hi.split.symm.trans
        (hl.split_busy (List.mem_of_getElem? hc))
  | proveOut now x t hx _ _ =>
      refine hkeep rfl (fun _ hi => ?_) id rfl
      rw [hi.proves] at hx
      exact nomatch hx
  | proveIn i c t r now ps err _ htaken _ _ =>
      refine hkeep rfl (fun _ hi => ⟨hi.split, hi.gen, ?_⟩) id rfl
      cases htaken with
      | miss _ => exact hi.proves
      | hit x hx _ _ =>
          rw [hi.proves] at hx
          exact nomatch hx
  | aggOut now x t inputs _ _ _ _ _ =>
      exact hkeep rfl (fun _ hi => ⟨hi.split, hi.gen, hi.proves⟩) id rfl
  | aggIn i c t r now as err file _ _ _ _ _ =>
      exact hkeep rfl (fun _ hi => ⟨hi.split, hi.gen, hi.proves⟩) id rfl
  | snarkOut now t hwait ht =>
      refine hkeep rfl (fun _ hi => ⟨hi.split, hi.gen, hi.proves⟩) ?_ rfl
      intro hsn
      rw [hsn] at hwait
      exact nomatch hwait
  | snarkIn i c t r now hc _ _ =>
      refine hkeep rfl (fun _ hi => ⟨hi.split, hi.gen, hi.proves⟩) ?_ rfl
      intro hsn
      exact nomatch hsn.symm.trans (hl.snark_busy (List.mem_of_getElem? hc))

/-- They hold of every reachable one. -/
theorem Reachable.phases {g : GenerateTask β}
    (hfrom : g.fromStep = .Init ∨ g.fromStep = .Agg)
    (h : Reachable feat g w) : Phases g w := by
  have hboth : Leases w ∧ Phases g w :=
    h.inv (I := fun w => Leases w ∧ Phases g w)
      (fun file => ⟨Leases.start g file, Phases.start hfrom file⟩)
      fun _ _ hs hi hm => ⟨hi.1.moved hs hm, hi.2.moved hi.1 hm⟩
  exact hboth.2

omit [Blob β] in
/-- What is only done in a stage that starts with `Init`. -/
structure FromInit (g : GenerateTask β) (s : Stage β) : Prop where
  init  : s.step = .Init → g.fromStep = .Init
  split : s.splitTask.state ≠ .Initial → g.fromStep = .Init
  gen   : s.isTasksGenDone = true → g.fromStep = .Init

/-- A move keeps what a request from `Init` knows of its stage. -/
theorem FromInit.moved {g : GenerateTask β} (hl : Leases w)
    (h : FromInit g w.stage) (hm : Moved feat w w') :
    FromInit g w'.stage := by
  cases hm with
  | start split hstep _ _ =>
      exact ⟨fun _ => h.init hstep, fun _ => h.init hstep,
        fun _ => h.init hstep⟩
  | steer step hsteer =>
      refine ⟨fun hinit => ?_, h.split, h.gen⟩
      cases hsteer <;> cases hinit
  | finalise s listing hf =>
      cases hf with
      | mk _ _ _ _ _ _ _ _ _ hst _ _ _ _ =>
          refine ⟨h.init, h.split, fun _ => h.split ?_⟩
          rw [hst]
          rintro ⟨⟩
  | snarkNew snark _ => exact ⟨by rintro ⟨⟩, h.split, h.gen⟩
  | splitOut now t hwait _ =>
      refine ⟨h.init, fun _ => h.split ?_, h.gen⟩
      intro hst
      rw [hst] at hwait
      cases hwait
  | splitIn i c r now hc =>
      refine ⟨h.init, fun _ => h.split ?_, h.gen⟩
      rw [hl.split_busy (List.mem_of_getElem? hc)]
      rintro ⟨⟩
  | _ => exact ⟨h.init, h.split, h.gen⟩

/-- It holds of every stage that is reached. -/
theorem Reachable.from_init {g : GenerateTask β} (h : Reachable feat g w) :
    FromInit g w.stage := by
  have hboth : Leases w ∧ FromInit g w.stage :=
    h.inv (I := fun w => Leases w ∧ FromInit g w.stage)
      (fun file => ⟨Leases.start g file, fun hinit => hinit,
        fun hmade => absurd rfl hmade, by rintro ⟨⟩⟩)
      fun _ _ hs hi hm => ⟨hi.1.moved hs hm, hi.2.moved hi.1 hm⟩
  exact hboth.2

end

end ZkmProver
