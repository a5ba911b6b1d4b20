import ZkmProver.Rows

/-! # Success — what a stage that reports success has done

    The root of the graph is its last task (`Graph.root`); what is written at
    `snark_path` is its output, or the output of the snark task made from it
    (`Files`).  With the meaning of the step field (`Phases`) this is the
    soundness of `is_success` for every target (`success_sound`). -/

namespace ZkmProver

open Forest Keyed Machine

variable {β : Type}

/-! ## The step field -/

/-- The edges the step field moves along. -/
inductive StepEdge : Step → Step → Prop where
  | initProve : StepEdge .Init .Prove
  | aggSnark : StepEdge .Agg .Snark
  | proveSnark : StepEdge .Prove .Snark
  | proveEnd : StepEdge .Prove .End
  | snarkEnd : StepEdge .Snark .End

section

variable [Blob β] {feat : Feature} {w w' : World β}

theorem advance_edge {s s' : Stage β} {disk : Disk β} (hstep : s.step = .Prove)
    (h : s.advance disk = some s') :
    s'.step = .Prove ∨ StepEdge .Prove s'.step := by
  rw [Stage.advance] at h
  split at h
  · split at h
    · cases h
      exact Or.inr .proveEnd
    · split at h
      · split at h
        · cases h
          exact Or.inr .proveEnd
        · obtain ⟨s₁, _, rfl⟩ := Option.map_eq_some_iff.mp h
          exact Or.inr .proveSnark
      · cases h
        exact Or.inl hstep
  · cases h
    exact Or.inl hstep

theorem dispatch_edge {s' : Stage β} {disk : Disk β} (hs : Shape w)
    (h : w.stage.dispatch feat disk = some s') :
    s'.step = w.stage.step ∨ StepEdge w.stage.step s'.step := by
  cases dispatch_step h with
  | start split hstep _ _ _ =>
      rw [hstep]
      exact Or.inr .initProve
  | split s₁ hstep _ _ _ _ _ =>
      rw [hstep]
      exact Or.inr .proveEnd
  | finalise s₁ s₂ _ hstep h₁ hmore hsplit hdone htarget h₂ h =>
      have hfin := finalise_spec (hs.genProveTask hstep h₁)
        (hmore.frame.1.trans hstep) hdone hsplit htarget h₂
      rw [hstep]
      exact advance_edge hfin.frame.1 h
  | advance s₁ _ hstep _ hmore _ h =>
      rw [hstep]
      exact advance_edge (hmore.frame.1.trans hstep) h
  | snark snark hstep _ _ _ =>
      rw [hstep]
      exact Or.inr .aggSnark
  | ended hstep _ =>
      rw [hstep]
      exact Or.inr .snarkEnd
  | idle _ _ _ _ => exact Or.inl rfl

/-- **STEP EDGES**: a call leaves the step alone or moves it along one
    edge. -/
theorem World.step_edge {a : Action β} (hs : Shape w)
    (h : w.step feat a = some w') :
    w'.stage.step = w.stage.step ∨ StepEdge w.stage.step w'.stage.step := by
  cases World.step_stepped h with
  | dispatch disk s hd => exact dispatch_edge hs hd
  | quiet _ _ => exact Or.inl rfl
  | getSplit _ _ _ _ => exact Or.inl rfl
  | getProve _ _ => exact Or.inl rfl
  | getAgg now t s _ hs =>
      rw [hs]
      exact Or.inl rfl
  | getSnark _ _ _ _ => exact Or.inl rfl
  | onSplit _ _ _ _ _ => exact Or.inl rfl
  | onProve i r now c _ =>
      rw [onProveTask_eq]
      exact Or.inl rfl
  | onAgg i r now io c t s file _ hon =>
      obtain ⟨rfl, _, _⟩ := onAggTask_eq hon
      exact Or.inl rfl
  | onSnark i r now io c t s file _ _ hs =>
      rw [hs]
      exact Or.inl rfl

/-! ## The root of the graph -/

omit [Blob β] in
theorem Finished.last {ls : List Nat} {base next : Nat}
    {before : List (AggTask β)} {a : AggTask β}
    (h : Finished ls base next ((before ++ [a]).map (·.item))) :
    a.isFinal = true ∧ ∀ b ∈ before, b.isFinal = false := by
  rw [List.map_append] at h
  obtain ⟨hfin, hrest⟩ := h.final _ _ rfl
  exact ⟨hfin, fun b hb => hrest b.item (List.mem_map_of_mem hb)⟩

omit [Blob β] in
/-- There is one final task at most. -/
theorem Graph.final_unique (hg : Graph feat w) (hs : Shape w) {a b : AggTask β}
    (ha : a ∈ w.stage.aggTasks) (hb : b ∈ w.stage.aggTasks)
    (hfa : a.isFinal = true) (hfb : b.isFinal = true) : a = b := by
  rcases hg.cases hs with hnil | ⟨base, next, hfin, _, _⟩
  · rw [hnil] at ha
    exact nomatch ha
  · rcases List.eq_nil_or_concat w.stage.aggTasks with hnil | ⟨before, z, heq⟩
    · rw [hnil] at ha
      exact nomatch ha
    · rw [List.concat_eq_append] at heq
      rw [heq] at hfin ha hb
      have hlast : ∀ x ∈ before ++ [z], x.isFinal = true → x = z := by
        intro x hx hf
        rcases List.mem_append.mp hx with hx | hx
        · exact nomatch (hfin.last.2 x hx).symm.trans hf
        · exact List.mem_singleton.mp hx
      rw [hlast a ha hfa, hlast b hb hfb]

/-- The last task of a graph: the final one, over all prove tasks. -/
structure Root (s : Stage β) (a : AggTask β) : Prop where
  mem    : a ∈ s.aggTasks
  final  : s.aggTasks.filter (fun b => b.isFinal) = [a]
  real   : 2 ≤ s.proveTasks.length → a.fromProve = false
  leaves : Built (s.proveTasks.map (·.taskId))
    (planNodes (s.aggTasks.map (·.item))) [a.item.root]

omit [Blob β] in
/-- **ROOT**: a finished graph over at least one prove task has a root. -/
theorem Graph.root (hg : Graph feat w)
    (hd : w.stage.isTasksGenDone = true)
    (hwhole : w.stage.generateTask.compositeProof = false)
    (hne : w.stage.proveTasks ≠ []) : ∃ a, Root w.stage a := by
  obtain ⟨base, next, hfin, _, _⟩ := hg.planned hd hwhole
  have hbuilt := hfin.plan.built
  rcases List.eq_nil_or_concat w.stage.aggTasks with hnil | ⟨before, a, heq⟩
  · -- no task: the leaves would be no roots
    rw [hnil] at hbuilt
    have horder := hbuilt.order
    exact absurd (List.map_eq_nil_iff.mp horder.symm) hne
  · rw [List.concat_eq_append] at heq
    have hroots : ((w.stage.aggTasks.map (·.item)).getLast?.toList.map Item.root)
        = [a.item.root] := by
      rw [heq, List.map_append, List.map_singleton, List.getLast?_concat]
      rfl
    rw [hroots] at hbuilt
    refine ⟨a, ?_, ?_, ?_, hbuilt⟩
    · rw [heq]
      simp
    · rw [heq] at hfin ⊢
      rw [List.filter_append, filter_none hfin.last.2, List.nil_append,
        List.filter_cons, if_pos hfin.last.1, List.filter_nil]
    · intro htwo
      cases hp : a.fromProve with
      | false => rfl
      | true =>
          -- a pseudo root covers one prove task only
          have horder := hbuilt.order
          rw [List.flatMap_singleton, Item.root,
            if_pos (show a.item.fromProve = true from hp), leaves_leaf] at horder
          have hlen := congrArg List.length horder
          rw [List.length_map, List.length_singleton] at hlen
          omega

/-! ## The file at `snark_path` -/

/-- What is at `snark_path`, and what the snark task was made from. -/
structure Files (w : World β) : Prop where
  agg     : w.stage.generateTask.targetStep = .Agg →
    ∀ a ∈ w.stage.aggTasks, a.isFinal = true → a.fromProve = false →
      a.state = .Success → w.snarkFile = some a.output
  snark   : w.stage.snarkTask.state = .Success →
    w.snarkFile = some w.stage.snarkTask.output
  receipt : w.stage.snarkTask.state ≠ .Initial →
    ∀ a ∈ w.stage.aggTasks, a.isFinal = true →
      w.stage.snarkTask.aggReceipt = a.output

theorem Files.start (g : GenerateTask β) (file : Option β) :
    Files (World.start g file) :=
  ⟨fun _ _ ha => (nomatch ha), nofun, fun _ _ ha => nomatch ha⟩

omit [Blob β] in
/-- A snark task is made when there is no aggregation, or none is left and it
    is not the target. -/
theorem Phases.snark_made {g : GenerateTask β}
    (hfrom : g.fromStep = .Init ∨ g.fromStep = .Agg) (hp : Phases g w)
    (hs : Shape w) (hsn : w.stage.snarkTask.state ≠ .Initial) :
    w.stage.aggTasks = [] ∨
      Aggregated w.stage ∧ w.stage.generateTask.targetStep ≠ .Agg := by
  rcases hfrom with hf | hf
  · rw [hp.request]
    exact Or.inr (hp.due hsn hf)
  · exact Or.inl (hs.early (hp.idle hf).gen).1

theorem Files.moved_agg {g : GenerateTask β}
    (hfrom : g.fromStep = .Init ∨ g.fromStep = .Agg) (hs : Shape w)
    (hl : Leases w) (hg : Graph feat w) (hc : Credit w) (hp : Phases g w)
    (h : Files w) (hm : Moved feat w w')
    (htarget : w.stage.generateTask.targetStep = .Agg) :
    ∀ a ∈ w'.stage.aggTasks, a.isFinal = true → a.fromProve = false →
      a.state = .Success → w'.snarkFile = some a.output := by
  have hold := h.agg htarget
  cases hm with
  | finalise s listing hf =>
      intro a ha _ hreal hst
      rw [(hf.agg_new hs a ha hreal).2] at hst
      exact nomatch hst
  | proveIn i c t r now ps err _ _ _ _ =>
      intro a ha
      obtain ⟨b, hb, _, rfl⟩ := mem_clearOn ha
      exact hold b hb
  | aggOut now x t inputs hx _ _ ht _ =>
      intro a ha hfin hreal hst
      rcases mem_put.mp ha with ⟨ha, _⟩ | ⟨rfl, _⟩
      · exact hold a ha hfin hreal hst
      · rw [ht] at hst
        exact nomatch hst
  | aggIn i c t r now as err file hi htaken _ _ hfile =>
      have hcm := List.mem_of_getElem? hi
      obtain ⟨y, hy, hyc⟩ := hl.known c hcm
      intro a ha hfin hreal hst
      obtain ⟨b, hb, _, rfl⟩ := mem_clearOn ha
      cases htaken with
      | miss hmiss =>
          exact absurd (hl.agg.busy c hcm y hy hyc) (hmiss y hy hyc)
      | hit x hx hid hxst =>
          have hcx : c.isFinal = x.isFinal := (hc.copy c hcm x hx hid).1
          rcases (mem_put_of_mem hx (onTask_taskId ..)).mp hb with
            rfl | ⟨hb, hne⟩
          · -- the final result is written as it is taken
            obtain ⟨hr, hout⟩ :=
              @onTask_success _ now (r.agg c).toTaskHead _ hxst hst
            have hcf : c.isFinal = true := hcx.trans hfin
            rw [hfile, if_pos ⟨hr, hcf, htarget⟩]
            exact congrArg some hout.symm
          · -- another task is not the final one
            have hcf : c.isFinal ≠ true := by
              intro hcf
              have hxb := hg.final_unique hs hx hb (hcx.symm.trans hcf) hfin
              exact hne (by rw [hxb])
            rw [hfile, if_neg fun hall => hcf hall.2.1]
            exact hold b hb hfin hreal hst
  | snarkIn i c t r now hi _ _ =>
      have hbusy := hl.snark_busy (List.mem_of_getElem? hi)
      rcases hp.snark_made hfrom hs (by rw [hbusy]; exact nofun) with
        hnil | ⟨_, hne⟩
      · intro a ha
        rw [show w.stage.aggTasks = [] from hnil] at ha
        exact nomatch ha
      · exact absurd htarget hne
  | splitIn i c r now _ => exact hold
  | _ => exact hold

theorem Files.moved_snark {g : GenerateTask β}
    (hfrom : g.fromStep = .Init ∨ g.fromStep = .Agg) (hs : Shape w)
    (hl : Leases w) (hp : Phases g w) (h : Files w) (hm : Moved feat w w')
    (hst : w'.stage.snarkTask.state = .Success) :
    w'.snarkFile = some w'.stage.snarkTask.output := by
  cases hm with
  | snarkNew snark hnew => exact nomatch hst.symm.trans hnew.state
  | finalise s listing hf =>
      cases hf with
      | mk _ _ _ _ _ _ _ _ _ _ _ _ _ _ => exact h.snark hst
  | aggIn i c t r now as err file hi _ _ _ hfile =>
      have hcm := List.mem_of_getElem? hi
      obtain ⟨y, hy, _⟩ := hl.known c hcm
      have hne : w.stage.snarkTask.state ≠ .Initial := by
        rw [show w.stage.snarkTask.state = .Success from hst]
        exact nofun
      rcases hp.snark_made hfrom hs hne with hnil | ⟨_, hne⟩
      · rw [hnil] at hy
        exact nomatch hy
      · rw [hfile, if_neg fun hall => hne hall.2.2]
        exact h.snark hst
  | snarkOut now t _ ht =>
      rw [ht] at hst
      exact nomatch hst
  | snarkIn i c t r now hi _ _ =>
      have hbusy := hl.snark_busy (List.mem_of_getElem? hi)
      exact congrArg some (onTask_success hbusy hst).2.symm
  | splitIn i c r now _ => exact h.snark hst
  | _ => exact h.snark hst

theorem Files.moved_receipt {g : GenerateTask β}
    (hfrom : g.fromStep = .Init ∨ g.fromStep = .Agg) (hs : Shape w)
    (hl : Leases w) (hg : Graph feat w) (hp : Phases g w) (h : Files w)
    (hm : Moved feat w w') (hne : w'.stage.snarkTask.state ≠ .Initial) :
    ∀ a ∈ w'.stage.aggTasks, a.isFinal = true →
      w'.stage.snarkTask.aggReceipt = a.output := by
  have hp' := hp.moved hl hm
  have hs' := hs.moved hm
  rcases hfrom with hf | hf
  case inr =>
    intro a ha
    rw [(hs'.early (hp'.idle hf).gen).1] at ha
    exact nomatch ha
  -- once there is a snark task the final output does not change
  have hkeep : w.stage.snarkTask.state ≠ .Initial →
      w'.stage.snarkTask.aggReceipt = w.stage.snarkTask.aggReceipt →
      ∀ a ∈ w'.stage.aggTasks, a.isFinal = true →
        w'.stage.snarkTask.aggReceipt = a.output := by
    intro hne hsame a ha hfin
    have hagg := (hp.due hne hf).1
    have hmap := hm.aggs_done hagg.aggs hagg.proved.done
    obtain ⟨b, hb, hab⟩ := exists_key hmap.symm ha
    have hout : b.output = a.output := congrArg (fun p => p.2.2.1) hab
    have hbf : b.isFinal = a.isFinal := congrArg (fun p => p.2.2.2) hab
    rw [hsame, ← hout]
    exact h.receipt hne b hb (hbf.trans hfin)
  cases hm with
  | snarkNew snark hnew =>
      intro a ha hfin
      refine hnew.receipt (hp.request ▸ hf) a ?_
      have hmem : a ∈ w.stage.aggTasks.filter fun a => a.isFinal :=
        List.mem_filter.mpr ⟨ha, hfin⟩
      cases hlast : (w.stage.aggTasks.filter fun a => a.isFinal).getLast? with
      | none =>
          rw [List.getLast?_eq_none_iff.mp hlast] at hmem
          exact nomatch hmem
      | some z =>
          obtain ⟨hz, hzf⟩ :=
            List.mem_filter.mp (List.mem_of_getLast? hlast)
          rw [hg.final_unique hs hz ha hzf hfin]
  | finalise s listing hfinal =>
      cases hfinal with
      | mk _ _ _ _ _ _ _ hprove _ _ _ _ _ _ =>
          exact absurd (hp.prove hprove).2.2 hne
  | snarkOut now t hwait ht =>
      refine hkeep (fun hi => ?_) (by rw [ht])
      rw [hi] at hwait
      exact nomatch hwait
  | snarkIn i c t r now hi _ _ =>
      refine hkeep ?_ rfl
      rw [hl.snark_busy (List.mem_of_getElem? hi)]
      exact nofun
  | splitIn i c r now _ => exact hkeep hne rfl
  | _ => exact hkeep hne rfl

theorem Files.moved {g : GenerateTask β}
    (hfrom : g.fromStep = .Init ∨ g.fromStep = .Agg) (hs : Shape w)
    (hl : Leases w) (hg : Graph feat w) (hc : Credit w) (hp : Phases g w)
    (h : Files w) (hm : Moved feat w w') : Files w' := by
  refine ⟨fun htarget => ?_, h.moved_snark hfrom hs hl hp hm,
    h.moved_receipt hfrom hs hl hg hp hm⟩
  rw [hm.request] at htarget
  exact h.moved_agg hfrom hs hl hg hc hp hm htarget

theorem Reachable.files {g : GenerateTask β}
    (hfrom : g.fromStep = .Init ∨ g.fromStep = .Agg)
    (h : Reachable feat g w) : Files w := by
  have hall : Leases w ∧ Graph feat w ∧ Credit w ∧ Phases g w ∧ Files w :=
    h.inv (I := fun w => Leases w ∧ Graph feat w ∧ Credit w ∧ Phases g w ∧
        Files w)
      (fun file => ⟨Leases.start g file, Graph.start g file,
        Credit.start g file, Phases.start hfrom file, Files.start g file⟩)
      fun _ _ hs ⟨hl, hg, hc, hp, hf⟩ hm => ⟨hl.moved hs hm,
        hg.moved hs hl hm, hc.moved hs hl hg hm, hp.moved hl hm,
        hf.moved hfrom hs hl hg hc hp hm⟩
  exact hall.2.2.2.2

/-! ## Success is sound -/

omit [Blob β] in
/-- The fewest segments the planner of a build can work with. -/
def minSegments : Feature → Nat
  | .prover => 2
  | .proverV2 => 1

omit [Blob β] in
/-- Every successful split reported enough segments. -/
def EnoughSegments (feat : Feature) (w : World β) : Prop :=
  ∀ t, Task.Split t ∈ w.delivered → t.state = .Success →
    minSegments feat ≤ t.totalSegments

omit [Blob β] in
/-- The totals of a successful split task were reported. -/
def Reported (w : World β) : Prop :=
  w.stage.splitTask.state = .Success → ∃ t, Task.Split t ∈ w.delivered ∧
    t.state = .Success ∧ t.totalSegments = w.stage.splitTask.totalSegments

theorem Reported.moved (hl : Leases w) (h : Reported w)
    (hm : Moved feat w w') : Reported w' := by
  have hkeep : w'.stage.splitTask = w.stage.splitTask → Reported w' := by
    intro hsame hst
    rw [hsame] at hst
    obtain ⟨t, ht, hts, htotal⟩ := h hst
    refine ⟨t, ?_, hts, by rw [hsame]; exact htotal⟩
    rcases hm.delivered with heq | ⟨d, heq⟩
    · rw [heq]
      exact ht
    · rw [heq]
      exact List.mem_cons_of_mem _ ht
  cases hm with
  | start split _ _ hst => exact fun hs => nomatch hst.symm.trans hs
  | finalise s listing hf =>
      cases hf with
      | mk _ _ _ _ _ _ _ _ _ _ _ _ _ _ => exact hkeep rfl
  | splitOut now t _ ht =>
      intro hst
      rw [ht] at hst
      exact nomatch hst
  | splitIn i c r now hi =>
      intro hst
      have hbusy := hl.split_busy (List.mem_of_getElem? hi)
      refine ⟨_, List.mem_cons_self .., ?_, rfl⟩
      refine (stampSrc_state ..).trans ?_
      exact (@onTask_success _ now (r.split c).toTaskHead _ hbusy hst).1
  | _ => exact hkeep rfl

theorem Reachable.reported {g : GenerateTask β} (h : Reachable feat g w) :
    Reported w := by
  have hboth : Leases w ∧ Reported w :=
    h.inv (I := fun w => Leases w ∧ Reported w)
      (fun file => ⟨Leases.start g file, fun hst => nomatch hst⟩)
      fun _ _ hs hi hm => ⟨hi.1.moved hs hm, hi.2.moved hi.1 hm⟩
  exact hboth.2

omit [Blob β] in
/-- What a success of the request `g` stands for. -/
structure Sound (g : GenerateTask β) (w : World β) : Prop where
  split  : w.stage.splitTask.state = .Success
  proves : g.targetStep ≠ .Split →
    (w.stage.proveTasks.filter fun t => !t.isDeferred).length
        = w.stage.splitTask.totalSegments ∧
      ∀ t ∈ w.stage.proveTasks, t.state = .Success
  aggs   : g.targetStep ≠ .Split → g.compositeProof = false →
    (∀ a ∈ w.stage.aggTasks, a.state = .Success) ∧
      ∃ a, w.stage.aggTasks.filter (fun b => b.isFinal) = [a] ∧
        (g.targetStep = .Agg ∧ w.snarkFile = some a.output ∨
          g.targetStep = .Snark ∧ w.stage.snarkTask.state = .Success ∧
            w.stage.snarkTask.aggReceipt = a.output ∧
            w.snarkFile = some w.stage.snarkTask.output)

omit [Blob β] in
/-- The number of normal prove tasks. -/
theorem Rows.count (h : Rows feat w) (hd : w.stage.isTasksGenDone = true) :
    (w.stage.proveTasks.filter fun t => !t.isDeferred).length
      = w.stage.splitTask.totalSegments := by
  have hlen := congrArg List.length (h.row hd).normal
  rw [List.length_map, List.length_range, List.filter_map,
    List.length_map] at hlen
  exact hlen

omit [Blob β] in
theorem Rows.length_le (h : Rows feat w) (hd : w.stage.isTasksGenDone = true) :
    w.stage.splitTask.totalSegments ≤ w.stage.proveTasks.length := by
  rw [← h.count hd]
  exact List.length_filter_le ..

omit [Blob β] in
/-- The final task of a finished aggregation. -/
theorem Aggregated.final (ha : Aggregated w.stage)
    (hg : Graph feat w) (hr : Rows feat w)
    (hmin : minSegments feat ≤ w.stage.splitTask.totalSegments) :
    ∃ a, Root w.stage a ∧ a.fromProve = false := by
  have hle := hr.length_le ha.proved.done
  have hone : 1 ≤ minSegments feat := by cases feat <;> decide
  have hne : w.stage.proveTasks ≠ [] := by
    intro hnil
    rw [hnil, List.length_nil] at hle
    omega
  obtain ⟨a, hroot⟩ := hg.root ha.proved.done ha.whole hne
  refine ⟨a, hroot, ?_⟩
  cases hp : a.fromProve with
  | false => rfl
  | true =>
      have hfeat := (hg.pseudo a hroot.mem hp).2
      rw [hfeat] at hmin
      have htwo : 2 ≤ w.stage.splitTask.totalSegments := hmin
      exact nomatch hp.symm.trans (hroot.real (Nat.le_trans htwo hle))

omit [Blob β] in
/-- The three ways to report success from the first step on. -/
theorem Phases.outcome {g : GenerateTask β} (hp : Phases g w)
    (hfrom : g.fromStep = .Init) (hsucc : w.stage.isSuccess = true) :
    w.stage.splitTask.state = .Success ∧ g.targetStep = .Split ∨
      Proved w.stage ∧ g.compositeProof = true ∨
      Aggregated w.stage ∧ (g.targetStep = .Agg ∨
        g.targetStep ≠ .Agg ∧ w.stage.snarkTask.state = .Success) := by
  have hended : Ended w.stage := by
    rw [Stage.isSuccess, Bool.or_eq_true, decide_eq_true_eq,
      decide_eq_true_eq] at hsucc
    rcases hsucc with hs | hs
    · exact hp.ended hs
    · exact .snark hs
  have hreq := hp.request
  cases hended with
  | split hst htg => exact Or.inl ⟨hst, hreq ▸ htg⟩
  | composite hpr hc => exact Or.inr (Or.inl ⟨hpr, hreq ▸ hc⟩)
  | agg ha htg => exact Or.inr (Or.inr ⟨ha, Or.inl (hreq ▸ htg)⟩)
  | snark hst =>
      obtain ⟨ha, hne⟩ := hp.due (by rw [hst]; exact nofun) hfrom
      exact Or.inr (Or.inr ⟨ha, Or.inr ⟨hne, hst⟩⟩)

/-- The final task of a finished aggregation, given enough segments. -/
theorem Reachable.final {g : GenerateTask β} (h : Reachable feat g w)
    (hfrom : g.fromStep = .Init) (hseg : EnoughSegments feat w)
    (ha : Aggregated w.stage) :
    ∃ a, Root w.stage a ∧ a.fromProve = false ∧ a.isFinal = true := by
  have hsplit := ((h.phases (Or.inl hfrom)).gen ha.proved.done).1
  obtain ⟨t, ht, hts, htotal⟩ := h.reported hsplit
  obtain ⟨a, hroot, hreal⟩ :=
    ha.final h.graph (h.rows (Or.inl hfrom)) (htotal ▸ hseg t ht hts)
  exact ⟨a, hroot, hreal,
    (List.mem_filter.mp (hroot.final ▸ List.mem_singleton_self a)).2⟩

omit [Blob β] in
/-- The aggregated proof a stage publishes. -/
def published (w : World β) : Option β :=
  if w.stage.generateTask.targetStep = .Agg then w.snarkFile
  else some w.stage.snarkTask.aggReceipt

/-- What is published is the output of the final task. -/
theorem Reachable.published {g : GenerateTask β} (h : Reachable feat g w)
    (hfrom : g.fromStep = .Init) (hwhole : g.compositeProof = false)
    (htarget : g.targetStep = .Agg ∨ g.targetStep = .Snark)
    (hseg : EnoughSegments feat w) (hsucc : w.stage.isSuccess = true) :
    Aggregated w.stage ∧ ∃ a, Root w.stage a ∧ a.fromProve = false ∧
      ZkmProver.published w = some a.output := by
  have hp := h.phases (Or.inl hfrom)
  have hf := h.files (Or.inl hfrom)
  rw [ZkmProver.published, hp.request]
  rcases hp.outcome hfrom hsucc with ⟨_, hs⟩ | ⟨_, hc⟩ | ⟨ha, htg⟩
  · rcases htarget with htg | htg <;> exact nomatch htg.symm.trans hs
  · exact nomatch hc.symm.trans hwhole
  · obtain ⟨a, hroot, hreal, hfin⟩ := h.final hfrom hseg ha
    refine ⟨ha, a, hroot, hreal, ?_⟩
    rcases htg with htg | ⟨hne, hst⟩
    · rw [if_pos htg]
      refine hf.agg ?_ a hroot.mem hfin hreal (ha.aggs a hroot.mem)
      rw [hp.request]
      exact htg
    · rw [if_neg hne, hf.receipt (by rw [hst]; exact nofun) a hroot.mem hfin]

/-- **SUCCESS IS SOUND**: from the first step on, the step field moves along
    `StepEdge`, and a stage that reports success has done its work, for every
    target and whether or not the error flag is up. -/
theorem success_sound {g : GenerateTask β} (hfrom : g.fromStep = .Init)
    (htarget : g.targetStep = .Split ∨ g.targetStep = .Agg ∨
      g.targetStep = .Snark)
    (h : Reachable feat g w) (hseg : EnoughSegments feat w) :
    (w.stage.step = .Init ∨ w.stage.step = .Prove ∨ w.stage.step = .Snark ∨
      w.stage.step = .End) ∧
    (∀ a w', w.step feat a = some w' →
      w'.stage.step = w.stage.step ∨ StepEdge w.stage.step w'.stage.step) ∧
    (w.stage.isSuccess = true → Sound g w) := by
  have hp := h.phases (Or.inl hfrom)
  have hr := h.rows (Or.inl hfrom)
  have hf := h.files (Or.inl hfrom)
  refine ⟨?_, fun a w' hstep => World.step_edge h.shape hstep, ?_⟩
  · cases hs : w.stage.step with
    | Init => exact Or.inl rfl
    | Prove => exact Or.inr (Or.inl rfl)
    | Snark => exact Or.inr (Or.inr (Or.inl rfl))
    | End => exact Or.inr (Or.inr (Or.inr rfl))
    | Split => exact absurd hs hp.split
    | Agg => exact nomatch hfrom.symm.trans (hp.agg hs).1
  · intro hsucc
    have hproves : Proved w.stage → w.stage.splitTask.state = .Success ∧
        (w.stage.proveTasks.filter fun t => !t.isDeferred).length
            = w.stage.splitTask.totalSegments ∧
          ∀ t ∈ w.stage.proveTasks, t.state = .Success :=
      fun hpr => ⟨(hp.gen hpr.done).1, hr.count hpr.done, hpr.all⟩
    rcases hp.outcome hfrom hsucc with
      ⟨hst, htg⟩ | ⟨hpr, hc⟩ | ⟨ha, htg⟩
    · exact ⟨hst, fun hne => absurd htg hne, fun hne => absurd htg hne⟩
    · obtain ⟨hst, hall⟩ := hproves hpr
      exact ⟨hst, fun _ => hall, fun _ hno => nomatch hc.symm.trans hno⟩
    · obtain ⟨hst, hall⟩ := hproves ha.proved
      obtain ⟨a, hroot, hreal, hfin⟩ := h.final hfrom hseg ha
      refine ⟨hst, fun _ => hall, fun hnosplit _ =>
        ⟨ha.aggs, a, hroot.final, ?_⟩⟩
      rcases htg with htg | ⟨hne, hsn⟩
      · refine Or.inl ⟨htg, ?_⟩
        refine hf.agg ?_ a hroot.mem hfin hreal (ha.aggs a hroot.mem)
        rw [hp.request]
        exact htg
      · refine Or.inr ⟨?_, hsn, ?_, hf.snark hsn⟩
        · rcases htarget with htg | htg | htg
          · exact absurd htg hnosplit
          · exact absurd htg hne
          · exact htg
        · exact hf.receipt (by rw [hsn]; exact nofun) a hroot.mem hfin

end

/-- The bytes of the proof over two segments are at `snark_path`. -/
theorem success_sound_aggregated :
    ∃ w : World (List UInt8), Reachable .prover aggRequest w ∧ w.stage.step = .End ∧
      w.snarkFile = some [30] ∧ Sound aggRequest w := by
  obtain ⟨w, hr, hp⟩ := Reachable.of_check .prover aggRequest aggregatedRun
    (fun w => w.stage.step = .End ∧ w.snarkFile = some [30] ∧
      w.delivered.all (Task.splitsInto 2)) (by decide)
  obtain ⟨hend, hfile, hall⟩ := of_decide_eq_true hp
  have hseg : EnoughSegments .prover w := by
    intro t ht _
    have htotal := of_decide_eq_true (List.all_eq_true.mp hall _ ht)
    rw [htotal]
    exact Nat.le_refl 2
  refine ⟨w, hr, hend, hfile, ?_⟩
  exact (success_sound rfl (Or.inr (Or.inl rfl)) hr hseg).2.2
    (by rw [Stage.isSuccess, hend]; rfl)

end ZkmProver
