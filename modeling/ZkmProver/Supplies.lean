import ZkmProver.Dependencies
import ZkmProver.Formats
import ZkmProver.PlanShape
import ZkmProver.ProveList
import ZkmProver.StatusFiles
import ZkmProver.Success

/-! # Supplies — what the provers are handed under `prover_v2`

    A plan fixes for every agg task its key, its sources and its flags
    (`AggTask.need`), and the flags say what kind of task each source is
    (`Need.Flagged`).  A run fixes what each task's output is: the output of a
    reply, or the bytes of a file (`Supplies`).  Together they say what is in a
    request when it is handed out, unless a deferred proof could not be read
    when the list of prove tasks was completed: `safe_read` takes such a file
    for an empty one, and the prove task over it is as good as proved. -/

namespace ZkmProver

open Forest Keyed Machine

variable {β : Type}

/-! ## Where bytes come from -/

/-- The call supplies the bytes: it returns what a node has made, or reads
    what the executor has written. -/
inductive Supplies (g : GenerateTask β) : Action β → Content → β → Prop where
  | prove (i : Nat) (r : Reply β) (now : Nat) : r.state = .Success →
      Supplies g (.onProve i r now) .shardProof r.output
  | agg (i : Nat) (r : Reply β) (now : Nat) (io : Bool) :
      r.state = .Success → Supplies g (.onAgg i r now io) .compressed r.output
  | deferred (disk : Disk β) (file : Nat × String) (bytes : β) :
      file ∈ deferredFiles ((disk.readDir g.segPath).getD []) →
      disk.read (g.segPath ++ "/" ++ file.2) = some bytes →
      Supplies g (.dispatch disk) .deferredWitness bytes
  | vk (disk : Disk β) (bytes : β) :
      disk.read (g.baseDir ++ "/vk.bin") = some bytes →
      Supplies g (.dispatch disk) .vk bytes

/-- One of the calls supplies the bytes. -/
def Supplied (g : GenerateTask β) (acts : List (Action β)) (content : Content)
    (bytes : β) : Prop :=
  ∃ a ∈ acts, Supplies g a content bytes

theorem Supplied.append {g : GenerateTask β} {acts : List (Action β)}
    {content : Content} {bytes : β} (h : Supplied g acts content bytes)
    (a : Action β) : Supplied g (acts ++ [a]) content bytes := by
  obtain ⟨b, hb, hmade⟩ := h
  exact ⟨b, List.mem_append_left _ hb, hmade⟩

theorem Supplies.last {g : GenerateTask β} {a : Action β} {content : Content}
    {bytes : β} (h : Supplies g a content bytes) (acts : List (Action β)) :
    Supplied g (acts ++ [a]) content bytes :=
  ⟨a, List.mem_append_right _ (List.mem_singleton_self a), h⟩

/-! ## What a task needs -/

/-- The key of an agg task, the sources of its inputs, and the flags that they
    are read by. -/
structure Need (β : Type) where
  vk : β
  srcs : List (Src Nat)
  isLeafLayer : Bool
  isDeferred : Bool

/-- What an agg task needs. -/
def AggTask.need (a : AggTask β) : Need β where
  vk := a.vk
  srcs := a.inputs.map (·.src)
  isLeafLayer := a.isLeafLayer
  isDeferred := a.isDeferred

/-- The flags say what kind of task each source is; `isVk` holds of the key of
    a normal leaf. -/
structure Need.Flagged (isVk : β → Prop) (spots : List Spot) (n : Need β) :
    Prop where
  vk     : n.isLeafLayer = true → n.isDeferred = false → isVk n.vk
  single : n.isLeafLayer = true → n.isDeferred = true → ∃ s, n.srcs = [s]
  leaf   : n.isLeafLayer = true → ∀ s ∈ n.srcs, ∃ p ∈ spots,
    p.isDeferred = n.isDeferred ∧ s = .leaf p.id
  inner  : n.isLeafLayer = false → ∀ s ∈ n.srcs, ∃ id, s = .node id

theorem Need.Flagged.mono {isVk isVk' : β → Prop} {spots : List Spot}
    {n : Need β} (h : n.Flagged isVk spots) (hvk : ∀ b, isVk b → isVk' b) :
    n.Flagged isVk' spots :=
  { h with vk := fun hleaf hdef => hvk _ (h.vk hleaf hdef) }

/-- A planned task has its flags right. -/
theorem Batched.flagged [Blob β] {vk : β} {ps : List (ProveTask β)}
    {a : AggTask β} (h : Batched vk ps a) :
    a.need.Flagged (· = vk) (ps.map ProveTask.spot) := by
  have hsrcs : ∀ {s : Src Nat}, s ∈ a.need.srcs → ∃ i ∈ a.inputs, i.src = s :=
    List.mem_map.mp
  refine ⟨?_, ?_, ?_, ?_⟩
  · intro hleaf hdef
    cases h with
    | normal _ _ _ _ hvk _ _ _ => exact hvk
    | deferred _ _ _ _ _ htrue => cases hdef.symm.trans htrue
    | inner _ _ _ hfalse _ _ => cases hleaf.symm.trans hfalse
  · intro hleaf hdef
    cases h with
    | normal _ _ _ _ _ _ _ hfalse => cases hdef.symm.trans hfalse
    | deferred t _ hin _ _ _ =>
        refine ⟨(fromProveTask t).src, ?_⟩
        rw [AggTask.need, hin]
        rfl
    | inner _ _ _ hfalse _ _ => cases hleaf.symm.trans hfalse
  · intro hleaf s hs
    obtain ⟨i, hi, rfl⟩ := hsrcs hs
    rcases h.srcs.2 with ⟨_, hall⟩ | ⟨hfalse, _, _⟩
    · obtain ⟨t, ht, hdef, hsrc⟩ := hall i hi
      exact ⟨t.spot, List.mem_map_of_mem ht, hdef, hsrc⟩
    · cases hleaf.symm.trans hfalse
  · intro hleaf s hs
    obtain ⟨i, hi, rfl⟩ := hsrcs hs
    rcases h.srcs.2 with ⟨htrue, _⟩ | ⟨_, _, hall⟩
    · cases htrue.symm.trans hleaf
    · exact hall i hi

section

variable [Blob β] {s s' : Stage β} {disk : Disk β}

/-! ## The code of `dispatch` -/

/-- This call of `dispatch` plans the agg tasks. -/
def Stage.plans (s : Stage β) : Bool :=
  s.step = .Prove && s.splitTask.state = .Success && !s.isTasksGenDone &&
    s.generateTask.targetStep ≠ .Split && !s.generateTask.compositeProof

theorem finalise_needs (hnil : s.aggTasks = [])
    (h : s.finalise .proverV2 disk = some s') :
    s.generateTask.compositeProof = true ∧ s'.aggTasks = [] ∨
      s.generateTask.compositeProof = false ∧
        ∃ vk, disk.read (s.generateTask.baseDir ++ "/vk.bin") = some vk ∧
          ∀ n ∈ s'.aggTasks.map AggTask.need,
            n.Flagged (· = vk) (s'.proveTasks.map ProveTask.spot) := by
  rw [Stage.finalise, Option.bind_eq_bind, Option.bind_eq_some_iff] at h
  obtain ⟨s₁, h₁, h⟩ := h
  rw [Option.bind_eq_some_iff] at h
  obtain ⟨s₂, h₂, h⟩ := h
  obtain ⟨normal, deferred, u, errmsg, _, _, hs₁⟩ := genProveTaskPost_spec h₁
  have hnil₁ : s₁.aggTasks = [] := by
    rw [hs₁]
    exact hnil
  have hreq : s₁.generateTask = s.generateTask := by rw [hs₁]
  have hlist := (genGraph_list h₂).1
  rw [clearSuccessful_eq, Option.some.injEq] at h
  subst h
  rw [Stage.genGraph, hreq] at h₂
  split at h₂
  case isTrue hcomp =>
    cases h₂
    refine Or.inl ⟨hcomp, ?_⟩
    dsimp only
    rw [hnil₁]
    exact clearAll_nil _
  case isFalse hcomp =>
    obtain ⟨vk, hvk, hbatched, _⟩ := genAggTasksV2_eq hnil₁ h₂
    rw [hreq] at hvk
    refine Or.inr ⟨Bool.not_eq_true _ ▸ hcomp, vk, hvk, ?_⟩
    dsimp only
    rw [map_clearAll AggTask.need (fun _ _ => rfl), hlist]
    intro n hn
    obtain ⟨a, ha, rfl⟩ := List.mem_map.mp hn
    exact (hbatched a ha).2.flagged

/-- What a `dispatch` does to the needs. -/
inductive NeedStep (disk : Disk β) (s s' : Stage β) : Prop where
  | planned (vk : β) : s.plans = true → s'.isTasksGenDone = true →
      disk.read (s.generateTask.baseDir ++ "/vk.bin") = some vk →
      (∀ n ∈ s'.aggTasks.map AggTask.need,
        n.Flagged (· = vk) (s'.proveTasks.map ProveTask.spot)) →
      NeedStep disk s s'
  | kept : s'.aggTasks.map AggTask.need = s.aggTasks.map AggTask.need →
      (s.generateTask.compositeProof = false →
        s'.isTasksGenDone = s.isTasksGenDone) → NeedStep disk s s'

theorem dispatch_needs (hearly : s.isTasksGenDone = false → s.aggTasks = [])
    (h : s.dispatch .proverV2 disk = some s') : NeedStep disk s s' := by
  cases dispatch_step h with
  | start _ _ _ _ _ => exact .kept rfl fun _ => rfl
  | split s₁ _ h₁ _ _ _ _ =>
      obtain ⟨new, _, _, rfl⟩ := genProveTask_list h₁
      exact .kept rfl fun _ => rfl
  | finalise s₁ s₂ _ hstep h₁ hmore hsplit hdone htarget h₂ h =>
      obtain ⟨_, f2, f3, f4⟩ := hmore.frame
      rw [f2] at hdone
      rw [f3] at hsplit
      rw [f4] at htarget
      have hnil : s₁.aggTasks = [] := by
        rw [hmore]
        exact hearly hdone
      obtain ⟨_, _, _, _, _, _, hgen⟩ := finalise_list h₂
      rw [advance_frame h]
      rcases finalise_needs hnil h₂ with
        ⟨hcomp, hnil₂⟩ | ⟨hcomp, vk, hvk, hall⟩
      · refine .kept ?_ fun hno => ?_
        · dsimp only
          rw [hnil₂, hearly hdone]
        · rw [f4] at hcomp
          cases hno.symm.trans hcomp
      · rw [f4] at hcomp hvk
        refine .planned vk ?_ hgen hvk hall
        simp [Stage.plans, hstep, hsplit, hdone, htarget, hcomp]
  | advance s₁ _ _ h₁ _ _ h =>
      obtain ⟨new, _, _, rfl⟩ := genProveTask_list h₁
      rw [advance_frame h]
      exact .kept rfl fun _ => rfl
  | snark _ _ _ _ _ => exact .kept rfl fun _ => rfl
  | ended _ _ => exact .kept rfl fun _ => rfl
  | idle _ _ _ _ => exact .kept rfl fun _ => rfl

/-! ## Steps -/

variable {feat : Feature} {g : GenerateTask β} {w w' : World β}

/-- Outside `dispatch` an agg task keeps its need. -/
theorem World.step_needs {a : Action β} (hs : Shape w)
    (h : w.step .proverV2 a = some w') :
    (∃ disk, a = .dispatch disk ∧ NeedStep disk w.stage w'.stage ∧
      w'.listing
        = World.listed .proverV2 disk w.stage w'.stage w.listing) ∨
      w'.stage.aggTasks.map AggTask.need
          = w.stage.aggTasks.map AggTask.need ∧
        w'.stage.isTasksGenDone = w.stage.isTasksGenDone ∧
        w'.listing = w.listing := by
  cases World.step_stepped h with
  | dispatch disk s hd =>
      exact Or.inl ⟨disk, rfl,
        dispatch_needs (fun hdone => (hs.early hdone).1) hd, rfl⟩
  | quiet _ _ => exact Or.inr ⟨rfl, rfl, rfl⟩
  | getSplit _ _ _ _ => exact Or.inr ⟨rfl, rfl, rfl⟩
  | getProve _ _ => exact Or.inr ⟨rfl, rfl, rfl⟩
  | getAgg now t s _ hs =>
      rw [hs]
      refine Or.inr ⟨map_replaceF _ ?_ _, rfl, rfl⟩
      intro x y hxy
      rw [(handAgg_eq_some.mp hxy).2.2]
      rfl
  | getSnark _ _ _ _ => exact Or.inr ⟨rfl, rfl, rfl⟩
  | onSplit _ _ _ _ _ => exact Or.inr ⟨rfl, rfl, rfl⟩
  | onProve i r now c _ =>
      rw [onProveTask_eq]
      exact Or.inr ⟨map_clearOn _ (fun _ _ => rfl) _ _ _, rfl, rfl⟩
  | onAgg i r now io c t s file _ hon =>
      obtain ⟨rfl, _, _⟩ := onAggTask_eq hon
      refine Or.inr ⟨?_, rfl, rfl⟩
      dsimp only
      rw [map_clearOn _ fun _ _ => rfl]
      refine map_replaceF _ ?_ _
      intro x y hxy
      rw [Stage.takeAgg] at hxy
      split at hxy
      · cases hxy
        rfl
      · cases hxy
  | onSnark i r now io c t s file _ _ hs =>
      rw [hs]
      exact Or.inr ⟨rfl, rfl, rfl⟩

omit [Blob β] in
/-- A SUCCESS result brings what a node has made. -/
theorem Delivers.supplies_prove {a : Action β} {t : ProveTask β}
    (h : Delivers w a (.Prove t)) (hst : t.state = .Success) :
    Supplies g a .shardProof t.output := by
  cases h with
  | prove i r now c _ _ hback =>
      rw [hback.output]
      exact .prove i r now (hback.state.symm.trans hst)

omit [Blob β] in
theorem Delivers.supplies_agg {a : Action β} {t : AggTask β}
    (h : Delivers w a (.Agg t)) (hst : t.state = .Success) :
    Supplies g a .compressed t.output := by
  cases h with
  | agg i r now io c _ _ hback =>
      rw [hback.output]
      exact .agg i r now io (hback.state.symm.trans hst)

/-- Once the list is complete the tasks keep their positions. -/
theorem World.step_spots {a : Action β} (h : w.step feat a = some w')
    (hd : w.stage.isTasksGenDone = true) :
    w'.stage.proveTasks.map ProveTask.spot
      = w.stage.proveTasks.map ProveTask.spot := by
  rcases World.step_list h with ⟨_, _, hlist⟩ | ⟨hspots, _⟩
  · cases hlist with
    | grown new _ hnil hlist _ =>
        rw [hlist, hnil hd, List.append_nil]
    | finalised _ _ _ hnot _ _ _ _ _ => cases hnot.symm.trans hd
  · exact hspots

/-! ## Runs -/

/-- The call that plans the agg tasks reads every deferred proof it lists, and
    finds something to aggregate if a snark proof is wanted. -/
def Fed (w : World β) : Action β → Prop
  | .dispatch disk => w.stage.plans = true →
      let g := w.stage.generateTask
      let files := deferredFiles ((disk.readDir g.segPath).getD [])
      (∀ file ∈ files, ∃ bytes,
        disk.read (g.segPath ++ "/" ++ file.2) = some bytes) ∧
      (g.targetStep = .Agg ∨ 0 < w.stage.splitTask.totalSegments ∨ files ≠ [])
  | _ => True

/-- What a run of fed calls has seen to. -/
structure Provided (g : GenerateTask β) (acts : List (Action β))
    (w : World β) : Prop where
  needs   : ∀ n ∈ w.stage.aggTasks.map AggTask.need,
    n.Flagged (Supplied g acts .vk) (w.stage.proveTasks.map ProveTask.spot)
  listing : g.compositeProof = false →
    ∀ p ∈ w.listing, Supplied g acts .deferredWitness p.2
  row     : g.compositeProof = false → g.targetStep ≠ .Agg →
    w.stage.isTasksGenDone = true → w.stage.proveTasks ≠ []
  proves  : ∀ t, Task.Prove t ∈ w.delivered → t.state = .Success →
    Supplied g acts .shardProof t.output
  aggs    : ∀ t, Task.Agg t ∈ w.delivered → t.state = .Success →
    Supplied g acts .compressed t.output

omit [Blob β] in
theorem Stage.plans_iff {s : Stage β} : s.plans = true ↔
    s.step = .Prove ∧ s.splitTask.state = .Success ∧
      s.isTasksGenDone = false ∧ s.generateTask.targetStep ≠ .Split ∧
      s.generateTask.compositeProof = false := by
  simp [Stage.plans, and_assoc]

/-- The listing that is fed. -/
theorem Fed.listing {disk : Disk β} (hreq : w.stage.generateTask = g)
    (hfed : Fed w (.dispatch disk)) (hplans : w.stage.plans = true)
    (acts : List (Action β)) {p : Nat × β}
    (hp : p ∈ deferredProofs .proverV2 disk g.segPath) :
    Supplied g (acts ++ [.dispatch disk]) .deferredWitness p.2 := by
  have hread := (hfed hplans).1
  rw [hreq] at hread
  obtain ⟨file, hfile, rfl⟩ := List.mem_map.mp
    ((deferredProofs_perm disk g.segPath).mem_iff.mpr hp)
  obtain ⟨bytes, hbytes⟩ := hread file hfile
  have hsafe : safeRead disk (g.segPath ++ "/" ++ file.2) = bytes := by
    rw [safeRead, hbytes, Option.getD_some]
  rw [hsafe]
  exact (Supplies.deferred disk file bytes hfile hbytes).last acts

/-- A plan that is fed has prove tasks. -/
theorem Fed.row {disk : Disk β} (hr : Reachable .proverV2 g w)
    (hfed : Fed w (.dispatch disk)) (hplans : w.stage.plans = true)
    (htarget : g.targetStep ≠ .Agg)
    (h : w.step .proverV2 (.dispatch disk) = some w')
    (hdone : w'.stage.isTasksGenDone = true) : w'.stage.proveTasks ≠ [] := by
  have hr' := hr.step h
  have hfrom := hr'.from_init.gen hdone
  have hrow := (hr'.rows (Or.inl hfrom)).row hdone
  have hst := ((hr'.phases (Or.inl hfrom)).gen hdone).1
  obtain ⟨s', hd, rfl⟩ := Option.map_eq_some_iff.mp h
  have htotal : s'.splitTask.totalSegments
      = w.stage.splitTask.totalSegments := by
    rcases dispatch_splitTask hr.shape hd with hkept | ⟨_, hnew⟩
    · rw [hkept]
    · cases hnew.symm.trans hst
  have hlisting : World.listed .proverV2 disk w.stage s' w.listing
      = deferredProofs .proverV2 disk g.segPath := by
    have hnot := (Stage.plans_iff.mp hplans).2.2.1
    rw [World.listed, hdone, hnot, hr.request]
    rfl
  intro hnil
  dsimp only at hrow hnil
  rw [hnil, hlisting, htotal] at hrow
  rcases (hfed hplans).2 with hagg | hpos | hfiles
  · rw [hr.request] at hagg
    exact htarget hagg
  · have hlen := congrArg List.length hrow.normal
    rw [List.length_range] at hlen
    exact absurd hlen.symm hpos.ne'
  · rw [hr.request] at hfiles
    have hempty := hrow.deferred.symm.eq_nil
    rw [List.map_eq_nil_iff] at hempty
    have hperm := deferredProofs_perm disk g.segPath
    rw [hempty] at hperm
    exact hfiles (List.map_eq_nil_iff.mp hperm.eq_nil)

theorem Provided.start (g : GenerateTask β) (file : Option β) :
    Provided g [] (World.start g file) := by
  refine ⟨?_, ?_, ?_, ?_, ?_⟩
  · intro n hn
    cases hn
  · intro _ p hp
    cases hp
  · rintro _ _ ⟨⟩
  · intro t ht
    cases ht
  · intro t ht
    cases ht

/-- **PROVIDED** along a fed step. -/
theorem Provided.step {acts : List (Action β)} {a : Action β}
    (hr : Reachable .proverV2 g w) (h : Provided g acts w) (hfed : Fed w a)
    (hstep : w.step .proverV2 a = some w') :
    Provided g (acts ++ [a]) w' := by
  have hreq := hr.request
  have later : ∀ content bytes, Supplied g acts content bytes →
      Supplied g (acts ++ [a]) content bytes :=
    fun _ _ hsupplied => hsupplied.append a
  have hproves : ∀ t, Task.Prove t ∈ w'.delivered → t.state = .Success →
      Supplied g (acts ++ [a]) .shardProof t.output := by
    intro t ht hst
    rcases World.step_delivered hstep ht with hold | hnew
    · exact later _ _ (h.proves t hold hst)
    · exact (hnew.supplies_prove hst).last acts
  have haggs : ∀ t, Task.Agg t ∈ w'.delivered → t.state = .Success →
      Supplied g (acts ++ [a]) .compressed t.output := by
    intro t ht hst
    rcases World.step_delivered hstep ht with hold | hnew
    · exact later _ _ (h.aggs t hold hst)
    · exact (hnew.supplies_agg hst).last acts
  -- the needs, where the list of agg tasks is kept
  have hkept : w'.stage.aggTasks.map AggTask.need
      = w.stage.aggTasks.map AggTask.need →
      ∀ n ∈ w'.stage.aggTasks.map AggTask.need,
        n.Flagged (Supplied g (acts ++ [a]) .vk)
          (w'.stage.proveTasks.map ProveTask.spot) := by
    intro hsame n hn
    rw [hsame] at hn
    cases hd : w.stage.isTasksGenDone with
    | false =>
        rw [(hr.shape.early hd).1] at hn
        cases hn
    | true =>
        rw [World.step_spots hstep hd]
        exact (h.needs n hn).mono (later .vk)
  -- the row, where it was complete
  have hrow : g.compositeProof = false → g.targetStep ≠ .Agg →
      w.stage.isTasksGenDone = true → w'.stage.proveTasks ≠ [] := by
    intro hcomp htarget hd hnil
    have hspots := World.step_spots hstep hd
    rw [hnil, List.map_nil] at hspots
    exact h.row hcomp htarget hd (List.map_eq_nil_iff.mp hspots.symm)
  rcases World.step_needs hr.shape hstep with
    ⟨disk, rfl, hneed, hlisting⟩ | ⟨hneeds, hgen, hlisting⟩
  · cases hneed with
    | planned vk hplans hdone hvk hall =>
        refine ⟨?_, ?_, ?_, hproves, haggs⟩
        · intro n hn
          refine (hall n hn).mono fun b hb => ?_
          rw [hreq, ← hb] at hvk
          exact (Supplies.vk disk b hvk).last acts
        · intro _ p hp
          have hnot := (Stage.plans_iff.mp hplans).2.2.1
          rw [hlisting, World.listed, hdone, hnot, hreq] at hp
          exact hfed.listing hreq hplans acts hp
        · exact fun _ htarget _ => Fed.row hr hfed hplans htarget hstep hdone
    | kept hsame hgen =>
        rw [hreq] at hgen
        refine ⟨hkept hsame, ?_, ?_, hproves, haggs⟩
        · intro hcomp p hp
          have hlist : w'.listing = w.listing := by
            rw [hlisting, World.listed, hgen hcomp]
            cases w.stage.isTasksGenDone <;> rfl
          rw [hlist] at hp
          exact later _ _ (h.listing hcomp p hp)
        · intro hcomp htarget hd
          rw [hgen hcomp] at hd
          exact hrow hcomp htarget hd
  · refine ⟨hkept hneeds, ?_, ?_, hproves, haggs⟩
    · intro hcomp p hp
      rw [hlisting] at hp
      exact later _ _ (h.listing hcomp p hp)
    · intro hcomp htarget hd
      rw [hgen] at hd
      exact hrow hcomp htarget hd

/-- **PROVIDED** along a run of fed calls. -/
theorem Provided.run {file : Option β} {acts : List (Action β)}
    (hrun : run (World.step .proverV2) (World.start g file) acts = some w)
    (hfed : Along (World.step .proverV2) Fed (World.start g file) acts) :
    Provided g acts w := by
  have hall : Machine.run (World.step .proverV2) (World.start g file) acts
      = some w ∧ (Along (World.step .proverV2) Fed (World.start g file) acts →
        Provided g acts w) := by
    refine run_trace (I := fun as v =>
      Machine.run (World.step .proverV2) (World.start g file) as = some v ∧
        (Along (World.step .proverV2) Fed (World.start g file) as →
          Provided g as v)) ?_ ⟨rfl, fun _ => Provided.start g file⟩ hrun
    intro as v a v' hv hstep
    refine ⟨run_snoc.mpr ⟨v, hv.1, hstep⟩, fun halong => ?_⟩
    obtain ⟨hbefore, hlast⟩ := (along_snoc hv.1).mp halong
    exact (hv.2 hbefore).step ⟨file, as, hv.1⟩ hlast hstep
  exact hall.2 hfed

/-! ## Hand-outs -/

omit [Blob β] in
theorem fillInputs_src {s : Stage β} :
    ∀ {inputs filled : List (AggregateInput β)},
      s.fillInputs inputs = some filled →
        filled.map (·.src) = inputs.map (·.src)
  | [], _, h => by
      cases h
      rfl
  | i :: inputs, filled, h => by
      rw [Stage.fillInputs, Option.bind_eq_some_iff] at h
      obtain ⟨receipt, _, h⟩ := h
      obtain ⟨rest, hrest, rfl⟩ := Option.map_eq_some_iff.mp h
      rw [List.map_cons, List.map_cons, fillInputs_src hrest]
      rfl

omit [Blob β] in
/-- A task that is handed out needs what a task of the stage needs. -/
theorem getAggTask_need {s s' : Stage β} {now : Nat} {t : AggTask β}
    (h : s.getAggTask now = some (some t, s')) :
    t.need ∈ s.aggTasks.map AggTask.need := by
  rw [Stage.getAggTask] at h
  cases hfind : s.aggTasks.findSome? (Stage.handAgg now) with
  | none =>
      rw [hfind] at h
      cases h
  | some a =>
      obtain ⟨x, hx, hxa⟩ := List.exists_of_findSome?_eq_some hfind
      obtain ⟨_, _, rfl⟩ := handAgg_eq_some.mp hxa
      simp only [hfind, Option.map_eq_some_iff] at h
      obtain ⟨inputs, hin, heq⟩ := h
      cases heq
      refine List.mem_map.mpr ⟨x, hx, ?_⟩
      simp only [AggTask.need, fillInputs_src hin]

omit [Blob β] in
/-- The output of a proved segment came with a SUCCESS result. -/
theorem Credit.proved (hc : Credit w) {t : ProveTask β}
    (ht : t ∈ w.stage.proveTasks) (hdef : t.isDeferred = false)
    (hst : t.state = .Success) :
    ∃ r, Task.Prove r ∈ w.delivered ∧ r.state = .Success ∧
      r.output = t.output := by
  have hone := (hc.prove t ht hdef).trans (if_pos hst)
  have hmem := List.mem_singleton_self t.output
  rw [← hone] at hmem
  obtain ⟨r, hr, hout⟩ := List.mem_map.mp hmem
  obtain ⟨hdel, _, hsucc⟩ := mem_provesOf.mp hr
  exact ⟨r, hdel, hsucc, hout⟩

omit [Blob β] in
theorem Credit.aggregated (hc : Credit w) {a : AggTask β}
    (ha : a ∈ w.stage.aggTasks) (hreal : a.fromProve = false)
    (hst : a.state = .Success) :
    ∃ r, Task.Agg r ∈ w.delivered ∧ r.state = .Success ∧
      r.output = a.output := by
  have hone := (hc.agg a ha hreal).trans (if_pos hst)
  have hmem := List.mem_singleton_self
    (a.output, w.stage.fillInputs a.inputs)
  rw [← hone] at hmem
  obtain ⟨r, hr, heq⟩ := List.mem_map.mp hmem
  obtain ⟨hdel, _, hsucc⟩ := mem_aggsOf.mp hr
  exact ⟨r, hdel, hsucc, congrArg Prod.fst heq⟩

omit [Blob β] in
/-- The output of a deferred task is in the listing. -/
theorem Rows.listed (hr : Rows feat w)
    (hd : w.stage.isTasksGenDone = true) {t : ProveTask β}
    (ht : t ∈ w.stage.proveTasks) (hdef : t.isDeferred = true) :
    ∃ p ∈ w.listing, p.2 = t.output := by
  have hmem : (t.fileNo, some t.output) ∈
      ((w.stage.proveTasks.map ProveTask.label).filter fun l =>
        l.isDeferred).map fun l => (l.fileNo, l.content) := by
    refine List.mem_map.mpr ⟨t.label, List.mem_filter.mpr
      ⟨List.mem_map_of_mem ht, hdef⟩, ?_⟩
    simp only [ProveTask.label, hdef, if_pos]
  obtain ⟨p, hp, heq⟩ := List.mem_map.mp
    ((hr.row hd).deferred.mem_iff.mp hmem)
  exact ⟨p, hp, Option.some.inj (congrArg Prod.snd heq)⟩

/-- **HANDED OUT**: what is in a request is what its flags say. -/
theorem Provided.fits {acts : List (Action β)} (h : Provided g acts w)
    (hr : Reachable .proverV2 g w) {now : Nat} {t : AggTask β} {s : Stage β}
    (hget : w.stage.getAggTask now = some (some t, s)) :
    Fits (Supplied g acts) t := by
  have hneed := getAggTask_need hget
  have hflagged := h.needs _ hneed
  obtain ⟨x, hx, _⟩ := List.mem_map.mp hneed
  -- a graph with a task in it is finished
  have hdone : w.stage.isTasksGenDone = true := by
    cases hd : w.stage.isTasksGenDone with
    | true => rfl
    | false =>
        rw [(hr.shape.early hd).1] at hx
        cases hx
  have hcomp : g.compositeProof = false := by
    rw [← hr.request]
    cases hc : w.stage.generateTask.compositeProof with
    | false => rfl
    | true =>
        rw [hr.graph.composite hdone hc] at hx
        cases hx
  obtain ⟨t', s', hget', hall⟩ := hr.graph.getAggTask hr.shape hr.credit now
  cases hget.symm.trans hget'
  have hinputs := hall t rfl
  -- the prove task that a leaf reads
  have hleaf : t.isLeafLayer = true → ∀ i ∈ t.inputs,
      ∃ u ∈ w.stage.proveTasks, u.isDeferred = t.isDeferred ∧
        u.state = .Success ∧ i.receiptInput = u.output := by
    intro hlayer i hi
    obtain ⟨p, hp, hdef, hsrc⟩ :=
      hflagged.leaf hlayer _ (List.mem_map_of_mem hi)
    obtain ⟨u, hu, rfl⟩ := List.mem_map.mp hp
    obtain ⟨q, hq, hst, hout, _⟩ := hinputs i hi
    rw [(producer_leaf hr.shape.prove_nodup hu hsrc).2.2] at hq
    cases hq
    exact ⟨u, hu, hdef, hst, hout⟩
  refine ⟨?_, ?_, ?_⟩
  · intro hlayer hdef
    refine ⟨fun i hi => ?_, hflagged.vk hlayer hdef⟩
    obtain ⟨u, hu, hsame, hst, hout⟩ := hleaf hlayer i hi
    obtain ⟨r, hdel, hsucc, hrout⟩ :=
      hr.credit.proved hu (hsame.trans hdef) hst
    rw [hout, ← hrout]
    exact h.proves r hdel hsucc
  · intro hlayer hdef
    obtain ⟨src, hsrcs⟩ := hflagged.single hlayer hdef
    obtain ⟨i, hin, _⟩ := List.map_eq_singleton_iff.mp hsrcs
    refine ⟨i, hin, ?_⟩
    obtain ⟨u, hu, hsame, _, hout⟩ :=
      hleaf hlayer i (hin ▸ List.mem_singleton_self i)
    have hfrom := hr.from_init.gen hdone
    obtain ⟨p, hp, hpout⟩ :=
      (hr.rows (Or.inl hfrom)).listed hdone hu (hsame.trans hdef)
    rw [hout, ← hpout]
    exact h.listing hcomp p hp
  · intro hlayer i hi
    obtain ⟨id, hsrc⟩ := hflagged.inner hlayer _ (List.mem_map_of_mem hi)
    obtain ⟨_, _, _, _, hacc⟩ := hinputs i hi
    have hagg : i.isAgg = true := by
      rw [AggregateInput.src] at hsrc
      split at hsrc
      · assumption
      · cases hsrc
    rw [Accepted, if_pos hagg] at hacc
    have hmem := List.mem_singleton_self i.receiptInput
    rw [← hacc] at hmem
    obtain ⟨r, hres, hout⟩ := List.mem_map.mp hmem
    obtain ⟨hdel, _, hsucc⟩ := mem_aggsOf.mp hres
    rw [← hout]
    exact h.aggs r hdel hsucc

/-! ## The snark task -/

theorem genSnarkTask_fromInput {s s' : Stage β} {disk : Disk β}
    (h : s.genSnarkTask disk = some s')
    (hfrom : s.generateTask.fromStep = .Init)
    (hno : s.snarkTask.fromInput = false) :
    s'.snarkTask.fromInput = false := by
  rw [Stage.genSnarkTask] at h
  split at h
  · simp only [hfrom] at h
    split at h
    · cases h
      exact hno
    · cases h
      rfl
  · cases h

theorem advance_fromInput {s s' : Stage β} {disk : Disk β}
    (h : s.advance disk = some s') (hfrom : s.generateTask.fromStep = .Init)
    (hno : s.snarkTask.fromInput = false) :
    s'.snarkTask.fromInput = false := by
  rw [Stage.advance] at h
  split at h
  · split at h
    · cases h
      exact hno
    · split at h
      · split at h
        · cases h
          exact hno
        · obtain ⟨s₁, h₁, rfl⟩ := Option.map_eq_some_iff.mp h
          have hkept := genSnarkTask_fromInput h₁ hfrom hno
          exact hkept
      · cases h
        exact hno
  · cases h
    exact hno

theorem dispatch_fromInput {s' : Stage β} {disk : Disk β} (hs : Shape w)
    (h : w.stage.dispatch feat disk = some s')
    (hfrom : w.stage.generateTask.fromStep = .Init)
    (hno : w.stage.snarkTask.fromInput = false) :
    s'.snarkTask.fromInput = false := by
  cases dispatch_step h with
  | start _ _ _ _ _ => exact hno
  | split s₁ _ _ hmore _ _ _ =>
      rw [hmore]
      exact hno
  | finalise s₁ s₂ _ hstep h₁ hmore hsplit hdone htarget h₂ h =>
      obtain ⟨f1, _, _, f4⟩ := hmore.frame
      have hfin := finalise_spec (hs.genProveTask hstep h₁) (f1.trans hstep)
        hdone hsplit htarget h₂
      have hkept : s₂.generateTask = s₁.generateTask ∧
          s₂.snarkTask = s₁.snarkTask := by
        cases hfin with
        | mk _ _ _ _ _ _ _ _ _ _ _ _ _ _ => exact ⟨rfl, rfl⟩
      refine advance_fromInput h ?_ ?_
      · rw [hkept.1, f4]
        exact hfrom
      · rw [hkept.2, hmore]
        exact hno
  | advance s₁ _ _ _ hmore _ h =>
      refine advance_fromInput h ?_ ?_ <;> rw [hmore]
      · exact hfrom
      · exact hno
  | snark _ _ hagg _ _ => cases hfrom.symm.trans hagg
  | ended _ _ => exact hno
  | idle _ _ _ _ => exact hno

theorem Reachable.fromInput (hfrom : g.fromStep = .Init)
    (hr : Reachable feat g w) : w.stage.snarkTask.fromInput = false := by
  obtain ⟨file, acts, hrun⟩ := hr
  have hall : Reachable feat g w ∧ w.stage.snarkTask.fromInput = false := by
    refine run_inv (I := fun w => Reachable feat g w ∧
      w.stage.snarkTask.fromInput = false) ?_ ⟨.start g file, rfl⟩ hrun
    rintro v a v' ⟨hv, hno⟩ hstep
    refine ⟨hv.step hstep, ?_⟩
    cases World.step_stepped hstep with
    | dispatch disk s hd =>
        exact dispatch_fromInput hv.shape hd (hv.request ▸ hfrom) hno
    | quiet _ _ => exact hno
    | getSplit _ _ _ _ => exact hno
    | getProve _ _ => exact hno
    | getAgg now t s _ hs =>
        rw [hs]
        exact hno
    | getSnark now t _ ht =>
        rw [ht]
        exact hno
    | onSplit _ _ _ _ _ => exact hno
    | onProve i r now c _ =>
        rw [onProveTask_eq]
        exact hno
    | onAgg i r now io c t s file _ hon =>
        obtain ⟨rfl, _, _⟩ := onAggTask_eq hon
        exact hno
    | onSnark i r now io c t s file _ _ hs =>
        rw [hs]
        exact hno
  exact hall.2

/-- **THE SNARK TASK** is made from an output of the agg prover. -/
theorem Provided.snark {acts : List (Action β)} (h : Provided g acts w)
    (hr : Reachable .proverV2 g w) (hfrom : g.fromStep = .Init)
    (hmade : w.stage.snarkTask.state ≠ .Initial) :
    Supplied g acts .compressed w.stage.snarkTask.aggReceipt := by
  have hphases := hr.phases (Or.inl hfrom)
  obtain ⟨hagg, htarget⟩ := hphases.due hmade hfrom
  have hne := h.row (hphases.request ▸ hagg.whole) htarget hagg.proved.done
  obtain ⟨a, hroot⟩ := hr.graph.root hagg.proved.done hagg.whole hne
  have hfinal : a.isFinal = true :=
    (List.mem_filter.mp (hroot.final ▸ List.mem_singleton_self a)).2
  have hreal : a.fromProve = false := by
    cases hp : a.fromProve with
    | false => rfl
    | true => cases (hr.graph.pseudo a hroot.mem hp).2
  rw [(hr.files (Or.inl hfrom)).receipt hmade a hroot.mem hfinal]
  obtain ⟨r, hdel, hsucc, hout⟩ :=
    hr.credit.aggregated hroot.mem hreal (hagg.aggs a hroot.mem)
  rw [← hout]
  exact h.aggs r hdel hsucc

/-- **THE FORMATS AGREE** in every run in which each deferred proof that is
    listed can be read when the agg tasks are planned, and there is something
    to aggregate if a snark proof is wanted.  What a node has made, and what
    is read, has to be of the format of its maker. -/
theorem formats_agree {P W K R X : Type} {F : Formats β P W K R X}
    {file : Option β} {acts : List (Action β)}
    (hrun : run (World.step .proverV2) (World.start g file) acts = some w)
    (hfed : Along (World.step .proverV2) Fed (World.start g file) acts)
    (htags : ∀ a ∈ acts, ∀ content bytes, Supplies g a content bytes →
      F.Tags content bytes) :
    (∀ now t s, w.stage.getAggTask now = some (some t, s) →
      Fits (Supplied g acts) t ∧
        ∃ input, F.aggInput t.context = some input) ∧
    (g.fromStep = .Init → w.stage.snarkTask.state ≠ .Initial →
      Supplied g acts .compressed w.stage.snarkTask.aggReceipt ∧
      w.stage.snarkTask.fromInput = false ∧
      ∃ proof, F.snarkInput w.stage.snarkTask.fromInput
        w.stage.snarkTask.aggReceipt = some proof) := by
  have hr : Reachable .proverV2 g w := ⟨file, acts, hrun⟩
  have hprovided := Provided.run hrun hfed
  have htagged : ∀ content bytes, Supplied g acts content bytes →
      F.Tags content bytes := by
    rintro content bytes ⟨a, ha, hsupplies⟩
    exact htags a ha content bytes hsupplies
  refine ⟨?_, ?_⟩
  · intro now t s hget
    have hfits := hprovided.fits hr hget
    exact ⟨hfits, (hfits.mono htagged).decoded⟩
  · intro hfrom hmade
    have hreceipt := hprovided.snark hr hfrom hmade
    have hinput := hr.fromInput hfrom
    refine ⟨hreceipt, hinput, ?_⟩
    rw [hinput]
    exact (htagged _ _ hreceipt).reduced

end

/-! ## A small run -/

/-- Bytes behind a tag. -/
def Codec.tagged (tag : UInt8) : Codec (List UInt8) (List UInt8) where
  encode := fun x => tag :: x
  decode := fun bytes =>
    match bytes with
    | [] => none
    | t :: x => if t = tag then some x else none
  decode_encode := fun _ => if_pos rfl

/-- Five tags, and a key of one byte. -/
def tagFormats : Formats (List UInt8) (List UInt8) (List UInt8) UInt8
    (List UInt8) (List UInt8) where
  shardProof := .tagged 1
  deferredWitness := .tagged 2
  vk :=
    { encode := fun k => [3, k]
      decode := fun bytes =>
        match bytes with
        | [3, k] => some k
        | _ => none
      decode_encode := fun _ => rfl }
  receipt :=
    { encode := fun p => 4 :: p.2 :: p.1
      decode := fun bytes =>
        match bytes with
        | 4 :: k :: r => some (r, k)
        | _ => none
      decode_encode := fun _ => rfl }
  proof :=
    { encode := fun p =>
        match p with
        | .Compressed r => 5 :: r
        | .other x => 6 :: x
      decode := fun bytes =>
        match bytes with
        | 5 :: r => some (.Compressed r)
        | 6 :: x => some (.other x)
        | _ => none
      decode_encode := fun p => by cases p <;> rfl }

/-- A request for a snark proof. -/
def snarkRequest : GenerateTask (List UInt8) :=
  { GenerateTask.default with targetStep := .Snark }

/-- The directory tree of a proof with one deferred proof in it. -/
def deferredDisk (proof : Option (List UInt8)) : Disk (List UInt8) where
  read := fun path => if path = "/vk.bin" then some [3, 7] else proof
  readToString := fun _ => none
  readDir := fun _ => some ["deferred_proof_65536"]
  existsPath := fun _ => true

/-- One segment and the deferred proof. -/
def plannedRun (disk : Disk (List UInt8)) : List (Action (List UInt8)) :=
  [.dispatch disk, .getSplit 1, .onSplit 0 ⟨.Success, "a", 10, 1⟩ 2,
    .dispatch disk]

/-- Up to the root, and up to the snark task. -/
def rootRun : List (Action (List UInt8)) :=
  plannedRun (deferredDisk (some [2, 9])) ++
    [.getProve (deferredDisk (some [2, 9])) 3,
      .onProve 0 ⟨.Success, "b", [1, 8]⟩ 4,
      .getAgg 5, .onAgg 0 ⟨.Success, "a", [5, 20]⟩ 6 true,
      .getAgg 7, .onAgg 0 ⟨.Success, "a", [5, 21]⟩ 8 true]

/-- The last agg task is proved, and the stage goes on to the snark task. -/
def snarkRun : List (Action (List UInt8)) :=
  rootRun ++ [.getAgg 9, .onAgg 0 ⟨.Success, "a", [5, 22]⟩ 10 true,
    .dispatch (deferredDisk (some [2, 9]))]

/-- Bytes from the disk have the tag of their maker. -/
theorem deferredDisk_tags {proof : Option (List UInt8)}
    (hproof : ∀ bytes, proof = some bytes →
      tagFormats.Tags .deferredWitness bytes)
    {content : Content} {bytes : List UInt8}
    (h : Supplies snarkRequest (.dispatch (deferredDisk proof)) content bytes) :
    tagFormats.Tags content bytes := by
  cases h with
  | deferred _ file _ hfile hread =>
      have hfiles : deferredFiles ["deferred_proof_65536"]
          = [(65536, "deferred_proof_65536")] := by decide
      rw [deferredDisk, Option.getD_some, hfiles, List.mem_singleton] at hfile
      rw [hfile] at hread
      exact hproof bytes hread
  | vk _ _ hread =>
      have hkey : (deferredDisk proof).read
          (snarkRequest.baseDir ++ "/vk.bin") = some [3, 7] := rfl
      cases hkey.symm.trans hread
      exact ⟨7, rfl⟩

theorem deferredDisk_fed (bytes : List UInt8) (w : World (List UInt8)) :
    Fed w (.dispatch (deferredDisk (some bytes))) := by
  intro _
  refine ⟨fun file _ => ?_, Or.inr (Or.inr ?_)⟩
  · rw [deferredDisk]
    dsimp only
    split
    · exact ⟨_, rfl⟩
    · exact ⟨_, rfl⟩
  · show deferredFiles ["deferred_proof_65536"] ≠ []
    decide

theorem snarkRun_dispatch {disk : Disk (List UInt8)}
    (h : Action.dispatch disk ∈ snarkRun) :
    disk = deferredDisk (some [2, 9]) := by
  simp only [snarkRun, rootRun, plannedRun, List.cons_append, List.nil_append,
    List.mem_cons, Action.dispatch.injEq, reduceCtorEq, List.not_mem_nil,
    false_or, or_false, or_self] at h
  exact h

theorem snarkRun_fed : ∀ a ∈ snarkRun, ∀ w, Fed w a := by
  intro a ha w
  cases a with
  | dispatch disk =>
      rw [snarkRun_dispatch ha]
      exact deferredDisk_fed [2, 9] w
  | _ => trivial

theorem snarkRun_tags : ∀ a ∈ snarkRun, ∀ content bytes,
    Supplies snarkRequest a content bytes → tagFormats.Tags content bytes := by
  intro a ha content bytes h
  have hdisk : ∀ bytes, some [2, 9] = some bytes →
      tagFormats.Tags .deferredWitness bytes := by
    rintro _ ⟨⟩
    exact ⟨[9], rfl⟩
  cases a with
  | dispatch disk =>
      rw [snarkRun_dispatch ha] at h
      exact deferredDisk_tags hdisk h
  | onProve i r now =>
      cases h with
      | prove _ _ _ _ =>
          simp only [snarkRun, rootRun, plannedRun, List.cons_append,
            List.nil_append, List.mem_cons, Action.onProve.injEq, reduceCtorEq,
            List.not_mem_nil, false_or, or_false] at ha
          obtain ⟨_, rfl, _⟩ := ha
          exact ⟨some [8], rfl⟩
  | onAgg i r now io =>
      cases h with
      | agg _ _ _ _ _ =>
          simp only [snarkRun, rootRun, plannedRun, List.cons_append,
            List.nil_append, List.mem_cons, Action.onAgg.injEq, reduceCtorEq,
            List.not_mem_nil, false_or, or_false] at ha
          -- a compressed proof of three agg results
          have hagg : ∀ x : List UInt8, tagFormats.Tags .compressed (5 :: x) :=
            fun x => ⟨fun _ => some x, ⟨[], [], false, false, false, false⟩, rfl⟩
          rcases ha with ⟨_, rfl, _⟩ | ⟨_, rfl, _⟩ | ⟨_, rfl, _⟩
          all_goals exact hagg _
  | _ => cases h

/-- The root is handed out over two compressed proofs, and the snark task is
    made from its proof. -/
theorem formats_agree_root :
    (∃ w t s,
      run (World.step .proverV2) (World.start snarkRequest none) rootRun
        = some w ∧ w.stage.getAggTask 9 = some (some t, s) ∧
      t.isLeafLayer = false ∧ Fits (Supplied snarkRequest rootRun) t) ∧
    ∃ w,
      run (World.step .proverV2) (World.start snarkRequest none) snarkRun
        = some w ∧ w.stage.snarkTask.state = .Unprocessed ∧
      Supplied snarkRequest snarkRun .compressed
        w.stage.snarkTask.aggReceipt := by
  have hpart : ∀ a ∈ rootRun, a ∈ snarkRun :=
    fun a ha => List.mem_append_left _ ha
  refine ⟨?_, ?_⟩
  · obtain ⟨w, hrun, hp⟩ := (Option.any_eq_true _ _).mp
      (show (run (World.step .proverV2) (World.start snarkRequest none)
        rootRun).any (fun w => (w.stage.getAggTask 9).any fun r =>
          r.1.any fun t => !t.isLeafLayer) = true by decide)
    obtain ⟨⟨t, s⟩, hget, hp⟩ := (Option.any_eq_true _ _).mp hp
    obtain ⟨t, rfl, hleaf⟩ := (Option.any_eq_true _ _).mp hp
    rw [Bool.not_eq_true'] at hleaf
    have hagree := formats_agree hrun
      (along_mem (fun a ha => snarkRun_fed a (hpart a ha)) _)
      (fun a ha => snarkRun_tags a (hpart a ha))
    exact ⟨w, t, s, hrun, hget, hleaf, (hagree.1 9 t s hget).1⟩
  · obtain ⟨w, hrun, hp⟩ := (Option.any_eq_true _ _).mp
      (show (run (World.step .proverV2) (World.start snarkRequest none)
        snarkRun).any (fun w => w.stage.snarkTask.state = .Unprocessed)
          = true by decide)
    have hst : w.stage.snarkTask.state = .Unprocessed := of_decide_eq_true hp
    have hagree := formats_agree hrun (along_mem snarkRun_fed _) snarkRun_tags
    refine ⟨w, hrun, hst, (hagree.2 rfl ?_).1⟩
    rw [hst]
    rintro ⟨⟩

/-- A listed deferred proof that cannot be read is handed out as no bytes at
    all, which is no witness. -/
theorem formats_disagree_unread :
    ∃ w t s,
      run (World.step .proverV2) (World.start snarkRequest none)
        (plannedRun (deferredDisk none)) = some w ∧
      (∀ a ∈ plannedRun (deferredDisk none), ∀ content bytes,
        Supplies snarkRequest a content bytes →
          tagFormats.Tags content bytes) ∧
      w.stage.getAggTask 3 = some (some t, s) ∧ t.isLeafLayer = true ∧
      t.isDeferred = true ∧ tagFormats.aggInput t.context = none := by
  obtain ⟨w, hrun, hp⟩ := (Option.any_eq_true _ _).mp
    (show (run (World.step .proverV2) (World.start snarkRequest none)
      (plannedRun (deferredDisk none))).any (fun w =>
        (w.stage.getAggTask 3).any fun r => r.1.any fun t =>
          t.isLeafLayer && t.isDeferred &&
            (tagFormats.aggInput t.context).isNone) = true by decide)
  obtain ⟨⟨t, s⟩, hget, hp⟩ := (Option.any_eq_true _ _).mp hp
  obtain ⟨t, rfl, hflags⟩ := (Option.any_eq_true _ _).mp hp
  rw [Bool.and_eq_true, Bool.and_eq_true, Option.isNone_iff_eq_none] at hflags
  obtain ⟨⟨hleaf, hdef⟩, hnone⟩ := hflags
  refine ⟨w, t, s, hrun, ?_, hget, hleaf, hdef, hnone⟩
  intro a ha content bytes h
  cases a with
  | dispatch disk =>
      simp only [plannedRun, List.mem_cons, Action.dispatch.injEq,
        reduceCtorEq, List.not_mem_nil, false_or, or_false, or_self] at ha
      rw [ha] at h
      exact deferredDisk_tags (by rintro _ ⟨⟩) h
  | onProve i r now => simp [plannedRun] at ha
  | onAgg i r now io => simp [plannedRun] at ha
  | _ => cases h

end ZkmProver
