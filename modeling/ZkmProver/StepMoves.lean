import Mathlib.Logic.Relation
import ZkmProver.Moves

/-! # Following the code — every call is a chain of moves

    The one place where the code of the stage is followed, call by call:
    `World.step_moves`.  What every move keeps therefore holds of every
    reachable world (`Reachable.inv`). -/

namespace ZkmProver

open Forest Keyed Machine

variable {β : Type}

section

variable [Blob β]

/-! ## The code of `dispatch` -/

theorem tasksWithNo_grown {s : Stage β} {disk : Disk β} :
    ∀ {count uuid fileNo : Nat} {new : List (ProveTask β)},
      s.tasksWithNo disk count uuid fileNo = some new →
      Grown s.generateTask uuid fileNo new ∧ new.length = count
  | 0, _, _, _, h => by
      cases h
      exact ⟨.nil, rfl⟩
  | count + 1, uuid, fileNo, new, h => by
      rw [Stage.tasksWithNo, Option.bind_eq_some_iff] at h
      obtain ⟨t, ht, h⟩ := h
      rw [Option.map_eq_some_iff] at h
      obtain ⟨rest, hrest, rfl⟩ := h
      rw [Stage.taskWithNo, Option.map_eq_some_iff] at ht
      obtain ⟨program, _, rfl⟩ := ht
      obtain ⟨hg, hlen⟩ := tasksWithNo_grown hrest
      exact ⟨.cons program hg, by rw [List.length_cons, hlen]⟩

theorem extendProveTasks_grown {s s' : Stage β} {disk : Disk β} {upto : Nat}
    (h : s.extendProveTasks disk upto = some s') :
    ∃ new, Grown s.generateTask s.uuid s.proveTasks.length new ∧
      new.length = upto - s.proveTasks.length ∧
      s' = { s with
        proveTasks := s.proveTasks ++ new, uuid := s.uuid + new.length } := by
  rw [Stage.extendProveTasks, Option.map_eq_some_iff] at h
  obtain ⟨new, hnew, rfl⟩ := h
  obtain ⟨hg, hlen⟩ := tasksWithNo_grown hnew
  exact ⟨new, hg, hlen, by rw [hlen]⟩

/-- A chain of moves. -/
abbrev Moves (feat : Feature) : World β → World β → Prop :=
  Relation.ReflTransGen (Moved feat)

/-- A stage that differs in the list of prove tasks only. -/
def MoreProves (s s' : Stage β) : Prop :=
  s' = { s with proveTasks := s'.proveTasks, uuid := s'.uuid }

theorem Grown.append {g : GenerateTask β} {uuid fileNo : Nat}
    {new more : List (ProveTask β)} (h : Grown g uuid fileNo new)
    (h' : Grown g (uuid + new.length) (fileNo + new.length) more) :
    Grown g uuid fileNo (new ++ more) := by
  induction h with
  | nil => exact h'
  | @cons u k new program _ ih =>
      refine .cons program (ih ?_)
      rw [List.length_cons] at h'
      rw [Nat.add_right_comm u, Nat.add_right_comm k]
      exact h'

/-- `gen_prove_task` appends, unless the list is complete or not wanted. -/
theorem genProveTask_list {s s' : Stage β} {disk : Disk β}
    (h : s.genProveTask disk = some s') :
    ∃ new, Grown s.generateTask s.uuid s.proveTasks.length new ∧
      (s.generateTask.targetStep = .Split ∨ s.isTasksGenDone = true →
        new = []) ∧
      s' = { s with
        proveTasks := s.proveTasks ++ new, uuid := s.uuid + new.length } := by
  rw [Stage.genProveTask] at h
  by_cases hskip : s.generateTask.targetStep = .Split ∨ s.isTasksGenDone = true
  · rw [if_pos hskip] at h
    cases h
    exact ⟨[], .nil, fun _ => rfl, by simp⟩
  rw [if_neg hskip, Option.bind_eq_bind, Option.bind_eq_some_iff] at h
  obtain ⟨s₁, h₁, h₂⟩ := h
  obtain ⟨new, hg, rfl⟩ :
      ∃ new, Grown s.generateTask s.uuid s.proveTasks.length new ∧
        s₁ = { s with
          proveTasks := s.proveTasks ++ new, uuid := s.uuid + new.length } := by
    rw [Stage.preallocate] at h₁
    split at h₁
    · obtain ⟨new, hg, _, rfl⟩ := extendProveTasks_grown h₁
      exact ⟨new, hg, rfl⟩
    · cases h₁
      exact ⟨[], .nil, by simp⟩
  split at h₂
  · cases h₂
    exact ⟨new, hg, fun hs => absurd hs hskip, rfl⟩
  · obtain ⟨more, hmore, _, rfl⟩ := extendProveTasks_grown h₂
    rw [List.length_append] at hmore
    refine ⟨new ++ more, hg.append hmore, fun hs => absurd hs hskip, ?_⟩
    simp [Nat.add_assoc]

theorem genProveTask_more {s s' : Stage β} {disk : Disk β}
    (h : s.genProveTask disk = some s') : MoreProves s s' := by
  obtain ⟨new, _, _, rfl⟩ := genProveTask_list h
  rfl

theorem genProveTask_moves {feat : Feature} {w : World β} {s' : Stage β}
    {disk : Disk β} (hstep : w.stage.step = .Prove)
    (h : w.stage.genProveTask disk = some s') :
    Moves feat w { w with stage := s' } := by
  obtain ⟨new, hg, hskip, rfl⟩ := genProveTask_list h
  by_cases hnil : new = []
  · rw [hnil, List.append_nil]
    exact .refl
  · have hgrow := mt hskip hnil
    rw [not_or, Bool.not_eq_true] at hgrow
    exact .single (.grow new hstep hgrow.2 hgrow.1 hg)

/-! ## The code of `finalise` -/

omit [Blob β] in
/-- Segment files by number. -/
theorem deferredFiles_sorted (files : List String) :
    (deferredFiles files).Pairwise fun a b => a.1 ≤ b.1 := by
  have htotal : Std.Total fun a b : Nat × String => a.1 ≤ b.1 :=
    ⟨fun a b => Nat.le_total a.1 b.1⟩
  have htrans : IsTrans (Nat × String) fun a b => a.1 ≤ b.1 :=
    ⟨fun _ _ _ => Nat.le_trans⟩
  exact List.pairwise_insertionSort _ _

theorem deferredTasks_map (s : Stage β) (disk : Disk β) (program : Program β)
    (files : List (Nat × String)) :
    (s.deferredTasks disk program files).map (fun t => (t.fileNo, t.output))
      = files.map fun file =>
          (file.1, safeRead disk (s.generateTask.segPath ++ "/" ++ file.2)) := by
  refine List.ext_getElem (by simp [Stage.deferredTasks]) ?_
  intro k h1 h2
  simp [Stage.deferredTasks, deferredTask]

/-- The deferred proofs are the contents of the files. -/
theorem deferredProofs_perm (disk : Disk β) (segPath : String) :
    ((deferredFiles ((disk.readDir segPath).getD [])).map fun file =>
      (file.1, safeRead disk (segPath ++ "/" ++ file.2))).Perm
        (deferredProofs .proverV2 disk segPath) := by
  have hlist : deferredProofs .proverV2 disk segPath
      = (((disk.readDir segPath).getD []).filterMap fun name =>
          (deferredNumber name).map (·, name)).map fun file =>
            (file.1, safeRead disk (segPath ++ "/" ++ file.2)) := by
    simp only [deferredProofs, List.map_filterMap]
    simp [Option.map_map, Function.comp_def]
  rw [hlist]
  exact (List.perm_insertionSort _ _).map _

theorem genDeferredTasks_spec {s s' : Stage β} {disk : Disk β}
    (h : s.genDeferredTasks disk = some s') :
    ∃ deferred,
      Deferreds .proverV2 s.uuid
        (deferredProofs .proverV2 disk s.generateTask.segPath) deferred ∧
      s' = { s with
        proveTasks := s.proveTasks ++ deferred
        uuid := s.uuid + deferred.length } := by
  rw [Stage.genDeferredTasks, Option.bind_eq_bind, Option.bind_eq_some_iff] at h
  obtain ⟨files, hdir, h⟩ := h
  have hperm := deferredProofs_perm disk s.generateTask.segPath
  rw [hdir, Option.getD_some] at hperm
  by_cases hempty : (deferredFiles files).isEmpty = true
  · rw [if_pos hempty] at h
    cases h
    rw [List.isEmpty_iff.mp hempty] at hperm
    exact ⟨[], ⟨rfl, by simp, hperm, .nil, fun _ => rfl⟩, by simp⟩
  · rw [if_neg hempty, Option.bind_eq_bind, Option.bind_eq_some_iff] at h
    obtain ⟨program, _, h⟩ := h
    cases h
    have hlen : (s.deferredTasks disk program (deferredFiles files)).length
        = (deferredFiles files).length := by simp [Stage.deferredTasks]
    have hmap := deferredTasks_map s disk program (deferredFiles files)
    refine ⟨s.deferredTasks disk program (deferredFiles files),
      ⟨?_, ?_, ?_, ?_, fun hf => nomatch hf⟩, by rw [hlen]⟩
    · refine List.ext_getElem (by simp) ?_
      intro k h1 h2
      simp [Stage.deferredTasks, deferredTask]
    · intro t ht
      obtain ⟨k, hk, rfl⟩ := List.mem_mapIdx.mp ht
      exact ⟨rfl, rfl⟩
    · rw [hmap]
      exact hperm
    · have hsorted : ((s.deferredTasks disk program (deferredFiles files)).map
          fun t => (t.fileNo, t.output)).Pairwise fun a b => a.1 ≤ b.1 := by
        rw [hmap, List.pairwise_map]
        exact deferredFiles_sorted files
      rwa [List.pairwise_map] at hsorted

theorem completeProveTasks_spec {s s' : Stage β} {disk : Disk β}
    (h : s.completeProveTasks disk = some s') :
    ∃ normal u, Completed s normal u ∧
      s' = { s with proveTasks := normal, uuid := u } := by
  rw [Stage.completeProveTasks] at h
  by_cases hcut : s.splitTask.totalSegments < s.proveTasks.length
  · simp only [if_pos hcut] at h
    cases h
    exact ⟨_, _, .cut hcut, rfl⟩
  · simp only [if_neg hcut] at h
    obtain ⟨new, hg, hlen, rfl⟩ := extendProveTasks_grown h
    exact ⟨_, _, .extend new (by omega) (by omega) hg, rfl⟩

theorem Completed.normal {s : Stage β} {normal : List (ProveTask β)} {u : Nat}
    (h : Completed s normal u)
    (hdef : ∀ t ∈ s.proveTasks, t.isDeferred = false) :
    ∀ t ∈ normal, t.isDeferred = false := by
  cases h with
  | cut _ => exact fun t ht => hdef t (List.mem_of_mem_take ht)
  | extend new _ _ hg =>
      intro t ht
      rcases List.mem_append.mp ht with ht | ht
      · exact hdef t ht
      · obtain ⟨program, id, no, rfl⟩ := hg.mem ht
        rfl

omit [Blob β] in
/-- Normal tasks followed by deferred ones. -/
theorem partition_eq {normal deferred : List (ProveTask β)}
    (hn : ∀ t ∈ normal, t.isDeferred = false)
    (hd : ∀ t ∈ deferred, t.isDeferred = true) :
    ((normal ++ deferred).filter fun t => !t.isDeferred)
      ++ ((normal ++ deferred).filter fun t => t.isDeferred)
      = normal ++ deferred := by
  have h1 : (normal.filter fun t => !t.isDeferred) = normal :=
    List.filter_eq_self.mpr fun t ht => by simp [hn t ht]
  have h2 : (deferred.filter fun t => !t.isDeferred) = [] :=
    List.filter_eq_nil_iff.mpr fun t ht => by simp [hd t ht]
  have h3 : (normal.filter fun t => t.isDeferred) = [] :=
    List.filter_eq_nil_iff.mpr fun t ht => by simp [hn t ht]
  have h4 : (deferred.filter fun t => t.isDeferred) = deferred :=
    List.filter_eq_self.mpr fun t ht => hd t ht
  rw [List.filter_append, List.filter_append, h1, h2, h3, h4, List.append_nil,
    List.nil_append]

omit [Blob β] in
/-- Catching up touches the agg tasks only. -/
theorem clearSuccessful_eq (s : Stage β) :
    s.clearSuccessful = { s with
      aggTasks := clearAll
        ((s.proveTasks.filter fun t => t.state = .Success).map (·.taskId))
        s.aggTasks } := by
  rw [Stage.clearSuccessful]
  generalize (s.proveTasks.filter fun t => t.state = .Success).map (·.taskId)
    = ids
  induction ids generalizing s with
  | nil => rfl
  | cons id ids ih =>
      rw [List.foldl_cons, ih]
      rfl

theorem genProveTaskPost_spec {feat : Feature} {s s' : Stage β}
    {disk : Disk β} (h : s.genProveTaskPost feat disk = some s') :
    ∃ normal deferred u errmsg,
      Completed s normal u ∧
      Deferreds feat u (deferredProofs feat disk s.generateTask.segPath)
        deferred ∧
      s' = { s with
        proveTasks := normal ++ deferred
        isError := s.isError
          || decide (feat = .prover ∧ (normal ++ deferred).length < 2)
        errmsg := errmsg
        uuid := u + deferred.length } := by
  rw [Stage.genProveTaskPost, Option.bind_eq_bind, Option.bind_eq_some_iff] at h
  obtain ⟨s₁, h₁, h⟩ := h
  obtain ⟨normal, u, hn, rfl⟩ := completeProveTasks_spec h₁
  cases feat with
  | prover =>
      refine ⟨normal, [], u, s'.errmsg, hn, ⟨rfl, by simp, .refl _, .nil,
        fun _ => rfl⟩, ?_⟩
      by_cases hfew : normal.length < 2
      · simp only [if_pos hfew] at h
        cases h
        simp [hfew]
      · simp only [if_neg hfew] at h
        cases h
        simp [hfew]
  | proverV2 =>
      obtain ⟨deferred, hd, rfl⟩ := genDeferredTasks_spec h
      exact ⟨normal, deferred, u, s.errmsg, hn, hd, by simp⟩

theorem genGraph_spec {feat : Feature} {s s' : Stage β} {disk : Disk β}
    (h : s.genGraph feat disk = some s')
    (hlt : ∀ t ∈ s.proveTasks, t.taskId < s.uuid)
    (hrow : (s.proveTasks.filter fun t => !t.isDeferred)
      ++ (s.proveTasks.filter fun t => t.isDeferred) = s.proveTasks)
    (hnil : s.aggTasks = []) :
    Graphed feat s.generateTask.compositeProof s.proveTasks s.uuid s'.aggTasks
        s'.uuid ∧
      s' = { s with aggTasks := s'.aggTasks, uuid := s'.uuid } := by
  rw [Stage.genGraph] at h
  by_cases hcomp : s.generateTask.compositeProof = true
  · rw [if_pos hcomp] at h
    cases h
    rw [hnil]
    refine ⟨.composite hcomp, ?_⟩
    rw [← hnil]
  · rw [if_neg hcomp] at h
    have hls : ∀ l ∈ s.proveTasks.map (·.taskId), l < s.uuid := by
      intro l hl
      obtain ⟨t, ht, rfl⟩ := List.mem_map.mp hl
      exact hlt t ht
    obtain ⟨hframe, hmono, hfin, hplanned, hreal⟩ :=
      genAggTasks_planned hls hrow hnil h
    exact ⟨.planned _ _ (Bool.not_eq_true _ ▸ hcomp) hmono hfin hplanned hreal,
      hframe⟩

/-- **FINALISE** in one move. -/
theorem finalise_spec {feat : Feature} {w : World β} {s' : Stage β}
    {disk : Disk β} (hs : Shape w) (hstep : w.stage.step = .Prove)
    (hdone : w.stage.isTasksGenDone = false)
    (hsplit : w.stage.splitTask.state = .Success)
    (htarget : w.stage.generateTask.targetStep ≠ .Split)
    (h : w.stage.finalise feat disk = some s') :
    Finalised feat w.stage s' (World.listed feat disk w.stage s' w.listing) := by
  rw [Stage.finalise, Option.bind_eq_bind, Option.bind_eq_some_iff] at h
  obtain ⟨s₁, h₁, h⟩ := h
  rw [Option.bind_eq_some_iff] at h
  obtain ⟨s₂, h₂, h⟩ := h
  obtain ⟨normal, deferred, u, errmsg, hn, hd, rfl⟩ := genProveTaskPost_spec h₁
  obtain ⟨hnil, hdef⟩ := hs.early hdone
  obtain ⟨_, _, hlt⟩ := hn.ids hs.prove_nodup hs.prove_lt
  obtain ⟨hg, hframe⟩ := genGraph_spec h₂ (lt_append_fresh hlt hd.ids)
    (partition_eq (hn.normal hdef) fun t ht => (hd.born t ht).1) hnil
  have hfin := Finalised.mk normal deferred s₂.aggTasks u s₂.uuid errmsg _
    hstep hdone hsplit htarget hn hd hg
  have hs' : s' = { w.stage with
      proveTasks := normal ++ deferred
      aggTasks := clearAll
        (((normal ++ deferred).filter fun t => t.state = .Success).map
          (·.taskId)) s₂.aggTasks
      isError := w.stage.isError
        || decide (feat = .prover ∧ (normal ++ deferred).length < 2)
      errmsg := errmsg
      isTasksGenDone := true
      uuid := s₂.uuid } := by
    rw [← Option.some.inj h, clearSuccessful_eq, hframe]
  rw [hs']
  have hlisting : World.listed feat disk w.stage s' w.listing
      = deferredProofs feat disk w.stage.generateTask.segPath := by
    simp [World.listed, hs', hdone]
  rw [← hs', hlisting, hs']
  exact hfin

theorem genSnarkTask_spec {s s' : Stage β} {disk : Disk β}
    (h : s.genSnarkTask disk = some s') :
    ∃ snark, s.snarkTask.state = .Initial ∧ snark.state = .Unprocessed ∧
      (s.generateTask.fromStep = .Init →
        ∀ a, (s.aggTasks.filter fun a => a.isFinal).getLast? = some a →
          snark.aggReceipt = a.output) ∧
      s' = { s with snarkTask := snark, uuid := s.uuid + 1 } := by
  rw [Stage.genSnarkTask] at h
  by_cases hfresh : s.snarkTask.state = .Initial
  · simp only [if_pos hfresh] at h
    cases hfrom : s.generateTask.fromStep with
    | Init =>
        simp only [hfrom] at h
        cases hlast : (s.aggTasks.filter fun a => a.isFinal).getLast? with
        | none =>
            simp only [hlast] at h
            cases h
            refine ⟨_, hfresh, ?_, ?_, rfl⟩
            · rfl
            · exact fun _ _ ha => nomatch ha
        | some a =>
            simp only [hlast] at h
            cases h
            refine ⟨_, hfresh, ?_, ?_, rfl⟩
            · rfl
            · intro _ b hb
              rw [Option.some.inj hb]
    | Agg =>
        simp only [hfrom] at h
        split at h
        · cases h
          refine ⟨_, hfresh, ?_, ?_, rfl⟩
          · rfl
          · exact fun hf => nomatch hf
        · exact nomatch h
    | Split => simp only [hfrom] at h; exact nomatch h
    | Prove => simp only [hfrom] at h; exact nomatch h
    | Snark => simp only [hfrom] at h; exact nomatch h
    | End => simp only [hfrom] at h; exact nomatch h
  · simp only [if_neg hfresh] at h
    exact nomatch h

theorem genSnarkTask_moves {feat : Feature} {w : World β} {s' : Stage β}
    {disk : Disk β} (hdue : SnarkDue w.stage)
    (h : (w.stage.genSnarkTask disk).map (fun s => { s with step := Step.Snark })
      = some s') : Moves feat w { w with stage := s' } := by
  rw [Option.map_eq_some_iff] at h
  obtain ⟨s₁, h₁, rfl⟩ := h
  obtain ⟨snark, hfresh, hstate, hreceipt, rfl⟩ := genSnarkTask_spec h₁
  exact .single (.snarkNew snark ⟨hdue, hfresh, hstate, hreceipt⟩)

theorem advance_moves {feat : Feature} {w : World β} {s' : Stage β}
    {disk : Disk β} (hstep : w.stage.step = .Prove)
    (h : w.stage.advance disk = some s') :
    Moves feat w { w with stage := s' } := by
  rw [Stage.advance] at h
  by_cases hp : (w.stage.isTasksGenDone
      && w.stage.proveTasks.all fun t => t.state = .Success) = true
  · rw [if_pos hp] at h
    rw [Bool.and_eq_true, List.all_eq_true] at hp
    have hproved : Proved w.stage :=
      ⟨hp.1, fun t ht => of_decide_eq_true (hp.2 t ht)⟩
    by_cases hcomp : w.stage.generateTask.compositeProof = true
    · rw [if_pos hcomp] at h
      cases h
      exact .single (.steer .End (.composite hstep hproved hcomp))
    · rw [if_neg hcomp] at h
      rw [Bool.not_eq_true] at hcomp
      by_cases ha : (w.stage.aggTasks.all fun t => t.state = .Success) = true
      · rw [if_pos ha] at h
        rw [List.all_eq_true] at ha
        have hagg : ∀ a ∈ w.stage.aggTasks, a.state = .Success :=
          fun a hmem => of_decide_eq_true (ha a hmem)
        by_cases htarget : w.stage.generateTask.targetStep = .Agg
        · rw [if_pos htarget] at h
          cases h
          exact .single (.steer .End (.agg hstep hproved hcomp hagg htarget))
        · rw [if_neg htarget] at h
          exact genSnarkTask_moves
            (.fromProve hstep hproved hcomp hagg htarget) h
      · rw [if_neg ha] at h
        cases h
        exact .refl
  · rw [if_neg hp] at h
    cases h
    exact .refl

omit [Blob β] in
/-- What `gen_prove_task` leaves as it was. -/
theorem MoreProves.frame {s s' : Stage β} (h : MoreProves s s') :
    s'.step = s.step ∧ s'.isTasksGenDone = s.isTasksGenDone ∧
      s'.splitTask = s.splitTask ∧ s'.generateTask = s.generateTask := by
  rw [h]
  exact ⟨rfl, rfl, rfl, rfl⟩

/-- What the end of the `Prove` branch may change. -/
theorem advance_frame {s s' : Stage β} {disk : Disk β}
    (h : s.advance disk = some s') :
    s' = { s with
      snarkTask := s'.snarkTask, step := s'.step, uuid := s'.uuid } := by
  rw [Stage.advance] at h
  split at h
  · split at h
    · cases h
      rfl
    · split at h
      · split at h
        · cases h
          rfl
        · rw [Option.map_eq_some_iff] at h
          obtain ⟨s₁, h₁, rfl⟩ := h
          obtain ⟨snark, _, _, _, rfl⟩ := genSnarkTask_spec h₁
          rfl
      · cases h
        rfl
  · cases h
    rfl

/-- The graph is only ever built by `finalise`. -/
theorem advance_done {s s' : Stage β} {disk : Disk β}
    (h : s.advance disk = some s') : s'.isTasksGenDone = s.isTasksGenDone := by
  rw [advance_frame h]

/-- The record is kept by whatever does not build the graph. -/
theorem Moves.keepListing {feat : Feature} {disk : Disk β} {w : World β}
    {s' : Stage β} (h : Moves feat w { w with stage := s' })
    (hdone : s'.isTasksGenDone = w.stage.isTasksGenDone) :
    Moves feat w
      { w with
        stage := s'
        listing := World.listed feat disk w.stage s' w.listing } := by
  have hsame : World.listed feat disk w.stage s' w.listing = w.listing := by
    cases hd : w.stage.isTasksGenDone <;> simp [World.listed, hdone, hd]
  rw [hsame]
  exact h

/-- Moves keep the shape, in chains. -/
theorem Shape.moves {feat : Feature} {w w' : World β} (hs : Shape w)
    (h : Moves feat w w') : Shape w' := by
  induction h with
  | refl => exact hs
  | tail _ hm ih => exact ih.moved hm

theorem Shape.genProveTask {w : World β} {s' : Stage β} {disk : Disk β}
    (hs : Shape w) (hstep : w.stage.step = .Prove)
    (h : w.stage.genProveTask disk = some s') :
    Shape { w with stage := s' } := by
  have hmoves : Moves .prover w { w with stage := s' } :=
    genProveTask_moves hstep h
  exact hs.moves hmoves

theorem Finalised.frame {feat : Feature} {s s' : Stage β}
    {listing : List (Nat × β)} (h : Finalised feat s s' listing) :
    s'.step = .Prove ∧ s'.isTasksGenDone = true := by
  cases h with
  | mk _ _ _ _ _ _ _ hstep _ _ _ _ _ _ => exact ⟨hstep, rfl⟩

/-- The `Prove` branch where the split has just been found done. -/
theorem finalise_moves {feat : Feature} {w : World β} {s₁ s₂ s' : Stage β}
    {disk : Disk β} (hs : Shape w)
    (hgrow : Moves feat w { w with stage := s₁ }) (hmore : MoreProves w.stage s₁)
    (hstep : w.stage.step = .Prove) (hdone : s₁.isTasksGenDone = false)
    (hsplit : s₁.splitTask.state = .Success)
    (htarget : s₁.generateTask.targetStep ≠ .Split)
    (h₂ : s₁.finalise feat disk = some s₂) (h : s₂.advance disk = some s') :
    Moves feat w
      { w with
        stage := s'
        listing := World.listed feat disk w.stage s' w.listing } := by
  obtain ⟨f1, f2, _, f4⟩ := hmore.frame
  have hfin : Finalised feat s₁ s₂ (World.listed feat disk s₁ s₂ w.listing) :=
    finalise_spec (hs.moves hgrow) (f1.trans hstep) hdone hsplit htarget h₂
  obtain ⟨hstep₂, hdone₂⟩ := hfin.frame
  have hlisting : World.listed feat disk w.stage s' w.listing
      = World.listed feat disk s₁ s₂ w.listing := by
    simp only [World.listed, advance_done h, f2, f4]
  rw [hlisting]
  exact (hgrow.tail (.finalise s₂ _ hfin)).trans (advance_moves hstep₂ h)

/-- What a `dispatch` comes to; nothing (`idle`) in the steps that are not
    looked at, and in `Snark` until the proof is there. -/
inductive DispatchStep (feat : Feature) (disk : Disk β) (s : Stage β) :
    Stage β → Prop where
  | start (split : SplitTask β) : s.step = .Init →
      s.splitTask.state = .Initial → split.state = .Unprocessed →
      s.genSplitTask
        = some { s with splitTask := split, uuid := s.uuid + 1 } →
      DispatchStep feat disk s
        { s with splitTask := split, uuid := s.uuid + 1, step := .Prove }
  | split (s₁ : Stage β) : s.step = .Prove → s.genProveTask disk = some s₁ →
      MoreProves s s₁ → s₁.splitTask.state = .Success →
      s₁.isTasksGenDone = false → s₁.generateTask.targetStep = .Split →
      DispatchStep feat disk s { s₁ with step := .End }
  | finalise (s₁ s₂ s' : Stage β) : s.step = .Prove →
      s.genProveTask disk = some s₁ → MoreProves s s₁ →
      s₁.splitTask.state = .Success → s₁.isTasksGenDone = false →
      s₁.generateTask.targetStep ≠ .Split →
      s₁.finalise feat disk = some s₂ → s₂.advance disk = some s' →
      DispatchStep feat disk s s'
  | advance (s₁ s' : Stage β) : s.step = .Prove →
      s.genProveTask disk = some s₁ → MoreProves s s₁ →
      (s₁.splitTask.state = .Success → s₁.isTasksGenDone = true) →
      s₁.advance disk = some s' → DispatchStep feat disk s s'
  | snark (snark : SnarkTask β) : s.step = .Agg →
      s.generateTask.fromStep = .Agg → SnarkNew s snark →
      s.genSnarkTask disk
        = some { s with snarkTask := snark, uuid := s.uuid + 1 } →
      DispatchStep feat disk s
        { s with snarkTask := snark, uuid := s.uuid + 1, step := .Snark }
  | ended : s.step = .Snark → s.snarkTask.state = .Success →
      DispatchStep feat disk s { s with step := .End }
  | idle : s.step ≠ .Init → s.step ≠ .Prove → s.step ≠ .Agg →
      (s.step = .Snark → s.snarkTask.state ≠ .Success) →
      DispatchStep feat disk s s

/-- **INVERSION** of a dispatch. -/
theorem dispatch_step {feat : Feature} {s s' : Stage β} {disk : Disk β}
    (h : s.dispatch feat disk = some s') : DispatchStep feat disk s s' := by
  rw [Stage.dispatch] at h
  cases hstep : s.step with
  | Init =>
      simp only [hstep, Option.map_eq_some_iff] at h
      obtain ⟨s₁, h₁, rfl⟩ := h
      have hgen := h₁
      rw [Stage.genSplitTask] at h₁
      by_cases hfresh : s.splitTask.state = .Initial
      · simp only [if_pos hfresh] at h₁
        cases h₁
        exact .start _ hstep hfresh rfl hgen
      · simp only [if_neg hfresh] at h₁
        cases h₁
  | Prove =>
      simp only [hstep, Option.bind_eq_bind, Option.bind_eq_some_iff] at h
      obtain ⟨s₁, h₁, h⟩ := h
      have hmore := genProveTask_more h₁
      by_cases hdue : s₁.splitTask.state = .Success ∧ ¬ s₁.isTasksGenDone = true
      · rw [if_pos hdue] at h
        have hdone : s₁.isTasksGenDone = false := by
          rw [← Bool.not_eq_true]
          exact hdue.2
        by_cases htarget : s₁.generateTask.targetStep = .Split
        · rw [if_pos htarget] at h
          cases h
          exact .split s₁ hstep h₁ hmore hdue.1 hdone htarget
        · rw [if_neg htarget, Option.bind_eq_some_iff] at h
          obtain ⟨s₂, h₂, h⟩ := h
          exact .finalise s₁ s₂ s' hstep h₁ hmore hdue.1 hdone htarget h₂ h
      · rw [if_neg hdue] at h
        rw [not_and, Classical.not_not] at hdue
        exact .advance s₁ s' hstep h₁ hmore hdue h
  | Agg =>
      simp only [hstep] at h
      by_cases hfrom : s.generateTask.fromStep = .Agg
      · rw [if_pos hfrom, Option.map_eq_some_iff] at h
        obtain ⟨s₁, h₁, rfl⟩ := h
        obtain ⟨snark, hfresh, hstate, hreceipt, rfl⟩ := genSnarkTask_spec h₁
        exact .snark snark hstep hfrom
          ⟨.fromAgg hstep hfrom, hfresh, hstate, hreceipt⟩ h₁
      · rw [if_neg hfrom] at h
        cases h
  | Snark =>
      simp only [hstep] at h
      by_cases hsucc : s.snarkTask.state = .Success
      · rw [if_pos hsucc] at h
        cases h
        exact .ended hstep hsucc
      · rw [if_neg hsucc] at h
        cases h
        refine .idle ?_ ?_ ?_ fun _ => hsucc
        all_goals rw [hstep]; rintro ⟨⟩
  | Split =>
      simp only [hstep] at h
      cases h
      refine .idle ?_ ?_ ?_ ?_
      all_goals rw [hstep]; rintro ⟨⟩
  | End =>
      simp only [hstep] at h
      cases h
      refine .idle ?_ ?_ ?_ ?_
      all_goals rw [hstep]; rintro ⟨⟩

/-- **DISPATCH** as a chain of moves. -/
theorem dispatch_moves {feat : Feature} {w : World β} {s' : Stage β}
    {disk : Disk β} (hs : Shape w)
    (h : w.stage.dispatch feat disk = some s') :
    Moves feat w
      { w with
        stage := s'
        listing := World.listed feat disk w.stage s' w.listing } := by
  cases dispatch_step h with
  | start split hstep hfresh hst _ =>
      exact Moves.keepListing (.single (.start split hstep hfresh hst)) rfl
  | split s₁ hstep h₁ hmore hsplit hdone htarget =>
      have hgrow : Moves feat w { w with stage := s₁ } :=
        genProveTask_moves hstep h₁
      obtain ⟨f1, f2, _, _⟩ := hmore.frame
      exact Moves.keepListing (hgrow.tail (.steer .End
        (.split (f1.trans hstep) hsplit hdone htarget))) f2
  | finalise s₁ s₂ _ hstep h₁ hmore hsplit hdone htarget h₂ h =>
      exact finalise_moves hs (genProveTask_moves hstep h₁) hmore hstep hdone
        hsplit htarget h₂ h
  | advance s₁ _ hstep h₁ hmore _ h =>
      have hgrow : Moves feat w { w with stage := s₁ } :=
        genProveTask_moves hstep h₁
      obtain ⟨f1, f2, _, _⟩ := hmore.frame
      have hadvance : Moves feat { w with stage := s₁ } { w with stage := s' } :=
        advance_moves (f1.trans hstep) h
      exact Moves.keepListing (hgrow.trans hadvance) ((advance_done h).trans f2)
  | snark snark hstep hfrom hnew _ =>
      exact Moves.keepListing (.single (.snarkNew snark hnew)) rfl
  | ended hstep hsucc =>
      exact Moves.keepListing (.single (.steer .End (.snark hstep hsucc))) rfl
  | idle _ _ _ _ => exact Moves.keepListing .refl rfl

/-! ## The code of the other calls -/

omit [Blob β] in
theorem handProve_eq_some {disk : Disk β} {now : Nat} {x t : ProveTask β} :
    Stage.handProve disk now x = some t ↔
      x.state.waiting = true ∧ disk.existsPath x.segment = true ∧
        t = { x with toTaskHead := x.toTaskHead.handOut now } := by
  rw [Stage.handProve]
  by_cases h : (x.state.waiting && disk.existsPath x.segment) = true
  · rw [if_pos h]
    rw [Bool.and_eq_true] at h
    exact ⟨fun ht => ⟨h.1, h.2, (Option.some.inj ht).symm⟩,
      fun ht => by rw [ht.2.2]⟩
  · rw [if_neg h]
    rw [Bool.and_eq_true] at h
    exact ⟨fun ht => (nomatch ht), fun ht => absurd ⟨ht.1, ht.2.1⟩ h⟩

omit [Blob β] in
theorem handAgg_eq_some {now : Nat} {x t : AggTask β} :
    Stage.handAgg now x = some t ↔
      (∀ c ∈ x.childs, c = none) ∧ x.state.waiting = true ∧
        t = { x with toTaskHead := x.toTaskHead.handOut now } := by
  have hany : x.childs.any Option.isSome = true ↔ ¬ ∀ c ∈ x.childs, c = none := by
    rw [List.any_eq_true]
    constructor
    · rintro ⟨c, hc, hsome⟩ hnone
      rw [hnone c hc] at hsome
      exact nomatch hsome
    · intro hnot
      refine Classical.byContradiction fun hno => hnot ?_
      intro c hc
      cases c with
      | none => rfl
      | some k => exact absurd ⟨some k, hc, rfl⟩ hno
  rw [Stage.handAgg]
  by_cases hp : x.childs.any Option.isSome = true
  · rw [if_pos hp]
    exact ⟨fun ht => (nomatch ht), fun ht => absurd ht.1 (hany.mp hp)⟩
  · rw [if_neg hp]
    have hnone : ∀ c ∈ x.childs, c = none :=
      Classical.not_not.mp fun hno => hp (hany.mpr hno)
    by_cases hw : x.state.waiting = true
    · rw [if_pos hw]
      exact ⟨fun ht => ⟨hnone, hw, (Option.some.inj ht).symm⟩,
        fun ht => by rw [ht.2.2]⟩
    · rw [if_neg hw]
      exact ⟨fun ht => (nomatch ht), fun ht => absurd ht.2.1 hw⟩

omit [Blob β] in
theorem fillInputs_congr {s s' : Stage β}
    (h : ∀ input, s'.findReceipt input = s.findReceipt input)
    (inputs : List (AggregateInput β)) :
    s'.fillInputs inputs = s.fillInputs inputs := by
  induction inputs with
  | nil => rfl
  | cons input inputs ih =>
      rw [Stage.fillInputs, Stage.fillInputs, h input, ih]

omit [Blob β] in
/-- Filling in looks at ids and outputs only. -/
theorem fillInputs_put {s : Stage β} {now : Nat} {x : AggTask β}
    (hx : x ∈ s.aggTasks) (hnd : (s.aggTasks.map (·.taskId)).Nodup)
    (inputs : List (AggregateInput β)) :
    ({ s with
      aggTasks := put (fun a => a.taskId)
        { x with toTaskHead := x.toTaskHead.handOut now }
        s.aggTasks } : Stage β).fillInputs inputs = s.fillInputs inputs := by
  refine fillInputs_congr ?_ inputs
  intro input
  rw [Stage.findReceipt, Stage.findReceipt]
  by_cases hagg : input.isAgg = true
  · rw [if_pos hagg, if_pos hagg]
    have hsame := map_put_of_mem (fun a : AggTask β => (a.taskId, a.output))
      (y := { x with toTaskHead := x.toTaskHead.handOut now }) hnd hx rfl rfl
    exact find?_map_congr hsame _
  · rw [if_neg hagg, if_neg hagg]

omit [Blob β] in
theorem onSnarkTask_eq {now : Nat} {io : Bool} {t t' : SnarkTask β}
    {s s' : Stage β} {file : β}
    (h : s.onSnarkTask now io t = some (s', t', file)) :
    s' = { s with
        snarkTask :=
          { s.snarkTask with
            toTaskHead := onTask now t.toTaskHead s.snarkTask.toTaskHead }
        isError := s.isError || decide (t.state = .Failed) } ∧
      t' = { t with toTaskHead := stampSrc now t.toTaskHead } ∧
      file = t.output := by
  rw [Stage.onSnarkTask] at h
  split at h
  · cases h
    exact ⟨rfl, rfl, rfl⟩
  · cases h

/-- What a step comes to.  Nothing happens (`quiet`) where there is nothing to
    hand out, and at a result for a copy that is not in flight. -/
inductive Stepped (feat : Feature) (w : World β) :
    Action β → World β → Prop where
  | dispatch (disk : Disk β) (s : Stage β) :
      w.stage.dispatch feat disk = some s →
      Stepped feat w (.dispatch disk)
        { w with
          stage := s
          listing := World.listed feat disk w.stage s w.listing }
  | quiet (a : Action β) :
      (∀ i r now, a = .onProve i r now → w.proves[i]? = none) →
      Stepped feat w a w
  | getSplit (now : Nat) (t : SplitTask β) :
      w.stage.splitTask.state.waiting = true →
      t = { w.stage.splitTask with
        toTaskHead := w.stage.splitTask.toTaskHead.handOut now } →
      Stepped feat w (.getSplit now)
        { w with
          stage := { w.stage with splitTask := t }
          splits := w.splits ++ [t] }
  | getProve (disk : Disk β) (now : Nat) :
      Stepped feat w (.getProve disk now)
        { w with
          stage :=
            { w.stage with
              proveTasks :=
                w.stage.proveTasks.replaceF (Stage.handProve disk now) }
          proves := w.proves ++ (w.stage.proveTasks.findSome?
            (Stage.handProve disk now)).toList }
  | getAgg (now : Nat) (t : AggTask β) (s : Stage β) :
      w.stage.getAggTask now = some (some t, s) →
      s = { w.stage with
        aggTasks := w.stage.aggTasks.replaceF (Stage.handAgg now) } →
      Stepped feat w (.getAgg now)
        { w with stage := s, aggs := w.aggs ++ [t] }
  | getSnark (now : Nat) (t : SnarkTask β) :
      w.stage.snarkTask.state.waiting = true →
      t = { w.stage.snarkTask with
        toTaskHead := w.stage.snarkTask.toTaskHead.handOut now } →
      Stepped feat w (.getSnark now)
        { w with
          stage := { w.stage with snarkTask := t }
          snarks := w.snarks ++ [t] }
  | onSplit (i : Nat) (r : SplitReply) (now : Nat) (c : SplitTask β) :
      w.splits[i]? = some c →
      Stepped feat w (.onSplit i r now)
        { w with
          stage := (w.stage.onSplitTask now (r.split c)).1
          splits := w.splits.eraseIdx i
          delivered :=
            .Split (w.stage.onSplitTask now (r.split c)).2 :: w.delivered }
  | onProve (i : Nat) (r : Reply β) (now : Nat) (c : ProveTask β) :
      w.proves[i]? = some c →
      Stepped feat w (.onProve i r now)
        { w with
          stage := (w.stage.onProveTask now (r.prove c)).1
          proves := w.proves.eraseIdx i
          delivered :=
            .Prove (w.stage.onProveTask now (r.prove c)).2 :: w.delivered }
  | onAgg (i : Nat) (r : Reply β) (now : Nat) (io : Bool) (c t : AggTask β)
      (s : Stage β) (file : Option β) : w.aggs[i]? = some c →
      w.stage.onAggTask now io (r.agg c) = some (s, t, file) →
      Stepped feat w (.onAgg i r now io)
        { w with
          stage := s
          aggs := w.aggs.eraseIdx i
          snarkFile := file.or w.snarkFile
          delivered := .Agg t :: w.delivered }
  | onSnark (i : Nat) (r : Reply β) (now : Nat) (io : Bool) (c t : SnarkTask β)
      (s : Stage β) (file : β) : w.snarks[i]? = some c →
      w.stage.onSnarkTask now io (r.snark c) = some (s, t, file) →
      s = { w.stage with
        snarkTask :=
          { w.stage.snarkTask with
            toTaskHead := onTask now (r.snark c).toTaskHead
              w.stage.snarkTask.toTaskHead }
        isError := s.isError } →
      Stepped feat w (.onSnark i r now io)
        { w with
          stage := s
          snarks := w.snarks.eraseIdx i
          snarkFile := some file
          delivered := .Snark t :: w.delivered }

/-- **INVERSION** of a step. -/
theorem World.step_stepped {feat : Feature} {w w' : World β} {a : Action β}
    (h : w.step feat a = some w') : Stepped feat w a w' := by
  cases a with
  | dispatch disk =>
      rw [World.step, Option.map_eq_some_iff] at h
      obtain ⟨s, hd, rfl⟩ := h
      exact .dispatch disk s hd
  | getSplit now =>
      simp only [World.step, Stage.getSplitTask] at h
      cases hget : getTask now w.stage.splitTask.toTaskHead with
      | none =>
          simp only [hget, Option.toList_none, List.append_nil] at h
          cases h
          exact .quiet _ (by rintro _ _ _ ⟨⟩)
      | some t =>
          simp only [hget] at h
          cases h
          obtain ⟨hwait, rfl⟩ := getTask_eq_some.mp hget
          exact .getSplit now _ hwait rfl
  | getProve disk now =>
      cases h
      exact .getProve disk now
  | getAgg now =>
      rw [World.step, Option.map_eq_some_iff] at h
      obtain ⟨⟨t, s⟩, hget, rfl⟩ := h
      cases hfind : w.stage.aggTasks.findSome? (Stage.handAgg now) with
      | none =>
          simp only [Stage.getAggTask, hfind, findSome?_none hfind] at hget
          cases hget
          dsimp only
          rw [Option.toList_none, List.append_nil]
          exact .quiet _ (by rintro _ _ _ ⟨⟩)
      | some a =>
          have hsome := hget
          simp only [Stage.getAggTask, hfind, Option.map_eq_some_iff] at hsome
          obtain ⟨inputs, _, heq⟩ := hsome
          cases heq
          exact .getAgg now _ _ hget rfl
  | getSnark now =>
      simp only [World.step, Stage.getSnarkTask] at h
      cases hget : getTask now w.stage.snarkTask.toTaskHead with
      | none =>
          simp only [hget, Option.toList_none, List.append_nil] at h
          cases h
          exact .quiet _ (by rintro _ _ _ ⟨⟩)
      | some t =>
          simp only [hget] at h
          cases h
          obtain ⟨hwait, rfl⟩ := getTask_eq_some.mp hget
          exact .getSnark now _ hwait rfl
  | onSplit i r now =>
      simp only [World.step] at h
      cases hc : w.splits[i]? with
      | none =>
          simp only [hc] at h
          cases h
          exact .quiet _ (by rintro _ _ _ ⟨⟩)
      | some c =>
          simp only [hc] at h
          cases h
          exact .onSplit i r now c hc
  | onProve i r now =>
      simp only [World.step] at h
      cases hc : w.proves[i]? with
      | none =>
          simp only [hc] at h
          cases h
          refine .quiet _ ?_
          rintro _ _ _ ⟨⟩
          exact hc
      | some c =>
          simp only [hc] at h
          cases h
          exact .onProve i r now c hc
  | onAgg i r now io =>
      simp only [World.step] at h
      cases hc : w.aggs[i]? with
      | none =>
          simp only [hc] at h
          cases h
          exact .quiet _ (by rintro _ _ _ ⟨⟩)
      | some c =>
          simp only [hc, Option.map_eq_some_iff] at h
          obtain ⟨⟨s, t, file⟩, hon, rfl⟩ := h
          exact .onAgg i r now io c t s file hc hon
  | onSnark i r now io =>
      simp only [World.step] at h
      cases hc : w.snarks[i]? with
      | none =>
          simp only [hc] at h
          cases h
          exact .quiet _ (by rintro _ _ _ ⟨⟩)
      | some c =>
          simp only [hc, Option.map_eq_some_iff] at h
          obtain ⟨⟨s, t, file⟩, hon, rfl⟩ := h
          have hs : s = { w.stage with
              snarkTask :=
                { w.stage.snarkTask with
                  toTaskHead := onTask now (r.snark c).toTaskHead
                    w.stage.snarkTask.toTaskHead }
              isError := s.isError } := by rw [(onSnarkTask_eq hon).1]
          exact .onSnark i r now io c t s file hc hon hs

theorem getProve_moves {feat : Feature} {w : World β} (disk : Disk β)
    (now : Nat) (hs : Shape w) :
    Moves feat w
      { w with
        stage :=
          { w.stage with
            proveTasks :=
              w.stage.proveTasks.replaceF (Stage.handProve disk now) }
        proves := w.proves ++ (w.stage.proveTasks.findSome?
          (Stage.handProve disk now)).toList } := by
  cases hfind : w.stage.proveTasks.findSome? (Stage.handProve disk now) with
  | none =>
      rw [findSome?_none hfind, Option.toList_none, List.append_nil]
  | some t =>
      obtain ⟨x, hx, hxt⟩ := List.exists_of_findSome?_eq_some hfind
      obtain ⟨hwait, _, ht⟩ := handProve_eq_some.mp hxt
      have hput := replaceF_eq_put (f := Stage.handProve disk now)
        hs.prove_nodup
        (fun a b hab => by rw [(handProve_eq_some.mp hab).2.2]; rfl) hfind
      rw [hput]
      exact .single (.proveOut now x t hx hwait ht)

theorem getAgg_moves {feat : Feature} {w : World β} {now : Nat}
    {t : AggTask β} {s : Stage β} (hs : Shape w)
    (h : w.stage.getAggTask now = some (some t, s)) :
    Moves feat w { w with stage := s, aggs := w.aggs ++ [t] } := by
  rw [Stage.getAggTask] at h
  cases hfind : w.stage.aggTasks.findSome? (Stage.handAgg now) with
  | none =>
      simp only [hfind] at h
      cases h
  | some t =>
      obtain ⟨x, hx, hxt⟩ := List.exists_of_findSome?_eq_some hfind
      obtain ⟨hnone, hwait, ht⟩ := handAgg_eq_some.mp hxt
      have hput := replaceF_eq_put (f := Stage.handAgg now) hs.agg_nodup
        (fun a b hab => by rw [(handAgg_eq_some.mp hab).2.2]; rfl) hfind
      simp only [hfind, Option.map_eq_some_iff] at h
      obtain ⟨inputs, hin, h⟩ := h
      rw [hput, ht, fillInputs_put hx hs.agg_nodup] at hin
      cases h
      rw [hput]
      exact .single (.aggOut now x t inputs hx hnone hwait ht hin)

omit [Blob β] in
/-- The copy that comes back is the one sent out with the result in it. -/
theorem returned (now : Nat) (r : Reply β) (c : TaskHead β) (hit : Bool) :
    Returned r c (if hit then stampSrc now (r.fill c) else r.fill c) := by
  cases hit with
  | true => exact ⟨stampSrc_taskId .., stampSrc_state .., stampSrc_output ..⟩
  | false => exact ⟨rfl, rfl, rfl⟩

omit [Blob β] in
theorem onProve_taken (now : Nat) (t : ProveTask β) {ps : List (ProveTask β)}
    (hnd : (ps.map (·.taskId)).Nodup) :
    ProveTaken now t ps (ps.replaceF (Stage.takeProve now t))
      ((ps.find? (Stage.matchProve t)).any (onProveTaskError t)) := by
  cases hfind : ps.find? (Stage.matchProve t) with
  | none =>
      have hsame : ps.replaceF (Stage.takeProve now t) = ps :=
        replaceF_find?_none hfind
      rw [hsame]
      refine .miss ?_
      intro x hx hid hst
      exact List.find?_eq_none.mp hfind x hx (by simp [Stage.matchProve, hid, hst])
  | some x =>
      have hput : ps.replaceF (Stage.takeProve now t)
          = put (fun x => x.taskId) (onProveTaskDst now t x) ps :=
        replaceF_find?_some hnd (fun _ => onProveTaskDst_taskId ..) hfind
      have hmatch := List.find?_some hfind
      rw [Stage.matchProve, Bool.and_eq_true, decide_eq_true_eq,
        decide_eq_true_eq] at hmatch
      rw [hput]
      exact .hit x (List.mem_of_find?_eq_some hfind) hmatch.1 hmatch.2

omit [Blob β] in
theorem onAgg_taken (now : Nat) (t : AggTask β) {as : List (AggTask β)}
    (hnd : (as.map (·.taskId)).Nodup) :
    AggTaken now t as (as.replaceF (Stage.takeAgg now t))
      ((as.find? (Stage.matchAgg t)).isSome && decide (t.state = .Failed)) := by
  cases hfind : as.find? (Stage.matchAgg t) with
  | none =>
      have hsame : as.replaceF (Stage.takeAgg now t) = as :=
        replaceF_find?_none hfind
      rw [hsame]
      refine .miss ?_
      intro x hx hid hst
      exact List.find?_eq_none.mp hfind x hx (by simp [Stage.matchAgg, hid, hst])
  | some x =>
      have hput : as.replaceF (Stage.takeAgg now t)
          = put (fun x => x.taskId) (onAggTaskDst now t x) as :=
        replaceF_find?_some hnd (fun _ => onTask_taskId ..) hfind
      have hmatch := List.find?_some hfind
      rw [Stage.matchAgg, Bool.and_eq_true, decide_eq_true_eq,
        decide_eq_true_eq] at hmatch
      rw [hput]
      exact .hit x (List.mem_of_find?_eq_some hfind) hmatch.1 hmatch.2

omit [Blob β] in
theorem onProveTask_eq (now : Nat) (t : ProveTask β) (s : Stage β) :
    s.onProveTask now t =
      ({ s with
          proveTasks := s.proveTasks.replaceF (Stage.takeProve now t)
          aggTasks := clearOn t.state t.taskId s.aggTasks
          isError := s.isError
            || (s.proveTasks.find? (Stage.matchProve t)).any
              (onProveTaskError t) },
        { t with
          toTaskHead :=
            if (s.proveTasks.find? (Stage.matchProve t)).isSome
            then stampSrc now t.toTaskHead else t.toTaskHead }) := by
  rw [Stage.onProveTask]
  refine Prod.ext ?_ ?_
  · simp only [clearOn]
    by_cases hst : t.state = .Success
    · simp only [if_pos hst]
      rfl
    · simp only [if_neg hst]
  · show (if _ then _ else _) = _
    split <;> rfl

omit [Blob β] in
theorem onAggTask_eq {now : Nat} {io : Bool} {t : AggTask β} {s s' : Stage β}
    {t' : AggTask β} {file : Option β}
    (h : s.onAggTask now io t = some (s', t', file)) :
    s' = { s with
        aggTasks := clearOn t.state t.taskId
          (s.aggTasks.replaceF (Stage.takeAgg now t))
        isError := s.isError
          || ((s.aggTasks.find? (Stage.matchAgg t)).isSome
            && decide (t.state = .Failed)) } ∧
      t' = { t with
        toTaskHead :=
          if (s.aggTasks.find? (Stage.matchAgg t)).isSome
          then stampSrc now t.toTaskHead else t.toTaskHead } ∧
      file = (if t.state = .Success ∧ t.isFinal = true ∧
        s.generateTask.targetStep = .Agg then some t.output else none) := by
  have hback : (if (s.aggTasks.find? (Stage.matchAgg t)).isSome = true
      then { t with toTaskHead := stampSrc now t.toTaskHead } else t)
      = { t with
        toTaskHead :=
          if (s.aggTasks.find? (Stage.matchAgg t)).isSome
          then stampSrc now t.toTaskHead else t.toTaskHead } := by
    split <;> rfl
  rw [Stage.onAggTask] at h
  by_cases hst : t.state = .Success
  · simp only [if_pos hst] at h
    split at h
    case isTrue hfile =>
      rw [Bool.and_eq_true, decide_eq_true_eq] at hfile
      cases io with
      | false => exact nomatch h
      | true =>
          cases h
          refine ⟨?_, hback, ?_⟩
          · simp only [clearOn, if_pos hst]
            rfl
          · rw [if_pos ⟨hst, hfile⟩]
    case isFalse hfile =>
      rw [Bool.and_eq_true, decide_eq_true_eq] at hfile
      cases h
      refine ⟨?_, hback, ?_⟩
      · simp only [clearOn, if_pos hst]
        rfl
      · rw [if_neg fun hf => hfile hf.2]
  · simp only [if_neg hst] at h
    cases h
    refine ⟨?_, hback, ?_⟩
    · simp only [clearOn, if_neg hst]
    · rw [if_neg fun hf => hst hf.1]

/-- **STEP**: every call of the scheduler is a chain of moves. -/
theorem World.step_moves {feat : Feature} {w w' : World β} {a : Action β}
    (hs : Shape w) (h : w.step feat a = some w') : Moves feat w w' := by
  cases World.step_stepped h with
  | dispatch disk s hd => exact dispatch_moves hs hd
  | quiet a _ => exact .refl
  | getSplit now t hwait ht => exact .single (.splitOut now t hwait ht)
  | getProve disk now => exact getProve_moves disk now hs
  | getAgg now t s hget _ => exact getAgg_moves hs hget
  | getSnark now t hwait ht => exact .single (.snarkOut now t hwait ht)
  | onSplit i r now c hc => exact .single (.splitIn i c r now hc)
  | onProve i r now c hc =>
      have htaken := onProve_taken now (r.prove c) hs.prove_nodup
      have hback := returned now r c.toTaskHead
        (w.stage.proveTasks.find? (Stage.matchProve (r.prove c))).isSome
      rw [onProveTask_eq]
      exact .single (.proveIn i c _ r now _ _ hc htaken rfl hback)
  | onAgg i r now io c t s file hc hon =>
      obtain ⟨rfl, rfl, rfl⟩ := onAggTask_eq hon
      have htaken := onAgg_taken now (r.agg c) hs.agg_nodup
      have hback := returned now r c.toTaskHead
        (w.stage.aggTasks.find? (Stage.matchAgg (r.agg c))).isSome
      exact .single (.aggIn i c _ r now _ _ _ hc htaken rfl hback rfl)
  | onSnark i r now io c t s file hc hon _ =>
      have hback := returned now r c.toTaskHead true
      obtain ⟨rfl, rfl, rfl⟩ := onSnarkTask_eq hon
      exact .single (.snarkIn i c _ r now hc rfl hback)

/-- What a step adds to the record of results. -/
inductive Delivers (w : World β) : Action β → Task β → Prop where
  | split (i : Nat) (r : SplitReply) (now : Nat) (c : SplitTask β) :
      w.splits[i]? = some c →
      Delivers w (.onSplit i r now)
        (.Split (w.stage.onSplitTask now (r.split c)).2)
  | prove (i : Nat) (r : Reply β) (now : Nat) (c t : ProveTask β) :
      w.proves[i]? = some c → Returned r c.toTaskHead t.toTaskHead →
      Delivers w (.onProve i r now) (.Prove t)
  | agg (i : Nat) (r : Reply β) (now : Nat) (io : Bool) (c t : AggTask β) :
      w.aggs[i]? = some c → Returned r c.toTaskHead t.toTaskHead →
      Delivers w (.onAgg i r now io) (.Agg t)
  | snark (i : Nat) (r : Reply β) (now : Nat) (io : Bool) (c t : SnarkTask β) :
      w.snarks[i]? = some c → Returned r c.toTaskHead t.toTaskHead →
      Delivers w (.onSnark i r now io) (.Snark t)

/-- **DELIVERED**: a result is an older one, or that of the step. -/
theorem World.step_delivered {feat : Feature} {w w' : World β} {a : Action β}
    (h : w.step feat a = some w') {d : Task β} (hd : d ∈ w'.delivered) :
    d ∈ w.delivered ∨ Delivers w a d := by
  have newest : ∀ {e : Task β}, d ∈ e :: w.delivered → Delivers w a e →
      d ∈ w.delivered ∨ Delivers w a d := by
    intro e hd he
    rcases List.mem_cons.mp hd with rfl | hold
    · exact Or.inr he
    · exact Or.inl hold
  cases World.step_stepped h with
  | dispatch _ _ _ => exact Or.inl hd
  | quiet _ _ => exact Or.inl hd
  | getSplit _ _ _ _ => exact Or.inl hd
  | getProve _ _ => exact Or.inl hd
  | getAgg _ _ _ _ _ => exact Or.inl hd
  | getSnark _ _ _ _ => exact Or.inl hd
  | onSplit i r now c hc => exact newest hd (.split i r now c hc)
  | onProve i r now c hc =>
      have hback := returned now r c.toTaskHead
        (w.stage.proveTasks.find? (Stage.matchProve (r.prove c))).isSome
      refine newest hd (.prove i r now c _ hc ?_)
      rw [onProveTask_eq]
      exact hback
  | onAgg i r now io c t s file hc hon =>
      have hback := returned now r c.toTaskHead
        (w.stage.aggTasks.find? (Stage.matchAgg (r.agg c))).isSome
      refine newest hd (.agg i r now io c t hc ?_)
      rw [(onAggTask_eq hon).2.1]
      exact hback
  | onSnark i r now io c t s file hc hon _ =>
      refine newest hd (.snark i r now io c t hc ?_)
      rw [(onSnarkTask_eq hon).2.1]
      exact returned now r c.toTaskHead true

/-! ## Invariants of all reachable worlds -/

theorem Shape.start (g : GenerateTask β) (file : Option β) :
    Shape (World.start g file) := by
  refine ⟨List.nodup_nil, ?_, List.nodup_nil, ?_, ?_, ?_, fun _ => ⟨rfl, ?_⟩⟩
  all_goals intro t ht; exact nomatch ht

/-- What holds of fresh worlds and is kept by every move holds of every
    reachable world. -/
theorem Reachable.inv {feat : Feature} {g : GenerateTask β} {I : World β → Prop}
    (hstart : ∀ file, I (World.start g file))
    (hmoved : ∀ w w', Shape w → I w → Moved feat w w' → I w')
    {w : World β} (h : Reachable feat g w) : I w := by
  obtain ⟨file, acts, hrun⟩ := h
  have hchain : ∀ w w', Moves feat w w' → Shape w ∧ I w → Shape w' ∧ I w' := by
    intro w w' hm hw
    induction hm with
    | refl => exact hw
    | tail _ hlast ih => exact ⟨ih.1.moved hlast, hmoved _ _ ih.1 ih.2 hlast⟩
  have hstep : ∀ w a w', Shape w ∧ I w → World.step feat w a = some w' →
      Shape w' ∧ I w' :=
    fun w a w' hw h => hchain w w' (World.step_moves hw.1 h) hw
  exact (run_inv hstep ⟨Shape.start g file, hstart file⟩ hrun).2

theorem Reachable.shape {feat : Feature} {g : GenerateTask β} {w : World β}
    (h : Reachable feat g w) : Shape w :=
  h.inv (fun file => Shape.start g file) fun _ _ _ hs hm => hs.moved hm

end

end ZkmProver
