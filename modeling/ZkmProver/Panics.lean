import ZkmProver.Target

/-! # Panics — when `dispatch` does not return

    `Stage.Clear` says, branch by branch, what a `dispatch` needs of the
    directory tree and of the request, and `dispatch` returns just when it has
    that (`Reachable.dispatch_clear`).  With the files in place that were
    written before, two things are left that end it: the `todo!` on a positive
    block number, and the aggregation tree over no segments at all. -/

namespace ZkmProver

open Forest Keyed Machine

variable {β : Type} [Blob β]

/-! ## What a prove task needs -/

/-- The receipts file can be read and decoded, if there is one. -/
def GenerateTask.ReceiptsReady (g : GenerateTask β) (disk : Disk β) : Prop :=
  g.receiptInputsPath = "" ∨
    ((disk.read g.receiptInputsPath).bind Blob.deserialize).isSome = true

/-- `gen_program` returns. -/
def GenerateTask.Ready (g : GenerateTask β) (disk : Disk β) : Prop :=
  g.program.isSome = true ∨ (g.blockNo.getD 0 = 0 ∧ g.ReceiptsReady disk)

/-- `gen_program` returns exactly on a request that is ready. -/
theorem genProgram_isSome (g : GenerateTask β) (disk : Disk β) :
    (g.genProgram disk).isSome = true ↔ g.Ready disk := by
  rw [GenerateTask.genProgram, GenerateTask.Ready]
  cases hprog : g.program with
  | some program => exact iff_of_true rfl (Or.inl rfl)
  | none =>
      rw [or_iff_right (show ¬ (none : Option (Program β)).isSome = true from
        nofun)]
      dsimp only
      by_cases hblock : 0 < g.blockNo.getD 0
      · rw [if_pos hblock]
        exact iff_of_false nofun fun h => by omega
      · rw [if_neg hblock, Option.isSome_map,
          and_iff_right (show g.blockNo.getD 0 = 0 by omega),
          GenerateTask.ReceiptsReady]
        by_cases hpath : g.receiptInputsPath = ""
        · rw [if_pos hpath]
          exact iff_of_true rfl (Or.inl hpath)
        · rw [if_neg hpath, or_iff_right hpath]

namespace Stage

variable {s s' : Stage β} {disk : Disk β}

/-- The prove tasks of a run of segment numbers are built, unless there is one
    to build and the request is not ready. -/
theorem tasksWithNo_isSome (s : Stage β) (disk : Disk β)
    (count uuid fileNo : Nat) :
    (s.tasksWithNo disk count uuid fileNo).isSome = true ↔
      count = 0 ∨ s.generateTask.Ready disk := by
  induction count generalizing uuid fileNo with
  | zero => exact iff_of_true rfl (Or.inl rfl)
  | succ count ih =>
      rw [tasksWithNo, taskWithNo, or_iff_right (Nat.succ_ne_zero count),
        ← genProgram_isSome]
      cases hprog : s.generateTask.genProgram disk with
      | none => exact iff_of_false (by rintro ⟨⟩) (by rintro ⟨⟩)
      | some program =>
          refine iff_of_true ?_ rfl
          rw [Option.map_some, Option.bind_some, Option.isSome_map, ih]
          exact Or.inr ((genProgram_isSome _ disk).mp (by rw [hprog]; rfl))

/-- The same of the tasks a partial split hands out: only a list that grows
    needs the program. -/
theorem extendProveTasks_isSome (s : Stage β) (disk : Disk β) (upto : Nat) :
    (s.extendProveTasks disk upto).isSome = true ↔
      upto ≤ s.proveTasks.length ∨ s.generateTask.Ready disk := by
  rw [extendProveTasks, Option.isSome_map, tasksWithNo_isSome,
    Nat.sub_eq_zero_iff_le]

/-! ## `gen_prove_task` -/

/-- How many prove tasks there are after `gen_prove_task`. -/
def grown (s : Stage β) (disk : Disk β) : Nat :=
  let first := if s.proveTasks.isEmpty then 64 else s.proveTasks.length
  max first ((s.fileNumbers disk).getD 0)

/-- `gen_prove_task` panics only where the list would grow and the request is
    not ready. -/
theorem genProveTask_isSome
    (hrun : ¬ (s.generateTask.targetStep = .Split ∨
      s.isTasksGenDone = true)) :
    (s.genProveTask disk).isSome = true ↔
      s.grown disk ≤ s.proveTasks.length ∨ s.generateTask.Ready disk := by
  rw [genProveTask, if_neg hrun, Option.bind_eq_bind, preallocate, grown]
  by_cases hempty : s.proveTasks.isEmpty = true
  · -- 64 tasks are made, and the rest needs nothing new
    have hlen : s.proveTasks.length = 0 := by
      rw [List.isEmpty_iff.mp hempty]
      rfl
    rw [if_pos hempty, if_pos hempty, or_iff_right (by omega)]
    have hfirst := extendProveTasks_isSome s disk 64
    rw [or_iff_right (by omega)] at hfirst
    rw [← hfirst]
    cases hext : s.extendProveTasks disk 64 with
    | none => exact iff_of_false (by rintro ⟨⟩) (by rintro ⟨⟩)
    | some s₁ =>
        refine iff_of_true ?_ rfl
        obtain ⟨new, _, _, rfl⟩ := extendProveTasks_grown hext
        rw [Option.bind_some]
        split
        · rfl
        · rw [extendProveTasks_isSome]
          exact Or.inr (hfirst.mp (by rw [hext]; rfl))
  · rw [if_neg hempty, if_neg hempty, Option.bind_some]
    cases hno : s.fileNumbers disk with
    | none =>
        refine iff_of_true rfl (Or.inl ?_)
        rw [Option.getD_none, Nat.max_zero]
    | some n =>
        show (s.extendProveTasks disk n).isSome = true ↔ _
        rw [extendProveTasks_isSome, Option.getD_some]
        refine or_congr_left ?_
        omega

/-- Where it returns, the list has the length `grown` counts. -/
theorem genProveTask_grown
    (hrun : ¬ (s.generateTask.targetStep = .Split ∨
      s.isTasksGenDone = true)) (h : s.genProveTask disk = some s') :
    s'.proveTasks.length = s.grown disk := by
  rw [genProveTask, if_neg hrun, Option.bind_eq_bind,
    Option.bind_eq_some_iff] at h
  obtain ⟨s₁, h₁, h₂⟩ := h
  have hfirst : s₁.fileNumbers disk = s.fileNumbers disk ∧
      s₁.proveTasks.length
        = if s.proveTasks.isEmpty then 64 else s.proveTasks.length := by
    rw [preallocate] at h₁
    split at h₁
    case isTrue hempty =>
      obtain ⟨new, _, hlen, rfl⟩ := extendProveTasks_grown h₁
      refine ⟨rfl, ?_⟩
      rw [if_pos hempty, List.length_append, hlen,
        List.isEmpty_iff.mp hempty]
      rfl
    case isFalse hsome =>
      cases h₁
      exact ⟨rfl, (if_neg hsome).symm⟩
  obtain ⟨hfile, hlen⟩ := hfirst
  rw [hfile] at h₂
  rw [grown, ← hlen]
  cases hno : s.fileNumbers disk with
  | none =>
      rw [hno] at h₂
      cases h₂
      exact (Nat.max_zero _).symm
  | some n =>
      rw [hno] at h₂
      obtain ⟨new, _, hnew, rfl⟩ := extendProveTasks_grown h₂
      show (s₁.proveTasks ++ new).length = max _ n
      rw [List.length_append, hnew]
      omega

/-! ## `gen_prove_task_post` and `gen_agg_tasks` -/

/-- Completing the list panics only where a segment is missing and the request
    is not ready. -/
theorem completeProveTasks_isSome (s : Stage β) (disk : Disk β) :
    (s.completeProveTasks disk).isSome = true ↔
      s.splitTask.totalSegments ≤ s.proveTasks.length ∨
        s.generateTask.Ready disk := by
  rw [completeProveTasks]
  split
  case isTrue hcut => exact iff_of_true rfl (Or.inl (Nat.le_of_lt hcut))
  case isFalse hcut => exact extendProveTasks_isSome ..

/-- After it there is one prove task a segment. -/
theorem completeProveTasks_length (h : s.completeProveTasks disk = some s') :
    s'.proveTasks.length = s.splitTask.totalSegments := by
  rw [completeProveTasks] at h
  split at h
  case isTrue hcut =>
    cases h
    show (s.proveTasks.take _).length = _
    rw [List.length_take]
    omega
  case isFalse hcut =>
    obtain ⟨new, _, hlen, rfl⟩ := extendProveTasks_grown h
    show (s.proveTasks ++ new).length = _
    rw [List.length_append, hlen]
    omega

/-- The deferred proofs can be listed, and their tasks made. -/
def DeferredReady (s : Stage β) (disk : Disk β) : Prop :=
  ∃ files, disk.readDir s.generateTask.segPath = some files ∧
    (deferredFiles files = [] ∨ s.generateTask.Ready disk)

/-- The deferred tasks are built exactly where `DeferredReady` says. -/
theorem genDeferredTasks_isSome (s : Stage β) (disk : Disk β) :
    (s.genDeferredTasks disk).isSome = true ↔ s.DeferredReady disk := by
  rw [genDeferredTasks, Option.bind_eq_bind, DeferredReady]
  cases hdir : disk.readDir s.generateTask.segPath with
  | none =>
      refine iff_of_false (by rintro ⟨⟩) ?_
      rintro ⟨files, h, _⟩
      cases h
  | some files =>
      rw [Option.bind_some]
      dsimp only
      have hcond : (∃ fs, some files = some fs ∧
          (deferredFiles fs = [] ∨ s.generateTask.Ready disk)) ↔
          (deferredFiles files = [] ∨ s.generateTask.Ready disk) := by
        constructor
        · rintro ⟨fs, hfs, h⟩
          cases hfs
          exact h
        · exact fun h => ⟨files, rfl, h⟩
      rw [hcond]
      by_cases hempty : (deferredFiles files).isEmpty = true
      · rw [if_pos hempty]
        exact iff_of_true rfl (Or.inl (List.isEmpty_iff.mp hempty))
      · rw [if_neg hempty, or_iff_right fun h => hempty (by rw [h]; rfl),
          ← genProgram_isSome, Option.bind_eq_bind]
        cases s.generateTask.genProgram disk with
        | none => exact iff_of_false (by rintro ⟨⟩) (by rintro ⟨⟩)
        | some program => exact iff_of_true rfl rfl

/-- What the once-only branch of `dispatch` needs, after `gen_prove_task`. -/
structure FinalClear (feat : Feature) (disk : Disk β) (s : Stage β) :
    Prop where
  total    : s.splitTask.totalSegments ≤ s.proveTasks.length ∨
    s.generateTask.Ready disk
  deferred : feat = .proverV2 → s.DeferredReady disk
  vk       : feat = .proverV2 → s.generateTask.compositeProof = false →
    (disk.read (s.generateTask.baseDir ++ "/vk.bin")).isSome = true
  segments : feat = .prover → s.generateTask.compositeProof = false →
    s.splitTask.totalSegments ≠ 0

/-- Under `prover`, `get_agg_tasks` panics on an empty list of prove tasks
    alone. -/
theorem genGraph_prover (s : Stage β) (disk : Disk β) :
    (s.genGraph .prover disk).isSome = true ↔
      (s.generateTask.compositeProof = false → s.proveTasks ≠ []) := by
  rw [genGraph]
  cases s.generateTask.compositeProof with
  | true => exact iff_of_true rfl (by rintro ⟨⟩)
  | false =>
      show (s.genAggTasksV1).isSome = true ↔ _
      rw [genAggTasksV1]
      cases s.proveTasks with
      | nil => exact iff_of_false (by rintro ⟨⟩) fun h => h rfl rfl
      | cons t ts => exact iff_of_true rfl fun _ => (by rintro ⟨⟩)

/-- Under `prover_v2`, it is the missing `vk.bin` that panics. -/
theorem genGraph_proverV2 (s : Stage β) (disk : Disk β) :
    (s.genGraph .proverV2 disk).isSome = true ↔
      (s.generateTask.compositeProof = false →
        (disk.read (s.generateTask.baseDir ++ "/vk.bin")).isSome = true) := by
  rw [genGraph]
  cases s.generateTask.compositeProof with
  | true => exact iff_of_true rfl (by rintro ⟨⟩)
  | false =>
      show (s.genAggTasksV2 disk).isSome = true ↔ _
      rw [genAggTasksV2, Option.isSome_map]
      exact ⟨fun h _ => h, fun h => h rfl⟩

/-- The end of task generation panics nowhere but outside `FinalClear`. -/
theorem finalise_isSome (feat : Feature) (s : Stage β) (disk : Disk β) :
    (s.finalise feat disk).isSome = true ↔ s.FinalClear feat disk := by
  have hgraph : (s.finalise feat disk).isSome = true ↔
      ∃ s₁, s.genProveTaskPost feat disk = some s₁ ∧
        (s₁.genGraph feat disk).isSome = true := by
    rw [finalise, Option.bind_eq_bind]
    cases s.genProveTaskPost feat disk with
    | none =>
        refine iff_of_false (by rintro ⟨⟩) ?_
        rintro ⟨_, h, _⟩
        cases h
    | some s₁ =>
        rw [Option.bind_some]
        constructor
        · intro h
          refine ⟨s₁, rfl, ?_⟩
          cases hg : s₁.genGraph feat disk with
          | none =>
              rw [hg] at h
              cases h
          | some s₂ => rfl
        · rintro ⟨_, h, hg⟩
          cases h
          obtain ⟨s₂, hs₂⟩ := Option.isSome_iff_exists.mp hg
          rw [hs₂]
          rfl
  rw [hgraph]
  have htotal := completeProveTasks_isSome s disk
  cases hc : s.completeProveTasks disk with
  | none =>
      rw [hc] at htotal
      refine iff_of_false ?_ fun h => by cases htotal.mpr h.total
      rintro ⟨s₁, h₁, _⟩
      rw [genProveTaskPost, hc] at h₁
      cases h₁
  | some s₁ =>
      have hlen := completeProveTasks_length hc
      obtain ⟨normal, u, _, rfl⟩ := completeProveTasks_spec hc
      rw [hc] at htotal
      have hready := htotal.mp rfl
      cases feat with
      | prover =>
          have hpost : ∃ s₂, s.genProveTaskPost .prover disk = some s₂ ∧
              s₂.generateTask = s.generateTask ∧ s₂.proveTasks = normal := by
            rw [genProveTaskPost, hc, Option.bind_eq_bind, Option.bind_some]
            dsimp only
            split
            · exact ⟨_, rfl, rfl, rfl⟩
            · exact ⟨_, rfl, rfl, rfl⟩
          obtain ⟨s₂, h₂, htask, hproves⟩ := hpost
          have hnone : normal = [] ↔ s.splitTask.totalSegments = 0 := by
            rw [← hlen]
            exact List.length_eq_zero_iff.symm
          rw [h₂]
          constructor
          · rintro ⟨_, h, hg⟩
            cases h
            rw [genGraph_prover, htask, hproves] at hg
            exact ⟨hready, by rintro ⟨⟩, by rintro ⟨⟩, fun _ hwhole h0 =>
              hg hwhole (hnone.mpr h0)⟩
          · intro h
            refine ⟨s₂, rfl, ?_⟩
            rw [genGraph_prover, htask, hproves]
            exact fun hwhole hnil => h.segments rfl hwhole (hnone.mp hnil)
      | proverV2 =>
          have hpost : s.genProveTaskPost .proverV2 disk = genDeferredTasks
              { s with proveTasks := normal, uuid := u } disk := by
            rw [genProveTaskPost, hc]
            rfl
          have hdef := genDeferredTasks_isSome
            { s with proveTasks := normal, uuid := u } disk
          rw [hpost]
          constructor
          · rintro ⟨s₂, h₂, hg⟩
            rw [h₂] at hdef
            obtain ⟨_, _, rfl⟩ := genDeferredTasks_spec h₂
            rw [genGraph_proverV2] at hg
            exact ⟨hready, fun _ => hdef.mp rfl, fun _ => hg, by rintro ⟨⟩⟩
          · intro h
            obtain ⟨s₂, h₂⟩ :=
              Option.isSome_iff_exists.mp (hdef.mpr (h.deferred rfl))
            refine ⟨s₂, h₂, ?_⟩
            obtain ⟨_, _, rfl⟩ := genDeferredTasks_spec h₂
            rw [genGraph_proverV2]
            exact h.vk rfl

/-! ## `dispatch` -/

/-- What a `dispatch` needs, branch by branch. -/
def Clear (feat : Feature) (disk : Disk β) (s : Stage β) : Prop :=
  match s.step with
  | .Prove => s.generateTask.targetStep ≠ .Split → s.isTasksGenDone = false →
      (s.grown disk ≤ s.proveTasks.length ∨ s.generateTask.Ready disk) ∧
      (s.splitTask.state = .Success →
        (s.splitTask.totalSegments ≤ s.grown disk ∨
          s.generateTask.Ready disk) ∧
        (feat = .proverV2 → s.DeferredReady disk) ∧
        (feat = .proverV2 → s.generateTask.compositeProof = false →
          (disk.read (s.generateTask.baseDir ++ "/vk.bin")).isSome = true) ∧
        (feat = .prover → s.generateTask.compositeProof = false →
          s.splitTask.totalSegments ≠ 0))
  | .Agg => ∃ r rs,
      (disk.read s.generateTask.receiptInputsPath).bind Blob.deserialize
        = some (r :: rs)
  | _ => True

/-- A request from `Init` has its snark task from the last aggregation, and no
    file is read. -/
theorem genSnarkTask_init (hfrom : s.generateTask.fromStep = .Init)
    (hfresh : s.snarkTask.state = .Initial) :
    (s.genSnarkTask disk).isSome = true := by
  rw [genSnarkTask, if_pos hfresh]
  dsimp only
  rw [hfrom]
  dsimp only
  split <;> rfl

/-- A request from `Agg` takes it from the file of receipts, which must decode
    to at least one. -/
theorem genSnarkTask_agg (hfrom : s.generateTask.fromStep = .Agg)
    (hfresh : s.snarkTask.state = .Initial) :
    (s.genSnarkTask disk).isSome = true ↔ ∃ r rs,
      (disk.read s.generateTask.receiptInputsPath).bind Blob.deserialize
        = some (r :: rs) := by
  rw [genSnarkTask, if_pos hfresh]
  dsimp only
  rw [hfrom]
  dsimp only
  split
  case h_1 r rs hread => exact iff_of_true rfl ⟨r, rs, hread⟩
  case h_2 hno =>
    refine iff_of_false (by rintro ⟨⟩) ?_
    rintro ⟨r, rs, h⟩
    exact hno r rs h

/-- The step machine of a request from `Init` never panics. -/
theorem advance_isSome (hfrom : s.generateTask.fromStep = .Init)
    (hfresh : s.snarkTask.state = .Initial) :
    (s.advance disk).isSome = true := by
  rw [advance]
  split
  · split
    · rfl
    · split
      · split
        · rfl
        · rw [Option.isSome_map]
          exact genSnarkTask_init hfrom hfresh
      · rfl
  · rfl

end Stage

section

variable {feat : Feature} {g : GenerateTask β} {w : World β}

/-- The once-only branch, behind `gen_prove_task`. -/
theorem finalise_advance_isSome {disk : Disk β} {s₁ : Stage β}
    (hs : Shape w) (hstep : w.stage.step = .Prove)
    (hgrow : Moves feat w { w with stage := s₁ })
    (hmore : MoreProves w.stage s₁) (hdone : w.stage.isTasksGenDone = false)
    (hsplit : w.stage.splitTask.state = .Success)
    (htarget : w.stage.generateTask.targetStep ≠ .Split)
    (hfrom : w.stage.generateTask.fromStep = .Init)
    (hfresh : w.stage.snarkTask.state = .Initial) :
    ((s₁.finalise feat disk).bind fun s => s.advance disk).isSome = true ↔
      s₁.FinalClear feat disk := by
  rw [← Stage.finalise_isSome]
  cases hfin : s₁.finalise feat disk with
  | none => exact iff_of_false nofun nofun
  | some s₂ =>
      refine iff_of_true ?_ rfl
      rw [Option.bind_some]
      have hmade : Finalised feat s₁ s₂ _ :=
        finalise_spec (w := { w with stage := s₁ }) (hs.moves hgrow)
          (by rw [hmore]; exact hstep) (by rw [hmore]; exact hdone)
          (by rw [hmore]; exact hsplit) (by rw [hmore]; exact htarget) hfin
      have hframe : s₂.generateTask = s₁.generateTask ∧
          s₂.snarkTask = s₁.snarkTask := by
        cases hmade with
        | mk _ _ _ _ _ _ _ _ _ _ _ _ _ _ => exact ⟨rfl, rfl⟩
      rw [hmore] at hframe
      exact Stage.advance_isSome (by rw [hframe.1]; exact hfrom)
        (by rw [hframe.2]; exact hfresh)

/-- **CLEAR**: `dispatch` returns just when it has what it needs. -/
theorem Reachable.dispatch_clear
    (hfrom : g.fromStep = .Init ∨ g.fromStep = .Agg)
    (h : Reachable feat g w) (disk : Disk β) :
    (w.stage.dispatch feat disk).isSome = true ↔ w.stage.Clear feat disk := by
  have hp := h.phases hfrom
  have hreq := hp.request
  rw [Stage.dispatch, Stage.Clear]
  cases hstep : w.stage.step with
  | Init =>
      refine iff_of_true ?_ trivial
      have hfresh := (hp.init hstep).2.1.split
      dsimp only
      rw [Option.isSome_map, Stage.genSplitTask, if_pos hfresh]
      rfl
  | Agg =>
      obtain ⟨hf, hfresh⟩ := hp.agg hstep
      have hf' : w.stage.generateTask.fromStep = .Agg := by rw [hreq]; exact hf
      dsimp only
      rw [if_pos hf', Option.isSome_map]
      exact Stage.genSnarkTask_agg hf' hfresh
  | Prove =>
      obtain ⟨hf, _, hfresh⟩ := hp.prove hstep
      have hf' : w.stage.generateTask.fromStep = .Init := by
        rw [hreq]
        exact hf
      dsimp only
      by_cases hskip : w.stage.generateTask.targetStep = .Split ∨
          w.stage.isTasksGenDone = true
      · refine iff_of_true ?_ fun ht hd => ?_
        · rw [Stage.genProveTask, if_pos hskip, Option.bind_eq_bind,
            Option.bind_some]
          split
          case isTrue hdue =>
            rw [if_pos (hskip.resolve_right hdue.2)]
            rfl
          case isFalse => exact Stage.advance_isSome hf' hfresh
        · rcases hskip with hs | hs
          · exact absurd hs ht
          · cases hd.symm.trans hs
      · have hgen : (w.stage.genProveTask disk).isSome = true ↔ _ :=
          Stage.genProveTask_isSome hskip
        obtain ⟨htarget, hdone⟩ := not_or.mp hskip
        rw [Bool.not_eq_true] at hdone
        rw [Option.bind_eq_bind]
        cases hg : w.stage.genProveTask disk with
        | none =>
            rw [hg] at hgen
            exact iff_of_false (by rintro ⟨⟩)
              fun hclear => by cases hgen.mpr (hclear htarget hdone).1
        | some s₁ =>
            rw [hg] at hgen
            have hready := hgen.mp rfl
            have hgrow : Moves feat w { w with stage := s₁ } :=
              genProveTask_moves hstep hg
            have hmore := genProveTask_more hg
            have hlen := Stage.genProveTask_grown hskip hg
            obtain ⟨f1, f2, f3, f4⟩ := hmore.frame
            rw [Option.bind_some, f2, f3, f4, hdone]
            by_cases hsplit : w.stage.splitTask.state = .Success
            · rw [if_pos ⟨hsplit, by rintro ⟨⟩⟩, if_neg htarget]
              show ((s₁.finalise feat disk).bind _).isSome = true ↔ _
              rw [finalise_advance_isSome h.shape hstep hgrow hmore hdone
                hsplit htarget hf' hfresh]
              constructor
              · rintro ⟨htotal, hdef, hvk, hseg⟩
                rw [f3, f4, hlen] at htotal
                rw [f4] at hvk
                rw [f3, f4] at hseg
                rw [Stage.DeferredReady, f4] at hdef
                exact fun _ _ => ⟨hready, fun _ => ⟨htotal, hdef, hvk, hseg⟩⟩
              · intro hclear
                obtain ⟨htotal, hdef, hvk, hseg⟩ :=
                  (hclear htarget rfl).2 hsplit
                refine ⟨?_, ?_, ?_, ?_⟩
                · rw [f3, f4, hlen]
                  exact htotal
                · rw [Stage.DeferredReady, f4]
                  exact hdef
                · rw [f4]
                  exact hvk
                · rw [f3, f4]
                  exact hseg
            · rw [if_neg fun hdue => hsplit hdue.1]
              refine iff_of_true ?_ fun _ _ =>
                ⟨hready, fun hs => absurd hs hsplit⟩
              exact Stage.advance_isSome (by rw [f4]; exact hf')
                (by rw [hmore]; exact hfresh)
  | Snark =>
      refine iff_of_true ?_ trivial
      dsimp only
      split <;> rfl
  | Split => exact iff_of_true rfl trivial
  | End => exact iff_of_true rfl trivial

/-! ## A positive block number -/

/-- `gen_program` cannot return. -/
def GenerateTask.Blocked (g : GenerateTask β) : Prop :=
  g.program = none ∧ 0 < g.blockNo.getD 0

omit [Blob β] in
/-- A blocked request is ready on no disk. -/
theorem GenerateTask.Blocked.not_ready [Blob β] (h : g.Blocked)
    (disk : Disk β) : ¬ g.Ready disk := by
  rintro (hprog | ⟨hzero, _⟩)
  · rw [h.1] at hprog
    exact nomatch hprog
  · have hpos := h.2
    omega

/-- No prove task was ever made. -/
def Bare (s : Stage β) : Prop :=
  s.proveTasks = [] ∧ s.isTasksGenDone = false

omit [Blob β] in
/-- In a bare stage the next `gen_prove_task` has a task to add. -/
theorem bare_grown {s : Stage β} (h : Bare s) (disk : Disk β) :
    s.proveTasks.length < s.grown disk := by
  rw [Stage.grown, h.1]
  exact Nat.lt_of_lt_of_le (by decide : 0 < 64) (Nat.le_max_left _ _)

/-- A `dispatch` that returns keeps the stage of a blocked request bare. -/
theorem bare_dispatch (hfrom : g.fromStep = .Init ∨ g.fromStep = .Agg)
    (h : Reachable feat g w) (hg : g.Blocked) (hbare : Bare w.stage)
    {disk : Disk β} {s : Stage β}
    (hs : w.stage.dispatch feat disk = some s) : Bare s := by
  have hclear := (h.dispatch_clear hfrom disk).mp (by rw [hs]; rfl)
  have hreq := (h.phases hfrom).request
  -- a dispatch in `Prove` has to make 64 tasks first
  have hprove : w.stage.step = .Prove →
      w.stage.generateTask.targetStep = .Split := by
    intro hstep
    refine Classical.byContradiction fun htarget => ?_
    rw [Stage.Clear, hstep] at hclear
    rcases (hclear htarget hbare.2).1 with hle | hready
    · exact absurd hle (Nat.not_le.mpr (bare_grown hbare disk))
    · rw [hreq] at hready
      exact absurd hready (hg.not_ready disk)
  have hgen : ∀ {s₁ : Stage β}, w.stage.step = .Prove →
      w.stage.genProveTask disk = some s₁ → Bare s₁ := by
    intro s₁ hstep h₁
    obtain ⟨new, _, hskip, rfl⟩ := genProveTask_list h₁
    rw [hskip (Or.inl (hprove hstep)), List.append_nil]
    exact hbare
  cases dispatch_step hs with
  | start _ _ _ _ _ => exact hbare
  | split s₁ hstep h₁ _ _ _ _ =>
      have hkept : Bare s₁ := hgen hstep h₁
      exact hkept
  | finalise s₁ s₂ _ hstep _ hmore _ _ htarget _ _ =>
      exact absurd (hmore.frame.2.2.2 ▸ hprove hstep) htarget
  | advance s₁ _ hstep h₁ _ _ h =>
      have hkept : Bare s₁ := hgen hstep h₁
      rw [advance_frame h]
      exact hkept
  | snark _ _ _ _ _ => exact hbare
  | ended _ _ => exact hbare
  | idle _ _ _ _ => exact hbare

/-- So does every other step. -/
theorem bare_step (hfrom : g.fromStep = .Init ∨ g.fromStep = .Agg)
    (h : Reachable feat g w) (hg : g.Blocked) (hbare : Bare w.stage)
    {a : Action β} {w' : World β} (hstep : w.step feat a = some w') :
    Bare w'.stage := by
  cases World.step_stepped hstep with
  | dispatch disk s hdisp => exact bare_dispatch hfrom h hg hbare hdisp
  | quiet _ _ => exact hbare
  | getSplit _ _ _ _ => exact hbare
  | getProve disk now =>
      obtain ⟨hnil, hdone⟩ := hbare
      refine ⟨?_, hdone⟩
      dsimp only
      rw [hnil]
      rfl
  | getAgg now t s _ hs =>
      rw [hs]
      exact hbare
  | getSnark _ _ _ _ => exact hbare
  | onSplit _ _ _ _ _ => exact hbare
  | onProve i r now c _ =>
      obtain ⟨hnil, hdone⟩ := hbare
      rw [onProveTask_eq, hnil]
      exact ⟨rfl, hdone⟩
  | onAgg i r now io c t s file _ hon =>
      obtain ⟨rfl, _, _⟩ := onAggTask_eq hon
      exact hbare
  | onSnark i r now io c t s file _ _ hs =>
      rw [hs]
      exact hbare

/-- A blocked request never has a prove task. -/
theorem Reachable.bare (hfrom : g.fromStep = .Init ∨ g.fromStep = .Agg)
    (hg : g.Blocked) (h : Reachable feat g w) : Bare w.stage := by
  obtain ⟨file, acts, hrun⟩ := h
  have hstep : ∀ v a v', Reachable feat g v ∧ Bare v.stage →
      v.step feat a = some v' → Reachable feat g v' ∧ Bare v'.stage := by
    rintro v a v' ⟨hv, hbare⟩ hs
    refine ⟨?_, bare_step hfrom hv hg hbare hs⟩
    obtain ⟨file, acts, hrun⟩ := hv
    exact ⟨file, acts ++ [a], run_snoc.mpr ⟨v, hrun, hs⟩⟩
  have hstart : Reachable feat g (World.start g file) ∧
      Bare (World.start g file).stage := ⟨⟨file, [], rfl⟩, rfl, rfl⟩
  exact (run_inv hstep hstart hrun).2

/-! ## Accepted requests -/

/-- The requests that `generate_proof` stores for a cluster run: it leaves the
    program out, and from given receipts it insists on at least one. -/
structure Stored (g : GenerateTask β) : Prop extends ClusterRequest g where
  program  : g.program = none
  receipts : g.fromStep = .Agg → g.receiptInputsPath ≠ ""

/-- What `generate_proof` and a SUCCESS split wrote can be read. -/
structure Disk.Readable (feat : Feature) (s : Stage β) (disk : Disk β) :
    Prop where
  receipts : s.generateTask.receiptInputsPath ≠ "" → ∃ r rs,
    (disk.read s.generateTask.receiptInputsPath).bind Blob.deserialize
      = some (r :: rs)
  segments : s.splitTask.state = .Success →
    (disk.readDir s.generateTask.segPath).isSome = true
  vk       : s.splitTask.state = .Success → feat = .proverV2 →
    (disk.read (s.generateTask.baseDir ++ "/vk.bin")).isSome = true

/-- The stage makes prove tasks for a block with a number, or the aggregation
    tree over no segments. -/
def Stage.Doomed (feat : Feature) (s : Stage β) : Prop :=
  s.step = .Prove ∧ s.generateTask.targetStep ≠ .Split ∧
    (0 < s.generateTask.blockNo.getD 0 ∨
      (feat = .prover ∧ s.generateTask.compositeProof = false ∧
        s.splitTask.state = .Success ∧ s.isTasksGenDone = false ∧
        s.splitTask.totalSegments = 0))

/-- On a readable disk a request without a block number is ready. -/
theorem Disk.Readable.ready {s : Stage β} {disk : Disk β}
    (h : disk.Readable feat s) (hblock : s.generateTask.blockNo.getD 0 = 0) :
    s.generateTask.Ready disk := by
  refine Or.inr ⟨hblock, ?_⟩
  by_cases hpath : s.generateTask.receiptInputsPath = ""
  · exact Or.inl hpath
  · obtain ⟨r, rs, hread⟩ := h.receipts hpath
    exact Or.inr (by rw [hread]; rfl)

/-- **NO CRASH**: with the written files readable, a `dispatch` of an accepted
    request panics just when its stage is doomed. -/
theorem dispatch_panics_iff (hg : Stored g) (h : Reachable feat g w)
    {disk : Disk β} (hdisk : disk.Readable feat w.stage) :
    w.stage.dispatch feat disk = none ↔ w.stage.Doomed feat := by
  have hp := h.phases hg.fromStep
  have hreq := hp.request
  rw [← Option.not_isSome_iff_eq_none, h.dispatch_clear hg.fromStep disk,
    Stage.Clear, Stage.Doomed]
  cases hstep : w.stage.step with
  | Agg =>
      refine iff_of_false (fun hno => hno ?_) nofun
      refine hdisk.receipts ?_
      rw [hreq]
      exact hg.receipts (hp.agg hstep).1
  | Prove =>
      dsimp only
      constructor
      · intro hno
        refine Classical.byContradiction fun hsafe => hno ?_
        intro htarget hdone
        have hblock : w.stage.generateTask.blockNo.getD 0 = 0 := by
          refine Nat.eq_zero_of_not_pos fun hpos => hsafe ?_
          exact ⟨rfl, htarget, Or.inl hpos⟩
        have hready := hdisk.ready hblock
        refine ⟨Or.inr hready, fun hsplit => ⟨Or.inr hready, ?_, ?_, ?_⟩⟩
        · intro _
          obtain ⟨files, hfiles⟩ :=
            Option.isSome_iff_exists.mp (hdisk.segments hsplit)
          exact ⟨files, hfiles, Or.inr hready⟩
        · exact fun hfeat _ => hdisk.vk hsplit hfeat
        · intro hfeat hwhole hzero
          exact hsafe ⟨rfl, htarget,
            Or.inr ⟨hfeat, hwhole, hsplit, hdone, hzero⟩⟩
      · rintro ⟨_, htarget, hpos | ⟨hfeat, hwhole, hsplit, hdone, hzero⟩⟩ hclear
        · have hblocked : g.Blocked := ⟨hg.program, by rw [← hreq]; exact hpos⟩
          have hbare := h.bare hg.fromStep hblocked
          rcases (hclear htarget hbare.2).1 with hle | hready
          · exact Nat.not_le.mpr (bare_grown hbare disk) hle
          · rw [hreq] at hready
            exact hblocked.not_ready disk hready
        · exact ((hclear htarget hdone).2 hsplit).2.2.2 hfeat hwhole hzero
  | Init => exact iff_of_false (fun hno => hno trivial) nofun
  | Snark => exact iff_of_false (fun hno => hno trivial) nofun
  | Split => exact iff_of_false (fun hno => hno trivial) nofun
  | End => exact iff_of_false (fun hno => hno trivial) nofun

end

/-- Every file of the two-segment request is there, at the first dispatch in
    its `Prove` step. -/
theorem dispatch_panics_iff_split :
    ∃ w : World (List UInt8), Reachable .prover aggRequest w ∧
      w.stage.step = .Prove ∧ w.stage.dispatch .prover .full ≠ none := by
  obtain ⟨w, hw, hp⟩ := Reachable.of_check .prover
    (aggRequest : GenerateTask (List UInt8)) [.dispatch .full]
    (fun w => w.stage.step = .Prove && w.stage.splitTask.state = .Unprocessed)
    (by decide)
  rw [Bool.and_eq_true, decide_eq_true_eq, decide_eq_true_eq] at hp
  have hstored : Stored (aggRequest : GenerateTask (List UInt8)) :=
    ⟨⟨Or.inl rfl, Or.inr (Or.inl rfl), rfl⟩, rfl, nofun⟩
  have hreq := (hw.phases (Or.inl rfl)).request
  have hread : Disk.full.Readable .prover w.stage :=
    ⟨fun hpath => absurd (by rw [hreq]; rfl) hpath, fun _ => rfl,
      fun _ _ => rfl⟩
  refine ⟨w, hw, hp.1, fun hnone => ?_⟩
  obtain ⟨_, _, hblock | ⟨_, _, hsplit, _⟩⟩ :=
    (dispatch_panics_iff hstored hw hread).mp hnone
  · rw [hreq] at hblock
    exact nomatch hblock
  · exact nomatch hp.2.symm.trans hsplit

/-- A request for a block with a number. -/
def blockRequest : GenerateTask (List UInt8) :=
  { aggRequest with blockNo := some 1 }

/-- Its second dispatch panics. -/
theorem dispatch_panics_block :
    Stored blockRequest ∧ ∃ w, Reachable .proverV2 blockRequest w ∧
      Disk.full.Readable .proverV2 w.stage ∧
      w.stage.dispatch .proverV2 .full = none := by
  have hstored : Stored blockRequest :=
    ⟨⟨Or.inl rfl, Or.inr (Or.inl rfl), rfl⟩, rfl, nofun⟩
  obtain ⟨w, hw, hp⟩ := Reachable.of_check .proverV2 blockRequest
    [.dispatch .full]
    (fun w => (w.stage.dispatch .proverV2 .full).isNone) (by decide)
  have hreq := (hw.phases (Or.inl rfl)).request
  exact ⟨hstored, w, hw, ⟨fun hpath => absurd (by rw [hreq]; rfl) hpath,
    fun _ => rfl, fun _ _ => rfl⟩, Option.isNone_iff_eq_none.mp hp⟩

end ZkmProver
