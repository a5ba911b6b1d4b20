import ZkmProver.ErrorStatus

/-! # After an error — no more work, unless `dispatch` raised the flag

    The worker looks at the error flag behind `select!`, before it dispatches.
    A flag raised by a result is therefore seen at once; one raised inside
    `dispatch` (`dispatch_isError`: the branch of `gen_prove_task_post` for
    fewer than two segments) is seen a whole turn later, behind the next
    hand-outs. -/

namespace ZkmProver

open Forest Keyed Machine

variable {β : Type} [Blob β]

/-- The branch of `gen_prove_task_post` that raises the error flag, read off
    the stage before the `dispatch`. -/
def Stage.tooFew (feat : Feature) (s : Stage β) : Bool :=
  feat = .prover && s.step = .Prove && s.splitTask.state = .Success &&
    !s.isTasksGenDone && s.generateTask.targetStep ≠ .Split &&
    s.splitTask.totalSegments < 2

section

variable {feat : Feature} {g : GenerateTask β} {w w' : World β}

/-! ## What `dispatch` does to the flag -/

/-- The list has as many normal tasks as the split has reported segments. -/
theorem Completed.length {s : Stage β} {normal : List (ProveTask β)} {u : Nat}
    (h : Completed s normal u) : normal.length = s.splitTask.totalSegments := by
  cases h with
  | cut hlt => rw [List.length_take, Nat.min_eq_left (Nat.le_of_lt hlt)]
  | extend new _ hlen _ => rw [List.length_append, hlen]

/-- The end of `gen_prove_task_post` raises the flag just when the list is too
    short. -/
theorem Finalised.isError {s s' : Stage β} {listing : List (Nat × β)}
    (h : Finalised feat s s' listing) :
    s'.isError = (s.isError || s.tooFew feat) := by
  cases h with
  | mk normal deferred as u u' errmsg listing hstep hdone hsplit htarget hn hd _ =>
      have hfew : s.tooFew feat = decide (feat = .prover ∧
          s.splitTask.totalSegments < 2) := by
        rw [Stage.tooFew, hstep, hdone, hsplit]
        simp [htarget]
      show (s.isError || decide (feat = .prover ∧
        (normal ++ deferred).length < 2)) = _
      rw [hfew, List.length_append, hn.length]
      cases feat with
      | prover => rw [hd.none rfl]; rfl
      | proverV2 => rfl

/-- The steps behind the prove tasks raise no flag. -/
theorem advance_isError {s s' : Stage β} {disk : Disk β}
    (h : s.advance disk = some s') : s'.isError = s.isError := by
  rw [advance_frame h]

omit [Blob β] in
/-- Only the step Prove counts the segments. -/
theorem tooFew_of_step {s : Stage β} (h : s.step ≠ .Prove) :
    s.tooFew feat = false := by
  rw [Stage.tooFew, decide_eq_false h]
  simp

/-- **DISPATCH AND THE FLAG**: it is raised where the split left fewer than
    two segments, and nowhere else. -/
theorem dispatch_isError (hs : Shape w) {disk : Disk β} {s' : Stage β}
    (h : w.stage.dispatch feat disk = some s') :
    s'.isError = (w.stage.isError || w.stage.tooFew feat) := by
  have quiet : w.stage.tooFew feat = false → s'.isError = w.stage.isError →
      s'.isError = (w.stage.isError || w.stage.tooFew feat) := by
    intro hfew hsame
    rw [hfew, Bool.or_false, hsame]
  cases dispatch_step h with
  | start split hstep _ _ _ =>
      exact quiet (tooFew_of_step (by rw [hstep]; rintro ⟨⟩)) rfl
  | split s₁ _ _ hmore _ _ htarget =>
      obtain ⟨_, _, _, f4⟩ := hmore.frame
      refine quiet ?_ (by rw [hmore])
      rw [Stage.tooFew, ← f4, htarget]
      simp
  | finalise s₁ s₂ _ hstep h₁ hmore hsplit hdone htarget h₂ h =>
      obtain ⟨f1, f2, f3, f4⟩ := hmore.frame
      have hfin := finalise_spec (w := { w with stage := s₁ })
        (hs.genProveTask hstep h₁) (f1.trans hstep) hdone hsplit
        htarget h₂
      have herr : s₁.isError = w.stage.isError := by rw [hmore]
      have hfew : s₁.tooFew feat = w.stage.tooFew feat := by
        rw [Stage.tooFew, Stage.tooFew, f1, f2, f3, f4]
      rw [advance_isError h, hfin.isError]
      show (s₁.isError || s₁.tooFew feat) = _
      rw [herr, hfew]
  | advance s₁ _ _ _ hmore hdue h =>
      obtain ⟨f1, f2, f3, f4⟩ := hmore.frame
      refine quiet ?_ ((advance_isError h).trans (by rw [hmore]))
      -- the split is not done, or the graph is there
      rw [Stage.tooFew, ← f2, ← f3]
      by_cases hst : s₁.splitTask.state = .Success
      · simp [hdue hst]
      · simp [hst]
  | snark snark hstep _ _ _ =>
      exact quiet (tooFew_of_step (by rw [hstep]; rintro ⟨⟩)) rfl
  | ended hstep _ =>
      exact quiet (tooFew_of_step (by rw [hstep]; rintro ⟨⟩)) rfl
  | idle _ hstep _ _ => exact quiet (tooFew_of_step hstep) rfl

/-! ## What the hand-outs do to it -/

/-- No hand-out raises the flag. -/
theorem get_isError {a : Action β} (ha : a.gets = true)
    (h : w.step feat a = some w') : w'.stage.isError = w.stage.isError := by
  cases World.step_stepped h with
  | getAgg now t s _ hs => rw [hs]
  | dispatch _ _ _ => cases ha
  | onSplit _ _ _ _ _ => cases ha
  | onProve _ _ _ _ _ => cases ha
  | onAgg _ _ _ _ _ _ _ _ _ _ => cases ha
  | onSnark _ _ _ _ _ _ _ _ _ _ _ => cases ha
  | _ => rfl

theorem handOuts_isError {clock : Nat → Nat} {disk : Disk β}
    (h : handOuts feat clock disk w = some w') :
    w'.stage.isError = w.stage.isError :=
  handOuts_inv (I := fun v => v.stage.isError = w.stage.isError)
    (fun _ _ _ ha hv hstep => (get_isError ha hstep).trans hv) rfl h

end

/-! ## The worker -/

namespace Ctl

/-- The error flag of the stage in the hands of the worker. -/
def flagged : Ctl β → Bool
  | .looping l => l.world.stage.isError
  | .waiting _ w => w.stage.isError
  | .received _ w => w.stage.isError
  | .returned _ stage => stage.any (·.isError)
  | .panicked _ => false

/-- Some task is handed out, and so some client call is spawned. -/
def handsOut (feat : Feature) : Ctl β → Act β → Bool
  | .looping l, .handOut clock disk =>
      (handOuts feat clock disk l.world).any fun w =>
        l.world.inFlight < w.inFlight
  | _, _ => false

/-- The worker dispatches a stage whose split left too few segments. -/
def tooFew (feat : Feature) : Ctl β → Act β → Bool
  | .received _ w, .dispatch _ _ _ =>
      !(w.stage.isSuccess || w.stage.isError) && w.stage.tooFew feat
  | _, _ => false

/-- The flag is down wherever a hand-out may follow. -/
def Unraised : Ctl β → Prop
  | .looping l => l.world.stage.isError = false
  | .waiting _ w => w.stage.isError = false
  | _ => True

/-- No hand-out can follow. -/
def Over : Ctl β → Prop
  | .received _ w => w.stage.isError = true
  | .returned _ _ => True
  | .panicked _ => True
  | _ => False

end Ctl

section

variable {feat : Feature} {g : GenerateTask β} {c c' : Ctl β} {a : Act β}
  {task : StageTask β} {row : StageRow} {b : Boot β}

/-- A loop that is left is over. -/
theorem finish_ends (duration : Nat) (l : Loop β) (w : World β) :
    (finish duration l w).Unraised ∧ (finish duration l w).Over := by
  rw [finish]
  split
  · exact ⟨trivial, trivial⟩
  · dsimp only
    split
    · exact ⟨trivial, trivial⟩
    · split <;> exact ⟨trivial, trivial⟩

/-- A single node has no loop to go on with. -/
theorem singleNode_unraised (task : StageTask β) (row : StageRow) (b : Boot β)
    (stage : Stage β) : (runSingleNode task row b stage).Unraised := by
  rw [runSingleNode]
  split
  · trivial
  · dsimp only
    split
    · trivial
    · split
      · trivial
      · split <;> trivial

/-- A run begins without the flag. -/
theorem Ctl.Unraised.start (hctx : task.context = .request g) :
    (runStageTask feat task row b).Unraised := by
  rw [runStageTask, hctx]
  dsimp only
  split
  · exact singleNode_unraised task row b (Stage.new g)
  · split
    · trivial
    case _ w hw =>
      rw [World.step, Option.map_eq_some_iff] at hw
      obtain ⟨s, hs, rfl⟩ := hw
      show s.isError = false
      rw [dispatch_isError (Shape.start g b.file) hs, Stage.tooFew]
      simp [World.start, Stage.new, SplitTask.default, TaskHead.default]

/-- One third of a turn keeps the flag down, unless the split left too few
    segments. -/
theorem Ctl.Unraised.step (hin : Inside feat g c) (hc : c.Unraised)
    (hfew : c.tooFew feat a = false) (h : c.step feat a = some c') :
    c'.Unraised := by
  cases c with
  | looping l =>
      cases a with
      | handOut clock disk =>
          rw [Ctl.step] at h
          split at h
          · cases h
            trivial
          case _ w hw =>
            cases h
            exact (handOuts_isError hw).trans hc
      | receive now event => cases h
      | dispatch now disk duration => cases h
  | waiting l w =>
      cases a with
      | handOut clock disk => cases h
      | receive now event =>
          rw [Ctl.step] at h
          split at h
          · cases h
            trivial
          · cases h
            trivial
      | dispatch now disk duration => cases h
  | received l w =>
      cases a with
      | handOut clock disk => cases h
      | receive now event => cases h
      | dispatch now disk duration =>
          rw [Ctl.step, conclude, Option.some.injEq] at h
          rw [← h]
          split
          · exact (finish_ends duration l w).1
          case isFalse hgo =>
            split
            · trivial
            case _ w' hw =>
              rw [World.step, Option.map_eq_some_iff] at hw
              obtain ⟨s, hs, rfl⟩ := hw
              rw [Bool.not_eq_true] at hgo
              have hquiet : w.stage.tooFew feat = false := by
                rw [Ctl.tooFew, hgo] at hfew
                exact hfew
              rw [Bool.or_eq_false_iff] at hgo
              show (l.dispatched _ now _).world.stage.isError = false
              rw [dispatched_world]
              show s.isError = false
              rw [dispatch_isError hin.2.shape hs, hgo.2, hquiet]
              rfl
  | returned row stage => cases h
  | panicked row => cases h

omit [Blob β] in
/-- A flagged worker that is not about to hand out is over. -/
theorem Ctl.Unraised.over (hc : c.Unraised) (hflag : c.flagged = true) :
    c.Over := by
  cases c with
  | looping l =>
      have hdown : l.world.stage.isError = false := hc
      cases hdown.symm.trans hflag
  | waiting l w =>
      have hdown : w.stage.isError = false := hc
      cases hdown.symm.trans hflag
  | received l w => exact hflag
  | returned row stage => trivial
  | panicked row => cases hflag

/-- A run that is over stays so. -/
theorem Ctl.Over.step (hc : c.Over) (h : c.step feat a = some c') :
    c'.Over := by
  cases c with
  | looping l => exact hc.elim
  | waiting l w => exact hc.elim
  | received l w =>
      cases a with
      | handOut clock disk => cases h
      | receive now event => cases h
      | dispatch now disk duration =>
          have hend : (w.stage.isSuccess || w.stage.isError) = true := by
            rw [show w.stage.isError = true from hc, Bool.or_true]
          rw [Ctl.step, conclude, if_pos hend, Option.some.injEq] at h
          rw [← h]
          exact (finish_ends duration l w).2
  | returned row stage => cases h
  | panicked row => cases h

/-- A run that is over hands out nothing. -/
theorem Ctl.Over.idle (hc : c.Over) (a : Act β) :
    c.handsOut feat a = false := by
  cases c with
  | looping l => exact hc.elim
  | waiting l w => exact hc.elim
  | received l w => rfl
  | returned row stage => rfl
  | panicked row => rfl

/-- **NO WORK AFTER AN ERROR**: in a run in which no dispatch finds that the
    split left fewer than two segments, nothing is handed out and no client
    call is spawned from the moment the error flag is raised. -/
theorem no_work_after_error {as bs : List (Act β)}
    (hrun : Runs feat task row b as c)
    (hfew : Along (Ctl.step feat) (fun c a => c.tooFew feat a = false)
      (runStageTask feat task row b) as)
    (hflag : c.flagged = true) :
    Along (Ctl.step feat) (fun c a => c.handsOut feat a = false) c bs := by
  have hover : c.Over := by
    by_cases hctx : ∃ g, task.context = .request g
    · obtain ⟨g, hctx⟩ := hctx
      have hclear : Inside feat g c ∧ c.Unraised := by
        refine run_inv_along (I := fun c => Inside feat g c ∧ c.Unraised) ?_ hfew
          ⟨Inside.start hctx, Ctl.Unraised.start hctx⟩ hrun
        intro c a c' hquiet hc h
        exact ⟨hc.1.step h, Ctl.Unraised.step hc.1 hc.2 hquiet h⟩
      exact hclear.2.over hflag
    · -- without a request there is no loop
      refine run_inv (fun _ _ _ hc h => hc.step h) ?_ hrun
      rw [runStageTask]
      cases hcase : task.context with
      | absent => trivial
      | undecodable => trivial
      | request g => exact absurd ⟨g, hcase⟩ hctx
  exact along_of (fun _ _ _ _ hc h => hc.step h) (fun _ a _ hc => hc.idle a)
    (along_true c bs) hover

end

/-- The split fails, and nothing is handed out. -/
theorem no_work_after_error_split :
    ∃ c, Runs .prover proveTask freshRow freshBoot
        [.handOut (fun k => k) .full,
          .receive 1 (.split 0 ⟨.Failed, "a", 0, 0⟩)] c ∧
      c.flagged = true ∧
      Along (Ctl.step .prover) (fun c a => c.handsOut .prover a = false) c
        [.dispatch 1 .full 0, .handOut (fun k => k) .full] := by
  obtain ⟨c, hrun, hflag⟩ := Runs.of_check .prover proveTask freshRow freshBoot
    [.handOut (fun k => k) .full,
      .receive 1 (.split 0 ⟨.Failed, "a", 0, 0⟩)] Ctl.flagged (by decide)
  exact ⟨c, hrun, hflag, no_work_after_error hrun (by decide) hflag⟩

/-- The split comes back with one segment. -/
def oneSegmentTurn : List (Act (List UInt8)) :=
  quickTurn (.split 0 ⟨.Success, "a", 10, 1⟩)

/-- One segment is an error under feature `prover`, and yet the next turn
    hands its prove task out. -/
theorem work_after_error :
    ∃ c, Runs .prover proveTask freshRow freshBoot oneSegmentTurn c ∧
      c.flagged = true ∧
      ¬ Along (Ctl.step .prover) (fun c a => c.handsOut .prover a = false) c
        [.handOut (fun k => k) .full] := by
  obtain ⟨c, hrun, hc⟩ := Runs.of_check .prover proveTask freshRow freshBoot
    oneSegmentTurn
    (fun c => c.flagged && c.handsOut .prover (.handOut (fun k => k) .full))
    (by decide)
  rw [Bool.and_eq_true] at hc
  refine ⟨c, hrun, hc.1, fun halong => ?_⟩
  cases hc.2.symm.trans halong.1

end ZkmProver
