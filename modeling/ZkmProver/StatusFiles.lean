import ZkmProver.GetStatus
import ZkmProver.Phases

/-! # Status files — who writes the files of a proof

    The stage hands the paths of its request to the one split task it makes
    (`Asks`), a node that answers the split with success has written the
    output stream (`SplitCall.output_touched`), and a stage that succeeds from
    `Init` has received such an answer (`Ctl.Routed`).  Over all steps of a
    proof this gives the files that are there, and by whom (`Sourced`). -/

namespace ZkmProver

open Forest Keyed Machine

variable {β : Type}

/-! ## The split task of a stage -/

/-- The split task has the paths of the request. -/
structure SplitTask.Asks (g : GenerateTask β) (t : SplitTask β) : Prop where
  segPath    : t.segPath = g.segPath
  outputPath : t.outputPath = g.outputStreamPath

/-- What a step does to the split task and to its copies in flight. -/
inductive SplitStep (w : World β) : Action β → World β → Prop where
  | made (disk : Disk β) (w' : World β) :
      w'.stage.splitTask.Asks w.stage.generateTask →
      w'.stage.splitTask.state = .Unprocessed → w'.splits = w.splits →
      SplitStep w (.dispatch disk) w'
  | handed (now : Nat) (w' : World β) :
      w.stage.splitTask.state.waiting = true →
      w'.stage.splitTask = { w.stage.splitTask with
        toTaskHead := w.stage.splitTask.toTaskHead.handOut now } →
      w'.splits = w.splits ++ [w'.stage.splitTask] →
      SplitStep w (.getSplit now) w'
  | taken (i : Nat) (r : SplitReply) (now : Nat) (c : SplitTask β)
      (w' : World β) : w.splits[i]? = some c →
      w'.stage = (w.stage.onSplitTask now (r.split c)).1 →
      w'.splits = w.splits.eraseIdx i →
      SplitStep w (.onSplit i r now) w'
  | other (a : Action β) (w' : World β) :
      w'.stage.splitTask = w.stage.splitTask → w'.splits = w.splits →
      SplitStep w a w'

section

variable [Blob β] {feat : Feature} {g : GenerateTask β} {w w' : World β}

/-- A dispatch makes the split task in `Init`, and leaves it alone after
    that. -/
theorem dispatch_splitTask {disk : Disk β} {s' : Stage β} (hs : Shape w)
    (h : w.stage.dispatch feat disk = some s') :
    s'.splitTask = w.stage.splitTask ∨
      s'.splitTask.Asks w.stage.generateTask ∧
        s'.splitTask.state = .Unprocessed := by
  cases dispatch_step h with
  | start split _ hfresh hst hgen =>
      rw [Stage.genSplitTask, if_pos hfresh] at hgen
      cases hgen
      exact Or.inr ⟨⟨rfl, rfl⟩, rfl⟩
  | split s₁ _ _ hmore _ _ _ => exact Or.inl hmore.frame.2.2.1
  | finalise s₁ s₂ _ hstep h₁ hmore hsplit hdone htarget h₂ h =>
      obtain ⟨f1, _, f3, _⟩ := hmore.frame
      have hfin := finalise_spec (hs.genProveTask hstep h₁)
        (f1.trans hstep) hdone hsplit htarget h₂
      have hkept : s₂.splitTask = s₁.splitTask := by
        cases hfin with
        | mk _ _ _ _ _ _ _ _ _ _ _ _ _ _ => rfl
      rw [advance_frame h]
      exact Or.inl (hkept.trans f3)
  | advance s₁ _ _ _ hmore _ h =>
      rw [advance_frame h]
      exact Or.inl hmore.frame.2.2.1
  | snark _ _ _ _ _ => exact Or.inl rfl
  | ended _ _ => exact Or.inl rfl
  | idle _ _ _ _ => exact Or.inl rfl

/-- **THE SPLIT TASK** along a step. -/
theorem World.step_splitStep {a : Action β} (hs : Shape w)
    (h : w.step feat a = some w') : SplitStep w a w' := by
  cases World.step_stepped h with
  | dispatch disk s hd =>
      rcases dispatch_splitTask hs hd with hkept | ⟨hasks, hst⟩
      · exact .other _ _ hkept rfl
      · exact .made disk _ hasks hst rfl
  | quiet a _ => exact .other _ _ rfl rfl
  | getSplit now t hwait ht => exact .handed now _ hwait ht rfl
  | getProve disk now => exact .other _ _ rfl rfl
  | getAgg now t s _ hs =>
      rw [hs]
      exact .other _ _ rfl rfl
  | getSnark now t _ _ => exact .other _ _ rfl rfl
  | onSplit i r now c hc => exact .taken i r now c _ hc rfl rfl
  | onProve i r now c _ =>
      rw [onProveTask_eq]
      exact .other _ _ rfl rfl
  | onAgg i r now io c t s file _ hon =>
      obtain ⟨rfl, _, _⟩ := onAggTask_eq hon
      exact .other _ _ rfl rfl
  | onSnark i r now io c t s file _ _ hs =>
      rw [hs]
      exact .other _ _ rfl rfl

/-! ## Who asks for what -/

/-- The split task of the request `g` and its copies have the paths of `g`,
    and `out` holds once the split is done. -/
structure Routed (g : GenerateTask β) (out : Prop) (w : World β) : Prop where
  task   : w.stage.splitTask.state ≠ .Initial → w.stage.splitTask.Asks g
  copies : ∀ c ∈ w.splits, c.Asks g
  done   : w.stage.splitTask.state = .Success → out

variable {out : Prop}

theorem Routed.start (g : GenerateTask β) (file : Option β) :
    Routed g out (World.start g file) :=
  ⟨fun h => absurd rfl h, fun c hc => absurd hc List.not_mem_nil,
    fun h => by cases h⟩

omit [Blob β] in
theorem Routed.mono {out' : Prop} (h : Routed g out w) (hout : out → out') :
    Routed g out' w :=
  ⟨h.task, h.copies, fun hst => hout (h.done hst)⟩

/-- A split that comes back with success needs `out`. -/
theorem Routed.step {a : Action β} (hw : Reachable feat g w)
    (hg : w.stage.generateTask = g) (h : Routed g out w)
    (hin : ∀ i r now c, a = .onSplit i r now → w.splits[i]? = some c →
      r.state = .Success → out)
    (hstep : w.step feat a = some w') : Routed g out w' := by
  cases World.step_splitStep hw.shape hstep with
  | made disk _ hasks hst hcopies =>
      rw [hg] at hasks
      refine ⟨fun _ => hasks, ?_, fun hs => by cases hst.symm.trans hs⟩
      rw [hcopies]
      exact h.copies
  | handed now _ hwait htask hcopies =>
      have hasks : w'.stage.splitTask.Asks g := by
        have hold := h.task fun hs => by rw [hs] at hwait; cases hwait
        rw [htask]
        exact ⟨hold.segPath, hold.outputPath⟩
      refine ⟨fun _ => hasks, ?_, ?_⟩
      · rw [hcopies]
        intro c hc
        rcases List.mem_append.mp hc with hc | hc
        · exact h.copies c hc
        · rw [List.mem_singleton.mp hc]
          exact hasks
      · rw [htask]
        exact fun hs => by cases hs
  | taken i r now c _ hc hstage hcopies =>
      have hbusy := hw.leases.split_busy (List.mem_of_getElem? hc)
      refine ⟨fun _ => ?_, ?_, ?_⟩
      · have hold := h.task fun hs => by cases hbusy.symm.trans hs
        rw [hstage]
        exact ⟨hold.segPath, hold.outputPath⟩
      · rw [hcopies]
        exact fun c hc => h.copies c (List.mem_of_mem_eraseIdx hc)
      · rw [hstage]
        exact fun hs => hin i r now c rfl hc (onTask_success hbusy hs).1
  | other _ _ htask hcopies =>
      refine ⟨?_, ?_, ?_⟩
      · rw [htask]
        exact h.task
      · rw [hcopies]
        exact h.copies
      · rw [htask]
        exact h.done

omit [Blob β] in
/-- A stage that has succeeded from `Init` has its split done. -/
theorem Phases.split_success (h : Phases g w) (hfrom : g.fromStep = .Init)
    (hsucc : w.stage.isSuccess = true) :
    w.stage.splitTask.state = .Success := by
  have hsnark : w.stage.snarkTask.state = .Success →
      w.stage.splitTask.state = .Success := by
    intro hst
    have hdue := h.due (fun hs => by cases hst.symm.trans hs) hfrom
    exact (h.gen hdue.1.proved.done).1
  rw [Stage.isSuccess, Bool.or_eq_true, decide_eq_true_eq,
    decide_eq_true_eq] at hsucc
  rcases hsucc with hend | hst
  · cases h.ended hend with
    | split hst _ => exact hst
    | composite hp _ => exact (h.gen hp.done).1
    | agg ha _ => exact (h.gen ha.proved.done).1
    | snark hst => exact hsnark hst
  · exact hsnark hst

/-! ## Along the worker -/

/-- The same in a run of the worker; a row that ends with success ends a
    request from `Init` with `out`. -/
def Ctl.Routed (g : GenerateTask β) (out : Prop) : Ctl β → Prop
  | .looping l => ZkmProver.Routed g out l.world
  | .waiting _ w => ZkmProver.Routed g out w
  | .received _ w => ZkmProver.Routed g out w
  | .returned row _ => row.status = .Success → g.fromStep = .Init → out
  | .panicked _ => True

omit [Blob β] in
theorem Ctl.Routed.mono {c : Ctl β} {out' : Prop} (h : c.Routed g out)
    (hout : out → out') : c.Routed g out' := by
  cases c with
  | looping l => exact ZkmProver.Routed.mono h hout
  | waiting l w => exact ZkmProver.Routed.mono h hout
  | received l w => exact ZkmProver.Routed.mono h hout
  | returned row stage => exact fun hs hfrom => hout (h hs hfrom)
  | panicked row => trivial

theorem Routed.handOuts {clock : Nat → Nat} {disk : Disk β}
    (hw : Reachable feat g w) (hfrom : g.fromStep = .Init ∨ g.fromStep = .Agg)
    (h : Routed g out w) (hs : handOuts feat clock disk w = some w') :
    Routed g out w' := by
  have hboth : Reachable feat g w' ∧ Routed g out w' := by
    refine handOuts_inv (I := fun v => Reachable feat g v ∧ Routed g out v)
      ?_ ⟨hw, h⟩ hs
    rintro a v v' hget ⟨hv, hr⟩ hstep
    refine ⟨hv.step hstep, hr.step hv (hv.phases hfrom).request ?_ hstep⟩
    rintro i r now c rfl
    cases hget
  exact hboth.2

omit [Blob β] in
theorem errorStatus_ne (step : Step) : errorStatus step ≠ .Success := by
  cases step <;> rintro ⟨⟩

theorem finish_routed (hfrom : g.fromStep = .Init ∨ g.fromStep = .Agg)
    (hw : Reachable feat g w) (h : Routed g out w)
    (hend : (w.stage.isSuccess || w.stage.isError) = true) (duration : Nat)
    (l : Loop β) : (finish duration l w).Routed g out := by
  rw [finish]
  split
  case isTrue => exact fun hs => absurd hs (errorStatus_ne _)
  case isFalse herr =>
    have hout : g.fromStep = .Init → out := by
      intro hinit
      rw [Bool.not_eq_true] at herr
      rw [herr, Bool.or_false] at hend
      exact h.done ((hw.phases hfrom).split_success hinit hend)
    dsimp only
    split
    · trivial
    · split
      · trivial
      · exact fun _ => hout

/-- One third of a turn, in which no split comes back, or one with `out`. -/
theorem Ctl.Routed.step {c c' : Ctl β} {a : Act β}
    (hfrom : g.fromStep = .Init ∨ g.fromStep = .Agg) (hin : Inside feat g c)
    (h : c.Routed g out)
    (hsplit : ∀ i r now t, a = .receive now (.split i r) →
      c.splitCopy i = some t → r.state = .Success → out)
    (hstep : c.step feat a = some c') : c'.Routed g out := by
  cases c with
  | looping l =>
      cases a with
      | handOut clock disk =>
          rw [Ctl.step] at hstep
          split at hstep
          · cases hstep
            trivial
          case _ w hw =>
            cases hstep
            exact ZkmProver.Routed.handOuts hin.reachable hfrom h hw
      | receive now event => cases hstep
      | dispatch now disk duration => cases hstep
  | waiting l w =>
      cases a with
      | handOut clock disk => cases hstep
      | receive now event =>
          rw [Ctl.step] at hstep
          split at hstep
          · cases hstep
            trivial
          case _ w' hw =>
            cases hstep
            rw [receive] at hw
            split at hw
            · cases hw
              exact h
            case _ a ha =>
              refine ZkmProver.Routed.step hin.2 (hin.2.phases hfrom).request h
                ?_ hw
              rintro i r now' t rfl ht hst
              cases event with
              | split j r' =>
                  cases ha
                  exact hsplit i r now t rfl ht hst
              | _ => cases ha
      | dispatch now disk duration => cases hstep
  | received l w =>
      cases a with
      | handOut clock disk => cases hstep
      | receive now event => cases hstep
      | dispatch now disk duration =>
          rw [← Option.some.inj hstep, conclude]
          split
          case isTrue hend => exact finish_routed hfrom hin.2 h hend duration l
          case isFalse =>
            split
            · trivial
            case _ w' hw =>
              show ZkmProver.Routed g out (l.dispatched _ now w').world
              rw [dispatched_world]
              refine ZkmProver.Routed.step hin.2 (hin.2.phases hfrom).request h
                ?_ hw
              rintro i r now' t ⟨⟩
  | returned row stage => cases hstep
  | panicked row => cases hstep

/-- A single-node request whose reply is no success ends without one. -/
theorem Ctl.Routed.start {task : StageTask β} {row : StageRow} {b : Boot β}
    (hctx : task.context = .request g) (hrow : row.status ≠ .Success)
    (hsingle : b.single.state ≠ .Success) :
    (runStageTask feat task row b).Routed g out := by
  rw [runStageTask, hctx]
  dsimp only
  split
  · rw [runSingleNode]
    split
    · exact fun hs => absurd hs hrow
    · have hon : (Stage.new g).onSingleNodeTask b.io
          (b.single.fill (Stage.new g).getSingleNodeTask)
          = some ({ Stage.new g with isError := true }, none) := if_neg hsingle
      dsimp only
      rw [hon]
      exact fun hs => by cases hs
  · split
    · trivial
    case _ w hw =>
      refine ZkmProver.Routed.step (.start g b.file) rfl (.start g b.file) ?_ hw
      rintro i r now c ⟨⟩

end

/-! ## What the file operations leave -/

section

variable {κ : Type} [DecidableEq κ] {resolve : String → κ} {s : Site κ}
  {f : κ}

theorem put_self (content : List UInt8) :
    (s.put f content).files f = some content := Function.update_self ..

theorem put_keeps {f' : κ} {content : List UInt8}
    (h : (s.files f).isSome = true) :
    ((s.put f' content).files f).isSome = true := by
  by_cases hf : f = f'
  · rw [hf, put_self]
    rfl
  · have hsame : (s.put f' content).files f = s.files f :=
      Function.update_of_ne hf ..
    rw [hsame]
    exact h

theorem attempt_present {op : FileOp} {answer : IoAnswer}
    (h : f ∈ (s.attempt resolve op answer).touched) :
    ((s.attempt resolve op answer).site.files f).isSome = true := by
  have hput : ∀ path content, f ∈ [resolve path] →
      ((s.put (resolve path) content).files f).isSome = true := by
    intro path content hf
    rw [List.mem_singleton.mp hf, put_self]
    rfl
  cases op with
  | createDirAll path => cases answer <;> exact absurd h List.not_mem_nil
  | write path content =>
      cases answer with
      | ok => exact hput path content h
      | refused => exact absurd h List.not_mem_nil
      | cut left => exact hput path left h

/-- A file that was touched is there. -/
theorem perform_present {ops : List FileOp} {answers : Nat → IoAnswer}
    (h : f ∈ (s.perform resolve ops answers).touched) :
    ((s.perform resolve ops answers).site.files f).isSome = true := by
  induction ops generalizing s answers with
  | nil => exact absurd h List.not_mem_nil
  | cons op ops ih =>
      rw [Site.perform] at h ⊢
      dsimp only at h ⊢
      split at h
      case isTrue hdone =>
        rw [if_pos hdone]
        dsimp only at h ⊢
        by_cases hrest : f ∈ ((s.attempt resolve op (answers 0)).site.perform
            resolve ops fun n => answers (n + 1)).touched
        · exact ih hrest
        · rw [perform_frame.2 hrest]
          rcases List.mem_append.mp h with hfirst | hlast
          · exact attempt_present hfirst
          · exact absurd hlast hrest
      case isFalse hdone =>
        rw [if_neg hdone]
        exact attempt_present h

/-- No file goes away. -/
theorem perform_keeps {ops : List FileOp} {answers : Nat → IoAnswer}
    (h : (s.files f).isSome = true) :
    ((s.perform resolve ops answers).site.files f).isSome = true := by
  by_cases hf : f ∈ (s.perform resolve ops answers).touched
  · exact perform_present hf
  · rw [perform_frame.2 hf]
    exact h

theorem perform_origin {ops : List FileOp} {answers : Nat → IoAnswer}
    (h : f ∈ (s.perform resolve ops answers).touched) :
    ∃ path content, FileOp.write path content ∈ ops ∧ f = resolve path := by
  obtain ⟨k, path, content, hk, _, _, hf⟩ := perform_touched.mp h
  exact ⟨path, content, List.mem_of_getElem? hk, hf⟩

/-! ## A split that succeeds -/

theorem SplitCall.reply_success {call : SplitCall} {done : Bool}
    {t : SplitTask (List UInt8)} (h : (call.reply done t).state = .Success) :
    done = true ∧ ∃ addrs totalStep segments values io answered,
      call = .ran addrs (.ran totalStep segments values) io answered := by
  cases call with
  | unreached => cases h
  | ran addrs e io answered =>
      cases answered with
      | false => cases h
      | true =>
          cases e with
          | unread => cases h
          | rejected => cases h
          | ran totalStep segments values =>
              cases done with
              | false => cases h
              | true =>
                  exact ⟨rfl, addrs, totalStep, segments, values, io, true, rfl⟩

/-- **THE OUTPUT STREAM** is written where a split succeeds. -/
theorem SplitCall.output_touched {call : SplitCall}
    {t : SplitTask (List UInt8)}
    (h : (call.reply (call.perform resolve s t).done t).state = .Success) :
    resolve t.outputPath ∈ (call.perform resolve s t).touched := by
  obtain ⟨hdone, addrs, totalStep, segments, values, io, answered, rfl⟩ :=
    reply_success h
  rw [SplitCall.perform] at hdone ⊢
  have hall := perform_done.mp hdone
  have hlast : ((Emulation.ran totalStep segments values).files t)[
      segments.length + 1]? = some (.write t.outputPath values) := by
    rw [Emulation.files, List.getElem?_append_right (by simp)]
    simp
  have hlt := (List.getElem?_eq_some_iff.mp hlast).1
  refine perform_touched.mpr ⟨_, _, _, hlast, ?_, ?_, rfl⟩
  · exact fun j hj => hall j (hj.trans hlt)
  · rw [hall _ hlt]
    rintro ⟨⟩

theorem SplitCall.perform_origin {call : SplitCall}
    {t : SplitTask (List UInt8)}
    (h : f ∈ (call.perform resolve s t).touched) :
    f = resolve t.outputPath ∨
      ∃ name, f = resolve (t.segPath ++ "/" ++ name) := by
  cases call with
  | unreached => exact absurd h List.not_mem_nil
  | ran addrs e io answered =>
      obtain ⟨path, content, hop, rfl⟩ := ZkmProver.perform_origin h
      cases e with
      | unread => exact absurd hop List.not_mem_nil
      | rejected => exact absurd hop List.not_mem_nil
      | ran totalStep segments values =>
          rw [Emulation.files, List.mem_append, List.mem_cons, List.mem_map,
            List.mem_singleton] at hop
          rcases hop with (hdir | ⟨segment, _, hseg⟩) | hout
          · cases hdir
          · cases hseg
            exact Or.inr ⟨segment.1, rfl⟩
          · cases hout
            exact Or.inl rfl

/-! ## Who has written what -/

/-- The paths that `generate_proof`, the split and the stage write. -/
inductive Origin (ops : List FileOp) (g : GenerateTask (List UInt8)) :
    String → Prop where
  | upload (path : String) (content : List UInt8) :
      .write path content ∈ ops → Origin ops g path
  | snark : Origin ops g g.snarkPath
  | segment (name : String) : g.fromStep = .Init →
      Origin ops g (g.segPath ++ "/" ++ name)
  | output : g.fromStep = .Init → Origin ops g g.outputStreamPath

/-- What holds of the proof of the request `g` whose upload was `ops`. -/
structure Sourced (resolve : String → κ) (ops : List FileOp)
    (g : GenerateTask (List UInt8)) (s : Served κ) : Prop where
  inside  : Inside .prover g s.ctl
  routed  : s.ctl.Routed g (resolve g.outputStreamPath ∈ s.written)
  present : ∀ f ∈ s.written, (s.site.files f).isSome = true
  origin  : ∀ f ∈ s.written, ∃ path, f = resolve path ∧ Origin ops g path

variable {ops : List FileOp} {g : GenerateTask (List UInt8)}
  {v v' : Served κ}

omit [DecidableEq κ] in
/-- A copy of the split task is out in a request from `Init` only. -/
theorem Sourced.copy (hfrom : g.fromStep = .Init ∨ g.fromStep = .Agg)
    (h : Sourced resolve ops g v) {i : Nat} {t : SplitTask (List UInt8)}
    (ht : v.ctl.splitCopy i = some t) : g.fromStep = .Init ∧ t.Asks g := by
  obtain ⟨ctl, site, written⟩ := v
  obtain ⟨hin, hrouted, _, _⟩ := h
  cases ctl with
  | waiting l w =>
      have hmem : t ∈ w.splits := List.mem_of_getElem? ht
      refine ⟨?_, hrouted.copies t hmem⟩
      rcases hfrom with hinit | hagg
      · exact hinit
      · have hidle := ((hin.2.phases (Or.inr hagg)).idle hagg).split
        cases hidle.symm.trans (hin.2.leases.split_busy hmem)
  | _ => cases ht

theorem Sourced.worker (hfrom : g.fromStep = .Init ∨ g.fromStep = .Agg)
    (h : Sourced resolve ops g v) {a : Act (List UInt8)}
    (hs : v.step resolve g.snarkPath (.worker a) = some v') :
    Sourced resolve ops g v' := by
  rw [Served.step] at hs
  split at hs
  case isTrue => cases hs
  case isFalse hno =>
    rw [Option.map_eq_some_iff] at hs
    obtain ⟨ctl, hctl, rfl⟩ := hs
    have hin := h.inside.step hctl
    have hrouted := h.routed.step hfrom h.inside (by
      rintro i r now t rfl
      exact absurd rfl hno) hctl
    cases v.ctl.writes a with
    | none => exact ⟨hin, hrouted, h.present, h.origin⟩
    | some content =>
        refine ⟨hin, hrouted.mono (List.mem_append_left _), ?_, ?_⟩
        · intro f hf
          rcases List.mem_append.mp hf with hold | hnew
          · exact put_keeps (h.present f hold)
          · rw [List.mem_singleton.mp hnew]
            exact congrArg Option.isSome (put_self content)
        · intro f hf
          rcases List.mem_append.mp hf with hold | hnew
          · exact h.origin f hold
          · exact ⟨_, List.mem_singleton.mp hnew, .snark⟩

theorem Sourced.split (hfrom : g.fromStep = .Init ∨ g.fromStep = .Agg)
    (h : Sourced resolve ops g v) {i now : Nat} {call : SplitCall}
    (hs : v.step resolve g.snarkPath (.split i now call) = some v') :
    Sourced resolve ops g v' := by
  rw [Served.step, Option.bind_eq_some_iff] at hs
  obtain ⟨t, ht, hs⟩ := hs
  rw [Option.map_eq_some_iff] at hs
  obtain ⟨ctl, hctl, rfl⟩ := hs
  obtain ⟨hinit, hasks⟩ := h.copy hfrom ht
  refine ⟨h.inside.step hctl, ?_, ?_, ?_⟩
  · refine (h.routed.mono (List.mem_append_left _)).step hfrom h.inside ?_ hctl
    rintro j r now' t' heq ht' hst
    cases heq
    cases ht.symm.trans ht'
    rw [← hasks.outputPath]
    exact List.mem_append_right _ (SplitCall.output_touched hst)
  · intro f hf
    rcases List.mem_append.mp hf with hold | hnew
    · have hthere := h.present f hold
      cases call with
      | unreached => exact hthere
      | ran addrs e io answered => exact perform_keeps hthere
    · cases call with
      | unreached => exact absurd hnew List.not_mem_nil
      | ran addrs e io answered => exact perform_present hnew
  · intro f hf
    rcases List.mem_append.mp hf with hold | hnew
    · exact h.origin f hold
    · rcases SplitCall.perform_origin hnew with hout | ⟨name, hseg⟩
      · rw [hasks.outputPath] at hout
        exact ⟨_, hout, .output hinit⟩
      · rw [hasks.segPath] at hseg
        exact ⟨_, hseg, .segment name hinit⟩

/-- One step of a proof. -/
theorem Sourced.step (hfrom : g.fromStep = .Init ∨ g.fromStep = .Agg)
    (h : Sourced resolve ops g v) {a : ServedAct}
    (hs : v.step resolve g.snarkPath a = some v') :
    Sourced resolve ops g v' := by
  cases a with
  | worker a => exact h.worker hfrom hs
  | split i now call => exact h.split hfrom hs
  | elsewhere path content =>
      cases hs
      exact ⟨h.inside, h.routed, fun f hf => put_keeps (h.present f hf),
        h.origin⟩

/-- **A PROOF'S FILES** in every run. -/
theorem Served.Runs.sourced {row : InsertedRow} {b : Boot (List UInt8)}
    {upload : CallRun κ} {acts : List ServedAct}
    (hfrom : row.context.fromStep = .Init ∨ row.context.fromStep = .Agg)
    (hstatus : row.status = .Computing)
    (hpresent : ∀ f ∈ upload.touched, (upload.site.files f).isSome = true)
    (horigin : ∀ f ∈ upload.touched,
      ∃ path, f = resolve path ∧ Origin ops row.context path)
    (h : Served.Runs resolve row b upload acts v) :
    Sourced resolve ops row.context v := by
  refine run_inv (fun _ _ _ hv hstep => hv.step hfrom hstep) ?_ h
  rw [Served.start]
  refine ⟨?_, ?_, hpresent, horigin⟩
  · dsimp only
    exact Inside.start rfl
  · dsimp only
    refine Ctl.Routed.start rfl ?_ ?_
    · rw [hstatus]
      rintro ⟨⟩
    · rintro ⟨⟩

end

end ZkmProver
