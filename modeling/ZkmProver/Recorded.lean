import ZkmProver.Panics
import ZkmProver.Progress

/-! # Recorded — what a run that stops leaves in the row

    A run stops by a return or by a panic.  `Boot.Clear` and `Ctl.Clear` say
    what each part of a run needs so as not to panic, and a run that has all
    of it returns with a terminal status in the row (`run_recorded`).

    Three of the needs are of the code's own making: a single-node row must
    still be in its first step, a composite proof with the snark proof as its
    target needs a file nobody writes, and `dispatch` must be clear of its own
    panics. -/

namespace ZkmProver

open Forest Keyed Machine

variable {β : Type}

/-- The statuses of a run that failed. -/
def Status.isErrorStatus : Status → Bool
  | .InternalError => true
  | .SplitError => true
  | .ProveError => true
  | .AggError => true
  | .SnarkError => true
  | _ => false

/-- A run that stopped has left SUCCESS in the row if its stage ended without
    an error, and an error status otherwise. -/
def Ctl.Recorded : Ctl β → Prop
  | .returned row (some s) =>
      if s.isError then row.status.isErrorStatus = true
      else row.status = .Success
  | .returned _ none => False
  | .panicked _ => False
  | _ => True

section

variable [Blob β]

/-- The bytes are a string. -/
def Utf8 (x : β) : Prop := (Blob.fromUtf8 x).isSome = true

/-! ## What a run needs -/

/-- What `run_stage_task` needs before the loop. -/
def Boot.Clear (feat : Feature) (task : StageTask β) (g : GenerateTask β)
    (b : Boot β) : Prop :=
  if g.singleNode then
    task.step = .Init ∧ (b.single.state = .Success →
      (g.targetStep = .Agg → b.io = true) ∧
      (g.targetStep = .Snark → Utf8 b.single.output))
  else (Stage.new g).Clear feat b.disk

/-- What a message needs when it is received. -/
def Event.Clear (g : GenerateTask β) (w : World β) : Event β → Prop
  | .agg i r io => ∀ c, w.aggs[i]? = some c → c.isFinal = true →
      r.state = .Success → g.targetStep = .Agg → io = true
  | .snark i r io => ∀ c, w.snarks[i]? = some c → io = true ∧
      (r.state = .Success → g.targetStep = .Snark → Utf8 r.output)
  | _ => True

/-- What is needed behind the loop: only a composite proof has no snark result
    to read back. -/
def FinishClear (g : GenerateTask β) (w : World β) : Prop :=
  w.stage.isError = false → g.fromStep = .Init → g.compositeProof = true →
    g.targetStep = .Snark → ∃ x, w.snarkFile = some x ∧ Utf8 x

/-- What one third of a turn needs. -/
def Ctl.Clear (feat : Feature) (g : GenerateTask β) : Ctl β → Act β → Prop
  | .waiting _ w, .receive _ e => e.Clear g w
  | .received _ w, .dispatch _ disk _ =>
      if w.stage.isSuccess || w.stage.isError then FinishClear g w
      else w.stage.Clear feat disk
  | _, _ => True

/-! ## The snark results of a run -/

variable {feat : Feature} {g : GenerateTask β} {w w' : World β}

/-- Every snark proof that came back can be stored in the row. -/
def Storable (g : GenerateTask β) (w : World β) : Prop :=
  g.targetStep = .Snark → ∀ t, Task.Snark t ∈ w.delivered →
    t.state = .Success → Utf8 t.output

omit [Blob β] in
/-- A successful snark task came back. -/
def SnarkReported (w : World β) : Prop :=
  w.stage.snarkTask.state = .Success → ∃ t, Task.Snark t ∈ w.delivered ∧
    t.state = .Success ∧ t.output = w.stage.snarkTask.output

/-- A move keeps the report: a snark task succeeds by a result that came back.
    -/
theorem SnarkReported.moved (hl : Leases w) (h : SnarkReported w)
    (hm : Moved feat w w') : SnarkReported w' := by
  have hkeep : w'.stage.snarkTask = w.stage.snarkTask → SnarkReported w' := by
    intro hsame hst
    rw [hsame] at hst ⊢
    obtain ⟨t, ht, hts, hout⟩ := h hst
    refine ⟨t, ?_, hts, hout⟩
    rcases hm.delivered with heq | ⟨d, heq⟩
    · rw [heq]
      exact ht
    · rw [heq]
      exact List.mem_cons_of_mem _ ht
  cases hm with
  | snarkNew snark hnew =>
      intro hst
      exact nomatch hnew.state.symm.trans hst
  | finalise s listing hf =>
      cases hf with
      | mk _ _ _ _ _ _ _ _ _ _ _ _ _ _ => exact hkeep rfl
  | snarkOut now t _ ht =>
      intro hst
      rw [ht] at hst
      exact nomatch hst
  | snarkIn i c t r now hi _ hret =>
      intro hst
      have hbusy := hl.snark_busy (List.mem_of_getElem? hi)
      obtain ⟨hsrc, hout⟩ :=
        @onTask_success _ now (r.snark c).toTaskHead _ hbusy hst
      exact ⟨t, List.mem_cons_self .., hret.state.trans hsrc,
        hret.output.trans hout.symm⟩
  | _ => exact hkeep rfl

/-- It holds of every stage that is reached. -/
theorem Reachable.snark_reported (h : Reachable feat g w) :
    SnarkReported w := by
  have hboth : Leases w ∧ SnarkReported w :=
    h.inv (I := fun w => Leases w ∧ SnarkReported w)
      (fun file => ⟨Leases.start g file, fun hst => nomatch hst⟩)
      fun _ _ hs hi hm => ⟨hi.1.moved hs hm, hi.2.moved hi.1 hm⟩
  exact hboth.2

/-- A snark result is received as such, and every other call leaves the
    results alone. -/
theorem World.step_snarks {a : Action β} (h : w.step feat a = some w')
    {t : SnarkTask β} (ht : Task.Snark t ∈ w'.delivered) :
    Task.Snark t ∈ w.delivered ∨ ∃ i r now io c, a = .onSnark i r now io ∧
      w.snarks[i]? = some c ∧ t.state = r.state ∧ t.output = r.output := by
  rcases World.step_delivered h ht with hold | hnew
  · exact Or.inl hold
  · cases hnew with
    | snark i r now io c _ hc hback =>
        exact Or.inr ⟨i, r, now, io, c, rfl, hc, hback.state, hback.output⟩

/-- A step that takes no snark result back keeps what can be stored. -/
theorem Storable.step {a : Action β} (h : Storable g w)
    (hs : w.step feat a = some w')
    (hother : ∀ i r now io, a ≠ .onSnark i r now io) : Storable g w' := by
  intro htarget t ht hst
  rcases World.step_snarks hs ht with hold | ⟨i, r, now, io, _, ha, _⟩
  · exact h htarget t hold hst
  · exact absurd ha (hother i r now io)

/-- The hand-outs of a turn take no result back. -/
theorem Storable.handOuts {clock : Nat → Nat} {disk : Disk β}
    (h : Storable g w) (hs : handOuts feat clock disk w = some w') :
    Storable g w' := by
  refine handOuts_inv (fun a v v' hget hv hstep => hv.step hstep ?_) h hs
  rintro _ _ _ _ rfl
  cases hget

/-! ## Receiving -/

/-- With its files writable a message is received without a panic. -/
theorem receive_total (hreq : w.stage.generateTask = g) (now : Nat)
    {e : Event β} (hclear : e.Clear g w) :
    ∃ w', receive feat now e w = some w' := by
  rw [receive]
  cases e with
  | tick => exact ⟨w, rfl⟩
  | split i r =>
      dsimp only [Event.action]
      rw [World.step]
      split <;> exact ⟨_, rfl⟩
  | prove i r =>
      dsimp only [Event.action]
      rw [World.step]
      split <;> exact ⟨_, rfl⟩
  | agg i r io =>
      dsimp only [Event.action]
      rw [World.step]
      split
      · exact ⟨_, rfl⟩
      case h_2 c hc =>
        have hon : ∃ x, w.stage.onAggTask now io (r.agg c) = some x := by
          rw [Stage.onAggTask]
          dsimp only
          split
          case isTrue hsucc =>
            split
            case isTrue hfinal =>
              rw [Bool.and_eq_true, decide_eq_true_eq] at hfinal
              obtain ⟨hfin, htarget⟩ := hfinal
              have htarget' : g.targetStep = .Agg := by
                rw [← hreq]
                exact htarget
              rw [if_pos (hclear c hc hfin hsucc htarget')]
              exact ⟨_, rfl⟩
            case isFalse => exact ⟨_, rfl⟩
          case isFalse => exact ⟨_, rfl⟩
        obtain ⟨x, hx⟩ := hon
        rw [hx]
        exact ⟨_, rfl⟩
  | snark i r io =>
      dsimp only [Event.action]
      rw [World.step]
      split
      · exact ⟨_, rfl⟩
      case h_2 c hc =>
        rw [Stage.onSnarkTask, if_pos (hclear c hc).1]
        exact ⟨_, rfl⟩

/-- A result that is clear can be stored. -/
theorem Storable.receive {now : Nat} {e : Event β} (h : Storable g w)
    (hclear : e.Clear g w) (hs : receive feat now e w = some w') :
    Storable g w' := by
  rw [ZkmProver.receive] at hs
  cases e with
  | tick =>
      cases hs
      exact h
  | split i r => exact h.step hs (by rintro _ _ _ _ ⟨⟩)
  | prove i r => exact h.step hs (by rintro _ _ _ _ ⟨⟩)
  | agg i r io => exact h.step hs (by rintro _ _ _ _ ⟨⟩)
  | snark i r io =>
      intro htarget t ht hst
      rcases World.step_snarks hs ht with hold | ⟨j, q, n, o, c, ha, hc, hts, hto⟩
      · exact h htarget t hold hst
      · cases ha
        rw [hto]
        exact (hclear c hc).2 (hts.symm.trans hst) htarget

/-! ## Finishing -/

omit [Blob β] in
/-- From given receipts a stage succeeds through its snark task. -/
theorem Phases.snark_success (hp : Phases g w) (hfrom : g.fromStep = .Agg)
    (hsucc : w.stage.isSuccess = true) :
    w.stage.snarkTask.state = .Success := by
  have hidle := hp.idle hfrom
  rw [Stage.isSuccess, Bool.or_eq_true, decide_eq_true_eq,
    decide_eq_true_eq] at hsucc
  rcases hsucc with hend | hst
  · cases hp.ended hend with
    | split hst _ => cases hidle.split.symm.trans hst
    | composite hproved _ => cases hidle.gen.symm.trans hproved.done
    | agg hagg _ => cases hidle.gen.symm.trans hagg.proved.done
    | snark hst => exact hst
  · exact hst

/-- The file that is read back behind the loop is there, and a string. -/
theorem Reachable.file_back (hfrom : g.fromStep = .Init ∨ g.fromStep = .Agg)
    (h : Reachable feat g w) (hstor : Storable g w) (hclear : FinishClear g w)
    (hsucc : w.stage.isSuccess = true) (herr : w.stage.isError = false)
    (htarget : g.targetStep = .Snark) :
    ∃ x, w.snarkFile = some x ∧ Utf8 x := by
  have hp := h.phases hfrom
  have hmade : w.stage.snarkTask.state = .Success →
      ∃ x, w.snarkFile = some x ∧ Utf8 x := by
    intro hst
    obtain ⟨t, ht, hts, hout⟩ := h.snark_reported hst
    refine ⟨_, (h.files hfrom).snark hst, ?_⟩
    rw [← hout]
    exact hstor htarget t ht hts
  rcases hfrom with hf | hf
  · rcases hp.outcome hf hsucc with ⟨_, ht⟩ | ⟨_, hc⟩ | ⟨_, ht | ⟨_, hst⟩⟩
    · exact nomatch htarget.symm.trans ht
    · exact hclear herr hf hc htarget
    · exact nomatch htarget.symm.trans ht
    · exact hmade hst
  · exact hmade (hp.snark_success hf hsucc)

/-- What holds at every point of a clear run. -/
structure Kept (feat : Feature) (g : GenerateTask β) (c : Ctl β) : Prop where
  inside   : Inside feat g c
  recorded : c.Recorded
  storable : match c with
    | .looping l => Storable g l.world
    | .waiting _ w => Storable g w
    | .received _ w => Storable g w
    | _ => True

/-- A run that has returned is kept if its row says how it ended. -/
theorem Kept.returned {row : StageRow} {s : Stage β}
    (h : if s.isError then row.status.isErrorStatus = true
      else row.status = .Success) :
    Kept feat g (.returned row (some s)) :=
  ⟨trivial, h, trivial⟩

omit [Blob β] in
/-- Every step has an error status. -/
theorem errorStatus_isErrorStatus (step : Step) :
    (errorStatus step).isErrorStatus = true := by
  cases step <;> rfl

/-- The code behind the loop records the end of the run. -/
theorem finish_kept (hfrom : g.fromStep = .Init ∨ g.fromStep = .Agg)
    (h : Reachable feat g w) (hstor : Storable g w) (hclear : FinishClear g w)
    (hend : (w.stage.isSuccess || w.stage.isError) = true) (duration : Nat)
    (l : Loop β) : Kept feat g (finish duration l w) := by
  have hreq := (h.phases hfrom).request
  rw [finish]
  cases herr : w.stage.isError with
  | true =>
      rw [if_pos rfl]
      refine .returned ?_
      rw [if_pos herr]
      exact errorStatus_isErrorStatus _
  | false =>
      have hsucc : w.stage.isSuccess = true := by
        rw [herr, Bool.or_false] at hend
        exact hend
      have hrow : ∀ (row : StageRow) (result : String), Kept feat g
          (.returned (row.updateStageTask .Success result)
            (some w.stage)) := by
        intro row result
        refine .returned ?_
        rw [herr]
        rfl
      rw [if_neg Bool.false_ne_true, hreq]
      by_cases htarget : g.targetStep = .Snark
      · obtain ⟨x, hfile, hutf⟩ :=
          h.file_back hfrom hstor hclear hsucc herr htarget
        obtain ⟨result, hresult⟩ := Option.isSome_iff_exists.mp hutf
        rw [if_pos htarget, hfile, Option.map_some, hresult]
        exact hrow _ result
      · rw [if_neg htarget]
        exact hrow _ ""

/-! ## The whole run -/

/-- So does the run of a single-node request. -/
theorem singleNode_recorded {task : StageTask β} {b : Boot β}
    (hstep : task.step = .Init) (hclear : b.single.state = .Success →
      (g.targetStep = .Agg → b.io = true) ∧
      (g.targetStep = .Snark → Utf8 b.single.output)) (row : StageRow) :
    Kept feat g (runSingleNode task row b (Stage.new g)) := by
  have hnew : (Stage.new g).generateTask = g := rfl
  have hout : (b.single.fill (Stage.new g).getSingleNodeTask).output
      = b.single.output := rfl
  have hstate : (b.single.fill (Stage.new g).getSingleNodeTask).state
      = b.single.state := rfl
  rw [runSingleNode, if_neg (not_not.mpr hstep)]
  dsimp only
  rw [Stage.onSingleNodeTask, hnew, hstate]
  by_cases hst : b.single.state = .Success
  · obtain ⟨hio, hutf⟩ := hclear hst
    rw [if_pos hst]
    by_cases hagg : g.targetStep = .Agg
    · rw [if_pos hagg, if_pos (hio hagg)]
      dsimp only
      rw [if_neg (show ¬ (Stage.new g).isError = true from (by rintro ⟨⟩)),
        if_neg (by rw [hagg]; rintro ⟨⟩)]
      exact .returned rfl
    · rw [if_neg hagg]
      dsimp only
      rw [if_neg (show ¬ (Stage.new g).isError = true from (by rintro ⟨⟩))]
      by_cases hsnark : g.targetStep = .Snark
      · obtain ⟨result, hresult⟩ := Option.isSome_iff_exists.mp (hutf hsnark)
        rw [if_pos hsnark, hout, hresult]
        exact .returned rfl
      · rw [if_neg hsnark]
        exact .returned rfl
  · rw [if_neg hst]
    exact .returned rfl

/-- The run starts in a state that is kept. -/
theorem Kept.start {task : StageTask β} {row : StageRow} {b : Boot β}
    (hfrom : g.fromStep = .Init ∨ g.fromStep = .Agg)
    (hctx : task.context = .request g) (hclear : b.Clear feat task g) :
    Kept feat g (runStageTask feat task row b) := by
  have hinside : Inside feat g (runStageTask feat task row b) :=
    Inside.start hctx
  rw [Boot.Clear] at hclear
  rw [runStageTask, hctx] at hinside ⊢
  dsimp only at hinside ⊢
  by_cases hsingle : g.singleNode = true
  · rw [if_pos hsingle] at hclear ⊢
    exact singleNode_recorded hclear.1 hclear.2 row
  · rw [if_neg hsingle] at hclear hinside ⊢
    have hstart : Reachable feat g (World.start g b.file) := .start g b.file
    have hdisp := (hstart.dispatch_clear hfrom b.disk).mpr hclear
    obtain ⟨s, hs⟩ := Option.isSome_iff_exists.mp hdisp
    rw [World.step, hs] at hinside ⊢
    exact ⟨hinside, trivial, fun _ t ht => absurd ht List.not_mem_nil⟩

/-- Every third of a turn keeps it. -/
theorem Kept.step {c c' : Ctl β} {a : Act β}
    (hfrom : g.fromStep = .Init ∨ g.fromStep = .Agg)
    (hclear : c.Clear feat g a) (h : Kept feat g c)
    (hstep : c.step feat a = some c') : Kept feat g c' := by
  have hinside := h.inside.step hstep
  cases c with
  | looping l =>
      cases a with
      | handOut clock disk =>
          obtain ⟨w, hw, _⟩ := h.inside.reachable.handOuts_total clock disk
          rw [Ctl.step, hw] at hstep
          cases hstep
          exact ⟨hinside, trivial, Storable.handOuts h.storable hw⟩
      | receive now event => cases hstep
      | dispatch now disk duration => cases hstep
  | waiting l w =>
      cases a with
      | handOut clock disk => cases hstep
      | receive now event =>
          have hreq := (h.inside.2.phases hfrom).request
          obtain ⟨w', hw⟩ : ∃ w', receive feat now event w = some w' :=
            receive_total hreq now hclear
          rw [Ctl.step, hw] at hstep
          cases hstep
          exact ⟨hinside, trivial, Storable.receive h.storable hclear hw⟩
      | dispatch now disk duration => cases hstep
  | received l w =>
      cases a with
      | handOut clock disk => cases hstep
      | receive now event => cases hstep
      | dispatch now disk duration =>
          have hc : conclude feat now disk duration l w = c' :=
            Option.some.inj hstep
          rw [conclude] at hc
          rw [Ctl.Clear] at hclear
          -- the loop is left, or `dispatch` is asked for the next tasks
          by_cases hend : (w.stage.isSuccess || w.stage.isError) = true
          · rw [if_pos hend] at hc hclear
            subst hc
            exact finish_kept hfrom h.inside.2 h.storable hclear hend
              duration l
          · rw [if_neg hend] at hc hclear
            have hdisp := (h.inside.2.dispatch_clear hfrom disk).mpr hclear
            obtain ⟨s, hs⟩ := Option.isSome_iff_exists.mp hdisp
            rw [World.step, hs] at hc
            subst hc
            refine ⟨hinside, trivial, ?_⟩
            show Storable g (l.dispatched _ now _).world
            rw [dispatched_world]
            exact h.storable
  | returned row stage => cases hstep
  | panicked row => cases hstep

/-- A composite proof of a request without files needs nothing of the tree. -/
theorem clear_composite {s : Stage β} {disk : Disk β} (hstep : s.step = .Prove)
    (hcomp : s.generateTask.compositeProof = true)
    (hblock : s.generateTask.blockNo = none)
    (hpath : s.generateTask.receiptInputsPath = "") : s.Clear .prover disk := by
  have hready : s.generateTask.Ready disk :=
    Or.inr ⟨by rw [hblock]; rfl, Or.inl hpath⟩
  rw [Stage.Clear, hstep]
  intro _ _
  refine ⟨Or.inr hready, fun _ => ⟨Or.inr hready, ?_, ?_, ?_⟩⟩
  · intro hfeat
    cases hfeat
  · intro hfeat
    cases hfeat
  · intro _ hno
    rw [hcomp] at hno
    cases hno

end

/-- A composite proof, which ends with its prove tasks. -/
def composedRequest : GenerateTask (List UInt8) :=
  { aggRequest with compositeProof := true, maxProverNum := 1 }

/-- A split or prove result comes in, or nothing; a stage that has not
    succeeded is one of the composite request. -/
def Ctl.composing : Ctl β → Act β → Bool
  | .waiting _ _, .receive _ (.agg _ _ _) => false
  | .waiting _ _, .receive _ (.snark _ _ _) => false
  | .received _ w, .dispatch _ _ _ =>
      w.stage.isSuccess ||
        (!w.stage.isError && w.stage.step = .Prove &&
          w.stage.generateTask.compositeProof &&
          w.stage.generateTask.blockNo = none &&
          w.stage.generateTask.receiptInputsPath = "")
  | _, _ => true

/-- A turn of the composed run that passes the test is clear. -/
theorem Ctl.composing.clear {c : Ctl (List UInt8)} {a : Act (List UInt8)}
    (h : c.composing a = true) : c.Clear .prover composedRequest a := by
  cases c with
  | waiting l w =>
      cases a with
      | receive now e =>
          cases e with
          | agg i r io => cases h
          | snark i r io => cases h
          | _ => trivial
      | _ => trivial
  | received l w =>
      cases a with
      | dispatch now disk duration =>
          rw [Ctl.Clear]
          by_cases hsucc : w.stage.isSuccess = true
          · rw [hsucc, Bool.true_or, if_pos rfl]
            intro _ _ _ htarget
            cases htarget
          · rw [Ctl.composing] at h
            rw [Bool.not_eq_true] at hsucc
            rw [hsucc, Bool.false_or] at h
            simp only [Bool.and_eq_true, decide_eq_true_eq,
              Bool.not_eq_true'] at h
            obtain ⟨⟨⟨⟨herr, hstep⟩, hcomp⟩, hblock⟩, hpath⟩ := h
            rw [hsucc, herr, Bool.or_self, if_neg Bool.false_ne_true]
            exact clear_composite hstep hcomp hblock hpath
      | _ => trivial
  | looping | returned | panicked => cases a <;> trivial

end ZkmProver
