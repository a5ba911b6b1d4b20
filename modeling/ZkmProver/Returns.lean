import ZkmProver.ProverNum
import ZkmProver.Scheduler

/-! # What a call returns — a settled state, or PROCESSING

    `split`, `prove` and `aggregate` begin by setting the state of the task to
    UNPROCESSED; `snark_proof` does not, and sets it on some of its ways out
    only (`Call.Kept`).  A `snark_proof` that finds the limit reached returns
    the task as it was handed out, in PROCESSING, and the stage ignores such a
    result: its own copy stays in PROCESSING.  It also does when the call
    panics, for want of a node or because an earlier call did. -/

namespace ZkmProver

open Keyed Machine

variable {β : Type}

/-! ## The state of the task of a call -/

/-- The state of the task, whichever it is. -/
def Job.state (job : Job β) : TaskState := job.head.state

@[simp] theorem setState_state (state : TaskState) (job : Job β) :
    (job.setState state).state = state := by
  cases job <;> rfl

/-- The state of the task while a call runs. -/
def Job.running : Job β → TaskState
  | .snarkProof _ => .Processing
  | _ => .Unprocessed

/-- The state of the task at every point of a call. -/
def Call.Kept (c : Call β) : Prop :=
  match c.pc with
  | .entry => c.job.taskType ≠ .SingleNode → c.job.state = .Processing
  | .answered _ r => c.job.state = c.job.running ∧ ∀ x ∈ r, x.Sent
  | .release _ r => c.job.state = c.job.running ∧ ∀ x ∈ r, x.Sent
  | .returned .noClient => c.job.state = .Unprocessed
  | .returned (.skipped _) => c.job.state = .Unprocessed
  | .returned (.failed _) => c.job.taskType = .SingleNode
  | .returned (.replied _) => c.job.state.settled = true
  | _ => c.job.state = c.job.running

/-- At the entry the task takes the state in which its call runs. -/
theorem enter_state {job : Job β}
    (h : job.taskType ≠ .SingleNode → job.state = .Processing) :
    job.enter.state = job.enter.running := by
  cases job with
  | snarkProof t => exact h nofun
  | split t => rfl
  | prove t => rfl
  | aggregate t => rfl
  | singleNode t => rfl

/-- A call without a client leaves its task `Unprocessed`. -/
theorem noClient_state {job : Job β} (h : job.state = job.running) :
    job.noClient.state = .Unprocessed := by
  cases job with
  | snarkProof t => rfl
  | split t => exact h
  | prove t => exact h
  | aggregate t => exact h
  | singleNode t => exact h

/-- The codes that are sent settle a task. -/
theorem resultCode_settled {code : Int} (h : code = 0 ∨ code = 2 ∨ code = 3) :
    (resultCodeToState code).settled = true := by
  rcases h with rfl | rfl | rfl <;> rfl

/-- **SETTLED**: a reply settles the task. -/
theorem reply_state {job : Job β} (h : job.state = job.running)
    (addrs : String) {r : Option (Response β)} (hr : ∀ x ∈ r, x.Sent) :
    (job.reply addrs r).state.settled = true := by
  cases r with
  | none =>
      cases job with
      | snarkProof t => rfl
      | split t => exact congrArg TaskState.settled h
      | prove t => exact congrArg TaskState.settled h
      | aggregate t => exact congrArg TaskState.settled h
      | singleNode t => exact congrArg TaskState.settled h
  | some x =>
      have hx : x.Sent := hr x rfl
      cases job with
      | snarkProof t =>
          show (snarkReply addrs (some x) t).state.settled = true
          rw [snarkReply]
          dsimp only
          split <;> rfl
      | split t =>
          show (splitReply addrs (some x) t).state.settled = true
          rw [splitReply]
          cases hcode : x.code with
          | none => exact congrArg TaskState.settled h
          | some code => exact resultCode_settled (hx code hcode)
      | prove t =>
          show (proveReply addrs (some x) t).state.settled = true
          rw [proveReply]
          cases hcode : x.code with
          | none => exact congrArg TaskState.settled h
          | some code => exact resultCode_settled (hx code hcode)
      | aggregate t =>
          show (aggReply addrs (some x) t).state.settled = true
          rw [aggReply]
          cases hcode : x.code with
          | none => exact congrArg TaskState.settled h
          | some code => exact resultCode_settled (hx code hcode)
      | singleNode t =>
          show (singleReply addrs (some x) t).state.settled = true
          rw [singleReply]
          cases hcode : x.code with
          | none => exact congrArg TaskState.settled h
          | some code => exact resultCode_settled (hx code hcode)

section

variable {sh sh' : Shared} {c c' : Call β} {a : Answer β}

/-- Only the program counter and the job are read. -/
theorem kept_of_pc {pc : Pc β} (hpc : c.pc = pc) (h : c.Kept) :
    Call.Kept { c with pc := pc } := by
  rw [← hpc]
  exact h

/-- Every step of a call keeps the state its point asks for. -/
theorem Proceeds.kept (h : Proceeds sh c a sh' c')
    (ha : ∀ r, a = .response (some r) → r.Sent) (hc : c.Kept) : c'.Kept := by
  have same : ∀ {pc : Pc β}, c.pc = pc → Call.Kept { c with pc := pc } :=
    fun hpc => kept_of_pc hpc hc
  have sent : ∀ {r : Option (Response β)}, a = .response r →
      ∀ x ∈ r, x.Sent := by
    intro r hr x hx
    rw [Option.mem_def.mp hx] at hr
    exact ha x hr
  cases h with
  | single t hpc hjob => exact enter_state (same hpc)
  | limit hpc _ _ => exact enter_state (same hpc)
  | enter hpc _ _ => exact enter_state (same hpc)
  | panic nodes hpc _ => exact (same hpc :)
  | order nodes all hpc _ _ => exact (same hpc :)
  | pass n nodes now hpc => exact (same hpc :)
  | lease n nodes now client hpc _ _ => exact (same hpc :)
  | connected n nodes ok now client hpc => exact (same hpc :)
  | refused n nodes ok now hpc => exact (same hpc :)
  | again t hpc _ => exact (same hpc :)
  | noClient hpc _ => exact noClient_state (same hpc)
  | late n hpc _ _ => exact (same hpc :)
  | count n hpc _ _ => exact (same hpc :)
  | updated n t hpc _ => exact (same hpc :)
  | failed n t _ hjob =>
      show c.job.taskType = .SingleNode
      rw [hjob]
      rfl
  | skipped n t hpc hjob _ =>
      have hstate : c.job.state = c.job.running := (same hpc :)
      rw [hjob] at hstate
      show c.job.state = .Unprocessed
      rw [hjob]
      exact hstate
  | send n hpc _ => exact (same hpc :)
  | answered n r hpc => exact ⟨(same hpc :), sent rfl⟩
  | alone n r hpc => exact ⟨(same hpc :), sent rfl⟩
  | uncount n r hpc => exact (same hpc :)
  | giveBack n r now status hpc _ =>
      obtain ⟨hstate, hsent⟩ := same hpc
      exact reply_state hstate (sh.addr n) hsent

end

/-- No call panics, and the mutex is not poisoned, where there is a node. -/
structure Pool.Unspoilt (nodes : List String) (p : Pool β) : Prop where
  same     : p.shared.proverNodes = nodes
  poisoned : p.shared.poisoned = true → nodes = []
  panicked : ∀ c ∈ p.calls, c.pc = .panicked → nodes = []

/-- The mutex is poisoned, or a call panics, only where it was poisoned before
    or no node is listed. -/
theorem Proceeds.poisoned {sh sh' : Shared} {c c' : Call β} {a : Answer β}
    (h : Proceeds sh c a sh' c') :
    (sh'.poisoned = true ∨ c'.pc = .panicked) →
      sh.poisoned = true ∨ sh.proverNodes = [] := by
  cases h with
  | panic nodes _ hnone =>
      intro _
      exact (getNodes_eq_none.mp hnone).imp_right And.right
  | _ =>
      rintro (hp | hpc)
      · exact .inl hp
      · cases hpc

/-- Every step keeps a pool with a node unspoilt. -/
theorem Pool.Unspoilt.moved {nodes : List String} {p p' : Pool β}
    {a : PoolAction β} (h : p.Unspoilt nodes) (hm : PoolMoved p a p') :
    p'.Unspoilt nodes := by
  cases hm with
  | call stage maxProverNum job =>
      refine ⟨h.same, h.poisoned, fun d hd hpc => ?_⟩
      rcases List.mem_append.mp hd with hold | hnew
      · exact h.panicked d hold hpc
      · rw [List.mem_singleton.mp hnew] at hpc
        cases hpc
  | proceed i e c c' sh' hc hp =>
      have hempty : (sh'.poisoned = true ∨ c'.pc = .panicked) → nodes = [] := by
        intro hbad
        rcases hp.poisoned hbad with hold | hnone
        · exact h.poisoned hold
        · exact h.same.symm.trans hnone
      refine ⟨hp.fixed.2.2.2.1.trans h.same, fun hbad => hempty (.inl hbad),
        fun d hd hpc => ?_⟩
      rcases List.mem_or_eq_of_mem_set hd with hold | rfl
      · exact h.panicked d hold hpc
      · exact hempty (.inr hpc)

/-- The second task is the first with a reply filled in: what the scheduler
    takes a result to be. -/
inductive Job.Filled : Job β → Job β → Prop where
  | split (r : SplitReply) (t : SplitTask β) :
      Filled (.split t) (.split (r.split t))
  | prove (r : Reply β) (t : ProveTask β) :
      Filled (.prove t) (.prove (r.prove t))
  | aggregate (r : Reply β) (t : AggTask β) :
      Filled (.aggregate t) (.aggregate (r.agg t))
  | snarkProof (r : Reply β) (t : SnarkTask β) :
      Filled (.snarkProof t) (.snarkProof (r.snark t))
  | singleNode (t t' : SingleNodeTask β) :
      Filled (.singleNode t) (.singleNode t')

/-- A reply that changes the state only. -/
def Reply.only (state : TaskState) (t : TaskHead β) : Reply β where
  state := state
  nodeInfo := t.trace.nodeInfo
  output := t.output

/-- The same for a split. -/
def SplitReply.only (state : TaskState) (t : SplitTask β) : SplitReply where
  state := state
  nodeInfo := t.trace.nodeInfo
  totalSteps := t.totalSteps
  totalSegments := t.totalSegments

/-- Writing the state is one of the fillings. -/
theorem filled_setState (state : TaskState) (job : Job β) :
    job.Filled (job.setState state) := by
  cases job with
  | split t => exact .split (.only state t) t
  | prove t => exact .prove (.only state t.toTaskHead) t
  | aggregate t => exact .aggregate (.only state t.toTaskHead) t
  | snarkProof t => exact .snarkProof (.only state t.toTaskHead) t
  | singleNode t => exact .singleNode t _

theorem Job.Filled.refl (job : Job β) : job.Filled job := by
  have h := filled_setState job.state job
  cases job <;> exact h

theorem Job.Filled.trans {j k l : Job β} (h : j.Filled k) (h' : k.Filled l) :
    j.Filled l := by
  cases h with
  | split r t => cases h' with | split r' _ => exact .split r' t
  | prove r t => cases h' with | prove r' _ => exact .prove r' t
  | aggregate r t => cases h' with | aggregate r' _ => exact .aggregate r' t
  | snarkProof r t => cases h' with | snarkProof r' _ => exact .snarkProof r' t
  | singleNode t u => cases h' with | singleNode _ v => exact .singleNode t v

/-- So is what a call writes at its entry. -/
theorem filled_enter (job : Job β) : job.Filled job.enter := by
  cases job with
  | snarkProof t => exact .refl _
  | split t => exact filled_setState _ _
  | prove t => exact filled_setState _ _
  | aggregate t => exact filled_setState _ _
  | singleNode t => exact filled_setState _ _

/-- So is what it writes without a client. -/
theorem filled_noClient (job : Job β) : job.Filled job.noClient := by
  cases job with
  | snarkProof t => exact filled_setState .Unprocessed _
  | split t => exact .refl _
  | prove t => exact .refl _
  | aggregate t => exact .refl _
  | singleNode t => exact .refl _

/-- So is what it writes with the answer of the node. -/
theorem filled_reply (addrs : String) (response : Option (Response β))
    (job : Job β) : job.Filled (job.reply addrs response) := by
  cases job with
  | split t =>
      show Job.Filled _ (.split (splitReply addrs response t))
      unfold splitReply
      split
      · exact .refl _
      case h_2 r =>
        split
        · exact .refl _
        case h_2 code _ =>
          exact .split ⟨resultCodeToState code, addrs, r.totalSteps,
            r.totalSegments⟩ t
  | prove t =>
      show Job.Filled _ (.prove (proveReply addrs response t))
      unfold proveReply
      split
      · exact .refl _
      case h_2 r =>
        split
        · exact .refl _
        case h_2 code _ =>
          exact .prove ⟨resultCodeToState code, addrs, r.output⟩ t
  | aggregate t =>
      show Job.Filled _ (.aggregate (aggReply addrs response t))
      unfold aggReply
      split
      · exact .refl _
      case h_2 r =>
        split
        · exact .refl _
        case h_2 code _ =>
          exact .aggregate ⟨resultCodeToState code, addrs, r.output⟩ t
  | snarkProof t =>
      show Job.Filled _ (.snarkProof (snarkReply addrs response t))
      unfold snarkReply
      split
      · exact filled_setState .Failed _
      · split
        · exact .snarkProof ⟨.Success, addrs, _⟩ t
        · exact filled_setState .Failed _
  | singleNode t => exact .singleNode t _

/-- A step leaves the task of a call the one it was handed. -/
theorem Proceeds.filled {sh sh' : Shared} {c c' : Call β} {a : Answer β}
    (h : Proceeds sh c a sh' c') : c.job.Filled c'.job := by
  cases h with
  | single t _ _ => exact filled_enter c.job
  | limit _ _ _ => exact filled_enter c.job
  | enter _ _ _ => exact filled_enter c.job
  | noClient _ _ => exact filled_noClient c.job
  | giveBack n r now status _ _ => exact filled_reply (sh.addr n) r c.job
  | _ => exact .refl c.job

/-- Every call of a run works on the task it was handed. -/
def Pool.Works (acts : List (PoolAction β)) (p : Pool β) : Prop :=
  ∀ c ∈ p.calls, ∃ job,
    .call c.stage c.maxProverNum job ∈ acts ∧ job.Filled c.job

/-- Every step of the pool keeps each call at the task it was handed. -/
theorem Pool.Works.step {acts : List (PoolAction β)} {p p' : Pool β}
    {a : PoolAction β} (h : p.Works acts) (hs : p.step a = some p') :
    p'.Works (acts ++ [a]) := by
  intro d hd
  have old : d ∈ p.calls → ∃ job,
      .call d.stage d.maxProverNum job ∈ acts ++ [a] ∧ job.Filled d.job := by
    intro hold
    obtain ⟨job, hmem, hfill⟩ := h d hold
    exact ⟨job, List.mem_append_left _ hmem, hfill⟩
  cases Pool.step_moved hs with
  | call stage maxProverNum job =>
      rcases List.mem_append.mp hd with hold | hnew
      · exact old hold
      · rw [List.mem_singleton.mp hnew]
        exact ⟨job, List.mem_append_right _ List.mem_cons_self, .refl job⟩
  | proceed i e c c' sh' hc hp =>
      rcases List.mem_or_eq_of_mem_set hd with hold | rfl
      · exact old hold
      · obtain ⟨job, hmem, hfill⟩ := h c (List.mem_of_getElem? hc)
        obtain ⟨hstage, hmax, _⟩ := hp.fixed
        rw [hstage, hmax]
        exact ⟨job, List.mem_append_left _ hmem, hfill.trans hp.filled⟩

/-- **SAME TASK**: what a call returns is the task it was handed with a reply
    filled in. -/
theorem filled_run {nodes : List String} {num : Option Nat}
    {acts : List (PoolAction β)} {p : Pool β}
    (hrun : run Pool.step (Pool.start nodes num) acts = some p) :
    p.Works acts := by
  have hstart : (Pool.start nodes num : Pool β).Works [] :=
    fun _ hc => absurd hc List.not_mem_nil
  exact run_trace (fun _ _ _ _ h hs => h.step hs) hstart hrun

/-! ## Back at the stage -/

end ZkmProver
