import ZkmProver.Returns

/-! # Outcomes — how the calls classify what they meet

    What decides the state a call returns is met at one point of it: the
    limit, no node to ask, no idle client, the node the task was on before, or
    the response.
    `split`, `prove` and `aggregate` make a state of it in the same way
    (`CallOutcome.state`).  `snark_proof` classifies by itself
    (`CallOutcome.snarkState`): it does not touch the state at the limit, and
    anything but `Ok` is a failure.  A call that panics returns no state. -/

namespace ZkmProver

open Keyed Machine

variable {β : Type}

/-- What a call meets. -/
inductive CallOutcome (β : Type) where
  /-- the prover limit is reached -/
  | limit
  /-- no node can be asked: there is none, or the mutex is poisoned -/
  | noNodes
  /-- no node is idle -/
  | noClient
  /-- the idle node is the one the `prove` task was on before -/
  | sameNode
  /-- the response; `none` is an RPC error -/
  | answered (response : Option (Response β))

namespace CallOutcome

/-- The state that `result_code_to_state` and the first line of `split`,
    `prove` and `aggregate` give a task. -/
def state : CallOutcome β → TaskState
  | .answered (some r) =>
      match r.code with
      | none => .Unprocessed
      | some code => resultCodeToState code
  | _ => .Unprocessed

/-- The state that `snark_proof` gives a task handed to it in `before`. -/
def snarkState (before : TaskState) : CallOutcome β → TaskState
  | .limit => before
  | .answered (some r) =>
      if r.code.bind ResultCode.fromI32 = some .Ok then .Success else .Failed
  | .answered none => .Failed
  | _ => .Unprocessed

/-- The state a call returns. -/
def verdict (type : TaskType) (before : TaskState) (o : CallOutcome β) :
    TaskState :=
  if type = .Snark then o.snarkState before else o.state

/-- The two classifications agree. -/
def Plain (before : TaskState) : CallOutcome β → Prop
  | .limit => before = .Unprocessed
  | .answered r =>
      (answered r).state = .Success ∨ (answered r).state = .Failed
  | _ => True

end CallOutcome

/-- The state of a task behind the first line of a call. -/
def TaskType.entered (before : TaskState) : TaskType → TaskState
  | .Snark => before
  | _ => .Unprocessed

/-- The state of the task that a call returned. -/
def Call.result (c : Call β) : Option TaskState :=
  match c.pc with
  | .returned _ => some c.job.state
  | _ => none

/-- What a step of a call meets. -/
def Call.meets (sh : Shared) (c : Call β) (a : Answer β) :
    Option (CallOutcome β) :=
  match c.pc, a with
  | .entry, .go =>
      if c.maxProverNum ≤ sh.curProverNum c.stage then some .limit else none
  | .leased _, .go =>
      if c.maxProverNum ≤ sh.curProverNum c.stage then some .limit else none
  | .pick, .order _ =>
      if sh.getNodes c.job.taskType = none then some .noNodes else none
  | .scan [], .go => some .noClient
  | .counted n, .go =>
      match c.job with
      | .prove t =>
          if t.trace.nodeInfo = sh.addr n then some .sameNode else none
      | _ => none
  | .rpc _, .response r => some (.answered r)
  | _, _ => none

/-- What the `i`-th call meets at an action of the pool. -/
def Pool.meets (i : Nat) (p : Pool β) : PoolAction β → Option (CallOutcome β)
  | .call _ _ _ => none
  | .proceed j a =>
      if j = i then (p.calls[i]?).bind fun c => c.meets p.shared a else none

/-- What the `i`-th call meets in a run. -/
def Pool.outcomes (p : Pool β) (i : Nat) (acts : List (PoolAction β)) :
    List (CallOutcome β) :=
  collect Pool.step (Pool.meets i) p acts

/-- The task that an action hands to a call. -/
def PoolAction.job : PoolAction β → Option (Job β)
  | .call _ _ job => some job
  | .proceed _ _ => none

/-- The tasks handed to the calls, in order. -/
def Pool.jobs (acts : List (PoolAction β)) : List (Job β) :=
  acts.filterMap PoolAction.job

/-! ## One call -/

/-- What a call has met, and the state of its task. -/
def Call.Classified (before : TaskState) (os : List (CallOutcome β))
    (c : Call β) : Prop :=
  match c.pc with
  | .entry => os = [] ∧ c.job.state = before
  | .answered _ r =>
      os = [.answered r] ∧ c.job.state = c.job.taskType.entered before
  | .release _ r =>
      os = [.answered r] ∧ c.job.state = c.job.taskType.entered before
  | .returned _ =>
      ∃ o, os = [o] ∧ o ≠ .noNodes ∧
        c.job.state = o.verdict c.job.taskType before
  | .panicked => os = [.noNodes]
  | _ => os = [] ∧ c.job.state = c.job.taskType.entered before

/-- The first line of a call sets the state, but for a snark task. -/
theorem enter_entered {job : Job β} (htype : job.taskType ≠ .SingleNode) :
    job.enter.state = job.enter.taskType.entered job.state := by
  cases job with
  | split t => rfl
  | prove t => rfl
  | aggregate t => rfl
  | snarkProof t => rfl
  | singleNode t => exact absurd rfl htype

theorem noClient_taskType (job : Job β) :
    job.noClient.taskType = job.taskType := by
  cases job <;> rfl

theorem reply_taskType (addrs : String) (r : Option (Response β))
    (job : Job β) : (job.reply addrs r).taskType = job.taskType := by
  cases job <;> rfl

/-- At a reached limit the task comes back as it was entered. -/
theorem limit_verdict (type : TaskType) (before : TaskState) :
    type.entered before
      = (CallOutcome.limit : CallOutcome β).verdict type before := by
  cases type <;> rfl

/-- Without an idle node it comes back UNPROCESSED. -/
theorem noClient_verdict {job : Job β} {before : TaskState}
    (h : job.state = job.taskType.entered before) :
    job.noClient.state
      = (CallOutcome.noClient : CallOutcome β).verdict job.taskType before := by
  cases job with
  | split t => exact h
  | prove t => exact h
  | aggregate t => exact h
  | snarkProof t => rfl
  | singleNode t => exact h

/-- **FOUR REPLIES**: what the calls make of a response. -/
theorem reply_verdict {job : Job β} {before : TaskState}
    (h : job.state = job.taskType.entered before) (addrs : String)
    (r : Option (Response β)) :
    (job.reply addrs r).state
      = (CallOutcome.answered r).verdict job.taskType before := by
  cases r with
  | none =>
      -- an RPC error: the siblings keep what they set at their entry
      cases job with
      | split t => exact h
      | prove t => exact h
      | aggregate t => exact h
      | snarkProof t => rfl
      | singleNode t => exact h
  | some x =>
      cases job with
      | split t =>
          show (splitReply addrs (some x) t).state
            = (CallOutcome.answered (some x)).state
          rw [splitReply, CallOutcome.state]
          cases x.code with
          | none => exact h
          | some code => rfl
      | prove t =>
          show (proveReply addrs (some x) t).state
            = (CallOutcome.answered (some x)).state
          rw [proveReply, CallOutcome.state]
          cases x.code with
          | none => exact h
          | some code => rfl
      | aggregate t =>
          show (aggReply addrs (some x) t).state
            = (CallOutcome.answered (some x)).state
          rw [aggReply, CallOutcome.state]
          cases x.code with
          | none => exact h
          | some code => rfl
      -- the one that does not ask `result_code_to_state`
      | snarkProof t =>
          show (snarkReply addrs (some x) t).state
            = (CallOutcome.answered (some x)).snarkState before
          rw [snarkReply, CallOutcome.snarkState]
          split <;> rfl
      | singleNode t =>
          show (singleReply addrs (some x) t).state
            = (CallOutcome.answered (some x)).state
          rw [singleReply, CallOutcome.state]
          cases x.code with
          | none => exact h
          | some code => rfl

section

variable {sh sh' : Shared} {c c' : Call β} {a : Answer β}
  {before : TaskState} {os : List (CallOutcome β)}

/-- A call that goes on is classified as before. -/
theorem classified_of_pc {pc : Pc β} (hpc : c.pc = pc)
    (h : c.Classified before os) :
    Call.Classified before os { c with pc := pc } := by
  rw [← hpc]
  exact h

/-- What a call meets depends on where it is. -/
theorem meets_of_pc {pc : Pc β} (hpc : c.pc = pc) :
    c.meets sh a = Call.meets sh { c with pc := pc } a := by
  rw [← hpc]

/-- Every step meets at most one thing, and what a call returns is its
    verdict on it. -/
theorem Proceeds.classified (h : Proceeds sh c a sh' c')
    (htype : c.job.taskType ≠ .SingleNode) (hparted : c.Parted)
    (hc : c.Classified before os) :
    c'.Classified before (os ++ (c.meets sh a).toList) := by
  have same : ∀ {pc : Pc β}, c.pc = pc →
      Call.Classified before os { c with pc := pc } :=
    fun hpc => classified_of_pc hpc hc
  -- a step that meets nothing
  have nothing : ∀ {pc : Pc β}, c.pc = pc →
      Call.meets sh { c with pc := pc } a = none →
      c'.Classified before os →
      c'.Classified before (os ++ (c.meets sh a).toList) := by
    intro pc hpc hno hkept
    rw [meets_of_pc hpc, hno, Option.toList_none, List.append_nil]
    exact hkept
  -- one that meets `o`, the first thing the call meets
  have first : ∀ {pc : Pc β} {o : CallOutcome β}, c.pc = pc →
      Call.meets sh { c with pc := pc } a = some o → os = [] →
      c'.Classified before [o] →
      c'.Classified before (os ++ (c.meets sh a).toList) := by
    intro pc o hpc ho hnil hkept
    rw [meets_of_pc hpc, ho, hnil]
    exact hkept
  cases h with
  | single t _ hjob => exact absurd (congrArg Job.taskType hjob) htype
  | limit hpc _ hfull =>
      obtain ⟨hnil, hstate⟩ := same hpc
      refine first hpc (if_pos hfull) hnil ⟨_, rfl, nofun, ?_⟩
      rw [enter_entered htype, hstate]
      exact limit_verdict _ before
  | enter hpc _ hroom =>
      obtain ⟨hnil, hstate⟩ := same hpc
      refine nothing hpc (if_neg (Nat.not_le.mpr hroom)) ⟨hnil, ?_⟩
      rw [enter_entered htype, hstate]
  | panic nodes hpc hnone =>
      obtain ⟨hnil, _⟩ := same hpc
      exact first hpc (if_pos hnone) hnil rfl
  | order nodes all hpc hall _ =>
      refine nothing hpc (if_neg ?_) (same hpc :)
      rw [hall]
      nofun
  | pass n nodes now hpc => exact nothing hpc rfl (same hpc :)
  | lease n nodes now client hpc _ _ => exact nothing hpc rfl (same hpc :)
  | connected n nodes ok now client hpc => exact nothing hpc rfl (same hpc :)
  | refused n nodes ok now hpc => exact nothing hpc rfl (same hpc :)
  | again t hpc hjob => exact absurd (congrArg Job.taskType hjob) htype
  | noClient hpc _ =>
      obtain ⟨hnil, hstate⟩ := same hpc
      refine first hpc rfl hnil ⟨_, rfl, nofun, ?_⟩
      rw [noClient_taskType]
      exact noClient_verdict hstate
  | late n hpc _ hfull =>
      obtain ⟨hnil, hstate⟩ := same hpc
      refine first hpc (if_pos hfull) hnil ⟨_, rfl, nofun, ?_⟩
      exact hstate.trans (limit_verdict _ before)
  | count n hpc _ hroom =>
      exact nothing hpc (if_neg (Nat.not_le.mpr hroom)) (same hpc :)
  | updated n t _ hjob => exact absurd (congrArg Job.taskType hjob) htype
  | failed n t _ hjob => exact absurd (congrArg Job.taskType hjob) htype
  | skipped n t hpc hjob hsame =>
      obtain ⟨hnil, hstate⟩ := same hpc
      have hmeets : Call.meets sh { c with pc := .counted n } .go
          = some .sameNode := by
        simp only [Call.meets, hjob, if_pos hsame]
      refine first hpc hmeets hnil ⟨_, rfl, nofun, ?_⟩
      rw [hjob] at hstate
      show c.job.state = CallOutcome.verdict c.job.taskType before .sameNode
      rw [hjob]
      exact hstate
  | send n hpc hdiff =>
      refine nothing hpc ?_ (same hpc :)
      cases hjob : c.job with
      | prove t => exact if_neg (hdiff t hjob)
      | split t => rfl
      | aggregate t => rfl
      | snarkProof t => rfl
      | singleNode t => rfl
  | answered n r hpc =>
      obtain ⟨hnil, hstate⟩ := same hpc
      exact first hpc rfl hnil ⟨rfl, hstate⟩
  | alone n r hpc =>
      -- only `single_node` waits uncounted
      have hyes : c.single = true := parted_of_pc hpc hparted
      exact absurd (of_decide_eq_true hyes) htype
  | uncount n r hpc => exact nothing hpc rfl (same hpc :)
  | giveBack n r now status hpc _ =>
      obtain ⟨hmet, hstate⟩ := same hpc
      refine nothing hpc rfl ⟨_, hmet, nofun, ?_⟩
      rw [reply_taskType]
      exact reply_verdict hstate (sh.addr n) r

end

/-! ## All the calls -/

/-- Every call of a run has met what it says, from the task it was handed. -/
structure Judged (start : Pool β) (acts : List (PoolAction β)) (p : Pool β) :
    Prop where
  run    : Machine.run Pool.step start acts = some p
  parted : ∀ c ∈ p.calls, c.Parted
  length : (Pool.jobs acts).length = p.calls.length
  calls  : ∀ (i : Nat) (c : Call β), p.calls[i]? = some c → ∃ job : Job β,
    (Pool.jobs acts)[i]? = some job ∧ job.taskType = c.job.taskType ∧
      (c.job.taskType ≠ .SingleNode →
        c.Classified job.state (start.outcomes i acts))
  later  : ∀ i, p.calls.length ≤ i → start.outcomes i acts = []

/-- Before the first call nothing is to be judged. -/
theorem Judged.start (nodes : List String) (num : Option Nat) :
    Judged (Pool.start nodes num) [] (Pool.start nodes num : Pool β) where
  run := rfl
  parted := fun _ hc => absurd hc List.not_mem_nil
  length := rfl
  calls := fun i c hc => by cases hc
  later := fun _ _ => rfl

section

variable {start p p' : Pool β} {acts : List (PoolAction β)}
  {a : PoolAction β}

/-- One more step adds the outcome it meets, if any. -/
theorem Judged.outcomes_snoc (h : Judged start acts p) (hs : p.step a = some p')
    (i : Nat) : start.outcomes i (acts ++ [a])
      = start.outcomes i acts ++ (p.meets i a).toList :=
  collect_snoc h.run hs

theorem jobs_snoc (acts : List (PoolAction β)) (a : PoolAction β) :
    Pool.jobs (acts ++ [a]) = Pool.jobs acts ++ a.job.toList := by
  rw [Pool.jobs, List.filterMap_append]
  cases ha : a.job with
  | none => rw [List.filterMap_cons_none ha]; rfl
  | some job => rw [List.filterMap_cons_some ha]; rfl

/-- A new call has met nothing. -/
theorem Judged.call (h : Judged start acts p) (stage maxProverNum : Nat)
    (job : Job β) :
    Judged start (acts ++ [.call stage maxProverNum job])
      { p with calls := p.calls ++ [⟨stage, maxProverNum, job, .entry⟩] } where
  run := run_snoc.mpr ⟨p, h.run, rfl⟩
  parted := parted_moved h.parted (.call stage maxProverNum job)
  length := by
    rw [jobs_snoc, List.length_append, List.length_append, h.length]
    rfl
  calls := by
    intro i c hc
    rw [h.outcomes_snoc rfl i, jobs_snoc]
    show ∃ _, _ ∧ _ ∧ (_ → c.Classified _ (start.outcomes i acts ++ []))
    rw [List.append_nil]
    rcases Nat.lt_or_ge i p.calls.length with hlt | hge
    · rw [List.getElem?_append_left hlt] at hc
      rw [List.getElem?_append_left (h.length ▸ hlt)]
      exact h.calls i c hc
    · -- the new call has met nothing
      rw [List.getElem?_append_right hge, List.getElem?_singleton] at hc
      split at hc
      case isFalse => cases hc
      case isTrue hi =>
        cases hc
        rw [List.getElem?_append_right (h.length ▸ hge), h.length, hi]
        exact ⟨job, rfl, rfl, fun _ => ⟨h.later i hge, rfl⟩⟩
  later := by
    intro i hi
    rw [List.length_append] at hi
    rw [h.outcomes_snoc rfl i, h.later i (Nat.le_of_succ_le hi)]
    rfl

/-- A call that takes a step has met what the step meets. -/
theorem Judged.proceed (h : Judged start acts p) {j : Nat} {e : Answer β}
    {c c' : Call β} {sh' : Shared} (hj : p.calls[j]? = some c)
    (hp : Proceeds p.shared c e sh' c')
    (hs : p.step (.proceed j e)
      = some { shared := sh', calls := p.calls.set j c' }) :
    Judged start (acts ++ [.proceed j e])
      { shared := sh', calls := p.calls.set j c' } where
  run := run_snoc.mpr ⟨p, h.run, hs⟩
  parted := parted_moved h.parted (.proceed j e c c' sh' hj hp)
  length := by
    rw [jobs_snoc, List.length_append, List.length_set, h.length]
    rfl
  calls := by
    intro i d hd
    rw [h.outcomes_snoc hs i, jobs_snoc]
    show ∃ job, (Pool.jobs acts ++ [])[i]? = some job ∧ _
    rw [List.append_nil]
    by_cases hij : j = i
    · subst hij
      obtain ⟨hlt, _⟩ := List.getElem?_eq_some_iff.mp hj
      rw [List.getElem?_set_self hlt] at hd
      cases hd
      obtain ⟨job, hjob, htype, hclass⟩ := h.calls j c hj
      have hsame := hp.fixed.2.2.1
      have hmeets : p.meets j (.proceed j e) = c.meets p.shared e := by
        rw [Pool.meets, if_pos rfl, hj, Option.bind_some]
      refine ⟨job, hjob, htype.trans hsame.symm, fun hfour => ?_⟩
      rw [hsame] at hfour
      rw [hmeets]
      exact hp.classified hfour (h.parted c (List.mem_of_getElem? hj))
        (hclass hfour)
    · have hnone : p.meets i (.proceed j e) = none := if_neg hij
      rw [List.getElem?_set_ne hij] at hd
      rw [hnone, Option.toList_none, List.append_nil]
      exact h.calls i d hd
  later := by
    intro i hi
    rw [List.length_set] at hi
    obtain ⟨hlt, _⟩ := List.getElem?_eq_some_iff.mp hj
    have hnone : p.meets i (.proceed j e) = none := if_neg (by omega)
    rw [h.outcomes_snoc hs i, h.later i hi, hnone]
    rfl

end

end ZkmProver
