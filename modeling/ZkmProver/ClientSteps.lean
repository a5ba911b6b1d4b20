import ZkmProver.Client

/-! # What a client call can do

    `Proceeds` lists the steps of a call with the tests that were passed, and
    `Call.step_proceeds` inverts `Call.step`.  The invariants of the pool are
    read off it: what a step does to the node a call holds (`Touched`) and
    what it does to the counts (`Tallied`). -/

namespace ZkmProver

open Keyed Machine

variable {β : Type}

/-- Where `get_nodes` panics. -/
theorem getNodes_eq_none {sh : Shared} {type : TaskType} :
    sh.getNodes type = none ↔
      sh.poisoned = true ∨ type = .Snark ∧ sh.proverNodes = [] := by
  unfold Shared.getNodes
  by_cases hp : sh.poisoned = true
  · rw [if_pos hp]
    exact iff_of_true rfl (.inl hp)
  · rw [if_neg hp, or_iff_right hp]
    cases type with
    | Snark => simp
    | Split => simp
    | Prove => simp
    | Agg => simp
    | SingleNode => simp

/-! ## Steps of a call -/

/-- One step of a call. -/
inductive Proceeds (sh : Shared) (c : Call β) :
    Answer β → Shared → Call β → Prop where
  | single (t : SingleNodeTask β) : c.pc = .entry → c.job = .singleNode t →
      Proceeds sh c .go sh { c with job := c.job.enter, pc := .pick }
  | limit : c.pc = .entry → c.job.taskType ≠ .SingleNode →
      c.maxProverNum ≤ sh.curProverNum c.stage →
      Proceeds sh c .go sh { c with job := c.job.enter, pc := .returned .limit }
  | enter : c.pc = .entry → c.job.taskType ≠ .SingleNode →
      sh.curProverNum c.stage < c.maxProverNum →
      Proceeds sh c .go sh { c with job := c.job.enter, pc := .pick }
  | panic (nodes : List Nat) : c.pc = .pick →
      sh.getNodes c.job.taskType = none →
      Proceeds sh c (.order nodes) { sh with poisoned := true }
        { c with pc := .panicked }
  | order (nodes all : List Nat) : c.pc = .pick →
      sh.getNodes c.job.taskType = some all → nodes.Perm all →
      Proceeds sh c (.order nodes) sh { c with pc := .scan nodes }
  | pass (n : Nat) (nodes : List Nat) (now : Nat) : c.pc = .scan (n :: nodes) →
      Proceeds sh c (.clock now) sh { c with pc := .scan nodes }
  | lease (n : Nat) (nodes : List Nat) (now : Nat) (client : Nat → Bool) :
      c.pc = .scan (n :: nodes) → sh.status n ≠ .Busy →
      (∀ ts, sh.status n = .OffLine ts → ts + 180 ≤ now) →
      Proceeds sh c (.clock now)
        ({ sh with client := client }.setStatus n .Busy)
        { c with pc := .probe n nodes }
  | connected (n : Nat) (nodes : List Nat) (ok : Bool) (now : Nat)
      (client : Nat → Bool) : c.pc = .probe n nodes →
      Proceeds sh c (.connect ok now) { sh with client := client }
        { c with pc := .leased n }
  | refused (n : Nat) (nodes : List Nat) (ok : Bool) (now : Nat) :
      c.pc = .probe n nodes →
      Proceeds sh c (.connect ok now) (sh.setStatus n (.OffLine now))
        { c with pc := .scan nodes }
  | again (t : SingleNodeTask β) : c.pc = .scan [] → c.job = .singleNode t →
      Proceeds sh c .go sh { c with pc := .pick }
  | noClient : c.pc = .scan [] → c.job.taskType ≠ .SingleNode →
      Proceeds sh c .go sh
        { c with job := c.job.noClient, pc := .returned .noClient }
  | late (n : Nat) : c.pc = .leased n → c.job.taskType ≠ .SingleNode →
      c.maxProverNum ≤ sh.curProverNum c.stage →
      Proceeds sh c .go (sh.setStatus n .Idle)
        { c with pc := .returned (.late n) }
  | count (n : Nat) : c.pc = .leased n → c.job.taskType ≠ .SingleNode →
      sh.curProverNum c.stage < c.maxProverNum →
      Proceeds sh c .go
        (sh.setCount c.stage (sh.curProverNum c.stage + 1))
        { c with pc := .counted n }
  | updated (n : Nat) (t : SingleNodeTask β) : c.pc = .leased n →
      c.job = .singleNode t →
      Proceeds sh c (.updated true) sh { c with pc := .alone n }
  | failed (n : Nat) (t : SingleNodeTask β) : c.pc = .leased n →
      c.job = .singleNode t →
      Proceeds sh c (.updated false) sh { c with pc := .returned (.failed n) }
  | skipped (n : Nat) (t : ProveTask β) : c.pc = .counted n →
      c.job = .prove t → t.trace.nodeInfo = sh.addr n →
      Proceeds sh c .go (sh.setStatus n .Idle)
        { c with pc := .returned (.skipped n) }
  | send (n : Nat) : c.pc = .counted n →
      (∀ t, c.job = .prove t → t.trace.nodeInfo ≠ sh.addr n) →
      Proceeds sh c .go sh { c with pc := .rpc n }
  | answered (n : Nat) (r : Option (Response β)) : c.pc = .rpc n →
      Proceeds sh c (.response r) sh { c with pc := .answered n r }
  | alone (n : Nat) (r : Option (Response β)) : c.pc = .alone n →
      Proceeds sh c (.response r) sh { c with pc := .release n r }
  | uncount (n : Nat) (r : Option (Response β)) : c.pc = .answered n r →
      Proceeds sh c .go
        (sh.setCount c.stage (sh.curProverNum c.stage - 1))
        { c with pc := .release n r }
  | giveBack (n : Nat) (r : Option (Response β)) (now : Nat)
      (status : NodeStatus) : c.pc = .release n r → status ≠ .Busy →
      Proceeds sh c (.clock now) (sh.setStatus n status)
        { c with
          job := c.job.reply (sh.addr n) r
          pc := .returned (.replied n) }

section

variable {sh sh' : Shared} {c c' : Call β} {a : Answer β}

/-- The first lines of a call. -/
theorem enter_proceeds (hpc : c.pc = .entry) :
    Proceeds sh c .go sh (c.enter sh) := by
  obtain ⟨stage, maxProverNum, job, pc⟩ := c
  cases hpc
  cases job with
  | singleNode t => exact .single t rfl rfl
  | _ =>
      rw [Call.enter]
      dsimp only [Job.enter, Job.setState]
      split
      case isTrue hfull => exact .limit rfl nofun hfull
      case isFalse hfull => exact .enter rfl nofun (Nat.lt_of_not_le hfull)

/-- The look at a node, under its lock. -/
theorem look_proceeds (sh : Shared) (now : Nat) {n : Nat} {nodes : List Nat}
    (hpc : c.pc = .scan (n :: nodes)) :
    Proceeds sh c (.clock now) (c.look sh now n nodes).1
      (c.look sh now n nodes).2 := by
  rw [Call.look]
  cases hst : sh.status n with
  | Busy => exact .pass n nodes now hpc
  | Idle =>
      exact .lease n nodes now sh.client hpc (by rw [hst]; exact nofun)
        (fun ts hts => nomatch hst.symm.trans hts)
  | OffLine ts =>
      dsimp only
      by_cases hrecent : now < ts + 180
      · rw [if_pos hrecent]
        exact .pass n nodes now hpc
      · rw [if_neg hrecent]
        refine .lease n nodes now _ hpc (by rw [hst]; exact nofun) ?_
        intro ts' hts
        have heq := hst.symm.trans hts
        cases heq
        omega

/-- `is_active`, connected or not. -/
theorem connect_proceeds (sh : Shared) (ok : Bool) (now : Nat) {n : Nat}
    {nodes : List Nat}
    (hpc : c.pc = .probe n nodes) :
    Proceeds sh c (.connect ok now) (c.connect sh ok now n nodes).1
      (c.connect sh ok now n nodes).2 := by
  rw [Call.connect]
  split
  · exact .connected n nodes ok now sh.client hpc
  · split
    · exact .connected n nodes ok now _ hpc
    · exact .refused n nodes ok now hpc

/-- No node is left to look at. -/
theorem noClient_proceeds (hpc : c.pc = .scan []) :
    Proceeds sh c .go sh c.noClient := by
  obtain ⟨stage, maxProverNum, job, pc⟩ := c
  cases hpc
  cases job with
  | singleNode t => exact .again t rfl rfl
  | _ => exact .noClient rfl nofun

/-- The second check of the limit, and of the old node. -/
theorem recheck_proceeds (sh : Shared) {n : Nat} (hpc : c.pc = .leased n)
    (hne : c.job.taskType ≠ .SingleNode) :
    Proceeds sh c .go (c.recheck sh n).1 (c.recheck sh n).2 := by
  rw [Call.recheck]
  split
  case isTrue hfull => exact .late n hpc hne hfull
  case isFalse hfull => exact .count n hpc hne (Nat.lt_of_not_le hfull)

/-- The request is built and sent. -/
theorem send_proceeds (sh : Shared) {n : Nat} (hpc : c.pc = .counted n) :
    Proceeds sh c .go (c.send sh n).1 (c.send sh n).2 := by
  obtain ⟨stage, maxProverNum, job, pc⟩ := c
  cases hpc
  cases job with
  | prove t =>
      rw [Call.send]
      dsimp only
      split
      case isTrue hsame => exact .skipped n t rfl rfl hsame
      case isFalse hother =>
        refine .send n rfl fun u hu => ?_
        cases hu
        exact hother
  | _ => exact .send n rfl fun u hu => nomatch hu

/-- The node is set Idle again, or offline. -/
theorem giveBack_proceeds (sh : Shared) (now : Nat) {n : Nat}
    {r : Option (Response β)}
    (hpc : c.pc = .release n r) :
    Proceeds sh c (.clock now) (c.giveBack sh now n r).1
      (c.giveBack sh now n r).2 := by
  refine .giveBack n r now _ hpc ?_
  split <;> exact nofun

/-- **INVERSION**: every step of a call is one of the list. -/
theorem Call.step_proceeds (h : c.step sh a = some (sh', c')) :
    Proceeds sh c a sh' c' := by
  unfold Call.step at h
  split at h
  case h_1 hpc =>
    cases h
    exact enter_proceeds hpc
  case h_2 nodes hpc =>
    split at h
    -- no node to index, or the mutex is poisoned
    case h_1 hnone =>
      cases h
      exact .panic nodes hpc hnone
    case h_2 all hall =>
      split at h
      case isTrue hperm =>
        cases h
        exact .order nodes all hpc hall (List.isPerm_iff.mp hperm)
      case isFalse => exact nomatch h
  case h_3 hpc =>
    cases h
    exact noClient_proceeds hpc
  case h_4 n nodes now hpc =>
    have hp := look_proceeds sh now hpc
    rw [Option.some.inj h] at hp
    exact hp
  case h_5 n nodes ok now hpc =>
    have hp := connect_proceeds sh ok now hpc
    rw [Option.some.inj h] at hp
    exact hp
  case h_6 n hpc =>
    split at h
    case h_1 => exact nomatch h
    -- `single_node` has its own way from a leased node
    case h_2 hne =>
      have hp := recheck_proceeds sh hpc ?_
      · rw [Option.some.inj h] at hp
        exact hp
      · intro ht
        cases hjob : c.job with
        | singleNode t => exact hne t hjob
        | _ => rw [hjob] at ht; exact nomatch ht
  case h_7 n ok hpc =>
    split at h
    case h_1 t hjob =>
      cases ok with
      | true =>
          cases h
          exact .updated n t hpc hjob
      | false =>
          cases h
          exact .failed n t hpc hjob
    case h_2 => exact nomatch h
  case h_8 n hpc =>
    have hp := send_proceeds sh hpc
    rw [Option.some.inj h] at hp
    exact hp
  case h_9 n r hpc =>
    cases h
    exact .answered n r hpc
  case h_10 n r hpc =>
    cases h
    exact .alone n r hpc
  case h_11 n r hpc =>
    cases h
    exact .uncount n r hpc
  case h_12 n r now hpc =>
    have hp := giveBack_proceeds sh now hpc
    rw [Option.some.inj h] at hp
    exact hp
  case h_13 => exact nomatch h

/-! ## What a step does to the nodes -/

/-- The node that changes hands. -/
inductive Touched (sh : Shared) (c : Call β) (sh' : Shared) (c' : Call β) :
    Prop where
  | kept : sh'.status = sh.status → c'.held = c.held → Touched sh c sh' c'
  | taken (n : Nat) : sh.status n ≠ .Busy → c.held = none →
      c'.held = some n → sh'.status = Function.update sh.status n .Busy →
      Touched sh c sh' c'
  | given (n : Nat) (status : NodeStatus) : c.held = some n →
      c'.held = none → status ≠ .Busy →
      sh'.status = Function.update sh.status n status → Touched sh c sh' c'

theorem held_of_pc {pc : Pc β} (hpc : c.pc = pc) :
    c.held = Call.held { c with pc := pc } := by
  rw [← hpc]

/-- A step takes a node, gives one back, or leaves them all. -/
theorem Proceeds.touched (h : Proceeds sh c a sh' c') :
    Touched sh c sh' c' := by
  cases h with
  | single t hpc _ => exact .kept rfl (held_of_pc hpc).symm
  | limit hpc _ _ => exact .kept rfl (held_of_pc hpc).symm
  | enter hpc _ _ => exact .kept rfl (held_of_pc hpc).symm
  | panic nodes hpc _ => exact .kept rfl (held_of_pc hpc).symm
  | order nodes all hpc _ _ => exact .kept rfl (held_of_pc hpc).symm
  | pass n nodes now hpc => exact .kept rfl (held_of_pc hpc).symm
  | lease n nodes now client hpc hidle _ =>
      exact .taken n hidle (held_of_pc hpc) rfl rfl
  | connected n nodes ok now client hpc =>
      exact .kept rfl (held_of_pc hpc).symm
  | refused n nodes ok now hpc =>
      exact .given n (.OffLine now) (held_of_pc hpc) rfl nofun rfl
  | again t hpc _ => exact .kept rfl (held_of_pc hpc).symm
  | noClient hpc _ => exact .kept rfl (held_of_pc hpc).symm
  | late n hpc _ _ => exact .given n .Idle (held_of_pc hpc) rfl nofun rfl
  | count n hpc _ _ => exact .kept rfl (held_of_pc hpc).symm
  | updated n t hpc _ => exact .kept rfl (held_of_pc hpc).symm
  | failed n t hpc _ => exact .kept rfl (held_of_pc hpc).symm
  | skipped n t hpc _ _ => exact .given n .Idle (held_of_pc hpc) rfl nofun rfl
  | send n hpc _ => exact .kept rfl (held_of_pc hpc).symm
  | answered n r hpc => exact .kept rfl (held_of_pc hpc).symm
  | alone n r hpc => exact .kept rfl (held_of_pc hpc).symm
  | uncount n r hpc => exact .kept rfl (held_of_pc hpc).symm
  | giveBack n r now status hpc hidle =>
      exact .given n status (held_of_pc hpc) rfl hidle rfl

/-! ## What a step does to the counts -/

/-- The stage whose `cur_prover_num` counts the call. -/
def Call.charged (c : Call β) : Option Nat :=
  match c.pc with
  | .counted _ => some c.stage
  | .rpc _ => some c.stage
  | .answered _ _ => some c.stage
  | _ => none

/-- The stage of a call that returned through the skip in `prove`. -/
def Call.skipped (c : Call β) : Option Nat :=
  match c.pc with
  | .returned (.skipped _) => some c.stage
  | _ => none

/-- What happens to the counts. -/
inductive Tallied (sh : Shared) (c : Call β) (sh' : Shared) (c' : Call β) :
    Prop where
  | kept : sh'.curProverNum = sh.curProverNum → c'.charged = c.charged →
      c'.skipped = c.skipped → Tallied sh c sh' c'
  | raised : c.charged = none → c'.charged = some c.stage →
      c'.skipped = c.skipped →
      sh'.curProverNum = Function.update sh.curProverNum c.stage
        (sh.curProverNum c.stage + 1) → Tallied sh c sh' c'
  | lowered : c.charged = some c.stage → c'.charged = none →
      c'.skipped = c.skipped →
      sh'.curProverNum = Function.update sh.curProverNum c.stage
        (sh.curProverNum c.stage - 1) → Tallied sh c sh' c'
  | skipped : c.charged = some c.stage → c'.charged = none →
      c.skipped = none → c'.skipped = some c.stage →
      sh'.curProverNum = sh.curProverNum → Tallied sh c sh' c'

theorem charged_of_pc {pc : Pc β} (hpc : c.pc = pc) :
    c.charged = Call.charged { c with pc := pc } := by
  rw [← hpc]

theorem skipped_of_pc {pc : Pc β} (hpc : c.pc = pc) :
    c.skipped = Call.skipped { c with pc := pc } := by
  rw [← hpc]

/-- A step charges a stage, relieves one, or leaves the counts. -/
theorem Proceeds.tallied (h : Proceeds sh c a sh' c') :
    Tallied sh c sh' c' := by
  have kept : ∀ {pc : Pc β}, c.pc = pc →
      c'.charged = Call.charged { c with pc := pc } →
      c'.skipped = Call.skipped { c with pc := pc } →
      sh'.curProverNum = sh.curProverNum → Tallied sh c sh' c' := by
    intro pc hpc hch hsk hcount
    exact .kept hcount (hch.trans (charged_of_pc hpc).symm)
      (hsk.trans (skipped_of_pc hpc).symm)
  cases h with
  | single t hpc _ => exact kept hpc rfl rfl rfl
  | limit hpc _ _ => exact kept hpc rfl rfl rfl
  | enter hpc _ _ => exact kept hpc rfl rfl rfl
  | panic nodes hpc _ => exact kept hpc rfl rfl rfl
  | order nodes all hpc _ _ => exact kept hpc rfl rfl rfl
  | pass n nodes now hpc => exact kept hpc rfl rfl rfl
  | lease n nodes now client hpc _ _ => exact kept hpc rfl rfl rfl
  | connected n nodes ok now client hpc => exact kept hpc rfl rfl rfl
  | refused n nodes ok now hpc => exact kept hpc rfl rfl rfl
  | again t hpc _ => exact kept hpc rfl rfl rfl
  | noClient hpc _ => exact kept hpc rfl rfl rfl
  | late n hpc _ _ => exact kept hpc rfl rfl rfl
  | count n hpc _ _ =>
      exact .raised (charged_of_pc hpc) rfl (skipped_of_pc hpc).symm rfl
  | updated n t hpc _ => exact kept hpc rfl rfl rfl
  | failed n t hpc _ => exact kept hpc rfl rfl rfl
  | skipped n t hpc _ _ =>
      exact .skipped (charged_of_pc hpc) rfl (skipped_of_pc hpc) rfl rfl
  | send n hpc _ => exact kept hpc rfl rfl rfl
  | answered n r hpc => exact kept hpc rfl rfl rfl
  | alone n r hpc => exact kept hpc rfl rfl rfl
  | uncount n r hpc =>
      exact .lowered (charged_of_pc hpc) rfl (skipped_of_pc hpc).symm rfl
  | giveBack n r now status hpc _ => exact kept hpc rfl rfl rfl

/-- A call stays with its stage and its limit. -/
theorem Proceeds.fixed (h : Proceeds sh c a sh' c') :
    c'.stage = c.stage ∧ c'.maxProverNum = c.maxProverNum ∧
      c'.job.taskType = c.job.taskType ∧ sh'.proverNodes = sh.proverNodes ∧
      sh'.proveNodesNum = sh.proveNodesNum := by
  cases h with
  | single t _ hjob => rw [hjob]; exact ⟨rfl, rfl, rfl, rfl, rfl⟩
  | limit _ _ _ => cases c.job <;> exact ⟨rfl, rfl, rfl, rfl, rfl⟩
  | enter _ _ _ => cases c.job <;> exact ⟨rfl, rfl, rfl, rfl, rfl⟩
  | noClient _ _ => cases c.job <;> exact ⟨rfl, rfl, rfl, rfl, rfl⟩
  | giveBack n r now status _ _ => cases c.job <;> exact ⟨rfl, rfl, rfl, rfl, rfl⟩
  | _ => exact ⟨rfl, rfl, rfl, rfl, rfl⟩

end

/-! ## Steps of the pool -/

/-- One step of the pool: a new call, or a step of one call. -/
inductive PoolMoved (p : Pool β) : PoolAction β → Pool β → Prop where
  | call (stage maxProverNum : Nat) (job : Job β) :
      PoolMoved p (.call stage maxProverNum job)
        { p with calls := p.calls ++ [⟨stage, maxProverNum, job, .entry⟩] }
  | proceed (i : Nat) (a : Answer β) (c c' : Call β) (sh' : Shared) :
      p.calls[i]? = some c → Proceeds p.shared c a sh' c' →
      PoolMoved p (.proceed i a) { shared := sh', calls := p.calls.set i c' }

/-- A step of the pool is a new call or a step of one. -/
theorem Pool.step_moved {p p' : Pool β} {a : PoolAction β}
    (h : p.step a = some p') : PoolMoved p a p' := by
  cases a with
  | call stage maxProverNum job =>
      cases h
      exact .call stage maxProverNum job
  | proceed i a =>
      rw [Pool.step, Option.bind_eq_some_iff] at h
      obtain ⟨c, hc, h⟩ := h
      obtain ⟨⟨sh', c'⟩, hstep, rfl⟩ := Option.map_eq_some_iff.mp h
      exact .proceed i a c c' sh' hc (Call.step_proceeds hstep)

/-- What holds of fresh pools and is kept by every step holds of every
    reachable pool. -/
theorem Pool.Reachable.inv {nodes : List String} {num : Option Nat}
    {I : Pool β → Prop} (hstart : I (Pool.start nodes num))
    (hmoved : ∀ p a p', I p → PoolMoved p a p' → I p') {p : Pool β}
    (h : Pool.Reachable nodes num p) : I p := by
  obtain ⟨acts, hrun⟩ := h
  exact run_inv (fun p a p' hi hs => hmoved p a p' hi (Pool.step_moved hs))
    hstart hrun

theorem Pool.Reachable.step {nodes : List String} {num : Option Nat}
    {p p' : Pool β} {a : PoolAction β} (h : Pool.Reachable nodes num p)
    (hs : p.step a = some p') : Pool.Reachable nodes num p' := by
  obtain ⟨acts, hrun⟩ := h
  exact ⟨acts ++ [a], run_snoc.mpr ⟨p, hrun, hs⟩⟩

/-- A call that has returned or panicked. -/
def Call.Over (c : Call β) : Prop :=
  (∃ exit, c.pc = .returned exit) ∨ c.pc = .panicked

/-- A call that is over does not proceed. -/
theorem Proceeds.running {sh sh' : Shared} {c c' : Call β} {a : Answer β}
    (h : Proceeds sh c a sh' c') : ¬ c.Over := by
  rintro (⟨exit, hpc⟩ | hpc) <;> cases h <;> simp_all

/-! ## What happened to a call

    How a call ended is decided by the step it ended with: `Q` says how it
    ended and `R` what that step was. -/

/-- The `i`-th call proceeds in a way that passes `R`. -/
def Pool.Meets (R : Shared → Call β → Answer β → Prop) (i : Nat) (p : Pool β)
    (a : PoolAction β) : Prop :=
  ∃ e c, a = .proceed i e ∧ p.calls[i]? = some c ∧ R p.shared c e

/-- The run so far, and whether the `i`-th call has met `R`. -/
structure Pool.Met (Q : Call β → Prop)
    (R : Shared → Call β → Answer β → Prop) (start : Pool β) (i : Nat)
    (acts : List (PoolAction β)) (p : Pool β) : Prop where
  run : Machine.run Pool.step start acts = some p
  iff : (∃ c, p.calls[i]? = some c ∧ Q c) ↔
    ¬ Along Pool.step (fun p a => ¬ p.Meets R i a) start acts

section

variable {Q : Call β → Prop} {R : Shared → Call β → Answer β → Prop}
  {start p p' : Pool β} {a : PoolAction β} {acts : List (PoolAction β)}
  {i : Nat}

/-- The bookkeeping of one more step. -/
theorem Pool.Met.step
    (hnew : ∀ stage maxProverNum job, ¬ Q ⟨stage, maxProverNum, job, .entry⟩)
    (hover : ∀ c, Q c → c.Over)
    (hstep : ∀ {sh c e sh' c'}, Proceeds sh c e sh' c' → (Q c' ↔ R sh c e))
    (h : Pool.Met Q R start i acts p) (hs : p.step a = some p') :
    Pool.Met Q R start i (acts ++ [a]) p' where
  run := run_snoc.mpr ⟨p, h.run, hs⟩
  iff := by
    rw [along_snoc h.run, not_and_or, not_not, ← h.iff]
    cases Pool.step_moved hs with
    | call stage maxProverNum job =>
        constructor
        · rintro ⟨c, hc, hq⟩
          refine Or.inl ⟨c, ?_, hq⟩
          rcases Nat.lt_or_ge i p.calls.length with hlt | hge
          · exact (List.getElem?_append_left hlt).symm.trans hc
          · -- the new call is not over
            have hmem := List.mem_of_getElem?
              ((List.getElem?_append_right hge).symm.trans hc)
            rw [List.mem_singleton.mp hmem] at hq
            exact absurd hq (hnew stage maxProverNum job)
        · rintro (⟨c, hc, hq⟩ | ⟨e, c, he, _⟩)
          · obtain ⟨hlt, _⟩ := List.getElem?_eq_some_iff.mp hc
            exact ⟨c, (List.getElem?_append_left hlt).trans hc, hq⟩
          · exact nomatch he
    | proceed j e c c' sh' hc hp =>
        obtain ⟨hj, _⟩ := List.getElem?_eq_some_iff.mp hc
        by_cases hij : i = j
        · subst hij
          have hno : ¬ ∃ d, p.calls[i]? = some d ∧ Q d := by
            rintro ⟨d, hd, hq⟩
            cases hc.symm.trans hd
            exact hp.running (hover c hq)
          rw [or_iff_right hno]
          constructor
          · rintro ⟨d, hd, hq⟩
            rw [List.getElem?_set_self hj] at hd
            cases hd
            exact ⟨e, c, rfl, hc, (hstep hp).mp hq⟩
          · rintro ⟨e', d, he, hd, hr⟩
            cases he
            cases hc.symm.trans hd
            exact ⟨c', List.getElem?_set_self hj, (hstep hp).mpr hr⟩
        · show (∃ d, (p.calls.set j c')[i]? = some d ∧ Q d) ↔ _
          rw [List.getElem?_set_ne (Ne.symm hij)]
          refine (or_iff_left ?_).symm
          rintro ⟨e', d, he, _⟩
          exact hij (PoolAction.proceed.inj he).1.symm

/-- **HAPPENED**: a call has ended the way `Q` says just when one of its steps
    in the run passed `R`. -/
theorem Pool.happened {nodes : List String} {num : Option Nat}
    (hnew : ∀ stage maxProverNum job, ¬ Q ⟨stage, maxProverNum, job, .entry⟩)
    (hover : ∀ c, Q c → c.Over)
    (hstep : ∀ {sh c e sh' c'}, Proceeds sh c e sh' c' → (Q c' ↔ R sh c e))
    (hrun : run Pool.step (Pool.start nodes num) acts = some p) (i : Nat) :
    (∃ c, p.calls[i]? = some c ∧ Q c) ↔
      ¬ Along Pool.step (fun p a => ¬ p.Meets R i a) (Pool.start nodes num)
        acts := by
  have hstart : Pool.Met Q R (Pool.start nodes num) i [] (Pool.start nodes num) :=
    ⟨rfl, iff_of_false (fun ⟨_, hc, _⟩ => nomatch hc) fun h => h trivial⟩
  exact (run_trace (fun _ _ _ _ h hs => h.step hnew hover hstep hs) hstart
    hrun).iff

end

/-- The way the call has returned. -/
def Call.exit? (c : Call β) : Option Exit :=
  match c.pc with
  | .returned exit => some exit
  | _ => none

theorem Call.exit?_eq_some {c : Call β} {exit : Exit} :
    c.exit? = some exit ↔ c.pc = .returned exit := by
  rw [Call.exit?]
  split
  case h_1 e he =>
    rw [he, Option.some.injEq, Pc.returned.injEq]
  case h_2 hno =>
    refine iff_of_false (by rintro ⟨⟩) fun hret => ?_
    exact hno exit hret

/-- A run of the pool that ends where the test is passed. -/
theorem Pool.run_check (nodes : List String) (num : Option Nat)
    (acts : List (PoolAction β)) (f : Pool β → Bool)
    (h : (run Pool.step (Pool.start nodes num) acts).any f = true) :
    ∃ p, run Pool.step (Pool.start nodes num) acts = some p ∧ f p = true :=
  (Option.any_eq_true _ _).mp h

/-! ## Small runs

    One node `a`, one call of one stage. -/

/-- The call gets the node. -/
def leaseRun (job : Job (List UInt8)) : List (PoolAction (List UInt8)) :=
  [.call 0 1 job, .proceed 0 .go, .proceed 0 (.order [0]),
    .proceed 0 (.clock 1), .proceed 0 (.connect true 1)]

/-- The node answers with this code. -/
def replyRun (job : Job (List UInt8)) (code : Int) :
    List (PoolAction (List UInt8)) :=
  leaseRun job ++
    [.proceed 0 .go, .proceed 0 .go,
      .proceed 0 (.response (some ⟨some code, [7], 10, 2⟩)),
      .proceed 0 .go, .proceed 0 (.clock 2)]

end ZkmProver
