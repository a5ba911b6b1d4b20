import ZkmProver.NodeLeases

/-! # The prover number — who raises and lowers `cur_prover_num`

    The count of a stage is the number of its calls between their `+= 1` and
    their `-= 1`, plus the number of `prove` calls that returned in between
    because they got the node their task was on before (`Counted`).

    For one call, the raises and the lowerings of its run are tallied, and the
    tally is what its control point says (`Booked`): a call that returned has
    raised at most once and lowered as often as it raised, unless it was
    skipped. -/

namespace ZkmProver

open Keyed Machine

variable {β : Type}

/-- **COUNTED**: the count of every stage. -/
structure Counted (p : Pool β) : Prop where
  count : ∀ stage, p.shared.curProverNum stage
    = copies Call.charged (some stage) p.calls
      + copies Call.skipped (some stage) p.calls

theorem Counted.start (nodes : List String) (num : Option Nat) :
    Counted (Pool.start nodes num : Pool β) :=
  ⟨fun _ => rfl⟩

/-- Every step of every call keeps the counts. -/
theorem Counted.moved {p p' : Pool β} {a : PoolAction β} (h : Counted p)
    (hm : PoolMoved p a p') : Counted p' := by
  constructor
  intro st
  have hold := h.count st
  cases hm with
  | call stage maxProverNum job =>
      have hch : Call.charged ⟨stage, maxProverNum, job, .entry⟩ ≠ some st :=
        nofun
      have hsk : Call.skipped ⟨stage, maxProverNum, job, .entry⟩ ≠ some st :=
        nofun
      show p.shared.curProverNum st = copies _ _ (p.calls ++ [_])
        + copies _ _ (p.calls ++ [_])
      rw [copies_snoc_of_ne hch, copies_snoc_of_ne hsk, hold]
  | proceed i a c c' sh' hc hp =>
      have hch := copies_set Call.charged (some st) hc c'
      have hsk := copies_set Call.skipped (some st) hc c'
      have hno : ¬ none = some st := nofun
      show sh'.curProverNum st = copies Call.charged (some st) (p.calls.set i c')
        + copies Call.skipped (some st) (p.calls.set i c')
      cases hp.tallied with
      | kept hcount hcharged hskipped =>
          rw [hcharged] at hch
          rw [hskipped] at hsk
          rw [hcount]
          omega
      | raised hfree hcharged hskipped hcount =>
          rw [hfree, hcharged, if_neg hno] at hch
          rw [hskipped] at hsk
          rw [hcount, Function.update_apply]
          by_cases hst : st = c.stage
          · subst hst
            rw [if_pos rfl] at hch ⊢
            omega
          · rw [if_neg fun hs => hst (Option.some.inj hs).symm] at hch
            rw [if_neg hst]
            omega
      | lowered hcharged hfree hskipped hcount =>
          rw [hfree, hcharged, if_neg hno] at hch
          rw [hskipped] at hsk
          rw [hcount, Function.update_apply]
          by_cases hst : st = c.stage
          · subst hst
            rw [if_pos rfl] at hch ⊢
            omega
          · rw [if_neg fun hs => hst (Option.some.inj hs).symm] at hch
            rw [if_neg hst]
            omega
      | skipped hcharged hfree hnone hskipped hcount =>
          -- the call leaves its count behind
          rw [hfree, hcharged, if_neg hno] at hch
          rw [hnone, hskipped, if_neg hno] at hsk
          rw [hcount]
          omega

section

variable {nodes : List String} {num : Option Nat} {p : Pool β}

/-- The counts hold of every pool that is reached. -/
theorem Pool.Reachable.counted (h : Pool.Reachable nodes num p) : Counted p :=
  h.inv (Counted.start nodes num) fun _ _ _ hi hm => hi.moved hm

/-- The count is that of the charged calls unless some call has skipped its
    decrement. -/
theorem Counted.balanced_iff (h : Counted p) (stage : Nat) :
    p.shared.curProverNum stage = copies Call.charged (some stage) p.calls
      ↔ ∀ c ∈ p.calls, c.skipped ≠ some stage := by
  have hcount := h.count stage
  rw [← copies_eq_zero]
  omega

end

/-! ## The books of one call -/

/-- The call that an action moves. -/
def PoolAction.caller : PoolAction β → Option Nat
  | .call _ _ _ => none
  | .proceed i _ => some i

/-- The `i`-th call raises the count of the stage. -/
def raising (stage i : Nat) (p : Pool β) (a : PoolAction β) (p' : Pool β) :
    Bool :=
  a.caller = some i
    && p.shared.curProverNum stage < p'.shared.curProverNum stage

/-- The `i`-th call lowers the count of the stage. -/
def lowering (stage i : Nat) (p : Pool β) (a : PoolAction β) (p' : Pool β) :
    Bool :=
  a.caller = some i
    && p'.shared.curProverNum stage < p.shared.curProverNum stage

/-- How often the `i`-th call raises the count of the stage in a run. -/
def Pool.raises (p : Pool β) (stage i : Nat) (acts : List (PoolAction β)) :
    Nat :=
  tally Pool.step (raising stage i) p acts

/-- How often it lowers it. -/
def Pool.lowers (p : Pool β) (stage i : Nat) (acts : List (PoolAction β)) :
    Nat :=
  tally Pool.step (lowering stage i) p acts

namespace Call

/-- The call is one of `single_node`, which counts nothing. -/
def single (c : Call β) : Bool := c.job.taskType = .SingleNode

/-- The raises of a call that has come to this point. -/
def raised (c : Call β) : Nat :=
  match c.pc with
  | .counted _ => 1
  | .rpc _ => 1
  | .answered _ _ => 1
  | .release _ _ => (!c.single).toNat
  | .returned (.skipped _) => 1
  | .returned (.replied _) => (!c.single).toNat
  | _ => 0

/-- The lowerings of a call that has come to this point. -/
def lowered (c : Call β) : Nat :=
  match c.pc with
  | .release _ _ => (!c.single).toNat
  | .returned (.replied _) => (!c.single).toNat
  | _ => 0

/-- Only `single_node` waits uncounted, and it never waits counted. -/
def Parted (c : Call β) : Prop :=
  match c.pc with
  | .counted _ => c.single = false
  | .rpc _ => c.single = false
  | .answered _ _ => c.single = false
  | .alone _ => c.single = true
  | _ => True

/-- No call raises the count twice. -/
theorem raised_le (c : Call β) : c.raised ≤ 1 := by
  have hle : ∀ b : Bool, b.toNat ≤ 1 := Bool.toNat_le
  rw [raised]
  split <;> simp [hle]

/-- A call that has returned took back what it raised, unless it skipped. -/
theorem raised_iff {c : Call β} {exit : Exit} (hpc : c.pc = .returned exit) :
    c.raised = c.lowered ↔ c.skipped ≠ some c.stage := by
  rw [raised, lowered, skipped, hpc]
  cases exit <;> simp

end Call

/-- What a step enters in the books of its call. -/
inductive Entered (sh : Shared) (c : Call β) (sh' : Shared) (c' : Call β) :
    Prop where
  | kept : sh'.curProverNum = sh.curProverNum → c'.raised = c.raised →
      c'.lowered = c.lowered → Entered sh c sh' c'
  | raised : c'.raised = c.raised + 1 → c'.lowered = c.lowered →
      sh'.curProverNum = Function.update sh.curProverNum c.stage
        (sh.curProverNum c.stage + 1) → Entered sh c sh' c'
  | lowered : c.charged = some c.stage → c'.raised = c.raised →
      c'.lowered = c.lowered + 1 →
      sh'.curProverNum = Function.update sh.curProverNum c.stage
        (sh.curProverNum c.stage - 1) → Entered sh c sh' c'

section

variable {sh sh' : Shared} {c c' : Call β} {a : Answer β}

theorem single_of_job {t : SingleNodeTask β} (h : c.job = .singleNode t) :
    c.single = true := by
  rw [Call.single, h]
  rfl

/-- Only a single-node task makes a call of that kind. -/
theorem not_single (h : c.job.taskType ≠ .SingleNode) : c.single = false :=
  decide_eq_false h

/-- The kind of a call never changes. -/
theorem Proceeds.single_eq (h : Proceeds sh c a sh' c') :
    c'.single = c.single := by
  obtain ⟨_, _, htype, _⟩ := h.fixed
  rw [Call.single, Call.single, htype]

theorem parted_of_pc {pc : Pc β} (hpc : c.pc = pc) (h : c.Parted) :
    Call.Parted { c with pc := pc } := by
  rw [← hpc]
  exact h

/-- A step keeps the two kinds of calls apart. -/
theorem Proceeds.parted (h : Proceeds sh c a sh' c') (hc : c.Parted) :
    c'.Parted := by
  cases h with
  | count n _ hne _ => exact not_single hne
  | updated n t _ hjob => exact single_of_job hjob
  | send n hpc _ =>
      have hno : c.single = false := parted_of_pc hpc hc
      exact hno
  | answered n r hpc =>
      have hno : c.single = false := parted_of_pc hpc hc
      exact hno
  | _ => exact trivial

theorem raised_of_pc {pc : Pc β} (hpc : c.pc = pc) :
    c.raised = Call.raised { c with pc := pc } := by
  rw [← hpc]

theorem lowered_of_pc {pc : Pc β} (hpc : c.pc = pc) :
    c.lowered = Call.lowered { c with pc := pc } := by
  rw [← hpc]

/-- A step enters a raise, a decrement or nothing. -/
theorem Proceeds.entered (h : Proceeds sh c a sh' c') (hc : c.Parted) :
    Entered sh c sh' c' := by
  have kept : ∀ {pc : Pc β}, c.pc = pc →
      c'.raised = Call.raised { c with pc := pc } →
      c'.lowered = Call.lowered { c with pc := pc } →
      sh'.curProverNum = sh.curProverNum → Entered sh c sh' c' := by
    intro pc hpc hr hl hcount
    exact .kept hcount (hr.trans (raised_of_pc hpc).symm)
      (hl.trans (lowered_of_pc hpc).symm)
  have hsingle := h.single_eq
  cases h with
  | count n hpc _ _ =>
      refine .raised ?_ (lowered_of_pc hpc).symm rfl
      rw [raised_of_pc hpc]
      rfl
  | alone n r hpc =>
      -- `single_node` has nothing in its books
      have hyes : c.single = true := parted_of_pc hpc hc
      refine kept hpc ?_ ?_ rfl <;>
        simp only [Call.raised, Call.lowered] <;> rw [hsingle, hyes] <;> rfl
  | uncount n r hpc =>
      have hno : c.single = false := parted_of_pc hpc hc
      refine .lowered (charged_of_pc hpc) ?_ ?_ rfl
      · rw [raised_of_pc hpc]
        simp only [Call.raised]
        rw [hsingle, hno]
        rfl
      · rw [lowered_of_pc hpc]
        simp only [Call.lowered]
        rw [hsingle, hno]
        rfl
  | giveBack n r now status hpc _ =>
      refine kept hpc ?_ ?_ rfl
      · simp only [Call.raised]
        rw [hsingle]
        rfl
      · simp only [Call.lowered]
        rw [hsingle]
        rfl
  | single t hpc _ => exact kept hpc rfl rfl rfl
  | limit hpc _ _ => exact kept hpc rfl rfl rfl
  | enter hpc _ _ => exact kept hpc rfl rfl rfl
  | panic nodes hpc _ => exact kept hpc rfl rfl rfl
  | order nodes all hpc _ _ => exact kept hpc rfl rfl rfl
  | pass n nodes now hpc => exact kept hpc rfl rfl rfl
  | lease n nodes now client hpc _ _ => exact kept hpc rfl rfl rfl
  | connected n nodes ok now client hpc => exact kept hpc rfl rfl rfl
  | refused n nodes ok now hpc => exact kept hpc rfl rfl rfl
  | again t hpc _ => exact kept hpc rfl rfl rfl
  | noClient hpc _ => exact kept hpc rfl rfl rfl
  | late n hpc _ _ => exact kept hpc rfl rfl rfl
  | updated n t hpc _ => exact kept hpc rfl rfl rfl
  | failed n t hpc _ => exact kept hpc rfl rfl rfl
  | skipped n t hpc _ _ => exact kept hpc rfl rfl rfl
  | send n hpc _ => exact kept hpc rfl rfl rfl
  | answered n r hpc => exact kept hpc rfl rfl rfl

end

/-- What the `i`-th call has entered for the stage. -/
def Pool.entry (p : Pool β) (f : Call β → Nat) (stage i : Nat) : Nat :=
  match p.calls[i]? with
  | some c => if c.stage = stage then f c else 0
  | none => 0

/-- **BOOKED**: the tallies of a run are what the control points say. -/
structure Booked (start : Pool β) (acts : List (PoolAction β))
    (p : Pool β) : Prop where
  run : Machine.run Pool.step start acts = some p
  counted : Counted p
  parted : ∀ c ∈ p.calls, c.Parted
  raises : ∀ stage i, start.raises stage i acts = p.entry Call.raised stage i
  lowers : ∀ stage i, start.lowers stage i acts = p.entry Call.lowered stage i

theorem Booked.start (nodes : List String) (num : Option Nat) :
    Booked (Pool.start nodes num) [] (Pool.start nodes num : Pool β) where
  run := rfl
  counted := Counted.start nodes num
  parted := fun _ hc => absurd hc List.not_mem_nil
  raises := fun _ _ => rfl
  lowers := fun _ _ => rfl

section

variable {p p' : Pool β} {a : PoolAction β}

theorem Pool.entry_call (f : Call β → Nat)
    {stage maxProverNum : Nat} {job : Job β}
    (hf : f ⟨stage, maxProverNum, job, .entry⟩ = 0) (st i : Nat) :
    Pool.entry { p with calls := p.calls ++ [⟨stage, maxProverNum, job, .entry⟩] }
      f st i = p.entry f st i := by
  rw [entry, entry]
  rcases Nat.lt_trichotomy i p.calls.length with hlt | heq | hgt
  · rw [List.getElem?_append_left hlt]
  · subst heq
    rw [List.getElem?_concat_length, List.getElem?_eq_none (Nat.le_refl _)]
    dsimp only
    rw [hf, ite_self]
  · rw [List.getElem?_eq_none (by rw [List.length_append]; exact hgt),
      List.getElem?_eq_none (Nat.le_of_lt hgt)]

/-- A step enters in the tally what it enters in the books. -/
theorem entry_moved (hcounted : Counted p) (hparted : ∀ c ∈ p.calls, c.Parted)
    (hm : PoolMoved p a p') (st i : Nat) :
    p'.entry Call.raised st i
        = p.entry Call.raised st i + (raising st i p a p').toNat ∧
      p'.entry Call.lowered st i
        = p.entry Call.lowered st i + (lowering st i p a p').toNat := by
  cases hm with
  | call stage maxProverNum job =>
      exact ⟨Pool.entry_call _ rfl st i, Pool.entry_call _ rfl st i⟩
  | proceed j e c c' sh' hc hp =>
      obtain ⟨hj, _⟩ := List.getElem?_eq_some_iff.mp hc
      by_cases hij : i = j
      · subst hij
        have hstage := hp.fixed.1
        have hent := hp.entered (hparted c (List.mem_of_getElem? hc))
        simp only [Pool.entry, hc, List.getElem?_set_self hj, raising,
          lowering, PoolAction.caller, hstage, decide_true, Bool.true_and]
        by_cases hst : c.stage = st
        · subst hst
          simp only [if_true]
          cases hent with
          | kept hcount hr hl =>
              rw [hr, hl, hcount]
              simp
          | raised hr hl hcount =>
              rw [hr, hl, hcount]
              simp
          | lowered hch hr hl hcount =>
              have hpos : 0 < p.shared.curProverNum c.stage := by
                rw [hcounted.count]
                have hone :=
                  copies_pos Call.charged (List.mem_of_getElem? hc)
                rw [hch] at hone
                omega
              have hlow : p.shared.curProverNum c.stage - 1
                  < p.shared.curProverNum c.stage := by omega
              have hnot : ¬ p.shared.curProverNum c.stage
                  < p.shared.curProverNum c.stage - 1 := by omega
              rw [hr, hl, hcount]
              simp [hlow, hnot]
        · -- the count of another stage is left alone
          have hsame : sh'.curProverNum st = p.shared.curProverNum st := by
            have hne : st ≠ c.stage := fun h => hst h.symm
            cases hent with
            | kept hcount _ _ => rw [hcount]
            | raised _ _ hcount => rw [hcount, Function.update_of_ne hne]
            | lowered _ _ _ hcount => rw [hcount, Function.update_of_ne hne]
          simp [hst, hsame]
      · have hother : ¬ j = i := fun h => hij h.symm
        have hcalls : (p.calls.set j c')[i]? = p.calls[i]? :=
          List.getElem?_set_ne hother
        simp [Pool.entry, hcalls, raising, lowering, PoolAction.caller, hother]

end

/-- What new calls have and every step of a call keeps, all calls have. -/
theorem PoolMoved.calls {P : Call β → Prop} {p p' : Pool β} {a : PoolAction β}
    (hm : PoolMoved p a p')
    (hnew : ∀ stage maxProverNum job, a = .call stage maxProverNum job →
      P ⟨stage, maxProverNum, job, .entry⟩)
    (hstep : ∀ sh c e sh' c', Proceeds sh c e sh' c' → P c → P c')
    (h : ∀ c ∈ p.calls, P c) : ∀ c ∈ p'.calls, P c := by
  intro d hd
  cases hm with
  | call stage maxProverNum job =>
      rcases List.mem_append.mp hd with hold | hd
      · exact h d hold
      · rw [List.mem_singleton.mp hd]
        exact hnew stage maxProverNum job rfl
  | proceed i e c c' sh' hc hp =>
      rcases List.mem_or_eq_of_mem_set hd with hold | rfl
      · exact h d hold
      · exact hstep _ _ _ _ _ hp (h c (List.mem_of_getElem? hc))

/-- A step of the pool keeps every call apart from the other kind. -/
theorem parted_moved {p p' : Pool β} {a : PoolAction β}
    (h : ∀ c ∈ p.calls, c.Parted) (hm : PoolMoved p a p') :
    ∀ c ∈ p'.calls, c.Parted :=
  hm.calls (fun _ _ _ _ => trivial) (fun _ _ _ _ _ hp hc => hp.parted hc) h

/-- Every step of the pool keeps the books. -/
theorem Booked.step {start p p' : Pool β} {acts : List (PoolAction β)}
    {a : PoolAction β} (h : Booked start acts p) (hs : p.step a = some p') :
    Booked start (acts ++ [a]) p' where
  run := run_snoc.mpr ⟨p, h.run, hs⟩
  counted := h.counted.moved (Pool.step_moved hs)
  parted := parted_moved h.parted (Pool.step_moved hs)
  raises := by
    intro st i
    rw [Pool.raises, tally_snoc h.run hs]
    have hold := h.raises st i
    rw [Pool.raises] at hold
    rw [hold]
    exact (entry_moved h.counted h.parted (Pool.step_moved hs) st i).1.symm
  lowers := by
    intro st i
    rw [Pool.lowers, tally_snoc h.run hs]
    have hold := h.lowers st i
    rw [Pool.lowers] at hold
    rw [hold]
    exact (entry_moved h.counted h.parted (Pool.step_moved hs) st i).2.symm

/-- The books of a run. -/
theorem booked {nodes : List String} {num : Option Nat}
    {acts : List (PoolAction β)} {p : Pool β}
    (hrun : run Pool.step (Pool.start nodes num) acts = some p) :
    Booked (Pool.start nodes num) acts p :=
  run_trace (fun _ _ _ _ h hs => h.step hs) (Booked.start nodes num) hrun

/-- Only the call itself changes the count of its stage, and only up when it
    becomes charged and down when it was. -/
theorem Pool.step_count {p p' : Pool β} {a : PoolAction β}
    (hs : p.step a = some p') {stage : Nat}
    (hne : p'.shared.curProverNum stage ≠ p.shared.curProverNum stage) :
    ∃ i e c, a = .proceed i e ∧ p.calls[i]? = some c ∧ c.stage = stage := by
  cases Pool.step_moved hs with
  | call st maxProverNum job => exact absurd rfl hne
  | proceed i e c c' sh' hc hp =>
      refine ⟨i, e, c, rfl, hc, Classical.byContradiction fun hst => ?_⟩
      have hother : stage ≠ c.stage := fun h => hst h.symm
      refine hne ?_
      show sh'.curProverNum stage = _
      cases hp.tallied with
      | kept hcount _ _ => rw [hcount]
      | raised _ _ _ hcount => rw [hcount, Function.update_of_ne hother]
      | lowered _ _ _ hcount => rw [hcount, Function.update_of_ne hother]
      | skipped _ _ _ _ hcount => rw [hcount]

/-- No call of the stage is running. -/
def Pool.Quiet (p : Pool β) (stage : Nat) : Prop :=
  ∀ c ∈ p.calls, c.stage = stage → c.Over

/-- A stage at rest has no charged call. -/
theorem Pool.Quiet.charged {p : Pool β} {stage : Nat} (h : p.Quiet stage) :
    copies Call.charged (some stage) p.calls = 0 := by
  refine copies_eq_zero.mpr fun c hc hch => ?_
  have hstage : c.stage = stage := by
    rw [Call.charged] at hch
    split at hch
    · exact Option.some.inj hch
    · exact Option.some.inj hch
    · exact Option.some.inj hch
    · exact nomatch hch
  rcases h c hc hstage with ⟨exit, hexit⟩ | hexit
  · exact nomatch (charged_of_pc hexit).symm.trans hch
  · exact nomatch (charged_of_pc hexit).symm.trans hch

/-! ## The skip -/

/-- A counted `prove` call got the node its task was on before. -/
def SameNode (sh : Shared) (c : Call β) (_ : Answer β) : Prop :=
  ∃ n t, c.pc = .counted n ∧ c.job = .prove t ∧ t.trace.nodeInfo = sh.addr n

/-- A call skips exactly in the step the condition names. -/
theorem Proceeds.skips {sh sh' : Shared} {c c' : Call β} {a : Answer β}
    (h : Proceeds sh c a sh' c') :
    (¬ SameNode sh c a ∧ c'.skipped = c.skipped) ∨
      (SameNode sh c a ∧ c.skipped = none ∧ c'.skipped = some c.stage) := by
  have other : ∀ {pc : Pc β}, c.pc = pc → (∀ n, pc ≠ .counted n) →
      c'.skipped = Call.skipped { c with pc := pc } →
      (¬ SameNode sh c a ∧ c'.skipped = c.skipped) ∨
        (SameNode sh c a ∧ c.skipped = none ∧ c'.skipped = some c.stage) := by
    intro pc hpc hne hsk
    refine Or.inl ⟨?_, hsk.trans (skipped_of_pc hpc).symm⟩
    rintro ⟨n, t, hn, _⟩
    exact hne n (hpc.symm.trans hn)
  cases h with
  | skipped n t hpc hjob hsame =>
      exact Or.inr ⟨⟨n, t, hpc, hjob, hsame⟩, skipped_of_pc hpc, rfl⟩
  | send n hpc hdiff =>
      refine Or.inl ⟨?_, (skipped_of_pc hpc).symm⟩
      rintro ⟨m, t, hm, hjob, hsame⟩
      cases hpc.symm.trans hm
      exact hdiff t hjob hsame
  | single t hpc _ => exact other hpc nofun rfl
  | limit hpc _ _ => exact other hpc nofun rfl
  | enter hpc _ _ => exact other hpc nofun rfl
  | panic nodes hpc _ => exact other hpc nofun rfl
  | order nodes all hpc _ _ => exact other hpc nofun rfl
  | pass n nodes now hpc => exact other hpc nofun rfl
  | lease n nodes now client hpc _ _ => exact other hpc nofun rfl
  | connected n nodes ok now client hpc => exact other hpc nofun rfl
  | refused n nodes ok now hpc => exact other hpc nofun rfl
  | again t hpc _ => exact other hpc nofun rfl
  | noClient hpc _ => exact other hpc nofun rfl
  | late n hpc _ _ => exact other hpc nofun rfl
  | count n hpc _ _ => exact other hpc nofun rfl
  | updated n t hpc _ => exact other hpc nofun rfl
  | failed n t hpc _ => exact other hpc nofun rfl
  | answered n r hpc => exact other hpc nofun rfl
  | alone n r hpc => exact other hpc nofun rfl
  | uncount n r hpc => exact other hpc nofun rfl
  | giveBack n r now status hpc _ => exact other hpc nofun rfl

/-- A call returned through the skip just when it got the node its task was
    on before. -/
theorem skipped_run {nodes : List String} {num : Option Nat}
    {acts : List (PoolAction β)} {p : Pool β}
    (hrun : run Pool.step (Pool.start nodes num) acts = some p) (i : Nat) :
    (∃ c, p.calls[i]? = some c ∧ c.skipped ≠ none) ↔
      ¬ Along Pool.step (fun p a => ¬ p.Meets SameNode i a)
        (Pool.start nodes num) acts := by
  refine Pool.happened (fun _ _ _ h => h rfl) ?_ ?_ hrun i
  · intro c hsk
    rw [Call.skipped] at hsk
    split at hsk
    case h_1 n hpc => exact .inl ⟨_, hpc⟩
    case h_2 => exact absurd rfl hsk
  · intro sh c e sh' c' hp
    rcases hp.skips with ⟨hno, hsk⟩ | ⟨hyes, hnone, hsk⟩
    · refine iff_of_false (fun h => ?_) hno
      -- the call had not returned
      rw [hsk, Call.skipped] at h
      split at h
      case h_1 n hpc => exact hp.running (.inl ⟨_, hpc⟩)
      case h_2 => exact h rfl
    · exact iff_of_true (by rw [hsk]; exact nofun) hyes

/-- What a call skips is the decrement of its own stage. -/
theorem skipped_stage {c : Call β} (h : c.skipped ≠ none) :
    c.skipped = some c.stage := by
  rw [Call.skipped] at h ⊢
  split at h
  case h_1 n hpc => rfl
  case h_2 => exact absurd rfl h

/-- **PROVER NUMBER**: in a run, a call that returned has lowered the count of
    its stage as often as it raised it, just when it is no `prove` call that
    got the node its task was on before; and the count is 0 when no call of
    the stage is running, just when the stage has no such call.  No call
    raises twice, and none touches the count of another. -/
theorem prover_num_balanced {nodes : List String} {num : Option Nat}
    {acts : List (PoolAction β)} {p : Pool β}
    (hrun : run Pool.step (Pool.start nodes num) acts = some p) :
    (∀ i c exit, p.calls[i]? = some c → c.pc = .returned exit →
      ((Pool.start nodes num).raises c.stage i acts
          = (Pool.start nodes num).lowers c.stage i acts ↔
        Along Pool.step (fun p a => ¬ p.Meets SameNode i a)
          (Pool.start nodes num) acts)) ∧
    (∀ stage, p.Quiet stage → (p.shared.curProverNum stage = 0 ↔
      ∀ i c, p.calls[i]? = some c → c.stage = stage →
        Along Pool.step (fun p a => ¬ p.Meets SameNode i a)
          (Pool.start nodes num) acts)) ∧
    (∀ stage i, (Pool.start nodes num).raises stage i acts ≤ 1) ∧
    (∀ stage a p', p.step a = some p' →
      p'.shared.curProverNum stage ≠ p.shared.curProverNum stage →
      ∃ i e c, a = .proceed i e ∧ p.calls[i]? = some c ∧ c.stage = stage) := by
  have hbooked := booked hrun
  -- a call knows at its end whether it has met its old node
  have hskip : ∀ i c, p.calls[i]? = some c →
      (c.skipped = none ↔
        Along Pool.step (fun p a => ¬ p.Meets SameNode i a)
          (Pool.start nodes num) acts) := by
    intro i c hc
    rw [← Classical.not_not (a := Along _ _ _ _), ← skipped_run hrun i]
    constructor
    · rintro hnone ⟨d, hd, hsk⟩
      cases hc.symm.trans hd
      exact hsk hnone
    · intro hno
      exact Classical.byContradiction fun hsk => hno ⟨c, hc, hsk⟩
  refine ⟨?_, ?_, ?_, fun stage a p' hs => Pool.step_count hs⟩
  · intro i c exit hi hpc
    rw [hbooked.raises, hbooked.lowers, Pool.entry, Pool.entry, hi]
    dsimp only
    rw [if_pos rfl, if_pos rfl, Call.raised_iff hpc, ← hskip i c hi]
    constructor
    · exact fun hne => Classical.byContradiction fun hsk =>
        hne (skipped_stage hsk)
    · intro hnone
      rw [hnone]
      exact nofun
  · intro stage hquiet
    -- with nobody running the count is what the skips have left
    rw [← hquiet.charged, hbooked.counted.balanced_iff]
    constructor
    · intro hno i c hi hst
      rw [← hskip i c hi]
      refine Classical.byContradiction fun hsk => ?_
      have hmine := skipped_stage hsk
      rw [hst] at hmine
      exact hno c (List.mem_of_getElem? hi) hmine
    · intro hall c hc hsk
      obtain ⟨i, hi⟩ := List.mem_iff_getElem?.mp hc
      have hst : c.stage = stage :=
        Option.some.inj ((skipped_stage (by rw [hsk]; exact nofun)).symm.trans
          hsk)
      exact nomatch ((hskip i c hi).mpr (hall i c hi hst)).symm.trans hsk
  · intro stage i
    rw [hbooked.raises, Pool.entry]
    split
    · split
      · exact Call.raised_le _
      · exact Nat.zero_le 1
    · exact Nat.zero_le 1

/-- The books of a split call that was answered. -/
theorem prover_num_balanced_split :
    ∃ p : Pool (List UInt8),
      run Pool.step (Pool.start ["a"] none) (replyRun (.split .default) 0)
        = some p ∧
      p.shared.curProverNum 0 = 0 ∧
      (Pool.start ["a"] none).raises 0 0 (replyRun (.split .default) 0)
        = (Pool.start ["a"] none).lowers 0 0
          (replyRun (.split .default) 0) := by
  obtain ⟨p, hrun, hp⟩ := Pool.run_check ["a"] none
    (replyRun (.split .default) 0)
    (fun p => p.calls.length = 1 && p.calls[0]?.any fun c =>
      c.exit? = some (.replied 0) && c.stage = 0) (by decide)
  rw [Bool.and_eq_true, decide_eq_true_eq] at hp
  obtain ⟨c, hc, hpc⟩ := (Option.any_eq_true _ _).mp hp.2
  rw [Bool.and_eq_true, decide_eq_true_eq, decide_eq_true_eq,
    Call.exit?_eq_some] at hpc
  obtain ⟨hret, hst⟩ := hpc
  obtain ⟨hbalance, hcount, _⟩ := prover_num_balanced hrun
  have honly : ∀ i d, p.calls[i]? = some d → i = 0 := by
    intro i d hd
    obtain ⟨hlt, _⟩ := List.getElem?_eq_some_iff.mp hd
    omega
  have hnot : c.skipped = none := skipped_of_pc hret
  have halong := Classical.not_not.mp fun h => by
    obtain ⟨d, hd, hsk⟩ := (skipped_run hrun 0).mpr h
    cases hc.symm.trans hd
    exact hsk hnot
  have hquiet : p.Quiet 0 := by
    intro d hd _
    obtain ⟨i, hi⟩ := List.mem_iff_getElem?.mp hd
    cases honly i d hi
    cases hc.symm.trans hi
    exact .inl ⟨_, hret⟩
  refine ⟨p, hrun, (hcount 0 hquiet).mpr fun i d hi _ => ?_, ?_⟩
  · cases honly i d hi
    exact halong
  · have hbal := (hbalance 0 c _ hc hret).mpr halong
    rwa [hst] at hbal

/-- A task that failed on the node `a` before. -/
def retriedTask : ProveTask (List UInt8) where
  toTaskHead := { TaskHead.default with trace := ⟨0, 0, "a"⟩ }
  programId := ""
  baseDir := ""
  fileNo := 0
  isDeferred := false
  segment := ""
  failureCount := 1
  program :=
    { version := .Zkm2
      elfPath := ""
      blockData := []
      blockNo := none
      segSize := 0
      publicInputStream := []
      privateInputStream := []
      targetStep := .Agg
      compositeProof := false
      receipts := []
      proofId := ""
      outputStream := [] }

/-- The only node is the one the task was on: the call returns and the count
    stays 1. -/
theorem prover_num_kept :
    ∃ p : Pool (List UInt8),
      run Pool.step (Pool.start ["a"] none)
        (leaseRun (.prove retriedTask) ++ [.proceed 0 .go, .proceed 0 .go])
        = some p ∧
      p.Quiet 0 ∧ p.shared.curProverNum 0 = 1 := by
  obtain ⟨p, hrun, hp⟩ := Pool.run_check ["a"] none
    (leaseRun (.prove retriedTask) ++ [.proceed 0 .go, .proceed 0 .go])
    (fun p => p.shared.curProverNum 0 = 1 &&
      p.calls.all fun c => c.exit?.isSome) (by decide)
  rw [Bool.and_eq_true, decide_eq_true_eq] at hp
  refine ⟨p, hrun, fun c hc _ => ?_, hp.1⟩
  obtain ⟨exit, hexit⟩ := Option.isSome_iff_exists.mp
    (List.all_eq_true.mp hp.2 c hc)
  exact .inl ⟨exit, Call.exit?_eq_some.mp hexit⟩

/-! ## The limit -/

/-- A call of the stage comes with the limit of the stage, and is one of the
    four. -/
def PoolAction.Limited (stage m : Nat) : PoolAction β → Prop
  | .call st maxProverNum job =>
      st = stage → maxProverNum = m ∧ job.taskType ≠ .SingleNode
  | .proceed _ _ => True

/-- The stage of a call whose RPC is in flight. -/
def Call.calling (c : Call β) : Option Nat :=
  match c.pc with
  | .rpc _ => some c.stage
  | .alone _ => some c.stage
  | _ => none

/-- A call that keeps to the limit of its stage. -/
def Call.Limited (stage m : Nat) (c : Call β) : Prop :=
  c.stage = stage → c.maxProverNum = m ∧ c.single = false

/-- The count of the stage is within the limit. -/
structure Limited (stage m : Nat) (p : Pool β) : Prop where
  counted : Counted p
  parted  : ∀ c ∈ p.calls, c.Parted
  calls   : ∀ c ∈ p.calls, c.Limited stage m
  count   : p.shared.curProverNum stage ≤ m

section

variable {stage m : Nat}

theorem Limited.start (nodes : List String) (num : Option Nat) :
    Limited stage m (Pool.start nodes num : Pool β) where
  counted := Counted.start nodes num
  parted := fun _ hc => absurd hc List.not_mem_nil
  calls := fun _ hc => absurd hc List.not_mem_nil
  count := Nat.zero_le m

/-- A step leaves the limit of a call as it is. -/
theorem Proceeds.limited {sh sh' : Shared} {c c' : Call β} {e : Answer β}
    (h : Proceeds sh c e sh' c') (hc : c.Limited stage m) :
    c'.Limited stage m := by
  obtain ⟨hstage, hmax, _⟩ := h.fixed
  rw [Call.Limited, hstage, hmax, h.single_eq]
  exact hc

/-- The check in front of the raise: one step keeps the count of a stage
    within the limit of its calls. -/
theorem Proceeds.count_le {sh sh' : Shared} {c c' : Call β} {e : Answer β}
    (h : Proceeds sh c e sh' c') (hc : c.Limited stage m)
    (hcount : sh.curProverNum stage ≤ m) : sh'.curProverNum stage ≤ m := by
  cases h with
  | count n hpc htype hlt =>
      show Function.update sh.curProverNum c.stage _ stage ≤ m
      rw [Function.update_apply]
      split
      case isTrue hst =>
        obtain ⟨hmax, _⟩ := hc hst.symm
        rw [hmax] at hlt
        exact hlt
      case isFalse => exact hcount
  | uncount n r hpc =>
      show Function.update sh.curProverNum c.stage _ stage ≤ m
      rw [Function.update_apply]
      split
      case isTrue hst =>
        subst hst
        omega
      case isFalse => exact hcount
  | _ => exact hcount

/-- Every step keeps the count of the stage within the limit. -/
theorem Limited.moved {p p' : Pool β} {a : PoolAction β}
    (h : Limited stage m p) (ha : a.Limited stage m) (hm : PoolMoved p a p') :
    Limited stage m p' where
  counted := h.counted.moved hm
  parted := parted_moved h.parted hm
  calls := by
    refine hm.calls ?_ (fun _ _ _ _ _ hp hc => hp.limited hc) h.calls
    rintro st maxProverNum job rfl hst
    obtain ⟨hmax, htype⟩ := ha hst
    exact ⟨hmax, decide_eq_false htype⟩
  count := by
    cases hm with
    | call st maxProverNum job => exact h.count
    | proceed i e c c' sh' hc hp =>
        exact hp.count_le (h.calls c (List.mem_of_getElem? hc)) h.count

/-- The count stays within it over a whole run. -/
theorem limited {nodes : List String} {num : Option Nat}
    {acts : List (PoolAction β)} {p : Pool β}
    (hacts : ∀ a ∈ acts, a.Limited stage m)
    (hrun : run Pool.step (Pool.start nodes num) acts = some p) :
    Limited stage m p :=
  run_inv_of (fun _ _ _ ha h hs => h.moved ha (Pool.step_moved hs)) hacts
    (Limited.start nodes num) hrun

/-- A call of the stage with its RPC in flight is counted. -/
theorem Call.charged_of_calling {c : Call β} (hparted : c.Parted)
    (hlimited : c.Limited stage m) (h : c.calling = some stage) :
    c.charged = some stage := by
  rw [Call.calling] at h
  split at h
  case h_1 n hpc => exact (charged_of_pc hpc).trans h
  case h_2 n hpc =>
    -- `single_node` is none of the four
    have hyes : c.single = true := parted_of_pc hpc hparted
    obtain ⟨_, hno⟩ := hlimited (Option.some.inj h)
    rw [hyes] at hno
    cases hno
  case h_3 => cases h

/-- The RPCs in flight are among the calls that are counted. -/
theorem Limited.calling_le {p : Pool β} (h : Limited stage m p) :
    copies Call.calling (some stage) p.calls
      ≤ p.shared.curProverNum stage := by
  have hcharged : copies Call.calling (some stage) p.calls
      ≤ copies Call.charged (some stage) p.calls := by
    refine List.countP_mono_left fun c hc hcalling => ?_
    rw [decide_eq_true_eq] at hcalling ⊢
    exact Call.charged_of_calling (h.parted c hc) (h.calls c hc) hcalling
  have hcount := h.counted.count stage
  omega

/-- A charged call is counted, so its decrement never underflows. -/
theorem Counted.pos {p : Pool β} (h : Counted p) {c : Call β}
    (hc : c ∈ p.calls) (hcharged : c.charged = some c.stage) :
    0 < p.shared.curProverNum c.stage := by
  have hpos := copies_pos Call.charged hc
  rw [hcharged] at hpos
  have hcount := h.count c.stage
  omega

/-- **PROVER LIMIT**: in every run in which the calls of a stage come with its
    limit `m`, the RPCs of the stage in flight are no more than `m`, nor is
    its `cur_prover_num`; and where a call is about to lower it, it is
    positive. -/
theorem prover_limit {nodes : List String} {num : Option Nat}
    {acts : List (PoolAction β)} {p : Pool β}
    (hacts : ∀ a ∈ acts, a.Limited stage m)
    (hrun : run Pool.step (Pool.start nodes num) acts = some p) :
    copies Call.calling (some stage) p.calls ≤ m ∧
    p.shared.curProverNum stage ≤ m ∧
    ∀ c ∈ p.calls, ∀ n r, c.pc = .answered n r →
      0 < p.shared.curProverNum c.stage := by
  have hlimited := limited hacts hrun
  refine ⟨Nat.le_trans hlimited.calling_le hlimited.count, hlimited.count, ?_⟩
  intro c hc n r hpc
  exact hlimited.counted.pos hc (charged_of_pc hpc)

end

/-- Two splits over two nodes: one sends its RPC, the other one has a node
    too. -/
def raceRun : List (PoolAction (List UInt8)) :=
  [.call 0 1 (.split .default), .call 0 1 (.split .default),
    .proceed 0 .go, .proceed 1 .go,
    .proceed 0 (.order [0, 1]), .proceed 1 (.order [0, 1]),
    .proceed 0 (.clock 1), .proceed 0 (.connect true 1),
    .proceed 1 (.clock 1), .proceed 1 (.clock 1), .proceed 1 (.connect true 1),
    .proceed 0 .go, .proceed 1 .go, .proceed 0 .go]

/-- With limit 1 the other call returns at its second check. -/
theorem prover_limit_one :
    ∃ p : Pool (List UInt8),
      run Pool.step (Pool.start ["a", "b"] none) raceRun = some p ∧
      p.calls.any (fun c => c.calling = some 0) = true ∧
      copies Call.calling (some 0) p.calls ≤ 1 := by
  obtain ⟨p, hrun, hp⟩ := Pool.run_check ["a", "b"] none raceRun
    (fun p => p.calls.any fun c => c.calling = some 0) (by decide)
  refine ⟨p, hrun, hp, (prover_limit ?_ hrun).1⟩
  simp [raceRun, PoolAction.Limited, Job.taskType]

end ZkmProver
