import ZkmProver.ClientSteps

/-! # Node leases — a node is with one call at most

    `get_idle_client` marks a node under the lock of its status and probes it
    outside; five calls give it back.  A node is Busy exactly while one call
    holds it (`Leased`), over every interleaving of the calls of all stages.

    A node is given back on every way out of a call but one: `single_node`
    returns the error of its database update before the node is given back. -/

namespace ZkmProver

open Keyed Machine

variable {β : Type}

/-- The `i`-th call has obtained or is probing `n`, and has not given it
    back. -/
def Pool.Holds (p : Pool β) (i n : Nat) : Prop :=
  ∃ c, p.calls[i]? = some c ∧ c.held = some n

/-- **LEASED**: a Busy node has one holder, any other node none. -/
structure Leased (p : Pool β) : Prop where
  holders : ∀ n, copies Call.held (some n) p.calls
    = if p.shared.status n = .Busy then 1 else 0

/-- Before the first call no node is leased. -/
theorem Leased.start (nodes : List String) (num : Option Nat) :
    Leased (Pool.start nodes num : Pool β) :=
  ⟨fun _ => rfl⟩

theorem update_busy (status : Nat → NodeStatus) (n m : Nat)
    (st : NodeStatus) :
    Function.update status n st m = if m = n then st else status m := by
  rw [Function.update_apply]

/-- A step keeps a node with one call at most. -/
theorem Leased.moved {p p' : Pool β} {a : PoolAction β} (h : Leased p)
    (hm : PoolMoved p a p') : Leased p' := by
  constructor
  intro m
  have hold := h.holders m
  cases hm with
  | call stage maxProverNum job =>
      have hnew : Call.held ⟨stage, maxProverNum, job, .entry⟩ ≠ some m := nofun
      exact (copies_snoc_of_ne hnew p.calls).trans hold
  | proceed i a c c' sh' hc hp =>
      have hset := copies_set Call.held (some m) hc c'
      show copies Call.held (some m) (p.calls.set i c')
        = if sh'.status m = .Busy then 1 else 0
      cases hp.touched with
      | kept hst hheld =>
          rw [hheld] at hset
          rw [hst]
          omega
      | taken n hidle hnone htaken hst =>
          rw [hnone, htaken, if_neg (show ¬ none = some m from nofun)] at hset
          rw [hst, update_busy]
          by_cases hmn : m = n
          · -- nobody held the node
            subst hmn
            rw [if_neg hidle] at hold
            rw [if_pos rfl] at hset
            rw [if_pos rfl, if_pos rfl]
            omega
          · rw [if_neg fun hs => hmn (Option.some.inj hs).symm] at hset
            rw [if_neg hmn]
            omega
      | given n st hheld hnone hne hst =>
          rw [hheld, hnone, if_neg (show ¬ none = some m from nofun)] at hset
          rw [hst, update_busy]
          by_cases hmn : m = n
          · subst hmn
            rw [if_pos rfl] at hset
            rw [if_pos rfl, if_neg hne]
            split at hold <;> omega
          · rw [if_neg fun hs => hmn (Option.some.inj hs).symm] at hset
            rw [if_neg hmn]
            omega

/-- A call that found no node has none. -/
theorem noClient_held (c : Call β) : c.noClient.held = none := by
  rw [Call.noClient]
  split <;> rfl

section

variable {nodes : List String} {num : Option Nat} {p p' : Pool β}

/-- In every reachable state a node is Busy just when one call has it. -/
theorem Pool.Reachable.leased (h : Pool.Reachable nodes num p) : Leased p :=
  h.inv (Leased.start nodes num) fun _ _ _ hi hm => hi.moved hm

/-- Two holders are one. -/
theorem Leased.unique (h : Leased p) {i j n : Nat} (hi : p.Holds i n)
    (hj : p.Holds j n) : i = j := by
  obtain ⟨c, hc, hcn⟩ := hi
  obtain ⟨d, hd, hdn⟩ := hj
  refine Classical.byContradiction fun hne => ?_
  have htwo := two_le_copies hc hd hne hcn hdn
  have hone := h.holders n
  split at hone <;> omega

/-- Busy and held are the same. -/
theorem Leased.busy_iff (h : Leased p) (n : Nat) :
    p.shared.status n = .Busy ↔ ∃ i, p.Holds i n := by
  have hcount := h.holders n
  constructor
  · intro hb
    rw [if_pos hb] at hcount
    have hpos : 0 < copies Call.held (some n) p.calls := by omega
    obtain ⟨c, hc, hcn⟩ := exists_of_copies hpos
    obtain ⟨i, hi⟩ := List.mem_iff_getElem?.mp hc
    exact ⟨i, c, hi, hcn⟩
  · rintro ⟨i, c, hc, hcn⟩
    refine Classical.byContradiction fun hb => ?_
    rw [if_neg hb] at hcount
    exact copies_eq_zero.mp hcount c (List.mem_of_getElem? hc) hcn

/-- Only the holder takes Busy away. -/
theorem released_by {a : PoolAction β}
    (hs : p.step a = some p') {n : Nat} (hb : p.shared.status n = .Busy)
    (hnb : p'.shared.status n ≠ .Busy) :
    ∃ i e, a = .proceed i e ∧ p.Holds i n := by
  have hm := Pool.step_moved hs
  cases hm with
  | call stage maxProverNum job => exact absurd hb hnb
  | proceed i e c c' sh' hc hp =>
      refine ⟨i, e, rfl, c, hc, ?_⟩
      have hnb' : sh'.status n ≠ .Busy := hnb
      cases hp.touched with
      | kept hst _ =>
          rw [hst] at hnb'
          exact absurd hb hnb'
      | taken m _ _ _ hst =>
          rw [hst, update_busy] at hnb'
          split at hnb'
          · exact absurd rfl hnb'
          · exact absurd hb hnb'
      | given m st hheld _ _ hst =>
          rw [hst, update_busy] at hnb'
          split at hnb'
          case isTrue heq =>
            rw [heq]
            exact hheld
          case isFalse => exact absurd hb hnb'

/-- What a node was when its probing began. -/
theorem probed_after {i : Nat} {e : Answer β}
    (hs : p.step (.proceed i e) = some p') {c' : Call β} {n : Nat}
    {rest : List Nat} (hc' : p'.calls[i]? = some c')
    (hpc : c'.pc = .probe n rest) :
    ∃ now, e = .clock now ∧
      ∀ ts, p.shared.status n = .OffLine ts → ts + 180 ≤ now := by
  have hm := Pool.step_moved hs
  cases hm with
  | proceed _ _ c d sh' hc hp =>
      obtain ⟨hi, _⟩ := List.getElem?_eq_some_iff.mp hc
      have hd : c' = d := by
        rw [List.getElem?_set_self hi] at hc'
        exact (Option.some.inj hc').symm
      subst hd
      cases hp with
      | lease m nodes now client _ _ hlong =>
          cases hpc
          exact ⟨now, rfl, hlong⟩
      | _ => exact nomatch hpc

end

/-- **ONE CALL AT A TIME**: leases over all stages and interleavings. -/
theorem node_leased_once {nodes : List String} {num : Option Nat}
    {p : Pool β} (h : Pool.Reachable nodes num p) :
    (∀ i j n, p.Holds i n → p.Holds j n → i = j) ∧
    (∀ n, p.shared.status n = .Busy ↔ ∃ i, p.Holds i n) ∧
    (∀ a p', p.step a = some p' → ∀ n, p.shared.status n = .Busy →
      p'.shared.status n ≠ .Busy → ∃ i e, a = .proceed i e ∧ p.Holds i n) ∧
    (∀ i e p', p.step (.proceed i e) = some p' → ∀ c' n rest,
      p'.calls[i]? = some c' → c'.pc = .probe n rest →
        ∃ now, e = .clock now ∧
          ∀ ts, p.shared.status n = .OffLine ts → ts + 180 ≤ now) ∧
    (∀ i c p', p.calls[i]? = some c → c.pc = .scan [] →
      p.step (.proceed i .go) = some p' →
        (∀ n, ¬ p'.Holds i n) ∧
        ∀ n, p'.shared.status n = .Busy → ∃ j, j ≠ i ∧ p'.Holds j n) := by
  refine ⟨fun i j n => h.leased.unique, h.leased.busy_iff,
    fun a p' hs n => released_by hs,
    fun i e p' hs c' n rest => probed_after hs, ?_⟩
  intro i c p' hc hpc hs
  have hstep : c.step p.shared .go = some (p.shared, c.noClient) := by
    unfold Call.step
    rw [hpc]
  have hnone : ∀ n, ¬ p'.Holds i n := by
    rintro n ⟨c', hc', hheld⟩
    rw [Pool.step, hc, Option.bind_some, hstep] at hs
    cases hs
    obtain ⟨hi, _⟩ := List.getElem?_eq_some_iff.mp hc
    rw [List.getElem?_set_self hi] at hc'
    cases hc'
    cases (noClient_held c).symm.trans hheld
  refine ⟨hnone, fun n hb => ?_⟩
  obtain ⟨j, hj⟩ := ((h.step hs).leased.busy_iff n).mp hb
  refine ⟨j, ?_, hj⟩
  rintro rfl
  exact hnone n hj

/-- A call that got the node is its only holder. -/
theorem node_leased_once_one :
    ∃ p : Pool (List UInt8), Pool.Reachable ["a"] none p ∧ p.Holds 0 0 ∧
      p.shared.status 0 = .Busy ∧ ∀ j, p.Holds j 0 → j = 0 := by
  obtain ⟨p, hrun, hp⟩ := Pool.run_check ["a"] none
    (leaseRun (.split .default))
    (fun p => p.calls[0]?.any fun c => c.held = some 0) (by decide)
  obtain ⟨c, hc, hheld⟩ := (Option.any_eq_true _ _).mp hp
  have hholds : p.Holds 0 0 := ⟨c, hc, of_decide_eq_true hheld⟩
  obtain ⟨hone, hbusy, _⟩ := node_leased_once ⟨_, hrun⟩
  exact ⟨p, ⟨_, hrun⟩, hholds, (hbusy 0).mpr ⟨0, hholds⟩,
    fun j hj => hone j 0 0 hj hholds⟩

/-! ## Giving back -/

/-- The node a call had obtained when it returned. -/
def Exit.node : Exit → Option Nat
  | .limit => none
  | .late n => some n
  | .noClient => none
  | .skipped n => some n
  | .replied n => some n
  | .failed n => some n

/-- A node that the `i`-th call does not keep: it is Idle or OffLine, or with
    a later call. -/
def Pool.Released (p : Pool β) (i n : Nat) : Prop :=
  p.shared.status n = .Idle ∨ (∃ ts, p.shared.status n = .OffLine ts) ∨
    ∃ j, j ≠ i ∧ p.Holds j n

/-- The database update of a call has failed just when the call returned with
    its error. -/
def Failing (acts : List (PoolAction β)) (p : Pool β) : Prop :=
  ∀ i, (∃ c n, p.calls[i]? = some c ∧ c.pc = .returned (.failed n)) ↔
    .proceed i (.updated false) ∈ acts

/-- A call of `single_node` leaves with its node just when the update of its row
    fails. -/
theorem Proceeds.failed_iff {sh sh' : Shared} {c c' : Call β} {a : Answer β}
    (h : Proceeds sh c a sh' c') :
    (∃ n, c'.pc = .returned (.failed n)) ↔ a = .updated false := by
  cases h with
  | failed n t _ _ => exact ⟨fun _ => rfl, fun _ => ⟨n, rfl⟩⟩
  | _ => simp

/-- Over a run, those are the calls that have failed. -/
theorem failing_run {nodes : List String} {num : Option Nat}
    {acts : List (PoolAction β)} {p : Pool β}
    (hrun : run Pool.step (Pool.start nodes num) acts = some p) :
    Failing acts p := by
  intro i
  have hmet := Pool.happened (Q := fun c => ∃ n, c.pc = .returned (.failed n))
    (R := fun _ _ e => e = .updated false) (fun _ _ _ ⟨_, h⟩ => by cases h)
    (fun _ ⟨_, h⟩ => .inl ⟨_, h⟩) (fun hp => hp.failed_iff) hrun i
  simp only [exists_and_left]
  rw [hmet, not_iff_comm]
  constructor
  · intro hno
    refine along_mem (fun a ha q => ?_) _
    rintro ⟨e, c, rfl, _, rfl⟩
    exact hno ha
  · intro halong hmem
    -- the call was there when it proceeded
    obtain ⟨q, q', hno, hstep⟩ := halong.of_mem hrun hmem
    cases Pool.step_moved hstep with
    | proceed _ _ c c' sh' hc _ => exact hno ⟨_, c, rfl, hc, rfl⟩

/-- **GIVEN BACK**: a call that returned has given its node back, unless it
    is a `single_node` call whose database update failed. -/
theorem node_released {nodes : List String} {num : Option Nat}
    {acts : List (PoolAction β)} {p : Pool β}
    (hrun : run Pool.step (Pool.start nodes num) acts = some p) {i : Nat}
    {c : Call β} {exit : Exit} {n : Nat} (hc : p.calls[i]? = some c)
    (hpc : c.pc = .returned exit) (hn : exit.node = some n) :
    p.Released i n ↔ .proceed i (.updated false) ∉ acts := by
  have hleased : Leased p := Pool.Reachable.leased ⟨acts, hrun⟩
  have hfailing := failing_run hrun
  constructor
  · intro hrel hmem
    obtain ⟨d, m, hd, hdm⟩ := (hfailing i).mpr hmem
    rw [hc] at hd
    cases hd
    rw [hpc] at hdm
    cases hdm
    cases hn
    -- the call that failed still holds its node
    have hholds : p.Holds i n := ⟨c, hc, held_of_pc hpc⟩
    have hbusy := (hleased.busy_iff n).mpr ⟨i, hholds⟩
    rcases hrel with hidle | ⟨ts, hoff⟩ | ⟨j, hne, hj⟩
    · exact nomatch hbusy.symm.trans hidle
    · exact nomatch hbusy.symm.trans hoff
    · exact hne (hleased.unique hj hholds)
  · intro hno
    have hfree : c.held = none := by
      rw [held_of_pc hpc]
      cases exit with
      | failed m => exact absurd ((hfailing i).mp ⟨c, m, hc, hpc⟩) hno
      | _ => rfl
    cases hst : p.shared.status n with
    | Idle => exact Or.inl hst
    | OffLine ts => exact Or.inr (Or.inl ⟨ts, hst⟩)
    | Busy =>
        obtain ⟨j, hj⟩ := (hleased.busy_iff n).mp hst
        refine Or.inr (Or.inr ⟨j, ?_, hj⟩)
        rintro rfl
        obtain ⟨d, hd, hheld⟩ := hj
        rw [hc] at hd
        cases hd
        exact nomatch hfree.symm.trans hheld

/-- A split call that was answered. -/
theorem node_released_split :
    ∃ p : Pool (List UInt8),
      run Pool.step (Pool.start ["a"] none) (replyRun (.split .default) 0)
        = some p ∧ p.Released 0 0 := by
  obtain ⟨p, hrun, hp⟩ := Pool.run_check ["a"] none
    (replyRun (.split .default) 0)
    (fun p => p.calls[0]?.any fun c => c.exit? = some (.replied 0))
    (by decide)
  obtain ⟨c, hc, hpc⟩ := (Option.any_eq_true _ _).mp hp
  have hret := Call.exit?_eq_some.mp (of_decide_eq_true hpc)
  exact ⟨p, hrun, (node_released hrun hc hret rfl).mpr
    (by simp [replyRun, leaseRun])⟩

/-- A `single_node` call for some task. -/
def singleJob : Job (List UInt8) :=
  .singleNode
    { toTaskHead := .default
      programId := ""
      baseDir := ""
      elfPath := ""
      privateInputPath := ""
      receiptInputsPath := ""
      targetStep := .Agg
      segSize := 0
      totalCycles := 0 }

/-- The database update fails: the call returns and the node stays Busy. -/
theorem node_kept_single :
    ∃ p : Pool (List UInt8),
      run Pool.step (Pool.start ["a"] none)
        (leaseRun singleJob ++ [.proceed 0 (.updated false)]) = some p ∧
      (∃ c, p.calls[0]? = some c ∧ c.pc = .returned (.failed 0)) ∧
      p.shared.status 0 = .Busy ∧ ¬ ∃ j, j ≠ 0 ∧ p.Holds j 0 := by
  obtain ⟨p, hrun, hp⟩ := Pool.run_check ["a"] none
    (leaseRun singleJob ++ [.proceed 0 (.updated false)])
    (fun p => p.calls.length = 1 &&
      p.calls[0]?.any fun c => c.exit? = some (.failed 0)) (by decide)
  rw [Bool.and_eq_true, decide_eq_true_eq] at hp
  obtain ⟨c, hc, hpc⟩ := (Option.any_eq_true _ _).mp hp.2
  have hret := Call.exit?_eq_some.mp (of_decide_eq_true hpc)
  have hleased : Leased p := Pool.Reachable.leased ⟨_, hrun⟩
  refine ⟨p, hrun, ⟨c, hc, hret⟩, ?_, ?_⟩
  · exact (hleased.busy_iff 0).mpr ⟨0, c, hc, held_of_pc hret⟩
  · -- there is no other call
    rintro ⟨j, hne, d, hd, _⟩
    obtain ⟨hlt, _⟩ := List.getElem?_eq_some_iff.mp hd
    omega

end ZkmProver
