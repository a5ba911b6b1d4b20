import Mathlib.Data.List.Basic
import ZkmProver.Machine

/-! # The pipeline — jobs of a node under one lock

    A node of the first build runs its prove, aggregate and snark jobs under
    one `Mutex`, taken with `try_lock`; a call that does not get it answers
    BUSY.  A job that panics drops the guard while it unwinds, which poisons
    the lock, and `run_back_task` turns the panic into an error answer.

    From then on `try_lock` fails although no job runs.  So the node keeps its
    promise exactly in the runs in which no call comes after a panic
    (`recovers_iff`).  The circuits have a lock of their own inside the job;
    it is only taken under this one.

    `try_lock` of `std::sync::Mutex` fails in two ways: the lock is held, or
    it is poisoned; in the second case the error carries the guard, so that
    the lock is held for as long as the error lives. -/

/-! ## Poisoned locks

    `ι` names the owners of a guard. -/

namespace Poison

variable {ι : Type}

/-- A `std::sync::Mutex`: who has the guard, and whether one was dropped by a
    panic. -/
structure Lock (ι : Type) where
  holder : Option ι
  poisoned : Bool

namespace Lock

/-- `Mutex::new` -/
def new : Lock ι := ⟨none, false⟩

/-- What `try_lock` comes back with, and the lock it leaves. -/
inductive Try (ι : Type) where
  | guard (l : Lock ι)
  | poisoned (l : Lock ι)
  | wouldBlock

/-- `try_lock` -/
def tryLock (l : Lock ι) (i : ι) : Try ι :=
  match l.holder, l.poisoned with
  | some _, _ => .wouldBlock
  | none, true => .poisoned ⟨some i, true⟩
  | none, false => .guard ⟨some i, false⟩

/-- The drop of a guard, by a thread that may be panicking. -/
def drop (l : Lock ι) (panicking : Bool) : Lock ι :=
  ⟨none, l.poisoned || panicking⟩

@[simp] theorem holder_drop (l : Lock ι) (panicking : Bool) :
    (l.drop panicking).holder = none := rfl

@[simp] theorem poisoned_drop (l : Lock ι) (panicking : Bool) :
    (l.drop panicking).poisoned = (l.poisoned || panicking) := rfl

/-- The guard is handed out when nobody has it and nobody has panicked with
    it. -/
theorem tryLock_guard {l l' : Lock ι} {i : ι} :
    l.tryLock i = .guard l' ↔
      l.holder = none ∧ l.poisoned = false ∧ l' = ⟨some i, false⟩ := by
  obtain ⟨holder, poisoned⟩ := l
  cases holder <;> cases poisoned <;> simp [tryLock, eq_comm]

/-- `try_lock` answers `Poisoned` exactly when the lock is free and poisoned;
    the guard comes with the error. -/
theorem tryLock_poisoned {l l' : Lock ι} {i : ι} :
    l.tryLock i = .poisoned l' ↔
      l.holder = none ∧ l.poisoned = true ∧ l' = ⟨some i, true⟩ := by
  obtain ⟨holder, poisoned⟩ := l
  cases holder <;> cases poisoned <;> simp [tryLock, eq_comm]

/-- It answers `WouldBlock` exactly when some call holds the lock. -/
theorem tryLock_wouldBlock {l : Lock ι} {i : ι} :
    l.tryLock i = .wouldBlock ↔ ∃ j, l.holder = some j := by
  obtain ⟨holder, poisoned⟩ := l
  cases holder <;> cases poisoned <;> simp [tryLock]

/-- The owners of the guard are those the lock knows of. -/
def OwnedBy (l : Lock ι) (owns : ι → Prop) : Prop :=
  ∀ i, owns i ↔ l.holder = some i

/-- **EXCLUSION**: the guard has one owner. -/
theorem OwnedBy.exclusive {l : Lock ι} {owns : ι → Prop} (h : l.OwnedBy owns)
    {i j : ι} (hi : owns i) (hj : owns j) : i = j :=
  Option.some.inj (((h i).mp hi).symm.trans ((h j).mp hj))

end Lock

end Poison

namespace ZkmProver

open Machine

/-! ## Jobs -/

/-- A job, with the receipt that `SnarkProver::prove` looks at first. -/
inductive ProverJob where
  | root
  | aggregate
  | snark (aggReceipt : List UInt8)

/-- How `Prover::prove` comes back. -/
inductive Verdict where
  | ok (output : List UInt8)
  | err (message : String)
  | panic (message : String)

/-- A snark job without a receipt fails its assertion. -/
def ProverJob.allows : ProverJob → Verdict → Bool
  | .snark [], .panic message =>
      message = "assertion failed: !ctx.agg_receipt.is_empty()"
  | .snark [], _ => false
  | _, _ => true

/-- What `run_back_task` hands on. -/
abbrev BackResult := Except String (Bool × List UInt8)

/-- The answer of a job, a panic caught. -/
def Verdict.answer : Verdict → BackResult
  | .ok output => .ok (true, output)
  | .err message => .error message
  | .panic message => .error message

/-- The job panics. -/
def Verdict.isPanic : Verdict → Bool
  | .panic _ => true
  | _ => false

/-- The answer of a call that did not get the lock. -/
def busyAnswer : BackResult := .ok (false, [])

/-! ## Calls -/

/-- Where a call of `prove_root`, `prove_aggregate` or `prove_snark` is. -/
inductive JobPc where
  | entry
  | proving
  /-- in the arm of the error, which may carry a guard -/
  | refusing (guard : Bool)
  | answered (r : BackResult)

/-- A call of the pipeline and where it is. -/
structure JobCall where
  job : ProverJob
  pc : JobPc

/-- The mutex and all calls by their number. -/
structure Pipeline where
  mutex : Poison.Lock Nat
  calls : List JobCall

/-- A step of the pipeline. -/
inductive PipelineAct where
  /-- `run_back_task` spawns the call -/
  | call (job : ProverJob)
  | tryLock (i : Nat)
  /-- the job of the call comes back -/
  | finish (i : Nat) (v : Verdict)
  /-- the BUSY answer -/
  | refuse (i : Nat)

namespace Pipeline

/-- `Pipeline::new` -/
def new : Pipeline := ⟨.new, []⟩

/-- A call goes on. -/
def moveTo (p : Pipeline) (i : Nat) (c : JobCall) (mutex : Poison.Lock Nat)
    (pc : JobPc) : Pipeline :=
  ⟨mutex, p.calls.set i { c with pc := pc }⟩

/-- A call comes in, asks for the guard, runs its job, or drops the guard with
    its answer. -/
def step (p : Pipeline) : PipelineAct → Option Pipeline
  | .call job => some ⟨p.mutex, p.calls ++ [⟨job, .entry⟩]⟩
  | .tryLock i =>
      match p.calls[i]? with
      | some ⟨job, .entry⟩ =>
          match p.mutex.tryLock i with
          | .guard l => some (p.moveTo i ⟨job, .entry⟩ l .proving)
          | .poisoned l => some (p.moveTo i ⟨job, .entry⟩ l (.refusing true))
          | .wouldBlock =>
              some (p.moveTo i ⟨job, .entry⟩ p.mutex (.refusing false))
      | _ => none
  | .finish i v =>
      match p.calls[i]? with
      | some ⟨job, .proving⟩ =>
          if job.allows v then
            some (p.moveTo i ⟨job, .proving⟩ (p.mutex.drop v.isPanic)
              (.answered v.answer))
          else none
      | _ => none
  | .refuse i =>
      match p.calls[i]? with
      | some ⟨job, .refusing guard⟩ =>
          some (p.moveTo i ⟨job, .refusing guard⟩
            (if guard then p.mutex.drop false else p.mutex)
            (.answered busyAnswer))
      | _ => none

/-- The `i`-th call runs its job. -/
def provingAt (p : Pipeline) (i : Nat) : Bool :=
  match p.calls[i]? with
  | some ⟨_, .proving⟩ => true
  | _ => false

/-- The `i`-th call is about to answer BUSY. -/
def refusingAt (p : Pipeline) (i : Nat) : Bool :=
  match p.calls[i]? with
  | some ⟨_, .refusing _⟩ => true
  | _ => false

/-- The call is at its `try_lock`. -/
def tries (p : Pipeline) : PipelineAct → Bool
  | .tryLock i =>
      match p.calls[i]? with
      | some ⟨_, .entry⟩ => true
      | _ => false
  | _ => false

/-- The job of a call panics. -/
def panics (p : Pipeline) : PipelineAct → Bool
  | .finish i v => p.provingAt i && v.isPanic
  | _ => false

/-- Some job is running. -/
def Proving (p : Pipeline) : Prop := ∃ i, p.provingAt i = true

end Pipeline

/-- A call turns to the BUSY answer only while a job is running. -/
def Pipeline.Honest (p : Pipeline) (a : PipelineAct) : Prop :=
  ∀ i q, a = .tryLock i → p.step a = some q → q.refusingAt i = true →
    p.Proving

/-- A call made while no job is running is executed. -/
def Pipeline.Executes (p : Pipeline) (a : PipelineAct) : Prop :=
  ∀ i q, a = .tryLock i → p.step a = some q → ¬ p.Proving →
    q.provingAt i = true

/-- The node serves its callers along a run, and its jobs exclude each
    other. -/
structure Recovers (p : Pipeline) (as : List PipelineAct) : Prop where
  exclusive : ∀ pre q, pre <+: as → run Pipeline.step p pre = some q →
    ∀ i j, q.provingAt i = true → q.provingAt j = true → i = j
  busy      : Along Pipeline.step Pipeline.Honest p as
  executed  : Along Pipeline.step Pipeline.Executes p as

/-! ## The lock and the jobs -/

/-- The call holds a guard. -/
def JobPc.Holds : JobPc → Prop
  | .proving => True
  | .refusing guard => guard = true
  | _ => False

/-- The `i`-th call holds a guard. -/
def Pipeline.HoldsAt (p : Pipeline) (i : Nat) : Prop :=
  ∃ c, p.calls[i]? = some c ∧ c.pc.Holds

/-- The lock knows who holds its guard; nobody holds the guard of an error
    before a panic, and nobody runs a job after one. -/
structure Guarded (p : Pipeline) : Prop where
  owned : p.mutex.OwnedBy p.HoldsAt
  sound : p.mutex.poisoned = false →
    ∀ (i : Nat) (c : JobCall), p.calls[i]? = some c → c.pc ≠ .refusing true
  dead  : p.mutex.poisoned = true →
    ∀ (i : Nat) (c : JobCall), p.calls[i]? = some c → c.pc ≠ .proving

/-- The steps, one case for each way a call can go on. -/
inductive PipelineMoved (p : Pipeline) : PipelineAct → Pipeline → Prop where
  | call (job : ProverJob) :
      PipelineMoved p (.call job) ⟨p.mutex, p.calls ++ [⟨job, .entry⟩]⟩
  | took (i : Nat) (c : JobCall) (hc : p.calls[i]? = some c)
      (hpc : c.pc = .entry) (hfree : p.mutex.holder = none)
      (hsound : p.mutex.poisoned = false) :
      PipelineMoved p (.tryLock i) (p.moveTo i c ⟨some i, false⟩ .proving)
  | spoilt (i : Nat) (c : JobCall) (hc : p.calls[i]? = some c)
      (hpc : c.pc = .entry) (hfree : p.mutex.holder = none)
      (hpoisoned : p.mutex.poisoned = true) :
      PipelineMoved p (.tryLock i)
        (p.moveTo i c ⟨some i, true⟩ (.refusing true))
  | held (i j : Nat) (c : JobCall) (hc : p.calls[i]? = some c)
      (hpc : c.pc = .entry) (hheld : p.mutex.holder = some j) :
      PipelineMoved p (.tryLock i) (p.moveTo i c p.mutex (.refusing false))
  | finished (i : Nat) (c : JobCall) (v : Verdict)
      (hc : p.calls[i]? = some c) (hpc : c.pc = .proving) :
      PipelineMoved p (.finish i v)
        (p.moveTo i c (p.mutex.drop v.isPanic) (.answered v.answer))
  | refused (i : Nat) (c : JobCall) (guard : Bool)
      (hc : p.calls[i]? = some c) (hpc : c.pc = .refusing guard) :
      PipelineMoved p (.refuse i)
        (p.moveTo i c (if guard then p.mutex.drop false else p.mutex)
          (.answered busyAnswer))

variable {p q : Pipeline} {a : PipelineAct} {as : List PipelineAct}

/-- Every step of the pipeline is one of the moves. -/
theorem Pipeline.step_moved (h : p.step a = some q) :
    PipelineMoved p a q := by
  cases a with
  | call job =>
      cases h
      exact .call job
  | tryLock i =>
      rw [Pipeline.step] at h
      split at h
      case h_1 job hc =>
        split at h
        case h_1 l htry =>
          obtain ⟨hfree, hsound, rfl⟩ := Poison.Lock.tryLock_guard.mp htry
          cases h
          exact .took i _ hc rfl hfree hsound
        case h_2 l htry =>
          obtain ⟨hfree, hpoisoned, rfl⟩ := Poison.Lock.tryLock_poisoned.mp htry
          cases h
          exact .spoilt i _ hc rfl hfree hpoisoned
        case h_3 htry =>
          obtain ⟨j, hj⟩ := Poison.Lock.tryLock_wouldBlock.mp htry
          cases h
          exact .held i j _ hc rfl hj
      case h_2 => exact nomatch h
  | finish i v =>
      rw [Pipeline.step] at h
      split at h
      case h_1 job hc =>
        split at h
        case isTrue =>
          cases h
          exact .finished i _ v hc rfl
        case isFalse => exact nomatch h
      case h_2 => exact nomatch h
  | refuse i =>
      rw [Pipeline.step] at h
      split at h
      case h_1 job guard hc =>
        cases h
        exact .refused i _ guard hc rfl
      case h_2 => exact nomatch h

/-- A move writes the program counter of its own call and no other. -/
theorem moveTo_calls {i : Nat} {c : JobCall} (hc : p.calls[i]? = some c)
    (l : Poison.Lock Nat) (pc : JobPc) (k : Nat) :
    (p.moveTo i c l pc).calls[k]?
      = if i = k then some { c with pc := pc } else p.calls[k]? := by
  have hlt : i < p.calls.length := (List.getElem?_eq_some_iff.mp hc).1
  show (p.calls.set i _)[k]? = _
  rw [List.getElem?_set]
  by_cases hik : i = k
  · rw [if_pos hik, if_pos hik, if_pos hlt]
  · rw [if_neg hik, if_neg hik]

/-- A call goes on: the others keep what they have. -/
theorem Guarded.moveTo {i : Nat} {c : JobCall} {l : Poison.Lock Nat}
    {pc : JobPc} (h : Guarded p) (hc : p.calls[i]? = some c)
    (hother : ∀ k, i ≠ k → (l.holder = some k ↔ p.mutex.holder = some k))
    (hself : pc.Holds ↔ l.holder = some i)
    (hsound : l.poisoned = false → p.mutex.poisoned = false ∧
      pc ≠ .refusing true)
    (hdead : l.poisoned = true → pc ≠ .proving ∧
      (p.mutex.poisoned = true ∨ c.pc = .proving)) :
    Guarded (p.moveTo i c l pc) := by
  refine ⟨fun k => ?_, fun hl k c' hk => ?_, fun hl k c' hk => ?_⟩
  · show (∃ c', (p.moveTo i c l pc).calls[k]? = some c' ∧ c'.pc.Holds) ↔
      l.holder = some k
    rw [moveTo_calls hc]
    by_cases hik : i = k
    · subst hik
      rw [if_pos rfl, ← hself]
      constructor
      · rintro ⟨c', hc', hholds⟩
        cases hc'
        exact hholds
      · exact fun hholds => ⟨_, rfl, hholds⟩
    · rw [if_neg hik, hother k hik]
      exact h.owned k
  · obtain ⟨hold, hpc⟩ := hsound hl
    rw [moveTo_calls hc] at hk
    split at hk
    · cases hk
      exact hpc
    · exact h.sound hold k c' hk
  · obtain ⟨hpc, hold⟩ := hdead hl
    rw [moveTo_calls hc] at hk
    split at hk
    case isTrue =>
      cases hk
      exact hpc
    case isFalse hik =>
      rcases hold with hold | hproving
      · exact h.dead hold k c' hk
      · -- the call was the only one to run its job
        intro hpk
        have hi : p.HoldsAt i := ⟨c, hc, by rw [hproving]; trivial⟩
        have hk' : p.HoldsAt k := ⟨c', hk, by rw [hpk]; trivial⟩
        exact hik (h.owned.exclusive hi hk')

/-- A call is at a place that holds the guard exactly when the mutex names it.
    -/
theorem Guarded.holder {i : Nat} {c : JobCall} (h : Guarded p)
    (hc : p.calls[i]? = some c) :
    c.pc.Holds ↔ p.mutex.holder = some i := by
  rw [← h.owned i]
  constructor
  · exact fun hholds => ⟨c, hc, hholds⟩
  · rintro ⟨c', hc', hholds⟩
    cases hc.symm.trans hc'
    exact hholds

/-- Before the first call nobody holds the mutex. -/
theorem Guarded.new : Guarded .new := by
  refine ⟨fun _ => iff_of_false ?_ nofun, ?_, ?_⟩
  · rintro ⟨c, hc, _⟩
    exact nomatch hc
  · rintro _ i c hc
    exact nomatch hc
  · rintro _ i c hc
    exact nomatch hc

/-- Every step keeps holder and program counters in agreement. -/
theorem Guarded.step (h : Guarded p) (hs : p.step a = some q) :
    Guarded q := by
  cases Pipeline.step_moved hs with
  | call job =>
      have hlast : ∀ {k : Nat} {c : JobCall},
          (p.calls ++ [⟨job, .entry⟩])[k]? = some c →
          p.calls[k]? = some c ∨ c.pc = .entry := by
        intro k c hk
        rcases Nat.lt_or_ge k p.calls.length with hlt | hge
        · exact Or.inl ((List.getElem?_append_left hlt).symm.trans hk)
        · rw [List.getElem?_append_right hge] at hk
          have hmem := List.mem_of_getElem? hk
          rw [List.mem_singleton.mp hmem]
          exact Or.inr rfl
      refine ⟨fun k => ?_, fun hl k c hk => ?_, fun hl k c hk => ?_⟩
      · rw [← h.owned k]
        constructor
        · rintro ⟨c, hk, hholds⟩
          rcases hlast hk with hold | hentry
          · exact ⟨c, hold, hholds⟩
          · rw [hentry] at hholds
            exact hholds.elim
        · rintro ⟨c, hk, hholds⟩
          have hlt := (List.getElem?_eq_some_iff.mp hk).1
          exact ⟨c, (List.getElem?_append_left hlt).trans hk, hholds⟩
      · rcases hlast hk with hold | hentry
        · exact h.sound hl k c hold
        · rw [hentry]
          exact nofun
      · rcases hlast hk with hold | hentry
        · exact h.dead hl k c hold
        · rw [hentry]
          exact nofun
  | took i c hc hpc hfree hsound =>
      refine h.moveTo hc (fun k hik => ?_) ?_ (fun _ => ⟨hsound, nofun⟩) nofun
      · rw [hfree]
        exact iff_of_false (fun heq => hik (Option.some.inj heq)) nofun
      · exact iff_of_true trivial rfl
  | spoilt i c hc hpc hfree hpoisoned =>
      refine h.moveTo hc (fun k hik => ?_) ?_ nofun
        (fun _ => ⟨nofun, Or.inl hpoisoned⟩)
      · rw [hfree]
        exact iff_of_false (fun heq => hik (Option.some.inj heq)) nofun
      · exact iff_of_true rfl rfl
  | held i j c hc hpc hheld =>
      refine h.moveTo hc (fun _ _ => Iff.rfl) ?_ (fun hl => ⟨hl, nofun⟩)
        (fun hl => ⟨nofun, Or.inl hl⟩)
      rw [← h.holder hc, hpc]
      exact iff_of_false nofun id
  | finished i c v hc hpc =>
      have hholder : p.mutex.holder = some i := by
        rw [← h.holder hc, hpc]
        trivial
      refine h.moveTo hc (fun k hik => ?_) ?_ (fun hl => ?_) (fun hl => ?_)
      · rw [hholder]
        exact iff_of_false nofun fun heq => hik (Option.some.inj heq)
      · exact iff_of_false id nofun
      · rw [Poison.Lock.poisoned_drop, Bool.or_eq_false_iff] at hl
        exact ⟨hl.1, nofun⟩
      · exact ⟨nofun, Or.inr hpc⟩
  | refused i c guard hc hpc =>
      cases guard with
      | true =>
          have hholder : p.mutex.holder = some i := by
            rw [← h.holder hc, hpc]
            rfl
          refine h.moveTo hc (fun k hik => ?_) ?_ (fun hl => ?_) (fun hl => ?_)
          · rw [hholder]
            exact iff_of_false nofun fun heq => hik (Option.some.inj heq)
          · exact iff_of_false id nofun
          · rw [if_pos rfl, Poison.Lock.poisoned_drop, Bool.or_false] at hl
            exact ⟨hl, nofun⟩
          · rw [if_pos rfl, Poison.Lock.poisoned_drop, Bool.or_false] at hl
            exact ⟨nofun, Or.inl hl⟩
      | false =>
          refine h.moveTo hc (fun _ _ => Iff.rfl) ?_ (fun hl => ⟨hl, nofun⟩)
            (fun hl => ⟨nofun, Or.inl hl⟩)
          show JobPc.Holds (.answered busyAnswer) ↔ p.mutex.holder = some i
          rw [← h.holder hc, hpc]
          exact iff_of_false id nofun

/-! ## Recovery -/

theorem provingAt_iff {i : Nat} :
    p.provingAt i = true ↔ ∃ c, p.calls[i]? = some c ∧ c.pc = .proving := by
  rw [Pipeline.provingAt]
  split
  case h_1 job hc => exact iff_of_true rfl ⟨_, hc, rfl⟩
  case h_2 hno =>
    refine iff_of_false nofun ?_
    rintro ⟨⟨job, pc⟩, hc, rfl⟩
    exact hno job hc

theorem refusingAt_iff {i : Nat} :
    p.refusingAt i = true ↔
      ∃ c guard, p.calls[i]? = some c ∧ c.pc = .refusing guard := by
  rw [Pipeline.refusingAt]
  split
  case h_1 job guard hc => exact iff_of_true rfl ⟨_, guard, hc, rfl⟩
  case h_2 hno =>
    refine iff_of_false nofun ?_
    rintro ⟨⟨job, pc⟩, guard, hc, rfl⟩
    exact hno job guard hc

/-- **EXCLUSION**: one job at a time. -/
theorem Guarded.exclusive {i j : Nat} (h : Guarded p)
    (hi : p.provingAt i = true) (hj : p.provingAt j = true) : i = j := by
  obtain ⟨c, hc, hpc⟩ := provingAt_iff.mp hi
  obtain ⟨c', hc', hpc'⟩ := provingAt_iff.mp hj
  refine h.owned.exclusive ⟨c, hc, ?_⟩ ⟨c', hc', ?_⟩
  · rw [hpc]
    trivial
  · rw [hpc']
    trivial

/-- A lock that nobody has panicked with is held by a job, or free. -/
theorem Guarded.held_proving {j : Nat} (h : Guarded p)
    (hsound : p.mutex.poisoned = false) (hheld : p.mutex.holder = some j) :
    p.Proving := by
  obtain ⟨c, hc, hholds⟩ := (h.owned j).mpr hheld
  refine ⟨j, provingAt_iff.mpr ⟨c, hc, ?_⟩⟩
  cases hpc : c.pc with
  | proving => rfl
  | entry =>
      rw [hpc] at hholds
      exact hholds.elim
  | refusing guard =>
      rw [hpc] at hholds
      cases hholds
      exact absurd hpc (h.sound hsound j c hc)
  | answered r =>
      rw [hpc] at hholds
      exact hholds.elim

/-- A `try_lock` before any panic serves its caller. -/
theorem Guarded.serves (h : Guarded p) (hsound : p.mutex.poisoned = false)
    {i : Nat} (hs : p.step (.tryLock i) = some q) :
    (q.refusingAt i = true → p.Proving) ∧
      (¬ p.Proving → q.provingAt i = true) := by
  cases Pipeline.step_moved hs with
  | took i c hc hpc hfree _ =>
      have hnow : (p.moveTo i c ⟨some i, false⟩ .proving).calls[i]?
          = some { c with pc := .proving } := by
        rw [moveTo_calls hc, if_pos rfl]
      refine ⟨fun href => ?_, fun _ => provingAt_iff.mpr ⟨_, hnow, rfl⟩⟩
      obtain ⟨c', guard, hc', hpc'⟩ := refusingAt_iff.mp href
      cases hnow.symm.trans hc'
      exact nomatch hpc'
  | spoilt i c hc hpc hfree hpoisoned =>
      exact nomatch hsound.symm.trans hpoisoned
  | held i j c hc hpc hheld =>
      have hjob := h.held_proving hsound hheld
      exact ⟨fun _ => hjob, fun hno => absurd hjob hno⟩

/-- A `try_lock` after a panic does not: no job runs, and none is run. -/
theorem Guarded.spoils (h : Guarded p) (hpoisoned : p.mutex.poisoned = true)
    {i : Nat} (hs : p.step (.tryLock i) = some q) :
    ¬ p.Proving ∧ q.provingAt i = false := by
  have hno : ¬ p.Proving := by
    rintro ⟨j, hj⟩
    obtain ⟨c, hc, hpc⟩ := provingAt_iff.mp hj
    exact h.dead hpoisoned j c hc hpc
  refine ⟨hno, ?_⟩
  have hrefuse : ∀ c l guard, p.calls[i]? = some c →
      (p.moveTo i c l (.refusing guard)).provingAt i = false := by
    intro c l guard hc
    rw [← Bool.not_eq_true, provingAt_iff]
    rintro ⟨c', hc', hpc'⟩
    rw [moveTo_calls hc, if_pos rfl] at hc'
    cases hc'
    exact nomatch hpc'
  cases Pipeline.step_moved hs with
  | took i c hc hpc hfree hsound => exact nomatch hpoisoned.symm.trans hsound
  | spoilt i c hc hpc hfree _ => exact hrefuse c _ true hc
  | held i j c hc hpc hheld => exact hrefuse c _ false hc

/-- The lock is poisoned by a panic, and by nothing else. -/
theorem Pipeline.step_poisoned (hs : p.step a = some q) :
    q.mutex.poisoned = (p.mutex.poisoned || p.panics a) := by
  cases Pipeline.step_moved hs with
  | call job => exact (Bool.or_false _).symm
  | took i c hc hpc hfree hsound => exact hsound.symm.trans (Bool.or_false _).symm
  | spoilt i c hc hpc hfree hpoisoned =>
      exact hpoisoned.symm.trans (Bool.or_false _).symm
  | held i j c hc hpc hheld => exact (Bool.or_false _).symm
  | finished i c v hc hpc =>
      have hproving : p.provingAt i = true := provingAt_iff.mpr ⟨c, hc, hpc⟩
      show (p.mutex.poisoned || v.isPanic)
        = (p.mutex.poisoned || (p.provingAt i && v.isPanic))
      rw [hproving, Bool.true_and]
  | refused i c guard hc hpc =>
      show Poison.Lock.poisoned (if guard then _ else _) = _
      cases guard <;> simp [Pipeline.panics]

/-- A call that comes to its `try_lock` gets an answer from it. -/
theorem Pipeline.tries_step (h : p.tries a = true) :
    ∃ i q, a = .tryLock i ∧ p.step a = some q := by
  cases a with
  | tryLock i =>
      rw [Pipeline.tries] at h
      split at h
      case h_1 job hc =>
        rw [Pipeline.step, hc]
        dsimp only
        cases p.mutex.tryLock i with
        | guard l => exact ⟨i, _, rfl, rfl⟩
        | poisoned l => exact ⟨i, _, rfl, rfl⟩
        | wouldBlock => exact ⟨i, _, rfl, rfl⟩
      case h_2 => exact nomatch h
  | _ => exact nomatch h

/-- A step at `try_lock` is one of a call that tries. -/
theorem Pipeline.step_tries {i : Nat} (h : p.step (.tryLock i) = some q) :
    p.tries (.tryLock i) = true := by
  cases Pipeline.step_moved h with
  | took i c hc hpc _ _ =>
      obtain ⟨job, pc⟩ := c
      cases hpc
      rw [Pipeline.tries, hc]
  | spoilt i c hc hpc _ _ =>
      obtain ⟨job, pc⟩ := c
      cases hpc
      rw [Pipeline.tries, hc]
  | held i j c hc hpc _ =>
      obtain ⟨job, pc⟩ := c
      cases hpc
      rw [Pipeline.tries, hc]

/-- With no call behind a panic every call is served. -/
theorem Guarded.along (h : Guarded p)
    (hquiet : p.mutex.poisoned = true →
      ¬ Happens Pipeline.step (fun p a => p.tries a = true) p as)
    (hno : ¬ Follows Pipeline.step (fun p a => p.panics a = true)
      (fun p a => p.tries a = true) p as) :
    Along Pipeline.step Pipeline.Honest p as ∧
      Along Pipeline.step Pipeline.Executes p as := by
  induction as generalizing p with
  | nil => exact ⟨trivial, trivial⟩
  | cons a as ih =>
      have hserves : ∀ i q, a = .tryLock i → p.step a = some q →
          (q.refusingAt i = true → p.Proving) ∧
            (¬ p.Proving → q.provingAt i = true) := by
        rintro i q rfl hs
        cases hp : p.mutex.poisoned with
        | false => exact h.serves hp hs
        | true => exact absurd (Or.inl (Pipeline.step_tries hs)) (hquiet hp)
      have hrest : ∀ q, p.step a = some q →
          Along Pipeline.step Pipeline.Honest q as ∧
            Along Pipeline.step Pipeline.Executes q as := by
        intro q hs
        refine ih (h.step hs) (fun hq hcalls => ?_) fun hfollows => ?_
        · rw [Pipeline.step_poisoned hs, Bool.or_eq_true] at hq
          rcases hq with hold | hpanic
          · exact hquiet hold (Or.inr ⟨q, hs, hcalls⟩)
          · exact hno ⟨q, hs, Or.inl ⟨hpanic, hcalls⟩⟩
        · exact hno ⟨q, hs, Or.inr hfollows⟩
      exact ⟨⟨fun i q ha hs => (hserves i q ha hs).1,
          fun q hs => (hrest q hs).1⟩,
        ⟨fun i q ha hs => (hserves i q ha hs).2, fun q hs => (hrest q hs).2⟩⟩

/-- A call behind a panic is not served. -/
theorem Guarded.spoiled (h : Guarded p)
    (hexec : Along Pipeline.step Pipeline.Executes p as) :
    (p.mutex.poisoned = true →
      ¬ Happens Pipeline.step (fun p a => p.tries a = true) p as) ∧
    ¬ Follows Pipeline.step (fun p a => p.panics a = true)
      (fun p a => p.tries a = true) p as := by
  induction as generalizing p with
  | nil => exact ⟨fun _ => id, id⟩
  | cons a as ih =>
      refine ⟨?_, ?_⟩
      · rintro hp (htries | ⟨q, hs, hcalls⟩)
        · obtain ⟨i, q, rfl, hs⟩ := Pipeline.tries_step htries
          obtain ⟨hidle, hrefused⟩ := h.spoils hp hs
          have hrun := hexec.1 i q rfl hs hidle
          exact nomatch hrefused.symm.trans hrun
        · have hq : q.mutex.poisoned = true := by
            rw [Pipeline.step_poisoned hs, hp, Bool.true_or]
          exact (ih (h.step hs) (hexec.2 q hs)).1 hq hcalls
      · rintro ⟨q, hs, ⟨hpanic, hcalls⟩ | hrest⟩
        · have hq : q.mutex.poisoned = true := by
            rw [Pipeline.step_poisoned hs, hpanic, Bool.or_true]
          exact (ih (h.step hs) (hexec.2 q hs)).1 hq hcalls
        · exact (ih (h.step hs) (hexec.2 q hs)).2 hrest

/-- **RECOVERY**: a node serves its callers along a run exactly when no call
    of the run comes to its `try_lock` after a job has panicked. -/
theorem recovers_iff (as : List PipelineAct) :
    Recovers .new as ↔
      ¬ Follows Pipeline.step (fun p a => p.panics a = true)
        (fun p a => p.tries a = true) .new as := by
  constructor
  · exact fun h => (Guarded.new.spoiled h.executed).2
  · intro hno
    obtain ⟨hbusy, hexec⟩ := Guarded.new.along nofun hno
    refine ⟨?_, hbusy, hexec⟩
    intro pre q _ hrun i j hi hj
    exact (run_inv (fun _ _ _ h hs => h.step hs) Guarded.new hrun).exclusive
      hi hj

/-- A snark job without a receipt panics; the next call comes when no job is
    running. -/
def spoiltRun : List PipelineAct :=
  [.call (.snark []), .tryLock 0,
    .finish 0 (.panic "assertion failed: !ctx.agg_receipt.is_empty()"),
    .call .root, .tryLock 1, .refuse 1]

/-- It is answered BUSY all the same. -/
theorem busy_for_ever :
    ¬ Recovers .new spoiltRun ∧
      ∃ p, run Pipeline.step .new spoiltRun = some p ∧
        (p.calls[1]?.map (·.pc)) = some (.answered busyAnswer) ∧
        p.mutex.holder = none := by
  constructor
  · intro h
    have hfollows : Follows Pipeline.step (fun p a => p.panics a = true)
        (fun p a => p.tries a = true) .new spoiltRun := by decide
    exact (Guarded.new.spoiled h.executed).2 hfollows
  · exact ⟨_, rfl, rfl, rfl⟩

end ZkmProver
