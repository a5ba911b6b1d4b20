import ZkmProver.DeferredFiles

/-! # Plain split — what one thread would compute

    An `Execution` is what a split is of: its checkpoints, what is deferred of
    a record and when it is ready, and the inputs of the deferred proofs.  The
    plain split goes through the checkpoints one after the other.  A
    `Splitting` is the splitter with the records that have been deferred so
    far, where each step takes what the execution has for it; the schedule of
    its threads is free.

    Whatever the schedule, the segments that have numbers are the first ones
    of the plain split (`InOrder`), and the directory that is left is the same
    each time (`split_as_plain`). -/

namespace ZkmProver

open Machine Rename

variable {ι σ ρ δ : Type}

/-! ## The plain split -/

/-- A deterministic execution; `δ` is the record that collects what is
    deferred.  `append` takes in what `record.defer()` takes out, `split` gives
    the shards that are ready and what is left, and the deferred inputs depend
    on the public values of the last segment. -/
structure Execution (σ ρ δ : Type) where
  checkpoints : List σ
  fresh : δ
  append : δ → ExecutionRecord ρ → δ
  split : δ → Bool → List (ExecutionRecord ρ) × δ
  deferredInputs : PublicValues → List (List UInt8)

/-- What is carried from checkpoint to checkpoint. -/
structure Carried (σ ρ δ : Type) where
  state : PublicValues
  deferred : δ
  segments : List (Segment σ ρ)

/-- The last record is that of the last segment. -/
def Execution.inputsOf (e : Execution σ ρ δ) (segments : List (Segment σ ρ)) :
    List (List UInt8) :=
  match segments.getLast? with
  | some segment => e.deferredInputs segment.publicValues
  | none => []

/-- The loop body without its files; `records[0]` panics when there is none. -/
def Carried.checkpoint (e : Execution σ ρ δ) (out : Outside σ ρ)
    (p : Carried σ ρ δ) (exeState : σ) (done : Bool) : Option (Carried σ ρ δ) :=
  let (state, records) :=
    stampRecords .cpuShard p.state (out.traceCheckpoint exeState)
  let (ready, deferred) := e.split (records.foldl e.append p.deferred) done
  let state :=
    if done then state
    else { state with executionShard := state.executionShard + 1 }
  let (state, ready) := stampRecords .deferredShard state ready
  match records with
  | [] => none
  | first :: _ =>
      some
        { state := state
          deferred := deferred
          segments := p.segments
            ++ .State exeState first.publicValues :: ready.map .Record }

namespace Execution

/-- The first `n` checkpoints. -/
def plainUpTo (e : Execution σ ρ δ) (out : Outside σ ρ) :
    Nat → Option (Carried σ ρ δ)
  | 0 => some ⟨out.reset, e.fresh, []⟩
  | n + 1 =>
      match e.plainUpTo out n, e.checkpoints[n]? with
      | some p, some exeState =>
          p.checkpoint e out exeState (n + 1 = e.checkpoints.length)
      | _, _ => none

/-- All of them. -/
def plain (e : Execution σ ρ δ) (out : Outside σ ρ) : Option (Carried σ ρ δ) :=
  e.plainUpTo out e.checkpoints.length

end Execution

/-! ## The threads at an execution -/

/-- The records that are ready when a worker takes its numbers, and what is
    left of the deferred ones. -/
def Execution.ready (e : Execution σ ρ δ) (state : PublicValues) (deferred : δ)
    (t : Traced σ ρ) : List (ExecutionRecord ρ) × δ :=
  let records := (stampRecords .cpuShard state t.records).2
  e.split (records.foldl e.append deferred) t.done

/-- A split with the records that are deferred so far. -/
structure Splitting (ι σ ρ δ : Type) where
  base : Splitter ι σ ρ
  deferred : δ

/-- Whose turn it is; `proofs` is the order in which the deferred proofs are
    written. -/
inductive Scheduled (ι : Type) where
  | send
  | fail
  | recv (w : ι)
  | exit (w : ι)
  | waitForTurn (w : ι)
  | number (w : ι)
  | writeText (w : ι) (k : Nat)
  | advanceTurn (w : ι)
  | writeSegment (w : ι) (j k : Nat)
  | release (w : ι)
  | finish (w : ι) (proofs : List (Nat × List UInt8))

namespace Splitting

/-- Before the first checkpoint is sent. -/
def start (e : Execution σ ρ δ) (out : Outside σ ρ)
    (files : String → Option (List UInt8)) : Splitting ι σ ρ δ where
  base := .start out files
  deferred := e.fresh

/-- The step of the splitter that is taken, and the deferred records behind
    it. -/
def act (e : Execution σ ρ δ) (s : Splitting ι σ ρ δ) :
    Scheduled ι → Option (SplitAct ι σ ρ × δ)
  | .send =>
      (e.checkpoints[s.base.sent.length]?).map fun exeState =>
        (.send exeState (s.base.sent.length + 1 = e.checkpoints.length),
          s.deferred)
  | .fail => some (.fail, s.deferred)
  | .recv w => some (.recv w, s.deferred)
  | .exit w => some (.exit w, s.deferred)
  | .waitForTurn w => some (.waitForTurn w, s.deferred)
  | .number w =>
      match s.base.workers w with
      | .admitted t =>
          let ready := e.ready s.base.state s.deferred t
          some (.number w ready.1, ready.2)
      | _ => none
  | .writeText w k => some (.writeText w k, s.deferred)
  | .advanceTurn w => some (.advanceTurn w, s.deferred)
  | .writeSegment w j k => some (.writeSegment w j k, s.deferred)
  | .release w => some (.release w, s.deferred)
  | .finish w proofs =>
      match s.base.workers w with
      | .busy b =>
          if b.done = false ∨ proofs.Perm (indexed (e.inputsOf b.segments)) then
            some (.finish w proofs, s.deferred)
          else none
      | _ => none

variable [DecidableEq ι]

/-- A step of the splitter, as the execution has it at this point. -/
def step (e : Execution σ ρ δ) (out : Outside σ ρ) (s : Splitting ι σ ρ δ)
    (a : Scheduled ι) : Option (Splitting ι σ ρ δ) :=
  (s.act e a).bind fun (b, deferred) =>
    (s.base.step out b).map fun base => ⟨base, deferred⟩

variable {e : Execution σ ρ δ} {out : Outside σ ρ} {s s' : Splitting ι σ ρ δ}

/-- A step of the split is its act on the deferred inputs and a step of the
    splitter. -/
theorem step_eq_some {a : Scheduled ι} (h : s.step e out a = some s') :
    ∃ b, s.act e a = some (b, s'.deferred) ∧
      s.base.step out b = some s'.base := by
  obtain ⟨⟨b, deferred⟩, hact, hstep⟩ := Option.bind_eq_some_iff.mp h
  obtain ⟨base, hbase, rfl⟩ := Option.map_eq_some_iff.mp hstep
  exact ⟨b, hact, hbase⟩

/-- Its runs are runs of the splitter. -/
theorem run_base {as : List (Scheduled ι)}
    (h : run (step e out) s as = some s') :
    ∃ bs, run (Splitter.step out) s.base bs = some s'.base := by
  induction as generalizing s with
  | nil =>
      cases h
      exact ⟨[], rfl⟩
  | cons a as ih =>
      obtain ⟨t, ht, h⟩ := run_cons.mp h
      obtain ⟨b, -, hb⟩ := step_eq_some ht
      obtain ⟨bs, hbs⟩ := ih h
      exact ⟨b :: bs, run_cons.mpr ⟨_, hb, hbs⟩⟩

end Splitting

/-! ## Steps that send, number and finish nothing -/

/-- The segments of a worker with the last checkpoint. -/
def Worker.final : Worker σ ρ → Option (List (Segment σ ρ))
  | .busy b => if b.done then some b.segments else none
  | _ => none

/-- The step neither sends a checkpoint, nor numbers segments, nor writes the
    deferred proofs. -/
def SplitAct.calm : SplitAct ι σ ρ → Bool
  | .send .. => false
  | .number .. => false
  | .finish .. => false
  | _ => true

/-- What such a step leaves as it is. -/
structure Calm (out : Outside σ ρ) (s s' : Splitter ι σ ρ) : Prop where
  reserved   : s'.reserved = s.reserved
  state      : s'.state = s.state
  sent       : s'.sent = s.sent
  ended      : s'.generator = .ended → s.generator = .ended
  queue      : ∀ q ∈ s'.queue, q ∈ s.queue
  checkpoint : ∀ w t, (s'.workers w).checkpoint = some t →
    (s.workers w).checkpoint = some t ∨ ∃ q ∈ s.queue,
      t = ⟨q.1, q.2.1, q.2.2, out.traceCheckpoint q.2.1⟩
  final      : ∀ w, (s'.workers w).final = (s.workers w).final
  files      : ∀ name : String, 'd' ∈ name.toList →
    s'.store.files name = s.store.files name

section

variable [DecidableEq ι] {out : Outside σ ρ} {s s' : Splitter ι σ ρ}

/-- A step of one worker. -/
theorem Calm.of_worker {w : ι} {x y : Worker σ ρ} (hw : s.workers w = y)
    (hworkers : s'.workers = (s.setWorker w x).workers)
    (hreserved : s'.reserved = s.reserved) (hstate : s'.state = s.state)
    (hsent : s'.sent = s.sent) (hgenerator : s'.generator = s.generator)
    (hqueue : s'.queue = s.queue) (hcheckpoint : x.checkpoint = y.checkpoint)
    (hfinal : x.final = y.final)
    (hfiles : ∀ name : String, 'd' ∈ name.toList →
      s'.store.files name = s.store.files name) : Calm out s s' := by
  refine ⟨hreserved, hstate, hsent, fun h => hgenerator ▸ h,
    fun q hq => hqueue ▸ hq, fun w' t ht => Or.inl ?_, fun w' => ?_, hfiles⟩
  · rw [hworkers] at ht
    exact (s.view_setWorker Worker.checkpoint hw hcheckpoint w').symm.trans ht
  · rw [hworkers]
    exact s.view_setWorker Worker.final hw hfinal w'

/-- What a calm act leaves as it is. -/
theorem calm_step {a : SplitAct ι σ ρ} (ha : a.calm = true)
    (h : s.step out a = some s') : Calm out s s' := by
  have hfiles : ∀ name : String, 'd' ∈ name.toList →
      s'.store.files name = s.store.files name := by
    intro name hname
    rw [Splitter.step_files h hname]
    cases a with
    | finish w proofs => cases ha
    | _ => rfl
  cases a with
  | send exeState done => cases ha
  | number w deferred => cases ha
  | finish w proofs => cases ha
  | fail =>
      dsimp only [Splitter.step] at h
      split at h
      case isTrue hg =>
        cases h
        exact ⟨rfl, rfl, rfl, nofun, fun _ hq => hq, fun _ _ ht => Or.inl ht,
          fun _ => rfl, hfiles⟩
      case isFalse => cases h
  | recv w =>
      dsimp only [Splitter.step] at h
      split at h
      case h_1 index exeState done queue hw hq =>
        cases h
        refine ⟨rfl, rfl, rfl, id, fun q hmem => ?_, fun w' t ht => ?_,
          s.view_setWorker Worker.final hw rfl, hfiles⟩
        · rw [hq]
          exact List.mem_cons_of_mem _ hmem
        · by_cases hww : w' = w
          · subst hww
            rw [show (Splitter.workers _ w') = _ from
              s.setWorker_self w' _] at ht
            cases ht
            exact Or.inr ⟨(index, exeState, done), hq ▸ List.mem_cons_self, rfl⟩
          · exact Or.inl (s.setWorker_ne _ hww ▸ ht)
      case h_2 => cases h
  | exit w =>
      dsimp only [Splitter.step] at h
      split at h
      case h_1 hw hq =>
        split at h
        case isTrue => cases h
        case isFalse hg =>
          cases h
          exact .of_worker hw rfl rfl rfl rfl rfl rfl rfl rfl hfiles
      case h_2 => cases h
  | waitForTurn w =>
      dsimp only [Splitter.step] at h
      split at h
      case h_1 t hw =>
        split at h
        case isTrue ha =>
          cases h
          exact .of_worker hw rfl rfl rfl rfl rfl rfl rfl rfl hfiles
        case isFalse => cases h
      case h_2 => cases h
  | writeText w k =>
      dsimp only [Splitter.step] at h
      split at h
      case h_1 b hw =>
        obtain ⟨⟨text, store⟩, -, rfl⟩ := Option.map_eq_some_iff.mp h
        exact .of_worker hw rfl rfl rfl rfl rfl rfl rfl rfl hfiles
      case h_2 => cases h
  | advanceTurn w =>
      dsimp only [Splitter.step] at h
      split at h
      case h_1 b hw =>
        split at h
        case isTrue =>
          cases h
          exact .of_worker hw rfl rfl rfl rfl rfl rfl rfl rfl hfiles
        case isFalse => cases h
      case h_2 => cases h
  | writeSegment w j k =>
      dsimp only [Splitter.step] at h
      split at h
      case h_1 b hw =>
        split at h
        case h_1 segment hj hp =>
          obtain ⟨⟨phase, store⟩, -, rfl⟩ := Option.map_eq_some_iff.mp h
          exact .of_worker hw rfl rfl rfl rfl rfl rfl rfl rfl hfiles
        case h_2 => cases h
      case h_2 => cases h
  | release w =>
      dsimp only [Splitter.step] at h
      split at h
      case h_1 b hw =>
        split at h
        case isTrue =>
          cases h
          exact ⟨rfl, rfl, rfl, id, fun _ hq => hq, fun _ _ ht => Or.inl ht,
            fun _ => rfl, hfiles⟩
        case isFalse => cases h
      case h_2 => cases h

/-- A worker that takes its numbers does what the plain split does. -/
theorem number_plain {e : Execution σ ρ δ} {w : ι} {t : Traced σ ρ}
    {deferred : δ} (htrace : t.records = out.traceCheckpoint t.exeState)
    (h : s.number w t (e.ready s.state deferred t).1 = some s') :
    ∃ b : Stretch σ ρ, b.done = t.done ∧ b.segments ≠ [] ∧
      s' = { s.setWorker w (.busy b) with
        guard := some w
        state := s'.state
        segmentIndex := s'.segmentIndex
        reserved := s.reserved ++ [(t.index, b.segments)] } ∧
      Carried.checkpoint e out ⟨s.state, deferred, s.flat⟩ t.exeState t.done
        = some ⟨s'.state, (e.ready s.state deferred t).2,
          s.flat ++ b.segments⟩ := by
  rw [Splitter.number] at h
  rw [Execution.ready] at h ⊢
  rw [Carried.checkpoint, ← htrace]
  generalize stampRecords .cpuShard s.state t.records = stamped at h ⊢
  obtain ⟨state, records⟩ := stamped
  cases records with
  | nil => cases h
  | cons first rest =>
      cases h
      exact ⟨_, rfl, List.cons_ne_nil _ _, rfl, rfl⟩

end

/-! ## The order of the plain split -/

/-- What has been sent, queued and numbered is of the execution, and what has
    numbers is what the plain split has so far. -/
structure InOrder (e : Execution σ ρ δ) (out : Outside σ ρ)
    (s : Splitting ι σ ρ δ) : Prop where
  plain  : e.plainUpTo out s.base.reserved.length
    = some ⟨s.base.state, s.deferred, s.base.flat⟩
  sent   : s.base.sent <+: e.checkpoints
  queued : ∀ q ∈ s.base.queue,
    q.2.2 = decide (q.1 + 1 = e.checkpoints.length)
  held   : ∀ w t, (s.base.workers w).checkpoint = some t →
    t.done = decide (t.index + 1 = e.checkpoints.length) ∧
      t.records = out.traceCheckpoint t.exeState
  ended  : s.base.generator = .ended →
    s.base.sent.length = e.checkpoints.length

/-- A prefix grows by the element that follows it. -/
theorem concat_prefix {α : Type} {l m : List α} {a : α} (h : l <+: m)
    (ha : m[l.length]? = some a) : l ++ [a] <+: m := by
  obtain ⟨rest, rfl⟩ := h
  rw [List.getElem?_append_right (Nat.le_refl _), Nat.sub_self] at ha
  cases rest with
  | nil => cases ha
  | cons b rest =>
      cases ha
      exact ⟨rest, List.append_assoc ..⟩

section

variable [DecidableEq ι] {e : Execution σ ρ δ} {out : Outside σ ρ}
  {files : String → Option (List UInt8)} {s s' : Splitting ι σ ρ δ}

omit [DecidableEq ι] in
/-- The order survives a calm step. -/
theorem InOrder.calm (h : InOrder e out s) (hc : Calm out s.base s'.base)
    (hdeferred : s'.deferred = s.deferred) : InOrder e out s' := by
  constructor
  · rw [hc.reserved, hc.state, hdeferred, Splitter.flat_congr hc.reserved]
    exact h.plain
  · rw [hc.sent]
    exact h.sent
  · exact fun q hq => h.queued q (hc.queue q hq)
  · intro w t ht
    rcases hc.checkpoint w t ht with ht | ⟨q, hq, rfl⟩
    · exact h.held w t ht
    · exact ⟨h.queued q hq, rfl⟩
  · intro hended
    rw [hc.sent]
    exact h.ended (hc.ended hended)

/-- The next checkpoint is sent. -/
theorem InOrder.send (h : InOrder e out s) {exeState : σ}
    (hexe : e.checkpoints[s.base.sent.length]? = some exeState)
    (hstep : s.base.step out (.send exeState
      (s.base.sent.length + 1 = e.checkpoints.length)) = some s'.base)
    (hdeferred : s'.deferred = s.deferred) : InOrder e out s' := by
  obtain ⟨base', deferred'⟩ := s'
  cases hdeferred
  dsimp only [Splitter.step] at hstep
  split at hstep
  case isFalse => cases hstep
  case isTrue hg =>
    cases hstep
    refine ⟨h.plain, concat_prefix h.sent hexe, ?_, h.held, ?_⟩
    · intro q hq
      rcases List.mem_append.mp hq with hq | hq
      · exact h.queued q hq
      · rw [List.mem_singleton.mp hq]
    · intro hended
      dsimp only at hended ⊢
      rw [List.length_append, List.length_singleton]
      by_contra hne
      rw [if_neg (by simpa using hne)] at hended
      cases hended

/-- The next checkpoint is numbered. -/
theorem InOrder.number (h : InOrder e out s) (hs : Splits s.base) {w : ι}
    {t : Traced σ ρ} (hw : s.base.workers w = .admitted t)
    (hg : s.base.guard = none)
    (hdeferred : (e.ready s.base.state s.deferred t).2 = s'.deferred)
    (hnumber : s.base.number w t (e.ready s.base.state s.deferred t).1
      = some s'.base) : InOrder e out s' := by
  obtain ⟨hindex, hexe, -⟩ := hs.first hw hg
  obtain ⟨hdone, htrace⟩ := h.held w t (by rw [hw]; rfl)
  obtain ⟨b, hbdone, -, hbase, hplain⟩ := number_plain htrace hnumber
  have hreserved : s'.base.reserved
      = s.base.reserved ++ [(t.index, b.segments)] := by rw [hbase]
  have hexe' : e.checkpoints[s.base.reserved.length]? = some t.exeState := by
    obtain ⟨rest, hrest⟩ := h.sent
    rw [← hrest, ← hindex]
    exact getElem?_append_of_some hexe
  constructor
  · rw [hreserved, List.length_append, List.length_singleton,
      Execution.plainUpTo, h.plain, hexe', Splitter.flat_concat hreserved]
    dsimp only
    rw [← hindex, ← hdone, ← hdeferred]
    exact hplain
  · rw [hbase]
    exact h.sent
  · rw [hbase]
    exact h.queued
  · intro v u hu
    rw [hbase] at hu
    by_cases hvw : v = w
    · subst hvw
      rw [show (Splitter.workers _ v) = _ from s.base.setWorker_self v _] at hu
      cases hu
    · exact h.held v u (s.base.setWorker_ne _ hvw ▸ hu)
  · rw [hbase]
    exact h.ended

/-- It survives every step of a splitter whose book is kept. -/
theorem InOrder.step (h : InOrder e out s) (hs : Splits s.base)
    {a : Scheduled ι} (hstep : s.step e out a = some s') : InOrder e out s' := by
  obtain ⟨b, hact, hb⟩ := Splitting.step_eq_some hstep
  cases a with
  | send =>
      obtain ⟨exeState, hexe, hact⟩ := Option.map_eq_some_iff.mp hact
      obtain ⟨rfl, hdeferred⟩ := Prod.mk.inj hact
      exact h.send hexe hb hdeferred.symm
  | number w =>
      dsimp only [Splitting.act] at hact
      split at hact
      case h_1 t hw =>
        obtain ⟨rfl, hdeferred⟩ := Prod.mk.inj (Option.some.inj hact)
        dsimp only [Splitter.step] at hb
        rw [hw] at hb
        split at hb
        case h_1 t' ht' hg =>
          cases ht'
          exact h.number hs hw hg hdeferred hb
        case h_2 => cases hb
      case h_2 => cases hact
  | finish w proofs =>
      dsimp only [Splitting.act] at hact
      split at hact
      case h_1 c hw =>
        split at hact
        case isTrue =>
          obtain ⟨rfl, hdeferred⟩ := Prod.mk.inj (Option.some.inj hact)
          dsimp only [Splitter.step] at hb
          rw [hw] at hb
          dsimp only at hb
          split at hb
          case isTrue =>
            obtain ⟨base', deferred'⟩ := s'
            cases hb
            cases hdeferred
            refine ⟨h.plain, h.sent, h.queued, fun v u hu => ?_, h.ended⟩
            have hview := s.base.view_setWorker Worker.checkpoint
              (x := .receiving) hw rfl v
            exact h.held v u (hview.symm.trans hu)
          case isFalse => cases hb
        case isFalse => cases hact
      case h_2 => cases hact
  | _ =>
      obtain ⟨rfl, hdeferred⟩ := Prod.mk.inj (Option.some.inj hact)
      exact h.calm (calm_step rfl hb) hdeferred.symm

end

/-! ## The deferred proofs -/

/-- The files with that letter are as they were. -/
def Untouched (files : String → Option (List UInt8)) (s : Splitter ι σ ρ) :
    Prop :=
  ∀ name : String, 'd' ∈ name.toList → s.store.files name = files name

/-- They are as they were until the worker with the last checkpoint has
    written the deferred proofs, in some order. -/
structure Finishing (e : Execution σ ρ δ)
    (files : String → Option (List UInt8)) (s : Splitting ι σ ρ δ) : Prop where
  early  : s.base.reserved.length < e.checkpoints.length →
    Untouched files s.base
  final  : ∀ w segments, (s.base.workers w).final = some segments →
    s.base.reserved.length = e.checkpoints.length ∧ Untouched files s.base ∧
      segments.getLast? = s.base.flat.getLast?
  single : ∀ w w' segments segments',
    (s.base.workers w).final = some segments →
      (s.base.workers w').final = some segments' → w = w'
  late   : s.base.reserved.length = e.checkpoints.length →
    (∃ w segments, (s.base.workers w).final = some segments) ∨
      ∃ proofs, proofs.Perm (indexed (e.inputsOf s.base.flat)) ∧
        ∀ name : String, 'd' ∈ name.toList → s.base.store.files name
          = (putProofs ⟨files, []⟩ proofs).files name

section

variable {e : Execution σ ρ δ} {out : Outside σ ρ}
  {files : String → Option (List UInt8)} {s s' : Splitting ι σ ρ δ}

/-- The deferred inputs are read off the last segment alone. -/
theorem Execution.inputsOf_congr {l m : List (Segment σ ρ)}
    (h : l.getLast? = m.getLast?) : e.inputsOf l = e.inputsOf m := by
  rw [inputsOf, h, inputsOf]

/-- Before the first checkpoint the files are as they were found. -/
theorem Finishing.start :
    Finishing e files (Splitting.start e out files : Splitting ι σ ρ δ) := by
  refine ⟨fun _ _ _ => rfl, ?_, ?_, fun _ => Or.inr ⟨[], ?_, fun _ _ => rfl⟩⟩
  · rintro w segments ⟨⟩
  · rintro w w' segments segments' ⟨⟩
  · exact List.Perm.refl []

/-- What leaves the numbers, these files and the last worker alone. -/
theorem Finishing.keep (h : Finishing e files s)
    (hreserved : s'.base.reserved = s.base.reserved)
    (hfinal : ∀ w, (s'.base.workers w).final = (s.base.workers w).final)
    (hfiles : ∀ name : String, 'd' ∈ name.toList →
      s'.base.store.files name = s.base.store.files name) :
    Finishing e files s' := by
  have huntouched : Untouched files s.base → Untouched files s'.base :=
    fun hu name hname => (hfiles name hname).trans (hu name hname)
  have hflat := Splitter.flat_congr hreserved
  constructor
  · intro hlt
    rw [hreserved] at hlt
    exact huntouched (h.early hlt)
  · intro w segments hw
    rw [hfinal] at hw
    obtain ⟨hlen, hu, hlast⟩ := h.final w segments hw
    rw [hreserved, hflat]
    exact ⟨hlen, huntouched hu, hlast⟩
  · intro w w' segments segments' hw hw'
    rw [hfinal] at hw hw'
    exact h.single w w' segments segments' hw hw'
  · intro hlen
    rw [hreserved] at hlen
    rcases h.late hlen with ⟨w, segments, hw⟩ | ⟨proofs, hperm, hproofs⟩
    · exact Or.inl ⟨w, segments, (hfinal w).trans hw⟩
    · rw [hflat]
      exact Or.inr ⟨proofs, hperm, fun name hname =>
        (hfiles name hname).trans (hproofs name hname)⟩

variable [DecidableEq ι]

/-- The last checkpoint is numbered last. -/
theorem Finishing.number (h : Finishing e files s) (hs : Splits s.base)
    (ho : InOrder e out s) {w : ι} {t : Traced σ ρ} {b : Stretch σ ρ}
    (hw : s.base.workers w = .admitted t) (hg : s.base.guard = none)
    (hdone : b.done = t.done) (hne : b.segments ≠ [])
    (hreserved : s'.base.reserved
      = s.base.reserved ++ [(t.index, b.segments)])
    (hworkers : s'.base.workers = (s.base.setWorker w (.busy b)).workers)
    (hstore : s'.base.store = s.base.store) : Finishing e files s' := by
  have hcheckpoint : (s.base.workers w).checkpoint = some t := by
    rw [hw]
    rfl
  obtain ⟨hindex, -, -⟩ := hs.first hw hg
  have hroom := (hs.line.held w t hcheckpoint).2.1
  have hsent := ho.sent.length_le
  have hlast : b.done = decide (t.index + 1 = e.checkpoints.length) :=
    hdone.trans (ho.held w t hcheckpoint).1
  have hlen : s'.base.reserved.length = s.base.reserved.length + 1 := by
    rw [hreserved, List.length_append, List.length_singleton]
  have huntouched : Untouched files s'.base := by
    intro name hname
    rw [hstore]
    exact h.early (by omega) name hname
  -- nobody else has the last checkpoint
  have hmine : ∀ v segments, (s'.base.workers v).final = some segments →
      v = w ∧ b.done = true ∧ segments = b.segments := by
    intro v segments hv
    rw [hworkers] at hv
    by_cases hvw : v = w
    · subst hvw
      rw [Splitter.setWorker_self, Worker.final] at hv
      split at hv
      case isTrue hb =>
        cases hv
        exact ⟨rfl, hb, rfl⟩
      case isFalse => cases hv
    · rw [Splitter.setWorker_ne _ _ hvw] at hv
      have := (h.final v segments hv).1
      omega
  constructor
  · exact fun _ => huntouched
  · intro v segments hv
    obtain ⟨-, hb, rfl⟩ := hmine v segments hv
    have hend := of_decide_eq_true (hlast.symm.trans hb)
    refine ⟨by omega, huntouched, ?_⟩
    rw [Splitter.flat_concat hreserved, List.getLast?_append_of_ne_nil _ hne]
  · intro v v' segments segments' hv hv'
    rw [(hmine v segments hv).1, (hmine v' segments' hv').1]
  · intro hend
    refine Or.inl ⟨w, b.segments, ?_⟩
    have hb : b.done = true := hlast.trans (decide_eq_true (by omega))
    rw [hworkers, Splitter.setWorker_self, Worker.final, if_pos hb]

/-- The last worker writes the deferred proofs. -/
theorem Finishing.finish (h : Finishing e files s) {w : ι} {b : Stretch σ ρ}
    {proofs : List (Nat × List UInt8)} (hw : s.base.workers w = .busy b)
    (hproofs : b.done = false ∨
      proofs.Perm (indexed (e.inputsOf b.segments)))
    (hreserved : s'.base.reserved = s.base.reserved)
    (hworkers : s'.base.workers = (s.base.setWorker w .receiving).workers)
    (hstore : s'.base.store
      = if b.done then putProofs s.base.store proofs else s.base.store) :
    Finishing e files s' := by
  cases hdone : b.done with
  | false =>
      rw [if_neg (by rw [hdone]; exact nofun)] at hstore
      refine h.keep hreserved (fun v => ?_) fun name _ => by rw [hstore]
      rw [hworkers]
      refine s.base.view_setWorker Worker.final hw ?_ v
      rw [Worker.final, Worker.final, if_neg (by rw [hdone]; exact nofun)]
      rintro c ⟨⟩
  | true =>
      rw [if_pos hdone] at hstore
      have hperm := hproofs.resolve_left (by rw [hdone]; exact nofun)
      have hfinal : (s.base.workers w).final = some b.segments := by
        rw [hw, Worker.final, if_pos hdone]
      obtain ⟨hlen, hu, hlast⟩ := h.final w b.segments hfinal
      -- nobody is left with the last checkpoint
      have hnobody : ∀ v, (s'.base.workers v).final = none := by
        intro v
        rw [hworkers]
        by_cases hvw : v = w
        · subst hvw
          rw [Splitter.setWorker_self]
          rfl
        · rw [Splitter.setWorker_ne _ _ hvw]
          cases hv : (s.base.workers v).final with
          | none => rfl
          | some segments => exact absurd (h.single v w _ _ hv hfinal) hvw
      constructor
      · intro hlt
        rw [hreserved] at hlt
        omega
      · intro v segments hv
        cases (hnobody v).symm.trans hv
      · intro v v' segments segments' hv
        cases (hnobody v).symm.trans hv
      · intro _
        refine Or.inr ⟨proofs, ?_, fun name hname => ?_⟩
        · rw [Splitter.flat_congr hreserved,
            ← Execution.inputsOf_congr hlast]
          exact hperm
        · rw [hstore]
          exact putProofs_congr (hu name hname) proofs

/-- Every step keeps what is said of the last files. -/
theorem Finishing.step (h : Finishing e files s) (hs : Splits s.base)
    (ho : InOrder e out s) {a : Scheduled ι} (hstep : s.step e out a = some s') :
    Finishing e files s' := by
  obtain ⟨b, hact, hb⟩ := Splitting.step_eq_some hstep
  cases a with
  | send =>
      obtain ⟨exeState, -, hact⟩ := Option.map_eq_some_iff.mp hact
      obtain ⟨rfl, -⟩ := Prod.mk.inj hact
      dsimp only [Splitter.step] at hb
      split at hb
      case isTrue =>
        have hbase := Option.some.inj hb
        exact h.keep (by rw [← hbase]) (fun w => by rw [← hbase])
          fun name _ => by rw [← hbase]
      case isFalse => cases hb
  | number w =>
      dsimp only [Splitting.act] at hact
      split at hact
      case h_1 t hw =>
        obtain ⟨rfl, -⟩ := Prod.mk.inj (Option.some.inj hact)
        dsimp only [Splitter.step] at hb
        rw [hw] at hb
        split at hb
        case h_1 t' ht' hg =>
          cases ht'
          have htrace := (ho.held w t (by rw [hw]; rfl)).2
          obtain ⟨c, hdone, hne, hbase, -⟩ := number_plain htrace hb
          exact h.number hs ho hw hg hdone hne (by rw [hbase]) (by rw [hbase])
            (by rw [hbase]; rfl)
        case h_2 => cases hb
      case h_2 => cases hact
  | finish w proofs =>
      dsimp only [Splitting.act] at hact
      split at hact
      case h_1 c hw =>
        split at hact
        case isTrue hproofs =>
          obtain ⟨rfl, -⟩ := Prod.mk.inj (Option.some.inj hact)
          dsimp only [Splitter.step] at hb
          rw [hw] at hb
          dsimp only at hb
          split at hb
          case isTrue =>
            have hbase := Option.some.inj hb
            exact h.finish hw hproofs (by rw [← hbase]; rfl)
              (by rw [← hbase]) (by rw [← hbase])
          case isFalse => cases hb
        case isFalse => cases hact
      case h_2 => cases hact
  | _ =>
      obtain ⟨rfl, -⟩ := Prod.mk.inj (Option.some.inj hact)
      have hc := calm_step rfl hb
      exact h.keep hc.reserved hc.final hc.files

end

/-! ## Runs -/

section

variable {e : Execution σ ρ δ} {out : Outside σ ρ}

/-- One record a checkpoint, and the plain split does not panic. -/
theorem Execution.plainUpTo_isSome
    (htrace : ∀ exe, (out.traceCheckpoint exe).length = 1) :
    ∀ {n : Nat}, n ≤ e.checkpoints.length →
      ∃ p, e.plainUpTo out n = some p
  | 0, _ => ⟨_, rfl⟩
  | n + 1, hn => by
      obtain ⟨p, hp⟩ := plainUpTo_isSome htrace (Nat.le_of_succ_le hn)
      have hexe := List.getElem?_eq_getElem (Nat.lt_of_succ_le hn)
      obtain ⟨r, hr⟩ := List.length_eq_one_iff.mp (htrace e.checkpoints[n])
      rw [plainUpTo, hp, hexe]
      dsimp only
      rw [Carried.checkpoint, hr]
      exact ⟨_, rfl⟩

/-- A checkpoint adds its segments at the end. -/
theorem Carried.checkpoint_prefix {p q : Carried σ ρ δ} {exeState : σ}
    {done : Bool} (h : p.checkpoint e out exeState done = some q) :
    p.segments <+: q.segments := by
  rw [Carried.checkpoint] at h
  generalize stampRecords .cpuShard p.state (out.traceCheckpoint exeState)
    = stamped at h
  obtain ⟨state, records⟩ := stamped
  cases records with
  | nil => cases h
  | cons first rest =>
      cases h
      exact List.prefix_append ..

/-- The plain split of fewer checkpoints is a prefix of that of more. -/
theorem Execution.plainUpTo_prefix {m n : Nat} (hmn : m ≤ n)
    {p q : Carried σ ρ δ} (hp : e.plainUpTo out m = some p)
    (hq : e.plainUpTo out n = some q) : p.segments <+: q.segments := by
  induction hmn generalizing q with
  | refl =>
      cases hp.symm.trans hq
      exact List.prefix_refl _
  | step _ ih =>
      rw [plainUpTo] at hq
      split at hq
      case h_1 r exeState hr hexe =>
        exact (ih hr).trans (Carried.checkpoint_prefix hq)
      case h_2 => cases hq

end

section

variable [DecidableEq ι] {e : Execution σ ρ δ} {out : Outside σ ρ}
  {files : String → Option (List UInt8)} {s : Splitting ι σ ρ δ}

omit [DecidableEq ι] in
/-- The order holds before the first checkpoint. -/
theorem InOrder.start :
    InOrder e out (Splitting.start e out files : Splitting ι σ ρ δ) :=
  ⟨rfl, List.nil_prefix, nofun, nofun, nofun⟩

/-- **IN ORDER**: what a run of the threads has numbered is what the plain split
    has so far. -/
theorem Splitting.in_order
    (htrace : ∀ exe, (out.traceCheckpoint exe).length = 1)
    (hadmits : ∀ t i, out.admits t i = true → i ≤ t)
    (hshard : out.reset.shard = 0) {as : List (Scheduled ι)}
    (hrun : run (Splitting.step e out) (Splitting.start e out files) as
      = some s) :
    Splits s.base ∧ Directory out files s.base ∧ InOrder e out s ∧
      Finishing e files s := by
  refine run_inv (I := fun s : Splitting ι σ ρ δ => Splits s.base ∧
      Directory out files s.base ∧ InOrder e out s ∧ Finishing e files s)
    (fun s a s' hI ha => ?_)
    ⟨splits_start hshard, directory_start, InOrder.start, Finishing.start⟩ hrun
  obtain ⟨hs, hd, ho, hf⟩ := hI
  obtain ⟨b, -, hb⟩ := Splitting.step_eq_some ha
  have hm := splitMoved hb
  exact ⟨hs.moved htrace hadmits hm, hd.moved hs hm, ho.step hs ha,
    hf.step hs ho ha⟩

omit [DecidableEq ι] in
/-- No more checkpoints have numbers than the execution has. -/
theorem InOrder.reserved_le (ho : InOrder e out s) (hs : Splits s.base) :
    s.base.reserved.length ≤ e.checkpoints.length :=
  (Nat.le_of_add_right_le hs.line.room).trans ho.sent.length_le

omit [DecidableEq ι] in
/-- What has numbers is the first of the plain split, and all of it when all
    checkpoints have numbers. -/
theorem InOrder.first (ho : InOrder e out s) (hs : Splits s.base)
    (htrace : ∀ exe, (out.traceCheckpoint exe).length = 1) :
    ∃ p, e.plain out = some p ∧ s.base.flat <+: p.segments ∧
      (s.base.reserved.length = e.checkpoints.length →
        s.base.flat = p.segments) := by
  obtain ⟨p, hp⟩ := e.plainUpTo_isSome htrace (Nat.le_refl _)
  have hle := ho.reserved_le hs
  refine ⟨p, hp, Execution.plainUpTo_prefix hle ho.plain hp, fun hall => ?_⟩
  have hplain := ho.plain
  rw [hall] at hplain
  cases hplain.symm.trans hp
  rfl

/-- What is in the directory behind a split into `segments`; `files` is what was
    there before. -/
structure AsPlain (e : Execution σ ρ δ) (out : Outside σ ρ)
    (files : String → Option (List UInt8)) (segments : List (Segment σ ρ))
    (s : Splitter ι σ ρ) : Prop where
  total    : s.segmentIndex = segments.length
  numbered : ∀ k, s.store.files (segmentName k)
    = (segments[k]?.map out.encode).or (files (segmentName k))
  text     : s.store.files segmentsTxt = some (textOf segments.length)
  proofs   : ∃ proofs, proofs.Perm (indexed (e.inputsOf segments)) ∧
    ∀ name : String, 'd' ∈ name.toList → s.store.files name
      = (putProofs ⟨files, []⟩ proofs).files name

omit [DecidableEq ι] in
/-- When all workers have exited, the directory is that of the segments. -/
theorem Splits.as_plain (hs : Splits s.base) (hd : Directory out files s.base)
    (hf : Finishing e files s) (hret : s.base.Returned) (hworker : Nonempty ι)
    (hall : s.base.reserved.length = e.checkpoints.length) :
    AsPlain e out files s.base.flat s.base := by
  have hidle : ∀ w b, (s.base.workers w).stretch ≠ some b := by
    intro w b hb
    rw [hret.2 w] at hb
    cases hb
  have hclosed : ∀ k, ¬ s.base.Open k := fun k ⟨w, b, _, hb, _⟩ => hidle w b hb
  have htextClosed : ¬ s.base.TextOpen := fun ⟨w, b, hb, _⟩ => hidle w b hb
  constructor
  · exact hs.numbers.count
  · intro k
    cases hk : s.base.flat[k]? with
    | none =>
        rw [(hd.todo k (Or.inr (List.getElem?_eq_none_iff.mp hk))).1]
        rfl
    | some segment =>
        rw [(hd.done k segment hk (hclosed k)).1]
        rfl
  · obtain ⟨vals, hvals, -, -, -, hlast⟩ := hd.texts
    rcases hlast htextClosed with hlast | ⟨-, hzero⟩
    · rw [hd.textFile, hvals, List.getLast?_map, hlast]
      rfl
    · exact absurd hzero (hs.all_reserved hret hworker).2.ne'
  · rcases hf.late hall with ⟨w, segments, hw⟩ | hproofs
    · rw [hret.2 w] at hw
      cases hw
    · exact hproofs

/-- **AS ONE THREAD**: whatever the schedule of the threads, the segments that
    have numbers are the first of the plain split, with all their public
    values, and a split that returns leaves the segments and the deferred
    proofs of the plain split. -/
theorem split_as_plain (e : Execution σ ρ δ) [Nonempty ι]
    (htrace : ∀ exe, (out.traceCheckpoint exe).length = 1)
    (hadmits : ∀ t i, out.admits t i = true → i ≤ t)
    (hshard : out.reset.shard = 0) {as : List (Scheduled ι)}
    (hrun : run (Splitting.step e out) (Splitting.start e out files) as
      = some s) :
    ∃ p, e.plain out = some p ∧ s.base.flat <+: p.segments ∧
      (∀ k, s.base.store.files (segmentName k) = files (segmentName k) ∨
        ∃ segment, p.segments[k]? = some segment ∧
          s.base.store.files (segmentName k) = some (out.encode segment)) ∧
      (s.base.Returned → s.base.flat = p.segments ∧
        AsPlain e out files p.segments s.base) := by
  obtain ⟨hs, hd, ho, hf⟩ := Splitting.in_order htrace hadmits hshard hrun
  obtain ⟨p, hp, hfirst, hwhole⟩ := ho.first hs htrace
  refine ⟨p, hp, hfirst, fun k => ?_, fun hret => ?_⟩
  · rcases hd.whole.segments k with ⟨hsame, -⟩ | ⟨segment, hk, hfile, -⟩
    · exact Or.inl hsame
    · obtain ⟨rest, hrest⟩ := hfirst
      exact Or.inr ⟨segment, hrest ▸ getElem?_append_of_some hk, hfile⟩
  · have hall : s.base.reserved.length = e.checkpoints.length :=
      (hs.all_reserved hret inferInstance).1.trans (ho.ended hret.1)
    have hflat := hwhole hall
    exact ⟨hflat, hflat ▸ hs.as_plain hd hf hret inferInstance hall⟩

end

/-! ## Two workers and two deferred proofs -/

/-- Two checkpoints; a record and the deferred proofs are ready behind the
    second one. -/
def twoCheckpoints : Execution Unit Unit Nat where
  checkpoints := [(), ()]
  fresh := 0
  append deferred _ := deferred + 1
  split deferred done :=
    if done then ([⟨(), ⟨[], [], 0, 0, 0, 0, [], [], [], []⟩⟩], 0)
    else ([], deferred)
  deferredInputs _ := [[7], [8]]

/-- The files of the first checkpoint are written last. -/
def twoSchedule : List (Scheduled Bool) :=
  [.send, .recv true, .send, .recv false, .waitForTurn true, .number true,
    .writeText true 0, .writeText true 0, .writeText true 0, .advanceTurn true,
    .release true, .waitForTurn false, .number false, .writeText false 0,
    .writeText false 0, .writeText false 0, .advanceTurn false,
    .writeSegment false 1 0, .writeSegment false 0 0, .writeSegment false 1 0,
    .writeSegment false 0 0, .writeSegment false 1 0, .writeSegment false 0 0,
    .finish false [(1, [8]), (0, [7])], .exit false, .writeSegment true 0 0,
    .writeSegment true 0 0, .writeSegment true 0 0, .finish true [],
    .exit true]

/-- Two checkpoints with three segments, the files of the first written
    last. -/
theorem split_as_plain_two : ∃ s p,
    run (Splitting.step twoCheckpoints oneRecord)
        (Splitting.start twoCheckpoints oneRecord fun _ => none) twoSchedule
      = some s ∧
    twoCheckpoints.plain oneRecord = some p ∧ p.segments.length = 3 ∧
      s.base.flat = p.segments ∧
        AsPlain twoCheckpoints oneRecord (fun _ => none) p.segments s.base := by
  have hsome : (run (Splitting.step twoCheckpoints oneRecord)
      (Splitting.start twoCheckpoints oneRecord fun _ => none)
        twoSchedule).isSome := rfl
  obtain ⟨s, hs⟩ := Option.isSome_iff_exists.mp hsome
  have hend : (run (Splitting.step twoCheckpoints oneRecord)
      (Splitting.start twoCheckpoints oneRecord fun _ => none)
        twoSchedule).map (fun s => s.base.generator) = some .ended := rfl
  have hexited : ∀ w, (run (Splitting.step twoCheckpoints oneRecord)
      (Splitting.start twoCheckpoints oneRecord fun _ => none)
        twoSchedule).map (fun s => s.base.workers w) = some .exited := by
    rintro (_ | _) <;> rfl
  have hthree : (twoCheckpoints.plain oneRecord).map
      (fun p => p.segments.length) = some 3 := rfl
  rw [hs] at hend
  obtain ⟨p, hp, -, -, hret⟩ := split_as_plain twoCheckpoints (fun _ => rfl)
    (fun t i h => (beq_iff_eq.mp h).ge) rfl hs
  rw [hp] at hthree
  obtain ⟨hflat, hleaves⟩ := hret ⟨Option.some.inj hend, fun w => by
    have hw := hexited w
    rw [hs] at hw
    exact Option.some.inj hw⟩
  exact ⟨s, p, hs, hp, Option.some.inj hthree, hflat, hleaves⟩

end ZkmProver
