import ZkmProver.Threads

/-! # Hang — a split worker that fails

    A worker that panics before it has passed its turn on leaves the next one
    waiting for it; one that panics behind that leaves poisoned locks, at which
    the next one panics before it has passed the turn on.  The main thread
    joins the generator first and keeps the receiver alive, so a generator with
    more to send fills the channel and waits as well.

    As long as only harmless writes fail, some thread can always take a step
    (`split_not_stuck`): before a failure the turn is that of a checkpoint
    that somebody has or will receive, and after one nobody is left that can
    come to wait (`Abandoned`). -/

namespace ZkmProver

open Machine Rename

variable {n : Nat} {σ ρ : Type} {out : Outside σ ρ} {capacity : Nat}
  {files : String → Option (List UInt8)} {t t' : Threads n σ ρ}

/-! ## What holds in every run -/

/-- The locks are with the worker behind the turn, and the lock of the
    receiver is with one that receives. -/
structure Sane (out : Outside σ ρ) (files : String → Option (List UInt8))
    (t : Threads n σ ρ) : Prop where
  splits    : Splits t.base
  directory : Directory out files t.base
  held      : ∀ w, (t.base.workers w).stretch.isSome = true ↔
    t.base.guard = some w
  receiver  : ∀ w, t.receiver = some w →
    t.base.workers w = .receiving ∧ t.dead w = false
  pending   : t.pending.isSome = true → t.base.generator = .running

/-- A split begins sane. -/
theorem Sane.start (hshard : out.reset.shard = 0) :
    Sane out files (Threads.start out files : Threads n σ ρ) := by
  refine ⟨splits_start hshard, directory_start, fun w => ?_, ?_, ?_⟩
  · exact ⟨by rintro ⟨⟩, by rintro ⟨⟩⟩
  · rintro w ⟨⟩
  · rintro ⟨⟩

/-- The worker that acts is not the one at the receiver. -/
theorem Sane.receiver_ne (h : Sane out files t) {w : Fin n}
    (hw : t.base.workers w ≠ .receiving) (x : Worker σ ρ) :
    ∀ v, t.receiver = some v →
      (t.base.setWorker w x).workers v = .receiving ∧ t.dead v = false := by
  intro v hv
  obtain ⟨hreceiving, hdead⟩ := h.receiver v hv
  refine ⟨?_, hdead⟩
  rw [Splitter.setWorker_ne t.base _ ?_]
  · exact hreceiving
  · rintro rfl
    exact hw hreceiving

/-- A worker that goes on with its segments keeps the guard. -/
theorem Sane.held_setWorker (h : Sane out files t) {w : Fin n}
    {x y : Worker σ ρ} (hw : t.base.workers w = y)
    (hxy : x.stretch.isSome = y.stretch.isSome) (v : Fin n) :
    ((t.base.setWorker w x).workers v).stretch.isSome = true ↔
      t.base.guard = some v := by
  have hview : ((t.base.setWorker w x).workers v).stretch.isSome
      = (t.base.workers v).stretch.isSome :=
    t.base.view_setWorker (fun x => x.stretch.isSome) hw hxy v
  rw [hview]
  exact h.held v

/-- A worker that dies outside the receiver leaves the rest sane. -/
theorem Sane.die (h : Sane out files t) {w : Fin n}
    (hw : t.base.workers w ≠ .receiving) : Sane out files (t.die w) := by
  refine ⟨h.splits, h.directory, h.held, fun v hv => ?_, h.pending⟩
  obtain ⟨hreceiving, hdead⟩ := h.receiver v hv
  refine ⟨hreceiving, ?_⟩
  have hne : v ≠ w := by
    rintro rfl
    exact hw hreceiving
  exact (Function.update_of_ne hne ..).trans hdead

/-- **SANE**: every step keeps it. -/
theorem Sane.step (htrace : ∀ exe, (out.traceCheckpoint exe).length = 1)
    (hadmits : ∀ t i, out.admits t i = true → i ≤ t) (h : Sane out files t)
    {a : ThreadAct n σ ρ} (hm : ThreadMoved out capacity t a t') :
    Sane out files t' := by
  have hsplits : Splits t'.base := by
    rcases hm.base with heq | hbase
    · exact heq ▸ h.splits
    · exact h.splits.moved htrace hadmits hbase
  have hdirectory : Directory out files t'.base := by
    rcases hm.base with heq | hbase
    · exact heq ▸ h.directory
    · exact h.directory.moved h.splits hbase
  cases hm with
  | execute exeState done hg hp =>
      exact ⟨hsplits, hdirectory, h.held, h.receiver, fun _ => hg⟩
  | executeFails hg hp =>
      refine ⟨hsplits, hdirectory, h.held, h.receiver, fun hsome => ?_⟩
      dsimp only at hsome
      rw [hp] at hsome
      cases hsome
  | send exeState done hg hp hr =>
      exact ⟨hsplits, hdirectory, h.held, h.receiver, by rintro ⟨⟩⟩
  | lockReceiver w hw hr hd =>
      refine ⟨hsplits, hdirectory, h.held, ?_, h.pending⟩
      rintro v hv
      cases hv
      exact ⟨hw, hd⟩
  | recv w index exeState done queue hr hw hq =>
      refine ⟨hsplits, hdirectory, h.held_setWorker hw rfl, ?_, h.pending⟩
      rintro v ⟨⟩
  | exit w hr hw hq hg =>
      refine ⟨hsplits, hdirectory, h.held_setWorker hw rfl, ?_, h.pending⟩
      rintro v ⟨⟩
  | waitForTurn w c hd hw ha =>
      exact ⟨hsplits, hdirectory, h.held_setWorker hw rfl,
        h.receiver_ne (by rw [hw]; rintro ⟨⟩) _, h.pending⟩
  | number w c deferred s hd hw hg hs =>
      -- the locks are taken here, and left in `finish`
      have hshard : t.base.state.shard
          = UInt32.ofNat t.base.segmentIndex :=
        h.splits.numbers.count ▸ h.splits.numbers.state
      obtain ⟨segments, state, -, -, rfl⟩ :=
        number_spec (h.splits.first hw hg).2.2 hshard hs
      refine ⟨hsplits, hdirectory, fun v => ?_,
        h.receiver_ne (by rw [hw]; rintro ⟨⟩) _, h.pending⟩
      dsimp only
      by_cases hv : v = w
      · subst hv
        rw [Splitter.setWorker_self]
        exact iff_of_true rfl rfl
      · rw [Splitter.setWorker_ne t.base _ hv, h.held v, hg]
        exact ⟨by rintro ⟨⟩, fun heq => absurd (Option.some.inj heq).symm hv⟩
  | writeText w b k text store hd hw hs =>
      exact ⟨hsplits, hdirectory, h.held_setWorker hw rfl,
        h.receiver_ne (by rw [hw]; rintro ⟨⟩) _, h.pending⟩
  | advanceTurn w b hd hw ht hp =>
      exact ⟨hsplits, hdirectory, h.held_setWorker hw rfl,
        h.receiver_ne (by rw [hw]; rintro ⟨⟩) _, h.pending⟩
  | writeSegment w b j k segment phase store hd hw hj hp hs =>
      exact ⟨hsplits, hdirectory, h.held_setWorker hw rfl,
        h.receiver_ne (by rw [hw]; rintro ⟨⟩) _, h.pending⟩
  | finish w b proofs hd hw hp hall =>
      have hguard : t.base.guard = some w :=
        (h.held w).mp (by rw [hw]; rfl)
      refine ⟨hsplits, hdirectory, fun v => ?_,
        h.receiver_ne (by rw [hw]; rintro ⟨⟩) _, h.pending⟩
      dsimp only
      rw [if_pos hguard]
      by_cases hv : v = w
      · subst hv
        rw [Splitter.setWorker_self]
        exact ⟨by rintro ⟨⟩, by rintro ⟨⟩⟩
      · rw [Splitter.setWorker_ne t.base _ hv, h.held v, hguard]
        exact ⟨fun heq => absurd (Option.some.inj heq).symm hv, by rintro ⟨⟩⟩
  | poisoned w v c hd hw hg hv => exact h.die (by rw [hw]; rintro ⟨⟩)
  | textFails w b hd hw ht => exact h.die (by rw [hw]; rintro ⟨⟩)
  | segmentFails w b j hd hw hp => exact h.die (by rw [hw]; rintro ⟨⟩)
  | proofFails w b hd hw hp => exact h.die (by rw [hw]; rintro ⟨⟩)
  | main m hm =>
      exact ⟨hsplits, hdirectory, h.held, h.receiver, h.pending⟩

/-! ## Behind a failure -/

/-- The worker `w` has failed under the locks, and of the others none, or one
    behind the turn that it has passed on, can come to have a checkpoint. -/
structure Abandoned (t : Threads n σ ρ) (w : Fin n) : Prop where
  through : t.base.generator ≠ .running
  guard   : t.base.guard = some w
  dead    : t.dead w = true
  early   : (t.base.workers w).hasTurn = true →
    t.base.sent.length ≤ t.base.reserved.length ∨
      ∀ v, v ≠ w → (t.base.workers v).isExited = true
  late    : (t.base.workers w).hasTurn = false →
    t.base.sent.length ≤ t.base.reserved.length + 1 ∨
      ∀ v v', v ≠ w → v' ≠ w → (t.base.workers v).isExited = false →
        (t.base.workers v').isExited = false → v = v'

/-- Nobody has failed, or the others have been left behind. -/
def Spared (t : Threads n σ ρ) : Prop :=
  (∀ w, t.dead w = false) ∨ ∃ w, Abandoned t w

/-- A step of another thread does not free the turn. -/
theorem Abandoned.keep {w : Fin n} (h : Abandoned t w)
    (hgenerator : t'.base.generator = t.base.generator)
    (hguard : t'.base.guard = t.base.guard) (hsent : t'.base.sent = t.base.sent)
    (hreserved : t'.base.reserved = t.base.reserved)
    (hdead : t.dead w = true → t'.dead w = true)
    (hw : t'.base.workers w = t.base.workers w)
    (hexited : ∀ v, (t.base.workers v).isExited = true →
      (t'.base.workers v).isExited = true) : Abandoned t' w := by
  have hstays : ∀ v, (t'.base.workers v).isExited = false →
      (t.base.workers v).isExited = false := by
    intro v hv
    cases hold : (t.base.workers v).isExited with
    | false => rfl
    | true => cases hv.symm.trans (hexited v hold)
  refine ⟨hgenerator ▸ h.through, hguard.trans h.guard, hdead h.dead, ?_, ?_⟩
  · rw [hw, hsent, hreserved]
    exact fun hturn => (h.early hturn).imp_right
      fun hall v hv => hexited v (hall v hv)
  · rw [hw, hsent, hreserved]
    exact fun hturn => (h.late hturn).imp_right
      fun hone v v' hv hv' hout hout' =>
        hone v v' hv hv' (hstays v hout) (hstays v' hout')

/-- Nobody else is under the locks. -/
theorem Abandoned.not_busy {w v : Fin n} (h : Abandoned t w)
    (hs : Sane out files t) {b : Stretch σ ρ}
    (hv : t.base.workers v = .busy b) : t.dead v = true := by
  have hguard : t.base.guard = some v := (hs.held v).mp (by rw [hv]; rfl)
  have hvw : v = w := Option.some.inj (hguard.symm.trans h.guard)
  rw [hvw]
  exact h.dead

/-- The one that died had its segments in hand. -/
theorem Abandoned.busy {w : Fin n} (h : Abandoned t w)
    (hs : Sane out files t) : ∃ b, t.base.workers w = .busy b := by
  have hheld := (hs.held w).mpr h.guard
  cases hw : t.base.workers w with
  | busy b => exact ⟨b, rfl⟩
  | receiving | waiting | admitted | exited =>
      rw [hw] at hheld
      cases hheld

/-- The step of another worker that is not under the locks. -/
theorem Abandoned.setWorker {w v : Fin n} (h : Abandoned t w)
    (hs : Sane out files t) {x : Worker σ ρ}
    (hv : (t.base.workers v).stretch = none)
    (hout : (t.base.workers v).isExited = false)
    (hbase : t'.base.workers = (t.base.setWorker v x).workers)
    (hgenerator : t'.base.generator = t.base.generator)
    (hguard : t'.base.guard = t.base.guard) (hsent : t'.base.sent = t.base.sent)
    (hreserved : t'.base.reserved = t.base.reserved)
    (hdead : t'.dead = t.dead) : Abandoned t' w := by
  have hwv : w ≠ v := by
    rintro rfl
    obtain ⟨b, hb⟩ := h.busy hs
    rw [hb] at hv
    cases hv
  refine h.keep hgenerator hguard hsent hreserved (fun hd => hdead ▸ hd) ?_ ?_
  · rw [hbase, Splitter.setWorker_ne t.base _ hwv]
  · intro u hu
    have huv : u ≠ v := by
      rintro rfl
      cases hout.symm.trans hu
    rw [hbase, Splitter.setWorker_ne t.base _ huv]
    exact hu

/-- The turn is abandoned for ever. -/
theorem Abandoned.step {w : Fin n} {a : ThreadAct n σ ρ} (h : Abandoned t w)
    (hs : Sane out files t) (hm : ThreadMoved out capacity t a t') :
    Abandoned t' w := by
  have hdie : ∀ v, Abandoned (t.die v) w := by
    intro v
    refine h.keep rfl rfl rfl rfl (fun hd => ?_) rfl fun _ hu => hu
    by_cases hwv : w = v
    · subst hwv
      exact Function.update_self ..
    · exact (Function.update_of_ne hwv ..).trans hd
  cases hm with
  | execute exeState done hg hp => exact absurd hg h.through
  | executeFails hg hp => exact absurd hg h.through
  | send exeState done hg hp hr => exact absurd hg h.through
  | lockReceiver v hv hr hd =>
      exact h.keep rfl rfl rfl rfl id rfl fun _ hu => hu
  | recv v index exeState done queue hr hv hq =>
      exact h.setWorker hs (by rw [hv]; rfl) (by rw [hv]; rfl) rfl rfl rfl rfl
        rfl rfl
  | exit v hr hv hq hg =>
      exact h.setWorker hs (by rw [hv]; rfl) (by rw [hv]; rfl) rfl rfl rfl rfl
        rfl rfl
  | waitForTurn v c hd hv ha =>
      exact h.setWorker hs (by rw [hv]; rfl) (by rw [hv]; rfl) rfl rfl rfl rfl
        rfl rfl
  | number v c deferred s hd hv hg hnumber =>
      cases hg.symm.trans h.guard
  | writeText v b k text store hd hv hwrite =>
      cases hd.symm.trans (h.not_busy hs hv)
  | advanceTurn v b hd hv ht hp => cases hd.symm.trans (h.not_busy hs hv)
  | writeSegment v b j k segment phase store hd hv hj hp hwrite =>
      cases hd.symm.trans (h.not_busy hs hv)
  | finish v b proofs hd hv hp hall => cases hd.symm.trans (h.not_busy hs hv)
  | poisoned v u c hd hv hg hu => exact hdie v
  | textFails v b hd hv ht => exact hdie v
  | segmentFails v b j hd hv hp => exact hdie v
  | proofFails v b hd hv hp => exact hdie v
  | main m hm => exact h.keep rfl rfl rfl rfl id rfl fun _ hu => hu

/-- A harmless failure of the first worker that fails. -/
theorem Abandoned.fails {w : Fin n} (hs : Sane out files t) {b : Stretch σ ρ}
    (hw : t.base.workers w = .busy b) (hg : t.base.generator ≠ .running)
    (hearly : b.passed = false →
      t.base.sent.length ≤ t.base.reserved.length ∨
        ∀ v, v ≠ w → (t.base.workers v).isExited = true)
    (hlate : b.passed = true →
      t.base.sent.length ≤ t.base.reserved.length + 1 ∨
        ∀ v v', v ≠ w → v' ≠ w → (t.base.workers v).isExited = false →
          (t.base.workers v').isExited = false → v = v') :
    Abandoned (t.die w) w := by
  have hturn : (t.base.workers w).hasTurn = !b.passed := by
    rw [hw]
    rfl
  refine ⟨hg, (hs.held w).mp (by rw [hw]; rfl), Function.update_self .., ?_, ?_⟩
  · intro h
    have hpassed := hturn.symm.trans h
    rw [Bool.not_eq_true'] at hpassed
    exact hearly hpassed
  · intro h
    have hpassed := hturn.symm.trans h
    rw [Bool.not_eq_false'] at hpassed
    exact hlate hpassed

/-- **SPARED**: every step does, if the writes that fail are harmless. -/
theorem Spared.step {a : ThreadAct n σ ρ} (h : Spared t) (hs : Sane out files t)
    (hharm : t.Harmless a) (hm : ThreadMoved out capacity t a t') :
    Spared t' := by
  rcases h with halive | ⟨w, h⟩
  case inr => exact Or.inr ⟨w, h.step hs hm⟩
  -- the first that fails does not stop at poisoned locks
  cases hm with
  | textFails w b hd hw ht =>
      refine Or.inr ⟨w, .fails hs hw hharm.1 (fun _ => hharm.2) fun hp => ?_⟩
      have hb : (t.base.workers w).stretch = some b := by
        rw [hw]
        rfl
      exact absurd (hs.directory.late w b hb hp) ht
  | segmentFails w b j hd hw hp =>
      refine Or.inr ⟨w, .fails hs hw hharm.1 (fun hno => ?_) fun _ => hharm.2⟩
      cases hp.symm.trans hno
  | proofFails w b hd hw hp =>
      refine Or.inr ⟨w, .fails hs hw hharm.1 (fun hno => ?_) fun _ => hharm.2⟩
      cases hp.symm.trans hno
  | poisoned w v c hd hw hg hv => cases (halive v).symm.trans hv
  | execute | executeFails | send | lockReceiver | recv | exit | waitForTurn
  | number | writeText | advanceTurn | writeSegment | finish | main =>
      exact Or.inl halive

/-! ## Somebody can take a step -/

/-- Some thread can take a step. -/
def Threads.Live (out : Outside σ ρ) (capacity : Nat) (t : Threads n σ ρ) :
    Prop :=
  ∃ a, (t.step out capacity a).isSome = true

/-- All other threads have ended: the main thread goes on. -/
theorem live_main (hg : t.base.generator ≠ .running)
    (hall : ∀ w, t.ended w = true) (hmain : t.main ≠ .finished) :
    t.Live out capacity := by
  refine ⟨.main, ?_⟩
  rw [Threads.step, Option.isSome_map, Threads.mainStep]
  split
  case h_1 =>
    split
    case h_1 hrunning => exact absurd hrunning hg
    case h_2 => rfl
    case h_3 => rfl
  case h_2 k _ =>
    split
    case isTrue hk =>
      split
      case isTrue => rfl
      case isFalse hdead =>
        have hexited := hall ⟨k, hk⟩
        rw [Threads.ended, Bool.eq_false_iff.mpr hdead, Bool.false_or]
          at hexited
        rw [if_pos hexited]
        rfl
    case isFalse => rfl
  case h_3 =>
    rw [if_pos ⟨hg, hall⟩]
    rfl
  case h_4 hend => exact absurd hend hmain

/-- A write goes on until the file is there. -/
theorem writeFile_isSome {store : Store} {path : String} {buf : List UInt8}
    {p : Phase} (h : p.Holds store path buf) (hp : p ≠ .renamed) :
    (store.writeFile path buf 0 p).isSome = true := by
  cases p with
  | idle => rfl
  | writing m =>
      rw [Store.writeFile, h.2]
      dsimp only
      split <;> rfl
  | renamed => exact absurd rfl hp

/-- Under the locks nothing is waited for. -/
theorem Sane.live_busy (h : Sane out files t) {w : Fin n} {b : Stretch σ ρ}
    (hw : t.base.workers w = .busy b) (hd : t.dead w = false) :
    t.Live out capacity := by
  have hb : (t.base.workers w).stretch = some b := by
    rw [hw]
    rfl
  have hwork : ∀ a, (t.base.step out a).isSome = true →
      (t.work out w a).isSome = true := by
    intro a ha
    rw [Threads.work, hd, if_neg Bool.false_ne_true, Option.isSome_map]
    exact ha
  -- in the order of the worker: `segments.txt`, the turn, its segments, the end
  by_cases htext : b.text = .renamed
  case neg =>
    refine ⟨.writeText w 0, hwork _ ?_⟩
    rw [Splitter.step, hw]
    dsimp only
    rw [Option.isSome_map]
    exact writeFile_isSome (h.directory.text w b hb) htext
  cases hp : b.passed with
  | false =>
      refine ⟨.advanceTurn w, hwork _ ?_⟩
      rw [Splitter.step, hw]
      dsimp only
      rw [if_pos ⟨htext, hp⟩]
      rfl
  | true =>
      by_cases hall : ∀ j < b.segments.length, b.phase j = .renamed
      · refine ⟨.finish w [], hwork _ ?_⟩
        rw [Splitter.step, hw]
        dsimp only
        rw [if_pos ⟨hp, hall⟩]
        rfl
      · obtain ⟨j, hj, hphase⟩ : ∃ j, j < b.segments.length ∧
            b.phase j ≠ .renamed := by
          simpa only [not_forall, exists_prop] using hall
        have hseg := List.getElem?_eq_getElem hj
        refine ⟨.writeSegment w j 0, hwork _ ?_⟩
        rw [Splitter.step, hw]
        dsimp only
        rw [hseg, hp]
        dsimp only
        rw [Option.isSome_map]
        exact writeFile_isSome (h.directory.writes w b j _ hb hseg) hphase

/-- At the receiver: it takes a checkpoint or the end of the channel, or the
    generator goes on. -/
theorem Sane.live_receiving (h : Sane out files t) {w : Fin n}
    (hw : t.base.workers w = .receiving) (hd : t.dead w = false) :
    t.Live out capacity := by
  -- whoever has the lock of the receiver is the one that takes
  cases hr : t.receiver with
  | none =>
      refine ⟨.lockReceiver w, ?_⟩
      rw [Threads.step, hw, hr]
      dsimp only
      rw [hd, if_neg Bool.false_ne_true]
      rfl
  | some v =>
      obtain ⟨hv, -⟩ := h.receiver v hr
      have htake : ∀ a, (t.base.step out a).isSome = true →
          (t.take out v a).isSome = true := by
        intro a ha
        rw [Threads.take, if_pos hr, Option.isSome_map]
        exact ha
      cases hq : t.base.queue with
      | cons e queue =>
          refine ⟨.recv v, htake _ ?_⟩
          rw [Splitter.step, hv, hq]
          rfl
      | nil =>
          by_cases hg : t.base.generator = .running
          case neg =>
            refine ⟨.exit v, htake _ ?_⟩
            rw [Splitter.step, hv, hq]
            dsimp only
            rw [if_neg hg]
            rfl
          cases hp : t.pending with
          | none =>
              refine ⟨.executeFails, ?_⟩
              rw [Threads.step, hp, Option.isNone_none, if_pos rfl,
                Option.isSome_map, Splitter.step, if_pos hg]
              rfl
          | some e =>
              obtain ⟨exeState, done⟩ := e
              have hroom : t.HasRoom capacity := by
                rcases Nat.eq_zero_or_pos capacity with hzero | hpos
                · exact Or.inr ⟨hzero, hq, by rw [hr]; rfl⟩
                · exact Or.inl (by rw [hq]; exact hpos)
              refine ⟨.send, ?_⟩
              rw [Threads.step, hp]
              dsimp only
              rw [if_pos hroom, Option.isSome_map, Splitter.step, if_pos hg]
              rfl

/-- It has the turn. -/
theorem live_waiting {w : Fin n} {c : Traced σ ρ}
    (hw : t.base.workers w = .waiting c) (hd : t.dead w = false)
    (ha : out.admits t.base.turn c.index = true) : t.Live out capacity := by
  refine ⟨.waitForTurn w, ?_⟩
  rw [Threads.step, Threads.work, hd, if_neg Bool.false_ne_true,
    Option.isSome_map, Splitter.step, hw]
  dsimp only
  rw [if_pos ha]
  rfl

/-- At the locks: they are free, held by one that goes on, or poisoned. -/
theorem Sane.live_admitted (h : Sane out files t) {w : Fin n} {c : Traced σ ρ}
    (hw : t.base.workers w = .admitted c) (hd : t.dead w = false) :
    t.Live out capacity := by
  cases hg : t.base.guard with
  | none =>
      have hone := (h.splits.first hw hg).2.2
      obtain ⟨r, hr⟩ := List.length_eq_one_iff.mp hone
      refine ⟨.number w [], ?_⟩
      rw [Threads.step, Threads.work, hd, if_neg Bool.false_ne_true,
        Option.isSome_map, Splitter.step, hw, hg]
      dsimp only
      rw [Splitter.number, hr]
      rfl
  | some v =>
      cases hv : t.dead v with
      | true =>
          refine ⟨.poisoned w, ?_⟩
          rw [Threads.step, hw, hg]
          dsimp only
          rw [if_pos ⟨hd, hv⟩]
          rfl
      | false =>
          have hheld := (h.held v).mpr hg
          cases hworker : t.base.workers v with
          | busy b => exact h.live_busy hworker hv
          | receiving | waiting | admitted | exited =>
              rw [hworker] at hheld
              cases hheld

/-- The first checkpoint without numbers is with somebody, if any is. -/
theorem Sane.first_held (h : Sane out files t) {w : Fin n} {c : Traced σ ρ}
    (hw : t.base.workers w = .waiting c) :
    t.base.reserved.length ≤ c.index ∧ c.index < t.base.sent.length ∧
      ∃ v c', (t.base.workers v).checkpoint = some c' ∧
        c'.index = t.base.reserved.length := by
  have hcheckpoint : (t.base.workers w).checkpoint = some c := by
    rw [hw]
    rfl
  obtain ⟨hlow, hhigh, -⟩ := h.splits.line.held w c hcheckpoint
  exact ⟨hlow, by omega, h.splits.line.found _ (Nat.le_refl _) (by omega)⟩

/-- Nobody has failed: the turn is that of the first without numbers. -/
theorem Sane.live_turn (h : Sane out files t) (hown : ∀ i, out.admits i i = true)
    (halive : ∀ w, t.dead w = false)
    (hbusy : ∀ w b, t.base.workers w ≠ .busy b)
    (hadmitted : ∀ w c, t.base.workers w ≠ .admitted c) {w : Fin n}
    {c : Traced σ ρ} (hw : t.base.workers w = .waiting c) :
    t.Live out capacity := by
  have hguard : t.base.guard = none := by
    cases hg : t.base.guard with
    | none => rfl
    | some v =>
        have hheld := (h.held v).mpr hg
        cases hv : t.base.workers v with
        | busy b => exact absurd hv (hbusy v b)
        | receiving | waiting | admitted | exited =>
            rw [hv] at hheld
            cases hheld
  have hturn := (h.splits.baton.open hguard).2
  obtain ⟨-, -, v, c', hc', hindex⟩ := h.first_held hw
  cases hv : t.base.workers v with
  | waiting d =>
      rw [hv] at hc'
      cases hc'
      refine live_waiting hv (halive v) ?_
      rw [hturn, hindex]
      exact hown _
  | admitted d => exact absurd hv (hadmitted v d)
  | receiving | busy | exited =>
      rw [hv] at hc'
      cases hc'

/-- One has failed: whoever still waits has the turn. -/
theorem Abandoned.live_turn {w v : Fin n} (h : Abandoned t w)
    (hs : Sane out files t) (hown : ∀ i, out.admits i i = true)
    {c : Traced σ ρ} (hv : t.base.workers v = .waiting c)
    (hd : t.dead v = false) : t.Live out capacity := by
  obtain ⟨hlow, hhigh, u, c', hc', hindex⟩ := hs.first_held hv
  obtain ⟨b, hb⟩ := h.busy hs
  have hvw : v ≠ w := by
    rintro rfl
    cases hv.symm.trans hb
  have hout : (t.base.workers v).isExited = false := by
    rw [hv]
    rfl
  cases hturn : (t.base.workers w).hasTurn with
  | true =>
      -- the turn died with it, and so nobody may have come to wait for it
      rcases h.early hturn with hfew | hall
      · omega
      · cases hout.symm.trans (hall v hvw)
  | false =>
      have hfree : t.base.turn = t.base.reserved.length := by
        refine hs.splits.baton.free fun u => ?_
        cases hu : (t.base.workers u).hasTurn with
        | false => rfl
        | true =>
            have hguard := (hs.splits.baton.taken u hu).1
            have huw : u = w := Option.some.inj (hguard.symm.trans h.guard)
            subst huw
            cases hturn.symm.trans hu
      have hfirst : c.index = t.base.reserved.length := by
        rcases h.late hturn with hfew | hone
        · omega
        · -- the two that have a checkpoint are one
          have huw : u ≠ w := by
            rintro rfl
            rw [hb] at hc'
            cases hc'
          have hu : (t.base.workers u).isExited = false := by
            cases hworker : t.base.workers u with
            | exited =>
                rw [hworker] at hc'
                cases hc'
            | receiving | waiting | admitted | busy => rfl
          obtain rfl := hone u v huw hvw hu hout
          rw [hv] at hc'
          cases hc'
          exact hindex
      refine live_waiting hv hd ?_
      rw [hfree, hfirst]
      exact hown _

/-- **LIVE**: as long as the split has not finished. -/
theorem Sane.live (h : Sane out files t) (hspared : Spared t) (hn : 0 < n)
    (hown : ∀ i, out.admits i i = true) (hmain : t.main ≠ .finished) :
    t.Live out capacity := by
  -- from the locks back to the channel, whoever is there goes on
  by_cases hbusy : ∃ w b, t.base.workers w = .busy b ∧ t.dead w = false
  case pos =>
    obtain ⟨w, b, hw, hd⟩ := hbusy
    exact h.live_busy hw hd
  by_cases hadmitted : ∃ w c, t.base.workers w = .admitted c ∧ t.dead w = false
  case pos =>
    obtain ⟨w, c, hw, hd⟩ := hadmitted
    exact h.live_admitted hw hd
  by_cases hreceiving : ∃ w, t.base.workers w = .receiving ∧ t.dead w = false
  case pos =>
    obtain ⟨w, hw, hd⟩ := hreceiving
    exact h.live_receiving hw hd
  by_cases hwaiting : ∃ w c, t.base.workers w = .waiting c ∧ t.dead w = false
  case pos =>
    obtain ⟨w, c, hw, hd⟩ := hwaiting
    rcases hspared with halive | ⟨v, hleft⟩
    · exact h.live_turn hown halive
        (fun u b hu => hbusy ⟨u, b, hu, halive u⟩)
        (fun u d hu => hadmitted ⟨u, d, hu, halive u⟩) hw
    · exact hleft.live_turn h hown hw hd
  -- nobody is left, so the generator is through as well
  have hall : ∀ w, t.ended w = true := by
    intro w
    rw [Threads.ended, Bool.or_eq_true]
    cases hd : t.dead w with
    | true => exact Or.inl rfl
    | false =>
        right
        cases hw : t.base.workers w with
        | receiving => exact absurd ⟨w, hw, hd⟩ hreceiving
        | waiting c => exact absurd ⟨w, c, hw, hd⟩ hwaiting
        | admitted c => exact absurd ⟨w, c, hw, hd⟩ hadmitted
        | busy b => exact absurd ⟨w, b, hw, hd⟩ hbusy
        | exited => rfl
  have hthrough : t.base.generator ≠ .running := by
    rcases hspared with halive | ⟨v, hleft⟩
    · have hend := hall ⟨0, hn⟩
      rw [Threads.ended, halive, Bool.false_or] at hend
      cases hw : t.base.workers ⟨0, hn⟩ with
      | exited => exact (h.splits.exited _ hw).2
      | receiving | waiting | admitted | busy =>
          rw [hw] at hend
          cases hend
    · exact hleft.through
  exact live_main hthrough hall hmain

/-- **NOT STUCK**: for every number of checkpoints and of workers, every
    capacity and every interleaving, as long as only harmless writes fail. -/
theorem split_not_stuck (out : Outside σ ρ)
    (htrace : ∀ exe, (out.traceCheckpoint exe).length = 1)
    (hadmits : ∀ t i, out.admits t i = true → i ≤ t)
    (hown : ∀ i, out.admits i i = true) (hshard : out.reset.shard = 0)
    (files : String → Option (List UInt8)) (capacity n : Nat) (hn : 0 < n)
    (acts : List (ThreadAct n σ ρ)) (t : Threads n σ ρ)
    (hrun : run (Threads.step out capacity) (Threads.start out files) acts
      = some t)
    (hharm : Along (Threads.step out capacity) Threads.Harmless
      (Threads.start out files) acts) :
    ¬ t.Stuck out capacity := by
  have hboth : Sane out files t ∧ Spared t := by
    refine run_inv_along (I := fun t => Sane out files t ∧ Spared t) ?_ hharm
      ⟨Sane.start hshard, Or.inl fun _ => rfl⟩ hrun
    rintro s a s' hharmless ⟨hs, hspared⟩ hstep
    have hm := threadMoved hstep
    exact ⟨hs.step htrace hadmits hm, hspared.step hs hharmless hm⟩
  rintro ⟨hmain, hnone⟩
  obtain ⟨a, ha⟩ := hboth.1.live hboth.2 hn hown hmain
  rw [hnone a] at ha
  cases ha

/-! ## Two failures -/

/-- The only checkpoint: its worker fails, and the other one can still exit. -/
def lastFails : List (ThreadAct 2 Unit Unit) :=
  [.execute () true, .send, .lockReceiver 0, .recv 0, .waitForTurn 0,
    .number 0 [], .textFails 0]

/-- The last worker in line dies, and the main thread goes on. -/
theorem split_not_stuck_last :
    ∃ t, run (Threads.step oneRecord 1) (Threads.start oneRecord fun _ => none)
        lastFails = some t ∧
      t.dead 0 = true ∧ t.main = .joinGenerator ∧ ¬ t.Stuck oneRecord 1 := by
  obtain ⟨t, hrun, hdead, hmain⟩ := run_of_check (Threads.step oneRecord 1)
    (Threads.start oneRecord fun _ => none) lastFails
    (fun t => t.dead 0 = true ∧ t.main = .joinGenerator) (by decide)
  exact ⟨t, hrun, hdead, hmain, split_not_stuck oneRecord (fun _ => rfl)
    (fun t i h => (beq_iff_eq.mp h).ge) (fun i => beq_self_eq_true i) rfl
    (fun _ => none) 1 2 (by decide) lastFails t hrun (by decide)⟩

/-- The first of two checkpoints: `segments.txt` cannot be written, and the
    second worker waits for a turn that nobody passes on. -/
def firstFails : List (ThreadAct 2 Unit Unit) :=
  [.execute () false, .send, .lockReceiver 0, .recv 0, .waitForTurn 0,
    .number 0 [], .textFails 0, .execute () true, .send, .lockReceiver 1,
    .recv 1, .main, .main]

/-- The first one dies, and all wait. -/
theorem split_stuck :
    ∃ t, run (Threads.step oneRecord 1) (Threads.start oneRecord fun _ => none)
        firstFails = some t ∧
      t.Stuck oneRecord 1 := by
  refine ⟨_, rfl, by rintro ⟨⟩, fun a => ?_⟩
  cases a with
  | execute | executeFails | send | main => rfl
  | lockReceiver w | recv w | exit w | waitForTurn w | number w | writeText w
  | advanceTurn w | writeSegment w | finish w | poisoned w | textFails w
  | segmentFails w | proofFails w =>
      match w with
      | 0 => rfl
      | 1 => rfl

end ZkmProver
