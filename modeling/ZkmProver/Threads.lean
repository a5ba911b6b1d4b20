import ZkmProver.SegmentFiles

/-! # Threads — who waits for whom in a split

    The splitter with what its threads can wait for: the room in the channel,
    the lock of its receiver, the turn, the locks that are held to the end of
    the loop body, and the joins of the main thread, which keeps the receiver
    alive.  A worker whose write fails panics.  It keeps what it had in `base`:
    the locks that it held are poisoned, and a turn that it had is not passed
    on.

    In `base` such a worker is one that is slow, so every run here is a run of
    the splitter (`ThreadMoved.base`). -/

namespace ZkmProver

open Machine Rename

variable {n : Nat} {σ ρ : Type}

/-- What the main thread does in the scope. -/
inductive MainThread where
  | joinGenerator
  | joinWorker (k : Nat)
  /-- the closure is over, and the scope waits for its threads -/
  | leaving
  | finished
  deriving DecidableEq

/-- The threads; `pending` is the checkpoint that the generator is at `send`
    with, and `receiver` the worker that has the lock of the receiver. -/
structure Threads (n : Nat) (σ ρ : Type) where
  base : Splitter (Fin n) σ ρ
  pending : Option (σ × Bool)
  receiver : Option (Fin n)
  dead : Fin n → Bool
  main : MainThread

/-- A step of a thread. -/
inductive ThreadAct (n : Nat) (σ ρ : Type) where
  | execute (exeState : σ) (done : Bool)
  | executeFails
  | send
  | lockReceiver (w : Fin n)
  | recv (w : Fin n)
  /-- `recv` of a channel that is empty and has no sender -/
  | exit (w : Fin n)
  | waitForTurn (w : Fin n)
  | number (w : Fin n) (deferred : List (ExecutionRecord ρ))
  | writeText (w : Fin n) (k : Nat)
  | advanceTurn (w : Fin n)
  | writeSegment (w : Fin n) (j k : Nat)
  | finish (w : Fin n) (proofs : List (Nat × List UInt8))
  /-- `lock().unwrap()` of a poisoned lock -/
  | poisoned (w : Fin n)
  | textFails (w : Fin n)
  | segmentFails (w : Fin n) (j : Nat)
  | proofFails (w : Fin n)
  | main

/-- The thread has returned. -/
def Worker.isExited : Worker σ ρ → Bool
  | .exited => true
  | _ => false

namespace Threads

/-- All threads are spawned, and the channel is empty. -/
def start (out : Outside σ ρ) (files : String → Option (List UInt8)) :
    Threads n σ ρ where
  base := .start out files
  pending := none
  receiver := none
  dead := fun _ => false
  main := .joinGenerator

/-- A worker panics. -/
def die (t : Threads n σ ρ) (w : Fin n) : Threads n σ ρ :=
  { t with dead := Function.update t.dead w true }

/-- The thread is gone: it has returned or it is dead. -/
def ended (t : Threads n σ ρ) (w : Fin n) : Bool :=
  t.dead w || (t.base.workers w).isExited

/-- `send` does not block; without capacity it waits for a `recv`. -/
def HasRoom (capacity : Nat) (t : Threads n σ ρ) : Prop :=
  t.base.queue.length < capacity ∨
    capacity = 0 ∧ t.base.queue = [] ∧ t.receiver.isSome = true

instance (capacity : Nat) (t : Threads n σ ρ) :
    Decidable (t.HasRoom capacity) :=
  have : Decidable (t.base.queue = []) :=
    decidable_of_iff (t.base.queue.isEmpty = true) List.isEmpty_iff
  inferInstanceAs (Decidable (_ ∨ _))

/-- The handles are joined one after the other; `unwrap` of one whose thread
    has failed ends the closure. -/
def mainStep (t : Threads n σ ρ) : Option MainThread :=
  match t.main with
  | .joinGenerator =>
      match t.base.generator with
      | .running => none
      | .ended => some (.joinWorker 0)
      | .failed => some .leaving
  | .joinWorker k =>
      if h : k < n then
        if t.dead ⟨k, h⟩ then some .leaving
        else if (t.base.workers ⟨k, h⟩).isExited then some (.joinWorker (k + 1))
        else none
      else some .leaving
  | .leaving =>
      if t.base.generator ≠ .running ∧ ∀ w, t.ended w = true then
        some .finished
      else none
  | .finished => none

/-- A step of a worker that is not dead. -/
def work (out : Outside σ ρ) (t : Threads n σ ρ) (w : Fin n)
    (a : SplitAct (Fin n) σ ρ) : Option (Threads n σ ρ) :=
  if t.dead w then none
  else (t.base.step out a).map fun s => { t with base := s }

/-- Under the lock of the receiver, which is released behind `recv`. -/
def take (out : Outside σ ρ) (t : Threads n σ ρ) (w : Fin n)
    (a : SplitAct (Fin n) σ ρ) : Option (Threads n σ ρ) :=
  if t.receiver = some w then
    (t.base.step out a).map fun s => { t with base := s, receiver := none }
  else none

/-- A step of one thread; it is refused where the code would block. -/
def step (out : Outside σ ρ) (capacity : Nat) (t : Threads n σ ρ) :
    ThreadAct n σ ρ → Option (Threads n σ ρ)
  | .execute exeState done =>
      if t.base.generator = .running ∧ t.pending.isNone then
        some { t with pending := some (exeState, done) }
      else none
  | .executeFails =>
      if t.pending.isNone then
        (t.base.step out .fail).map fun s => { t with base := s }
      else none
  | .send =>
      match t.pending with
      | some (exeState, done) =>
          if t.HasRoom capacity then
            (t.base.step out (.send exeState done)).map fun s =>
              { t with base := s, pending := none }
          else none
      | none => none
  | .lockReceiver w =>
      match t.base.workers w, t.receiver with
      | .receiving, none =>
          if t.dead w then none else some { t with receiver := some w }
      | _, _ => none
  | .recv w => t.take out w (.recv w)
  | .exit w => t.take out w (.exit w)
  | .waitForTurn w => t.work out w (.waitForTurn w)
  | .number w deferred => t.work out w (.number w deferred)
  | .writeText w k => t.work out w (.writeText w k)
  | .advanceTurn w => t.work out w (.advanceTurn w)
  | .writeSegment w j k => t.work out w (.writeSegment w j k)
  | .finish w proofs => t.work out w (.finish w proofs)
  | .poisoned w =>
      match t.base.workers w, t.base.guard with
      | .admitted _, some v =>
          if t.dead w = false ∧ t.dead v then some (t.die w) else none
      | _, _ => none
  | .textFails w =>
      match t.base.workers w with
      | .busy b =>
          if t.dead w = false ∧ b.text ≠ .renamed then some (t.die w) else none
      | _ => none
  | .segmentFails w j =>
      match t.base.workers w with
      | .busy b =>
          if t.dead w = false ∧ b.passed ∧ j < b.segments.length ∧
              b.phase j ≠ .renamed then
            some (t.die w)
          else none
      | _ => none
  | .proofFails w =>
      match t.base.workers w with
      | .busy b =>
          if t.dead w = false ∧ b.passed ∧ b.done ∧
              ∀ j < b.segments.length, b.phase j = .renamed then
            some (t.die w)
          else none
      | _ => none
  | .main => t.mainStep.map fun m => { t with main := m }

/-- The split has not finished, and no thread can take a step. -/
def Stuck (out : Outside σ ρ) (capacity : Nat) (t : Threads n σ ρ) : Prop :=
  t.main ≠ .finished ∧ ∀ a, t.step out capacity a = none

/-- A write that fails leaves nobody behind: the generator is through, and no
    worker is left that can come to wait for the turn of a checkpoint which is
    not let in.  If the turn has been passed on, one more can come, which
    panics at the locks. -/
def Harmless (t : Threads n σ ρ) : ThreadAct n σ ρ → Prop
  | .textFails w =>
      t.base.generator ≠ .running ∧
        (t.base.sent.length ≤ t.base.reserved.length ∨
          ∀ v, v ≠ w → (t.base.workers v).isExited = true)
  | .segmentFails w _ | .proofFails w =>
      t.base.generator ≠ .running ∧
        (t.base.sent.length ≤ t.base.reserved.length + 1 ∨
          ∀ v v', v ≠ w → v' ≠ w → (t.base.workers v).isExited = false →
            (t.base.workers v').isExited = false → v = v')
  | _ => True

instance (t : Threads n σ ρ) (a : ThreadAct n σ ρ) :
    Decidable (t.Harmless a) :=
  match a with
  | .textFails _ => inferInstanceAs (Decidable (_ ∧ (_ ∨ _)))
  | .segmentFails _ _ => inferInstanceAs (Decidable (_ ∧ (_ ∨ _)))
  | .proofFails _ => inferInstanceAs (Decidable (_ ∧ (_ ∨ _)))
  | .execute _ _ | .executeFails | .send | .lockReceiver _ | .recv _
  | .exit _ | .waitForTurn _ | .number _ _ | .writeText _ _ | .advanceTurn _
  | .writeSegment _ _ _ | .finish _ _ | .poisoned _ | .main => isTrue trivial

end Threads

/-! ## What a step does -/

/-- What each thread does in a step, and what it does to the splitter. -/
inductive ThreadMoved (out : Outside σ ρ) (capacity : Nat)
    (t : Threads n σ ρ) : ThreadAct n σ ρ → Threads n σ ρ → Prop where
  | execute (exeState : σ) (done : Bool) (hg : t.base.generator = .running)
      (hp : t.pending = none) :
      ThreadMoved out capacity t (.execute exeState done)
        { t with pending := some (exeState, done) }
  | executeFails (hg : t.base.generator = .running) (hp : t.pending = none) :
      ThreadMoved out capacity t .executeFails
        { t with base := { t.base with generator := .failed } }
  | send (exeState : σ) (done : Bool) (hg : t.base.generator = .running)
      (hp : t.pending = some (exeState, done)) (hr : t.HasRoom capacity) :
      ThreadMoved out capacity t .send
        { t with
          base :=
            { t.base with
              queue := t.base.queue ++ [(t.base.sent.length, exeState, done)]
              sent := t.base.sent ++ [exeState]
              generator := if done then .ended else .running }
          pending := none }
  | lockReceiver (w : Fin n) (hw : t.base.workers w = .receiving)
      (hr : t.receiver = none) (hd : t.dead w = false) :
      ThreadMoved out capacity t (.lockReceiver w)
        { t with receiver := some w }
  | recv (w : Fin n) (index : Nat) (exeState : σ) (done : Bool)
      (queue : List (Nat × σ × Bool)) (hr : t.receiver = some w)
      (hw : t.base.workers w = .receiving)
      (hq : t.base.queue = (index, exeState, done) :: queue) :
      ThreadMoved out capacity t (.recv w)
        { t with
          base :=
            { t.base.setWorker w (.waiting
                ⟨index, exeState, done, out.traceCheckpoint exeState⟩) with
              queue := queue }
          receiver := none }
  | exit (w : Fin n) (hr : t.receiver = some w)
      (hw : t.base.workers w = .receiving) (hq : t.base.queue = [])
      (hg : t.base.generator ≠ .running) :
      ThreadMoved out capacity t (.exit w)
        { t with base := t.base.setWorker w .exited, receiver := none }
  | waitForTurn (w : Fin n) (c : Traced σ ρ) (hd : t.dead w = false)
      (hw : t.base.workers w = .waiting c)
      (ha : out.admits t.base.turn c.index = true) :
      ThreadMoved out capacity t (.waitForTurn w)
        { t with base := t.base.setWorker w (.admitted c) }
  | number (w : Fin n) (c : Traced σ ρ) (deferred : List (ExecutionRecord ρ))
      (s : Splitter (Fin n) σ ρ) (hd : t.dead w = false)
      (hw : t.base.workers w = .admitted c) (hg : t.base.guard = none)
      (hs : t.base.number w c deferred = some s) :
      ThreadMoved out capacity t (.number w deferred) { t with base := s }
  | writeText (w : Fin n) (b : Stretch σ ρ) (k : Nat) (text : Phase)
      (store : Store) (hd : t.dead w = false)
      (hw : t.base.workers w = .busy b)
      (hs : t.base.store.writeFile segmentsTxt (textOf b.total) k b.text
        = some (text, store)) :
      ThreadMoved out capacity t (.writeText w k)
        { t with
          base := { t.base.setWorker w (.busy { b with text := text }) with
            store := store } }
  | advanceTurn (w : Fin n) (b : Stretch σ ρ) (hd : t.dead w = false)
      (hw : t.base.workers w = .busy b) (ht : b.text = .renamed)
      (hp : b.passed = false) :
      ThreadMoved out capacity t (.advanceTurn w)
        { t with
          base := { t.base.setWorker w (.busy { b with passed := true }) with
            turn := t.base.turn + 1 } }
  | writeSegment (w : Fin n) (b : Stretch σ ρ) (j k : Nat)
      (segment : Segment σ ρ) (phase : Phase) (store : Store)
      (hd : t.dead w = false) (hw : t.base.workers w = .busy b)
      (hj : b.segments[j]? = some segment) (hp : b.passed = true)
      (hs : t.base.store.writeFile (segmentName (b.base + j))
        (out.encode segment) k (b.phase j) = some (phase, store)) :
      ThreadMoved out capacity t (.writeSegment w j k)
        { t with
          base := { t.base.setWorker w (.busy
              { b with phase := Function.update b.phase j phase }) with
            store := store } }
  | finish (w : Fin n) (b : Stretch σ ρ) (proofs : List (Nat × List UInt8))
      (hd : t.dead w = false) (hw : t.base.workers w = .busy b)
      (hp : b.passed = true)
      (hall : ∀ j < b.segments.length, b.phase j = .renamed) :
      ThreadMoved out capacity t (.finish w proofs)
        { t with
          base :=
            { t.base.setWorker w .receiving with
              guard := if t.base.guard = some w then none else t.base.guard
              store :=
                if b.done then putProofs t.base.store proofs
                else t.base.store } }
  | poisoned (w v : Fin n) (c : Traced σ ρ) (hd : t.dead w = false)
      (hw : t.base.workers w = .admitted c) (hg : t.base.guard = some v)
      (hv : t.dead v = true) :
      ThreadMoved out capacity t (.poisoned w) (t.die w)
  | textFails (w : Fin n) (b : Stretch σ ρ) (hd : t.dead w = false)
      (hw : t.base.workers w = .busy b) (ht : b.text ≠ .renamed) :
      ThreadMoved out capacity t (.textFails w) (t.die w)
  | segmentFails (w : Fin n) (b : Stretch σ ρ) (j : Nat)
      (hd : t.dead w = false) (hw : t.base.workers w = .busy b)
      (hp : b.passed = true) :
      ThreadMoved out capacity t (.segmentFails w j) (t.die w)
  | proofFails (w : Fin n) (b : Stretch σ ρ) (hd : t.dead w = false)
      (hw : t.base.workers w = .busy b) (hp : b.passed = true) :
      ThreadMoved out capacity t (.proofFails w) (t.die w)
  | main (m : MainThread) (hm : t.mainStep = some m) :
      ThreadMoved out capacity t .main { t with main := m }

section

variable {out : Outside σ ρ} {capacity : Nat} {t t' : Threads n σ ρ}

/-- A thread that works is alive, and its step is one of the splitter. -/
theorem work_some {w : Fin n} {a : SplitAct (Fin n) σ ρ}
    (h : t.work out w a = some t') :
    t.dead w = false ∧ ∃ s, t.base.step out a = some s ∧
      t' = { t with base := s } := by
  rw [Threads.work] at h
  split at h
  case isTrue => cases h
  case isFalse hd =>
    obtain ⟨s, hs, rfl⟩ := Option.map_eq_some_iff.mp h
    exact ⟨Bool.eq_false_iff.mpr hd, s, hs, rfl⟩

/-- Only the thread that holds the receiver takes a checkpoint. -/
theorem take_some {w : Fin n} {a : SplitAct (Fin n) σ ρ}
    (h : t.take out w a = some t') :
    t.receiver = some w ∧ ∃ s, t.base.step out a = some s ∧
      t' = { t with base := s, receiver := none } := by
  rw [Threads.take] at h
  split at h
  case isTrue hr =>
    obtain ⟨s, hs, rfl⟩ := Option.map_eq_some_iff.mp h
    exact ⟨hr, s, hs, rfl⟩
  case isFalse => cases h

theorem threadMoved {a : ThreadAct n σ ρ}
    (h : t.step out capacity a = some t') :
    ThreadMoved out capacity t a t' := by
  cases a with
  | execute exeState done =>
      dsimp only [Threads.step] at h
      split at h
      case isTrue hif =>
        cases h
        exact .execute exeState done hif.1 (Option.isNone_iff_eq_none.mp hif.2)
      case isFalse => cases h
  | executeFails =>
      dsimp only [Threads.step] at h
      split at h
      case isTrue hp =>
        obtain ⟨s, hs, rfl⟩ := Option.map_eq_some_iff.mp h
        dsimp only [Splitter.step] at hs
        split at hs
        case isTrue hg =>
          cases hs
          exact .executeFails hg (Option.isNone_iff_eq_none.mp hp)
        case isFalse => cases hs
      case isFalse => cases h
  | send =>
      dsimp only [Threads.step] at h
      split at h
      case h_1 exeState done hp =>
        split at h
        case isTrue hr =>
          obtain ⟨s, hs, rfl⟩ := Option.map_eq_some_iff.mp h
          dsimp only [Splitter.step] at hs
          split at hs
          case isTrue hg =>
            cases hs
            exact .send exeState done hg hp hr
          case isFalse => cases hs
        case isFalse => cases h
      case h_2 => cases h
  | lockReceiver w =>
      dsimp only [Threads.step] at h
      split at h
      case h_1 hw hr =>
        split at h
        case isTrue => cases h
        case isFalse hd =>
          cases h
          exact .lockReceiver w hw hr (Bool.eq_false_iff.mpr hd)
      case h_2 => cases h
  | recv w =>
      obtain ⟨hr, s, hs, rfl⟩ := take_some h
      dsimp only [Splitter.step] at hs
      split at hs
      case h_1 index exeState done queue hw hq =>
        cases hs
        exact .recv w index exeState done queue hr hw hq
      case h_2 => cases hs
  | exit w =>
      obtain ⟨hr, s, hs, rfl⟩ := take_some h
      dsimp only [Splitter.step] at hs
      split at hs
      case h_1 hw hq =>
        split at hs
        case isTrue => cases hs
        case isFalse hg =>
          cases hs
          exact .exit w hr hw hq hg
      case h_2 => cases hs
  | waitForTurn w =>
      obtain ⟨hd, s, hs, rfl⟩ := work_some h
      dsimp only [Splitter.step] at hs
      split at hs
      case h_1 c hw =>
        split at hs
        case isTrue ha =>
          cases hs
          exact .waitForTurn w c hd hw ha
        case isFalse => cases hs
      case h_2 => cases hs
  | number w deferred =>
      obtain ⟨hd, s, hs, rfl⟩ := work_some h
      dsimp only [Splitter.step] at hs
      split at hs
      case h_1 c hw hg => exact .number w c deferred s hd hw hg hs
      case h_2 => cases hs
  | writeText w k =>
      obtain ⟨hd, s, hs, rfl⟩ := work_some h
      dsimp only [Splitter.step] at hs
      split at hs
      case h_1 b hw =>
        obtain ⟨⟨text, store⟩, hwrite, rfl⟩ := Option.map_eq_some_iff.mp hs
        exact .writeText w b k text store hd hw hwrite
      case h_2 => cases hs
  | advanceTurn w =>
      obtain ⟨hd, s, hs, rfl⟩ := work_some h
      dsimp only [Splitter.step] at hs
      split at hs
      case h_1 b hw =>
        split at hs
        case isTrue hif =>
          cases hs
          exact .advanceTurn w b hd hw hif.1 hif.2
        case isFalse => cases hs
      case h_2 => cases hs
  | writeSegment w j k =>
      obtain ⟨hd, s, hs, rfl⟩ := work_some h
      dsimp only [Splitter.step] at hs
      split at hs
      case h_1 b hw =>
        split at hs
        case h_1 segment hj hp =>
          obtain ⟨⟨phase, store⟩, hwrite, rfl⟩ := Option.map_eq_some_iff.mp hs
          exact .writeSegment w b j k segment phase store hd hw hj hp hwrite
        case h_2 => cases hs
      case h_2 => cases hs
  | finish w proofs =>
      obtain ⟨hd, s, hs, rfl⟩ := work_some h
      dsimp only [Splitter.step] at hs
      split at hs
      case h_1 b hw =>
        split at hs
        case isTrue hif =>
          cases hs
          exact .finish w b proofs hd hw hif.1 hif.2
        case isFalse => cases hs
      case h_2 => cases hs
  | poisoned w =>
      dsimp only [Threads.step] at h
      split at h
      case h_1 c v hw hg =>
        split at h
        case isTrue hif =>
          cases h
          exact .poisoned w v c hif.1 hw hg hif.2
        case isFalse => cases h
      case h_2 => cases h
  | textFails w =>
      dsimp only [Threads.step] at h
      split at h
      case h_1 b hw =>
        split at h
        case isTrue hif =>
          cases h
          exact .textFails w b hif.1 hw hif.2
        case isFalse => cases h
      case h_2 => cases h
  | segmentFails w j =>
      dsimp only [Threads.step] at h
      split at h
      case h_1 b hw =>
        split at h
        case isTrue hif =>
          cases h
          exact .segmentFails w b j hif.1 hw hif.2.1
        case isFalse => cases h
      case h_2 => cases h
  | proofFails w =>
      dsimp only [Threads.step] at h
      split at h
      case h_1 b hw =>
        split at h
        case isTrue hif =>
          cases h
          exact .proofFails w b hif.1 hw hif.2.1
        case isFalse => cases h
      case h_2 => cases h
  | main =>
      obtain ⟨m, hm, rfl⟩ := Option.map_eq_some_iff.mp h
      exact .main m hm

/-- **REFINES**: in `base` a step is one of the splitter, or nothing. -/
theorem ThreadMoved.base {a : ThreadAct n σ ρ}
    (h : ThreadMoved out capacity t a t') :
    t'.base = t.base ∨ SplitMoved out t.base t'.base := by
  cases h with
  | executeFails hg _ => exact Or.inr (.fail hg)
  | send exeState done hg _ _ => exact Or.inr (.send exeState done hg)
  | recv w index exeState done queue _ hw hq =>
      exact Or.inr (.recv w index exeState done queue hw hq)
  | exit w _ hw hq hg => exact Or.inr (.exit w hw hq hg)
  | waitForTurn w c _ hw ha => exact Or.inr (.waitForTurn w c hw ha)
  | number w c deferred s _ hw hg hs =>
      exact Or.inr (.number w c deferred s hw hg hs)
  | writeText w b k text store _ hw hs =>
      exact Or.inr (.writeText w b k text store hw hs)
  | advanceTurn w b _ hw ht hp => exact Or.inr (.advanceTurn w b hw ht hp)
  | writeSegment w b j k segment phase store _ hw hj hp hs =>
      exact Or.inr (.writeSegment w b j k segment phase store hw hj hp hs)
  | finish w b proofs _ hw hp hall =>
      exact Or.inr (.finish w b proofs hw hp hall)
  | execute | lockReceiver | poisoned | textFails | segmentFails
  | proofFails | main => exact Or.inl rfl

end

end ZkmProver
