import Mathlib.Data.List.Basic
import Mathlib.Data.List.Range
import Mathlib.Data.List.Count
import Mathlib.Logic.Function.Basic
import ZkmProver.Machine
import ZkmProver.Rename

/-! # The splitter — `split_with_context`

    A generator sends the checkpoints of an execution down a channel, and
    workers turn each into segments: the state at the checkpoint, and the
    deferred records that are ready.  A worker waits for the turn of its
    checkpoint, takes its numbers from two counters, `shard` in the public
    values and the index of the next segment file, and passes the turn on;
    then it writes its files.

    The counters stay in step because each is moved once for each segment
    while the turn lasts (`Numbered`), and the files of two workers are apart
    because their numbers are.  The guards of the code live to the end of the
    loop body; `release` lets them go any time after the turn was passed on,
    so that there are more schedules here than the code has. -/

namespace ZkmProver

open Machine Rename

/-! ## Records and segments -/

/-- `PublicValues<u32, u32>` -/
structure PublicValues where
  committedValueDigest : List UInt32
  deferredProofsDigest : List UInt32
  startPc : UInt32
  nextPc : UInt32
  shard : UInt32
  executionShard : UInt32
  previousInitAddrBits : List UInt32
  lastInitAddrBits : List UInt32
  previousFinalizeAddrBits : List UInt32
  lastFinalizeAddrBits : List UInt32

/-- `ExecutionRecord`; `ρ` is what else there is in it. -/
structure ExecutionRecord (ρ : Type) where
  events : ρ
  publicValues : PublicValues

/-- `Segment`; `σ` is the state of the execution at a checkpoint. -/
inductive Segment (σ ρ : Type) where
  | State (state : σ) (publicValues : PublicValues)
  | Record (record : ExecutionRecord ρ)

variable {ι σ ρ : Type}

/-- The public values a segment is proved with. -/
def Segment.publicValues : Segment σ ρ → PublicValues
  | .State _ pv => pv
  | .Record r => r.publicValues

/-- The update for a shard with cpu events. -/
def PublicValues.cpuShard (state record : PublicValues) : PublicValues :=
  { state with
    shard := state.shard + 1
    executionShard := record.executionShard
    startPc := record.startPc
    nextPc := record.nextPc
    committedValueDigest := record.committedValueDigest
    deferredProofsDigest := record.deferredProofsDigest }

/-- The update for a deferred shard. -/
def PublicValues.deferredShard (state record : PublicValues) : PublicValues :=
  { state with
    shard := state.shard + 1
    previousInitAddrBits := record.previousInitAddrBits
    lastInitAddrBits := record.lastInitAddrBits
    previousFinalizeAddrBits := record.previousFinalizeAddrBits
    lastFinalizeAddrBits := record.lastFinalizeAddrBits
    startPc := state.nextPc }

/-- `for record in records.iter_mut()`: the state is updated for each record
    and stored in it. -/
def stampRecords (update : PublicValues → PublicValues → PublicValues) :
    PublicValues → List (ExecutionRecord ρ) →
      PublicValues × List (ExecutionRecord ρ)
  | state, [] => (state, [])
  | state, r :: rs =>
      let state := update state r.publicValues
      let (last, rest) := stampRecords update state rs
      (last, { r with publicValues := state } :: rest)

/-! ## The workers -/

/-- What `split_with_context` takes from outside: the trace of a checkpoint,
    the turn (which index is let in after how many calls of `advance_turn`),
    the encoding of a segment, and the reset public values. -/
structure Outside (σ ρ : Type) where
  traceCheckpoint : σ → List (ExecutionRecord ρ)
  admits : Nat → Nat → Bool
  encode : Segment σ ρ → List UInt8
  reset : PublicValues

/-- A checkpoint that has been received and traced. -/
structure Traced (σ ρ : Type) where
  index : Nat
  exeState : σ
  done : Bool
  records : List (ExecutionRecord ρ)

/-- The segments of a checkpoint, from the time they have their numbers: the
    write of `segments.txt`, whether the turn was passed on, and the writes of
    the segment files. -/
structure Stretch (σ ρ : Type) where
  done : Bool
  base : Nat
  total : Nat
  segments : List (Segment σ ρ)
  text : Phase
  passed : Bool
  phase : Nat → Phase

/-- Where a trace worker is. -/
inductive Worker (σ ρ : Type) where
  | receiving
  /-- at `wait_for_turn` -/
  | waiting (t : Traced σ ρ)
  /-- behind it, at the first lock -/
  | admitted (t : Traced σ ρ)
  | busy (b : Stretch σ ρ)
  | exited

/-- The thread that executes the program up to the last checkpoint. -/
inductive Generator where
  | running
  /-- the last checkpoint has been sent -/
  | ended
  /-- the execution has failed -/
  | failed
  deriving DecidableEq

/-- The threads of a run.  `sent` are the checkpoints that were sent and
    `reserved` the segments that have numbers, stretch by stretch; these two
    only grow. -/
structure Splitter (ι σ ρ : Type) where
  sent : List σ
  queue : List (Nat × σ × Bool)
  generator : Generator
  workers : ι → Worker σ ρ
  turn : Nat
  guard : Option ι
  state : PublicValues
  segmentIndex : Nat
  store : Store
  reserved : List (Nat × List (Segment σ ρ))

/-- A step of the generator or of one worker. -/
inductive SplitAct (ι σ ρ : Type) where
  | send (exeState : σ) (done : Bool)
  /-- `execute_state` fails -/
  | fail
  | recv (w : ι)
  | exit (w : ι)
  | waitForTurn (w : ι)
  /-- under the locks, with the deferred records that are ready -/
  | number (w : ι) (deferred : List (ExecutionRecord ρ))
  | writeText (w : ι) (k : Nat)
  | advanceTurn (w : ι)
  | writeSegment (w : ι) (j k : Nat)
  | release (w : ι)
  /-- the end of the loop body, with the deferred proofs -/
  | finish (w : ι) (proofs : List (Nat × List UInt8))

/-- The file that holds the number of segments. -/
def segmentsTxt : String := "segments.txt"

/-- `segment_index.to_string().as_bytes()` -/
def textOf (n : Nat) : List UInt8 := (Nat.repr n).toUTF8.data.toList

/-- The name of a segment file. -/
def segmentName (k : Nat) : String := Nat.repr k

/-- The file of a deferred proof; they are numbered from 2^16. -/
def proofName (i : Nat) : String := "deferred_proof_" ++ Nat.repr (65536 ||| i)

/-- The deferred proofs with their indices, in the order they are written;
    `write_all` of no bytes does not get to the file. -/
def putProofs (store : Store) : List (Nat × List UInt8) → Store
  | [] => store
  | (i, proof) :: proofs =>
      putProofs (if proof = [] then store else store.put (proofName i) proof)
        proofs

namespace Splitter

variable [DecidableEq ι]

/-- Before the first step; `files` is what an earlier run left in the
    directory. -/
def start (out : Outside σ ρ) (files : String → Option (List UInt8)) :
    Splitter ι σ ρ where
  sent := []
  queue := []
  generator := .running
  workers := fun _ => .receiving
  turn := 0
  guard := none
  state := out.reset
  segmentIndex := 0
  store := ⟨files, []⟩
  reserved := []

/-- One worker moves. -/
def setWorker (s : Splitter ι σ ρ) (w : ι) (x : Worker σ ρ) :
    Splitter ι σ ρ :=
  { s with workers := Function.update s.workers w x }

/-- What a worker does with its checkpoint while it has the turn, up to the
    write of `segments.txt`; `records[0]` panics when there is none. -/
def number (s : Splitter ι σ ρ) (w : ι) (t : Traced σ ρ)
    (deferred : List (ExecutionRecord ρ)) : Option (Splitter ι σ ρ) :=
  let (state, records) := stampRecords .cpuShard s.state t.records
  let state :=
    if t.done then state
    else { state with executionShard := state.executionShard + 1 }
  let (state, deferred) := stampRecords .deferredShard state deferred
  match records with
  | [] => none
  | first :: _ =>
      let segments :=
        .State t.exeState first.publicValues :: deferred.map .Record
      let total := s.segmentIndex + (records.length + deferred.length)
      some
        { s.setWorker w
            (.busy
              { done := t.done
                base := s.segmentIndex
                total := total
                segments := segments
                text := .idle
                passed := false
                phase := fun _ => .idle }) with
          guard := some w
          state := state
          segmentIndex := total
          reserved := s.reserved ++ [(t.index, segments)] }

/-- One step of one thread, if it can be taken. -/
def step (out : Outside σ ρ) (s : Splitter ι σ ρ) :
    SplitAct ι σ ρ → Option (Splitter ι σ ρ)
  | .send exeState done =>
      if s.generator = .running then
        some
          { s with
            queue := s.queue ++ [(s.sent.length, exeState, done)]
            sent := s.sent ++ [exeState]
            generator := if done then .ended else .running }
      else none
  | .fail =>
      if s.generator = .running then some { s with generator := .failed }
      else none
  | .recv w =>
      match s.workers w, s.queue with
      | .receiving, (index, exeState, done) :: queue =>
          some
            { s.setWorker w (.waiting
                ⟨index, exeState, done, out.traceCheckpoint exeState⟩) with
              queue := queue }
      | _, _ => none
  | .exit w =>
      match s.workers w, s.queue with
      | .receiving, [] =>
          if s.generator = .running then none
          else some (s.setWorker w .exited)
      | _, _ => none
  | .waitForTurn w =>
      match s.workers w with
      | .waiting t =>
          if out.admits s.turn t.index then some (s.setWorker w (.admitted t))
          else none
      | _ => none
  | .number w deferred =>
      match s.workers w, s.guard with
      | .admitted t, none => s.number w t deferred
      | _, _ => none
  | .writeText w k =>
      match s.workers w with
      | .busy b =>
          (s.store.writeFile segmentsTxt (textOf b.total) k b.text).map
            fun (text, store) =>
              { s.setWorker w (.busy { b with text := text }) with
                store := store }
      | _ => none
  | .advanceTurn w =>
      match s.workers w with
      | .busy b =>
          if b.text = .renamed ∧ b.passed = false then
            some
              { s.setWorker w (.busy { b with passed := true }) with
                turn := s.turn + 1 }
          else none
      | _ => none
  | .writeSegment w j k =>
      match s.workers w with
      | .busy b =>
          match b.segments[j]?, b.passed with
          | some segment, true =>
              (s.store.writeFile (segmentName (b.base + j))
                  (out.encode segment) k (b.phase j)).map
                fun (phase, store) =>
                  { s.setWorker w (.busy
                      { b with phase := Function.update b.phase j phase }) with
                    store := store }
          | _, _ => none
      | _ => none
  | .release w =>
      match s.workers w with
      | .busy b =>
          if b.passed ∧ s.guard = some w then some { s with guard := none }
          else none
      | _ => none
  | .finish w proofs =>
      match s.workers w with
      | .busy b =>
          if b.passed ∧ ∀ j < b.segments.length, b.phase j = .renamed then
            some
              { s.setWorker w .receiving with
                guard := if s.guard = some w then none else s.guard
                store :=
                  if b.done then putProofs s.store proofs else s.store }
          else none
      | _ => none

/-- Every thread has been joined, and the generator without an error. -/
def Returned (s : Splitter ι σ ρ) : Prop :=
  s.generator = .ended ∧ ∀ w, s.workers w = .exited

/-- The segments in the order of their numbers. -/
def flat (s : Splitter ι σ ρ) : List (Segment σ ρ) :=
  s.reserved.flatMap (·.2)

/-- The times a file of this name has been put in its place. -/
def timesWritten (s : Splitter ι σ ρ) (name : String) : Nat :=
  s.store.renames.countP (·.1 = name)

/-- What `segments.txt` has held so far, the oldest first. -/
def texts (s : Splitter ι σ ρ) : List (List UInt8) :=
  (s.store.renames.filter (·.1 = segmentsTxt)).map (·.2)

end Splitter

end ZkmProver
