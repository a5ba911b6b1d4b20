import ZkmProver.Machine
import ZkmProver.Keyed
import ZkmProver.Stage

/-! # The scheduler — a stage and the copies it has handed out

    A `World` is a `Stage` together with the task copies in the hands of
    client calls and the file at `snark_path`.  Its actions are the calls of
    the worker loop, one at a time and in any order: `dispatch`, the four
    `get_*_task` and the four `on_*_task`, the latter for any copy in flight
    and any result.  The worker loop is one way to interleave them.

    Two fields are a record of the past: `delivered` lists the results
    received so far and `listing` the deferred proofs that were in the segment
    directory when the list of prove tasks was completed. -/

namespace ZkmProver

open Machine

variable {β : Type}

/-- What a client call for a prove, aggregate or snark task fills in. -/
structure Reply (β : Type) where
  state : TaskState
  nodeInfo : String
  output : β

/-- What a client call for a split task fills in. -/
structure SplitReply where
  state : TaskState
  nodeInfo : String
  totalSteps : Nat
  totalSegments : Nat

/-- What every client call fills in. -/
def Reply.fill (r : Reply β) (t : TaskHead β) : TaskHead β :=
  { t with
    state := r.state
    trace := { t.trace with nodeInfo := r.nodeInfo }
    output := r.output }

/-- On a prove task. -/
def Reply.prove (r : Reply β) (t : ProveTask β) : ProveTask β :=
  { t with toTaskHead := r.fill t.toTaskHead }

/-- On an agg task. -/
def Reply.agg (r : Reply β) (t : AggTask β) : AggTask β :=
  { t with toTaskHead := r.fill t.toTaskHead }

/-- On a snark task. -/
def Reply.snark (r : Reply β) (t : SnarkTask β) : SnarkTask β :=
  { t with toTaskHead := r.fill t.toTaskHead }

/-- On the split, which has no output of its own. -/
def SplitReply.split (r : SplitReply) (t : SplitTask β) : SplitTask β :=
  { t with
    state := r.state
    trace := { t.trace with nodeInfo := r.nodeInfo }
    totalSteps := r.totalSteps
    totalSegments := r.totalSegments }

/-- The stage, the copies in flight by kind, the file, and the record. -/
structure World (β : Type) where
  stage : Stage β
  splits : List (SplitTask β)
  proves : List (ProveTask β)
  aggs : List (AggTask β)
  snarks : List (SnarkTask β)
  snarkFile : Option β
  delivered : List (Task β)
  listing : List (Nat × β)

/-- A call of the worker loop.  `i` is the place of the copy among those of its
    kind, `io` whether a file can be written. -/
inductive Action (β : Type) where
  | dispatch (disk : Disk β)
  | getSplit (now : Nat)
  | getProve (disk : Disk β) (now : Nat)
  | getAgg (now : Nat)
  | getSnark (now : Nat)
  | onSplit (i : Nat) (r : SplitReply) (now : Nat)
  | onProve (i : Nat) (r : Reply β) (now : Nat)
  | onAgg (i : Nat) (r : Reply β) (now : Nat) (io : Bool)
  | onSnark (i : Nat) (r : Reply β) (now : Nat) (io : Bool)

/-- The deferred proofs in the segment directory, in the order of the
    listing: file number and content.  Feature `prover` does not look. -/
def deferredProofs [Blob β] (feat : Feature) (disk : Disk β)
    (segPath : String) : List (Nat × β) :=
  match feat with
  | .prover => []
  | .proverV2 =>
      ((disk.readDir segPath).getD []).filterMap fun name =>
        (deferredNumber name).map (·, safeRead disk (segPath ++ "/" ++ name))

namespace World

/-- A fresh stage; `file` is what an earlier run left at `snark_path`. -/
def start [Blob β] (g : GenerateTask β) (file : Option β) : World β where
  stage := Stage.new g
  splits := []
  proves := []
  aggs := []
  snarks := []
  snarkFile := file
  delivered := []
  listing := []

/-- The record of the deferred proofs, written when the list is completed. -/
def listed [Blob β] (feat : Feature) (disk : Disk β) (before after : Stage β)
    (listing : List (Nat × β)) : List (Nat × β) :=
  if after.isTasksGenDone && !before.isTasksGenDone then
    deferredProofs feat disk before.generateTask.segPath
  else listing

variable [Blob β]

/-- One call of the worker loop; `none` is a panic.  A result for a copy that
    is not in flight changes nothing. -/
def step (feat : Feature) (w : World β) : Action β → Option (World β)
  | .dispatch disk =>
      (w.stage.dispatch feat disk).map fun s =>
        { w with stage := s, listing := listed feat disk w.stage s w.listing }
  | .getSplit now =>
      let (t, s) := w.stage.getSplitTask now
      some { w with stage := s, splits := w.splits ++ t.toList }
  | .getProve disk now =>
      let (t, s) := w.stage.getProveTask disk now
      some { w with stage := s, proves := w.proves ++ t.toList }
  | .getAgg now =>
      (w.stage.getAggTask now).map fun (t, s) =>
        { w with stage := s, aggs := w.aggs ++ t.toList }
  | .getSnark now =>
      let (t, s) := w.stage.getSnarkTask now
      some { w with stage := s, snarks := w.snarks ++ t.toList }
  | .onSplit i r now =>
      match w.splits[i]? with
      | none => some w
      | some c =>
          let (s, t) := w.stage.onSplitTask now (r.split c)
          some
            { w with
              stage := s
              splits := w.splits.eraseIdx i
              delivered := .Split t :: w.delivered }
  | .onProve i r now =>
      match w.proves[i]? with
      | none => some w
      | some c =>
          let (s, t) := w.stage.onProveTask now (r.prove c)
          some
            { w with
              stage := s
              proves := w.proves.eraseIdx i
              delivered := .Prove t :: w.delivered }
  | .onAgg i r now io =>
      match w.aggs[i]? with
      | none => some w
      | some c =>
          (w.stage.onAggTask now io (r.agg c)).map fun (s, t, file) =>
            { w with
              stage := s
              aggs := w.aggs.eraseIdx i
              snarkFile := file.or w.snarkFile
              delivered := .Agg t :: w.delivered }
  | .onSnark i r now io =>
      match w.snarks[i]? with
      | none => some w
      | some c =>
          (w.stage.onSnarkTask now io (r.snark c)).map fun (s, t, file) =>
            { w with
              stage := s
              snarks := w.snarks.eraseIdx i
              snarkFile := some file
              delivered := .Snark t :: w.delivered }

/-- Task copies in flight. -/
def inFlight (w : World β) : Nat :=
  w.splits.length + w.proves.length + w.aggs.length + w.snarks.length

end World

/-- The worlds a scheduler can reach from a request. -/
def Reachable [Blob β] (feat : Feature) (g : GenerateTask β) (w : World β) :
    Prop :=
  ∃ file acts, run (World.step feat) (World.start g file) acts = some w

/-- A run that ends in a world with the test passed. -/
theorem Reachable.of_check [Blob β] (feat : Feature) (g : GenerateTask β)
    (acts : List (Action β)) (p : World β → Bool)
    (h : (run (World.step feat) (World.start g none) acts).any p = true) :
    ∃ w, Reachable feat g w ∧ p w = true := by
  obtain ⟨w, hw, hp⟩ := Option.any_eq_true _ _ |>.mp h
  exact ⟨w, ⟨none, acts, hw⟩, hp⟩

/-! ## A small request

    Two segments, both files there from the start: the runs that show the
    theorems at work are over this request. -/

/-- Everything but the target is at its default. -/
def aggRequest : GenerateTask β :=
  { GenerateTask.default with targetStep := .Agg }

/-- Every file is there and empty. -/
def Disk.full : Disk (List UInt8) where
  read := fun _ => some []
  readToString := fun _ => none
  readDir := fun _ => some []
  existsPath := fun _ => true

/-- One receipt of one byte. -/
def receiptBytes : List UInt8 :=
  [1, 0, 0, 0, 0, 0, 0, 0, 1, 0, 0, 0, 0, 0, 0, 0, 7]

/-- Every file holds the receipt. -/
def Disk.receipt : Disk (List UInt8) :=
  { Disk.full with read := fun _ => some receiptBytes }

/-- Up to the first dispatch after a split into two segments. -/
def splitRun : List (Action (List UInt8)) :=
  [.dispatch .full, .getSplit 1, .onSplit 0 ⟨.Success, "a", 10, 2⟩ 2,
    .dispatch .full]

/-- Both segments are proved. -/
def provedRun : List (Action (List UInt8)) :=
  splitRun ++
    [.getProve .full 3, .getProve .full 3,
      .onProve 1 ⟨.Success, "b", [21]⟩ 4, .onProve 0 ⟨.Success, "a", [20]⟩ 5]

/-- The proof over both is there. -/
def aggregatedRun : List (Action (List UInt8)) :=
  provedRun ++
    [.getAgg 6, .onAgg 0 ⟨.Success, "a", [30]⟩ 7 true, .dispatch .full]

end ZkmProver
