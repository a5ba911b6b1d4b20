import ZkmProver.Keyed
import ZkmProver.Machine
import ZkmProver.Tasks

/-! # The client calls — `split`, `prove`, `aggregate`, `snark_proof`, `single_node`

    A call goes through `get_idle_client`, the checks of the prover limit, the
    RPC and the release of the node.  `Pc` names the points between which it
    may be interrupted, `Call.step` is what happens from one to the next, and
    a `Pool` is all the calls of the process over one set of nodes.

    The status and the `client` of a node are shared cells (`Arc<Mutex<_>>`):
    a node is its index in `prover_nodes`, and so is a clone of it.  The list
    of the nodes is behind a mutex (`INSTANCE`); a `snark_proof` that finds no
    node there panics with the lock held and poisons it, and every later call
    panics at the same place. -/

namespace ZkmProver

open Machine

variable {β : Type}

/-! ## Nodes -/

/-- `NodeStatus`; a node that is offline has been so since a time. -/
inductive NodeStatus where
  | Idle
  | Busy
  | OffLine (ts : Nat)
  deriving DecidableEq

/-- `TaskType` -/
inductive TaskType where
  | Split
  | Prove
  | Agg
  | Snark
  | SingleNode
  deriving DecidableEq

/-- What the calls of the process share: the nodes with their cells, whether
    the mutex around them is poisoned, the environment variable
    `PROVE_NODES_NUM`, and the `cur_prover_num` of each stage. -/
structure Shared where
  proverNodes : List String
  poisoned : Bool
  proveNodesNum : Option Nat
  status : Nat → NodeStatus
  client : Nat → Bool
  curProverNum : Nat → Nat

namespace Shared

/-- The lock on `status` of the `n`-th node is taken and the status set. -/
def setStatus (sh : Shared) (n : Nat) (status : NodeStatus) : Shared :=
  { sh with status := Function.update sh.status n status }

/-- The same for its channel, which is there or not. -/
def setClient (sh : Shared) (n : Nat) (client : Bool) : Shared :=
  { sh with client := Function.update sh.client n client }

/-- The count `cur_prover_num` of a stage is set. -/
def setCount (sh : Shared) (stage : Nat) (count : Nat) : Shared :=
  { sh with curProverNum := Function.update sh.curProverNum stage count }

/-- The address of the `n`-th node. -/
def addr (sh : Shared) (n : Nat) : String := sh.proverNodes.getD n ""

/-- `get_nodes`; `none` is a panic: the mutex is poisoned, or there is no node
    and `get_snark_nodes` indexes out of range. -/
def getNodes (sh : Shared) (type : TaskType) : Option (List Nat) :=
  if sh.poisoned then none
  else
    match type with
    | .Snark => if sh.proverNodes.isEmpty then none else some [0]
    | .Prove =>
        let allNodes := List.range sh.proverNodes.length
        some (allNodes.take (sh.proveNodesNum.getD allNodes.length))
    | _ => some (List.range sh.proverNodes.length)

end Shared

/-! ## Replies -/

/-- `ResultCode` of the prover's protocol. -/
inductive ResultCode where
  | Ok
  | InvalidParameter
  | InternalError
  | Busy
  | Unspecified
  deriving DecidableEq

/-- `ResultCode::from_i32` -/
def ResultCode.fromI32 : Int → Option ResultCode
  | 0 => some .Ok
  | 1 => some .InvalidParameter
  | 2 => some .InternalError
  | 3 => some .Busy
  | 4 => some .Unspecified
  | _ => none

/-- `result_code_to_state` -/
def resultCodeToState (code : Int) : TaskState :=
  match ResultCode.fromI32 code with
  | some .Unspecified => .Processing
  | some .Ok => .Success
  | some .InternalError => .Failed
  | some .Busy => .Unprocessed
  | _ => .Failed

/-- What the calls read of a response; `code` is that of `result`, if it is
    there, and `output` the receipt or proof. -/
structure Response (β : Type) where
  code : Option Int
  output : β
  totalSteps : Nat
  totalSegments : Nat

/-- The codes that `on_done!` puts into a response. -/
def Response.Sent (r : Response β) : Prop :=
  ∀ code, r.code = some code → code = 0 ∨ code = 2 ∨ code = 3

/-! ## The five calls -/

/-- The task of a call. -/
inductive Job (β : Type) where
  | split (t : SplitTask β)
  | prove (t : ProveTask β)
  | aggregate (t : AggTask β)
  | snarkProof (t : SnarkTask β)
  | singleNode (t : SingleNodeTask β)

namespace Job

/-- The type that a call asks `get_idle_client` for. -/
def taskType : Job β → TaskType
  | .split _ => .Split
  | .prove _ => .Prove
  | .aggregate _ => .Agg
  | .snarkProof _ => .Snark
  | .singleNode _ => .SingleNode

/-- What every task has, whichever it is. -/
def head : Job β → TaskHead β
  | .split t => t.toTaskHead
  | .prove t => t.toTaskHead
  | .aggregate t => t.toTaskHead
  | .snarkProof t => t.toTaskHead
  | .singleNode t => t.toTaskHead

/-- The task in another state. -/
def setState (state : TaskState) : Job β → Job β
  | .split t => .split { t with state := state }
  | .prove t => .prove { t with state := state }
  | .aggregate t => .aggregate { t with state := state }
  | .snarkProof t => .snarkProof { t with state := state }
  | .singleNode t => .singleNode { t with state := state }

/-- The first line of a call; `snark_proof` has none. -/
def enter : Job β → Job β
  | .snarkProof t => .snarkProof t
  | job => job.setState .Unprocessed

/-- No idle client: only `snark_proof` sets the state here. -/
def noClient : Job β → Job β
  | .snarkProof t => .snarkProof { t with state := .Unprocessed }
  | job => job

end Job

/-- What a response with a result writes to the head of a task. -/
def TaskHead.answer (addrs : String) (code : Int) (output : β)
    (t : TaskHead β) : TaskHead β :=
  { t with
    state := resultCodeToState code
    trace := { t.trace with nodeInfo := addrs }
    output := output }

/-- The end of `split`. -/
def splitReply (addrs : String) (response : Option (Response β))
    (t : SplitTask β) : SplitTask β :=
  match response with
  | none => t
  | some r =>
      match r.code with
      | none => t
      | some code =>
          { t with
            toTaskHead := t.toTaskHead.answer addrs code t.output
            totalSteps := r.totalSteps
            totalSegments := r.totalSegments }

/-- The end of `prove`. -/
def proveReply (addrs : String) (response : Option (Response β))
    (t : ProveTask β) : ProveTask β :=
  match response with
  | none => t
  | some r =>
      match r.code with
      | none => t
      | some code =>
          { t with toTaskHead := t.toTaskHead.answer addrs code r.output }

/-- The end of `aggregate`. -/
def aggReply (addrs : String) (response : Option (Response β))
    (t : AggTask β) : AggTask β :=
  match response with
  | none => t
  | some r =>
      match r.code with
      | none => t
      | some code =>
          { t with toTaskHead := t.toTaskHead.answer addrs code r.output }

/-- The end of `snark_proof`: anything but `Ok` is a failure. -/
def snarkReply (addrs : String) (response : Option (Response β))
    (t : SnarkTask β) : SnarkTask β :=
  match response with
  | none => { t with state := .Failed }
  | some r =>
      if r.code.bind ResultCode.fromI32 = some .Ok then
        { t with
          state := .Success
          trace := { t.trace with nodeInfo := addrs }
          output := r.output }
      else { t with state := .Failed }

/-- The end of `single_node`. -/
def singleReply (addrs : String) (response : Option (Response β))
    (t : SingleNodeTask β) : SingleNodeTask β :=
  match response with
  | none => t
  | some r =>
      match r.code with
      | none => t
      | some code =>
          { t with
            toTaskHead := t.toTaskHead.answer addrs code r.output
            totalCycles := r.totalSteps }

/-- The task after the reply, by the function that called. -/
def Job.reply (addrs : String) (response : Option (Response β)) : Job β → Job β
  | .split t => .split (splitReply addrs response t)
  | .prove t => .prove (proveReply addrs response t)
  | .aggregate t => .aggregate (aggReply addrs response t)
  | .snarkProof t => .snarkProof (snarkReply addrs response t)
  | .singleNode t => .singleNode (singleReply addrs response t)

/-! ## A call -/

/-- The way a call returned; `n` is the node it had obtained. -/
inductive Exit where
  /-- the limit was reached at the first check -/
  | limit
  /-- the limit was reached at the second check -/
  | late (n : Nat)
  | noClient
  /-- `prove` got the node the task was on before -/
  | skipped (n : Nat)
  | replied (n : Nat)
  /-- the `?` of `single_node` on the database update -/
  | failed (n : Nat)
  deriving DecidableEq

/-- Where a call is. -/
inductive Pc (β : Type) where
  | entry
  /-- about to call `get_idle_client` -/
  | pick
  /-- in the loop of `get_idle_client`, with the nodes still to look at -/
  | scan (nodes : List Nat)
  /-- in `is_active` of `n` -/
  | probe (n : Nat) (nodes : List Nat)
  /-- `get_idle_client` returned the node `n` -/
  | leased (n : Nat)
  /-- behind `*count += 1` -/
  | counted (n : Nat)
  /-- waiting for the response -/
  | rpc (n : Nat)
  /-- the same in `single_node`, which is not counted -/
  | alone (n : Nat)
  /-- in front of `*count -= 1` -/
  | answered (n : Nat) (response : Option (Response β))
  /-- in front of the write of the node's status -/
  | release (n : Nat) (response : Option (Response β))
  | returned (exit : Exit)
  | panicked

/-- A call of one of the five functions: the stage it is for and that stage's
    limit, its task, and where it is. -/
structure Call (β : Type) where
  stage : Nat
  maxProverNum : Nat
  job : Job β
  pc : Pc β

/-- What the environment answers while a call proceeds. -/
inductive Answer (β : Type) where
  /-- nothing is asked -/
  | go
  /-- the shuffled nodes -/
  | order (nodes : List Nat)
  | clock (now : Nat)
  /-- the outcome of `connect`, and the time behind it -/
  | connect (ok : Bool) (now : Nat)
  | response (r : Option (Response β))
  /-- the outcome of `update_stage_task_check_at` -/
  | updated (ok : Bool)

namespace Call

/-- The node a call has obtained or is probing, and has not given back. -/
def held (c : Call β) : Option Nat :=
  match c.pc with
  | .probe n _ => some n
  | .leased n => some n
  | .counted n => some n
  | .rpc n => some n
  | .alone n => some n
  | .answered n _ => some n
  | .release n _ => some n
  | .returned (.failed n) => some n
  | _ => none

/-- The check of the prover limit on entry; `single_node` has none. -/
def enter (sh : Shared) (c : Call β) : Call β :=
  let job := c.job.enter
  match job with
  | .singleNode _ => { c with job := job, pc := .pick }
  | _ =>
      if c.maxProverNum ≤ sh.curProverNum c.stage then
        { c with job := job, pc := .returned .limit }
      else { c with job := job, pc := .pick }

/-- One node of the loop in `get_idle_client`, under the lock of its
    status. -/
def look (sh : Shared) (now n : Nat) (nodes : List Nat) (c : Call β) :
    Shared × Call β :=
  match sh.status n with
  | .Busy => (sh, { c with pc := .scan nodes })
  | .OffLine ts =>
      if now < ts + 180 then (sh, { c with pc := .scan nodes })
      else ((sh.setClient n false).setStatus n .Busy,
        { c with pc := .probe n nodes })
  | .Idle => (sh.setStatus n .Busy, { c with pc := .probe n nodes })

/-- `is_active`, and the write of its failure. -/
def connect (sh : Shared) (ok : Bool) (now n : Nat) (nodes : List Nat)
    (c : Call β) : Shared × Call β :=
  if sh.client n then (sh, { c with pc := .leased n })
  else if ok then (sh.setClient n true, { c with pc := .leased n })
  else (sh.setStatus n (.OffLine now), { c with pc := .scan nodes })

/-- `get_idle_client` returned `None`; `single_node` tries again. -/
def noClient (c : Call β) : Call β :=
  match c.job with
  | .singleNode _ => { c with pc := .pick }
  | job => { c with job := job.noClient, pc := .returned .noClient }

/-- The second check of the limit, under the lock of the count. -/
def recheck (sh : Shared) (n : Nat) (c : Call β) : Shared × Call β :=
  if c.maxProverNum ≤ sh.curProverNum c.stage then
    (sh.setStatus n .Idle, { c with pc := .returned (.late n) })
  else
    (sh.setCount c.stage (sh.curProverNum c.stage + 1),
      { c with pc := .counted n })

/-- The request is sent, unless the task of `prove` was on this node. -/
def send (sh : Shared) (n : Nat) (c : Call β) : Shared × Call β :=
  match c.job with
  | .prove t =>
      if t.trace.nodeInfo = sh.addr n then
        (sh.setStatus n .Idle, { c with pc := .returned (.skipped n) })
      else (sh, { c with pc := .rpc n })
  | _ => (sh, { c with pc := .rpc n })

/-- The node is given back and the task returned. -/
def giveBack (sh : Shared) (now n : Nat) (response : Option (Response β))
    (c : Call β) : Shared × Call β :=
  let status := if response.isSome then .Idle else .OffLine now
  (sh.setStatus n status,
    { c with
      job := c.job.reply (sh.addr n) response
      pc := .returned (.replied n) })

/-- From one point of a call to the next. -/
def step (sh : Shared) (c : Call β) (a : Answer β) :
    Option (Shared × Call β) :=
  match c.pc, a with
  | .entry, .go => some (sh, c.enter sh)
  | .pick, .order nodes =>
      match sh.getNodes c.job.taskType with
      | none => some ({ sh with poisoned := true }, { c with pc := .panicked })
      | some all =>
          if nodes.isPerm all then some (sh, { c with pc := .scan nodes })
          else none
  | .scan [], .go => some (sh, c.noClient)
  | .scan (n :: nodes), .clock now => some (c.look sh now n nodes)
  | .probe n nodes, .connect ok now => some (c.connect sh ok now n nodes)
  | .leased n, .go =>
      match c.job with
      | .singleNode _ => none
      | _ => some (c.recheck sh n)
  | .leased n, .updated ok =>
      match c.job with
      | .singleNode _ =>
          if ok then some (sh, { c with pc := .alone n })
          else some (sh, { c with pc := .returned (.failed n) })
      | _ => none
  | .counted n, .go => some (c.send sh n)
  | .rpc n, .response r => some (sh, { c with pc := .answered n r })
  | .alone n, .response r => some (sh, { c with pc := .release n r })
  | .answered n r, .go =>
      some (sh.setCount c.stage (sh.curProverNum c.stage - 1),
        { c with pc := .release n r })
  | .release n r, .clock now => some (c.giveBack sh now n r)
  | _, _ => none

end Call

/-! ## All the calls -/

/-- What the calls share, and all calls of all stages by their number. -/
structure Pool (β : Type) where
  shared : Shared
  calls : List (Call β)

/-- A step of the pool. -/
inductive PoolAction (β : Type) where
  /-- a task is handed to a call -/
  | call (stage : Nat) (maxProverNum : Nat) (job : Job β)
  /-- the `i`-th call proceeds -/
  | proceed (i : Nat) (a : Answer β)

namespace Pool

/-- A call is begun, or one of them takes its next step on what they share. -/
def step (p : Pool β) : PoolAction β → Option (Pool β)
  | .call stage maxProverNum job =>
      some { p with calls := p.calls ++ [⟨stage, maxProverNum, job, .entry⟩] }
  | .proceed i a =>
      (p.calls[i]?).bind fun c =>
        (c.step p.shared a).map fun (sh, c) =>
          { shared := sh, calls := p.calls.set i c }

/-- Before the first call; the nodes were added idle and unconnected. -/
def start (proverNodes : List String) (proveNodesNum : Option Nat) : Pool β where
  shared :=
    { proverNodes := proverNodes
      poisoned := false
      proveNodesNum := proveNodesNum
      status := fun _ => .Idle
      client := fun _ => false
      curProverNum := fun _ => 0 }
  calls := []

/-- The pools that a run over these nodes comes to. -/
def Reachable (proverNodes : List String) (proveNodesNum : Option Nat)
    (p : Pool β) : Prop :=
  ∃ acts, run Pool.step (Pool.start proverNodes proveNodesNum) acts = some p

end Pool

end ZkmProver
