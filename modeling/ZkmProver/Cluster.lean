import ZkmProver.Order
import ZkmProver.PlainSplit
import ZkmProver.Progress
import ZkmProver.StatusFiles

/-! # Cluster — a request from the execution to the published proof

    A `Cluster` is a stage worker, the attempts of nodes at its split, the
    directory that they write and the stage reads, and what nodes have read
    there to prove.  An attempt whose call is given up has lost its node and
    makes no more steps; the next one finds the files that it has left.

    Outputs remember how they were made: the bytes of a file, the proof of a
    segment by the bytes that were read, or a proof over other outputs.  The
    proof that is published is over the segments of the plain split, in order,
    and then over the deferred inputs (`published_as_plain`). -/

namespace ZkmProver

open Forest Keyed Machine Rename

variable {ι σ ρ δ : Type}

/-! ## Outputs and files -/

/-- What a leaf is made of. -/
inductive Material where
  /-- bytes as they are in a file -/
  | file (bytes : List UInt8)
  /-- the proof of the segment with these bytes -/
  | root (segment : List UInt8)
  deriving DecidableEq

/-- Files are read as their bytes. -/
instance : Blob (Receipt Material) where
  empty := .leaf (.file [])
  deserialize
    | .leaf (.file bytes) =>
        (Blob.deserialize bytes).map (List.map fun item => .leaf (.file item))
    | _ => none
  fromUtf8
    | .leaf (.file bytes) => Blob.fromUtf8 bytes
    | _ => none

namespace Execution

/-- The segments of the plain split. -/
def segments (e : Execution σ ρ δ) (out : Outside σ ρ) :
    List (Segment σ ρ) :=
  ((e.plain out).map fun p => p.segments).getD []

/-- The deferred inputs of its last segment. -/
def inputs (e : Execution σ ρ δ) (out : Outside σ ρ) : List (List UInt8) :=
  e.inputsOf (e.segments out)

/-- A directory in which the segment files there are have the bytes of the
    segments, and the deferred files there are the names of the inputs. -/
structure Agrees (e : Execution σ ρ δ) (out : Outside σ ρ)
    (files : String → Option (List UInt8)) : Prop where
  segment  : ∀ k bytes, files (segmentName k) = some bytes →
    ∃ segment, (e.segments out)[k]? = some segment ∧ bytes = out.encode segment
  deferred : ∀ name, (deferredNumber name).isSome → files name ≠ none →
    ∃ i < (e.inputs out).length, name = proofName i

/-- All deferred inputs are there. -/
structure Filled (e : Execution σ ρ δ) (out : Outside σ ρ)
    (files : String → Option (List UInt8)) : Prop
    extends Agrees e out files where
  nonempty : 0 < (e.segments out).length
  input    : ∀ (i : Nat) (input : List UInt8),
    (e.inputs out)[i]? = some input → files (proofName i) = some input

end Execution

/-! ## The machine -/

/-- `files` is the segment directory when no attempt is on, and what the
    attempt found there when one is. -/
structure Cluster (ι σ ρ δ : Type) where
  world : World (Receipt Material)
  attempt : Option (Splitting ι σ ρ δ)
  files : String → Option (List UInt8)
  read : List (String × List UInt8)

/-- A step of the cluster. -/
inductive ClusterAct (ι : Type) where
  /-- a call of the worker loop -/
  | worker (a : Action (Receipt Material))
  /-- a node begins with the split -/
  | split
  /-- a thread of the node -/
  | thread (a : Scheduled ι)
  /-- the node is lost, and leaves these files -/
  | lose (files : String → Option (List UInt8))
  /-- a node reads a segment -/
  | read (path : String) (bytes : List UInt8)

namespace Cluster

/-- The stage is new, no node is at its split, and nothing has been read. -/
def start (g : GenerateTask (Receipt Material)) (file : Option (Receipt Material))
    (files : String → Option (List UInt8)) : Cluster ι σ ρ δ where
  world := .start g file
  attempt := none
  files := files
  read := []

/-- The segment directory. -/
def dir (c : Cluster ι σ ρ δ) : String → Option (List UInt8) :=
  match c.attempt with
  | some x => x.base.store.files
  | none => c.files

/-- The world behind a call; with the result of the split its attempt is
    over. -/
def called (c : Cluster ι σ ρ δ) (w : World (Receipt Material)) :
    Action (Receipt Material) → Cluster ι σ ρ δ
  | .onSplit .. => { c with world := w, attempt := none, files := c.dir }
  | _ => { c with world := w }

variable [DecidableEq ι]

/-- The worker, the attempt that is on and the directory, one step on. -/
def step (e : Execution σ ρ δ) (out : Outside σ ρ) (c : Cluster ι σ ρ δ) :
    ClusterAct ι → Option (Cluster ι σ ρ δ)
  | .worker a => (c.world.step .proverV2 a).map fun w => c.called w a
  | .split =>
      match c.attempt with
      | none => some { c with attempt := some (.start e out c.files) }
      | some _ => none
  | .thread a =>
      match c.attempt with
      | some x => (x.step e out a).map fun x => { c with attempt := some x }
      | none => none
  | .lose files =>
      match c.attempt with
      | some _ => some { c with attempt := none, files := files }
      | none => none
  | .read path bytes => some { c with read := (path, bytes) :: c.read }

end Cluster

/-- The directory as `dispatch` finds it. -/
structure Disk.Finds (disk : Disk (Receipt Material)) (dir : String)
    (files : String → Option (List UInt8)) : Prop where
  listing : ∃ names, disk.readDir dir = some names ∧ names.Nodup ∧
    ∀ name, name ∈ names ↔ files name ≠ none
  read : ∀ name, disk.read (dir ++ "/" ++ name)
    = (files name).map fun bytes => .leaf (.file bytes)

/-- What a call or a node can meet with: the directory as it is; results of
    copies in flight, SUCCESS for a split that has returned, for a segment that
    was read and for the inputs of an agg task; and of a lost node the files as
    they were, but for the deferred proofs, which are not written at once. -/
def Cluster.Obeys (e : Execution σ ρ δ) (out : Outside σ ρ)
    (segPath : String) (c : Cluster ι σ ρ δ) : ClusterAct ι → Prop
  | .worker (.dispatch disk) => disk.Finds segPath c.dir
  | .worker (.onSplit i r _) =>
      c.world.splits[i]? ≠ none ∧ (r.state = .Success →
        ∃ x, c.attempt = some x ∧ x.base.Returned ∧
          r.totalSegments = x.base.segmentIndex % 2 ^ 32)
  | .worker (.onProve i r _) => r.state = .Success →
      ∀ t, c.world.proves[i]? = some t →
        ∃ bytes, (t.segment, bytes) ∈ c.read ∧ r.output = .leaf (.root bytes)
  | .worker (.onAgg i r _ _) => r.state = .Success →
      ∀ a, c.world.aggs[i]? = some a →
        r.output = .node (a.inputs.map (·.receiptInput))
  | .worker _ => True
  | .split => c.world.splits ≠ []
  | .thread _ => True
  | .lose files => ∀ name, (∀ i < (e.inputs out).length, name ≠ proofName i) →
      files name = c.dir name
  | .read path bytes =>
      ∃ name, path = segPath ++ "/" ++ name ∧ c.dir name = some bytes

/-! ## The directory -/

section

variable {e : Execution σ ρ δ} {out : Outside σ ρ}
  {files : String → Option (List UInt8)}

/-- The segments of an execution whose plain split goes through. -/
theorem Execution.segments_eq {p : Carried σ ρ δ} (h : e.plain out = some p) :
    e.segments out = p.segments := by
  rw [segments, h]
  rfl

/-- The listing of a directory with all deferred inputs. -/
theorem Execution.Filled.listed (h : e.Filled out files)
    {disk : Disk (Receipt Material)} {dir : String} (hdisk : disk.Finds dir files)
    (hfew : (e.inputs out).length ≤ 65536) :
    (deferredProofs .proverV2 disk dir).Perm
      ((e.inputs out).mapIdx fun i input =>
        (65536 + i, .leaf (.file input))) := by
  obtain ⟨names, hnames, hnodup, hmem⟩ := hdisk.listing
  have hinj : ∀ i ∈ List.range (e.inputs out).length,
      ∀ j ∈ List.range (e.inputs out).length,
        proofName i = proofName j → i = j := by
    intro i hi j hj
    exact proofName_inj ((List.mem_range.mp hi).trans_le hfew)
      ((List.mem_range.mp hj).trans_le hfew)
  have hperm : (names.filter fun name => (deferredNumber name).isSome).Perm
      ((List.range (e.inputs out).length).map proofName) := by
    refine (List.perm_ext_iff_of_nodup (hnodup.filter _)
      (List.Nodup.map_on hinj List.nodup_range)).mpr fun name => ?_
    rw [List.mem_filter, hmem, List.mem_map]
    constructor
    · rintro ⟨hfile, hnumber⟩
      obtain ⟨i, hi, rfl⟩ := h.deferred name hnumber hfile
      exact ⟨i, List.mem_range.mpr hi, rfl⟩
    · rintro ⟨i, hi, rfl⟩
      have hi := List.mem_range.mp hi
      rw [h.input i _ (List.getElem?_eq_getElem hi),
        deferredNumber_proofName (hi.trans_le hfew)]
      exact ⟨by rintro ⟨⟩, rfl⟩
  have hlisting : deferredProofs .proverV2 disk dir
      = (names.filter fun name => (deferredNumber name).isSome).filterMap
          fun name => (deferredNumber name).map
            (·, safeRead disk (dir ++ "/" ++ name)) := by
    rw [deferredProofs, hnames, Option.getD_some, List.filterMap_filter]
    refine List.filterMap_congr fun name _ => ?_
    cases deferredNumber name <;> rfl
  rw [hlisting]
  refine (hperm.filterMap _).trans (.of_eq ?_)
  rw [List.filterMap_map]
  -- entry by entry
  have hread : ∀ i ∈ List.range (e.inputs out).length,
      ((fun name => (deferredNumber name).map
        (·, safeRead disk (dir ++ "/" ++ name))) ∘ proofName) i
        = some (65536 + i, .leaf (.file ((e.inputs out).getD i []))) := by
    intro i hi
    have hi := List.mem_range.mp hi
    have hget := List.getElem?_eq_getElem hi
    rw [Function.comp_apply, deferredNumber_proofName (hi.trans_le hfew),
      safeRead, hdisk.read, h.input i _ hget, List.getD_eq_getElem?_getD, hget]
    rfl
  rw [List.filterMap_congr hread, List.filterMap_eq_map']
  refine List.ext_getElem (by simp) fun i hi _ => ?_
  have hi : i < (e.inputs out).length := by simpa using hi
  simp [hi]

section

variable [DecidableEq ι] [Nonempty ι] {x : Splitting ι σ ρ δ}
  (htrace : ∀ exe, (out.traceCheckpoint exe).length = 1)
  (hadmits : ∀ t i, out.admits t i = true → i ≤ t)
  (hshard : out.reset.shard = 0) {as : List (Scheduled ι)}
  (hrun : run (Splitting.step e out) (Splitting.start e out files) as = some x)

include htrace hadmits hshard hrun

omit [Nonempty ι] in
/-- What has been numbered is a prefix of the plain split, and all of it at the
    end. -/
theorem Splitting.flat_prefix :
    x.base.flat <+: e.segments out ∧
      (x.base.reserved.length = e.checkpoints.length →
        x.base.flat = e.segments out) := by
  obtain ⟨hs, -, ho, -⟩ := Splitting.in_order htrace hadmits hshard hrun
  obtain ⟨p, hp, hfirst⟩ := ho.first hs htrace
  rw [Execution.segments_eq hp]
  exact hfirst

omit [Nonempty ι] in
/-- At any moment of an attempt. -/
theorem Splitting.agrees (hfiles : e.Agrees out files) :
    e.Agrees out x.base.store.files := by
  obtain ⟨hs, hd, ho, hf⟩ := Splitting.in_order htrace hadmits hshard hrun
  obtain ⟨hfirst, hwhole⟩ :=
    Splitting.flat_prefix htrace hadmits hshard hrun
  constructor
  · intro k bytes hk
    rcases hd.whole.segments k with ⟨hsame, -⟩ | ⟨segment, hseg, hfile, -⟩
    · exact hfiles.segment k bytes (hsame.symm.trans hk)
    · obtain ⟨rest, hrest⟩ := hfirst
      refine ⟨segment, hrest ▸ getElem?_append_of_some hseg, ?_⟩
      exact Option.some.inj (hk.symm.trans hfile)
  · intro name hnumber hfile
    obtain ⟨n, hn⟩ := Option.isSome_iff_exists.mp hnumber
    have hname := mem_of_deferredNumber hn
    have huntouched : Untouched files x.base →
        ∃ i < (e.inputs out).length, name = proofName i := by
      intro hu
      rw [hu name hname] at hfile
      exact hfiles.deferred name hnumber hfile
    rcases Nat.lt_or_ge x.base.reserved.length e.checkpoints.length
      with hlt | hge
    · exact huntouched (hf.early hlt)
    · have hall := Nat.le_antisymm (ho.reserved_le hs) hge
      rcases hf.late hall with ⟨w, segments, hw⟩ | ⟨proofs, hperm, hproofs⟩
      · exact huntouched (hf.final w segments hw).2.1
      · rw [hproofs name hname] at hfile
        rcases (putProofs_ne_none _).mp hfile with hold | ⟨p, hp, -, rfl⟩
        · exact hfiles.deferred name hnumber hold
        · rw [hwhole hall] at hperm
          have hget := mem_indexed.mp (hperm.mem_iff.mp hp)
          exact ⟨p.1, (List.getElem?_eq_some_iff.mp hget).1, rfl⟩

/-- And when it has returned. -/
theorem Splitting.filled (hfiles : e.Agrees out files)
    (hfew : (e.inputs out).length ≤ 65536)
    (hfilled : ∀ input ∈ e.inputs out, input ≠ []) (hret : x.base.Returned) :
    e.Filled out x.base.store.files ∧
      x.base.segmentIndex = (e.segments out).length := by
  obtain ⟨hs, hd, ho, hf⟩ := Splitting.in_order htrace hadmits hshard hrun
  obtain ⟨hsent, hpos⟩ := hs.all_reserved hret inferInstance
  have hall := hsent.trans (ho.ended hret.1)
  have hflat :=
    (Splitting.flat_prefix htrace hadmits hshard hrun).2 hall
  have hleft := hs.as_plain hd hf hret inferInstance hall
  rw [hflat] at hleft hpos
  have hagrees := Splitting.agrees htrace hadmits hshard hrun hfiles
  refine ⟨⟨hagrees, hpos, ?_⟩, hleft.total⟩
  intro i input hi
  obtain ⟨proofs, hperm, hproofs⟩ := hleft.proofs
  have hnames : proofs.Pairwise fun p q => proofName p.1 ≠ proofName q.1 :=
    (hperm.pairwise_iff fun hne => hne.symm).mpr (indexed_names hfew)
  have hmem : (i, input) ∈ proofs := hperm.mem_iff.mpr (mem_indexed.mpr hi)
  have hfile := putProofs_mem ⟨files, []⟩ hnames hmem
    (hfilled _ (List.mem_of_getElem? hi))
  rw [hproofs _ (proofName_d i)]
  exact hfile

end

end

/-! ## What the stage has received -/

section

variable {β : Type} [Blob β] {feat : Feature} {g : GenerateTask β}
  {w w' : World β}

/-- Copies of prove tasks name their segment file. -/
theorem Reachable.copies (h : Reachable feat g w) : ∀ t ∈ w.proves,
    t.segment = g.segPath ++ "/" ++ toString t.fileNo := by
  have hall : (Leases w ∧ Graph feat w) ∧
      (w.stage.generateTask = g ∧ Made g w) ∧ ∀ t ∈ w.proves,
        t.segment = g.segPath ++ "/" ++ toString t.fileNo := by
    refine h.inv (I := fun w => (Leases w ∧ Graph feat w) ∧
        (w.stage.generateTask = g ∧ Made g w) ∧ ∀ t ∈ w.proves,
          t.segment = g.segPath ++ "/" ++ toString t.fileNo)
      (fun file => ⟨⟨Leases.start g file, Graph.start g file⟩,
        ⟨rfl, Made.start file⟩, List.forall_mem_nil _⟩) fun w w' hs hi hm => ?_
    obtain ⟨⟨hl, hg⟩, ⟨hreq, hmade⟩, hcopies⟩ := hi
    refine ⟨⟨hl.moved hs hm, hg.moved hs hl hm⟩,
      ⟨hm.request.trans hreq, hmade.moved hreq hm⟩, ?_⟩
    cases hm with
    | proveOut now x t hx hwait ht =>
        intro c hc
        rcases List.mem_append.mp hc with hc | hc
        · exact hcopies c hc
        · rw [List.mem_singleton.mp hc, ht]
          refine hmade.segment x hx ?_
          cases hd : x.isDeferred with
          | false => rfl
          | true => exact absurd (hg.deferred x hx hd) (waiting_unfinished hwait)
    | proveIn i c t r now ps err _ _ _ _ =>
        exact fun d hd => hcopies d (List.mem_of_mem_eraseIdx hd)
    | _ => exact hcopies
  exact hall.2.2

omit [Blob β] in
/-- The result of a prove task as it is recorded. -/
theorem onProveTask_returned (now : Nat) (r : Reply β) (c : ProveTask β)
    (s : Stage β) :
    (s.onProveTask now (r.prove c)).2.fileNo = c.fileNo ∧
      (s.onProveTask now (r.prove c)).2.state = r.state ∧
        (s.onProveTask now (r.prove c)).2.output = r.output := by
  unfold Stage.onProveTask
  dsimp only
  split
  · refine ⟨rfl, (stampSrc_state ..).trans rfl, (stampSrc_output ..).trans rfl⟩
  · exact ⟨rfl, rfl, rfl⟩

omit [Blob β] in
/-- And that of an agg task. -/
theorem onAggTask_returned {now : Nat} {io : Bool} {r : Reply β}
    {c t : AggTask β} {s s' : Stage β} {file : Option β}
    (h : s.onAggTask now io (r.agg c) = some (s', t, file)) :
    t.inputs = c.inputs ∧ t.state = r.state ∧ t.output = r.output := by
  obtain ⟨-, rfl, -⟩ := onAggTask_eq h
  dsimp only
  split
  · exact ⟨rfl, (stampSrc_state ..).trans rfl, (stampSrc_output ..).trans rfl⟩
  · exact ⟨rfl, rfl, rfl⟩

end

/-- A successful result is of the execution. -/
def Execution.Bears (e : Execution σ ρ δ) (out : Outside σ ρ) :
    Task (Receipt Material) → Prop
  | .Split t => t.state = .Success →
      t.totalSegments = (e.segments out).length
  | .Prove t => t.state = .Success →
      ∃ segment, (e.segments out)[t.fileNo]? = some segment ∧
        t.output = .leaf (.root (out.encode segment))
  | .Agg a => a.state = .Success →
      a.output = .node (a.inputs.map (·.receiptInput))
  | .Snark _ => True

/-- What holds of a cluster at any moment: its attempts have run on the
    directory, whatever was read is a segment, and once the split is done all
    of its files are there. -/
structure Intact (e : Execution σ ρ δ) (out : Outside σ ρ)
    [DecidableEq ι] (g : GenerateTask (Receipt Material))
    (c : Cluster ι σ ρ δ) : Prop where
  world   : Reachable .proverV2 g c.world
  attempt : ∀ x, c.attempt = some x → c.world.splits ≠ [] ∧
    ∃ as, run (Splitting.step e out) (Splitting.start e out c.files) as
      = some x
  files   : e.Agrees out c.files
  read    : ∀ p ∈ c.read, ∀ k, p.1 = g.segPath ++ "/" ++ segmentName k →
    ∃ segment, (e.segments out)[k]? = some segment ∧ p.2 = out.encode segment
  results : ∀ d ∈ c.world.delivered, e.Bears out d
  done    : c.world.stage.splitTask.state = .Success →
    c.attempt = none ∧ e.Filled out c.files
  listing : c.world.stage.isTasksGenDone = true →
    c.world.listing.Perm ((e.inputs out).mapIdx fun i input =>
      (65536 + i, .leaf (.file input)))

section

variable [DecidableEq ι] [Nonempty ι] {e : Execution σ ρ δ}
  {out : Outside σ ρ} {g : GenerateTask (Receipt Material)}
  {c c' : Cluster ι σ ρ δ}

omit [Nonempty ι] in
/-- A cluster begins intact on a directory that agrees. -/
theorem Intact.start (file : Option (Receipt Material))
    {files : String → Option (List UInt8)} (hfiles : e.Agrees out files) :
    Intact e out g (Cluster.start g file files : Cluster ι σ ρ δ) where
  world := .start g file
  attempt := by rintro x ⟨⟩
  files := hfiles
  read := List.forall_mem_nil _
  results := List.forall_mem_nil _
  done := by rintro ⟨⟩
  listing := by rintro ⟨⟩

omit [Nonempty ι] in
/-- The listing is taken when all deferred inputs are there. -/
theorem Intact.listing_step (hfew : (e.inputs out).length ≤ 65536)
    (hfrom : g.fromStep = .Init) (h : Intact e out g c)
    {a : Action (Receipt Material)} {w' : World (Receipt Material)}
    (ha : c.Obeys e out g.segPath (.worker a : ClusterAct ι))
    (hstep : c.world.step .proverV2 a = some w')
    (hgen : w'.stage.isTasksGenDone = true) :
    w'.listing.Perm ((e.inputs out).mapIdx fun i input =>
      (65536 + i, .leaf (.file input))) := by
  have hsplit := World.step_splitStep h.world.shape hstep
  have hphases := (h.world.step hstep).phases (Or.inl hfrom)
  cases World.step_stepped hstep with
  | dispatch disk s hd =>
      show (World.listed ..).Perm _
      rw [World.listed]
      cases hbefore : c.world.stage.isTasksGenDone with
      | true =>
          rw [if_neg (by simp)]
          exact h.listing hbefore
      | false =>
          have hafter : s.isTasksGenDone = true := hgen
          rw [if_pos (by rw [hafter]; rfl),
            (h.world.phases (Or.inl hfrom)).request]
          have hdone : s.splitTask.state = .Success := (hphases.gen hgen).1
          have hstate : c.world.stage.splitTask.state = .Success := by
            cases hsplit with
            | made _ _ _ hst _ => cases hdone.symm.trans hst
            | other _ _ hsame _ => rw [← hsame]; exact hdone
          obtain ⟨hnone, hfiles⟩ := h.done hstate
          have hdir : c.dir = c.files := by rw [Cluster.dir, hnone]
          exact hfiles.listed (hdir ▸ ha) hfew
  | quiet _ _ => exact h.listing hgen
  | getSplit _ _ _ _ => exact h.listing hgen
  | getProve _ _ => exact h.listing hgen
  | getAgg _ _ _ _ hs =>
      rw [hs] at hgen
      exact h.listing hgen
  | getSnark _ _ _ _ => exact h.listing hgen
  | onSplit _ _ _ _ _ => exact h.listing hgen
  | onProve _ _ _ _ _ =>
      rw [onProveTask_eq] at hgen
      exact h.listing hgen
  | onAgg _ _ _ _ _ _ _ _ _ hon =>
      obtain ⟨rfl, -, -⟩ := onAggTask_eq hon
      exact h.listing hgen
  | onSnark _ _ _ _ _ _ _ _ _ _ hs =>
      rw [hs] at hgen
      exact h.listing hgen

variable
  (htrace : ∀ exe, (out.traceCheckpoint exe).length = 1)
  (hadmits : ∀ t i, out.admits t i = true → i ≤ t)
  (hshard : out.reset.shard = 0)
  (hfew : (e.inputs out).length ≤ 65536)
  (hfilled : ∀ input ∈ e.inputs out, input ≠ [])
  (hmany : (e.segments out).length < 2 ^ 32)

include htrace hadmits hshard

omit [Nonempty ι] in
/-- The directory at any moment. -/
theorem Intact.agrees (h : Intact e out g c) : e.Agrees out c.dir := by
  rw [Cluster.dir]
  cases hattempt : c.attempt with
  | none => exact h.files
  | some x =>
      obtain ⟨-, as, hrun⟩ := h.attempt x hattempt
      exact Splitting.agrees htrace hadmits hshard hrun h.files

include hfew hfilled

/-- The directory of an attempt that has returned. -/
theorem Intact.returned (h : Intact e out g c) {x : Splitting ι σ ρ δ}
    (hx : c.attempt = some x) (hret : x.base.Returned) :
    e.Filled out c.dir ∧ x.base.segmentIndex = (e.segments out).length := by
  obtain ⟨-, as, hrun⟩ := h.attempt x hx
  rw [Cluster.dir, hx]
  exact Splitting.filled htrace hadmits hshard hrun h.files hfew hfilled hret

include hmany

/-- Results keep being of the execution. -/
theorem Intact.results_step (h : Intact e out g c)
    {a : Action (Receipt Material)} {w' : World (Receipt Material)}
    (ha : c.Obeys e out g.segPath (.worker a : ClusterAct ι))
    (hstep : c.world.step .proverV2 a = some w') :
    ∀ d ∈ w'.delivered, e.Bears out d := by
  cases World.step_stepped hstep with
  | onSplit i r now t ht =>
      refine List.forall_mem_cons.mpr ⟨fun hst => ?_, h.results⟩
      obtain ⟨x, hx, hret, htotal⟩ := ha.2 ((stampSrc_state ..).symm.trans hst)
      refine htotal.trans ?_
      rw [(h.returned htrace hadmits hshard hfew hfilled hx hret).2]
      exact Nat.mod_eq_of_lt hmany
  | onProve i r now t ht =>
      obtain ⟨hno, hstate, houtput⟩ := onProveTask_returned now r t c.world.stage
      refine List.forall_mem_cons.mpr ⟨fun hst => ?_, h.results⟩
      obtain ⟨bytes, hread, hout⟩ := ha (hstate.symm.trans hst) t ht
      obtain ⟨segment, hseg, rfl⟩ := h.read _ hread t.fileNo
        (h.world.copies t (List.mem_of_getElem? ht))
      rw [hno, houtput]
      exact ⟨segment, hseg, hout⟩
  | onAgg i r now io t d s file ht hon =>
      obtain ⟨hinputs, hstate, houtput⟩ := onAggTask_returned hon
      refine List.forall_mem_cons.mpr ⟨fun hst => ?_, h.results⟩
      rw [houtput, hinputs]
      exact ha (hstate.symm.trans hst) t ht
  | onSnark i r now io t d s file _ _ _ =>
      exact List.forall_mem_cons.mpr ⟨trivial, h.results⟩
  | _ => exact h.results

/-- A call that brings no result of the split. -/
theorem Intact.call (hfrom : g.fromStep = .Init) (h : Intact e out g c)
    {a : Action (Receipt Material)} {w' : World (Receipt Material)}
    (ha : c.Obeys e out g.segPath (.worker a : ClusterAct ι))
    (hstep : c.world.step .proverV2 a = some w')
    (hother : ∀ i r now, a ≠ .onSplit i r now) :
    Intact e out g { c with world := w' } := by
  have hsplit := World.step_splitStep h.world.shape hstep
  refine ⟨h.world.step hstep, fun x hx => ?_, h.files, h.read,
    h.results_step htrace hadmits hshard hfew hfilled hmany ha hstep,
    fun hst => h.done ?_,
    h.listing_step hfew hfrom ha hstep⟩
  · obtain ⟨hne, hrun⟩ := h.attempt x hx
    refine ⟨?_, hrun⟩
    dsimp only
    cases hsplit with
    | made _ _ _ _ hsame => rwa [hsame]
    | handed _ _ _ _ hsame =>
        rw [hsame]
        exact List.append_ne_nil_of_right_ne_nil _ (List.cons_ne_nil _ _)
    | taken i r now _ _ _ _ _ => exact absurd rfl (hother i r now)
    | other _ _ _ hsame => rwa [hsame]
  · dsimp only at hst
    cases hsplit with
    | made _ _ _ hun _ => cases hst.symm.trans hun
    | handed _ _ _ hout _ =>
        rw [hout] at hst
        cases hst
    | taken i r now _ _ _ _ _ => exact absurd rfl (hother i r now)
    | other _ _ hsame _ => rwa [hsame] at hst

/-- The result of the split. -/
theorem Intact.answer (hfrom : g.fromStep = .Init) (h : Intact e out g c)
    {i now : Nat} {r : SplitReply} {w' : World (Receipt Material)}
    (ha : c.Obeys e out g.segPath (.worker (.onSplit i r now) : ClusterAct ι))
    (hstep : c.world.step .proverV2 (.onSplit i r now) = some w') :
    Intact e out g ({ c with world := w', attempt := none, files := c.dir } :
      Cluster ι σ ρ δ) := by
  refine ⟨h.world.step hstep, fun _ hx => (nomatch hx),
    h.agrees htrace hadmits hshard, h.read,
    h.results_step htrace hadmits hshard hfew hfilled hmany ha hstep,
    fun hst => ⟨rfl, ?_⟩,
    h.listing_step hfew hfrom ha hstep⟩
  dsimp only at hst ⊢
  cases World.step_splitStep h.world.shape hstep with
  | taken _ _ _ t _ ht hstage _ =>
      rw [hstage] at hst
      have hbusy := h.world.leases.split_busy (List.mem_of_getElem? ht)
      have hsucc : (r.split t).state = .Success := (onTask_success hbusy hst).1
      obtain ⟨x, hx, hret, -⟩ := ha.2 hsucc
      exact (h.returned htrace hadmits hshard hfew hfilled hx hret).1
  | other _ _ hsame _ =>
      rw [hsame] at hst
      obtain ⟨hnone, hfiles⟩ := h.done hst
      rw [Cluster.dir, hnone]
      exact hfiles

/-- **INTACT**: every step of the cluster keeps it so. -/
theorem Intact.step (hfrom : g.fromStep = .Init) (h : Intact e out g c)
    {a : ClusterAct ι} (ha : c.Obeys e out g.segPath a)
    (hstep : c.step e out a = some c') : Intact e out g c' := by
  cases a with
  | worker a =>
      obtain ⟨w', hw, rfl⟩ := Option.map_eq_some_iff.mp hstep
      have hcall := h.call htrace hadmits hshard hfew hfilled hmany hfrom ha hw
      cases a with
      | onSplit i r now =>
          exact h.answer htrace hadmits hshard hfew hfilled hmany hfrom ha hw
      | _ => exact hcall fun _ _ _ => by rintro ⟨⟩
  | split =>
      dsimp only [Cluster.step] at hstep
      split at hstep
      case h_1 hnone =>
        cases hstep
        refine ⟨h.world, fun x hx => ⟨ha, [], ?_⟩, h.files, h.read, h.results,
          fun hst => ?_, h.listing⟩
        · cases hx
          rfl
        · obtain ⟨t, ht⟩ := List.exists_mem_of_ne_nil _ ha
          cases hst.symm.trans (h.world.leases.split_busy ht)
      case h_2 => cases hstep
  | thread a =>
      dsimp only [Cluster.step] at hstep
      split at hstep
      case h_1 x hx =>
        obtain ⟨x', hx', rfl⟩ := Option.map_eq_some_iff.mp hstep
        obtain ⟨hne, as, hrun⟩ := h.attempt x hx
        refine ⟨h.world, fun y hy => ⟨hne, as ++ [a], ?_⟩, h.files, h.read,
          h.results, fun hst => ?_, h.listing⟩
        · cases hy
          exact run_snoc.mpr ⟨x, hrun, hx'⟩
        · cases hx.symm.trans (h.done hst).1
      case h_2 => cases hstep
  | lose files =>
      dsimp only [Cluster.step] at hstep
      split at hstep
      case h_1 x hx =>
        cases hstep
        obtain ⟨hsegment, hdeferred⟩ := h.agrees htrace hadmits hshard
        refine ⟨h.world, fun _ hy => (nomatch hy),
          ⟨fun k bytes hk => ?_, fun name hnumber hfile => ?_⟩,
          h.read, h.results, fun hst => ?_, h.listing⟩
        · have hsame := ha _ fun i _ => proof_ne i (not_d_segmentName k)
          exact hsegment k bytes (hsame.symm.trans hk)
        · by_contra hnone
          have hother : ∀ i < (e.inputs out).length, name ≠ proofName i :=
            fun i hi hname => hnone ⟨i, hi, hname⟩
          refine hnone (hdeferred name hnumber fun hgone => hfile ?_)
          exact (ha name hother).trans hgone
        · cases hx.symm.trans (h.done hst).1
      case h_2 => cases hstep
  | read path bytes =>
      cases hstep
      obtain ⟨name, rfl, hfile⟩ := ha
      refine ⟨h.world, h.attempt, h.files,
        List.forall_mem_cons.mpr ⟨fun k hk => ?_, h.read⟩, h.results, h.done,
        h.listing⟩
      have hname : name = segmentName k := String.append_right_inj _ |>.mp hk
      rw [hname] at hfile
      exact (h.agrees htrace hadmits hshard).segment k bytes hfile

end

/-! ## What is published -/

/-- Numbered entries in the order of their numbers. -/
theorem map_snd_of_numbered {α γ : Type} {f : α → γ} {n : Nat}
    {l : List (Nat × γ)} {xs : List α}
    (hperm : l.Perm (xs.mapIdx fun i x => (n + i, f x)))
    (hsorted : l.Pairwise fun p q => p.1 ≤ q.1) :
    l.map Prod.snd = xs.map f := by
  have hrange : (xs.mapIdx fun i x => (n + i, f x)).Pairwise
      fun p q => p.1 ≤ q.1 := by
    rw [List.pairwise_iff_getElem]
    intro j k hj hk hjk
    rw [List.getElem_mapIdx, List.getElem_mapIdx]
    exact Nat.add_le_add_left hjk.le _
  have heq := hperm.eq_of_pairwise ?_ hsorted hrange
  · rw [heq]
    refine List.ext_getElem (by simp) fun i _ _ => ?_
    simp
  · -- a number stands for one entry
    intro p q hp hq hpq hqp
    rw [hperm.mem_iff, List.mem_mapIdx] at hp
    rw [List.mem_mapIdx] at hq
    obtain ⟨i, hi, rfl⟩ := hp
    obtain ⟨j, hj, rfl⟩ := hq
    obtain rfl : i = j := Nat.add_left_cancel (Nat.le_antisymm hpq hqp)
    rfl

/-- A row with the numbers of a list reads as the list. -/
theorem flatMap_of_numbers {α γ κ : Type} {f : α → κ} {read : γ → List κ}
    {no : γ → Nat} {row : List γ} {xs : List α}
    (hno : row.map no = List.range xs.length)
    (hread : ∀ t ∈ row, ∃ x, xs[no t]? = some x ∧ read t = [f x]) :
    row.flatMap read = xs.map f := by
  have hone : row.flatMap read
      = row.flatMap fun t => (xs[no t]?.map f).toList := by
    refine List.flatMap_congr fun t ht => ?_
    obtain ⟨x, hx, hr⟩ := hread t ht
    rw [hr, hx]
    rfl
  have hall : ∀ xs : List α, (List.range xs.length).flatMap
      (fun k => (xs[k]?.map f).toList) = xs.map f := by
    intro xs
    induction xs using List.reverseRecOn with
    | nil => rfl
    | append_singleton xs x ih =>
        rw [List.length_append, List.length_singleton, List.range_succ,
          List.flatMap_append, List.flatMap_singleton,
          List.getElem?_concat_length, List.map_append]
        refine congrArg₂ (· ++ ·) (Eq.trans ?_ ih) rfl
        refine List.flatMap_congr fun k hk => ?_
        rw [List.getElem?_append_left (List.mem_range.mp hk)]
  rw [hone, ← hall xs, ← hno, List.flatMap_map]

section

variable {e : Execution σ ρ δ} {out : Outside σ ρ}
  {g : GenerateTask (Receipt Material)} {w : World (Receipt Material)}

/-- A proved segment holds the proof of its segment. -/
theorem Rows.segment (hr : Rows .proverV2 w) (hs : Shape w) (hc : Credit w)
    (hresults : ∀ d ∈ w.delivered, e.Bears out d)
    (hgen : w.stage.isTasksGenDone = true)
    {t : ProveTask (Receipt Material)} (ht : t ∈ w.stage.proveTasks)
    (hdef : t.isDeferred = false) (hst : t.state = .Success) :
    ∃ segment, (e.segments out)[t.fileNo]? = some segment ∧
      t.output.frontier = [.root (out.encode segment)] := by
  have hcredit := hc.prove t ht hdef
  rw [if_pos hst] at hcredit
  obtain ⟨r, hrm, hout⟩ := List.mem_map.mp
    (hcredit ▸ List.mem_singleton_self t.output)
  obtain ⟨hrd, -, hrs⟩ := mem_provesOf.mp hrm
  rw [← hr.segmentResults hs hgen ht hdef] at hrm
  have hno : r.fileNo = t.fileNo :=
    (of_decide_eq_true (List.mem_filter.mp hrm).2).1
  obtain ⟨segment, hseg, hleaf⟩ := hresults _ hrd hrs
  have htout : t.output = .leaf (.root (out.encode segment)) :=
    hout.symm.trans hleaf
  rw [← hno, htout, Receipt.frontier_leaf]
  exact ⟨segment, hseg, rfl⟩

end

section

variable [DecidableEq ι] [Nonempty ι] {g : GenerateTask (Receipt Material)}

/-- **AS PLAIN**: whatever the schedule of the threads, the calls and the
    nodes, and however often a node is lost in its split, the proof that is
    published with success is over the segments of the plain split, in order
    and each once, and then over the deferred inputs. -/
theorem published_as_plain (e : Execution σ ρ δ) (out : Outside σ ρ)
    (htrace : ∀ exe, (out.traceCheckpoint exe).length = 1)
    (hadmits : ∀ t i, out.admits t i = true → i ≤ t)
    (hshard : out.reset.shard = 0)
    (hfew : (e.inputs out).length ≤ 65536)
    (hfilled : ∀ input ∈ e.inputs out, input ≠ [])
    (hmany : (e.segments out).length < 2 ^ 32)
    (hfrom : g.fromStep = .Init) (hwhole : g.compositeProof = false)
    (htarget : g.targetStep = .Agg ∨ g.targetStep = .Snark)
    {files : String → Option (List UInt8)} (hfiles : e.Agrees out files)
    {file : Option (Receipt Material)} {as : List (ClusterAct ι)}
    {c : Cluster ι σ ρ δ}
    (hobeys : Along (Cluster.step e out) (Cluster.Obeys e out g.segPath)
      (Cluster.start g file files) as)
    (hrun : run (Cluster.step e out) (Cluster.start g file files) as = some c)
    (hsucc : c.world.stage.isSuccess = true) :
    ∃ proof, published c.world = some proof ∧
      proof.frontier
        = (e.segments out).map (fun segment => .root (out.encode segment))
          ++ (e.inputs out).map .file := by
  have hI : Intact e out g c :=
    run_inv_along (fun _ _ _ ha hI hstep => Intact.step htrace hadmits hshard
      hfew hfilled hmany hfrom hI ha hstep) hobeys
      (Intact.start file hfiles) hrun
  have h := hI.world
  have hp := h.phases (Or.inl hfrom)
  have hr := h.rows (Or.inl hfrom)
  have hst : c.world.stage.splitTask.state = .Success := by
    rcases hp.outcome hfrom hsucc with ⟨hst, _⟩ | ⟨hpr, _⟩ | ⟨ha, _⟩
    · exact hst
    · exact (hp.gen hpr.done).1
    · exact (hp.gen ha.proved.done).1
  have hpos := (hI.done hst).2.nonempty
  have hseg : EnoughSegments .proverV2 c.world := by
    intro t ht hts
    rw [show t.totalSegments = _ from hI.results _ ht hts]
    exact hpos
  obtain ⟨ha, a, hroot, hreal, hpub⟩ :=
    h.published hfrom hwhole htarget hseg hsucc
  have hgen := ha.proved.done
  have hrow := hr.row hgen
  have hlisting := hI.listing hgen
  have hhonest : Honest c.world := by
    refine ⟨fun d hd => ?_, fun p hp => ?_⟩
    · have hbears := hI.results d hd
      cases d with
      | Split t => trivial
      | Prove t =>
          intro hts
          obtain ⟨segment, -, hout⟩ := hbears hts
          exact ⟨_, hout⟩
      | Agg t => exact hbears
      | Snark t => trivial
    · obtain ⟨i, hi, rfl⟩ := List.mem_mapIdx.mp (hlisting.mem_iff.mp hp)
      exact ⟨_, rfl⟩
  have htotal :
      c.world.stage.splitTask.totalSegments = (e.segments out).length := by
    obtain ⟨t, ht, hts, hsame⟩ := h.reported hst
    exact hsame.symm.trans (hI.results _ ht hts)
  refine ⟨a.output, hpub, ?_⟩
  rw [hroot.frontier h.shape h.credit hhonest hreal ha.aggs,
    hr.split h.shape hgen, List.flatMap_append]
  congr 1
  · have hnos := hrow.normal
    rw [List.filter_map, List.map_map, htotal] at hnos
    refine flatMap_of_numbers hnos fun t ht => ?_
    obtain ⟨hmem, hdef⟩ := List.mem_filter.mp ht
    exact hr.segment h.shape h.credit hI.results hgen hmem
      (by simpa using hdef) (ha.proved.all t hmem)
  · have hsorted := hrow.sorted
    rw [List.filter_map, List.pairwise_map] at hsorted
    have houtputs := map_snd_of_numbered
      (f := fun input => Receipt.leaf (.file input))
      ((hr.deferred hgen).trans hlisting) (List.pairwise_map.mpr hsorted)
    rw [List.map_map] at houtputs
    have hflat := congrArg (List.flatMap Receipt.frontier) houtputs
    rw [List.flatMap_map, List.flatMap_map] at hflat
    refine hflat.trans ?_
    rw [← List.flatMap_pure_eq_map]
    exact List.flatMap_congr fun input _ => Receipt.frontier_leaf _

end

/-! ## A segment and a deferred input -/

/-- One checkpoint, and an input behind it. -/
def oneInput : Execution Unit Unit Unit where
  checkpoints := [()]
  fresh := ()
  append _ _ := ()
  split _ _ := ([], ())
  deferredInputs _ := [[7]]

/-- The tree with that directory; other files are there and empty. -/
def Disk.ofDir (names : List String) (files : String → Option (List UInt8)) :
    Disk (Receipt Material) where
  read path :=
    match stripStart "/s/".toList path.toList with
    | some name =>
        (files (String.ofList name)).map fun bytes => .leaf (.file bytes)
    | none => some (.leaf (.file []))
  readToString _ := none
  readDir _ := some names
  existsPath _ := true

/-- A tree that is built from a directory finds it. -/
theorem Disk.ofDir_finds {names : List String}
    {files : String → Option (List UInt8)} (hnodup : names.Nodup)
    (hmem : ∀ name, name ∈ names ↔ files name ≠ none) :
    (Disk.ofDir names files).Finds "/s" files := by
  refine ⟨⟨names, rfl, hnodup, hmem⟩, fun name => ?_⟩
  have hstrip : stripStart "/s/".toList ("/s" ++ "/" ++ name).toList
      = some name.toList := by
    rw [stripStart_eq_some, String.toList_append]
    rfl
  simp only [Disk.ofDir, hstrip, String.ofList_toList]

/-- The segment and the deferred input as the split leaves them. -/
def inputFiles : String → Option (List UInt8) :=
  (putProofs segmentStore (indexed [[7]]).reverse).files

/-- The directory tree with these files. -/
def inputDisk : Disk (Receipt Material) := .ofDir (listingOf [[7]]) inputFiles

/-- A request whose segments are at `/s`. -/
def clusterRequest : GenerateTask (Receipt Material) :=
  { aggRequest with segPath := "/s" }

/-- The worker looks at that tree. -/
def inputDispatch : ClusterAct Unit := .worker (.dispatch inputDisk)

/-- Up to the result of the split. -/
def clusterSplit : List (ClusterAct Unit) :=
  [.worker (.dispatch (.ofDir [] fun _ => none)), .worker (.getSplit 1), .split,
    .thread .send, .thread (.recv ()), .thread (.waitForTurn ()),
    .thread (.number ()), .thread (.writeText () 0), .thread (.writeText () 0),
    .thread (.writeText () 0), .thread (.advanceTurn ()),
    .thread (.writeSegment () 0 0),
    .thread (.writeSegment () 0 0), .thread (.writeSegment () 0 0),
    .thread (.finish () [(0, [7])]), .thread (.exit ()),
    .worker (.onSplit 0 ⟨.Success, "a", 10, 1⟩ 2)]

/-- Up to the proof over both. -/
def clusterProve : List (ClusterAct Unit) :=
  [.worker (.getProve inputDisk 3), .read "/s/0" [1],
    .worker (.onProve 0 ⟨.Success, "a", .leaf (.root [1])⟩ 4),
    .worker (.getAgg 5), .worker (.getAgg 5),
    .worker (.onAgg 1 ⟨.Success, "b", .node [.leaf (.file [7])]⟩ 6 true),
    .worker (.onAgg 0 ⟨.Success, "a", .node [.leaf (.root [1])]⟩ 6 true),
    .worker (.getAgg 7),
    .worker (.onAgg 0 ⟨.Success, "a", .node [.node [.leaf (.root [1])],
      .node [.leaf (.file [7])]]⟩ 8 true)]

/-- The proof is published. -/
def clusterRun : List (ClusterAct Unit) :=
  (clusterSplit ++ inputDispatch :: clusterProve) ++ [inputDispatch]

/-- The cluster before its first step, the directory empty. -/
def clusterStart : Cluster Unit Unit Unit Unit :=
  .start clusterRequest none fun _ => none

/-- Each `dispatch` finds the directory. -/
def Cluster.Found (c : Cluster Unit σ ρ δ) (a : ClusterAct Unit) : Prop :=
  ∀ disk, a = .worker (.dispatch disk) → disk.Finds "/s" c.dir

/-- Every `dispatch` of the run finds the directory. -/
theorem clusterRun_found :
    Along (Cluster.step oneInput oneRecord) Cluster.Found clusterStart
      clusterRun := by
  have hsplit : (run (Cluster.step oneInput oneRecord) clusterStart
      clusterSplit).map Cluster.dir = some inputFiles := rfl
  have hprove : (run (Cluster.step oneInput oneRecord) clusterStart
      (clusterSplit ++ inputDispatch :: clusterProve)).map Cluster.dir
        = some inputFiles := rfl
  obtain ⟨c₁, h₁, hdir₁⟩ := Option.map_eq_some_iff.mp hsplit
  obtain ⟨c₂, h₂, hdir₂⟩ := Option.map_eq_some_iff.mp hprove
  have hinput : inputDisk.Finds "/s" inputFiles :=
    Disk.ofDir_finds (listingOf_nodup _) (mem_listingOf (by decide))
  have hother : ∀ {as : List (ClusterAct Unit)} (c : Cluster Unit Unit Unit Unit),
      (∀ disk, .worker (.dispatch disk) ∉ as) →
        Along (Cluster.step oneInput oneRecord) Cluster.Found c as := by
    intro as c has
    refine along_mem (fun a ha c disk hdisk => ?_) c
    exact absurd (hdisk ▸ ha) (has disk)
  refine (along_snoc h₂).mpr ⟨(along_append h₁).mpr
    ⟨⟨?_, fun c _ => hother c (by simp)⟩,
      ?_, fun c _ => hother c (by simp [clusterProve])⟩, ?_⟩
  · rintro disk ⟨⟩
    exact Disk.ofDir_finds List.nodup_nil fun name =>
      ⟨fun h => (nomatch h), fun h => absurd rfl h⟩
  · rintro disk ⟨⟩
    rw [hdir₁]
    exact hinput
  · rintro disk ⟨⟩
    rw [hdir₂]
    exact hinput

/-- What can be seen of the other steps. -/
def Cluster.sees (c : Cluster Unit σ ρ δ) : ClusterAct Unit → Bool
  | .worker (.dispatch _) => true
  | .worker (.onSplit i r _) =>
      c.world.splits[i]?.isSome && c.attempt.any fun x =>
        decide (x.base.generator = .ended) &&
          (match x.base.workers () with | .exited => true | _ => false) &&
            r.totalSegments == x.base.segmentIndex % 2 ^ 32
  | .worker (.onProve i r _) =>
      c.world.proves[i]?.all fun t => c.read.any fun p =>
        p.1 == t.segment && r.output == .leaf (.root p.2)
  | .worker (.onAgg i r _ _) =>
      c.world.aggs[i]?.all fun a =>
        r.output == .node (a.inputs.map (·.receiptInput))
  | .worker _ => true
  | .split => !c.world.splits.isEmpty
  | .thread _ => true
  | .lose _ => false
  | .read path bytes =>
      path == "/s/0" && c.dir "0" == some bytes

/-- A step that passes the check is one of an honest environment. -/
theorem Cluster.sees_obeys {e : Execution σ ρ δ} {out : Outside σ ρ}
    {c : Cluster Unit σ ρ δ} {a : ClusterAct Unit} (h : c.sees a = true)
    (hfound : c.Found a) :
    c.Obeys e out "/s" a := by
  cases a with
  | worker a =>
      cases a with
      | dispatch disk => exact hfound disk rfl
      | onSplit i r now =>
          obtain ⟨hsplit, hattempt⟩ := Bool.and_eq_true_iff.mp h
          refine ⟨Option.isSome_iff_ne_none.mp hsplit, fun _ => ?_⟩
          obtain ⟨x, hx, hret⟩ := Option.any_eq_true _ _ |>.mp hattempt
          simp only [Bool.and_eq_true, decide_eq_true_eq, beq_iff_eq] at hret
          obtain ⟨⟨hended, hexited⟩, htotal⟩ := hret
          refine ⟨x, hx, ⟨hended, fun _ => ?_⟩, htotal⟩
          split at hexited
          case h_1 hw => exact hw
          case h_2 => cases hexited
      | onProve i r now =>
          intro _ t ht
          have hread := h
          rw [Cluster.sees, ht, Option.all_some, List.any_eq_true] at hread
          obtain ⟨p, hp, hsame⟩ := hread
          simp only [Bool.and_eq_true, beq_iff_eq] at hsame
          exact ⟨p.2, hsame.1 ▸ hp, hsame.2⟩
      | onAgg i r now io =>
          intro _ a ha
          have hnode := h
          rw [Cluster.sees, ha, Option.all_some] at hnode
          exact beq_iff_eq.mp hnode
      | _ => trivial
  | split =>
      rintro hnone
      rw [Cluster.sees, hnone] at h
      cases h
  | thread a => trivial
  | lose files => cases h
  | read path bytes =>
      simp only [Cluster.sees, Bool.and_eq_true, beq_iff_eq] at h
      exact ⟨"0", h.1, h.2⟩

/-- One segment and one deferred input, proved and published. -/
theorem published_as_plain_one : ∃ c,
    run (Cluster.step oneInput oneRecord) clusterStart clusterRun = some c ∧
      ∃ proof, published c.world = some proof ∧
        proof.frontier = [.root [1], .file [7]] := by
  obtain ⟨c, hrun, hsucc⟩ := run_of_check (Cluster.step oneInput oneRecord)
    clusterStart clusterRun (fun c => c.world.stage.isSuccess = true)
    (by decide +kernel)
  have hsees : Along (Cluster.step oneInput oneRecord)
      (fun c a => c.sees a = true) clusterStart clusterRun := by decide +kernel
  obtain ⟨proof, hpub, hproof⟩ := published_as_plain oneInput oneRecord
    (fun _ => rfl) (fun t i h => (beq_iff_eq.mp h).ge) rfl (by decide)
    (by decide) (by decide) rfl rfl (Or.inl rfl)
    ⟨fun _ _ => by rintro ⟨⟩, fun _ _ h => absurd rfl h⟩
    (hsees.imp₂ (fun c a => Cluster.sees_obeys) clusterRun_found) hrun hsucc
  exact ⟨c, hrun, proof, hpub, hproof⟩

end ZkmProver
