import ZkmProver.PlanProofs
import ZkmProver.Scheduler

/-! # Moves — what one call of the scheduler can do

    Each call of `World.step` is a chain of `Moved` steps: a record of what
    changes, with the tests that were passed on the way and with every scan of
    a task list turned into a `Keyed.put`.  The invariants of the scheduler are
    proved move by move; this file has the moves and their first invariant,
    the shape of the tables. -/

namespace ZkmProver

open Forest Keyed Machine

variable {β : Type}

/-! ## Prove tasks appear -/

/-- Consecutive normal prove tasks, by first id and first file number. -/
inductive Grown [Blob β] (g : GenerateTask β) :
    Nat → Nat → List (ProveTask β) → Prop where
  | nil {uuid fileNo : Nat} : Grown g uuid fileNo []
  | cons {uuid fileNo : Nat} {new : List (ProveTask β)} (program : Program β) :
      Grown g (uuid + 1) (fileNo + 1) new →
      Grown g uuid fileNo (segTask g program uuid fileNo :: new)

/-- The normal prove tasks once the number of segments is known: cut to the
    total, or completed. -/
inductive Completed [Blob β] (s : Stage β) :
    List (ProveTask β) → Nat → Prop where
  | cut : s.splitTask.totalSegments < s.proveTasks.length →
      Completed s (s.proveTasks.take s.splitTask.totalSegments) s.uuid
  | extend (new : List (ProveTask β)) :
      s.proveTasks.length ≤ s.splitTask.totalSegments →
      s.proveTasks.length + new.length = s.splitTask.totalSegments →
      Grown s.generateTask s.uuid s.proveTasks.length new →
      Completed s (s.proveTasks ++ new) (s.uuid + new.length)

/-- The deferred prove tasks, from the id `uuid` on, for a listing. -/
structure Deferreds (feat : Feature) (uuid : Nat) (listing : List (Nat × β))
    (deferred : List (ProveTask β)) : Prop where
  ids    : deferred.map (·.taskId) = List.range' uuid deferred.length
  born   : ∀ t ∈ deferred, t.isDeferred = true ∧ t.state = .Success
  perm   : (deferred.map fun t => (t.fileNo, t.output)).Perm listing
  sorted : deferred.Pairwise fun t u => t.fileNo ≤ u.fileNo
  none   : feat = .prover → deferred = []

/-! ## Results arrive -/

/-- The agg tasks after a result for the producer `id`. -/
def clearOn (state : TaskState) (id : Nat) (as : List (AggTask β)) :
    List (AggTask β) :=
  if state = .Success then as.replaceF (AggTask.clearChildTask id) else as

/-- The agg tasks after the producers `ids` are cleared in turn. -/
def clearAll (ids : List Nat) (as : List (AggTask β)) : List (AggTask β) :=
  ids.foldl (fun as id => as.replaceF (AggTask.clearChildTask id)) as

/-- The returned copy as it is recorded: the result, and the copy otherwise. -/
structure Returned (r : Reply β) (c t : TaskHead β) : Prop where
  taskId : t.taskId = c.taskId
  state  : t.state = r.state
  output : t.output = r.output

/-- What a result does to the prove tasks, and whether it raises the error
    flag. -/
inductive ProveTaken (now : Nat) (t : ProveTask β) (ps : List (ProveTask β)) :
    List (ProveTask β) → Bool → Prop where
  | miss : (∀ x ∈ ps, x.taskId = t.taskId → x.state ≠ .Processing) →
      ProveTaken now t ps ps false
  | hit (x : ProveTask β) : x ∈ ps → x.taskId = t.taskId →
      x.state = .Processing →
      ProveTaken now t ps (put (fun x => x.taskId) (onProveTaskDst now t x) ps)
        (onProveTaskError t x)

/-- The stage's agg task after a result. -/
def onAggTaskDst (now : Nat) (t x : AggTask β) : AggTask β :=
  { x with toTaskHead := onTask now t.toTaskHead x.toTaskHead }

/-- The same for agg tasks. -/
inductive AggTaken (now : Nat) (t : AggTask β) (as : List (AggTask β)) :
    List (AggTask β) → Bool → Prop where
  | miss : (∀ x ∈ as, x.taskId = t.taskId → x.state ≠ .Processing) →
      AggTaken now t as as false
  | hit (x : AggTask β) : x ∈ as → x.taskId = t.taskId →
      x.state = .Processing →
      AggTaken now t as (put (fun x => x.taskId) (onAggTaskDst now t x) as)
        (t.state = .Failed)

/-! ## The step field -/

/-- All prove tasks are done and the graph is there. -/
structure Proved (s : Stage β) : Prop where
  done : s.isTasksGenDone = true
  all  : ∀ t ∈ s.proveTasks, t.state = .Success

/-- When `dispatch` changes the step alone, and to what. -/
inductive Steer (s : Stage β) : Step → Prop where
  | split : s.step = .Prove → s.splitTask.state = .Success →
      s.isTasksGenDone = false → s.generateTask.targetStep = .Split →
      Steer s .End
  | composite : s.step = .Prove → Proved s →
      s.generateTask.compositeProof = true → Steer s .End
  | agg : s.step = .Prove → Proved s → s.generateTask.compositeProof = false →
      (∀ a ∈ s.aggTasks, a.state = .Success) →
      s.generateTask.targetStep = .Agg → Steer s .End
  | snark : s.step = .Snark → s.snarkTask.state = .Success → Steer s .End

/-- When a snark task is made. -/
inductive SnarkDue (s : Stage β) : Prop where
  | fromAgg : s.step = .Agg → s.generateTask.fromStep = .Agg → SnarkDue s
  | fromProve : s.step = .Prove → Proved s →
      s.generateTask.compositeProof = false →
      (∀ a ∈ s.aggTasks, a.state = .Success) →
      s.generateTask.targetStep ≠ .Agg → SnarkDue s

/-- A new snark task. -/
structure SnarkNew (s : Stage β) (snark : SnarkTask β) : Prop where
  due     : SnarkDue s
  fresh   : s.snarkTask.state = .Initial
  state   : snark.state = .Unprocessed
  receipt : s.generateTask.fromStep = .Init →
    ∀ a, (s.aggTasks.filter fun a => a.isFinal).getLast? = some a →
      snark.aggReceipt = a.output

/-! ## Finalising -/

/-- The agg tasks of a finalised stage, before the catch-up. -/
inductive Graphed (feat : Feature) (composite : Bool)
    (ps : List (ProveTask β)) (u : Nat) :
    List (AggTask β) → Nat → Prop where
  | composite : composite = true → Graphed feat composite ps u [] u
  | planned (as : List (AggTask β)) (u' : Nat) : composite = false → u ≤ u' →
      Finished (ps.map (·.taskId)) u u' (as.map (·.item)) →
      (∀ a ∈ as, Planned ps a) →
      (feat = .proverV2 → ∀ a ∈ as, a.fromProve = false) →
      Graphed feat composite ps u as u'

/-- The move made once when the split is done. -/
inductive Finalised [Blob β] (feat : Feature) (s : Stage β) :
    Stage β → List (Nat × β) → Prop where
  | mk (normal deferred : List (ProveTask β)) (as : List (AggTask β))
      (u u' : Nat) (errmsg : String) (listing : List (Nat × β)) :
      s.step = .Prove → s.isTasksGenDone = false →
      s.splitTask.state = .Success → s.generateTask.targetStep ≠ .Split →
      Completed s normal u → Deferreds feat u listing deferred →
      Graphed feat s.generateTask.compositeProof (normal ++ deferred)
        (u + deferred.length) as u' →
      Finalised feat s
        { s with
          proveTasks := normal ++ deferred
          aggTasks := clearAll
            (((normal ++ deferred).filter fun t => t.state = .Success).map
              (·.taskId)) as
          isError := s.isError
            || decide (feat = .prover ∧ (normal ++ deferred).length < 2)
          errmsg := errmsg
          isTasksGenDone := true
          uuid := u' }
        listing

/-! ## Moves -/

/-- One move of the scheduler. -/
inductive Moved [Blob β] (feat : Feature) (w : World β) : World β → Prop where
  | start (split : SplitTask β) : w.stage.step = .Init →
      w.stage.splitTask.state = .Initial → split.state = .Unprocessed →
      Moved feat w
        { w with
          stage :=
            { w.stage with
              splitTask := split
              uuid := w.stage.uuid + 1
              step := .Prove } }
  | grow (new : List (ProveTask β)) : w.stage.step = .Prove →
      w.stage.isTasksGenDone = false →
      w.stage.generateTask.targetStep ≠ .Split →
      Grown w.stage.generateTask w.stage.uuid w.stage.proveTasks.length new →
      Moved feat w
        { w with
          stage :=
            { w.stage with
              proveTasks := w.stage.proveTasks ++ new
              uuid := w.stage.uuid + new.length } }
  | steer (step : Step) : Steer w.stage step →
      Moved feat w { w with stage := { w.stage with step := step } }
  | finalise (s : Stage β) (listing : List (Nat × β)) :
      Finalised feat w.stage s listing →
      Moved feat w { w with stage := s, listing := listing }
  | snarkNew (snark : SnarkTask β) : SnarkNew w.stage snark →
      Moved feat w
        { w with
          stage :=
            { w.stage with
              snarkTask := snark
              uuid := w.stage.uuid + 1
              step := .Snark } }
  | splitOut (now : Nat) (t : SplitTask β) :
      w.stage.splitTask.state.waiting = true →
      t = { w.stage.splitTask with
        toTaskHead := w.stage.splitTask.toTaskHead.handOut now } →
      Moved feat w
        { w with
          stage := { w.stage with splitTask := t }
          splits := w.splits ++ [t] }
  | splitIn (i : Nat) (c : SplitTask β) (r : SplitReply) (now : Nat) :
      w.splits[i]? = some c →
      Moved feat w
        { w with
          stage := (w.stage.onSplitTask now (r.split c)).1
          splits := w.splits.eraseIdx i
          delivered :=
            .Split (w.stage.onSplitTask now (r.split c)).2 :: w.delivered }
  | proveOut (now : Nat) (x t : ProveTask β) : x ∈ w.stage.proveTasks →
      x.state.waiting = true →
      t = { x with toTaskHead := x.toTaskHead.handOut now } →
      Moved feat w
        { w with
          stage :=
            { w.stage with
              proveTasks := put (fun x => x.taskId) t w.stage.proveTasks }
          proves := w.proves ++ [t] }
  | proveIn (i : Nat) (c t : ProveTask β) (r : Reply β) (now : Nat)
      (ps : List (ProveTask β)) (err : Bool) : w.proves[i]? = some c →
      ProveTaken now (r.prove c) w.stage.proveTasks ps err →
      t = { c with toTaskHead := t.toTaskHead } →
      Returned r c.toTaskHead t.toTaskHead →
      Moved feat w
        { w with
          stage :=
            { w.stage with
              proveTasks := ps
              aggTasks := clearOn r.state c.taskId w.stage.aggTasks
              isError := w.stage.isError || err }
          proves := w.proves.eraseIdx i
          delivered := .Prove t :: w.delivered }
  | aggOut (now : Nat) (x t : AggTask β) (inputs : List (AggregateInput β)) :
      x ∈ w.stage.aggTasks → (∀ c ∈ x.childs, c = none) →
      x.state.waiting = true →
      t = { x with toTaskHead := x.toTaskHead.handOut now } →
      w.stage.fillInputs x.inputs = some inputs →
      Moved feat w
        { w with
          stage :=
            { w.stage with
              aggTasks := put (fun x => x.taskId) t w.stage.aggTasks }
          aggs := w.aggs ++ [{ t with inputs := inputs }] }
  | aggIn (i : Nat) (c t : AggTask β) (r : Reply β) (now : Nat)
      (as : List (AggTask β)) (err : Bool) (file : Option β) :
      w.aggs[i]? = some c → AggTaken now (r.agg c) w.stage.aggTasks as err →
      t = { c with toTaskHead := t.toTaskHead } →
      Returned r c.toTaskHead t.toTaskHead →
      file = (if r.state = .Success ∧ c.isFinal = true ∧
        w.stage.generateTask.targetStep = .Agg then some r.output else none) →
      Moved feat w
        { w with
          stage :=
            { w.stage with
              aggTasks := clearOn r.state c.taskId as
              isError := w.stage.isError || err }
          aggs := w.aggs.eraseIdx i
          snarkFile := file.or w.snarkFile
          delivered := .Agg t :: w.delivered }
  | snarkOut (now : Nat) (t : SnarkTask β) :
      w.stage.snarkTask.state.waiting = true →
      t = { w.stage.snarkTask with
        toTaskHead := w.stage.snarkTask.toTaskHead.handOut now } →
      Moved feat w
        { w with
          stage := { w.stage with snarkTask := t }
          snarks := w.snarks ++ [t] }
  | snarkIn (i : Nat) (c t : SnarkTask β) (r : Reply β) (now : Nat) :
      w.snarks[i]? = some c → t = { c with toTaskHead := t.toTaskHead } →
      Returned r c.toTaskHead t.toTaskHead →
      Moved feat w
        { w with
          stage :=
            { w.stage with
              snarkTask :=
                { w.stage.snarkTask with
                  toTaskHead := onTask now (r.snark c).toTaskHead
                    w.stage.snarkTask.toTaskHead }
              isError := w.stage.isError || decide (r.state = .Failed) }
          snarks := w.snarks.eraseIdx i
          snarkFile := some r.output
          delivered := .Snark t :: w.delivered }

/-! ## The shape of the tables -/

/-- Ids are distinct and already drawn; before the split is done there are
    only normal prove tasks. -/
structure Shape (w : World β) : Prop where
  prove_nodup : (w.stage.proveTasks.map (·.taskId)).Nodup
  prove_lt    : ∀ t ∈ w.stage.proveTasks, t.taskId < w.stage.uuid
  agg_nodup   : (w.stage.aggTasks.map (·.taskId)).Nodup
  agg_lt      : ∀ a ∈ w.stage.aggTasks, a.taskId < w.stage.uuid
  proves_lt   : ∀ c ∈ w.proves, c.taskId < w.stage.uuid
  aggs_lt     : ∀ c ∈ w.aggs, c.taskId < w.stage.uuid
  early       : w.stage.isTasksGenDone = false →
    w.stage.aggTasks = [] ∧ ∀ t ∈ w.stage.proveTasks, t.isDeferred = false

section

variable [Blob β]

namespace Grown

variable {g : GenerateTask β} {uuid fileNo : Nat} {new : List (ProveTask β)}

/-- New tasks have the next ids. -/
theorem ids (h : Grown g uuid fileNo new) :
    new.map (·.taskId) = List.range' uuid new.length := by
  induction h with
  | nil => rfl
  | cons program _ ih =>
      rw [List.map_cons, ih, List.length_cons, List.range'_succ]
      rfl

/-- New tasks have the next files. -/
theorem fileNos (h : Grown g uuid fileNo new) :
    new.map (·.fileNo) = List.range' fileNo new.length := by
  induction h with
  | nil => rfl
  | cons program _ ih =>
      rw [List.map_cons, ih, List.length_cons, List.range'_succ]
      rfl

/-- A new task is one for a segment file. -/
theorem mem (h : Grown g uuid fileNo new) {t : ProveTask β} (ht : t ∈ new) :
    ∃ program id no, t = segTask g program id no := by
  induction h with
  | nil => exact nomatch ht
  | @cons uuid fileNo _ program _ ih =>
      rcases List.mem_cons.mp ht with rfl | ht
      · exact ⟨program, uuid, fileNo, rfl⟩
      · exact ih ht

end Grown

omit [Blob β] in
/-- Only a waiting task is cleared, and of one child. -/
theorem clearChildTask_eq_some {id : Nat} {a a' : AggTask β}
    (h : a.clearChildTask id = some a') :
    a.state = .Unprocessed ∧
      ∃ childs, clearChild id a.childs = some childs ∧
        a' = { a with childs := childs } := by
  rw [AggTask.clearChildTask] at h
  by_cases hst : a.state = .Unprocessed
  · rw [if_pos hst, Option.map_eq_some_iff] at h
    obtain ⟨childs, hc, rfl⟩ := h
    exact ⟨hst, childs, hc, rfl⟩
  · rw [if_neg hst] at h
    exact nomatch h

omit [Blob β] in
/-- Clearing children leaves everything else alone. -/
theorem map_clearAll {γ : Type} (f : AggTask β → γ)
    (hf : ∀ a childs, f { a with childs := childs } = f a) (ids : List Nat)
    (as : List (AggTask β)) : (clearAll ids as).map f = as.map f := by
  induction ids generalizing as with
  | nil => rfl
  | cons id ids ih =>
      rw [clearAll, List.foldl_cons]
      refine (ih _).trans (map_replaceF f ?_ as)
      intro a a' h
      obtain ⟨_, childs, _, rfl⟩ := clearChildTask_eq_some h
      exact hf a childs

omit [Blob β] in
@[simp] theorem clearOn_nil (state : TaskState) (id : Nat) :
    clearOn state id ([] : List (AggTask β)) = [] := by
  rw [clearOn]
  split <;> rfl

omit [Blob β] in
@[simp] theorem clearAll_nil (ids : List Nat) :
    clearAll ids ([] : List (AggTask β)) = [] :=
  List.map_eq_nil_iff.mp
    (map_clearAll (fun a => a.taskId) (fun _ _ => rfl) ids [])

omit [Blob β] in
/-- Clearing on a result is clearing its number when the result is a success,
    and nothing otherwise. -/
theorem clearOn_eq_clearAll (state : TaskState) (id : Nat)
    (as : List (AggTask β)) :
    clearOn state id as
      = clearAll (if state = .Success then [id] else []) as := by
  rw [clearOn]
  by_cases h : state = .Success
  · rw [if_pos h, if_pos h]
    rfl
  · rw [if_neg h, if_neg h]
    rfl

omit [Blob β] in
/-- A field that does not read `childs` is not touched by
    `clear_agg_child_task`. -/
theorem map_clearOn {γ : Type} (f : AggTask β → γ)
    (hf : ∀ a childs, f { a with childs := childs } = f a) (state : TaskState)
    (id : Nat) (as : List (AggTask β)) :
    (clearOn state id as).map f = as.map f := by
  rw [clearOn_eq_clearAll]
  exact map_clearAll f hf _ as

omit [Blob β] in
/-- A prove result changes no number. -/
theorem ProveTaken.ids {now : Nat} {t : ProveTask β} {ps ps' : List (ProveTask β)}
    {err : Bool} (h : ProveTaken now t ps ps' err) :
    ps'.map (·.taskId) = ps.map (·.taskId) := by
  cases h with
  | miss _ => rfl
  | hit x _ _ _ => exact map_key_put (fun x : ProveTask β => x.taskId) _ _

omit [Blob β] in
/-- An aggregation result changes no number. -/
theorem AggTaken.ids {now : Nat} {t : AggTask β} {as as' : List (AggTask β)}
    {err : Bool} (h : AggTaken now t as as' err) :
    as'.map (·.taskId) = as.map (·.taskId) := by
  cases h with
  | miss _ => rfl
  | hit x _ _ _ => exact map_key_put (fun x : AggTask β => x.taskId) _ _

/-- Ids of the completed list of normal tasks. -/
theorem Completed.ids {s : Stage β} {normal : List (ProveTask β)} {u : Nat}
    (h : Completed s normal u) (hnd : (s.proveTasks.map (·.taskId)).Nodup)
    (hlt : ∀ t ∈ s.proveTasks, t.taskId < s.uuid) :
    s.uuid ≤ u ∧ (normal.map (·.taskId)).Nodup ∧ ∀ t ∈ normal, t.taskId < u := by
  cases h with
  | cut _ =>
      refine ⟨Nat.le_refl _, ?_, fun t ht => hlt t (List.mem_of_mem_take ht)⟩
      exact ((List.take_sublist _ _).map _).nodup hnd
  | extend new _ _ hg =>
      exact ⟨Nat.le_add_right .., nodup_append_fresh hnd hlt hg.ids,
        lt_append_fresh hlt hg.ids⟩

omit [Blob β] in
/-- Ids of the agg tasks of a finalised stage. -/
theorem Graphed.ids {feat : Feature} {composite : Bool}
    {ps : List (ProveTask β)} {u u' : Nat} {as : List (AggTask β)}
    (h : Graphed feat composite ps u as u') (hlt : ∀ t ∈ ps, t.taskId < u) :
    u ≤ u' ∧ (as.map (·.taskId)).Nodup ∧ ∀ a ∈ as, a.taskId < u' := by
  cases h with
  | composite _ => exact ⟨Nat.le_refl _, List.nodup_nil, fun _ ha => nomatch ha⟩
  | planned _ _ _ hu hfin _ _ =>
      refine ⟨hu, ?_, ?_⟩
      · have hnd := hfin.plan.nodup
        rwa [List.map_map] at hnd
      · have hls : ∀ l ∈ ps.map (·.taskId), l < u := by
          intro l hl
          obtain ⟨t, ht, rfl⟩ := List.mem_map.mp hl
          exact hlt t ht
        exact fun a ha => hfin.plan.id_lt hls hu a.item (List.mem_map_of_mem ha)

/-- Moves keep the shape. -/
theorem Shape.moved {feat : Feature} {w w' : World β} (hs : Shape w)
    (h : Moved feat w w') : Shape w' := by
  obtain ⟨pnd, plt, and_, alt, cplt, calt, early⟩ := hs
  cases h with
  | start split _ _ _ =>
      refine ⟨pnd, ?_, and_, ?_, ?_, ?_, early⟩
      · exact fun t ht => Nat.lt_succ_of_lt (plt t ht)
      · exact fun a ha => Nat.lt_succ_of_lt (alt a ha)
      · exact fun c hc => Nat.lt_succ_of_lt (cplt c hc)
      · exact fun c hc => Nat.lt_succ_of_lt (calt c hc)
  | grow new _ hdone _ hg =>
      refine ⟨nodup_append_fresh pnd plt hg.ids, lt_append_fresh plt hg.ids,
        and_, ?_, ?_, ?_, ?_⟩
      · exact fun a ha => Nat.lt_add_right _ (alt a ha)
      · exact fun c hc => Nat.lt_add_right _ (cplt c hc)
      · exact fun c hc => Nat.lt_add_right _ (calt c hc)
      · intro hd
        refine ⟨(early hd).1, ?_⟩
        intro t ht
        rcases List.mem_append.mp ht with ht | ht
        · exact (early hd).2 t ht
        · obtain ⟨program, id, no, rfl⟩ := hg.mem ht
          rfl
  | steer step _ => exact ⟨pnd, plt, and_, alt, cplt, calt, early⟩
  | finalise s listing hf =>
      cases hf with
      | mk normal deferred as u u' errmsg listing _ _ _ _ hn hd hg =>
          obtain ⟨hu, nnd, nlt⟩ := hn.ids pnd plt
          have hpnd := nodup_append_fresh nnd nlt hd.ids
          have hplt := lt_append_fresh nlt hd.ids
          obtain ⟨hu', hand, halt⟩ := hg.ids hplt
          refine ⟨hpnd, ?_, ?_, ?_, ?_, ?_, fun hdone => nomatch hdone⟩
          · exact fun t ht => Nat.lt_of_lt_of_le (hplt t ht) hu'
          · rw [map_clearAll _ fun _ _ => rfl]
            exact hand
          · exact forall_key (P := fun k => k < u')
              (map_clearAll _ (fun _ _ => rfl) _ _) halt
          · intro c hc
            have := cplt c hc
            show c.taskId < u'
            omega
          · intro c hc
            have := calt c hc
            show c.taskId < u'
            omega
  | snarkNew snark _ =>
      refine ⟨pnd, ?_, and_, ?_, ?_, ?_, early⟩
      · exact fun t ht => Nat.lt_succ_of_lt (plt t ht)
      · exact fun a ha => Nat.lt_succ_of_lt (alt a ha)
      · exact fun c hc => Nat.lt_succ_of_lt (cplt c hc)
      · exact fun c hc => Nat.lt_succ_of_lt (calt c hc)
  | splitOut now t _ _ => exact ⟨pnd, plt, and_, alt, cplt, calt, early⟩
  | splitIn i c r now _ => exact ⟨pnd, plt, and_, alt, cplt, calt, early⟩
  | proveOut now x t hx _ ht =>
      have hkeys := map_key_put (fun x : ProveTask β => x.taskId) t
        w.stage.proveTasks
      have hlt := forall_key (P := (· < w.stage.uuid)) hkeys plt
      refine ⟨hkeys ▸ pnd, hlt, and_, alt, ?_, calt, ?_⟩
      · intro c hc
        rcases List.mem_append.mp hc with hc | hc
        · exact cplt c hc
        · rw [List.mem_singleton.mp hc, ht]
          exact plt x hx
      · intro hd
        refine ⟨(early hd).1, ?_⟩
        intro y hy
        rcases mem_put.mp hy with ⟨hy, _⟩ | ⟨rfl, _⟩
        · exact (early hd).2 y hy
        · rw [ht]
          exact (early hd).2 x hx
  | proveIn i c t r now ps err hc htaken _ _ =>
      have hkeys := htaken.ids
      have hclear := map_clearOn (fun a : AggTask β => a.taskId)
        (fun _ _ => rfl) r.state c.taskId w.stage.aggTasks
      have hlt := forall_key (P := (· < w.stage.uuid)) hkeys plt
      have hagg := forall_key (P := (· < w.stage.uuid)) hclear alt
      refine ⟨hkeys ▸ pnd, hlt, hclear ▸ and_, hagg, ?_, calt, ?_⟩
      · exact fun c hc => cplt c (List.mem_of_mem_eraseIdx hc)
      · intro hd
        obtain ⟨hnil, hdef⟩ := early hd
        refine ⟨?_, ?_⟩
        · show clearOn r.state c.taskId w.stage.aggTasks = []
          rw [hnil, clearOn_nil]
        · cases htaken with
          | miss _ => exact hdef
          | hit x hx _ _ =>
              intro y hy
              rcases mem_put.mp hy with ⟨hy, _⟩ | ⟨rfl, _⟩
              · exact hdef y hy
              · rw [(onProveTaskDst_fixed _ _ _).2.1]
                exact hdef x hx
  | aggOut now x t inputs hx _ _ ht _ =>
      have hkeys := map_key_put (fun x : AggTask β => x.taskId) t
        w.stage.aggTasks
      have hlt := forall_key (P := (· < w.stage.uuid)) hkeys alt
      refine ⟨pnd, plt, hkeys ▸ and_, hlt, cplt, ?_, ?_⟩
      · intro c hc
        rcases List.mem_append.mp hc with hc | hc
        · exact calt c hc
        · rw [List.mem_singleton.mp hc, ht]
          exact alt x hx
      · intro hd
        rw [(early hd).1] at hx
        exact nomatch hx
  | aggIn i c t r now as err file hc htaken _ _ _ =>
      have hkeys := (map_clearOn (fun a : AggTask β => a.taskId)
        (fun _ _ => rfl) r.state c.taskId as).trans htaken.ids
      have hlt := forall_key (P := (· < w.stage.uuid)) hkeys alt
      refine ⟨pnd, plt, hkeys ▸ and_, hlt, cplt, ?_, ?_⟩
      · exact fun c hc => calt c (List.mem_of_mem_eraseIdx hc)
      · intro hd
        refine ⟨?_, (early hd).2⟩
        show clearOn r.state c.taskId as = []
        rw [(early hd).1] at hkeys
        exact List.map_eq_nil_iff.mp hkeys
  | snarkOut now t _ _ => exact ⟨pnd, plt, and_, alt, cplt, calt, early⟩
  | snarkIn i c t r now _ _ _ => exact ⟨pnd, plt, and_, alt, cplt, calt, early⟩

end

end ZkmProver
