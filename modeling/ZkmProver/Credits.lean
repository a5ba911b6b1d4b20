import ZkmProver.Graph

/-! # Credits — the output of a finished task is the one result received for it

    A task in state SUCCESS keeps its state and its output (`Moved.kept`), so
    that what a parent was given stays what its producers hold.  `Credit` adds
    the record of deliveries: exactly one SUCCESS result was received for a
    finished task, none for an unfinished one, and the task has its output. -/

namespace ZkmProver

open Forest Keyed

variable {β : Type}

/-! ## Finished tasks stay as they are -/

/-- Finished prove tasks of `ps` are in `ps'` with the same output. -/
def ProvesKept (ps ps' : List (ProveTask β)) : Prop :=
  ∀ t ∈ ps, t.state = .Success → ∃ t' ∈ ps',
    t'.taskId = t.taskId ∧ t'.state = .Success ∧ t'.output = t.output

/-- The same for agg tasks. -/
def AggsKept (as as' : List (AggTask β)) : Prop :=
  ∀ a ∈ as, a.state = .Success → ∃ a' ∈ as',
    a'.taskId = a.taskId ∧ a'.state = .Success ∧ a'.output = a.output

/-- A prove task that has not succeeded may be put over. -/
theorem ProvesKept.put {ps : List (ProveTask β)} {x : ProveTask β}
    (hnd : (ps.map (·.taskId)).Nodup) (hx : x ∈ ps) {y : ProveTask β}
    (hkey : y.taskId = x.taskId) (hidle : x.state ≠ .Success) :
    ProvesKept ps (put (fun t => t.taskId) y ps) := by
  intro t ht hst
  refine ⟨t, (mem_put_of_mem hx hkey).mpr (Or.inr ⟨ht, ?_⟩), rfl, hst, rfl⟩
  intro hid
  rw [eq_of_key hnd ht hx hid] at hst
  exact hidle hst

/-- The same for an agg task. -/
theorem AggsKept.put {as : List (AggTask β)} {x : AggTask β}
    (hnd : (as.map (·.taskId)).Nodup) (hx : x ∈ as) {y : AggTask β}
    (hkey : y.taskId = x.taskId) (hidle : x.state ≠ .Success) :
    AggsKept as (put (fun a => a.taskId) y as) := by
  intro t ht hst
  refine ⟨t, (mem_put_of_mem hx hkey).mpr (Or.inr ⟨ht, ?_⟩), rfl, hst, rfl⟩
  intro hid
  rw [eq_of_key hnd ht hx hid] at hst
  exact hidle hst

/-- A child that is cleared changes no success. -/
theorem AggsKept.clearOn {as as' : List (AggTask β)} (h : AggsKept as as')
    (state : TaskState) (id : Nat) : AggsKept as (clearOn state id as') := by
  intro a ha hst
  obtain ⟨b, hb, h1, h2, h3⟩ := h a ha hst
  have hmap := map_clearOn (fun a : AggTask β => (a.taskId, a.state, a.output))
    (fun _ _ => rfl) state id as'
  obtain ⟨d, hd, hdb⟩ := exists_key hmap hb
  rw [Prod.mk.injEq, Prod.mk.injEq] at hdb
  exact ⟨d, hd, hdb.1.trans h1, hdb.2.1.trans h2, hdb.2.2.trans h3⟩

section

variable [Blob β] {feat : Feature} {w w' : World β}

omit [Blob β] in
/-- A result of a prove task keeps the others. -/
theorem ProveTaken.kept {now : Nat} {t : ProveTask β}
    {ps ps' : List (ProveTask β)} {err : Bool}
    (hnd : (ps.map (·.taskId)).Nodup) (h : ProveTaken now t ps ps' err) :
    ProvesKept ps ps' := by
  cases h with
  | miss _ => exact fun t ht hst => ⟨t, ht, rfl, hst, rfl⟩
  | hit x hx _ hst =>
      exact .put hnd hx (onProveTaskDst_taskId ..) (by rw [hst]; exact nofun)

omit [Blob β] in
/-- A result of an agg task keeps the others. -/
theorem AggTaken.kept {now : Nat} {t : AggTask β} {as as' : List (AggTask β)}
    {err : Bool} (hnd : (as.map (·.taskId)).Nodup)
    (h : AggTaken now t as as' err) : AggsKept as as' := by
  cases h with
  | miss _ => exact fun a ha hst => ⟨a, ha, rfl, hst, rfl⟩
  | hit x hx _ hst =>
      exact .put hnd hx (onTask_taskId ..) (by rw [hst]; exact nofun)

/-- **KEPT**: no move changes a finished task; only the truncation, before the
    graph exists, takes prove tasks away. -/
theorem Moved.kept (hs : Shape w) (hm : Moved feat w w') :
    (w.stage.isTasksGenDone = true →
      ProvesKept w.stage.proveTasks w'.stage.proveTasks) ∧
      AggsKept w.stage.aggTasks w'.stage.aggTasks := by
  have hp : ProvesKept w.stage.proveTasks w.stage.proveTasks :=
    fun t ht hst => ⟨t, ht, rfl, hst, rfl⟩
  have ha : AggsKept w.stage.aggTasks w.stage.aggTasks :=
    fun a ha hst => ⟨a, ha, rfl, hst, rfl⟩
  cases hm with
  | grow new _ hdone _ _ => exact ⟨fun hd => (nomatch hdone.symm.trans hd), ha⟩
  | finalise s listing hf =>
      cases hf with
      | mk _ _ _ _ _ _ _ _ hdone _ _ _ _ _ =>
          refine ⟨fun hd => (nomatch hdone.symm.trans hd), ?_⟩
          intro a hmem
          rw [(hs.early hdone).1] at hmem
          exact nomatch hmem
  | proveOut now x t hx hwait ht =>
      subst ht
      exact ⟨fun _ => .put hs.prove_nodup hx rfl (waiting_unfinished hwait), ha⟩
  | proveIn i c t r now ps err _ htaken _ _ =>
      exact ⟨fun _ => htaken.kept hs.prove_nodup, ha.clearOn _ _⟩
  | aggOut now x t inputs hx _ hwait ht _ =>
      subst ht
      exact ⟨fun _ => hp, .put hs.agg_nodup hx rfl (waiting_unfinished hwait)⟩
  | aggIn i c t r now as err file _ htaken _ _ _ =>
      exact ⟨fun _ => hp, (htaken.kept hs.agg_nodup).clearOn _ _⟩
  | _ => exact ⟨fun _ => hp, ha⟩

/-! ## What a parent is given -/

omit [Blob β] in
/-- A leaf is looked up among the prove tasks. -/
theorem findReceipt_leaf {s : Stage β} {i : AggregateInput β}
    (hnd : (s.proveTasks.map (·.taskId)).Nodup) {t : ProveTask β}
    (ht : t ∈ s.proveTasks) (hsrc : i.src = .leaf t.taskId) :
    s.findReceipt i = some t.output := by
  have hid : i.computedRequestId = t.taskId := by rw [← src_id, hsrc]; rfl
  cases hagg : i.isAgg with
  | true =>
      rw [AggregateInput.src, hagg] at hsrc
      cases hsrc
  | false =>
      rw [Stage.findReceipt, hagg, if_neg (by simp), hid, find?_of_mem hnd ht]
      rfl

omit [Blob β] in
/-- A node is looked up among the agg tasks. -/
theorem findReceipt_node {s : Stage β} {i : AggregateInput β}
    (hnd : (s.aggTasks.map (·.taskId)).Nodup) {a : AggTask β}
    (ha : a ∈ s.aggTasks) (hsrc : i.src = .node a.taskId) :
    s.findReceipt i = some a.output := by
  have hid : i.computedRequestId = a.taskId := by rw [← src_id, hsrc]; rfl
  cases hagg : i.isAgg with
  | false =>
      rw [AggregateInput.src, hagg] at hsrc
      cases hsrc
  | true =>
      rw [Stage.findReceipt, hagg, if_pos rfl, hid, find?_of_mem hnd ha]
      rfl

omit [Blob β] in
/-- The receipt of a finished producer is there. -/
theorem Done.receipt {s : Stage β} {i : AggregateInput β}
    (hp : (s.proveTasks.map (·.taskId)).Nodup)
    (ha : (s.aggTasks.map (·.taskId)).Nodup)
    (h : Done s.proveTasks s.aggTasks i.src) :
    (∃ t ∈ s.proveTasks, i.src = .leaf t.taskId ∧ t.state = .Success ∧
        s.findReceipt i = some t.output) ∨
      ∃ a ∈ s.aggTasks, i.src = .node a.taskId ∧ a.state = .Success ∧
        s.findReceipt i = some a.output := by
  cases hsrc : i.src with
  | leaf id =>
      rw [hsrc] at h
      obtain ⟨t, ht, rfl, hst⟩ := h
      exact Or.inl ⟨t, ht, rfl, hst, findReceipt_leaf hp ht hsrc⟩
  | node id =>
      rw [hsrc] at h
      obtain ⟨a, hmem, rfl, hst⟩ := h
      exact Or.inr ⟨a, hmem, rfl, hst, findReceipt_node ha hmem hsrc⟩

/-- The receipt of a finished producer does not change. -/
theorem Moved.findReceipt (hs : Shape w) (hm : Moved feat w w')
    {i : AggregateInput β} (hd : w.stage.isTasksGenDone = true)
    (h : Done w.stage.proveTasks w.stage.aggTasks i.src) :
    w'.stage.findReceipt i = w.stage.findReceipt i := by
  have hs' := hs.moved hm
  obtain ⟨hp, ha⟩ := hm.kept hs
  rcases h.receipt hs.prove_nodup hs.agg_nodup with
    ⟨t, ht, hsrc, hst, hrec⟩ | ⟨a, hmem, hsrc, hst, hrec⟩
  · obtain ⟨t', ht', hid, _, hout⟩ := hp hd t ht hst
    rw [hrec, findReceipt_leaf hs'.prove_nodup ht' (by rw [hsrc, hid]), hout]
  · obtain ⟨a', ha', hid, _, hout⟩ := ha a hmem hst
    rw [hrec, findReceipt_node hs'.agg_nodup ha' (by rw [hsrc, hid]), hout]

omit [Blob β] in
theorem fillInputs_congr_mem {s s' : Stage β} :
    ∀ {inputs : List (AggregateInput β)},
      (∀ i ∈ inputs, s'.findReceipt i = s.findReceipt i) →
      s'.fillInputs inputs = s.fillInputs inputs
  | [], _ => rfl
  | i :: inputs, h => by
      rw [Stage.fillInputs, Stage.fillInputs, h i (List.mem_cons_self ..),
        fillInputs_congr_mem fun j hj => h j (List.mem_cons_of_mem _ hj)]

/-- What a task without listed children is given does not change. -/
theorem Moved.fillInputs (hs : Shape w) (hg : Graph feat w)
    (hm : Moved feat w w') {a : AggTask β} (ha : a ∈ w.stage.aggTasks)
    (hnil : a.pending = []) :
    w'.stage.fillInputs a.inputs = w.stage.fillInputs a.inputs := by
  refine fillInputs_congr_mem ?_
  intro i hi
  have hd : w.stage.isTasksGenDone = true := by
    cases hd : w.stage.isTasksGenDone with
    | true => rfl
    | false =>
        rw [(hs.early hd).1] at ha
        exact nomatch ha
  refine hm.findReceipt hs hd (Classical.not_not.mp fun hnd => ?_)
  have hmem := (hg.listed.iff a ha i hi).mpr hnd
  rw [hnil] at hmem
  exact nomatch hmem

/-! ## The record of results -/

omit [Blob β] in
/-- The prove result in a delivery. -/
def Task.asProve : Task β → Option (ProveTask β)
  | .Prove t => some t
  | _ => none

omit [Blob β] in
/-- The agg result in a delivery. -/
def Task.asAgg : Task β → Option (AggTask β)
  | .Agg t => some t
  | _ => none

omit [Blob β] in
/-- The SUCCESS results received for the prove task `id`, latest first. -/
def provesOf (id : Nat) (ds : List (Task β)) : List (ProveTask β) :=
  (ds.filterMap Task.asProve).filter fun t =>
    t.taskId = id ∧ t.state = .Success

omit [Blob β] in
/-- The SUCCESS results received for the agg task `id`, latest first. -/
def aggsOf (id : Nat) (ds : List (Task β)) : List (AggTask β) :=
  (ds.filterMap Task.asAgg).filter fun t => t.taskId = id ∧ t.state = .Success

omit [Blob β] in
theorem provesOf_prove (id : Nat) (t : ProveTask β) (ds : List (Task β)) :
    provesOf id (.Prove t :: ds)
      = if t.taskId = id ∧ t.state = .Success then t :: provesOf id ds
        else provesOf id ds := by
  simp only [provesOf, List.filterMap_cons, Task.asProve, List.filter_cons,
    decide_eq_true_eq]

omit [Blob β] in
theorem aggsOf_agg (id : Nat) (t : AggTask β) (ds : List (Task β)) :
    aggsOf id (.Agg t :: ds)
      = if t.taskId = id ∧ t.state = .Success then t :: aggsOf id ds
        else aggsOf id ds := by
  simp only [aggsOf, List.filterMap_cons, Task.asAgg, List.filter_cons,
    decide_eq_true_eq]

omit [Blob β] in
/-- The accepted successes of a prove task. -/
theorem mem_provesOf {id : Nat} {t : ProveTask β} {ds : List (Task β)} :
    t ∈ provesOf id ds ↔
      Task.Prove t ∈ ds ∧ t.taskId = id ∧ t.state = .Success := by
  rw [provesOf, List.mem_filter, List.mem_filterMap, decide_eq_true_eq]
  refine and_congr_left fun _ => ⟨?_, fun h => ⟨_, h, rfl⟩⟩
  rintro ⟨d, hd, hdt⟩
  cases d with
  | Prove u => rwa [← Option.some.inj hdt]
  | Split u => exact nomatch hdt
  | Agg u => exact nomatch hdt
  | Snark u => exact nomatch hdt

omit [Blob β] in
/-- The accepted successes of an agg task. -/
theorem mem_aggsOf {id : Nat} {t : AggTask β} {ds : List (Task β)} :
    t ∈ aggsOf id ds ↔
      Task.Agg t ∈ ds ∧ t.taskId = id ∧ t.state = .Success := by
  rw [aggsOf, List.mem_filter, List.mem_filterMap, decide_eq_true_eq]
  refine and_congr_left fun _ => ⟨?_, fun h => ⟨_, h, rfl⟩⟩
  rintro ⟨d, hd, hdt⟩
  cases d with
  | Agg u => rwa [← Option.some.inj hdt]
  | Split u => exact nomatch hdt
  | Prove u => exact nomatch hdt
  | Snark u => exact nomatch hdt

/-- One result for each finished task, none for an unfinished one; ids of
    results have been drawn. -/
structure Credit (w : World β) : Prop where
  prove : ∀ t ∈ w.stage.proveTasks, t.isDeferred = false →
    (provesOf t.taskId w.delivered).map (·.output)
      = if t.state = .Success then [t.output] else []
  agg : ∀ a ∈ w.stage.aggTasks, a.fromProve = false →
    (aggsOf a.taskId w.delivered).map (fun p => (p.output, some p.inputs))
      = if a.state = .Success
        then [(a.output, w.stage.fillInputs a.inputs)] else []
  prove_lt : ∀ t, Task.Prove t ∈ w.delivered → t.taskId < w.stage.uuid
  agg_lt : ∀ a, Task.Agg a ∈ w.delivered → a.taskId < w.stage.uuid
  copy : ∀ c ∈ w.aggs, ∀ a ∈ w.stage.aggTasks, a.taskId = c.taskId →
    c.isFinal = a.isFinal ∧ w.stage.fillInputs a.inputs = some c.inputs

/-- A new stage owes nothing. -/
theorem Credit.start (g : GenerateTask β) (file : Option β) :
    Credit (World.start g file) := by
  refine ⟨?_, ?_, ?_, ?_, ?_⟩
  all_goals intro t ht; exact nomatch ht

omit [Blob β] in
/-- A task made later has no result yet. -/
theorem Credit.provesOf_new (h : Credit w) {id : Nat}
    (hid : w.stage.uuid ≤ id) : provesOf id w.delivered = [] := by
  refine List.eq_nil_iff_forall_not_mem.mpr fun t ht => ?_
  obtain ⟨hmem, rfl, _⟩ := mem_provesOf.mp ht
  have := h.prove_lt t hmem
  omega

omit [Blob β] in
/-- A task that is yet to be made has no success. -/
theorem Credit.aggsOf_new (h : Credit w) {id : Nat}
    (hid : w.stage.uuid ≤ id) : aggsOf id w.delivered = [] := by
  refine List.eq_nil_iff_forall_not_mem.mpr fun t ht => ?_
  obtain ⟨hmem, rfl, _⟩ := mem_aggsOf.mp ht
  have := h.agg_lt t hmem
  omega

omit [Blob β] in
/-- An unfinished prove task has no SUCCESS result. -/
theorem Credit.provesOf_idle (h : Credit w) {t : ProveTask β}
    (ht : t ∈ w.stage.proveTasks) (hdef : t.isDeferred = false)
    (hidle : t.state ≠ .Success) : provesOf t.taskId w.delivered = [] := by
  have heq := h.prove t ht hdef
  rw [if_neg hidle, List.map_eq_nil_iff] at heq
  exact heq

omit [Blob β] in
/-- A task that has not succeeded has none either. -/
theorem Credit.aggsOf_idle (h : Credit w) {a : AggTask β}
    (ha : a ∈ w.stage.aggTasks) (hreal : a.fromProve = false)
    (hidle : a.state ≠ .Success) : aggsOf a.taskId w.delivered = [] := by
  have heq := h.agg a ha hreal
  rw [if_neg hidle, List.map_eq_nil_iff] at heq
  exact heq

omit [Blob β] in
/-- A task that is not waiting has no child listed. -/
theorem Graph.pending_nil (h : Graph feat w) {a : AggTask β}
    (ha : a ∈ w.stage.aggTasks) (hst : a.state ≠ .Unprocessed) :
    a.pending = [] :=
  List.eq_nil_iff_forall_not_mem.mpr fun c hc =>
    hst (h.listed.waits a ha c hc)

/-- Every prove task has the one output that was accepted for it. -/
theorem Credit.moved_prove (hl : Leases w) (h : Credit w)
    (hm : Moved feat w w') :
    ∀ t ∈ w'.stage.proveTasks, t.isDeferred = false →
      (provesOf t.taskId w'.delivered).map (·.output)
        = if t.state = .Success then [t.output] else [] := by
  have hnew : ∀ t, Newborn w.stage.uuid t → t.isDeferred = false →
      (provesOf t.taskId w.delivered).map (·.output)
        = if t.state = .Success then [t.output] else [] := by
    intro t ht hdef
    cases ht with
    | normal hid _ hst => rw [h.provesOf_new hid, hst]; rfl
    | deferred _ hd _ => exact nomatch hdef.symm.trans hd
  cases hm with
  | grow new _ _ _ hgr =>
      intro t ht hdef
      rcases List.mem_append.mp ht with ht | ht
      · exact h.prove t ht hdef
      · exact hnew t (hgr.newborn t ht) hdef
  | finalise s listing hf =>
      intro t ht hdef
      rcases hf.mem_prove t ht with ht | ht
      · exact h.prove t ht hdef
      · exact hnew t ht hdef
  | proveOut now x t hx hwait ht =>
      intro y hy hdef
      rcases mem_put.mp hy with ⟨hy, _⟩ | ⟨rfl, _⟩
      · exact h.prove y hy hdef
      · rw [ht] at hdef ⊢
        show (provesOf x.taskId w.delivered).map _ = _
        rw [h.provesOf_idle hx hdef (waiting_unfinished hwait)]
        rfl
  | proveIn i c t r now ps err hc htaken _ hback =>
      have hcm := List.mem_of_getElem? hc
      intro y hy hdef
      -- results for other ids are untouched
      have hother : y ∈ w.stage.proveTasks → y.taskId ≠ c.taskId →
          (provesOf y.taskId (.Prove t :: w.delivered)).map (·.output)
            = if y.state = .Success then [y.output] else [] := by
        intro hymem hne
        rw [provesOf_prove, if_neg]
        · exact h.prove y hymem hdef
        · rintro ⟨hid, _⟩
          exact hne (hid.symm.trans hback.taskId)
      cases htaken with
      | miss hmiss =>
          refine hother hy fun hid => ?_
          exact hmiss y hy hid (hl.prove.busy c hcm y hy hid)
      | hit x hx hid hst =>
          have hkey : (onProveTaskDst now (r.prove c) x).taskId = x.taskId :=
            onProveTaskDst_taskId ..
          have hid' : x.taskId = c.taskId := hid
          rcases (mem_put_of_mem hx hkey).mp hy with rfl | ⟨hymem, hne⟩
          · rw [(onProveTaskDst_fixed _ _ _).2.1] at hdef
            rw [hkey, provesOf_prove, hback.taskId, hback.state,
              h.provesOf_idle hx hdef (by rw [hst]; exact nofun),
              onProveTaskDst_state, onProveTaskDst_output, hst]
            show (if c.taskId = x.taskId ∧ r.state = .Success then [t] else []).map
                (·.output)
              = if (if r.state.settled = true then r.state else .Processing)
                  = .Success
                then [if r.state = .Success ∨ r.state = .Failed then r.output
                  else x.output] else []
            cases hr : r.state <;>
              simp [TaskState.settled, hid', hback.output]
          · exact hother hymem fun hk => hne (hk.trans hid'.symm)
  | splitIn i c r now _ => exact h.prove
  | aggIn i c t r now as err file _ _ _ _ _ => exact h.prove
  | snarkIn i c t r now _ _ _ => exact h.prove
  | _ => exact h.prove

/-- Ids are drawn upwards. -/
theorem Moved.uuid_le (hs : Shape w) (hm : Moved feat w w') :
    w.stage.uuid ≤ w'.stage.uuid := by
  cases hm with
  | start split _ _ _ => exact Nat.le_succ _
  | grow new _ _ _ _ => exact Nat.le_add_right ..
  | finalise s listing hf =>
      cases hf with
      | mk normal deferred as u u' errmsg listing _ _ _ _ hn hd hg =>
          obtain ⟨hu, _, hlt⟩ := hn.ids hs.prove_nodup hs.prove_lt
          have hu' := (hg.ids (lt_append_fresh hlt hd.ids)).1
          show w.stage.uuid ≤ u'
          omega
  | snarkNew snark _ => exact Nat.le_succ _
  | _ => exact Nat.le_refl _

/-- The agg tasks after a move: old ones, or the waiting ones of a new graph
    with ids drawn now. -/
theorem Finalised.agg_new (hs : Shape w) {s : Stage β}
    {listing : List (Nat × β)} (hf : Finalised feat w.stage s listing) :
    ∀ a ∈ s.aggTasks, a.fromProve = false →
      w.stage.uuid ≤ a.taskId ∧ a.state = .Unprocessed := by
  intro a ha hreal
  have hst := hf.mem_agg a ha
  rw [hreal] at hst
  refine ⟨?_, hst⟩
  cases hf with
  | mk normal deferred as u u' errmsg listing _ _ _ _ hn hd hg =>
      obtain ⟨hu, _, _⟩ := hn.ids hs.prove_nodup hs.prove_lt
      obtain ⟨b, hb, _, rfl⟩ := mem_clearAll ha
      cases hg with
      | composite _ => exact nomatch hb
      | planned _ _ _ _ hfin _ _ =>
          have hrange := (hfin.plan.range b.item (List.mem_map_of_mem hb) hreal).1
          have hle : u + deferred.length ≤ b.taskId := hrange
          show w.stage.uuid ≤ b.taskId
          omega

omit [Blob β] in
/-- The record of a task whose result is taken. -/
theorem aggsOf_hit {now : Nat} {c t x : AggTask β} {r : Reply β}
    {ds : List (Task β)} {childs : List (Option Nat)}
    {filled : Option (List (AggregateInput β))}
    (hback : Returned r c.toTaskHead t.toTaskHead) (hid : x.taskId = c.taskId)
    (hst : x.state = .Processing) (hnil : aggsOf x.taskId ds = [])
    (hfill : filled = some t.inputs) :
    (aggsOf (onAggTaskDst now (r.agg c) x).taskId (.Agg t :: ds)).map
        (fun p => (p.output, some p.inputs))
      = if ({ onAggTaskDst now (r.agg c) x with childs := childs }
            : AggTask β).state = .Success
        then [((onAggTaskDst now (r.agg c) x).output, filled)] else [] := by
  have hkey : (onAggTaskDst now (r.agg c) x).taskId = x.taskId :=
    onTask_taskId ..
  have hstate : (onAggTaskDst now (r.agg c) x).state
      = if r.state.settled then r.state else .Processing :=
    (onTask_state ..).trans (by rw [hst]; rfl)
  have hout : (onAggTaskDst now (r.agg c) x).output
      = if r.state = .Success ∨ r.state = .Failed then r.output else x.output :=
    onTask_output ..
  show _ = if (onAggTaskDst now (r.agg c) x).state = .Success then _ else _
  rw [hkey, aggsOf_agg, hback.taskId, hback.state, hnil, hstate, hout, hfill]
  cases hr : r.state <;> simp [TaskState.settled, hid, hback.output]

/-- Every agg task has the one that was accepted, made of its inputs. -/
theorem Credit.moved_agg (hs : Shape w) (hl : Leases w) (hg : Graph feat w)
    (h : Credit w) (hm : Moved feat w w') :
    ∀ a ∈ w'.stage.aggTasks, a.fromProve = false →
      (aggsOf a.taskId w'.delivered).map (fun p => (p.output, some p.inputs))
        = if a.state = .Success
          then [(a.output, w'.stage.fillInputs a.inputs)] else [] := by
  -- what a finished task was given does not change
  have hold : ∀ a ∈ w.stage.aggTasks, a.fromProve = false →
      (aggsOf a.taskId w.delivered).map (fun p => (p.output, some p.inputs))
        = if a.state = .Success
          then [(a.output, w'.stage.fillInputs a.inputs)] else [] := by
    intro a ha hreal
    rw [h.agg a ha hreal]
    by_cases hst : a.state = .Success
    · have hnil := hg.pending_nil ha (by rw [hst]; exact nofun)
      rw [if_pos hst, if_pos hst, hm.fillInputs hs hg ha hnil]
    · rw [if_neg hst, if_neg hst]
  have hm' := hm
  cases hm with
  | finalise s listing hf =>
      intro a ha hreal
      obtain ⟨hid, hst⟩ := hf.agg_new hs a ha hreal
      rw [hst]
      show (aggsOf a.taskId w.delivered).map _ = _
      rw [h.aggsOf_new hid]
      rfl
  | proveIn i c t r now ps err hc htaken _ _ =>
      intro a ha hreal
      obtain ⟨b, hb, _, rfl⟩ := mem_clearOn ha
      exact hold b hb hreal
  | aggOut now x t inputs hx _ hwait ht _ =>
      intro a ha hreal
      have hkey : t.taskId = x.taskId := by rw [ht]; rfl
      rcases (mem_put_of_mem hx hkey).mp ha with rfl | ⟨ha, _⟩
      · have hst : a.state = .Processing := by rw [ht]; rfl
        have hreal' : x.fromProve = false := by rw [ht] at hreal; exact hreal
        rw [hst, hkey]
        show (aggsOf x.taskId w.delivered).map _ = _
        rw [h.aggsOf_idle hx hreal' (waiting_unfinished hwait)]
        rfl
      · exact hold a ha hreal
  | aggIn i c t r now as err file hc htaken hct hback _ =>
      have hcm := List.mem_of_getElem? hc
      intro a ha hreal
      obtain ⟨b, hb, childs, rfl⟩ := mem_clearOn ha
      -- results for other ids are untouched
      have hother : b ∈ w.stage.aggTasks → b.taskId ≠ c.taskId →
          aggsOf b.taskId (.Agg t :: w.delivered)
            = aggsOf b.taskId w.delivered := by
        intro _ hne
        rw [aggsOf_agg, if_neg]
        rintro ⟨hid, _⟩
        exact hne (hid.symm.trans hback.taskId)
      cases htaken with
      | miss hmiss =>
          show (aggsOf b.taskId (.Agg t :: w.delivered)).map _ = _
          rw [hother hb fun hid => hmiss b hb hid (hl.agg.busy c hcm b hb hid)]
          exact hold b hb hreal
      | hit x hx hid hst =>
          have hkey : (onAggTaskDst now (r.agg c) x).taskId = x.taskId :=
            onTask_taskId ..
          have hid' : x.taskId = c.taskId := hid
          rcases (mem_put_of_mem hx hkey).mp hb with rfl | ⟨hbm, hne⟩
          · have hnil := hg.pending_nil hx (by rw [hst]; exact nofun)
            have hfill := hm'.fillInputs hs hg hx hnil
            have hin : w.stage.fillInputs x.inputs = some t.inputs := by
              rw [(h.copy c hcm x hx hid').2, hct]
            rw [hin] at hfill
            exact aggsOf_hit hback hid' hst
              (h.aggsOf_idle hx hreal (by rw [hst]; exact nofun)) hfill
          · show (aggsOf b.taskId (.Agg t :: w.delivered)).map _ = _
            rw [hother hbm fun hk => hne (hk.trans hid'.symm)]
            exact hold b hbm hreal
  | splitIn i c r now _ => exact hold
  | snarkIn i c t r now _ _ _ => exact hold
  | _ => exact hold

/-- Accepted results are of tasks that have been made. -/
theorem Credit.moved_lt (hs : Shape w) (h : Credit w) (hm : Moved feat w w') :
    (∀ t, Task.Prove t ∈ w'.delivered → t.taskId < w'.stage.uuid) ∧
      ∀ a, Task.Agg a ∈ w'.delivered → a.taskId < w'.stage.uuid := by
  have hle := hm.uuid_le hs
  have hp : ∀ t, Task.Prove t ∈ w.delivered → t.taskId < w'.stage.uuid :=
    fun t ht => Nat.lt_of_lt_of_le (h.prove_lt t ht) hle
  have ha : ∀ a, Task.Agg a ∈ w.delivered → a.taskId < w'.stage.uuid :=
    fun a ha => Nat.lt_of_lt_of_le (h.agg_lt a ha) hle
  cases hm with
  | splitIn i c r now _ =>
      constructor
      · intro t ht
        rcases List.mem_cons.mp ht with ht | ht
        · exact nomatch ht
        · exact hp t ht
      · intro a hmem
        rcases List.mem_cons.mp hmem with hmem | hmem
        · exact nomatch hmem
        · exact ha a hmem
  | proveIn i c t r now ps err hc _ _ hback =>
      constructor
      · intro t' ht
        rcases List.mem_cons.mp ht with ht | ht
        · cases ht
          rw [hback.taskId]
          exact hs.proves_lt c (List.mem_of_getElem? hc)
        · exact hp t' ht
      · intro a hmem
        rcases List.mem_cons.mp hmem with hmem | hmem
        · exact nomatch hmem
        · exact ha a hmem
  | aggIn i c t r now as err file hc _ _ hback _ =>
      constructor
      · intro t' ht
        rcases List.mem_cons.mp ht with ht | ht
        · exact nomatch ht
        · exact hp t' ht
      · intro a hmem
        rcases List.mem_cons.mp hmem with hmem | hmem
        · cases hmem
          rw [hback.taskId]
          exact hs.aggs_lt c (List.mem_of_getElem? hc)
        · exact ha a hmem
  | snarkIn i c t r now _ _ _ =>
      constructor
      · intro t' ht
        rcases List.mem_cons.mp ht with ht | ht
        · exact nomatch ht
        · exact hp t' ht
      · intro a hmem
        rcases List.mem_cons.mp hmem with hmem | hmem
        · exact nomatch hmem
        · exact ha a hmem
  | _ => exact ⟨hp, ha⟩

/-- The copies out have the inputs that the plan gives them. -/
theorem Credit.moved_copy (hs : Shape w) (hl : Leases w) (hg : Graph feat w)
    (h : Credit w) (hm : Moved feat w w') :
    ∀ c ∈ w'.aggs, ∀ a ∈ w'.stage.aggTasks, a.taskId = c.taskId →
      c.isFinal = a.isFinal ∧
        w'.stage.fillInputs a.inputs = some c.inputs := by
  -- the inputs of a task in somebody's hands do not change
  have hold : ∀ c ∈ w.aggs, ∀ a ∈ w.stage.aggTasks, a.taskId = c.taskId →
      c.isFinal = a.isFinal ∧
        w'.stage.fillInputs a.inputs = some c.inputs := by
    intro c hc a ha hid
    obtain ⟨hfin, hin⟩ := h.copy c hc a ha hid
    have hnil := hg.pending_nil ha
      (by rw [hl.agg.busy c hc a ha hid]; exact nofun)
    exact ⟨hfin, (hm.fillInputs hs hg ha hnil).trans hin⟩
  have hm' := hm
  cases hm with
  | finalise s listing hf =>
      intro c hc a ha hid
      obtain ⟨b, hb, _⟩ := hl.known c hc
      cases hf with
      | mk _ _ _ _ _ _ _ _ hdone _ _ _ _ _ =>
          rw [(hs.early hdone).1] at hb
          exact nomatch hb
  | proveIn i c t r now ps err _ htaken _ _ =>
      intro d hd a ha hid
      obtain ⟨b, hb, _, rfl⟩ := mem_clearOn ha
      exact hold d hd b hb hid
  | aggOut now x t inputs hx hnone hwait ht hin =>
      have hkey : t.taskId = x.taskId := by rw [ht]; rfl
      have hnil : x.pending = [] := by
        refine List.eq_nil_iff_forall_not_mem.mpr fun c hc => ?_
        exact nomatch hnone (some c) (mem_pending.mp hc)
      intro d hd a ha hid
      rcases List.mem_append.mp hd with hold' | hnew
      · rcases (mem_put_of_mem hx hkey).mp ha with rfl | ⟨ha, _⟩
        · have hbusy := hl.agg.busy d hold' x hx (hkey.symm.trans hid)
          exact absurd hbusy (waiting_idle hwait)
        · exact hold d hold' a ha hid
      · rw [List.mem_singleton.mp hnew] at hid ⊢
        rcases (mem_put_of_mem hx hkey).mp ha with rfl | ⟨_, hne⟩
        · refine ⟨rfl, ?_⟩
          have hinputs : a.inputs = x.inputs := by rw [ht]
          rw [hinputs, hm'.fillInputs hs hg hx hnil, hin]
        · exact absurd (hid.trans hkey) hne
  | aggIn i c t r now as err file hc htaken _ hback _ =>
      intro d hd a ha hid
      have hdm := List.mem_of_mem_eraseIdx hd
      obtain ⟨b, hb, _, rfl⟩ := mem_clearOn ha
      cases htaken with
      | miss _ => exact hold d hdm b hb hid
      | hit x hx hxid _ =>
          rcases mem_put.mp hb with ⟨hb, _⟩ | ⟨rfl, _⟩
          · exact hold d hdm b hb hid
          · exact hold d hdm x hx ((onTask_taskId ..).symm.trans hid)
  | splitIn i c r now _ => exact hold
  | snarkIn i c t r now _ _ _ => exact hold
  | _ => exact hold

/-- A move of the scheduler keeps the credit. -/
theorem Credit.moved (hs : Shape w) (hl : Leases w) (hg : Graph feat w)
    (h : Credit w) (hm : Moved feat w w') : Credit w' :=
  ⟨h.moved_prove hl hm, h.moved_agg hs hl hg hm, (h.moved_lt hs hm).1,
    (h.moved_lt hs hm).2, h.moved_copy hs hl hg hm⟩

/-- **CREDIT**: every reachable world has one result for each finished task. -/
theorem Reachable.credit {g : GenerateTask β} (h : Reachable feat g w) :
    Credit w := by
  have hall : Leases w ∧ Graph feat w ∧ Credit w :=
    h.inv (I := fun w => Leases w ∧ Graph feat w ∧ Credit w)
      (fun file => ⟨Leases.start g file, Graph.start g file,
        Credit.start g file⟩)
      fun _ _ hs hi hm => ⟨hi.1.moved hs hm, hi.2.1.moved hs hi.1 hm,
        hi.2.2.moved hs hi.1 hi.2.1 hm⟩
  exact hall.2.2

/-! ## The split task and the snark task -/

omit [Blob β] in
/-- The split result in a delivery. -/
def Task.asSplit : Task β → Option (TaskHead β)
  | .Split t => some t.toTaskHead
  | _ => none

omit [Blob β] in
/-- The snark result in a delivery. -/
def Task.asSnark : Task β → Option (TaskHead β)
  | .Snark t => some t.toTaskHead
  | _ => none

omit [Blob β] in
/-- The SUCCESS results for the task `id` among some results. -/
def successes (id : Nat) (results : List (TaskHead β)) : List (TaskHead β) :=
  results.filter fun t => t.taskId = id ∧ t.state = .Success

/-- A task that is made once, its copies in flight and the results so far. -/
structure Sole (t : TaskHead β) (out results : List (TaskHead β)) : Prop where
  own   : ∀ c ∈ out, c.taskId = t.taskId ∧ t.state = .Processing
  once  : (successes t.taskId results).map (·.output)
    = if t.state = .Success then [t.output] else []
  fresh : t.state = .Initial → results = []

namespace Sole

variable {t t' c : TaskHead β} {out results : List (TaskHead β)}

omit [Blob β] in
/-- A task that has just been made has no copy and no result. -/
theorem made (h : Sole t out results) (hst : t.state = .Initial)
    (hst' : t'.state = .Unprocessed) : Sole t' out results := by
  refine ⟨?_, ?_, ?_⟩
  · intro c hc
    exact nomatch hst.symm.trans (h.own c hc).2
  · rw [h.fresh hst, hst']
    rfl
  · intro h'
    exact nomatch hst'.symm.trans h'

omit [Blob β] in
/-- A task that waits is handed out once. -/
theorem handOut (h : Sole t out results) (now : Nat)
    (hwait : t.state.waiting = true) :
    Sole (t.handOut now) (out ++ [t.handOut now]) results := by
  refine ⟨?_, ?_, ?_⟩
  · intro c hc
    rcases List.mem_append.mp hc with hc | hc
    · exact ⟨(h.own c hc).1, rfl⟩
    · rw [List.mem_singleton.mp hc]
      exact ⟨rfl, rfl⟩
  · show (successes t.taskId results).map (·.output) = []
    rw [h.once, if_neg (waiting_unfinished hwait)]
  · exact fun hst => nomatch hst

omit [Blob β] in
/-- The only copy comes back as `c`, and the result is recorded as `d`. -/
theorem takeBack (h : Sole t out results) {x d : TaskHead β} (hx : x ∈ out)
    (now : Nat) (hid : d.taskId = x.taskId) (hst : d.state = c.state)
    (hout : d.output = c.output) :
    Sole (onTask now c t) [] (d :: results) := by
  obtain ⟨hown, hbusy⟩ := h.own x hx
  have hnone := h.once
  rw [hbusy, if_neg nofun, List.map_eq_nil_iff] at hnone
  refine ⟨?_, ?_, ?_⟩
  · exact fun _ hc => nomatch hc
  · rw [successes] at hnone
    rw [onTask_taskId, onTask_state, onTask_output, hbusy, successes,
      List.filter_cons, hnone, hid, hown, hst]
    cases hc : c.state <;> simp [TaskState.settled, hout]
  · intro hini
    rw [onTask_state, hbusy] at hini
    cases hc : c.state <;> simp [hc, TaskState.settled] at hini

end Sole

/-- The split task and the snark task of a world. -/
structure Soles (w : World β) : Prop where
  split : Sole w.stage.splitTask.toTaskHead (w.splits.map (·.toTaskHead))
    (w.delivered.filterMap Task.asSplit)
  snark : Sole w.stage.snarkTask.toTaskHead (w.snarks.map (·.toTaskHead))
    (w.delivered.filterMap Task.asSnark)

/-- There is no split and no snark task to begin with. -/
theorem Soles.start (g : GenerateTask β) (file : Option β) :
    Soles (World.start g file) := by
  refine ⟨⟨?_, rfl, fun _ => rfl⟩, ⟨?_, rfl, fun _ => rfl⟩⟩
  all_goals intro c hc; exact nomatch hc

omit [Blob β] in
/-- The only copy of a table with one entry. -/
theorem lease_last {α : Type} {x : α} {busy : α → Prop} {out : List α}
    (h : Keyed.Lease (fun _ => ()) busy [x] out) {i : Nat} {c : α}
    (hi : out[i]? = some c) : out.eraseIdx i = [] :=
  List.eq_nil_iff_forall_not_mem.mpr fun d hd => h.others hi d hd rfl

/-- A move keeps the split and the snark task alone. -/
theorem Soles.moved (hl : Leases w) (h : Soles w) (hm : Moved feat w w') :
    Soles w' := by
  cases hm with
  | start split _ hfresh hst => exact ⟨h.split.made hfresh hst, h.snark⟩
  | finalise s listing hf =>
      cases hf with
      | mk _ _ _ _ _ _ _ _ _ _ _ _ _ _ => exact ⟨h.split, h.snark⟩
  | snarkNew snark hnew =>
      exact ⟨h.split, h.snark.made hnew.fresh hnew.state⟩
  | splitOut now t hwait ht =>
      subst ht
      refine ⟨?_, h.snark⟩
      rw [List.map_append]
      exact h.split.handOut now hwait
  | splitIn i c r now hc =>
      refine ⟨?_, h.snark⟩
      show Sole (onTask now (r.split c).toTaskHead _)
        ((w.splits.eraseIdx i).map (·.toTaskHead)) _
      rw [lease_last hl.split hc]
      have hcm := List.mem_map_of_mem (f := fun t : SplitTask β => t.toTaskHead)
        (List.mem_of_getElem? hc)
      exact h.split.takeBack hcm now (stampSrc_taskId ..) (stampSrc_state ..)
        (stampSrc_output ..)
  | snarkOut now t hwait ht =>
      subst ht
      refine ⟨h.split, ?_⟩
      rw [List.map_append]
      exact h.snark.handOut now hwait
  | snarkIn i c t r now hc _ hback =>
      refine ⟨h.split, ?_⟩
      show Sole (onTask now (r.snark c).toTaskHead _)
        ((w.snarks.eraseIdx i).map (·.toTaskHead)) _
      rw [lease_last hl.snark hc]
      have hcm := List.mem_map_of_mem (f := fun t : SnarkTask β => t.toTaskHead)
        (List.mem_of_getElem? hc)
      exact h.snark.takeBack hcm now hback.taskId hback.state hback.output
  | _ => exact ⟨h.split, h.snark⟩

/-- In every reachable state the split and the snark task are out at most once.
    -/
theorem Reachable.soles {g : GenerateTask β} (h : Reachable feat g w) :
    Soles w := by
  have hboth : Leases w ∧ Soles w :=
    h.inv (I := fun w => Leases w ∧ Soles w)
      (fun file => ⟨Leases.start g file, Soles.start g file⟩)
      fun _ _ hs hi hm => ⟨hi.1.moved hs hm, hi.2.moved hi.1 hm⟩
  exact hboth.2

end

end ZkmProver
