import ZkmProver.Credits

/-! # One copy in flight — hand-outs and results over whole runs

    The stage and the copies it has handed out, in any interleaving: a task is
    PROCESSING exactly while one copy of it is out, a finished task never
    changes again, its output is the one SUCCESS result received for its id,
    and a copy of a task that was truncated away comes back without effect. -/

namespace ZkmProver

open Forest Keyed Machine

variable {β : Type}

/-! ## Old prove tasks -/

/-- Prove tasks of `w'` with ids drawn before `w` are those of `w`; finished
    ones have not changed. -/
structure ProvesOld (w w' : World β) : Prop where
  uuid : w.stage.uuid ≤ w'.stage.uuid
  old  : ∀ t' ∈ w'.stage.proveTasks, t'.taskId < w.stage.uuid →
    ∃ t ∈ w.stage.proveTasks, t.taskId = t'.taskId ∧
      (t.state = .Success → t'.state = .Success ∧ t'.output = t.output)

/-- The prove tasks of a world are its own. -/
theorem ProvesOld.refl (w : World β) : ProvesOld w w :=
  ⟨Nat.le_refl _, fun t ht _ => ⟨t, ht, rfl, fun h => ⟨h, rfl⟩⟩⟩

/-- The same over two moves. -/
theorem ProvesOld.trans {u v w : World β} (h : ProvesOld u v)
    (h' : ProvesOld v w) : ProvesOld u w := by
  refine ⟨Nat.le_trans h.uuid h'.uuid, ?_⟩
  intro t ht hlt
  obtain ⟨s, hs, hid, hkeep⟩ := h'.old t ht (Nat.lt_of_lt_of_le hlt h.uuid)
  obtain ⟨r, hr, hid', hkeep'⟩ := h.old s hs (by rw [hid]; exact hlt)
  refine ⟨r, hr, hid'.trans hid, fun hst => ?_⟩
  obtain ⟨hst', hout⟩ := hkeep' hst
  obtain ⟨hst'', hout'⟩ := hkeep hst'
  exact ⟨hst'', hout'.trans hout⟩

theorem AggsKept.trans {as bs cs : List (AggTask β)} (h : AggsKept as bs)
    (h' : AggsKept bs cs) : AggsKept as cs := by
  intro a ha hst
  obtain ⟨b, hb, hid, hst', hout⟩ := h a ha hst
  obtain ⟨c, hc, hid', hst'', hout'⟩ := h' b hb hst'
  exact ⟨c, hc, hid'.trans hid, hst'', hout'.trans hout⟩

section

variable [Blob β] {feat : Feature} {w w' : World β}

/-- A move makes no old prove task and changes no finished one. -/
theorem Moved.proves_old (hs : Shape w) (hm : Moved feat w w') :
    ProvesOld w w' := by
  refine ⟨hm.uuid_le hs, ?_⟩
  have hold := (ProvesOld.refl w).old
  cases hm with
  | grow new _ _ _ hgr =>
      intro t ht hlt
      rcases List.mem_append.mp ht with ht | ht
      · exact hold t ht hlt
      · have := (hgr.newborn t ht).id_le
        omega
  | finalise s listing hf =>
      intro t ht hlt
      rcases hf.mem_prove t ht with ht | ht
      · exact hold t ht hlt
      · have := ht.id_le
        omega
  | proveOut now x t hx hwait ht =>
      subst ht
      intro y hy hlt
      rcases mem_put.mp hy with ⟨hy, _⟩ | ⟨rfl, _⟩
      · exact hold y hy hlt
      · exact ⟨x, hx, rfl, fun hst => absurd hst (waiting_unfinished hwait)⟩
  | proveIn i c t r now ps err _ htaken _ _ =>
      intro y hy hlt
      cases htaken with
      | miss _ => exact hold y hy hlt
      | hit x hx _ hst =>
          rcases mem_put.mp hy with ⟨hy, _⟩ | ⟨rfl, _⟩
          · exact hold y hy hlt
          · refine ⟨x, hx, (onProveTaskDst_taskId ..).symm, fun hsucc => ?_⟩
            exact nomatch hst.symm.trans hsucc
  | splitIn i c r now _ => exact hold
  | aggIn i c t r now as err file _ _ _ _ _ => exact hold
  | snarkIn i c t r now _ _ _ => exact hold
  | _ => exact hold

/-- A run of the scheduler is some moves. -/
theorem run_moves {acts : List (Action β)} (hs : Shape w)
    (h : run (World.step feat) w acts = some w') : Moves feat w w' := by
  induction acts generalizing w with
  | nil => cases h; exact .refl
  | cons a acts ih =>
      obtain ⟨v, hstep, hrest⟩ := run_cons.mp h
      have hm := World.step_moves hs hstep
      exact hm.trans (ih (hs.moves hm) hrest)

/-- So do any moves, for prove and agg tasks. -/
theorem Moves.kept (hs : Shape w) (hm : Moves feat w w') :
    ProvesOld w w' ∧ AggsKept w.stage.aggTasks w'.stage.aggTasks := by
  induction hm with
  | refl => exact ⟨.refl w, fun a ha hst => ⟨a, ha, rfl, hst, rfl⟩⟩
  | tail hchain hlast ih =>
      have hs' := hs.moves hchain
      exact ⟨ih.1.trans (hlast.proves_old hs'), ih.2.trans (hlast.kept hs').2⟩

/-! ## The three parts -/

omit [Blob β] in
/-- In state PROCESSING with one copy in flight, or in another state with
    none. -/
def OneCopy (t : TaskHead β) (out : List (TaskHead β)) : Prop :=
  (t.state = .Processing ↔ copies (·.taskId) t.taskId out = 1) ∧
    (t.state ≠ .Processing → copies (·.taskId) t.taskId out = 0)

omit [Blob β] in
/-- Every task of the stage is PROCESSING exactly while one copy is out. -/
structure InFlight (w : World β) : Prop where
  split : OneCopy w.stage.splitTask.toTaskHead (w.splits.map (·.toTaskHead))
  prove : ∀ t ∈ w.stage.proveTasks,
    OneCopy t.toTaskHead (w.proves.map (·.toTaskHead))
  agg   : ∀ a ∈ w.stage.aggTasks,
    OneCopy a.toTaskHead (w.aggs.map (·.toTaskHead))
  snark : OneCopy w.stage.snarkTask.toTaskHead (w.snarks.map (·.toTaskHead))

omit [Blob β] in
/-- Finished prove and agg tasks have not changed on the way to `w'`. -/
structure Steady (w w' : World β) : Prop where
  prove : ∀ t ∈ w.stage.proveTasks, t.state = .Success →
    ∀ t' ∈ w'.stage.proveTasks, t'.taskId = t.taskId →
      t'.state = .Success ∧ t'.output = t.output
  agg   : ∀ a ∈ w.stage.aggTasks, a.state = .Success →
    ∀ a' ∈ w'.stage.aggTasks, a'.taskId = a.taskId →
      a'.state = .Success ∧ a'.output = a.output

omit [Blob β] in
/-- The SUCCESS results received for a finished task are one result, with the
    task's output; deferred prove tasks and the pseudo agg task are finished
    and not in flight. -/
structure Credited (w : World β) : Prop where
  split    : w.stage.splitTask.state = .Success →
    (successes w.stage.splitTask.taskId
      (w.delivered.filterMap Task.asSplit)).map (·.output)
      = [w.stage.splitTask.output]
  prove    : ∀ t ∈ w.stage.proveTasks, t.isDeferred = false →
    t.state = .Success →
      (provesOf t.taskId w.delivered).map (·.output) = [t.output]
  agg      : ∀ a ∈ w.stage.aggTasks, a.fromProve = false →
    a.state = .Success →
      (aggsOf a.taskId w.delivered).map (·.output) = [a.output]
  snark    : w.stage.snarkTask.state = .Success →
    (successes w.stage.snarkTask.taskId
      (w.delivered.filterMap Task.asSnark)).map (·.output)
      = [w.stage.snarkTask.output]
  deferred : ∀ t ∈ w.stage.proveTasks, t.isDeferred = true →
    t.state = .Success ∧ ∀ c ∈ w.proves, c.taskId ≠ t.taskId
  pseudo   : ∀ a ∈ w.stage.aggTasks, a.fromProve = true →
    a.state = .Success ∧ ∀ c ∈ w.aggs, c.taskId ≠ a.taskId

omit [Blob β] in
theorem copies_heads {α : Type} (head : α → TaskHead β) (id : Nat)
    (l : List α) :
    copies (·.taskId) id (l.map head) = copies (fun x => (head x).taskId) id l := by
  rw [copies, copies, List.countP_map]
  rfl

omit [Blob β] in
/-- One copy or none, from the count. -/
theorem OneCopy.of_count {t : TaskHead β} {out : List (TaskHead β)}
    (h : (t.state = .Processing → copies (·.taskId) t.taskId out = 1) ∧
      (t.state ≠ .Processing → copies (·.taskId) t.taskId out = 0)) :
    OneCopy t out := by
  refine ⟨⟨h.1, fun hone => ?_⟩, h.2⟩
  refine Classical.byContradiction fun hst => ?_
  have hzero := h.2 hst
  omega

omit [Blob β] in
/-- The copies of a task that is made once. -/
theorem Sole.copies {t : TaskHead β} {out results : List (TaskHead β)}
    (h : Sole t out results) :
    copies (·.taskId) t.taskId out = copies (fun _ => ()) () out := by
  refine List.countP_congr fun c hc => ?_
  simp [(h.own c hc).1]

omit [Blob β] in
/-- With nothing unsettled each task that is out has one copy, and no other has
    any. -/
theorem inFlight (hl : Leases w) (hh : Held w) (ho : Soles w)
    (hset : ¬ Unsettled w) : InFlight w := by
  have hacc : ∀ {α κ : Type} {key : α → κ} {busy : α → Prop}
      {table out : List α}, Accounted key busy table out (Unsettled w) →
      Accounted key busy table out False :=
    fun h => h.mono hset
  refine ⟨?_, ?_, ?_, ?_⟩
  · refine .of_count ?_
    rw [ho.split.copies, copies, List.countP_map]
    exact hl.split.count (hacc hh.split) (List.mem_singleton_self _)
  · intro t ht
    refine .of_count ?_
    rw [copies_heads]
    exact hl.prove.count (hacc hh.prove) ht
  · intro a ha
    refine .of_count ?_
    rw [copies_heads]
    exact hl.agg.count (hacc hh.agg) ha
  · refine .of_count ?_
    rw [ho.snark.copies, copies, List.countP_map]
    exact hl.snark.count (hacc hh.snark) (List.mem_singleton_self _)

/-- Any moves leave what is finished as it is. -/
theorem Moves.steady (hs : Shape w) (hm : Moves feat w w') : Steady w w' := by
  obtain ⟨hp, ha⟩ := hm.kept hs
  have hs' := hs.moves hm
  constructor
  · intro t ht hst t' ht' hid
    have hlt : t'.taskId < w.stage.uuid := by
      rw [hid]
      exact hs.prove_lt t ht
    obtain ⟨u, hu, hid', hkeep⟩ := hp.old t' ht' hlt
    have hut := eq_of_key hs.prove_nodup hu ht (hid'.trans hid)
    rw [hut] at hkeep
    exact hkeep hst
  · intro a hmem hst a' ha' hid
    obtain ⟨b, hb, hid', hst', hout⟩ := ha a hmem hst
    rw [eq_of_key hs'.agg_nodup ha' hb (hid.trans hid'.symm)]
    exact ⟨hst', hout⟩

omit [Blob β] in
/-- Each success is that of one accepted result. -/
theorem credited (hl : Leases w) (hg : Graph feat w) (hc : Credit w)
    (ho : Soles w) : Credited w := by
  refine ⟨?_, ?_, ?_, ?_, ?_, ?_⟩
  · intro hst
    rw [ho.split.once, if_pos hst]
  · intro t ht hdef hst
    rw [hc.prove t ht hdef, if_pos hst]
  · intro a ha hreal hst
    have heq := hc.agg a ha hreal
    rw [if_pos hst] at heq
    have hmap := congrArg (List.map Prod.fst) heq
    rwa [List.map_map] at hmap
  · intro hst
    rw [ho.snark.once, if_pos hst]
  · intro t ht hdef
    have hst := hg.deferred t ht hdef
    refine ⟨hst, fun c hmem hid => ?_⟩
    exact nomatch hst.symm.trans (hl.prove.busy c hmem t ht hid.symm)
  · intro a ha hp
    have hst := (hg.pseudo a ha hp).1
    refine ⟨hst, fun c hmem hid => ?_⟩
    exact nomatch hst.symm.trans (hl.agg.busy c hmem a ha hid.symm)

/-! ## Truncated tasks -/

omit [Blob β] in
/-- Nothing lists the id of a truncated task. -/
theorem Graph.clear_gone (hg : Graph feat w) (hs : Shape w) {c : ProveTask β}
    (hc : c ∈ w.proves)
    (hgone : ∀ t ∈ w.stage.proveTasks, t.taskId ≠ c.taskId) :
    w.stage.aggTasks.replaceF (AggTask.clearChildTask c.taskId)
      = w.stage.aggTasks := by
  refine findSome?_none (List.findSome?_eq_none_iff.mpr fun a ha => ?_)
  refine Option.eq_none_iff_forall_ne_some.mpr fun b hb => ?_
  obtain ⟨_, childs, hchild, _⟩ := clearChildTask_eq_some hb
  obtain ⟨i, hi, hid⟩ := hg.listed.only a ha _ (clearChild_some hchild).1
  rcases hg.cases hs with hnil | ⟨base, next, hfin, _, hlt⟩
  · rw [hnil] at ha
    exact nomatch ha
  · -- an input with an old id would be a prove task
    rcases hfin.plan.src_cases ha hi with ⟨l, hl, hsrc⟩ | ⟨d, _, _, hle, hsrc⟩
    · obtain ⟨t, ht, rfl⟩ := List.mem_map.mp hl
      rw [← src_id, hsrc] at hid
      exact hgone t ht hid
    · rw [← src_id, hsrc] at hid
      have hid' : d.taskId = c.taskId := hid
      have := hlt c hc
      omega

omit [Blob β] in
/-- A result of a task that has been dropped is ignored. -/
theorem onProveTask_gone (hg : Graph feat w) (hs : Shape w) {c : ProveTask β}
    (hc : c ∈ w.proves)
    (hgone : ∀ t ∈ w.stage.proveTasks, t.taskId ≠ c.taskId) (r : Reply β)
    (now : Nat) : (w.stage.onProveTask now (r.prove c)).1 = w.stage := by
  have hfind : w.stage.proveTasks.find? (Stage.matchProve (r.prove c))
      = none := by
    refine List.find?_eq_none.mpr fun x hx hmatch => ?_
    rw [Stage.matchProve, Bool.and_eq_true, decide_eq_true_eq] at hmatch
    exact hgone x hx hmatch.1
  have hsame : w.stage.proveTasks.replaceF (Stage.takeProve now (r.prove c))
      = w.stage.proveTasks := replaceF_find?_none hfind
  have hclear : clearOn (r.prove c).state (r.prove c).taskId w.stage.aggTasks
      = w.stage.aggTasks := by
    show clearOn r.state c.taskId w.stage.aggTasks = w.stage.aggTasks
    rw [clearOn, hg.clear_gone hs hc hgone, ite_self]
  rw [onProveTask_eq]
  simp only [hsame, hclear, hfind, Option.any_none, Bool.or_false]

/-- **ONE COPY**: hand-outs and results of every reachable world. -/
theorem one_copy_in_flight {g : GenerateTask β} (h : Reachable feat g w)
    (hset : ¬ Unsettled w) :
    InFlight w ∧ Credited w ∧
      (∀ acts w', run (World.step feat) w acts = some w' → Steady w w') ∧
      ∀ i c r now, w.proves[i]? = some c →
        (∀ t ∈ w.stage.proveTasks, t.taskId ≠ c.taskId) →
        ∃ w', w.step feat (.onProve i r now) = some w' ∧
          w'.stage = w.stage := by
  refine ⟨inFlight h.leases h.held h.soles hset,
    credited h.leases h.graph h.credit h.soles, ?_, ?_⟩
  · intro acts w' hrun
    exact (run_moves h.shape hrun).steady h.shape
  · intro i c r now hi hgone
    refine ⟨_, by rw [World.step, hi], ?_⟩
    exact onProveTask_gone h.graph h.shape (List.mem_of_getElem? hi) hgone r now

end

/-- After three results, two of them for prove tasks. -/
theorem one_copy_in_flight_proved :
    ∃ w : World (List UInt8), Reachable .prover aggRequest w ∧ w.delivered.length = 3 ∧
      InFlight w ∧ Credited w := by
  obtain ⟨w, hr, hp⟩ := Reachable.of_check .prover aggRequest provedRun
    (fun w => w.delivered.length = 3 ∧ ¬ Unsettled w) (by decide)
  obtain ⟨hlen, hset⟩ := of_decide_eq_true hp
  have h := one_copy_in_flight hr hset
  exact ⟨w, hr, hlen, h.1, h.2.1⟩

end ZkmProver
