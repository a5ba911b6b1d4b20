import ZkmProver.InFlight

/-! # Dependencies — no parent before its children

    Once the graph is there, a child is listed exactly until its producer is
    finished.  So a task that is handed out has finished producers only, the
    two lookups that fill in its inputs succeed, and what they find are the
    outputs of accepted results. -/

namespace ZkmProver

open Forest Keyed Machine

variable {β : Type}

/-- The task an input names: an agg task where `isAgg`, a prove task
    otherwise. -/
def Stage.producer (s : Stage β) (i : AggregateInput β) : Option (TaskHead β) :=
  if i.isAgg then
    (s.aggTasks.find? fun a => a.taskId = i.computedRequestId).map
      (·.toTaskHead)
  else
    (s.proveTasks.find? fun t => t.taskId = i.computedRequestId).map
      (·.toTaskHead)

/-- `out` is the output of the SUCCESS result received for the producer of
    `i`, or the deferred proof the producer was made of. -/
def Accepted (w : World β) (i : AggregateInput β) (out : β) : Prop :=
  if i.isAgg then
    (aggsOf i.computedRequestId w.delivered).map (·.output) = [out]
  else
    (provesOf i.computedRequestId w.delivered).map (·.output) = [out] ∨
      ∃ t ∈ w.stage.proveTasks, t.taskId = i.computedRequestId ∧
        t.isDeferred = true ∧ t.output = out

/-- The lookup of a receipt comes to the output of its producer. -/
theorem findReceipt_producer (s : Stage β) (i : AggregateInput β) :
    s.findReceipt i = (s.producer i).map (·.output) := by
  rw [Stage.findReceipt, Stage.producer]
  by_cases hagg : i.isAgg = true
  · rw [if_pos hagg, if_pos hagg, Option.map_map]
    rfl
  · rw [if_neg hagg, if_neg hagg, Option.map_map]
    rfl

/-- The producer of a leaf is its prove task. -/
theorem producer_leaf {s : Stage β} {i : AggregateInput β}
    (hnd : (s.proveTasks.map (·.taskId)).Nodup) {t : ProveTask β}
    (ht : t ∈ s.proveTasks) (hsrc : i.src = .leaf t.taskId) :
    i.isAgg = false ∧ i.computedRequestId = t.taskId ∧
      s.producer i = some t.toTaskHead := by
  have hid : i.computedRequestId = t.taskId := by rw [← src_id, hsrc]; rfl
  cases hagg : i.isAgg with
  | true =>
      rw [AggregateInput.src, hagg] at hsrc
      cases hsrc
  | false =>
      refine ⟨rfl, hid, ?_⟩
      rw [Stage.producer, hagg, if_neg (by simp), hid, find?_of_mem hnd ht]
      rfl

/-- The producer of a node is its agg task. -/
theorem producer_node {s : Stage β} {i : AggregateInput β}
    (hnd : (s.aggTasks.map (·.taskId)).Nodup) {a : AggTask β}
    (ha : a ∈ s.aggTasks) (hsrc : i.src = .node a.taskId) :
    i.isAgg = true ∧ i.computedRequestId = a.taskId ∧
      s.producer i = some a.toTaskHead := by
  have hid : i.computedRequestId = a.taskId := by rw [← src_id, hsrc]; rfl
  cases hagg : i.isAgg with
  | false =>
      rw [AggregateInput.src, hagg] at hsrc
      cases hsrc
  | true =>
      refine ⟨rfl, hid, ?_⟩
      rw [Stage.producer, hagg, if_pos rfl, hid, find?_of_mem hnd ha]
      rfl

/-- Inputs that all have producers are filled. -/
theorem fillInputs_total {s : Stage β} :
    ∀ {inputs : List (AggregateInput β)},
      (∀ i ∈ inputs, ∃ p, s.producer i = some p) →
      ∃ filled, s.fillInputs inputs = some filled
  | [], _ => ⟨[], rfl⟩
  | i :: inputs, h => by
      obtain ⟨p, hp⟩ := h i (List.mem_cons_self ..)
      obtain ⟨filled, hf⟩ := fillInputs_total
        fun j hj => h j (List.mem_cons_of_mem _ hj)
      refine ⟨{ i with receiptInput := p.output } :: filled, ?_⟩
      rw [Stage.fillInputs, findReceipt_producer, hp, hf]
      rfl

/-- A filled input has the output of its producer. -/
theorem mem_fillInputs {s : Stage β} :
    ∀ {inputs filled : List (AggregateInput β)},
      s.fillInputs inputs = some filled → ∀ j ∈ filled,
        ∃ i ∈ inputs, ∃ p, s.producer i = some p ∧
          j = { i with receiptInput := p.output }
  | [], _, h, j, hj => by cases h; exact nomatch hj
  | i :: inputs, filled, h, j, hj => by
      rw [Stage.fillInputs, findReceipt_producer,
        Option.bind_eq_some_iff] at h
      obtain ⟨receipt, hr, h⟩ := h
      obtain ⟨p, hp, rfl⟩ := Option.map_eq_some_iff.mp hr
      obtain ⟨rest, hrest, rfl⟩ := Option.map_eq_some_iff.mp h
      rcases List.mem_cons.mp hj with rfl | hj
      · exact ⟨i, List.mem_cons_self .., p, hp, rfl⟩
      · obtain ⟨k, hk, q, hq, hjk⟩ := mem_fillInputs hrest j hj
        exact ⟨k, List.mem_cons_of_mem _ hk, q, hq, hjk⟩

section

variable {feat : Feature} {w : World β}

/-- **PRODUCERS**: the producer of an input is there, and its state says
    whether the child is still listed. -/
theorem Graph.producer (hg : Graph feat w) (hs : Shape w) {a : AggTask β}
    (ha : a ∈ w.stage.aggTasks) {i : AggregateInput β} (hi : i ∈ a.inputs) :
    ∃ p, w.stage.producer i = some p ∧
      (some i.computedRequestId ∈ a.childs ↔ p.state ≠ .Success) := by
  have hlisted := hg.listed.iff a ha i hi
  rw [mem_pending] at hlisted
  rcases hg.cases hs with hnil | ⟨base, next, hfin, _, _⟩
  · rw [hnil] at ha
    exact nomatch ha
  · rcases hfin.plan.src_cases ha hi with ⟨l, hl, hsrc⟩ | ⟨b, hb, _, _, hsrc⟩
    · obtain ⟨t, ht, rfl⟩ := List.mem_map.mp hl
      refine ⟨t.toTaskHead, (producer_leaf hs.prove_nodup ht hsrc).2.2, ?_⟩
      rw [hlisted, hsrc, not_iff_not]
      constructor
      · rintro ⟨u, hu, hid, hst⟩
        rwa [← eq_of_key hs.prove_nodup hu ht hid]
      · exact fun hst => ⟨t, ht, rfl, hst⟩
    · refine ⟨b.toTaskHead, (producer_node hs.agg_nodup hb hsrc).2.2, ?_⟩
      rw [hlisted, hsrc, not_iff_not]
      constructor
      · rintro ⟨u, hu, hid, hst⟩
        rwa [← eq_of_key hs.agg_nodup hu hb hid]
      · exact fun hst => ⟨b, hb, rfl, hst⟩

/-- The output of a finished producer was accepted. -/
theorem Graph.accepted (hg : Graph feat w) (hs : Shape w) (hc : Credit w)
    {a : AggTask β} (ha : a ∈ w.stage.aggTasks) {i : AggregateInput β}
    (hi : i ∈ a.inputs) {p : TaskHead β} (hp : w.stage.producer i = some p)
    (hst : p.state = .Success) : Accepted w i p.output := by
  rw [Accepted]
  rcases hg.cases hs with hnil | ⟨base, next, hfin, _, _⟩
  · rw [hnil] at ha
    exact nomatch ha
  · rcases hfin.plan.src_cases ha hi with
      ⟨l, hl, hsrc⟩ | ⟨b, hb, hreal, _, hsrc⟩
    · obtain ⟨t, ht, rfl⟩ := List.mem_map.mp hl
      obtain ⟨hagg, hid, hprod⟩ := producer_leaf hs.prove_nodup ht hsrc
      rw [hprod] at hp
      cases hp
      rw [hagg, hid, if_neg (by simp)]
      cases hdef : t.isDeferred with
      | true => exact Or.inr ⟨t, ht, rfl, hdef, rfl⟩
      | false => exact Or.inl ((hc.prove t ht hdef).trans (if_pos hst))
    · obtain ⟨hagg, hid, hprod⟩ := producer_node hs.agg_nodup hb hsrc
      rw [hprod] at hp
      cases hp
      have hcredit := hc.agg b hb hreal
      rw [if_pos hst] at hcredit
      have hmap := congrArg (List.map Prod.fst) hcredit
      rw [List.map_map] at hmap
      rw [hagg, hid, if_pos rfl]
      exact hmap

/-- What `get_agg_task` returns: no lookup fails, and a task that is handed
    out is filled in with what its finished producers hold. -/
theorem Graph.getAggTask (hg : Graph feat w) (hs : Shape w) (hc : Credit w)
    (now : Nat) :
    ∃ t s, w.stage.getAggTask now = some (t, s) ∧
      ∀ a, t = some a → ∀ j ∈ a.inputs, ∃ p, w.stage.producer j = some p ∧
        p.state = .Success ∧ j.receiptInput = p.output ∧
          Accepted w j j.receiptInput := by
  rw [Stage.getAggTask]
  cases hfind : w.stage.aggTasks.findSome? (Stage.handAgg now) with
  | none => exact ⟨none, _, rfl, by rintro a ⟨⟩⟩
  | some a =>
      obtain ⟨x, hx, hxa⟩ := List.exists_of_findSome?_eq_some hfind
      obtain ⟨hnone, _, ha⟩ := handAgg_eq_some.mp hxa
      have hput := replaceF_eq_put (f := Stage.handAgg now) hs.agg_nodup
        (fun a b hab => by rw [(handAgg_eq_some.mp hab).2.2]; rfl) hfind
      have hin : a.inputs = x.inputs := by rw [ha]
      -- nothing is listed, so every producer is finished
      have hdone : ∀ i ∈ x.inputs, ∀ p, w.stage.producer i = some p →
          p.state = .Success := by
        intro i hi p hp
        obtain ⟨q, hq, hiff⟩ := hg.producer hs hx hi
        rw [hp] at hq
        cases hq
        refine Classical.byContradiction fun hst => ?_
        cases hnone _ (hiff.mpr hst)
      have hprod : ∀ i ∈ x.inputs, ∃ p, w.stage.producer i = some p := by
        intro i hi
        obtain ⟨p, hp, _⟩ := hg.producer hs hx hi
        exact ⟨p, hp⟩
      obtain ⟨filled, hfill⟩ := fillInputs_total hprod
      simp only [hput, ha, fillInputs_put hx hs.agg_nodup, hfill,
        Option.map_some]
      refine ⟨_, _, rfl, ?_⟩
      intro b hb j hj
      cases hb
      obtain ⟨i, hi, p, hp, rfl⟩ := mem_fillInputs hfill j hj
      have hst := hdone i hi p hp
      exact ⟨p, hp, hst, rfl, hg.accepted hs hc hx hi hp hst⟩

end

variable [Blob β]

/-- **DEPENDENCIES**: a child is listed until its producer is in state
    SUCCESS, and the graph is handed out bottom up.  There are no agg tasks
    before `isTasksGenDone`, so the graph need not be there yet. -/
theorem dependency_invariant {feat : Feature} {g : GenerateTask β}
    {w : World β} (h : Reachable feat g w) :
    (∀ a ∈ w.stage.aggTasks, ∀ i ∈ a.inputs,
      ∃ p, w.stage.producer i = some p ∧
        (some i.computedRequestId ∈ a.childs ↔ p.state ≠ .Success)) ∧
    ∀ now, ∃ t s, w.stage.getAggTask now = some (t, s) ∧
      ∀ a, t = some a → ∀ j ∈ a.inputs, ∃ p, w.stage.producer j = some p ∧
        p.state = .Success ∧ j.receiptInput = p.output ∧
          Accepted w j j.receiptInput :=
  ⟨fun _ ha _ hi => h.graph.producer h.shape ha hi,
    h.graph.getAggTask h.shape h.credit⟩

/-- With both segments proved, the root of the graph is handed out. -/
theorem dependency_invariant_proved :
    ∃ w : World (List UInt8), Reachable .prover aggRequest w ∧
      (∃ t s, w.stage.getAggTask 6 = some (some t, s) ∧
        ∀ j ∈ t.inputs, ∃ p, w.stage.producer j = some p ∧
          p.state = .Success ∧ j.receiptInput = p.output) := by
  obtain ⟨w, hr, hp⟩ := Reachable.of_check .prover aggRequest provedRun
    (fun w => (w.stage.getAggTask 6).any fun r => r.1.isSome) (by decide)
  obtain ⟨t, s, hget, hall⟩ := (dependency_invariant hr).2 6
  rw [hget] at hp
  obtain ⟨a, rfl⟩ := Option.isSome_iff_exists.mp hp
  refine ⟨w, hr, a, s, hget, fun j hj => ?_⟩
  obtain ⟨p, hprod, hst, hout, _⟩ := hall a rfl j hj
  exact ⟨p, hprod, hst, hout⟩

end ZkmProver
