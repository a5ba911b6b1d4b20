import Mathlib.Data.List.ReduceOption
import ZkmProver.Leases

/-! # The dependency graph — a child is listed until its producer is done

    Children are cleared from three places: the result of a prove task, the
    result of an agg task, and the catch-up when the graph is built.  `Listed`
    says what the lists of children mean relative to a set of finished
    producers; `Listed.clear` is the one fact about clearing, and `Graph` the
    invariant that the set is always the producers in state SUCCESS. -/

namespace ZkmProver

open Forest Keyed

variable {β : Type}

/-! ## Children and inputs -/

/-- The children still listed. -/
def AggTask.pending (a : AggTask β) : List Nat := a.childs.reduceOption

/-- The children that are not cleared. -/
theorem mem_pending {a : AggTask β} {c : Nat} :
    c ∈ a.pending ↔ some c ∈ a.childs := by
  rw [AggTask.pending, List.reduceOption_mem_iff]

/-- A source has the id of what is read. -/
@[simp] theorem src_id (i : AggregateInput β) :
    i.src.id = i.computedRequestId := by
  rw [AggregateInput.src]
  split <;> rfl

/-- A clearing call takes one listed child off the list. -/
theorem clearChild_some {id : Nat} :
    ∀ {childs childs' : List (Option Nat)},
      clearChild id childs = some childs' →
      id ∈ childs.reduceOption ∧
        childs'.reduceOption = childs.reduceOption.erase id
  | [], _, h => nomatch h
  | some t :: childs, childs', h => by
      rw [clearChild] at h
      by_cases ht : t = id
      · rw [if_pos ht] at h
        cases h
        subst ht
        rw [List.reduceOption_cons_of_some, List.reduceOption_cons_of_none,
          List.erase_cons_head]
        exact ⟨List.mem_cons_self .., rfl⟩
      · rw [if_neg ht, Option.map_eq_some_iff] at h
        obtain ⟨rest, hrest, rfl⟩ := h
        obtain ⟨hmem, heq⟩ := clearChild_some hrest
        rw [List.reduceOption_cons_of_some, List.reduceOption_cons_of_some,
          List.erase_cons_tail (by simpa using ht), heq]
        exact ⟨List.mem_cons_of_mem _ hmem, rfl⟩
  | none :: childs, childs', h => by
      rw [clearChild, Option.map_eq_some_iff] at h
      obtain ⟨rest, hrest, rfl⟩ := h
      rw [List.reduceOption_cons_of_none, List.reduceOption_cons_of_none]
      exact clearChild_some hrest

/-- An id that is not found is none of the children. -/
theorem clearChild_none {id : Nat} :
    ∀ {childs : List (Option Nat)}, clearChild id childs = none →
      id ∉ childs.reduceOption
  | [], _ => List.not_mem_nil
  | some t :: childs, h => by
      rw [clearChild] at h
      by_cases ht : t = id
      · rw [if_pos ht] at h
        exact nomatch h
      · rw [if_neg ht, Option.map_eq_none_iff] at h
        rw [List.reduceOption_cons_of_some, List.mem_cons, not_or]
        exact ⟨fun hid => ht hid.symm, clearChild_none h⟩
  | none :: childs, h => by
      rw [clearChild, Option.map_eq_none_iff] at h
      rw [List.reduceOption_cons_of_none]
      exact clearChild_none h

/-! ## Listed children -/

/-- The children of `as` relative to the finished producers `D`. -/
structure Listed (D : Src Nat → Prop) (as : List (AggTask β)) : Prop where
  iff   : ∀ a ∈ as, ∀ i ∈ a.inputs, i.computedRequestId ∈ a.pending ↔ ¬ D i.src
  only  : ∀ a ∈ as, ∀ c ∈ a.pending, ∃ i ∈ a.inputs, i.computedRequestId = c
  nodup : ∀ a ∈ as, a.pending.Nodup
  waits : ∀ a ∈ as, ∀ c ∈ a.pending, a.state = .Unprocessed

/-- Every input of the graph has one consumer, and its id says what it is. -/
structure Wired (as : List (AggTask β)) : Prop where
  nodup    : (as.map (·.taskId)).Nodup
  consumer : ∀ a ∈ as, ∀ b ∈ as, ∀ i ∈ a.inputs, ∀ j ∈ b.inputs,
    i.computedRequestId = j.computedRequestId →
      a.taskId = b.taskId ∧ i.src = j.src

namespace Listed

variable {D : Src Nat → Prop} {as : List (AggTask β)}

/-- Without agg tasks nothing is listed. -/
theorem nil : Listed D ([] : List (AggTask β)) := by
  refine ⟨?_, ?_, ?_, ?_⟩
  all_goals intro a ha; exact nomatch ha

/-- The set of finished producers matters at inputs only. -/
theorem congr {D' : Src Nat → Prop} (h : Listed D as)
    (hD : ∀ a ∈ as, ∀ i ∈ a.inputs, D' i.src ↔ D i.src) : Listed D' as := by
  refine ⟨?_, h.only, h.nodup, h.waits⟩
  intro a ha i hi
  rw [h.iff a ha i hi, hD a ha i hi]

/-- **CLEAR**: a clearing call for the producer `s` finishes `s`. -/
theorem clear (h : Listed D as) (hw : Wired as) (s : Src Nat)
    (hsrc : ∀ a ∈ as, ∀ i ∈ a.inputs, i.computedRequestId = s.id → i.src = s) :
    Listed (fun x => D x ∨ x = s)
      (as.replaceF (AggTask.clearChildTask s.id)) := by
  have hid : ∀ i : AggregateInput β, i.src = s → i.computedRequestId = s.id := by
    intro i hi
    rw [← src_id, hi]
  -- what is left of `D x ∨ x = s` where `s` is not listed
  have hrest : ∀ a ∈ as, s.id ∉ a.pending → ∀ i ∈ a.inputs,
      i.computedRequestId ∈ a.pending ↔ ¬ (D i.src ∨ i.src = s) := by
    intro a ha hno i hi
    rw [h.iff a ha i hi, not_or]
    constructor
    · intro hnd
      refine ⟨hnd, fun his => hno ?_⟩
      rw [← hid i his]
      exact (h.iff a ha i hi).mpr hnd
    · exact And.left
  cases hfind : as.findSome? (AggTask.clearChildTask s.id) with
  | none =>
      rw [findSome?_none hfind]
      have hnone : ∀ a ∈ as, s.id ∉ a.pending := by
        intro a ha hmem
        have hfa := List.findSome?_eq_none_iff.mp hfind a ha
        rw [AggTask.clearChildTask, if_pos (h.waits a ha _ hmem),
          Option.map_eq_none_iff] at hfa
        exact clearChild_none hfa hmem
      exact ⟨fun a ha => hrest a ha (hnone a ha), h.only, h.nodup, h.waits⟩
  | some y =>
      obtain ⟨x, hx, hxy⟩ := List.exists_of_findSome?_eq_some hfind
      obtain ⟨hst, childs, hc, hy⟩ := clearChildTask_eq_some hxy
      obtain ⟨hmem, heq⟩ := clearChild_some hc
      have hpend : y.pending = x.pending.erase s.id := by
        rw [hy]
        exact heq
      have hpmem : ∀ c, c ∈ y.pending ↔ c ≠ s.id ∧ c ∈ x.pending := by
        intro c
        rw [hpend, (h.nodup x hx).mem_erase_iff]
      have hkey : y.taskId = x.taskId := by rw [hy]
      have hin : y.inputs = x.inputs := by rw [hy]
      rw [replaceF_eq_put hw.nodup ?hk hfind]
      case hk =>
        intro a b hab
        obtain ⟨_, childs, _, rfl⟩ := clearChildTask_eq_some hab
        rfl
      obtain ⟨j, hj, hjc⟩ := h.only x hx _ hmem
      refine ⟨?_, ?_, ?_, ?_⟩
      · intro a ha
        rcases (mem_put_of_mem hx hkey).mp ha with rfl | ⟨ha, hne⟩
        · intro i hi
          rw [hin] at hi
          rw [hpmem, h.iff x hx i hi, not_or]
          constructor
          · exact fun hp => ⟨hp.2, fun his => hp.1 (hid i his)⟩
          · exact fun hp => ⟨fun hic => hp.2 (hsrc x hx i hi hic), hp.1⟩
        · -- `s` is listed by `x` alone
          refine hrest a ha fun hsa => ?_
          obtain ⟨i, hi, hic⟩ := h.only a ha _ hsa
          exact hne (hw.consumer a ha x hx i hi j hj (hic.trans hjc.symm)).1
      · intro a ha c hca
        rcases (mem_put_of_mem hx hkey).mp ha with rfl | ⟨ha, _⟩
        · rw [hin]
          exact h.only x hx c ((hpmem c).mp hca).2
        · exact h.only a ha c hca
      · intro a ha
        rcases (mem_put_of_mem hx hkey).mp ha with rfl | ⟨ha, _⟩
        · rw [hpend]
          exact (h.nodup x hx).erase _
        · exact h.nodup a ha
      · intro a ha c hca
        rcases (mem_put_of_mem hx hkey).mp ha with rfl | ⟨ha, _⟩
        · rw [hy]
          exact hst
        · exact h.waits a ha c hca

/-- An update that leaves inputs and children alone. -/
theorem put (h : Listed D as) {x y : AggTask β} (hx : x ∈ as)
    (hkey : y.taskId = x.taskId) (hin : y.inputs = x.inputs)
    (hch : y.childs = x.childs) (hst : y.state = x.state ∨ x.pending = []) :
    Listed D (Keyed.put (fun a => a.taskId) y as) := by
  have hpend : y.pending = x.pending := congrArg List.reduceOption hch
  refine ⟨?_, ?_, ?_, ?_⟩
  · intro a ha
    rcases (mem_put_of_mem hx hkey).mp ha with rfl | ⟨ha, _⟩
    · rw [hin, hpend]
      exact h.iff x hx
    · exact h.iff a ha
  · intro a ha
    rcases (mem_put_of_mem hx hkey).mp ha with rfl | ⟨ha, _⟩
    · rw [hin, hpend]
      exact h.only x hx
    · exact h.only a ha
  · intro a ha
    rcases (mem_put_of_mem hx hkey).mp ha with rfl | ⟨ha, _⟩
    · rw [hpend]
      exact h.nodup x hx
    · exact h.nodup a ha
  · intro a ha c hc
    rcases (mem_put_of_mem hx hkey).mp ha with rfl | ⟨ha, _⟩
    · rw [hpend] at hc
      rcases hst with hst | hnil
      · rw [hst]
        exact h.waits x hx c hc
      · rw [hnil] at hc
        exact nomatch hc
    · exact h.waits a ha c hc

end Listed

/-! ## The wiring of a plan -/

section Wiring

variable {ls : List Nat} {base next : Nat} {as : List (AggTask β)}
  {row : List (Src Nat)}

/-- An input is one of the sources. -/
theorem mem_srcs {a : AggTask β} {i : AggregateInput β} (hi : i ∈ a.inputs) :
    i.src ∈ a.item.node.srcs := List.mem_map_of_mem hi

/-- A task with an input is not the pseudo task. -/
theorem Plan.real (h : Plan ls base next (as.map (·.item)) row)
    {a : AggTask β} (ha : a ∈ as) {i : AggregateInput β} (hi : i ∈ a.inputs) :
    a.fromProve = false ∧ a.item.node ∈ planNodes (as.map (·.item)) := by
  have hreal : a.fromProve = false := by
    cases hf : a.fromProve with
    | false => rfl
    | true =>
        have hnil := (h.pseudo a.item (List.mem_map_of_mem ha) hf).2
        have hmem := mem_srcs hi
        rw [hnil] at hmem
        exact nomatch hmem
  exact ⟨hreal, mem_planNodes.mpr ⟨a.item, List.mem_map_of_mem ha, hreal, rfl⟩⟩

/-- What an input can name: a prove task, or an agg task of the plan. -/
theorem Plan.src_cases (h : Plan ls base next (as.map (·.item)) row)
    {a : AggTask β} (ha : a ∈ as) {i : AggregateInput β} (hi : i ∈ a.inputs) :
    (∃ l ∈ ls, i.src = .leaf l) ∨
      ∃ b ∈ as, b.fromProve = false ∧ base ≤ b.taskId ∧
        i.src = .node b.taskId := by
  rcases h.built.srcs_mem (h.real ha hi).2 (mem_srcs hi) with hl | ⟨n, hn, hs⟩
  · exact Or.inl hl
  · obtain ⟨item, hitem, hreal, rfl⟩ := mem_planNodes.mp hn
    obtain ⟨b, hb, rfl⟩ := List.mem_map.mp hitem
    exact Or.inr ⟨b, hb, hreal, (h.range b.item hitem hreal).1, hs⟩

/-- An input whose id is a prove task's names that prove task. -/
theorem Plan.src_leaf (h : Plan ls base next (as.map (·.item)) row)
    {l : Nat} (hl : l < base) {a : AggTask β} (ha : a ∈ as)
    {i : AggregateInput β} (hi : i ∈ a.inputs)
    (hid : i.computedRequestId = l) : i.src = .leaf l := by
  rcases h.src_cases ha hi with ⟨k, _, hs⟩ | ⟨b, _, _, hle, hs⟩
  · rw [← src_id, hs] at hid
    rw [hs, ← show k = l from hid]
  · rw [← src_id, hs] at hid
    have : b.taskId = l := hid
    omega

/-- An input whose id is a task's of the plan names that task. -/
theorem Plan.src_node (h : Plan ls base next (as.map (·.item)) row)
    (hls : ∀ l ∈ ls, l < base) {b : AggTask β} (hb : b ∈ as)
    (hreal : b.fromProve = false) {a : AggTask β} (ha : a ∈ as)
    {i : AggregateInput β} (hi : i ∈ a.inputs)
    (hid : i.computedRequestId = b.taskId) : i.src = .node b.taskId := by
  have hle := (h.range b.item (List.mem_map_of_mem hb) hreal).1
  rcases h.src_cases ha hi with ⟨k, hk, hs⟩ | ⟨d, _, _, _, hs⟩
  · rw [← src_id, hs] at hid
    have hkb : k = b.taskId := hid
    have := hls k hk
    have : base ≤ b.taskId := hle
    omega
  · rw [← src_id, hs] at hid
    rw [hs, ← show d.taskId = b.taskId from hid]

/-- A plan over distinct leaves is wired. -/
theorem Plan.wired (h : Plan ls base next (as.map (·.item)) row)
    (hnd : ls.Nodup) (hls : ∀ l ∈ ls, l < base) : Wired as := by
  refine ⟨?_, ?_⟩
  · have := h.nodup
    rwa [List.map_map] at this
  · intro a ha b hb i hi j hj hij
    have hsrc : i.src = j.src := by
      rcases h.src_cases hb hj with ⟨l, hl, hs⟩ | ⟨d, hd, hreal, _, hs⟩
      · rw [← src_id j, hs] at hij
        rw [hs, h.src_leaf (hls l hl) ha hi hij]
      · rw [← src_id j, hs] at hij
        rw [hs, h.src_node hls hd hreal ha hi hij]
    refine ⟨?_, hsrc⟩
    have hnode := h.built.consumer hnd (h.real ha hi).2 (h.real hb hj).2
      (mem_srcs hi) (hsrc ▸ mem_srcs hj)
    exact congrArg Node.id hnode

/-- The inputs of a task of a plan have distinct ids. -/
theorem Plan.ids_nodup (h : Plan ls base next (as.map (·.item)) row)
    (hnd : ls.Nodup) (hls : ∀ l ∈ ls, l < base) {a : AggTask β} (ha : a ∈ as) :
    (a.inputs.map (·.computedRequestId)).Nodup := by
  cases hin : a.inputs with
  | nil => exact List.nodup_nil
  | cons i rest =>
      have hi : i ∈ a.inputs := by
        rw [hin]
        exact List.mem_cons_self ..
      have hsrcs := h.built.srcs_nodup hnd (h.real ha hi).2
      have hw := h.wired hnd hls
      rw [← hin]
      refine List.Nodup.map_on ?_ (List.Nodup.of_map _ hsrcs)
      intro x hx y hy hxy
      have hsrc := (hw.consumer a ha a ha x hx y hy hxy).2
      exact List.inj_on_of_nodup_map hsrcs hx hy hsrc

end Wiring

/-! ## Finished producers -/

/-- The producers in state SUCCESS. -/
def Done (ps : List (ProveTask β)) (as : List (AggTask β)) : Src Nat → Prop
  | .leaf id => ∃ t ∈ ps, t.taskId = id ∧ t.state = .Success
  | .node id => ∃ a ∈ as, a.taskId = id ∧ a.state = .Success

/-- Ids and states decide what is finished. -/
theorem done_congr {ps : List (ProveTask β)} {as as' : List (AggTask β)}
    (h : as'.map (fun a => (a.taskId, a.state))
      = as.map fun a => (a.taskId, a.state)) (s : Src Nat) :
    Done ps as' s ↔ Done ps as s := by
  have hmem : ∀ (l : List (AggTask β)) (id : Nat),
      (∃ a ∈ l, a.taskId = id ∧ a.state = .Success)
        ↔ (id, TaskState.Success) ∈ l.map fun a => (a.taskId, a.state) := by
    intro l id
    simp only [List.mem_map, Prod.mk.injEq]
  cases s with
  | leaf id => exact Iff.rfl
  | node id =>
      show (∃ a ∈ as', _) ↔ ∃ a ∈ as, _
      rw [hmem, hmem, h]

/-- The producer `x` gets a state other than SUCCESS, and had none. -/
theorem done_put_prove {ps : List (ProveTask β)} {as : List (AggTask β)}
    (hnd : (ps.map (·.taskId)).Nodup) {x y : ProveTask β} (hx : x ∈ ps)
    (hkey : y.taskId = x.taskId) (hidle : x.state ≠ .Success) (s : Src Nat) :
    Done (Keyed.put (fun t => t.taskId) y ps) as s
      ↔ Done ps as s ∨ (y.state = .Success ∧ s = .leaf x.taskId) := by
  cases s with
  | node id => simp [Done]
  | leaf id =>
      show (∃ z ∈ Keyed.put _ _ _, _) ↔ (∃ z ∈ ps, _) ∨ _
      rw [exists_put hx hkey]
      by_cases hid : id = x.taskId
      · have hno : ¬ ∃ z ∈ ps, z.taskId = id ∧ z.state = .Success := by
          rintro ⟨z, hz, hzid, hst⟩
          rw [eq_of_key hnd hz hx (hzid.trans hid)] at hst
          exact hidle hst
        simp [hid] at hno ⊢
        exact fun z hz hzid hst => absurd hst (hno z hz hzid)
      · simp [hid]

/-- An agg task that is put over is done, or done as before. -/
theorem done_put_agg {ps : List (ProveTask β)} {as : List (AggTask β)}
    (hnd : (as.map (·.taskId)).Nodup) {x y : AggTask β} (hx : x ∈ as)
    (hkey : y.taskId = x.taskId) (hidle : x.state ≠ .Success) (s : Src Nat) :
    Done ps (Keyed.put (fun a => a.taskId) y as) s
      ↔ Done ps as s ∨ (y.state = .Success ∧ s = .node x.taskId) := by
  cases s with
  | leaf id => simp [Done]
  | node id =>
      show (∃ z ∈ Keyed.put _ _ _, _) ↔ (∃ z ∈ as, _) ∨ _
      rw [exists_put hx hkey]
      by_cases hid : id = x.taskId
      · have hno : ¬ ∃ z ∈ as, z.taskId = id ∧ z.state = .Success := by
          rintro ⟨z, hz, hzid, hst⟩
          rw [eq_of_key hnd hz hx (hzid.trans hid)] at hst
          exact hidle hst
        simp [hid] at hno ⊢
        exact fun z hz hzid hst => absurd hst (hno z hz hzid)
      · simp [hid]

/-! ## The catch-up -/

/-- Inputs and ids, which clearing leaves alone. -/
theorem Wired.clearAll {as : List (AggTask β)} (h : Wired as)
    (ids : List Nat) : Wired (clearAll ids as) := by
  refine ⟨?_, ?_⟩
  · rw [map_clearAll _ fun _ _ => rfl]
    exact h.nodup
  · intro a ha b hb
    obtain ⟨a', ha', _, rfl⟩ := mem_clearAll ha
    obtain ⟨b', hb', _, rfl⟩ := mem_clearAll hb
    exact h.consumer a' ha' b' hb'

/-- Clearing several prove tasks in turn. -/
theorem Listed.clearAll {D : Src Nat → Prop} {as : List (AggTask β)}
    (ids : List Nat) (h : Listed D as) (hw : Wired as)
    (hsrc : ∀ id ∈ ids, ∀ a ∈ as, ∀ i ∈ a.inputs,
      i.computedRequestId = id → i.src = .leaf id) :
    Listed (fun x => D x ∨ ∃ id ∈ ids, x = .leaf id) (clearAll ids as) := by
  induction ids generalizing D as with
  | nil => exact h.congr fun a _ i _ => by simp
  | cons id ids ih =>
      have hone := h.clear hw (.leaf id) (hsrc id (List.mem_cons_self ..))
      have hw' := hw.clearAll [id]
      have hrest := ih hone hw' (by
        intro k hk a ha i hi
        have hmem : a ∈ ZkmProver.clearAll [id] as := ha
        obtain ⟨b, hb, _, rfl⟩ := mem_clearAll hmem
        exact hsrc k (List.mem_cons_of_mem _ hk) b hb i hi)
      refine hrest.congr ?_
      intro a _ i _
      simp [or_assoc]

/-- A new agg task waits for all its inputs or for none. -/
theorem Planned.only {ps : List (ProveTask β)} {a : AggTask β}
    (h : Planned ps a) :
    a.pending = [] ∨ a.pending = a.inputs.map (·.computedRequestId) := by
  cases h with
  | pseudo _ _ hch _ => exact Or.inl (by rw [AggTask.pending, hch]; rfl)
  | deferred _ _ hch _ => exact Or.inl (by rw [AggTask.pending, hch]; rfl)
  | waits _ _ hch =>
      refine Or.inr ?_
      rw [AggTask.pending, hch]
      simp [List.reduceOption]

/-- Before the catch-up, what is not listed is a deferred proof. -/
theorem Planned.unlisted {ps : List (ProveTask β)} {a : AggTask β}
    (h : Planned ps a) {i : AggregateInput β} (hi : i ∈ a.inputs)
    (hno : i.computedRequestId ∉ a.pending) :
    ∃ t ∈ ps, t.isDeferred = true ∧ i.src = .leaf t.taskId := by
  cases h with
  | pseudo _ hin _ _ =>
      rw [hin] at hi
      exact nomatch hi
  | waits _ _ hch =>
      refine absurd ?_ hno
      rw [mem_pending, hch]
      exact List.mem_map.mpr ⟨i, hi, rfl⟩
  | deferred _ _ _ hdef =>
      obtain ⟨hagg, t, ht, htid, htd⟩ := hdef i hi
      refine ⟨t, ht, htd, ?_⟩
      rw [AggregateInput.src, hagg, htid]
      rfl

/-- A fresh graph, relative to what it does not list. -/
theorem Listed.planned {ps : List (ProveTask β)} {as : List (AggTask β)}
    (hw : Wired as) (hplanned : ∀ a ∈ as, Planned ps a)
    (hids : ∀ a ∈ as, (a.inputs.map (·.computedRequestId)).Nodup) :
    Listed (fun s => ∃ a ∈ as, ∃ i ∈ a.inputs,
      i.computedRequestId ∉ a.pending ∧ i.src = s) as := by
  refine ⟨?_, ?_, ?_, ?_⟩
  · intro a ha i hi
    constructor
    · rintro hmem ⟨b, hb, j, hj, hno, hsrc⟩
      have hid : i.computedRequestId = j.computedRequestId := by
        rw [← src_id, ← src_id, hsrc]
      have hab := eq_of_key hw.nodup ha hb (hw.consumer a ha b hb i hi j hj hid).1
      rw [hab, hid] at hmem
      exact hno hmem
    · intro hnot
      refine Classical.byContradiction fun hno => hnot ?_
      exact ⟨a, ha, i, hi, hno, rfl⟩
  · intro a ha c hc
    rcases (hplanned a ha).only with hnil | hall
    · rw [hnil] at hc
      exact nomatch hc
    · rw [hall] at hc
      exact List.mem_map.mp hc
  · intro a ha
    rcases (hplanned a ha).only with hnil | hall
    · rw [hnil]
      exact List.nodup_nil
    · rw [hall]
      exact hids a ha
  · intro a ha c hc
    cases hplanned a ha with
    | waits _ hst _ => exact hst
    | deferred _ hst _ _ => exact hst
    | pseudo _ _ hch _ =>
        rw [mem_pending, hch] at hc
        exact nomatch hc

/-- **CATCH-UP**: the finalised graph lists what is not done. -/
theorem Listed.finalised {ps : List (ProveTask β)} {as : List (AggTask β)}
    {base next : Nat} {row : List (Src Nat)}
    (hplan : Plan (ps.map (·.taskId)) base next (as.map (·.item)) row)
    (hplanned : ∀ a ∈ as, Planned ps a)
    (hnd : (ps.map (·.taskId)).Nodup) (hlt : ∀ t ∈ ps, t.taskId < base)
    (hdef : ∀ t ∈ ps, t.isDeferred = true → t.state = .Success)
    {ids : List Nat}
    (hids : ids = (ps.filter fun t => t.state = .Success).map (·.taskId)) :
    Listed (Done ps (ZkmProver.clearAll ids as)) (ZkmProver.clearAll ids as) := by
  have hls : ∀ l ∈ ps.map (·.taskId), l < base := by
    intro l hl
    obtain ⟨t, ht, rfl⟩ := List.mem_map.mp hl
    exact hlt t ht
  have hw := hplan.wired hnd hls
  have hmem : ∀ id, id ∈ ids ↔ ∃ t ∈ ps, t.taskId = id ∧ t.state = .Success := by
    intro id
    rw [hids, List.mem_map]
    constructor
    · rintro ⟨t, ht, rfl⟩
      rw [List.mem_filter, decide_eq_true_eq] at ht
      exact ⟨t, ht.1, rfl, ht.2⟩
    · rintro ⟨t, ht, rfl, hst⟩
      refine ⟨t, ?_, rfl⟩
      rw [List.mem_filter, decide_eq_true_eq]
      exact ⟨ht, hst⟩
  have hall := (Listed.planned hw hplanned fun a ha =>
    hplan.ids_nodup hnd hls ha).clearAll ids hw (by
      intro id hid a ha i hi hcid
      obtain ⟨t, ht, rfl, _⟩ := (hmem id).mp hid
      exact hplan.src_leaf (hlt t ht) ha hi hcid)
  refine hall.congr ?_
  intro a ha i hi
  rw [done_congr (map_clearAll _ (fun _ _ => rfl) _ _)]
  obtain ⟨b, hb, _, rfl⟩ := mem_clearAll ha
  rcases hplan.src_cases hb hi with ⟨l, _, hs⟩ | ⟨d, hd, hreal, _, hs⟩
  · rw [hs]
    constructor
    · intro hdone
      exact Or.inr ⟨l, (hmem l).mpr hdone, rfl⟩
    · rintro (⟨c, hc, j, hj, hno, hsrc⟩ | ⟨id, hid, hleaf⟩)
      · obtain ⟨t, ht, htd, hsrc'⟩ := (hplanned c hc).unlisted hj hno
        rw [hsrc] at hsrc'
        cases hsrc'
        exact ⟨t, ht, rfl, hdef t ht htd⟩
      · cases hleaf
        exact (hmem l).mp hid
  · rw [hs]
    constructor
    · -- nothing of the graph is done yet
      rintro ⟨c, hc, hcid, hst⟩
      have hcd := eq_of_key hw.nodup hc hd hcid
      rw [hcd] at hst
      cases hplanned d hd with
      | pseudo hf _ _ _ => rw [hf] at hreal; exact nomatch hreal
      | waits _ hun _ => rw [hun] at hst; exact nomatch hst
      | deferred _ hun _ _ => rw [hun] at hst; exact nomatch hst
    · rintro (⟨c, hc, j, hj, hno, hsrc⟩ | ⟨id, _, hleaf⟩)
      · obtain ⟨t, _, _, hsrc'⟩ := (hplanned c hc).unlisted hj hno
        rw [hsrc] at hsrc'
        exact nomatch hsrc'
      · exact nomatch hleaf

/-! ## The invariant -/

/-- The graph of a world: a finished plan over the prove tasks, in which a
    child is listed until its producer is in state SUCCESS. -/
structure Graph (feat : Feature) (w : World β) : Prop where
  composite : w.stage.isTasksGenDone = true →
    w.stage.generateTask.compositeProof = true → w.stage.aggTasks = []
  planned   : w.stage.isTasksGenDone = true →
    w.stage.generateTask.compositeProof = false →
    ∃ base next,
      Finished (w.stage.proveTasks.map (·.taskId)) base next
        (w.stage.aggTasks.map (·.item)) ∧
      (∀ t ∈ w.stage.proveTasks, t.taskId < base) ∧
      ∀ c ∈ w.proves, c.taskId < base
  pseudo    : ∀ a ∈ w.stage.aggTasks, a.fromProve = true →
    a.state = .Success ∧ feat = .prover
  deferred  : ∀ t ∈ w.stage.proveTasks, t.isDeferred = true →
    t.state = .Success
  listed    : Listed (Done w.stage.proveTasks w.stage.aggTasks)
    w.stage.aggTasks

/-- A graph with a task in it is planned. -/
theorem Graph.cases {feat : Feature} {w : World β} (h : Graph feat w)
    (hs : Shape w) :
    w.stage.aggTasks = [] ∨
      ∃ base next,
        Finished (w.stage.proveTasks.map (·.taskId)) base next
          (w.stage.aggTasks.map (·.item)) ∧
        (∀ t ∈ w.stage.proveTasks, t.taskId < base) ∧
        ∀ c ∈ w.proves, c.taskId < base := by
  cases hd : w.stage.isTasksGenDone with
  | false => exact Or.inl (hs.early hd).1
  | true =>
      cases hc : w.stage.generateTask.compositeProof with
      | true => exact Or.inl (h.composite hd hc)
      | false => exact Or.inr (h.planned hd hc)

/-- Ids below a bound. -/
theorem ids_lt {ps : List (ProveTask β)} {base : Nat}
    (h : ∀ t ∈ ps, t.taskId < base) :
    ∀ l ∈ ps.map (·.taskId), l < base := by
  intro l hl
  obtain ⟨t, ht, rfl⟩ := List.mem_map.mp hl
  exact h t ht

/-- In the graph each child is an input. -/
theorem Graph.wired {feat : Feature} {w : World β} (h : Graph feat w)
    (hs : Shape w) : Wired w.stage.aggTasks := by
  rcases h.cases hs with hnil | ⟨base, next, hfin, hlt, _⟩
  · rw [hnil]
    refine ⟨List.nodup_nil, ?_⟩
    intro a ha
    exact nomatch ha
  · exact hfin.plan.wired hs.prove_nodup (ids_lt hlt)

variable {feat : Feature} {w w' : World β}

section

variable [Blob β]

/-- A new stage has no graph. -/
theorem Graph.start (g : GenerateTask β) (file : Option β) :
    Graph feat (World.start g file) :=
  ⟨fun hd => (nomatch hd), fun hd => (nomatch hd), fun _ ha => (nomatch ha),
    fun _ ht => (nomatch ht), .nil⟩

/-- The plan is a graph over its prove tasks. -/
theorem Graph.finalise (hs : Shape w) (h : Graph feat w) {s : Stage β}
    {listing : List (Nat × β)} (hf : Finalised feat w.stage s listing) :
    Graph feat { w with stage := s, listing := listing } := by
  have hpseudo := hf.mem_agg
  cases hf with
  | mk normal deferred as u u' errmsg listing _ hdone _ _ hn hd hg =>
      obtain ⟨hu, nnd, nlt⟩ := hn.ids hs.prove_nodup hs.prove_lt
      have hpnd := nodup_append_fresh nnd nlt hd.ids
      have hplt := lt_append_fresh nlt hd.ids
      have hdef : ∀ t ∈ normal ++ deferred, t.isDeferred = true →
          t.state = .Success := by
        intro t ht htd
        rcases List.mem_append.mp ht with ht | ht
        · rw [hn.normal (hs.early hdone).2 t ht] at htd
          exact nomatch htd
        · exact (hd.born t ht).2
      have hproves : ∀ c ∈ w.proves, c.taskId < u + deferred.length := by
        intro c hc
        have := hs.proves_lt c hc
        omega
      cases hg with
      | composite hcomp =>
          refine ⟨fun _ _ => clearAll_nil _, ?_, ?_, hdef, ?_⟩
          · intro _ hc
            exact nomatch hcomp.symm.trans hc
          · intro a ha
            have hmem : a ∈ clearAll _ ([] : List (AggTask β)) := ha
            rw [clearAll_nil] at hmem
            exact nomatch hmem
          · show Listed _ (clearAll _ [])
            rw [clearAll_nil]
            exact .nil
      | planned _ _ hcomp hu' hfin hplanned hreal =>
          refine ⟨?_, ?_, ?_, hdef, ?_⟩
          · intro _ hc
            exact nomatch hcomp.symm.trans hc
          · intro _ _
            refine ⟨u + deferred.length, u', ?_, hplt, hproves⟩
            show Finished _ _ _ ((clearAll _ as).map (·.item))
            rw [map_clearAll _ fun _ _ => rfl]
            exact hfin
          · intro a ha hfp
            have hst := hpseudo a ha
            rw [hfp] at hst
            refine ⟨hst, ?_⟩
            obtain ⟨b, hb, _, rfl⟩ := mem_clearAll ha
            cases feat with
            | prover => rfl
            | proverV2 => exact nomatch hfp.symm.trans (hreal rfl b hb)
          · exact Listed.finalised hfin.plan hplanned hpnd hplt hdef rfl

end

theorem waiting_unfinished {state : TaskState} (h : state.waiting = true) :
    state ≠ .Success := by
  intro hst
  rw [hst] at h
  exact nomatch h

/-- A prove task is handed out. -/
theorem Graph.proveOut (hs : Shape w) (h : Graph feat w) {x t : ProveTask β}
    {now : Nat} (hx : x ∈ w.stage.proveTasks) (hwait : x.state.waiting = true)
    (ht : t = { x with toTaskHead := x.toTaskHead.handOut now }) :
    Graph feat { w with
      stage := { w.stage with
        proveTasks := put (fun x => x.taskId) t w.stage.proveTasks }
      proves := w.proves ++ [t] } := by
  have hidle := waiting_unfinished hwait
  have hid : t.taskId = x.taskId := by rw [ht]; rfl
  have hst : t.state ≠ .Success := by rw [ht]; exact nofun
  have hkeys := map_key_put (fun x : ProveTask β => x.taskId) t
    w.stage.proveTasks
  refine ⟨h.composite, ?_, h.pseudo, ?_, ?_⟩
  · intro hd hc
    obtain ⟨base, next, hfin, hlt, hclt⟩ := h.planned hd hc
    refine ⟨base, next, hkeys.symm ▸ hfin,
      forall_key (P := (· < base)) hkeys hlt, ?_⟩
    intro c hcm
    rcases List.mem_append.mp hcm with hcm | hcm
    · exact hclt c hcm
    · rw [List.mem_singleton.mp hcm, hid]
      exact hlt x hx
  · intro y hy hyd
    rcases mem_put.mp hy with ⟨hy, _⟩ | ⟨rfl, _⟩
    · exact h.deferred y hy hyd
    · rw [ht] at hyd
      exact absurd (h.deferred x hx hyd) hidle
  · refine h.listed.congr ?_
    intro a _ i _
    refine (done_put_prove hs.prove_nodup hx hid hidle _).trans ?_
    simp [hst]

/-- An agg task is handed out, with nothing pending. -/
theorem Graph.aggOut (hs : Shape w) (h : Graph feat w) {x t : AggTask β}
    {now : Nat} (hx : x ∈ w.stage.aggTasks) (hnone : ∀ c ∈ x.childs, c = none)
    (hwait : x.state.waiting = true)
    (ht : t = { x with toTaskHead := x.toTaskHead.handOut now })
    (aggs : List (AggTask β)) :
    Graph feat { w with
      stage := { w.stage with
        aggTasks := put (fun x => x.taskId) t w.stage.aggTasks }
      aggs := aggs } := by
  have hidle := waiting_unfinished hwait
  have hid : t.taskId = x.taskId := by rw [ht]; rfl
  have hst : t.state ≠ .Success := by rw [ht]; exact nofun
  have hpend : x.pending = [] := by
    refine List.eq_nil_iff_forall_not_mem.mpr fun c hc => ?_
    exact nomatch hnone (some c) (mem_pending.mp hc)
  have hitems : (put (fun x => x.taskId) t w.stage.aggTasks).map (·.item)
      = w.stage.aggTasks.map (·.item) :=
    map_put_of_mem _ hs.agg_nodup hx hid (by rw [ht]; rfl)
  refine ⟨?_, ?_, ?_, h.deferred, ?_⟩
  · intro hd hc
    rw [h.composite hd hc] at hx
    exact nomatch hx
  · intro hd hc
    obtain ⟨base, next, hfin, hlt, hclt⟩ := h.planned hd hc
    exact ⟨base, next, hitems.symm ▸ hfin, hlt, hclt⟩
  · intro a ha hf
    rcases (mem_put_of_mem hx hid).mp ha with rfl | ⟨ha, _⟩
    · rw [ht] at hf
      exact absurd (h.pseudo x hx hf).1 hidle
    · exact h.pseudo a ha hf
  · refine (h.listed.put hx hid (by rw [ht]) (by rw [ht]) (Or.inr hpend)).congr
      ?_
    intro a _ i _
    refine (done_put_agg hs.agg_nodup hx hid hidle _).trans ?_
    simp [hst]

/-- A result for a prove task finishes it at most. -/
theorem done_taken {now : Nat} {t : ProveTask β}
    {ps ps' : List (ProveTask β)} {as : List (AggTask β)} {err : Bool}
    (hnd : (ps.map (·.taskId)).Nodup)
    (hbusy : ∀ x ∈ ps, x.taskId = t.taskId → x.state = .Processing)
    (h : ProveTaken now t ps ps' err) (s : Src Nat)
    (hmem : ∀ id, s = .leaf id → ∃ x ∈ ps, x.taskId = id) :
    Done ps' as s ↔ Done ps as s ∨ (t.state = .Success ∧ s = .leaf t.taskId) := by
  cases h with
  | miss hmiss =>
      have hne : s ≠ .leaf t.taskId := by
        intro hs
        obtain ⟨x, hx, hid⟩ := hmem _ hs
        exact hmiss x hx hid (hbusy x hx hid)
      simp [hne]
  | hit x hx hid hst =>
      have hidle : x.state ≠ .Success := by rw [hst]; exact nofun
      rw [done_put_prove hnd hx (onProveTaskDst_taskId ..) hidle,
        onProveTaskDst_state, hst, hid]
      cases ht : t.state <;> simp [TaskState.settled]

/-- A prove task comes back; with SUCCESS it is done and cleared. -/
theorem Graph.proveIn (hs : Shape w) (hl : Leases w) (h : Graph feat w)
    {i : Nat} {c : ProveTask β} {r : Reply β} {now : Nat}
    {ps : List (ProveTask β)} {err e : Bool} {d : List (Task β)}
    (hc : w.proves[i]? = some c)
    (htaken : ProveTaken now (r.prove c) w.stage.proveTasks ps err) :
    Graph feat { w with
      stage := { w.stage with
        proveTasks := ps
        aggTasks := clearOn r.state c.taskId w.stage.aggTasks
        isError := e }
      proves := w.proves.eraseIdx i
      delivered := d } := by
  have hcm := List.mem_of_getElem? hc
  have hbusy : ∀ x ∈ w.stage.proveTasks, x.taskId = (r.prove c).taskId →
      x.state = .Processing := fun x hx hid => hl.prove.busy c hcm x hx hid
  have hkeys := htaken.ids
  have hitems := map_clearOn (fun a : AggTask β => a.item) (fun _ _ => rfl)
    r.state c.taskId w.stage.aggTasks
  refine ⟨?_, ?_, ?_, ?_, ?_⟩
  · intro hd hcomp
    show clearOn _ _ _ = []
    rw [h.composite hd hcomp, clearOn_nil]
  · intro hd hcomp
    obtain ⟨base, next, hfin, hlt, hclt⟩ := h.planned hd hcomp
    refine ⟨base, next, ?_, forall_key (P := (· < base)) hkeys hlt,
      fun x hx => hclt x (List.mem_of_mem_eraseIdx hx)⟩
    show Finished (ps.map (·.taskId)) base next
      ((clearOn r.state c.taskId w.stage.aggTasks).map (·.item))
    rw [hkeys, hitems]
    exact hfin
  · intro a ha hf
    obtain ⟨b, hb, _, rfl⟩ := mem_clearOn ha
    exact h.pseudo b hb hf
  · intro t ht htd
    cases htaken with
    | miss _ => exact h.deferred t ht htd
    | hit x hx hid hst =>
        rcases mem_put.mp ht with ⟨ht, _⟩ | ⟨rfl, _⟩
        · exact h.deferred t ht htd
        · rw [(onProveTaskDst_fixed _ _ _).2.1] at htd
          exact nomatch hst.symm.trans (h.deferred x hx htd)
  · show Listed (Done ps (clearOn r.state c.taskId w.stage.aggTasks))
      (clearOn r.state c.taskId w.stage.aggTasks)
    rcases h.cases hs with hnil | ⟨base, next, hfin, hlt, hclt⟩
    · rw [hnil, clearOn_nil]
      exact .nil
    have hdone : ∀ a ∈ clearOn r.state c.taskId w.stage.aggTasks,
        ∀ j ∈ a.inputs,
        Done ps (clearOn r.state c.taskId w.stage.aggTasks) j.src
          ↔ Done w.stage.proveTasks w.stage.aggTasks j.src
            ∨ (r.state = .Success ∧ j.src = .leaf c.taskId) := by
      intro a ha j hj
      obtain ⟨b, hb, _, rfl⟩ := mem_clearOn ha
      rw [done_congr (map_clearOn _ (fun _ _ => rfl) _ _ _)]
      refine done_taken hs.prove_nodup hbusy htaken j.src ?_
      intro id hid
      rcases hfin.plan.src_cases hb hj with ⟨l, hl, hsrc⟩ | ⟨d, _, _, _, hsrc⟩
      · rw [hsrc] at hid
        cases hid
        exact List.mem_map.mp hl
      · rw [hsrc] at hid
        exact nomatch hid
    by_cases hst : r.state = .Success
    · have hclear : clearOn r.state c.taskId w.stage.aggTasks
          = w.stage.aggTasks.replaceF (AggTask.clearChildTask c.taskId) :=
        if_pos hst
      have hcl := h.listed.clear (h.wired hs) (.leaf c.taskId)
        fun a ha j hj hid => hfin.plan.src_leaf (hclt c hcm) ha hj hid
      rw [hclear] at hdone ⊢
      refine hcl.congr ?_
      intro a ha j hj
      rw [hdone a ha j hj]
      simp [hst]
    · have hclear : clearOn r.state c.taskId w.stage.aggTasks
          = w.stage.aggTasks := if_neg hst
      rw [hclear] at hdone ⊢
      refine h.listed.congr ?_
      intro a ha j hj
      rw [hdone a ha j hj]
      simp [hst]

/-- An agg task comes back; with SUCCESS it is done and cleared. -/
theorem Graph.aggIn (hs : Shape w) (hl : Leases w) (h : Graph feat w)
    {i : Nat} {c : AggTask β} {r : Reply β} {now : Nat}
    {as : List (AggTask β)} {err e : Bool} {file : Option β}
    {d : List (Task β)} (hc : w.aggs[i]? = some c)
    (htaken : AggTaken now (r.agg c) w.stage.aggTasks as err) :
    Graph feat { w with
      stage := { w.stage with
        aggTasks := clearOn r.state c.taskId as
        isError := e }
      aggs := w.aggs.eraseIdx i
      snarkFile := file
      delivered := d } := by
  have hcm := List.mem_of_getElem? hc
  obtain ⟨x, hx, hid⟩ := hl.known c hcm
  have hst := hl.agg.busy c hcm x hx hid
  have hidle : x.state ≠ .Success := by
    show x.state ≠ _
    rw [show x.state = .Processing from hst]
    rintro ⟨⟩
  cases htaken with
  | miss hmiss => exact absurd hst (hmiss x hx hid)
  | hit y hy hyid _ =>
  have hxy := eq_of_key hs.agg_nodup hy hx (hyid.trans hid.symm)
  subst hxy
  have hkey : (onAggTaskDst now (r.agg c) y).taskId = y.taskId :=
    onTask_taskId ..
  have hzst : (onAggTaskDst now (r.agg c) y).state = .Success
      ↔ r.state = .Success := by
    show (onTask now (r.agg c).toTaskHead y.toTaskHead).state = _ ↔ _
    rw [onTask_state, show y.state = .Processing from hst]
    show (if r.state.settled then r.state else _) = _ ↔ _
    cases r.state <;> simp [TaskState.settled]
  have hreal : y.fromProve = false := by
    cases hf : y.fromProve with
    | false => rfl
    | true => exact absurd (h.pseudo y hy hf).1 hidle
  have hpend : y.pending = [] := by
    refine List.eq_nil_iff_forall_not_mem.mpr fun k hk => ?_
    cases (h.listed.waits y hy k hk).symm.trans hst
  have hput : (put (fun a => a.taskId) (onAggTaskDst now (r.agg c) y)
      w.stage.aggTasks).map (·.item) = w.stage.aggTasks.map (·.item) :=
    map_put_of_mem _ hs.agg_nodup hy hkey (by
      rw [AggTask.item, hkey]
      rfl)
  have hitems := (map_clearOn (fun a : AggTask β => a.item) (fun _ _ => rfl)
    r.state c.taskId (put (fun a => a.taskId) (onAggTaskDst now (r.agg c) y)
      w.stage.aggTasks)).trans hput
  refine ⟨?_, ?_, ?_, h.deferred, ?_⟩
  · intro hd hcomp
    rw [h.composite hd hcomp] at hy
    cases hy
  · intro hd hcomp
    obtain ⟨base, next, hfin, hlt, hclt⟩ := h.planned hd hcomp
    exact ⟨base, next, hitems.symm ▸ hfin, hlt, hclt⟩
  · intro a ha hf
    obtain ⟨b, hb, _, rfl⟩ := mem_clearOn ha
    rcases (mem_put_of_mem hy hkey).mp hb with rfl | ⟨hb, _⟩
    · cases hf.symm.trans hreal
    · exact h.pseudo b hb hf
  · generalize hz : onAggTaskDst now (r.agg c) y = z at *
    show Listed (Done w.stage.proveTasks (clearOn r.state c.taskId
        (put (fun a => a.taskId) z w.stage.aggTasks)))
      (clearOn r.state c.taskId (put (fun a => a.taskId) z w.stage.aggTasks))
    have hmid := h.listed.put hy hkey (by rw [← hz]; rfl) (by rw [← hz]; rfl)
      (Or.inr hpend)
    have hdone : ∀ s, Done w.stage.proveTasks (clearOn r.state c.taskId
          (put (fun a => a.taskId) z w.stage.aggTasks)) s
        ↔ Done w.stage.proveTasks w.stage.aggTasks s
          ∨ (r.state = .Success ∧ s = .node c.taskId) := by
      intro s
      rw [done_congr (map_clearOn _ (fun _ _ => rfl) _ _ _),
        done_put_agg hs.agg_nodup hy hkey hidle, hzst,
        show y.taskId = c.taskId from hyid]
    by_cases hsucc : r.state = .Success
    · rcases h.cases hs with hnil | ⟨base, next, hfin, hlt, hclt⟩
      · rw [hnil] at hy
        cases hy
      have hplan := hfin.plan
      rw [← hput] at hplan
      have hclear : clearOn r.state c.taskId
          (put (fun a => a.taskId) z w.stage.aggTasks)
          = (put (fun a => a.taskId) z w.stage.aggTasks).replaceF
              (AggTask.clearChildTask c.taskId) := if_pos hsucc
      have hzmem : z ∈ put (fun a => a.taskId) z w.stage.aggTasks :=
        mem_put.mpr (Or.inr ⟨rfl, y, hy, hkey.symm⟩)
      have hzid : z.taskId = c.taskId := hkey.trans hyid
      have hcl := hmid.clear (hplan.wired hs.prove_nodup (ids_lt hlt))
        (.node c.taskId) (by
          intro a ha j hj hid
          rw [hplan.src_node (ids_lt hlt) hzmem
            (by rw [← hz]; exact hreal) ha hj (hid.trans hzid.symm), hzid])
      rw [hclear] at hdone ⊢
      refine hcl.congr ?_
      intro a _ j _
      rw [hdone]
      simp [hsucc]
    · have hclear : clearOn r.state c.taskId
          (put (fun a => a.taskId) z w.stage.aggTasks)
          = put (fun a => a.taskId) z w.stage.aggTasks := if_neg hsucc
      rw [hclear] at hdone ⊢
      refine hmid.congr ?_
      intro a _ j _
      rw [hdone]
      simp [hsucc]

/-- **GRAPH**: moves keep the graph. -/
theorem Graph.moved [Blob β] (hs : Shape w) (hl : Leases w) (h : Graph feat w)
    (hm : Moved feat w w') : Graph feat w' := by
  cases hm with
  | grow new _ hdone _ hg =>
      have hnil := (hs.early hdone).1
      refine ⟨fun hd => ?_, fun hd => ?_, h.pseudo, ?_, ?_⟩
      · exact nomatch hdone.symm.trans hd
      · exact nomatch hdone.symm.trans hd
      · intro t ht htd
        rcases List.mem_append.mp ht with ht | ht
        · exact h.deferred t ht htd
        · obtain ⟨program, id, no, rfl⟩ := hg.mem ht
          exact nomatch htd
      · show Listed _ w.stage.aggTasks
        rw [hnil]
        exact .nil
  | finalise s listing hf => exact h.finalise hs hf
  | splitIn i c r now _ =>
      exact ⟨h.composite, h.planned, h.pseudo, h.deferred, h.listed⟩
  | proveOut now x t hx hwait ht => exact h.proveOut hs hx hwait ht
  | proveIn i c t r now ps err hc htaken _ _ => exact h.proveIn hs hl hc htaken
  | aggOut now x t inputs hx hnone hwait ht _ =>
      exact h.aggOut hs hx hnone hwait ht _
  | aggIn i c t r now as err file hc htaken _ _ _ =>
      exact h.aggIn hs hl hc htaken
  | _ => exact ⟨h.composite, h.planned, h.pseudo, h.deferred, h.listed⟩

/-- In every reachable state children are the inputs that are not done. -/
theorem Reachable.graph [Blob β] {g : GenerateTask β}
    (h : Reachable feat g w) : Graph feat w := by
  have hboth : Leases w ∧ Graph feat w :=
    h.inv (I := fun w => Leases w ∧ Graph feat w)
      (fun file => ⟨Leases.start g file, Graph.start g file⟩)
      fun _ _ hs hi hm => ⟨hi.1.moved hs hm, hi.2.moved hs hi.1 hm⟩
  exact hboth.2

end ZkmProver
