import ZkmProver.Graph

/-! # The shape of the plan — every task has one reader, the last has none

    What a finished plan looks like from the outside, for either build: each
    prove task and each agg task but the last is an input of exactly one agg
    task, a later one for an agg task, and the last task is the root of a tree
    over all prove tasks in order (`Tree`).  The flags and the counts that only
    one build has are read off the tasks as they are planned. -/

namespace ZkmProver

open Forest Keyed

variable {β : Type}

/-! ## Readers -/

/-- Some input of the task names `s`. -/
def AggTask.reads (a : AggTask β) (s : Src Nat) : Prop :=
  ∃ i ∈ a.inputs, i.src = s

/-- The task at position `j` reads `s`, and no other one does. -/
structure ReadAt (as : List (AggTask β)) (s : Src Nat) (j : Nat) : Prop where
  lt   : j < as.length
  only : ∀ (k : Nat) (a : AggTask β), as[k]? = some a → (a.reads s ↔ k = j)

/-- One reader each, up to the root over the leaves `ls`. -/
structure Tree (ls : List Nat) (as : List (AggTask β)) : Prop where
  leaf  : ∀ l ∈ ls, ∃ j, ReadAt as (.leaf l) j
  inner : ∀ (i : Nat) (a : AggTask β), as[i]? = some a → a.fromProve = false →
    i + 1 < as.length → ∃ j, i < j ∧ ReadAt as (.node a.taskId) j
  root  : ∀ z, as.getLast? = some z → (∀ a ∈ as, ¬ a.reads (.node z.taskId)) ∧
    leaves (planNodes (as.map (·.item))) (.node z.taskId) = ls
  final : ∀ (i : Nat) (a : AggTask β), as[i]? = some a →
    (a.isFinal = true ↔ i + 1 = as.length)

/-- A task reads what its node has as sources. -/
theorem reads_iff {a : AggTask β} {s : Src Nat} :
    a.reads s ↔ s ∈ a.item.node.srcs :=
  List.mem_map.symm

/-- Positions of a table are told apart by the keys. -/
theorem getElem?_key_inj {as : List (AggTask β)}
    (hids : (as.map (·.taskId)).Nodup) {i k : Nat} {a b : AggTask β}
    (ha : as[i]? = some a) (hb : as[k]? = some b) :
    a.taskId = b.taskId ↔ i = k := by
  have hlt : i < (as.map (·.taskId)).length := by
    rw [List.length_map]
    exact (List.getElem?_eq_some_iff.mp ha).1
  rw [← List.getElem?_inj hlt hids, List.getElem?_map, List.getElem?_map, ha,
    hb, Option.map_some, Option.map_some, Option.some.injEq]

section

variable {ls : List Nat} {base next : Nat} {as : List (AggTask β)}
  {row : List (Src Nat)} {s : Src Nat}

/-- The task that reads `s`, if one is there, is alone. -/
theorem ReadAt.last {s : Src Nat} {j : Nat} (h : ReadAt as s j) :
    ∃ z, as.getLast? = some z := by
  cases hz : as.getLast? with
  | none =>
      have hlt := h.lt
      rw [List.getLast?_eq_none_iff.mp hz] at hlt
      exact absurd hlt (Nat.not_lt_zero _)
  | some z => exact ⟨z, rfl⟩

/-- Two tasks that read one source are one task. -/
theorem ReadAt.eq {j : Nat} (h : ReadAt as s j) {a b : AggTask β}
    (ha : a ∈ as) (hb : b ∈ as) (hsa : a.reads s) (hsb : b.reads s) : a = b := by
  obtain ⟨i, hi⟩ := List.getElem?_of_mem ha
  obtain ⟨k, hk⟩ := List.getElem?_of_mem hb
  rw [(h.only i a hi).mp hsa] at hi
  rw [(h.only k b hk).mp hsb] at hk
  exact Option.some.inj (hi.symm.trans hk)

/-- The numbers of a plan are distinct. -/
theorem Plan.ids_inj (h : Plan ls base next (as.map (·.item)) row) :
    (as.map (·.taskId)).Nodup := by
  have hall := h.nodup
  rwa [List.map_map] at hall

/-- A source of the plan has one reader. -/
theorem Plan.readAt (h : Plan ls base next (as.map (·.item)) row)
    (hnd : ls.Nodup)
    (hs : s ∈ (planNodes (as.map (·.item))).flatMap Node.srcs) :
    ∃ j, ReadAt as s j := by
  obtain ⟨n, hn, hsn⟩ := List.mem_flatMap.mp hs
  obtain ⟨item, hitem, _, rfl⟩ := mem_planNodes.mp hn
  obtain ⟨a, ha, rfl⟩ := List.mem_map.mp hitem
  obtain ⟨j, hj⟩ := List.getElem?_of_mem ha
  have hids := h.ids_inj
  obtain ⟨hlt, _⟩ := List.getElem?_eq_some_iff.mp hj
  refine ⟨j, hlt, fun k b hk => ⟨fun hb => ?_, fun hkj => ?_⟩⟩
  · obtain ⟨i, hi, hib⟩ := hb
    have hsb : s ∈ b.item.node.srcs := hib ▸ mem_srcs hi
    have hnode : b.item.node = a.item.node := h.built.consumer hnd
      (h.real (List.mem_of_getElem? hk) hi).2 hn hsb hsn
    exact (getElem?_key_inj hids hk hj).mp (congrArg Node.id hnode)
  · rw [hkj, hj] at hk
    cases hk
    exact reads_iff.mpr hsn

/-- No task reads itself or a later one. -/
theorem Plan.forward (h : Plan ls base next (as.map (·.item)) row) :
    (∀ a ∈ as, ¬ a.reads (.node a.taskId)) ∧
      as.Pairwise fun a b => b.fromProve = false →
        ¬ a.reads (.node b.taskId) := by
  obtain ⟨hself, hlater⟩ := h.built.forward
  refine ⟨?_, ?_⟩
  · intro a ha hread
    obtain ⟨i, hi, _⟩ := id hread
    exact hself _ (h.real ha hi).2 (reads_iff.mp hread)
  · rw [planNodes, List.pairwise_map, List.pairwise_filter,
      List.pairwise_map] at hlater
    refine hlater.imp_of_mem (fun {a b} ha _ hab hb hread => ?_)
    obtain ⟨i, hi, _⟩ := id hread
    have hreal : a.item.fromProve = false := (h.real ha hi).1
    have hrealb : b.item.fromProve = false := hb
    exact hab (by rw [hreal]; rfl) (by rw [hrealb]; rfl) (reads_iff.mp hread)

/-- Sources and the root are the leaves and the nodes. -/
theorem Finished.mem_sources (h : Finished ls base next (as.map (·.item)))
    {z : AggTask β} (hz : as.getLast? = some z) (hreal : z.fromProve = false)
    (hs : (∃ l ∈ ls, s = .leaf l) ∨
      ∃ a ∈ as, a.fromProve = false ∧ s = .node a.taskId)
    (hroot : s ≠ .node z.taskId) :
    s ∈ (planNodes (as.map (·.item))).flatMap Node.srcs := by
  have hmem : s ∈ ls.map Src.leaf
      ++ (planNodes (as.map (·.item))).map fun n => Src.node n.id := by
    rw [List.mem_append, List.mem_map, List.mem_map]
    rcases hs with ⟨l, hl, rfl⟩ | ⟨a, ha, hfrom, rfl⟩
    · exact Or.inl ⟨l, hl, rfl⟩
    · exact Or.inr ⟨a.item.node,
        mem_planNodes.mpr ⟨a.item, List.mem_map_of_mem ha, hfrom, rfl⟩, rfl⟩
  rw [← h.plan.built.balance.mem_iff] at hmem
  rcases List.mem_append.mp hmem with hsrc | hlast
  · exact hsrc
  · rw [List.getLast?_map, hz] at hlast
    have hroots : s = z.item.root := List.mem_singleton.mp hlast
    rw [Item.root, show z.item.fromProve = false from hreal] at hroots
    exact absurd hroots hroot

/-- The reader of a task other than the last comes later. -/
theorem Finished.reader (h : Finished ls base next (as.map (·.item)))
    (hnd : ls.Nodup) {z a : AggTask β} (hz : as.getLast? = some z)
    (hreal : z.fromProve = false) {i : Nat} (ha : as[i]? = some a)
    (hfrom : a.fromProve = false) (hlt : i + 1 < as.length) :
    ∃ j, i < j ∧ ReadAt as (.node a.taskId) j := by
  have hids := h.plan.ids_inj
  have hmem := List.mem_of_getElem? ha
  have hroot : Src.node a.taskId ≠ .node z.taskId := by
    intro hsame
    rw [List.getLast?_eq_getElem?] at hz
    have := (getElem?_key_inj hids ha hz).mp (Src.node.inj hsame)
    omega
  obtain ⟨j, hj⟩ := h.plan.readAt hnd
    (h.mem_sources hz hreal (Or.inr ⟨a, hmem, hfrom, rfl⟩) hroot)
  refine ⟨j, ?_, hj⟩
  obtain ⟨hself, hlater⟩ := h.plan.forward
  have hjlt := hj.lt
  have hread := (hj.only j as[j] (List.getElem?_eq_getElem hjlt)).mpr rfl
  obtain ⟨hi, rfl⟩ := List.getElem?_eq_some_iff.mp ha
  rcases Nat.lt_trichotomy i j with hij | rfl | hji
  · exact hij
  · exact absurd hread (hself _ hmem)
  · have hnot := List.pairwise_iff_getElem.mp hlater j i hjlt hi hji
    exact absurd hread (hnot hfrom)

/-- **A FINISHED PLAN IS A TREE**. -/
theorem Finished.tree (h : Finished ls base next (as.map (·.item)))
    (hnd : ls.Nodup)
    (hreal : ∀ z, as.getLast? = some z → z.fromProve = false) : Tree ls as := by
  have hbuilt := h.plan.built
  rw [List.getLast?_map] at hbuilt
  refine ⟨?_, ?_, ?_, ?_⟩
  · intro l hl
    cases hz : as.getLast? with
    | none =>
        -- no task and no root, so no leaf
        have hnone := hbuilt.order
        rw [hz] at hnone
        rw [← hnone] at hl
        exact absurd hl List.not_mem_nil
    | some z =>
        exact h.plan.readAt hnd (h.mem_sources hz (hreal z hz)
          (Or.inl ⟨l, hl, rfl⟩) fun hs => by cases hs)
  · intro i a ha hfrom hlt
    cases hz : as.getLast? with
    | none =>
        rw [List.getLast?_eq_none_iff.mp hz] at hlt
        exact absurd hlt (Nat.not_lt_zero _)
    | some z => exact h.reader hnd hz (hreal z hz) ha hfrom hlt
  · intro z hz
    have hroot : z.item.root = .node z.taskId := by
      rw [Item.root, show z.item.fromProve = false from hreal z hz]
      rfl
    rw [hz, Option.map_some, Option.toList_some, List.map_singleton, hroot]
      at hbuilt
    refine ⟨?_, ?_⟩
    · intro a ha hread
      obtain ⟨i, hi, _⟩ := id hread
      have hsrc := List.mem_flatMap.mpr
        ⟨_, (h.plan.real ha hi).2, reads_iff.mp hread⟩
      exact (List.nodup_append.mp (hbuilt.nodup_srcs hnd)).2.2 _ hsrc _
        (List.mem_singleton_self _) rfl
    · have horder := hbuilt.order
      rwa [List.flatMap_singleton] at horder
  · intro i a ha
    obtain ⟨hi, rfl⟩ := List.getElem?_eq_some_iff.mp ha
    obtain rfl | ⟨before, z, rfl⟩ := List.eq_nil_or_concat as
    · exact absurd hi (Nat.not_lt_zero _)
    · have hitems : (before.concat z).map (·.item)
          = before.map (·.item) ++ [z.item] := by
        rw [List.concat_eq_append, List.map_append]
        rfl
      obtain ⟨hlast, hbefore⟩ := h.final _ _ hitems
      rw [List.length_concat] at hi ⊢
      rcases Nat.lt_or_ge i before.length with hlt | hge
      · have hmem : (before.concat z)[i] ∈ before := by
          simp only [List.concat_eq_append, List.getElem_append_left hlt]
          exact List.getElem_mem hlt
        have hnot : ((before.concat z)[i]).isFinal = false :=
          hbefore _ (List.mem_map_of_mem hmem)
        rw [hnot]
        exact ⟨fun hf => (by cases hf), fun hlen => (by omega)⟩
      · have hi' : i = before.length := by omega
        subst hi'
        have hz : (before.concat z)[before.length] = z := by
          simp [List.concat_eq_append]
        rw [hz]
        exact ⟨fun _ => rfl, fun _ => hlast⟩

/-- Marking the last task changes nothing else. -/
theorem map_markFinal {γ : Type} (f : AggTask β → γ)
    (h : ∀ a, f { a with isFinal := true } = f a) (l : List (AggTask β)) :
    (markFinal l).map f = l.map f := by
  rcases List.eq_nil_or_concat l with rfl | ⟨before, a, rfl⟩
  · rfl
  · rw [List.concat_eq_append, markFinal_concat, List.map_append,
      List.map_append, List.map_singleton, List.map_singleton, h]

/-- Marking adds no task and drops none. -/
theorem length_markFinal (l : List (AggTask β)) :
    (markFinal l).length = l.length := by
  have hmap := congrArg List.length (map_markFinal (fun _ => ()) (fun _ => rfl) l)
  rwa [List.length_map, List.length_map] at hmap

/-- What holds of the tasks holds of the marked list, if the mark keeps it. -/
theorem forall_markFinal {P : AggTask β → Prop}
    (h : ∀ a, P a → P { a with isFinal := true }) {l : List (AggTask β)}
    (hl : ∀ a ∈ l, P a) : ∀ a ∈ markFinal l, P a := by
  intro b hb
  obtain ⟨a, ha, rfl | rfl⟩ := mem_markFinal hb
  · exact hl b ha
  · exact h a (hl a ha)

end

/-! ## Feature `prover` -/

/-- The shape of the plan over `ps`: pairs all the way up. -/
structure PairShape (ps : List (ProveTask β)) (as : List (AggTask β)) :
    Prop where
  length : as.length = ps.length - 1 + ps.length % 2
  states : ∀ a ∈ as, a.state = .Success ∨ a.state = .Unprocessed
  waits  : ∀ a ∈ as, a.state ≠ .Success → a.inputs.length = 2 ∧
    a.childs = a.inputs.map fun i => some i.computedRequestId
  leaf   : ∀ t ∈ ps, ∃ (j : Nat) (a : AggTask β), as[j]? = some a ∧
    a.state ≠ .Success ∧ ReadAt as (.leaf t.taskId) j
  inner  : ∀ (i : Nat) (a : AggTask β), as[i]? = some a →
    a.state = .Unprocessed → i + 1 < as.length →
    ∃ j, i < j ∧ ReadAt as (.node a.taskId) j
  root   : ∃ z, as.getLast? = some z ∧ z.state = .Unprocessed ∧
    leaves (planNodes (as.map (·.item))) (.node z.taskId) = ps.map (·.taskId)
  final  : ∀ (i : Nat) (a : AggTask β), as[i]? = some a →
    (a.isFinal = true ↔ i + 1 = as.length)
  pseudo : (as.filter fun a => a.state = .Success).length = ps.length % 2 ∧
    ∀ a ∈ as, a.state = .Success →
      (∃ t ∈ ps, t.taskId = a.taskId) ∧
      ∀ b ∈ as, ¬ b.reads (.node a.taskId)

section

variable [Blob β]

/-- Pairing a layer up takes one task fewer than it has elements. -/
theorem length_aggLayers :
    ∀ (fuel uuid i : Nat) (layer : List (AggTask β)), layer.length ≤ fuel →
      (aggLayers fuel uuid i layer).length = layer.length - 1 := by
  intro fuel
  induction fuel with
  | zero =>
      intro uuid i layer hlen
      rw [Nat.le_zero.mp hlen]
      rfl
  | succ fuel ih =>
      intro uuid i layer hlen
      rw [aggLayers, layersOver]
      by_cases hmore : 1 < layer.length
      · have hpairs : (pairAggTasks uuid i layer).length = layer.length / 2 :=
          length_pairUp uuid i layer
        have hodd := length_oddLast layer
        have hrest := ih (uuid + (pairAggTasks uuid i layer).length)
          (i + (pairAggTasks uuid i layer).length)
          (pairAggTasks uuid i layer ++ (oddLast layer).toList)
          (by rw [List.length_append]; omega)
        rw [aggLayers] at hrest
        rw [if_pos hmore]
        dsimp only
        rw [List.length_append, hrest, List.length_append]
        omega
      · rw [if_neg hmore]
        simp only [List.length_nil]
        omega

/-- A task that is not the pseudo one reads two. -/
def Paired (a : AggTask β) : Prop :=
  a.state = .Unprocessed ∧ a.fromProve = false ∧ a.inputs.length = 2 ∧
    a.childs = a.inputs.map fun i => some i.computedRequestId

/-- The build under `prover`, layer by layer. -/
theorem genAggTasksV1_eq {s : Stage β} (hne : s.proveTasks ≠ [])
    (hnil : s.aggTasks = []) :
    ∃ s' layers, s.genAggTasksV1 = some s' ∧
      (∀ a ∈ layers, Paired a) ∧
      layers.length = s.proveTasks.length / 2 + s.proveTasks.length % 2 - 1 ∧
      s'.aggTasks = markFinal (pairProveTasks s.uuid 0 s.proveTasks
        ++ (oddLast s.proveTasks).toList.map
            (fun t => AggTask.initFromSingleProveTask t
              ((pairProveTasks s.uuid 0 s.proveTasks).length + 1))
        ++ layers) := by
  have hsome : s.proveTasks.isEmpty = false := by
    rw [List.isEmpty_eq_false_iff]
    exact hne
  have hlen : (pairProveTasks s.uuid 0 s.proveTasks).length
      = s.proveTasks.length / 2 := length_pairUp s.uuid 0 s.proveTasks
  have hodd := length_oddLast s.proveTasks
  rw [Stage.genAggTasksV1, hsome, if_neg Bool.false_ne_true]
  dsimp only
  rw [Option.toList_map, hnil, List.nil_append]
  refine ⟨_, _, rfl, ?_, ?_, rfl⟩
  · refine layersOver_forall (Q := fun _ => True) ?_ (fun _ _ _ _ => trivial)
      (fun _ _ => trivial) _ _ _ _ fun _ _ => trivial
    exact fun uuid i l _ => pairUp_forall (P := Paired)
      (fun _ _ _ _ => ⟨rfl, rfl, rfl, rfl⟩) uuid i l
  · rw [length_aggLayers _ _ _ _ (Nat.le_refl _), List.length_append,
      List.length_map, hlen, hodd]

omit [Blob β] in
/-- Tasks by their state: pseudo ones are done, the others wait. -/
theorem Planned.cases_state {ps : List (ProveTask β)} {a : AggTask β}
    (h : Planned ps a) :
    (a.state = .Success ∧ a.fromProve = true ∧ a.inputs = []) ∨
      (a.state = .Unprocessed ∧ a.fromProve = false) := by
  cases h with
  | pseudo hfrom hin _ hst => exact Or.inl ⟨hst, hfrom, hin⟩
  | waits hfrom hst _ => exact Or.inr ⟨hst, hfrom⟩
  | deferred hfrom hst _ _ => exact Or.inr ⟨hst, hfrom⟩

omit [Blob β] in
/-- With two leaves or more the root is a node. -/
theorem Finished.last_real {ls : List Nat} {base next : Nat}
    {as : List (AggTask β)} (h : Finished ls base next (as.map (·.item)))
    (htwo : 2 ≤ ls.length) {z : AggTask β} (hz : as.getLast? = some z) :
    z.fromProve = false := by
  cases hfrom : z.fromProve with
  | false => rfl
  | true =>
      have horder := h.plan.built.order
      have hroot : z.item.root = .leaf z.taskId := by
        rw [Item.root, show z.item.fromProve = true from hfrom]
        rfl
      rw [List.getLast?_map, hz, Option.map_some, Option.toList_some,
        List.map_singleton, List.flatMap_singleton, hroot, leaves_leaf] at horder
      rw [← horder] at htwo
      exact absurd htwo (by simp)

omit [Blob β] in
/-- A pseudo task is named after a leaf, and no task reads it as a node. -/
theorem Finished.pseudo_unread {ls : List Nat} {base next : Nat}
    {as : List (AggTask β)} (h : Finished ls base next (as.map (·.item)))
    (hls : ∀ l ∈ ls, l < base) {a : AggTask β} (ha : a ∈ as)
    (hfrom : a.fromProve = true) :
    a.taskId ∈ ls ∧ ∀ b ∈ as, ¬ b.reads (.node a.taskId) := by
  have hid : a.taskId ∈ ls :=
    (h.plan.pseudo a.item (List.mem_map_of_mem ha) hfrom).1
  refine ⟨hid, ?_⟩
  rintro b hb ⟨i, hi, hsrc⟩
  rcases h.plan.src_cases hb hi with ⟨l, _, hl⟩ | ⟨c, _, _, hle, hc⟩
  · cases hsrc.symm.trans hl
  · -- the nodes that are read have ids from `base` on
    have hca := Src.node.inj (hsrc.symm.trans hc)
    have := hls _ hid
    omega

omit [Blob β] in
/-- The mark makes no task successful. -/
theorem length_filter_markFinal (l : List (AggTask β)) :
    ((markFinal l).filter fun a => a.state = .Success).length
      = (l.filter fun a => a.state = .Success).length := by
  have hcount : ∀ l : List (AggTask β),
      (l.filter fun a => a.state = .Success).length
        = (l.map (·.state)).countP fun st => st = .Success := by
    intro l
    rw [List.countP_map, List.countP_eq_length_filter]
    rfl
  rw [hcount, hcount, map_markFinal _ fun _ => rfl]

/-- **THE PLAN OF FEATURE `prover`**: for two or more prove tasks with
    distinct ids, and fresh ids for the agg tasks. -/
theorem pair_plan {s : Stage β} (hnd : (s.proveTasks.map (·.taskId)).Nodup)
    (hlt : ∀ t ∈ s.proveTasks, t.taskId < s.uuid) (hnil : s.aggTasks = [])
    (htwo : 2 ≤ s.proveTasks.length) :
    (∃ s', s.genAggTasksV1 = some s' ∧ PairShape s.proveTasks s'.aggTasks) ∧
    ∀ (fuel uuid i : Nat) (row : List (AggTask β)), row.length ≤ fuel →
      aggLayers fuel uuid i row = aggLayers row.length uuid i row := by
  refine ⟨?_, fun fuel uuid i row hfuel => layersOver_fuel
    pairAggTasks_grouping _ _ uuid i row hfuel (Nat.le_refl _)⟩
  have hls : ∀ l ∈ s.proveTasks.map (·.taskId), l < s.uuid := by
    intro l hl
    obtain ⟨t, ht, rfl⟩ := List.mem_map.mp hl
    exact hlt t ht
  have hne : s.proveTasks ≠ [] :=
    List.ne_nil_of_length_pos (Nat.lt_of_lt_of_le Nat.zero_lt_two htwo)
  obtain ⟨s', layers, hgen, hlayers, hlen, has⟩ := genAggTasksV1_eq hne hnil
  have hplanned := genAggTasksV1_planned hls hnil hgen
  have hlast := fun z hz => hplanned.finished.last_real (z := z)
    (by rw [List.length_map]; exact htwo) hz
  have htree := hplanned.finished.tree hnd hlast
  have hpairs : ∀ a ∈ pairProveTasks s.uuid 0 s.proveTasks, Paired a :=
    pairUp_forall (fun _ _ _ _ => ⟨rfl, rfl, rfl, rfl⟩) s.uuid 0 s.proveTasks
  have hcount : (pairProveTasks s.uuid 0 s.proveTasks).length
      = s.proveTasks.length / 2 := length_pairUp s.uuid 0 s.proveTasks
  have hodd := length_oddLast s.proveTasks
  refine ⟨s', hgen, ?_, ?_, ?_, ?_, ?_, ?_, ?_, ?_⟩
  · rw [has, length_markFinal, List.length_append, List.length_append,
      List.length_map, hcount, hodd, hlen]
    omega
  · intro a ha
    rcases (hplanned.planned a ha).cases_state with ⟨hst, _⟩ | ⟨hst, _⟩
    · exact Or.inl hst
    · exact Or.inr hst
  · rw [has]
    refine forall_markFinal (fun a h => h) ?_
    intro a ha hst
    rcases List.mem_append.mp ha with ha | ha
    · rcases List.mem_append.mp ha with ha | ha
      · exact (hpairs a ha).2.2
      · obtain ⟨t, _, rfl⟩ := List.mem_map.mp ha
        exact absurd rfl hst
    · exact (hlayers a ha).2.2
  · intro t ht
    obtain ⟨j, hj⟩ := htree.leaf t.taskId (List.mem_map_of_mem ht)
    have hjlt := hj.lt
    have hget := List.getElem?_eq_getElem hjlt
    refine ⟨j, s'.aggTasks[j], hget, ?_, hj⟩
    -- the reader has an input, so it is not the pseudo task
    obtain ⟨i, hi, _⟩ := (hj.only j _ hget).mpr rfl
    rcases (hplanned.planned _ (List.getElem_mem hjlt)).cases_state with
      ⟨_, _, hin⟩ | ⟨hst, _⟩
    · rw [hin] at hi
      exact absurd hi List.not_mem_nil
    · rw [hst]
      rintro ⟨⟩
  · intro i a ha hst hmore
    refine htree.inner i a ha ?_ hmore
    rcases (hplanned.planned a (List.mem_of_getElem? ha)).cases_state with
      ⟨hdone, _⟩ | ⟨_, hfrom⟩
    · cases hst.symm.trans hdone
    · exact hfrom
  · obtain ⟨t, ht⟩ := List.exists_mem_of_ne_nil _ hne
    obtain ⟨j, hj⟩ := htree.leaf t.taskId (List.mem_map_of_mem ht)
    obtain ⟨z, hz⟩ := hj.last
    refine ⟨z, hz, ?_, (htree.root z hz).2⟩
    rcases (hplanned.planned z (List.mem_of_getLast? hz)).cases_state with
      ⟨_, hfrom, _⟩ | ⟨hst, _⟩
    · cases (hlast z hz).symm.trans hfrom
    · exact hst
  · exact htree.final
  · refine ⟨?_, ?_⟩
    · have hnone : ∀ l : List (AggTask β), (∀ a ∈ l, Paired a) →
          (l.filter fun a => a.state = .Success) = [] := by
        intro l hl
        refine List.filter_eq_nil_iff.mpr (fun a ha => ?_)
        rw [(hl a ha).1]
        decide
      rw [has, length_filter_markFinal, List.filter_append,
        List.filter_append, hnone _ hpairs, hnone _ hlayers, List.nil_append,
        List.append_nil, List.filter_eq_self.mpr, List.length_map, hodd]
      intro a ha
      obtain ⟨t, _, rfl⟩ := List.mem_map.mp ha
      rfl
    · intro a ha hst
      rcases (hplanned.planned a ha).cases_state with ⟨_, hfrom, _⟩ | ⟨hno, _⟩
      · obtain ⟨hid, hunread⟩ := hplanned.finished.pseudo_unread hls ha hfrom
        obtain ⟨t, ht, htid⟩ := List.mem_map.mp hid
        exact ⟨⟨t, ht, htid⟩, hunread⟩
      · cases hst.symm.trans hno

end

/-- A stage with the prove tasks of the first segments, and no graph yet. -/
def ungrouped (ids : List Nat) : Stage (List UInt8) :=
  { Stage.new aggRequest with
    proveTasks := ids.map fun id =>
      segTask aggRequest
        { version := .Zkm, elfPath := "", blockData := [], blockNo := none
          segSize := 0, publicInputStream := [], privateInputStream := []
          targetStep := .Agg, compositeProof := false, receipts := []
          proofId := "", outputStream := [] } id id
    uuid := 10 }

/-- Three prove tasks: a pair, a pseudo task and the root. -/
theorem pair_plan_three :
    ∃ s', (ungrouped [4, 2, 7]).genAggTasksV1 = some s' ∧
      s'.aggTasks.length = 3 ∧ PairShape (ungrouped [4, 2, 7]).proveTasks
        s'.aggTasks := by
  obtain ⟨s', hgen, hshape⟩ := (pair_plan (s := ungrouped [4, 2, 7])
    (by decide) (by decide) rfl (by decide)).1
  exact ⟨s', hgen, hshape.length, hshape⟩

/-! ## Feature `prover_v2` -/

/-- The shape of the plan over `ps`: leaves, then batches of two. -/
structure BatchShape (ps : List (ProveTask β)) (as : List (AggTask β)) :
    Prop where
  leaf       : ∀ t ∈ ps, ∃ (j : Nat) (a : AggTask β), as[j]? = some a ∧
    a.isLeafLayer = true ∧ ReadAt as (.leaf t.taskId) j
  inner      : ∀ (i : Nat) (a : AggTask β), as[i]? = some a →
    i + 1 < as.length → ∃ j, i < j ∧ ReadAt as (.node a.taskId) j
  root       : ∃ z, as.getLast? = some z ∧
    (∀ a ∈ as, ¬ a.reads (.node z.taskId)) ∧
    leaves (planNodes (as.map (·.item))) (.node z.taskId)
      = ((ps.filter fun t => !t.isDeferred)
          ++ ps.filter fun t => t.isDeferred).map (·.taskId)
  final      : ∀ (i : Nat) (a : AggTask β), as[i]? = some a →
    (a.isFinal = true ↔ i + 1 = as.length)
  firstShard : ∀ a ∈ as, (a.isFirstShard = true ↔
    ∃ t, (ps.filter fun t => !t.isDeferred).head? = some t ∧
      a.reads (.leaf t.taskId))
  leafLayer  : ∀ a ∈ as, a.inputs ≠ [] ∧ (a.isLeafLayer = true ↔
    ∀ i ∈ a.inputs, ∃ t ∈ ps, i.src = .leaf t.taskId)
  deferred   : ∀ a ∈ as, (a.isDeferred = true ↔ a.isLeafLayer = true ∧
    ∀ i ∈ a.inputs, ∃ t ∈ ps, t.isDeferred = true ∧ i.src = .leaf t.taskId)
  index      : ∀ (i : Nat) (a : AggTask β), as[i]? = some a → a.aggIndex = i

section

variable [Blob β]

/-- How a task of the plan reads: a batch of normal prove tasks, a deferred
    one, or a batch of agg tasks. -/
inductive Batched (vk : β) (ps : List (ProveTask β)) (a : AggTask β) :
    Prop where
  | normal (k : Nat) (b : Batch (ProveTask β)) :
      (chunks firstLayerBatchSize
        (ps.filter fun t => !t.isDeferred))[k]? = some b →
      a.inputs = b.toList.map fromProveTask → a.vk = vk →
      a.isLeafLayer = true → a.isFirstShard = decide (k = 0) →
      a.isDeferred = false → Batched vk ps a
  | deferred (t : ProveTask β) : t ∈ (ps.filter fun t => t.isDeferred) →
      a.inputs = [fromProveTask t] →
      a.isLeafLayer = true → a.isFirstShard = false →
      a.isDeferred = true → Batched vk ps a
  | inner (b : Batch (AggTask β)) : a.inputs = b.toList.map AggTask.toAggInput →
      (∀ x ∈ b.toList, x.fromProve = false) →
      a.isLeafLayer = false → a.isFirstShard = false →
      a.isDeferred = false → Batched vk ps a

/-- A batch of agg tasks is no pseudo task and reads as the plan says. -/
theorem batchAggTasks_batched {vk : β} {ps : List (ProveTask β)} (uuid i : Nat)
    (l : List (AggTask β)) (hl : ∀ a ∈ l, a.fromProve = false) :
    ∀ a ∈ batchAggTasks uuid i l, a.fromProve = false ∧ Batched vk ps a := by
  refine forall_mapIdx
    (P := fun a : AggTask β => a.fromProve = false ∧ Batched vk ps a) ?_
  intro k b hb
  exact ⟨rfl, .inner b rfl (fun x hx => hl x (mem_of_mem_chunks hb hx))
    rfl rfl rfl⟩

/-- So does every task of the first layer. -/
theorem firstLayer_batched (vk : β) (ps : List (ProveTask β)) (uuid : Nat)
    (isComplete : Bool) :
    ∀ a ∈ firstLayer vk uuid isComplete (ps.filter fun t => !t.isDeferred)
        (ps.filter fun t => t.isDeferred),
      a.fromProve = false ∧ Batched vk ps a := by
  intro a ha
  rcases List.mem_append.mp ha with ha | ha
  · obtain ⟨k, hk, rfl⟩ := List.mem_mapIdx.mp ha
    exact ⟨rfl, .normal k _ (List.getElem?_eq_getElem hk) rfl rfl rfl rfl rfl⟩
  · obtain ⟨k, hk, rfl⟩ := List.mem_mapIdx.mp ha
    exact ⟨rfl, .deferred _ (List.getElem_mem hk) rfl rfl rfl rfl⟩

omit [Blob β] in
/-- Positions are numbered across the layers. -/
theorem layersOver_index
    {group : Nat → Nat → List (AggTask β) → List (AggTask β)}
    {carry : List (AggTask β) → List (AggTask β)}
    (h : ∀ uuid i l, (group uuid i l).map (·.aggIndex)
      = List.range' i (group uuid i l).length) :
    ∀ (fuel uuid i : Nat) (layer : List (AggTask β)),
      (layersOver group carry fuel uuid i layer).map (·.aggIndex)
        = List.range' i (layersOver group carry fuel uuid i layer).length := by
  intro fuel
  induction fuel with
  | zero => intro uuid i layer; rfl
  | succ fuel ih =>
      intro uuid i layer
      rw [layersOver]
      by_cases hmore : 1 < layer.length
      · rw [if_pos hmore]
        dsimp only
        rw [List.map_append, List.length_append, h, ih, List.range'_append_1]
      · rw [if_neg hmore]
        rfl

/-- The mark does not touch the batch. -/
theorem Batched.mark {vk : β} {ps : List (ProveTask β)} {a : AggTask β}
    (h : Batched vk ps a) : Batched vk ps { a with isFinal := true } := by
  cases h with
  | normal k b h1 h2 h3 h4 h5 h6 => exact .normal k b h1 h2 h3 h4 h5 h6
  | deferred t h1 h2 h3 h4 h5 => exact .deferred t h1 h2 h3 h4 h5
  | inner b h1 h2 h3 h4 h5 => exact .inner b h1 h2 h3 h4 h5

/-- The indices of the first layer count from zero. -/
theorem firstLayer_index (vk : β) (uuid : Nat) (isComplete : Bool)
    (normal deferred : List (ProveTask β)) :
    (firstLayer vk uuid isComplete normal deferred).map (·.aggIndex)
      = List.range' 0
          (firstLayer vk uuid isComplete normal deferred).length := by
  rw [firstLayer, List.map_append, List.length_append, ← List.range'_append_1,
    Nat.zero_add]
  exact congrArg₂ (· ++ ·)
    (mapIdx_ids (fun a : AggTask β => a.aggIndex)
      (fun k _ => (Nat.zero_add k).symm) _)
    (mapIdx_ids (fun a : AggTask β => a.aggIndex) (fun _ _ => rfl) _)

/-- Those of a layer above it count from `i`. -/
theorem batchAggTasks_index (uuid i : Nat) (l : List (AggTask β)) :
    (batchAggTasks uuid i l).map (·.aggIndex)
      = List.range' i (batchAggTasks uuid i l).length :=
  mapIdx_ids (fun a : AggTask β => a.aggIndex) (fun _ _ => rfl) _

/-- The first leaf reads the first normal prove task. -/
theorem firstLayer_firstShard (vk : β) (uuid : Nat) (isComplete : Bool)
    {normal : List (ProveTask β)} (deferred : List (ProveTask β))
    {t : ProveTask β} (ht : normal.head? = some t) :
    ∃ a ∈ firstLayer vk uuid isComplete normal deferred,
      a.isFirstShard = true ∧ a.reads (.leaf t.taskId) := by
  obtain ⟨rest, rfl⟩ := List.head?_eq_some_iff.mp ht
  obtain ⟨batches, hchunks⟩ := chunks_cons firstLayerBatchSize t rest
  refine ⟨AggTask.initFromProveTasks (uuid + 0) vk
    ⟨t, rest.take (firstLayerBatchSize - 1)⟩ 0 isComplete true false,
    List.mem_append_left _ ?_, rfl, ?_⟩
  · rw [leafLayer, hchunks, List.mapIdx_cons]
    exact List.mem_cons_self
  · exact ⟨fromProveTask t, List.mem_map_of_mem (Batch.head_mem _), rfl⟩

/-- What `gen_agg_tasks` plans, task by task. -/
theorem genAggTasksV2_eq {s s' : Stage β} {disk : Disk β}
    (hnil : s.aggTasks = []) (h : s.genAggTasksV2 disk = some s') :
    ∃ vk, disk.read (s.generateTask.baseDir ++ "/vk.bin") = some vk ∧
      (∀ a ∈ s'.aggTasks, a.fromProve = false ∧ Batched vk s.proveTasks a) ∧
      s'.aggTasks.map (·.aggIndex) = List.range' 0 s'.aggTasks.length ∧
      ∀ t, (s.proveTasks.filter fun t => !t.isDeferred).head? = some t →
        ∃ a ∈ s'.aggTasks, a.isFirstShard = true ∧
          a.reads (.leaf t.taskId) := by
  rw [Stage.genAggTasksV2, Option.map_eq_some_iff] at h
  obtain ⟨vk, hvk, h⟩ := h
  refine ⟨vk, hvk, ?_⟩
  simp only [hnil, List.nil_append] at h
  generalize ((s.proveTasks.filter fun t => !t.isDeferred).length = 1 &&
    (s.proveTasks.filter fun t => t.isDeferred).isEmpty : Bool) = c at h
  have hfirst := firstLayer_batched vk s.proveTasks s.uuid c
  cases h
  refine ⟨?_, ?_, ?_⟩
  · refine forall_markFinal
      (P := fun a => a.fromProve = false ∧ Batched vk s.proveTasks a)
      (fun a h => ⟨h.1, h.2.mark⟩) ?_
    intro a ha
    rcases List.mem_append.mp ha with ha | ha
    · exact hfirst a ha
    · exact layersOver_forall (Q := fun a => a.fromProve = false)
        (fun uuid i l hl => batchAggTasks_batched uuid i l hl)
        (fun _ _ => List.forall_mem_nil _) (fun _ h => h.1) _ _ _ _
        (fun b hb => (hfirst b hb).1) a ha
  · rw [map_markFinal _ fun _ => rfl, length_markFinal, List.map_append,
      firstLayer_index, aggLayersV2, layersOver_index batchAggTasks_index,
      List.length_append, ← List.range'_append_1, Nat.zero_add]
  · intro t ht
    obtain ⟨a, ha, hshard, hread⟩ := firstLayer_firstShard vk s.uuid c
      (s.proveTasks.filter fun t => t.isDeferred) ht
    obtain ⟨b, hb, hsame⟩ := exists_key
      (map_markFinal (fun a => (a.isFirstShard, a.inputs)) (fun _ => rfl) _)
      (List.mem_append_left _ ha)
    obtain ⟨hshardb, hinputs⟩ := Prod.mk.inj hsame
    refine ⟨b, hb, hshardb.trans hshard, ?_⟩
    rw [AggTask.reads, hinputs]
    exact hread

/-- The inputs of a planned task and its flags. -/
theorem Batched.srcs {vk : β} {ps : List (ProveTask β)} {a : AggTask β}
    (h : Batched vk ps a) :
    a.inputs ≠ [] ∧
    ((a.isLeafLayer = true ∧ ∀ i ∈ a.inputs, ∃ t ∈ ps,
        t.isDeferred = a.isDeferred ∧ i.src = .leaf t.taskId) ∨
      (a.isLeafLayer = false ∧ a.isDeferred = false ∧ ∀ i ∈ a.inputs,
        ∃ id, i.src = .node id)) := by
  cases h with
  | normal k b hb hin _ hleaf _ hdef =>
      rw [hin]
      refine ⟨List.cons_ne_nil _ _, Or.inl ⟨hleaf, fun i hi => ?_⟩⟩
      obtain ⟨t, ht, rfl⟩ := List.mem_map.mp hi
      have hmem := mem_of_mem_chunks (List.mem_of_getElem? hb) ht
      rw [List.mem_filter, Bool.not_eq_true'] at hmem
      exact ⟨t, hmem.1, hmem.2.trans hdef.symm, rfl⟩
  | deferred t ht hin hleaf _ hdef =>
      rw [hin]
      refine ⟨List.cons_ne_nil _ _, Or.inl ⟨hleaf, fun i hi => ?_⟩⟩
      rw [List.mem_singleton.mp hi]
      rw [List.mem_filter] at ht
      exact ⟨t, ht.1, ht.2.trans hdef.symm, rfl⟩
  | inner b hin hreal hleaf _ hdef =>
      rw [hin]
      refine ⟨List.cons_ne_nil _ _, Or.inr ⟨hleaf, hdef, fun i hi => ?_⟩⟩
      obtain ⟨x, hx, rfl⟩ := List.mem_map.mp hi
      refine ⟨x.taskId, ?_⟩
      rw [toAggInput_src, Item.root, show x.item.fromProve = false from hreal x hx]
      rfl

/-- A task is in the leaf layer when its inputs are prove tasks. -/
theorem Batched.leafLayer {vk : β} {ps : List (ProveTask β)} {a : AggTask β}
    (h : Batched vk ps a) :
    a.isLeafLayer = true ↔
      ∀ i ∈ a.inputs, ∃ t ∈ ps, i.src = .leaf t.taskId := by
  obtain ⟨hin, hcases⟩ := h.srcs
  obtain ⟨i, hi⟩ := List.exists_mem_of_ne_nil _ hin
  rcases hcases with ⟨hleaf, hsrc⟩ | ⟨hleaf, _, hsrc⟩
  · refine ⟨fun _ i hi => ?_, fun _ => hleaf⟩
    obtain ⟨t, ht, _, hid⟩ := hsrc i hi
    exact ⟨t, ht, hid⟩
  · refine ⟨fun htrue => (by cases hleaf.symm.trans htrue), fun hall => ?_⟩
    obtain ⟨t, _, hid⟩ := hall i hi
    obtain ⟨id, hnode⟩ := hsrc i hi
    cases hid.symm.trans hnode

/-- It is deferred when they are deferred ones. -/
theorem Batched.isDeferred {vk : β} {ps : List (ProveTask β)} {a : AggTask β}
    (h : Batched vk ps a) (hnd : (ps.map (·.taskId)).Nodup) :
    a.isDeferred = true ↔ a.isLeafLayer = true ∧
      ∀ i ∈ a.inputs, ∃ t ∈ ps, t.isDeferred = true ∧
        i.src = .leaf t.taskId := by
  obtain ⟨hin, hcases⟩ := h.srcs
  obtain ⟨i, hi⟩ := List.exists_mem_of_ne_nil _ hin
  rcases hcases with ⟨hleaf, hsrc⟩ | ⟨hleaf, hdef, _⟩
  · refine ⟨fun hdef => ⟨hleaf, fun i hi => ?_⟩, fun hboth => ?_⟩
    · obtain ⟨t, ht, hsame, hid⟩ := hsrc i hi
      exact ⟨t, ht, hsame.trans hdef, hid⟩
    · -- ids are distinct, so both name one prove task
      obtain ⟨t, ht, hsame, hid⟩ := hsrc i hi
      obtain ⟨u, hu, hdef, hidu⟩ := hboth.2 i hi
      have htu := eq_of_key hnd ht hu (Src.leaf.inj (hid.symm.trans hidu))
      rw [← hsame, htu]
      exact hdef
  · refine ⟨fun htrue => (by cases hdef.symm.trans htrue), fun htrue => ?_⟩
    cases hleaf.symm.trans htrue.1

/-- The leaf that is marked as the first shard starts with the first normal
    prove task. -/
theorem Batched.firstShard {vk : β} {ps : List (ProveTask β)} {a : AggTask β}
    (h : Batched vk ps a) (hshard : a.isFirstShard = true) :
    ∃ t, (ps.filter fun t => !t.isDeferred).head? = some t ∧
      a.reads (.leaf t.taskId) := by
  cases h with
  | normal k b hb hin _ _ hfirst _ =>
      have hk : k = 0 := of_decide_eq_true (hfirst.symm.trans hshard)
      subst hk
      cases hrow : ps.filter fun t => !t.isDeferred with
      | nil =>
          rw [hrow] at hb
          cases hb
      | cons x xs =>
          rw [hrow] at hb
          obtain ⟨batches, hchunks⟩ := chunks_cons firstLayerBatchSize x xs
          rw [hchunks] at hb
          cases hb
          refine ⟨x, rfl, fromProveTask x, ?_, rfl⟩
          rw [hin]
          exact List.mem_map_of_mem (Batch.head_mem _)
  | deferred t _ _ _ hfirst _ => cases hfirst.symm.trans hshard
  | inner b _ _ _ hfirst _ => cases hfirst.symm.trans hshard

/-- **THE PLAN OF FEATURE `prover_v2`**: for any mix of prove tasks with
    distinct ids, and fresh ids for the agg tasks; the key has to be there. -/
theorem batch_plan {s : Stage β} {disk : Disk β}
    (hnd : (s.proveTasks.map (·.taskId)).Nodup)
    (hlt : ∀ t ∈ s.proveTasks, t.taskId < s.uuid) (hnil : s.aggTasks = [])
    (hne : s.proveTasks ≠ []) :
    ((s.genAggTasksV2 disk).isSome
      = (disk.read (s.generateTask.baseDir ++ "/vk.bin")).isSome) ∧
    (∀ s', s.genAggTasksV2 disk = some s' →
      BatchShape s.proveTasks s'.aggTasks) ∧
    ∀ (fuel uuid i : Nat) (row : List (AggTask β)), row.length ≤ fuel →
      aggLayersV2 fuel uuid i row = aggLayersV2 row.length uuid i row := by
  refine ⟨?_, ?_, fun fuel uuid i row hfuel => layersOver_fuel
    batchAggTasks_grouping _ _ uuid i row hfuel (Nat.le_refl _)⟩
  · rw [Stage.genAggTasksV2, Option.isSome_map]
  intro s' hgen
  have hls : ∀ l ∈ s.proveTasks.map (·.taskId), l < s.uuid := by
    intro l hl
    obtain ⟨t, ht, rfl⟩ := List.mem_map.mp hl
    exact hlt t ht
  obtain ⟨vk, _, hbatched, hindex, hfirst⟩ := genAggTasksV2_eq hnil hgen
  have hfinished := genAggTasksV2_finished hls hnil hgen
  have hperm : ((s.proveTasks.filter fun t => !t.isDeferred)
      ++ (s.proveTasks.filter fun t => t.isDeferred)).Perm s.proveTasks :=
    List.perm_append_comm.trans
      (List.filter_append_perm (fun t => t.isDeferred) s.proveTasks)
  have hlast : ∀ z, s'.aggTasks.getLast? = some z → z.fromProve = false :=
    fun z hz => (hbatched z (List.mem_of_getLast? hz)).1
  have htree := hfinished.tree ((hperm.map _).nodup_iff.mpr hnd) hlast
  have hleaf : ∀ t ∈ s.proveTasks, ∃ j, ReadAt s'.aggTasks (.leaf t.taskId) j :=
    fun t ht => htree.leaf t.taskId
      (List.mem_map_of_mem (hperm.mem_iff.mpr ht))
  have hsrcs := fun a ha => (hbatched a ha).2.srcs
  refine ⟨?_, ?_, ?_, htree.final, ?_, ?_, ?_, ?_⟩
  · intro t ht
    obtain ⟨j, hj⟩ := hleaf t ht
    have hjlt := hj.lt
    have hget := List.getElem?_eq_getElem hjlt
    refine ⟨j, s'.aggTasks[j], hget, ?_, hj⟩
    obtain ⟨i, hi, hsrc⟩ := (hj.only j _ hget).mpr rfl
    rcases (hsrcs _ (List.getElem_mem hjlt)).2 with ⟨hleaf, _⟩ | ⟨_, _, hnode⟩
    · exact hleaf
    · obtain ⟨id, hid⟩ := hnode i hi
      cases hsrc.symm.trans hid
  · intro i a ha hmore
    exact htree.inner i a ha (hbatched a (List.mem_of_getElem? ha)).1 hmore
  · obtain ⟨t, ht⟩ := List.exists_mem_of_ne_nil _ hne
    obtain ⟨j, hj⟩ := hleaf t ht
    obtain ⟨z, hz⟩ := hj.last
    exact ⟨z, hz, htree.root z hz⟩
  · intro a ha
    refine ⟨(hbatched a ha).2.firstShard, ?_⟩
    rintro ⟨t, ht, hread⟩
    obtain ⟨b, hb, hshard, hreadb⟩ := hfirst t ht
    have hmem := (List.mem_filter.mp (List.mem_of_head? ht)).1
    obtain ⟨j, hj⟩ := hleaf t hmem
    rw [hj.eq ha hb hread hreadb]
    exact hshard
  · exact fun a ha => ⟨(hsrcs a ha).1, (hbatched a ha).2.leafLayer⟩
  · exact fun a ha => (hbatched a ha).2.isDeferred hnd
  · intro i a ha
    have hget : (s'.aggTasks.map (·.aggIndex))[i]? = some a.aggIndex := by
      rw [List.getElem?_map, ha]
      rfl
    obtain ⟨hi, _⟩ := List.getElem?_eq_some_iff.mp ha
    rw [hindex, List.getElem?_range' hi, Nat.zero_add, Nat.one_mul] at hget
    exact (Option.some.inj hget).symm

end

/-- Ids of two segments, with a deferred proof in between. -/
def mixed : Stage (List UInt8) :=
  { ungrouped [4, 2, 7] with
    proveTasks := (ungrouped [4, 2, 7]).proveTasks.map fun t =>
      { t with isDeferred := t.taskId = 2 } }

/-- Two leaves over segments, one over a deferred proof, and batches. -/
theorem batch_plan_mixed :
    ∃ s', mixed.genAggTasksV2 .full = some s' ∧
      BatchShape mixed.proveTasks s'.aggTasks := by
  obtain ⟨hsome, hshape, _⟩ := @batch_plan _ _ mixed .full
    (by decide) (by decide) rfl (List.cons_ne_nil _ _)
  obtain ⟨s', hgen⟩ := Option.isSome_iff_exists.mp (hsome.trans rfl)
  exact ⟨s', hgen, hshape s' hgen⟩

end ZkmProver
