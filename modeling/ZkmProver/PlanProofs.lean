import ZkmProver.Stage

/-! # The aggregation plan — both builds group neighbours

    `gen_agg_tasks` of either build is a sequence of groupings in the sense of
    `Forest`: the pairs (`prover`) or batches (`prover_v2`) of a layer, the
    carried-over last element and the pseudo task of a lone prove task all
    describe one row of roots.  `Plan` says so for the tasks planned so far
    and the current row; each round of a loop preserves it, and when the loop
    ends the row is one root, the last task (`Finished`). -/

namespace ZkmProver

open Forest

variable {β : Type}

/-! ## Plan items -/

/-- The part of an agg task that no handler ever changes. -/
structure Item where
  node : Node Nat
  fromProve : Bool
  isFinal : Bool

namespace Item

/-- The id of the task. -/
def id (i : Item) : Nat := i.node.id

/-- What an item stands for in a row of roots: a pseudo task is the prove task
    whose id it reuses. -/
def root (i : Item) : Src Nat :=
  if i.fromProve then .leaf i.id else .node i.id

end Item

/-- The producer an input names. -/
def AggregateInput.src (i : AggregateInput β) : Src Nat :=
  if i.isAgg then .node i.computedRequestId else .leaf i.computedRequestId

/-- An agg task as an item of the plan. -/
def AggTask.item (a : AggTask β) : Item :=
  ⟨⟨a.taskId, a.inputs.map (·.src)⟩, a.fromProve, a.isFinal⟩

@[simp] theorem item_id (a : AggTask β) : a.item.id = a.taskId := rfl

@[simp] theorem toAggInput_src [Blob β] (a : AggTask β) :
    a.toAggInput.src = a.item.root := by
  cases h : a.fromProve <;>
    simp [AggregateInput.src, AggTask.toAggInput, Item.root, AggTask.item,
      Item.id, h]

@[simp] theorem fromProveTask_src [Blob β] (t : ProveTask β) :
    (fromProveTask t).src = .leaf t.taskId := rfl

/-- The nodes of a plan: its items without the pseudo task. -/
def planNodes (items : List Item) : List (Node Nat) :=
  (items.filter fun i => !i.fromProve).map Item.node

/-- The nodes of two rows are those of the one and of the other. -/
theorem planNodes_append (is js : List Item) :
    planNodes (is ++ js) = planNodes is ++ planNodes js := by
  rw [planNodes, List.filter_append, List.map_append]
  rfl

/-- Without pseudo tasks every item is a node of the plan. -/
theorem planNodes_eq_map {items : List Item}
    (h : ∀ i ∈ items, i.fromProve = false) :
    planNodes items = items.map Item.node := by
  rw [planNodes, List.filter_eq_self.mpr]
  intro i hi
  rw [h i hi]
  rfl

/-- A node of the plan is that of an item which is not a pseudo task. -/
theorem mem_planNodes {items : List Item} {n : Node Nat} :
    n ∈ planNodes items ↔ ∃ i ∈ items, i.fromProve = false ∧ i.node = n := by
  simp [planNodes, and_assoc]

/-- The numbers of the plan's nodes are among the items', in their order. -/
theorem planNodes_ids_sublist (items : List Item) :
    ((planNodes items).map Node.id).Sublist (items.map Item.id) := by
  rw [planNodes, List.map_map]
  exact List.filter_sublist.map _

/-! ## Plans -/

/-- The items planned so far over the leaves `ls`, with ids from `base` on and
    the next free id `next`, and the row of roots that is left. -/
structure Plan (ls : List Nat) (base next : Nat) (items : List Item)
    (row : List (Src Nat)) : Prop where
  built  : Built ls (planNodes items) row
  pseudo : ∀ i ∈ items, i.fromProve = true → i.id ∈ ls ∧ i.node.srcs = []
  range  : ∀ i ∈ items, i.fromProve = false → base ≤ i.id ∧ i.id < next
  nodup  : (items.map Item.id).Nodup

/-- A plan with one root left, which is the last item and the final one. -/
structure Finished (ls : List Nat) (base next : Nat) (items : List Item) :
    Prop where
  plan  : Plan ls base next items (items.getLast?.toList.map Item.root)
  final : ∀ before i, items = before ++ [i] →
    i.isFinal = true ∧ ∀ j ∈ before, j.isFinal = false

namespace Plan

variable {ls : List Nat} {base next : Nat} {items : List Item}
  {row : List (Src Nat)}

/-- Every number of the plan lies below the next one to be drawn. -/
theorem id_lt (h : Plan ls base next items row) (hls : ∀ l ∈ ls, l < base)
    (hbn : base ≤ next) : ∀ i ∈ items, i.id < next := by
  intro i hi
  cases hf : i.fromProve with
  | true =>
      have := hls i.id (h.pseudo i hi hf).1
      omega
  | false => exact (h.range i hi hf).2

/-- **ONE ROUND**: new items with consecutive ids over a stretch of the row. -/
theorem push (h : Plan ls base next items row) (pushed : List Item)
    (after : List (Src Nat)) (hls : ∀ l ∈ ls, l < base)
    (hbn : base ≤ next)
    (hrow : row = pushed.flatMap (fun i => i.node.srcs) ++ after)
    (hids : pushed.map Item.id = List.range' next pushed.length)
    (hreal : ∀ i ∈ pushed, i.fromProve = false) :
    Plan ls base (next + pushed.length) (items ++ pushed)
      (pushed.map Item.root ++ after) := by
  have hrange : ∀ i ∈ pushed, next ≤ i.id ∧ i.id < next + pushed.length := by
    intro i hi
    have : i.id ∈ List.range' next pushed.length := by
      rw [← hids]
      exact List.mem_map_of_mem hi
    rwa [List.mem_range'_1] at this
  have hnodup : ((items ++ pushed).map Item.id).Nodup := by
    rw [List.map_append, List.nodup_append]
    refine ⟨h.nodup, hids ▸ List.nodup_range', ?_⟩
    intro a ha b hb hab
    obtain ⟨i, hi, rfl⟩ := List.mem_map.mp ha
    obtain ⟨j, hj, rfl⟩ := List.mem_map.mp hb
    have h1 := h.id_lt hls hbn i hi
    have h2 := (hrange j hj).1
    omega
  have hroots : pushed.map Item.root ++ after
      = [] ++ (pushed.map Item.node).map (fun n => Src.node n.id) ++ after := by
    rw [List.map_map, List.nil_append]
    refine congrArg (· ++ _) (List.map_congr_left ?_)
    intro i hi
    simp [Item.root, hreal i hi, Item.id]
  have hnodes : planNodes (items ++ pushed)
      = planNodes items ++ pushed.map Item.node := by
    rw [planNodes_append, planNodes_eq_map hreal]
  refine ⟨?_, ?_, ?_, hnodup⟩
  · rw [hnodes, hroots]
    refine Built.groups ?_ ?_
    · have hb := h.built
      rw [hrow] at hb
      simpa [List.flatMap_map] using hb
    · rw [← hnodes]
      exact (planNodes_ids_sublist (items ++ pushed)).nodup hnodup
  · intro i hi hf
    rcases List.mem_append.mp hi with hi | hi
    · exact h.pseudo i hi hf
    · exact absurd hf (by simp [hreal i hi])
  · intro i hi hf
    rcases List.mem_append.mp hi with hi | hi
    · have := h.range i hi hf
      omega
    · have := hrange i hi
      omega

/-- The pseudo task of a leaf leaves the row as it is. -/
theorem pushPseudo {i : Item} (h : Plan ls base next items row)
    (hls : ∀ l ∈ ls, l < base) (hreal : ∀ j ∈ items, j.fromProve = false)
    (hi : i.fromProve = true) (hid : i.id ∈ ls) (hsrcs : i.node.srcs = []) :
    Plan ls base next (items ++ [i]) row := by
  refine ⟨?_, ?_, ?_, ?_⟩
  · have hno : planNodes [i] = [] := by simp [planNodes, hi]
    rw [planNodes_append, hno, List.append_nil]
    exact h.built
  · intro j hj hf
    rcases List.mem_append.mp hj with hj | hj
    · exact h.pseudo j hj hf
    · rw [List.mem_singleton.mp hj]
      exact ⟨hid, hsrcs⟩
  · intro j hj hf
    rcases List.mem_append.mp hj with hj | hj
    · exact h.range j hj hf
    · rw [List.mem_singleton.mp hj, hi] at hf
      exact nomatch hf
  · rw [List.map_append, List.nodup_append]
    refine ⟨h.nodup, List.nodup_singleton _, ?_⟩
    intro a ha b hb hab
    obtain ⟨j, hj, rfl⟩ := List.mem_map.mp ha
    rw [List.map_singleton, List.mem_singleton] at hb
    -- the ids of the other items start behind all leaves
    have h1 := (h.range j hj (hreal j hj)).1
    have h2 := hls i.id hid
    omega

end Plan

/-! ## Newly planned tasks -/

/-- How a task looks when it is planned over the prove tasks `ps`. -/
inductive Planned (ps : List (ProveTask β)) (a : AggTask β) : Prop where
  /-- the pseudo task of a prove task without a partner -/
  | pseudo : a.fromProve = true → a.inputs = [] → a.childs = [] →
      a.state = .Success → Planned ps a
  /-- a task that waits for all of its inputs -/
  | waits : a.fromProve = false → a.state = .Unprocessed →
      a.childs = a.inputs.map (fun i => some i.computedRequestId) →
      Planned ps a
  /-- a leaf over a deferred proof, which is there from the start -/
  | deferred : a.fromProve = false → a.state = .Unprocessed →
      a.childs = [] →
      (∀ i ∈ a.inputs, i.isAgg = false ∧
        ∃ t ∈ ps, t.taskId = i.computedRequestId ∧ t.isDeferred = true) →
      Planned ps a

/-- A task of an inner layer. -/
structure Inner (a : AggTask β) : Prop where
  real  : a.fromProve = false
  state : a.state = .Unprocessed
  waits : a.childs = a.inputs.map fun i => some i.computedRequestId
  final : a.isFinal = false

/-- A task over aggregations alone is planned whatever the prove tasks are. -/
theorem Inner.planned {a : AggTask β} (h : Inner a) (ps : List (ProveTask β)) :
    Planned ps a :=
  .waits h.real h.state h.waits

/-! ## Pairs -/

section Pairs

variable {α γ : Type} {init : Nat → α → α → Nat → γ}

theorem oddLast_cons_cons (l r : α) (rest : List α) :
    oddLast (l :: r :: rest) = oddLast rest := by
  have hmod : (rest.length + 1 + 1) % 2 = rest.length % 2 := by omega
  rw [oddLast, oddLast, List.length_cons, List.length_cons, hmod]
  cases rest with
  | nil => rfl
  | cons x xs => rfl

/-- One element is left over from an odd list and none from an even one. -/
theorem length_oddLast :
    ∀ l : List α, (oddLast l).toList.length = l.length % 2
  | [] => rfl
  | [_] => rfl
  | l :: r :: rest => by
      rw [oddLast_cons_cons, length_oddLast rest]
      simp only [List.length_cons]
      omega

/-- What is left over was in the list. -/
theorem mem_of_oddLast {x : α} {l : List α} (h : x ∈ (oddLast l).toList) :
    x ∈ l := by
  rw [oddLast] at h
  split at h
  · exact List.mem_of_getLast? (Option.mem_toList.mp h)
  · exact nomatch h

/-- Half as many tasks as elements, rounded down. -/
theorem length_pairUp :
    ∀ (uuid i : Nat) (l : List α), (pairUp init uuid i l).length = l.length / 2
  | _, _, [] => by simp [pairUp]
  | _, _, [_] => by simp [pairUp]
  | uuid, i, l :: r :: rest => by
      rw [pairUp, List.length_cons, length_pairUp (uuid + 1) (i + 1) rest]
      simp only [List.length_cons]
      omega

/-- The pairs and the element left over cover the row. -/
theorem pairUp_row {δ : Type} {srcs : γ → List δ} {root : α → δ}
    (h : ∀ uuid l r i, srcs (init uuid l r i) = [root l, root r]) :
    ∀ (uuid i : Nat) (l : List α),
      l.map root = (pairUp init uuid i l).flatMap srcs
        ++ (oddLast l).toList.map root
  | _, _, [] => rfl
  | _, _, [_] => rfl
  | uuid, i, l :: r :: rest => by
      rw [List.map_cons, List.map_cons, pairUp_row h (uuid + 1) (i + 1) rest,
        pairUp, oddLast_cons_cons, List.flatMap_cons, h]
      rfl

/-- The pairs draw the numbers from `uuid` on. -/
theorem pairUp_ids {id : γ → Nat}
    (h : ∀ uuid l r i, id (init uuid l r i) = uuid) :
    ∀ (uuid i : Nat) (l : List α),
      (pairUp init uuid i l).map id
        = List.range' uuid (pairUp init uuid i l).length
  | _, _, [] => rfl
  | _, _, [_] => rfl
  | uuid, i, l :: r :: rest => by
      rw [pairUp, List.map_cons, pairUp_ids h (uuid + 1) (i + 1) rest, h,
        List.length_cons, List.range'_succ]

/-- What `init` gives every pair holds of all of them. -/
theorem pairUp_forall {P : γ → Prop} (h : ∀ uuid l r i, P (init uuid l r i)) :
    ∀ (uuid i : Nat) (l : List α), ∀ x ∈ pairUp init uuid i l, P x
  | _, _, [], _, hx => nomatch hx
  | _, _, [_], _, hx => nomatch hx
  | uuid, i, l :: r :: rest, x, hx => by
      rw [pairUp, List.mem_cons] at hx
      rcases hx with rfl | hx
      · exact h ..
      · exact pairUp_forall h (uuid + 1) (i + 1) rest x hx

end Pairs

/-! ## Layers -/

/-- What both builds' way of grouping a layer does. -/
structure Grouping
    (group : Nat → Nat → List (AggTask β) → List (AggTask β))
    (carry : List (AggTask β) → List (AggTask β)) : Prop where
  row   : ∀ uuid i l, l.map (·.item.root)
    = (group uuid i l).flatMap (·.item.node.srcs) ++ (carry l).map (·.item.root)
  ids   : ∀ uuid i l, (group uuid i l).map (·.taskId)
    = List.range' uuid (group uuid i l).length
  inner : ∀ uuid i l, ∀ a ∈ group uuid i l, Inner a
  pos   : ∀ uuid i l, 1 < l.length → 0 < (group uuid i l).length
  less  : ∀ uuid i l, 1 < l.length →
    (group uuid i l).length + (carry l).length < l.length

section Layers

variable {group : Nat → Nat → List (AggTask β) → List (AggTask β)}
  {carry : List (AggTask β) → List (AggTask β)}

/-- What the grouping of a layer of `Q` makes holds of all layers over it. -/
theorem layersOver_forall {P Q : AggTask β → Prop}
    (hgroup : ∀ uuid i l, (∀ a ∈ l, Q a) → ∀ a ∈ group uuid i l, P a)
    (hcarry : ∀ l, (∀ a ∈ l, Q a) → ∀ a ∈ carry l, Q a)
    (hPQ : ∀ a, P a → Q a) :
    ∀ (fuel uuid i : Nat) (layer : List (AggTask β)), (∀ a ∈ layer, Q a) →
      ∀ a ∈ layersOver group carry fuel uuid i layer, P a := by
  intro fuel
  induction fuel with
  | zero => intro uuid i layer _ a ha; exact nomatch ha
  | succ fuel ih =>
      intro uuid i layer hlayer a ha
      have hmade := hgroup uuid i layer hlayer
      rw [layersOver] at ha
      by_cases hmore : 1 < layer.length
      · rw [if_pos hmore] at ha
        rcases List.mem_append.mp ha with ha | ha
        · exact hmade a ha
        · refine ih _ _ _ ?_ a ha
          intro b hb
          rcases List.mem_append.mp hb with hb | hb
          · exact hPQ b (hmade b hb)
          · exact hcarry layer hlayer b hb
      · rw [if_neg hmore] at ha
        exact nomatch ha

/-- Every layer above the first reads aggregations alone. -/
theorem layersOver_inner (hg : Grouping group carry) (fuel uuid i : Nat)
    (layer : List (AggTask β)) :
    ∀ a ∈ layersOver group carry fuel uuid i layer, Inner a :=
  layersOver_forall (P := Inner) (Q := fun _ => True)
    (fun uuid i l _ => hg.inner uuid i l) (fun _ _ _ _ => trivial)
    (fun _ _ => trivial) fuel uuid i layer fun _ _ => trivial

/-- **FUEL**: the loop has stopped after as many rounds as the row has
    tasks. -/
theorem layersOver_fuel (hg : Grouping group carry) :
    ∀ (fuel fuel' uuid i : Nat) (layer : List (AggTask β)),
      layer.length ≤ fuel → layer.length ≤ fuel' →
      layersOver group carry fuel uuid i layer
        = layersOver group carry fuel' uuid i layer := by
  -- a row of at most one task is not grouped any more
  have hstop : ∀ (fuel uuid i : Nat) (layer : List (AggTask β)),
      ¬ 1 < layer.length → layersOver group carry fuel uuid i layer = [] := by
    intro fuel uuid i layer hone
    cases fuel with
    | zero => rfl
    | succ fuel => rw [layersOver, if_neg hone]
  intro fuel
  induction fuel with
  | zero =>
      intro fuel' uuid i layer hlen _
      have hone : ¬ 1 < layer.length := by omega
      rw [hstop _ _ _ _ hone, hstop _ _ _ _ hone]
  | succ fuel ih =>
      intro fuel' uuid i layer hlen hlen'
      by_cases hmore : 1 < layer.length
      · cases fuel' with
        | zero => omega
        | succ fuel' =>
            have hless := hg.less uuid i layer hmore
            rw [layersOver, layersOver, if_pos hmore, if_pos hmore]
            dsimp only
            rw [ih fuel' _ _ _ (by rw [List.length_append]; omega)
              (by rw [List.length_append]; omega)]
      · rw [hstop _ _ _ _ hmore, hstop _ _ _ _ hmore]

/-- **LOOP**: the layers over a row end with one root, the last task. -/
theorem Plan.layersOver {ls : List Nat} {base : Nat}
    (hg : Grouping group carry) (hls : ∀ l ∈ ls, l < base) :
    ∀ (fuel next i : Nat) (flat layer : List (AggTask β)),
      Plan ls base next (flat.map (·.item)) (layer.map (·.item.root)) →
      base ≤ next → layer ≠ [] → layer.length ≤ fuel →
      (layer.length = 1 → flat.getLast? = layer.getLast?) →
      ∃ a, (flat ++ layersOver group carry fuel next i layer).getLast? = some a ∧
        Plan ls base (next + (layersOver group carry fuel next i layer).length)
          ((flat ++ layersOver group carry fuel next i layer).map (·.item))
          [a.item.root] := by
  intro fuel
  induction fuel with
  | zero =>
      intro next i flat layer _ _ hne hlen _
      exact absurd (List.length_eq_zero_iff.mp (Nat.le_zero.mp hlen)) hne
  | succ fuel ih =>
      intro next i flat layer h hbn hne hlen hlast
      rw [ZkmProver.layersOver]
      by_cases hmore : 1 < layer.length
      · rw [if_pos hmore]
        have hpos := hg.pos next i layer hmore
        have hless := hg.less next i layer hmore
        have hround := h.push ((group next i layer).map (·.item))
          ((carry layer).map (·.item.root)) hls hbn
          (by rw [hg.row next i layer, List.flatMap_map])
          (by rw [List.map_map, List.length_map]; exact hg.ids next i layer)
          (by
            intro j hj
            obtain ⟨a, ha, rfl⟩ := List.mem_map.mp hj
            exact (hg.inner next i layer a ha).real)
        rw [List.length_map, List.map_map, ← List.map_append] at hround
        obtain ⟨a, ha, hp⟩ := ih (next + (group next i layer).length)
          (i + (group next i layer).length) (flat ++ group next i layer)
          (group next i layer ++ carry layer)
          (by
            have hrow : (group next i layer ++ carry layer).map (·.item.root)
                = (group next i layer).map (·.item.root)
                  ++ (carry layer).map (·.item.root) := List.map_append
            rw [hrow]
            exact hround)
          (by omega)
          (by
            intro hnil
            rw [(List.append_eq_nil_iff.mp hnil).1] at hpos
            exact nomatch hpos)
          (by rw [List.length_append]; omega)
          (by
            -- a layer of one task is the task just pushed
            intro hone
            rw [List.length_append] at hone
            have hc : carry layer = [] :=
              List.length_eq_zero_iff.mp (by omega)
            rw [hc, List.append_nil,
              List.getLast?_append_of_ne_nil _ (List.ne_nil_of_length_pos hpos)])
        refine ⟨a, ?_, ?_⟩
        · rw [← List.append_assoc]
          exact ha
        · rw [List.length_append, ← Nat.add_assoc, ← List.append_assoc]
          exact hp
      · rw [if_neg hmore, List.append_nil]
        have hone : layer.length = 1 := by
          have := List.length_pos_iff.mpr hne
          omega
        obtain ⟨a, rfl⟩ := List.length_eq_one_iff.mp hone
        exact ⟨a, hlast rfl, h⟩

end Layers

/-! ## The two groupings -/

/-- Numbers given out by position. -/
theorem mapIdx_ids {α γ : Type} (g : γ → Nat) {f : Nat → α → γ} {uuid : Nat}
    (h : ∀ k x, g (f k x) = uuid + k) (l : List α) :
    (l.mapIdx f).map g = List.range' uuid (l.mapIdx f).length := by
  refine List.ext_getElem (by simp) ?_
  intro k h1 h2
  simp [h]

/-- What `f` gives at every place holds of the whole `mapIdx`. -/
theorem forall_mapIdx {α γ : Type} {f : Nat → α → γ} {P : γ → Prop}
    {l : List α} (h : ∀ k, ∀ x ∈ l, P (f k x)) : ∀ y ∈ l.mapIdx f, P y := by
  intro y hy
  obtain ⟨k, hk, rfl⟩ := List.mem_mapIdx.mp hy
  exact h k _ (List.getElem_mem hk)

/-- A projection that does not depend on the position. -/
theorem flatMap_mapIdx {α γ δ : Type} {f : Nat → α → γ} {g : γ → List δ}
    {e : α → List δ} (h : ∀ k x, g (f k x) = e x) (l : List α) :
    (l.mapIdx f).flatMap g = l.flatMap e := by
  induction l generalizing f with
  | nil => rfl
  | cons x l ih =>
      rw [List.mapIdx_cons, List.flatMap_cons, List.flatMap_cons, h,
        ih fun k x => h (k + 1) x]

section Builds

variable [Blob β]

/-- Pairing with a carried odd one out is a grouping. -/
theorem pairAggTasks_grouping :
    Grouping (pairAggTasks (β := β)) fun l => (oddLast l).toList := by
  refine ⟨?_, ?_, ?_, ?_, ?_⟩
  · intro uuid i l
    exact pairUp_row (fun _ _ _ _ => by
      simp [AggTask.item, AggTask.initFromTwoAggTask]) uuid i l
  · intro uuid i l
    exact pairUp_ids (fun _ _ _ _ => rfl) uuid i l
  · intro uuid i l
    exact pairUp_forall (fun _ _ _ _ => ⟨rfl, rfl, rfl, rfl⟩) uuid i l
  · intro uuid i l hmore
    rw [pairAggTasks, length_pairUp]
    omega
  · intro uuid i l hmore
    rw [pairAggTasks, length_pairUp, length_oddLast]
    omega

/-- Batching is a grouping that carries nothing. -/
theorem batchAggTasks_grouping :
    Grouping (batchAggTasks (β := β)) fun _ => [] := by
  refine ⟨?_, ?_, ?_, ?_, ?_⟩
  · intro uuid i l
    have hsrcs : ∀ k (b : Batch (AggTask β)),
        (AggTask.initFromAggTasks (uuid + k) b (i + k) false).item.node.srcs
          = b.toList.map (·.item.root) := by
      intro k b
      simp [AggTask.item, AggTask.initFromAggTasks]
    rw [batchAggTasks,
      flatMap_mapIdx (g := fun a : AggTask β => a.item.node.srcs) hsrcs,
      ← List.map_flatMap, chunks_flatten, List.map_nil, List.append_nil]
  · intro uuid i l
    exact mapIdx_ids (fun a : AggTask β => a.taskId) (fun _ _ => rfl) _
  · intro uuid i l
    refine forall_mapIdx ?_
    intro k b _
    exact ⟨rfl, rfl, by simp [AggTask.initFromAggTasks, AggTask.toAggInput], rfl⟩
  · intro uuid i l hmore
    rw [batchAggTasks, List.length_mapIdx]
    refine List.length_pos_iff.mpr fun hnil => ?_
    have hflat := chunks_flatten 2 l
    rw [hnil] at hflat
    rw [← hflat] at hmore
    exact nomatch hmore
  · intro uuid i l hmore
    have := length_chunks (Nat.le_refl 2) l
    rw [batchAggTasks, List.length_mapIdx, List.length_nil]
    omega

/-! ## The final task -/

omit [Blob β] in
/-- The task that is marked is the last. -/
theorem markFinal_concat (l : List (AggTask β)) (a : AggTask β) :
    markFinal (l ++ [a]) = l ++ [{ a with isFinal := true }] := by
  induction l with
  | nil => rfl
  | cons x l ih =>
      cases l with
      | nil => rfl
      | cons y l => exact congrArg (x :: ·) ih

/-- Marking an item final changes nothing else. -/
theorem Plan.mark {ls : List Nat} {base next : Nat} {before : List Item}
    {i : Item} {row : List (Src Nat)}
    (h : Plan ls base next (before ++ [i]) row) :
    Plan ls base next (before ++ [{ i with isFinal := true }]) row := by
  have hmem : ∀ j ∈ before ++ [{ i with isFinal := true }],
      ∃ k ∈ before ++ [i], j.node = k.node ∧ j.fromProve = k.fromProve := by
    intro j hj
    rcases List.mem_append.mp hj with hj | hj
    · exact ⟨j, List.mem_append_left _ hj, rfl, rfl⟩
    · rw [List.mem_singleton.mp hj]
      exact ⟨i, List.mem_append_right _ (List.mem_singleton_self i), rfl, rfl⟩
  refine ⟨?_, ?_, ?_, ?_⟩
  · have hsame : planNodes [{ i with isFinal := true }] = planNodes [i] := by
      cases hf : i.fromProve <;> simp [planNodes, hf]
    rw [planNodes_append, hsame, ← planNodes_append]
    exact h.built
  · intro j hj hf
    obtain ⟨k, hk, hn, hp⟩ := hmem j hj
    rw [Item.id, hn]
    exact h.pseudo k hk (hp ▸ hf)
  · intro j hj hf
    obtain ⟨k, hk, hn, hp⟩ := hmem j hj
    rw [Item.id, hn]
    exact h.range k hk (hp ▸ hf)
  · simpa [Item.id] using h.nodup

omit [Blob β] in
/-- A plan with one root, whose last task is marked, is finished. -/
theorem Finished.of_plan {ls : List Nat} {base next : Nat}
    {flat : List (AggTask β)} {a : AggTask β}
    (hlast : flat.getLast? = some a)
    (hplan : Plan ls base next (flat.map (·.item)) [a.item.root])
    (hnot : ∀ b ∈ flat.dropLast, b.isFinal = false) :
    Finished ls base next ((markFinal flat).map (·.item)) := by
  obtain ⟨before, rfl⟩ := List.getLast?_eq_some_iff.mp hlast
  rw [List.dropLast_concat] at hnot
  have hitems : (markFinal (before ++ [a])).map (·.item)
      = before.map (·.item) ++ [{ a.item with isFinal := true }] := by
    rw [markFinal_concat, List.map_append]
    rfl
  rw [hitems]
  refine ⟨?_, ?_⟩
  · rw [List.getLast?_concat]
    rw [List.map_append] at hplan
    exact Plan.mark hplan
  · intro before' i hi
    obtain ⟨hbefore, hlast⟩ := List.append_inj' hi rfl
    rw [← (List.cons.inj hlast).1, ← hbefore]
    refine ⟨rfl, ?_⟩
    intro j hj
    obtain ⟨b, hb, rfl⟩ := List.mem_map.mp hj
    exact hnot b hb

omit [Blob β] in
/-- A task of the marked list is one of the list, marked or as it was. -/
theorem mem_markFinal {flat : List (AggTask β)} {b : AggTask β}
    (h : b ∈ markFinal flat) :
    ∃ a ∈ flat, b = a ∨ b = { a with isFinal := true } := by
  rcases List.eq_nil_or_concat flat with rfl | ⟨before, a, rfl⟩
  · exact nomatch h
  · rw [List.concat_eq_append] at h ⊢
    rw [markFinal_concat] at h
    rcases List.mem_append.mp h with h | h
    · exact ⟨b, List.mem_append_left _ h, Or.inl rfl⟩
    · exact ⟨a, by simp, Or.inr (List.mem_singleton.mp h)⟩

omit [Blob β] in
/-- The mark does not touch what a task reads. -/
theorem markFinal_planned {ps : List (ProveTask β)} {flat : List (AggTask β)}
    (h : ∀ a ∈ flat, Planned ps a) : ∀ a ∈ markFinal flat, Planned ps a := by
  intro b hb
  obtain ⟨a, ha, rfl | rfl⟩ := mem_markFinal hb
  · exact h b ha
  · cases h a ha with
    | pseudo h1 h2 h3 h4 => exact .pseudo h1 h2 h3 h4
    | waits h1 h2 h3 => exact .waits h1 h2 h3
    | deferred h1 h2 h3 h4 => exact .deferred h1 h2 h3 h4

/-! ## `gen_agg_tasks` -/

/-- What `gen_agg_tasks` leaves behind. -/
structure AggPlanned (feat : Feature) (s s' : Stage β) : Prop where
  frame    : s' = { s with aggTasks := s'.aggTasks, uuid := s'.uuid }
  mono     : s.uuid ≤ s'.uuid
  finished : Finished (s.proveTasks.map (·.taskId)) s.uuid s'.uuid
    (s'.aggTasks.map (·.item))
  planned  : ∀ a ∈ s'.aggTasks, Planned s.proveTasks a
  real     : feat = .proverV2 → ∀ a ∈ s'.aggTasks, a.fromProve = false

omit [Blob β] in
/-- A row of first tasks with the layers over it is a finished plan. -/
theorem Finished.of_layers {ls : List Nat} {base next : Nat}
    {first : List (AggTask β)}
    {group : Nat → Nat → List (AggTask β) → List (AggTask β)}
    {carry : List (AggTask β) → List (AggTask β)} (hg : Grouping group carry)
    (hls : ∀ l ∈ ls, l < base) (hbn : base ≤ next)
    (hplan : Plan ls base next (first.map (·.item))
      (first.map (·.item.root)))
    (hnot : first.length = 1 ∨ ∀ a ∈ first, a.isFinal = false) (i : Nat) :
    Finished ls base
      (next + (layersOver group carry first.length next i first).length)
      ((markFinal (first ++ layersOver group carry first.length next i first)).map
        (·.item)) := by
  by_cases hne : first = []
  · subst hne
    refine ⟨hplan, ?_⟩
    intro before i hi
    exact absurd hi.symm (by simp [layersOver, markFinal])
  · obtain ⟨a, hlast, hp⟩ := Plan.layersOver hg hls first.length next i first
      first hplan hbn hne (Nat.le_refl _) fun _ => rfl
    refine Finished.of_plan hlast hp ?_
    intro b hb
    rcases hnot with hone | hnot
    · -- a lone task is the last one
      obtain ⟨x, rfl⟩ := List.length_eq_one_iff.mp hone
      exact absurd hb (by simp [layersOver])
    · rcases List.mem_append.mp (List.dropLast_subset _ hb) with hb | hb
      · exact hnot b hb
      · exact (layersOver_inner hg _ _ _ _ b hb).final

/-- The first row of feature `prover`: the pairs, and the pseudo task of the
    leaf without a partner. -/
theorem pairRow_plan (ps : List (ProveTask β)) (uuid k : Nat)
    (hls : ∀ l ∈ ps.map (·.taskId), l < uuid) :
    Plan (ps.map (·.taskId)) uuid (uuid + (pairProveTasks uuid 0 ps).length)
      ((pairProveTasks uuid 0 ps
        ++ (oddLast ps).toList.map
            fun t => AggTask.initFromSingleProveTask t k).map (·.item))
      ((pairProveTasks uuid 0 ps
        ++ (oddLast ps).toList.map
            fun t => AggTask.initFromSingleProveTask t k).map (·.item.root)) := by
  have hreal : ∀ a ∈ pairProveTasks uuid 0 ps, a.fromProve = false :=
    pairUp_forall (P := fun a : AggTask β => a.fromProve = false)
      (fun _ _ _ _ => rfl) uuid 0 ps
  have hitems : ∀ i ∈ (pairProveTasks uuid 0 ps).map (·.item),
      i.fromProve = false := by
    intro i hi
    obtain ⟨a, ha, rfl⟩ := List.mem_map.mp hi
    exact hreal a ha
  have hrow : ps.map (fun t => Src.leaf t.taskId)
      = (pairProveTasks uuid 0 ps).flatMap (fun a => a.item.node.srcs)
        ++ (oddLast ps).toList.map (fun t => Src.leaf t.taskId) :=
    pairUp_row (fun _ _ _ _ => by
      simp [AggTask.item, AggTask.initFromTwoProveTask]) uuid 0 ps
  have hstart : Plan (ps.map (·.taskId)) uuid uuid []
      ((ps.map (·.taskId)).map Src.leaf) :=
    ⟨Built.start, by simp, by simp, by simp⟩
  have hpairs := hstart.push ((pairProveTasks uuid 0 ps).map (·.item))
    ((oddLast ps).toList.map fun t => Src.leaf t.taskId) hls
    (Nat.le_refl _)
    (by rw [List.map_map, List.flatMap_map]; exact hrow)
    (by
      rw [List.map_map, List.length_map]
      exact pairUp_ids (fun _ _ _ _ => rfl) uuid 0 ps)
    hitems
  rw [List.nil_append, List.length_map, List.map_map] at hpairs
  cases hodd : oddLast ps with
  | none =>
      rw [hodd] at hpairs
      rw [Option.toList_none, List.map_nil, List.append_nil]
      rw [Option.toList_none, List.map_nil, List.append_nil] at hpairs
      exact hpairs
  | some t =>
      rw [hodd] at hpairs
      have ht : t.taskId ∈ ps.map (·.taskId) :=
        List.mem_map_of_mem (mem_of_oddLast (by rw [hodd]; simp))
      have hp := hpairs.pushPseudo
        (i := (AggTask.initFromSingleProveTask t k).item) hls hitems rfl ht rfl
      rw [Option.toList_some, List.map_singleton, List.map_append,
        List.map_append]
      exact hp

/-- The plan of feature `prover`. -/
theorem genAggTasksV1_planned {s s' : Stage β}
    (hls : ∀ l ∈ s.proveTasks.map (·.taskId), l < s.uuid)
    (hnil : s.aggTasks = []) (h : s.genAggTasksV1 = some s') :
    AggPlanned .prover s s' := by
  rw [Stage.genAggTasksV1] at h
  by_cases hempty : s.proveTasks.isEmpty = true
  · rw [if_pos hempty] at h
    exact nomatch h
  rw [if_neg hempty] at h
  have hp := pairRow_plan s.proveTasks s.uuid
    ((pairProveTasks s.uuid 0 s.proveTasks).length + 1) hls
  have hinner : ∀ a ∈ pairProveTasks s.uuid 0 s.proveTasks, Inner a :=
    pairUp_forall (fun _ _ _ _ => ⟨rfl, rfl, rfl, rfl⟩) _ _ _
  simp only [hnil, List.nil_append, Option.toList_map] at h
  generalize hfirst : pairProveTasks s.uuid 0 s.proveTasks
    ++ (oddLast s.proveTasks).toList.map
      (fun t => AggTask.initFromSingleProveTask t
        ((pairProveTasks s.uuid 0 s.proveTasks).length + 1)) = first at h hp
  have hmem : ∀ a ∈ first, a.isFinal = false ∧ Planned s.proveTasks a := by
    intro a ha
    rw [← hfirst] at ha
    rcases List.mem_append.mp ha with ha | ha
    · exact ⟨(hinner a ha).final, (hinner a ha).planned _⟩
    · obtain ⟨t, ht, rfl⟩ := List.mem_map.mp ha
      exact ⟨rfl, .pseudo rfl rfl rfl rfl⟩
  cases h
  refine ⟨rfl, ?_, ?_, ?_, ?_⟩
  · show s.uuid ≤ s.uuid + _ + _
    omega
  · exact Finished.of_layers pairAggTasks_grouping hls (Nat.le_add_right ..) hp
      (.inr fun a ha => (hmem a ha).1) _
  · refine markFinal_planned ?_
    intro a ha
    rcases List.mem_append.mp ha with ha | ha
    · exact (hmem a ha).2
    · exact (layersOver_inner pairAggTasks_grouping _ _ _ _ a ha).planned _
  · intro hf
    exact nomatch hf

/-- The first row of feature `prover_v2`: one leaf over every batch of normal
    prove tasks, then one over every deferred proof. -/
theorem firstLayer_plan (vk : β) (isComplete : Bool)
    (normal deferred : List (ProveTask β)) (uuid : Nat)
    (hls : ∀ l ∈ (normal ++ deferred).map (·.taskId), l < uuid) :
    Plan ((normal ++ deferred).map (·.taskId)) uuid
      (uuid + (firstLayer vk uuid isComplete normal deferred).length)
      ((firstLayer vk uuid isComplete normal deferred).map (·.item))
      ((firstLayer vk uuid isComplete normal deferred).map (·.item.root)) := by
  have hleaf : (leafLayer vk uuid isComplete normal).flatMap
      (·.item.node.srcs) = normal.map fun t => Src.leaf t.taskId := by
    rw [leafLayer, flatMap_mapIdx (g := fun a : AggTask β => a.item.node.srcs)
      (e := fun b => b.toList.map fun t => Src.leaf t.taskId),
      ← List.map_flatMap, chunks_flatten]
    intro k b
    simp [AggTask.item, AggTask.initFromProveTasks]
  have hdefer : ∀ uuid i, (deferredLayer vk uuid i isComplete deferred).flatMap
      (·.item.node.srcs) = deferred.map fun t => Src.leaf t.taskId := by
    intro uuid i
    rw [deferredLayer,
      flatMap_mapIdx (g := fun a : AggTask β => a.item.node.srcs)
        (e := fun t => [Src.leaf t.taskId]), List.map_eq_flatMap]
    intro k t
    simp [AggTask.item, AggTask.initFromProveTasks, Batch.single, Batch.toList]
  have hids : (firstLayer vk uuid isComplete normal deferred).map (·.taskId)
      = List.range' uuid
          (firstLayer vk uuid isComplete normal deferred).length := by
    rw [firstLayer, List.map_append, List.length_append,
      ← List.range'_append_1]
    exact congrArg₂ (· ++ ·)
      (mapIdx_ids (fun a : AggTask β => a.taskId) (fun _ _ => rfl) _)
      (mapIdx_ids (fun a : AggTask β => a.taskId) (fun _ _ => rfl) _)
  have hreal : ∀ a ∈ firstLayer vk uuid isComplete normal deferred,
      a.fromProve = false := by
    intro a ha
    rcases List.mem_append.mp ha with ha | ha
    · exact forall_mapIdx (P := fun a : AggTask β => a.fromProve = false)
        (fun _ _ _ => rfl) a ha
    · exact forall_mapIdx (P := fun a : AggTask β => a.fromProve = false)
        (fun _ _ _ => rfl) a ha
  have hstart : Plan ((normal ++ deferred).map (·.taskId)) uuid uuid []
      (((normal ++ deferred).map (·.taskId)).map Src.leaf) :=
    ⟨Built.start, by simp, by simp, by simp⟩
  have hp := hstart.push
    ((firstLayer vk uuid isComplete normal deferred).map (·.item)) [] hls
    (Nat.le_refl _)
    (by
      rw [List.flatMap_map, firstLayer, List.flatMap_append, hleaf, hdefer,
        List.append_nil, List.map_map, List.map_append]
      rfl)
    (by rw [List.map_map, List.length_map]; exact hids)
    (by
      intro i hi
      obtain ⟨a, ha, rfl⟩ := List.mem_map.mp hi
      exact hreal a ha)
  rw [List.nil_append, List.length_map, List.map_map, List.append_nil] at hp
  exact hp

/-- The plan of feature `prover_v2`, over the normal prove tasks and then the
    deferred ones. -/
theorem genAggTasksV2_finished {s s' : Stage β} {disk : Disk β}
    (hls : ∀ l ∈ s.proveTasks.map (·.taskId), l < s.uuid)
    (hnil : s.aggTasks = []) (h : s.genAggTasksV2 disk = some s') :
    Finished (((s.proveTasks.filter fun t => !t.isDeferred)
      ++ (s.proveTasks.filter fun t => t.isDeferred)).map (·.taskId))
      s.uuid s'.uuid (s'.aggTasks.map (·.item)) := by
  rw [Stage.genAggTasksV2, Option.map_eq_some_iff] at h
  obtain ⟨vk, _, h⟩ := h
  simp only [hnil, List.nil_append] at h
  have hids : ∀ l ∈ ((s.proveTasks.filter fun t => !t.isDeferred)
      ++ (s.proveTasks.filter fun t => t.isDeferred)).map (·.taskId),
      l < s.uuid := by
    intro l hl
    obtain ⟨t, ht, rfl⟩ := List.mem_map.mp hl
    refine hls _ (List.mem_map_of_mem ?_)
    rcases List.mem_append.mp ht with ht | ht
    · exact (List.mem_filter.mp ht).1
    · exact (List.mem_filter.mp ht).1
  generalize (s.proveTasks.filter fun t => !t.isDeferred) = normal at h hids
  generalize (s.proveTasks.filter fun t => t.isDeferred) = deferred at h hids
  generalize hc : (decide (normal.length = 1) && deferred.isEmpty) = isComplete
    at h
  -- `is_complete` marks a lone leaf, which is the final task anyway
  have hfinal : ∀ a ∈ firstLayer vk s.uuid isComplete normal deferred,
      a.isFinal = isComplete := by
    intro a ha
    rcases List.mem_append.mp ha with ha | ha
    · exact forall_mapIdx (P := fun a : AggTask β => a.isFinal = isComplete)
        (fun _ _ _ => rfl) a ha
    · exact forall_mapIdx (P := fun a : AggTask β => a.isFinal = isComplete)
        (fun _ _ _ => rfl) a ha
  have hnot : (firstLayer vk s.uuid isComplete normal deferred).length = 1 ∨
      ∀ a ∈ firstLayer vk s.uuid isComplete normal deferred,
        a.isFinal = false := by
    cases isComplete with
    | false => exact Or.inr hfinal
    | true =>
        rw [Bool.and_eq_true, decide_eq_true_eq, List.isEmpty_iff] at hc
        obtain ⟨t, ht⟩ := List.length_eq_one_iff.mp hc.1
        refine Or.inl ?_
        rw [ht, hc.2]
        rfl
  cases h
  exact Finished.of_layers batchAggTasks_grouping hids (Nat.le_add_right ..)
    (firstLayer_plan vk isComplete normal deferred s.uuid hids) hnot _

/-- The build under `prover_v2` is a plan over all the prove tasks. -/
theorem genAggTasksV2_planned {s s' : Stage β} {disk : Disk β}
    (hls : ∀ l ∈ s.proveTasks.map (·.taskId), l < s.uuid)
    (hrow : (s.proveTasks.filter fun t => !t.isDeferred)
      ++ (s.proveTasks.filter fun t => t.isDeferred) = s.proveTasks)
    (hnil : s.aggTasks = []) (h : s.genAggTasksV2 disk = some s') :
    AggPlanned .proverV2 s s' := by
  have hfinished := genAggTasksV2_finished hls hnil h
  rw [hrow] at hfinished
  rw [Stage.genAggTasksV2, Option.map_eq_some_iff] at h
  obtain ⟨vk, _, h⟩ := h
  simp only [hnil, List.nil_append] at h
  generalize hn : (s.proveTasks.filter fun t => !t.isDeferred) = normal at h
  generalize hd : (s.proveTasks.filter fun t => t.isDeferred) = deferred at h
  generalize (decide (normal.length = 1) && deferred.isEmpty) = isComplete at h
  have hmem : ∀ a ∈ firstLayer vk s.uuid isComplete normal deferred,
      a.fromProve = false ∧ Planned s.proveTasks a := by
    intro a ha
    let P := fun a : AggTask β => a.fromProve = false ∧ Planned s.proveTasks a
    rcases List.mem_append.mp ha with ha | ha
    · refine forall_mapIdx (P := P) ?_ a ha
      intro k b _
      refine ⟨rfl, .waits rfl rfl ?_⟩
      simp [AggTask.initFromProveTasks, fromProveTask]
    · refine forall_mapIdx (P := P) ?_ a ha
      intro k t ht
      refine ⟨rfl, .deferred rfl rfl rfl ?_⟩
      intro i hi
      rw [← hd, List.mem_filter] at ht
      rw [List.mem_singleton.mp hi]
      exact ⟨rfl, t, ht.1, rfl, ht.2⟩
  cases h
  refine ⟨rfl, ?_, hfinished, ?_, ?_⟩
  · show s.uuid ≤ s.uuid + _ + _
    omega
  · refine markFinal_planned ?_
    intro a ha
    rcases List.mem_append.mp ha with ha | ha
    · exact (hmem a ha).2
    · exact (layersOver_inner batchAggTasks_grouping _ _ _ _ a ha).planned _
  · intro _ b hb
    obtain ⟨a, ha, heq⟩ := mem_markFinal hb
    have hreal : a.fromProve = false := by
      rcases List.mem_append.mp ha with ha | ha
      · exact (hmem a ha).1
      · exact (layersOver_inner batchAggTasks_grouping _ _ _ _ a ha).real
    rcases heq with rfl | rfl
    · exact hreal
    · exact hreal

/-- **PLAN**: either build plans a forest over the prove tasks with one root,
    the final task. -/
theorem genAggTasks_planned {feat : Feature} {s s' : Stage β} {disk : Disk β}
    (hls : ∀ l ∈ s.proveTasks.map (·.taskId), l < s.uuid)
    (hrow : (s.proveTasks.filter fun t => !t.isDeferred)
      ++ (s.proveTasks.filter fun t => t.isDeferred) = s.proveTasks)
    (hnil : s.aggTasks = []) (h : s.genAggTasks feat disk = some s') :
    AggPlanned feat s s' := by
  cases feat with
  | prover => exact genAggTasksV1_planned hls hnil h
  | proverV2 => exact genAggTasksV2_planned hls hrow hnil h

end Builds

end ZkmProver
