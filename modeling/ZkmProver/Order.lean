import ZkmProver.Success

/-! # Order — the aggregated proof covers the segments in order

    With outputs read as terms (`Receipt`), a result for a segment is a leaf
    and a result for an agg task is a node over the inputs it was handed out
    with.  The published term then has the accepted results of segments
    0, 1, ... as its leaves, left to right, followed by the deferred proofs in
    increasing file number (`aggregated_in_order`). -/

namespace ZkmProver

open Forest Keyed Machine

/-! ## Receipts as terms -/

/-- An output that remembers how it was made. -/
inductive Receipt (α : Type) where
  | leaf (a : α)
  | node (children : List (Receipt α))

namespace Receipt

variable {α : Type}

mutual

/-- The leaves, left to right. -/
def frontier : Receipt α → List α
  | .leaf a => [a]
  | .node children => frontiers children

/-- The frontiers of a list of terms, one behind the other. -/
def frontiers : List (Receipt α) → List α
  | [] => []
  | t :: ts => frontier t ++ frontiers ts

end

mutual

/-- Whether two terms are the same. -/
def decEq [DecidableEq α] : (s t : Receipt α) → Decidable (s = t)
  | .leaf a, .leaf b => decidable_of_iff (a = b) ⟨congrArg leaf, leaf.inj⟩
  | .leaf _, .node _ => .isFalse nofun
  | .node _, .leaf _ => .isFalse nofun
  | .node ss, .node ts =>
      have := decEqs ss ts
      decidable_of_iff (ss = ts) ⟨congrArg node, node.inj⟩

/-- Whether two lists of terms are. -/
def decEqs [DecidableEq α] : (ss ts : List (Receipt α)) → Decidable (ss = ts)
  | [], [] => .isTrue rfl
  | [], _ :: _ => .isFalse nofun
  | _ :: _, [] => .isFalse nofun
  | s :: ss, t :: ts =>
      have := decEq s t
      have := decEqs ss ts
      decidable_of_iff (s = t ∧ ss = ts) (by rw [List.cons.injEq])

end

instance [DecidableEq α] : DecidableEq (Receipt α) := decEq

@[simp] theorem frontier_leaf (a : α) : (leaf a).frontier = [a] := by
  rw [frontier]

/-- The frontiers in a row. -/
theorem frontiers_eq (ts : List (Receipt α)) :
    frontiers ts = ts.flatMap frontier := by
  induction ts with
  | nil => rw [frontiers]; rfl
  | cons t ts ih => rw [frontiers, ih, List.flatMap_cons]

/-- The frontier of a node is that of its parts in a row. -/
theorem frontier_node (ts : List (Receipt α)) :
    (node ts).frontier = ts.flatMap frontier := by
  rw [frontier, frontiers_eq]

/-- Numbered terms that are all leaves. -/
theorem exists_leaves {γ : Type} (no : γ → Nat) (out : γ → Receipt α) :
    ∀ {l : List γ}, (∀ t ∈ l, ∃ a, out t = leaf a) →
      ∃ ps : List (Nat × α),
        l.map (fun t => (no t, out t)) = ps.map fun p => (p.1, leaf p.2)
  | [], _ => ⟨[], rfl⟩
  | t :: l, h => by
      obtain ⟨a, ha⟩ := h t (List.mem_cons_self ..)
      obtain ⟨ps, hps⟩ := exists_leaves no out
        fun u hu => h u (List.mem_cons_of_mem _ hu)
      exact ⟨(no t, a) :: ps, by rw [List.map_cons, List.map_cons, hps, ha]⟩

/-- The leaves of a list of leaves. -/
theorem flatMap_frontier {γ : Type} {no : γ → Nat} {out : γ → Receipt α}
    {l : List γ} {ps : List (Nat × α)}
    (h : l.map (fun t => (no t, out t)) = ps.map fun p => (p.1, leaf p.2)) :
    l.flatMap (fun t => (out t).frontier) = ps.map Prod.snd := by
  have hout := congrArg (List.map Prod.snd) h
  rw [List.map_map, List.map_map] at hout
  have hflat := congrArg (List.flatMap frontier) hout
  rw [List.flatMap_map, List.flatMap_map] at hflat
  refine hflat.trans ?_
  rw [← List.flatMap_pure_eq_map]
  exact List.flatMap_congr fun p _ => frontier_leaf p.2

end Receipt

/-! ## Results -/

/-- The SUCCESS results received for segment `i`. -/
def segmentResults {β : Type} (i : Nat) (ds : List (Task β)) :
    List (ProveTask β) :=
  (ds.filterMap Task.asProve).filter fun t => t.fileNo = i ∧ t.state = .Success

variable {α : Type}

/-- Results are terms: a leaf for a segment, a node over the filled inputs for
    an agg task. -/
def HonestResult : Task (Receipt α) → Prop
  | .Prove t => t.state = .Success → ∃ a, t.output = .leaf a
  | .Agg a => a.state = .Success →
      a.output = .node (a.inputs.map (·.receiptInput))
  | _ => True

/-- All results and deferred proofs of a world are terms. -/
structure Honest (w : World (Receipt α)) : Prop where
  results  : ∀ d ∈ w.delivered, HonestResult d
  deferred : ∀ p ∈ w.listing, ∃ a, p.2 = .leaf a

instance : (t : Receipt α) → Decidable (∃ a, t = .leaf a)
  | .leaf a => .isTrue ⟨a, rfl⟩
  | .node _ => .isFalse fun h => nomatch h.choose_spec

instance [DecidableEq α] : (d : Task (Receipt α)) → Decidable (HonestResult d)
  | .Prove t =>
      inferInstanceAs (Decidable (t.state = .Success → ∃ a, t.output = .leaf a))
  | .Agg a =>
      inferInstanceAs (Decidable (a.state = .Success →
        a.output = .node (a.inputs.map (·.receiptInput))))
  | .Split _ => .isTrue trivial
  | .Snark _ => .isTrue trivial

instance [DecidableEq α] (w : World (Receipt α)) : Decidable (Honest w) :=
  decidable_of_iff ((∀ d ∈ w.delivered, HonestResult d) ∧
      ∀ p ∈ w.listing, ∃ a, p.2 = .leaf a)
    ⟨fun h => ⟨h.1, h.2⟩, fun h => ⟨h.results, h.deferred⟩⟩

/-- The leaves of a lookup. -/
def leavesOf (o : Option (Receipt α)) : List α :=
  (o.map Receipt.frontier).getD []

/-- The leaves below a source, by the outputs the stage holds. -/
def readLeaves (s : Stage (Receipt α)) : Src Nat → List α
  | .leaf id =>
      leavesOf ((s.proveTasks.find? fun t => t.taskId = id).map (·.output))
  | .node id =>
      leavesOf ((s.aggTasks.find? fun a => a.taskId = id).map (·.output))

/-- The leaves of an input are those of its receipt. -/
theorem readLeaves_receipt {s : Stage (Receipt α)}
    {i : AggregateInput (Receipt α)} {t : Receipt α}
    (h : s.findReceipt i = some t) : readLeaves s i.src = t.frontier := by
  rw [Stage.findReceipt] at h
  rw [AggregateInput.src]
  cases hagg : i.isAgg with
  | true =>
      rw [hagg, if_pos rfl] at h
      rw [if_pos rfl, readLeaves, h]
      rfl
  | false =>
      rw [hagg, if_neg (by simp)] at h
      rw [if_neg (by simp), readLeaves, h]
      rfl

/-- The inputs of a task read as its sources. -/
theorem readLeaves_fill {s : Stage (Receipt α)} :
    ∀ {inputs filled : List (AggregateInput (Receipt α))},
      s.fillInputs inputs = some filled →
      (filled.map (·.receiptInput)).flatMap Receipt.frontier
        = (inputs.map (·.src)).flatMap (readLeaves s)
  | [], _, h => by cases h; rfl
  | i :: inputs, filled, h => by
      obtain ⟨receipt, hr, h⟩ := Option.bind_eq_some_iff.mp h
      obtain ⟨rest, hrest, rfl⟩ := Option.map_eq_some_iff.mp h
      rw [List.map_cons, List.flatMap_cons, List.map_cons, List.flatMap_cons,
        readLeaves_fill hrest, readLeaves_receipt hr]

section

variable {feat : Feature} {w : World (Receipt α)}

/-- **NODES**: a finished agg task reads as the row of its sources. -/
theorem readLeaves_node (hs : Shape w) (hc : Credit w) (hh : Honest w)
    {a : AggTask (Receipt α)} (ha : a ∈ w.stage.aggTasks)
    (hreal : a.fromProve = false) (hst : a.state = .Success) :
    readLeaves w.stage (.node a.taskId) = a.output.frontier ∧
      a.output.frontier
        = a.item.node.srcs.flatMap (readLeaves w.stage) := by
  constructor
  · rw [readLeaves, find?_of_mem hs.agg_nodup ha]
    rfl
  · have hcredit := hc.agg a ha hreal
    rw [if_pos hst] at hcredit
    obtain ⟨p, hp, hpa⟩ := List.mem_map.mp
      (hcredit ▸ List.mem_singleton_self (a.output, _))
    obtain ⟨hmem, _, hps⟩ := mem_aggsOf.mp hp
    have hout : p.output = a.output := congrArg Prod.fst hpa
    have hin : some p.inputs = w.stage.fillInputs a.inputs :=
      congrArg Prod.snd hpa
    rw [← hout, hh.results _ hmem hps, Receipt.frontier_node]
    exact readLeaves_fill hin.symm

/-- The root of a finished graph reads as the row of prove tasks. -/
theorem Root.frontier (hs : Shape w) (hc : Credit w) (hh : Honest w)
    {a : AggTask (Receipt α)} (hroot : Root w.stage a)
    (hreal : a.fromProve = false)
    (hall : ∀ b ∈ w.stage.aggTasks, b.state = .Success) :
    a.output.frontier
      = w.stage.proveTasks.flatMap fun t => t.output.frontier := by
  have hval : ∀ n ∈ planNodes (w.stage.aggTasks.map (·.item)),
      readLeaves w.stage (.node n.id)
        = n.srcs.flatMap (readLeaves w.stage) := by
    intro n hn
    obtain ⟨i, hi, hr, rfl⟩ := mem_planNodes.mp hn
    obtain ⟨b, hb, rfl⟩ := List.mem_map.mp hi
    obtain ⟨h1, h2⟩ := readLeaves_node hs hc hh hb hr (hall b hb)
    exact h1.trans h2
  have hvalue := hroot.leaves.value hval
  rw [List.flatMap_singleton, Item.root,
    if_neg (show ¬ a.item.fromProve = true by
      rw [show a.item.fromProve = false from hreal]; rintro ⟨⟩)] at hvalue
  rw [← (readLeaves_node hs hc hh hroot.mem hreal
    (hall a hroot.mem)).1]
  refine hvalue.trans ?_
  rw [List.flatMap_map]
  refine List.flatMap_congr fun t ht => ?_
  rw [readLeaves, find?_of_mem hs.prove_nodup ht]
  rfl

/-! ## The row of prove tasks -/

/-- Normal prove tasks come first. -/
theorem Rows.split (hs : Shape w) (hr : Rows feat w)
    (hd : w.stage.isTasksGenDone = true) :
    w.stage.proveTasks = w.stage.proveTasks.filter (fun t => !t.isDeferred)
      ++ w.stage.proveTasks.filter fun t => t.isDeferred := by
  refine eq_of_map_key hs.prove_nodup (fun t ht => ht) ?_ ?_
  · intro t ht
    rcases List.mem_append.mp ht with ht | ht
    · exact (List.mem_filter.mp ht).1
    · exact (List.mem_filter.mp ht).1
  · have horder := (hr.row hd).order
    rw [List.filter_map, List.filter_map, ← List.map_append] at horder
    have hids := congrArg (List.map fun l : Label (Receipt α) => l.id) horder
    rw [List.map_map, List.map_map] at hids
    exact hids.symm

/-- The deferred prove tasks are the listing. -/
theorem Rows.deferred (hr : Rows feat w)
    (hd : w.stage.isTasksGenDone = true) :
    ((w.stage.proveTasks.filter fun t => t.isDeferred).map
      fun t => (t.fileNo, t.output)).Perm w.listing := by
  have hperm := (hr.row hd).deferred
  have hmap : ((w.stage.proveTasks.map ProveTask.label).filter
        fun l => l.isDeferred).map (fun l => (l.fileNo, l.content))
      = ((w.stage.proveTasks.filter fun t => t.isDeferred).map
          fun t => (t.fileNo, t.output)).map fun p => (p.1, some p.2) := by
    rw [List.filter_map, List.map_map, List.map_map]
    refine List.map_congr_left fun t ht => ?_
    have hdef : t.isDeferred = true := (List.mem_filter.mp ht).2
    show (t.fileNo, if t.isDeferred then some t.output else none) = _
    rw [if_pos hdef]
    rfl
  rw [hmap] at hperm
  have hinj : Function.Injective fun p : Nat × Receipt α => (p.1, some p.2) := by
    rintro ⟨i, x⟩ ⟨j, y⟩ hij
    cases hij
    rfl
  exact (List.map_perm_map_iff hinj).mp hperm

/-- The results for the segment of a normal task are the task's. -/
theorem Rows.segmentResults (hs : Shape w) (hr : Rows feat w)
    (hd : w.stage.isTasksGenDone = true) {t : ProveTask (Receipt α)}
    (ht : t ∈ w.stage.proveTasks) (hdef : t.isDeferred = false) :
    segmentResults t.fileNo w.delivered = provesOf t.taskId w.delivered := by
  have hrow := hr.row hd
  -- normal tasks are known by their numbers
  have hinj : ∀ u ∈ w.stage.proveTasks, u.isDeferred = false →
      u.fileNo = t.fileNo → u = t := by
    intro u hu hudef hno
    have hnd : ((w.stage.proveTasks.filter fun t => !t.isDeferred).map
        (·.fileNo)).Nodup := by
      have hnormal := hrow.normal
      rw [List.filter_map, List.map_map] at hnormal
      exact hnormal ▸ List.nodup_range
    exact List.inj_on_of_nodup_map hnd
      (List.mem_filter.mpr ⟨hu, by rw [hudef]; rfl⟩)
      (List.mem_filter.mpr ⟨ht, by rw [hdef]; rfl⟩) hno
  rw [ZkmProver.segmentResults, provesOf]
  refine List.filter_congr fun r hr' => ?_
  have hmem : Task.Prove r ∈ w.delivered := by
    obtain ⟨d, hd', hdr⟩ := List.mem_filterMap.mp hr'
    cases d with
    | Prove u => rwa [← Option.some.inj hdr]
    | Split u => cases hdr
    | Agg u => cases hdr
    | Snark u => cases hdr
  have hiff : r.fileNo = t.fileNo ↔ r.taskId = t.taskId := by
    cases hr.delivered r hmem with
    | known l hl hid hno hldef =>
        obtain ⟨u, hu, rfl⟩ := List.mem_map.mp hl
        have hid' : u.taskId = r.taskId := hid
        have hno' : u.fileNo = r.fileNo := hno
        constructor
        · intro h
          rw [← hid', hinj u hu hldef (hno'.trans h)]
        · intro h
          rw [← hno', eq_of_key hs.prove_nodup hu ht (hid'.trans h)]
    | beyond _ hle hgone =>
        have hlt : t.fileNo < _ := hrow.fileNo_lt (mem_labels ht) hdef
        constructor
        · intro h
          omega
        · intro h
          exact absurd h.symm (hgone _ (mem_labels ht))
  exact decide_eq_decide.mpr (and_congr_left fun _ => hiff)

/-- **IN ORDER**: what a stage publishes with success is one term over the
    accepted results of all segments, in order and each once, and then the
    deferred proofs by file number; how files are read as terms is left
    open. -/
theorem aggregated_in_order [Blob (Receipt α)] {g : GenerateTask (Receipt α)}
    (hfrom : g.fromStep = .Init) (hwhole : g.compositeProof = false)
    (htarget : g.targetStep = .Agg ∨ g.targetStep = .Snark)
    (h : Reachable feat g w) (hseg : EnoughSegments feat w) (hh : Honest w)
    (hsucc : w.stage.isSuccess = true) :
    ∃ (proof : Receipt α) (segments deferred : List (Nat × α)),
      published w = some proof ∧
      proof.frontier = segments.map Prod.snd ++ deferred.map Prod.snd ∧
      segments.map Prod.fst = List.range w.stage.splitTask.totalSegments ∧
      (∀ p ∈ segments,
        (segmentResults p.1 w.delivered).map (·.output) = [.leaf p.2]) ∧
      (deferred.map fun p => (p.1, Receipt.leaf p.2)).Perm w.listing ∧
      deferred.Pairwise fun p q => p.1 ≤ q.1 := by
  have hr := h.rows (Or.inl hfrom)
  obtain ⟨ha, a, hroot, hreal, hpub⟩ :=
    h.published hfrom hwhole htarget hseg hsucc
  have hd := ha.proved.done
  have hrow := hr.row hd
  have hperm := hr.deferred hd
  -- every prove task holds a leaf
  have hnormal : ∀ t ∈ w.stage.proveTasks.filter (fun t => !t.isDeferred),
      ∃ x, (provesOf t.taskId w.delivered).map (·.output) = [.leaf x] ∧
        t.output = .leaf x := by
    intro t ht
    obtain ⟨hmem, hdef⟩ := List.mem_filter.mp ht
    have hcredit := h.credit.prove t hmem (by simpa using hdef)
    rw [if_pos (ha.proved.all t hmem)] at hcredit
    obtain ⟨r, hrm, hout⟩ := List.mem_map.mp
      (hcredit ▸ List.mem_singleton_self t.output)
    obtain ⟨hrd, _, hrs⟩ := mem_provesOf.mp hrm
    obtain ⟨x, hx⟩ := hh.results _ hrd hrs
    have htx : t.output = .leaf x := hout.symm.trans hx
    exact ⟨x, by rw [hcredit, htx], htx⟩
  have hdeferred : ∀ t ∈ w.stage.proveTasks.filter (fun t => t.isDeferred),
      ∃ x, t.output = .leaf x := by
    intro t ht
    obtain ⟨hmem, hdef⟩ := List.mem_filter.mp ht
    exact hh.deferred _ (hperm.mem_iff.mp (List.mem_map_of_mem ht))
  let no := fun t : ProveTask (Receipt α) => t.fileNo
  let out := fun t : ProveTask (Receipt α) => t.output
  obtain ⟨segments, hsegs⟩ := Receipt.exists_leaves no out
    fun t ht => ⟨_, (hnormal t ht).choose_spec.2⟩
  obtain ⟨deferred, hdefs⟩ := Receipt.exists_leaves no out hdeferred
  have hnos := congrArg (List.map Prod.fst) hsegs
  rw [List.map_map, List.map_map] at hnos
  have hdefnos := congrArg (List.map Prod.fst) hdefs
  rw [List.map_map, List.map_map] at hdefnos
  refine ⟨a.output, segments, deferred, hpub, ?_, ?_, ?_, ?_, ?_⟩
  · rw [hroot.frontier h.shape h.credit hh hreal ha.aggs,
      hr.split h.shape hd, List.flatMap_append]
    exact congrArg₂ (· ++ ·) (Receipt.flatMap_frontier hsegs)
      (Receipt.flatMap_frontier hdefs)
  · have hnormals := hrow.normal
    rw [List.filter_map, List.map_map] at hnormals
    exact hnos.symm.trans hnormals
  · intro p hp
    have hpm := List.mem_map_of_mem (f := fun p : Nat × α =>
      (p.1, Receipt.leaf p.2)) hp
    rw [← hsegs] at hpm
    obtain ⟨t, ht, htp⟩ := List.mem_map.mp hpm
    obtain ⟨x, hres, hout⟩ := hnormal t ht
    obtain ⟨hmem, hdef⟩ := List.mem_filter.mp ht
    have hno : t.fileNo = p.1 := congrArg Prod.fst htp
    have hx : t.output = .leaf p.2 := congrArg Prod.snd htp
    rw [← hno, hr.segmentResults h.shape hd hmem (by simpa using hdef), hres,
      ← hx, hout]
  · rw [← hdefs]
    exact hperm
  · have hsorted := hrow.sorted
    rw [List.filter_map, List.pairwise_map] at hsorted
    have hpair := (List.pairwise_map (f := no)).mpr hsorted
    exact List.pairwise_map.mp (hdefnos ▸ hpair)

end

/-! ## Two segments and a deferred proof -/

/-- A node reads as a vector of its children. -/
instance : Blob (Receipt Nat) where
  empty := .node []
  deserialize
    | .leaf _ => none
    | .node children => some children
  fromUtf8 := fun _ => none

/-- A request with receipts to be verified inside the program. -/
def treeRequest : GenerateTask (Receipt Nat) :=
  { aggRequest with receiptInputsPath := "/receipts" }

/-- The directory of `treeRun`; other files are ignored. -/
def treeDisk : Disk (Receipt Nat) where
  read := fun path =>
    if path = "/deferred_proof_4" then some (.leaf 104)
    else if path = "/receipts" then some (.node [.leaf 7])
    else some (.leaf 0)
  readToString := fun _ => none
  readDir := fun _ => some ["segments.txt", "deferred_proof_4"]
  existsPath := fun _ => true

/-- A run with a returned and a failed prove task, and results out of order. -/
def treeRun : List (Action (Receipt Nat)) :=
  [.dispatch treeDisk, .getSplit 1, .onSplit 0 ⟨.Success, "a", 10, 2⟩ 2,
    .getProve treeDisk 3, .onProve 0 ⟨.Unprocessed, "a", .node []⟩ 3,
    .dispatch treeDisk, .getProve treeDisk 4, .getProve treeDisk 4,
    .onProve 1 ⟨.Success, "b", .leaf 11⟩ 5,
    .onProve 0 ⟨.Failed, "a", .node []⟩ 5,
    .getProve treeDisk 6, .onProve 0 ⟨.Success, "b", .leaf 10⟩ 7,
    .getAgg 8, .getAgg 8, .getAgg 8,
    .onAgg 2 ⟨.Success, "a", .node [.leaf 104]⟩ 9 true,
    .onAgg 1 ⟨.Success, "b", .node [.leaf 11]⟩ 9 true,
    .onAgg 0 ⟨.Success, "c", .node [.leaf 10]⟩ 9 true,
    .getAgg 10, .getAgg 10,
    .onAgg 1 ⟨.Success, "a", .node [.node [.leaf 104]]⟩ 11 true,
    .onAgg 0 ⟨.Success, "b", .node [.node [.leaf 10], .node [.leaf 11]]⟩ 11
      true,
    .getAgg 12,
    .onAgg 0 ⟨.Success, "a", .node [.node [.node [.leaf 10], .node [.leaf 11]],
      .node [.node [.leaf 104]]]⟩ 13 true,
    .dispatch treeDisk]

/-- The theorem at work on that run. -/
theorem aggregated_in_order_tree :
    ∃ w, Reachable .proverV2 treeRequest w ∧
      treeRequest.receiptInputsPath ≠ "" ∧
      w.stage.splitTask.totalSegments = 2 ∧
      ∃ (proof : Receipt Nat) (segments deferred : List (Nat × Nat)),
        published w = some proof ∧
        proof.frontier = segments.map Prod.snd ++ deferred.map Prod.snd ∧
        segments.map Prod.fst = [0, 1] ∧
        (deferred.map fun p => (p.1, Receipt.leaf p.2)).Perm
          [(4, .leaf 104)] := by
  obtain ⟨w, hr, hp⟩ := Reachable.of_check .proverV2 treeRequest treeRun
    (fun w => w.stage.isSuccess = true ∧ Honest w ∧
      w.stage.splitTask.totalSegments = 2 ∧ w.listing = [(4, .leaf 104)] ∧
      w.delivered.all (Task.splitsInto 2)) (by decide +kernel)
  obtain ⟨hsucc, hhonest, htotal, hlist, hall⟩ := of_decide_eq_true hp
  have hseg : EnoughSegments .proverV2 w := by
    intro t ht _
    have htwo := of_decide_eq_true (List.all_eq_true.mp hall _ ht)
    rw [htwo]
    decide
  obtain ⟨proof, segments, deferred, hpub, hfront, hnos, _, hperm, _⟩ :=
    aggregated_in_order rfl rfl (Or.inl rfl) hr hseg hhonest hsucc
  rw [htotal] at hnos
  rw [hlist] at hperm
  exact ⟨w, hr, by decide, htotal, proof, segments, deferred, hpub, hfront, hnos, hperm⟩

end ZkmProver
