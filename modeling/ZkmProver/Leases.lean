import ZkmProver.StepMoves

/-! # One copy in flight — the scheduler as a table of leases

    Handing a task out and taking its result back are `Lease.handOut` and
    `Lease.takeBack` on the task lists of the stage.  The ids of tasks that
    were truncated away are never drawn again, so a late copy of such a task
    belongs to no entry. -/

namespace ZkmProver

open Forest Keyed

variable {β : Type}

/-! ## Members of the tables after a move -/

/-- A prove task that was made just now. -/
inductive Newborn (u : Nat) (t : ProveTask β) : Prop where
  | normal : u ≤ t.taskId → t.isDeferred = false → t.state = .Unprocessed →
      Newborn u t
  | deferred : u ≤ t.taskId → t.isDeferred = true → t.state = .Success →
      Newborn u t

/-- A new task has a new id. -/
theorem Newborn.id_le {u : Nat} {t : ProveTask β} (h : Newborn u t) :
    u ≤ t.taskId := by
  cases h with
  | normal h _ _ => exact h
  | deferred h _ _ => exact h

/-- A new task is not out. -/
theorem Newborn.idle {u : Nat} {t : ProveTask β} (h : Newborn u t) :
    t.state ≠ .Processing := by
  cases h with
  | normal _ _ h => rw [h]; decide
  | deferred _ _ h => rw [h]; decide

/-- Clearing changes the children only. -/
theorem mem_clearAll {ids : List Nat} {as : List (AggTask β)} {a : AggTask β}
    (h : a ∈ clearAll ids as) :
    ∃ b ∈ as, ∃ childs, a = { b with childs := childs } := by
  have hmap := map_clearAll (fun a : AggTask β => { a with childs := [] })
    (fun _ _ => rfl) ids as
  have hmem := List.mem_map_of_mem (f := fun a : AggTask β =>
    { a with childs := [] }) h
  rw [hmap, List.mem_map] at hmem
  obtain ⟨b, hb, hba⟩ := hmem
  refine ⟨b, hb, a.childs, ?_⟩
  cases a
  cases b
  cases hba
  rfl

/-- So does clearing on a success. -/
theorem mem_clearOn {state : TaskState} {id : Nat} {as : List (AggTask β)}
    {a : AggTask β} (h : a ∈ clearOn state id as) :
    ∃ b ∈ as, ∃ childs, a = { b with childs := childs } := by
  rw [clearOn_eq_clearAll] at h
  exact mem_clearAll h

section

variable [Blob β]

/-- The tasks of the new files are new. -/
theorem Grown.newborn {g : GenerateTask β} {uuid fileNo : Nat}
    {new : List (ProveTask β)} (h : Grown g uuid fileNo new) :
    ∀ t ∈ new, Newborn uuid t := by
  intro t ht
  have hid := (fresh_range h.ids t ht).1
  obtain ⟨program, id, no, rfl⟩ := h.mem ht
  exact .normal hid rfl rfl

/-- A task of the completed list is an old one or a new one. -/
theorem Completed.mem {s : Stage β} {normal : List (ProveTask β)} {u : Nat}
    (h : Completed s normal u) :
    s.uuid ≤ u ∧ ∀ t ∈ normal, t ∈ s.proveTasks ∨ Newborn s.uuid t := by
  cases h with
  | cut _ =>
      exact ⟨Nat.le_refl _, fun t ht => Or.inl (List.mem_of_mem_take ht)⟩
  | extend new _ _ hg =>
      refine ⟨Nat.le_add_right .., ?_⟩
      intro t ht
      rcases List.mem_append.mp ht with ht | ht
      · exact Or.inl ht
      · exact Or.inr (hg.newborn t ht)

/-- The prove tasks of a finalised stage. -/
theorem Finalised.mem_prove {feat : Feature} {s s' : Stage β}
    {listing : List (Nat × β)} (h : Finalised feat s s' listing) :
    ∀ t ∈ s'.proveTasks, t ∈ s.proveTasks ∨ Newborn s.uuid t := by
  cases h with
  | mk normal deferred as u u' errmsg listing _ _ _ _ hn hd _ =>
      obtain ⟨hu, hmem⟩ := hn.mem
      intro t ht
      rcases List.mem_append.mp ht with ht | ht
      · exact hmem t ht
      · obtain ⟨hdef, hst⟩ := hd.born t ht
        have hid := (fresh_range hd.ids t ht).1
        exact Or.inr (.deferred (Nat.le_trans hu hid) hdef hst)

/-- The agg tasks of a finalised stage: the pseudo task is done, the others
    wait. -/
theorem Finalised.mem_agg {feat : Feature} {s s' : Stage β}
    {listing : List (Nat × β)} (h : Finalised feat s s' listing) :
    ∀ a ∈ s'.aggTasks,
      a.state = if a.fromProve then .Success else .Unprocessed := by
  cases h with
  | mk normal deferred as u u' errmsg listing _ _ _ _ _ _ hg =>
      intro a ha
      obtain ⟨b, hb, childs, rfl⟩ := mem_clearAll ha
      show b.state = if b.fromProve then _ else _
      cases hg with
      | composite _ => exact nomatch hb
      | planned _ _ _ _ _ hplanned _ =>
          cases hplanned b hb with
          | pseudo hf _ _ hst => rw [hf, hst]; rfl
          | waits hf hst _ => rw [hf, hst]; rfl
          | deferred hf hst _ _ => rw [hf, hst]; rfl

/-! ## Leases -/

/-- At most one copy of each task is in flight, and only of tasks in state
    PROCESSING. -/
structure Leases (w : World β) : Prop where
  split : Lease (fun _ => ()) (fun t => t.state = .Processing)
    [w.stage.splitTask] w.splits
  prove : Lease (fun t => t.taskId) (fun t => t.state = .Processing)
    w.stage.proveTasks w.proves
  agg   : Lease (fun a => a.taskId) (fun a => a.state = .Processing)
    w.stage.aggTasks w.aggs
  known : ∀ c ∈ w.aggs, ∃ a ∈ w.stage.aggTasks, a.taskId = c.taskId
  snark : Lease (fun _ => ()) (fun t => t.state = .Processing)
    [w.stage.snarkTask] w.snarks

/-- Nothing is out of a new stage. -/
theorem Leases.start (g : GenerateTask β) (file : Option β) :
    Leases (World.start g file) :=
  ⟨.start, .start, .start, fun _ hc => (nomatch hc), .start⟩

theorem waiting_idle {state : TaskState} (h : state.waiting = true) :
    state ≠ .Processing := by
  intro hp
  rw [hp] at h
  exact nomatch h

variable {feat : Feature} {w w' : World β}

/-- The split is out at most once. -/
theorem Leases.moved_split (h : Leases w) (hm : Moved feat w w') :
    Lease (fun _ => ()) (fun t => t.state = .Processing) [w'.stage.splitTask]
      w'.splits := by
  cases hm with
  | start split _ hfresh _ =>
      -- a task that was never made is in nobody's hands
      refine h.split.change ?_
      intro x _
      refine Or.inr ?_
      intro c hc
      have hbusy := h.split.busy c hc w.stage.splitTask
        (List.mem_singleton_self _) rfl
      rw [hfresh] at hbusy
      exact nomatch hbusy
  | finalise s listing hf =>
      cases hf with
      | mk _ _ _ _ _ _ _ _ _ _ _ _ _ _ => exact h.split
  | splitOut now t hwait ht =>
      exact h.split.handOut (List.mem_singleton_self _) (waiting_idle hwait) rfl
        (by rw [ht]; rfl) rfl
  | splitIn i c r now hc =>
      exact h.split.takeBack hc fun x _ => Or.inr rfl
  | _ => exact h.split

/-- So is the snark task. -/
theorem Leases.moved_snark (h : Leases w) (hm : Moved feat w w') :
    Lease (fun _ => ()) (fun t => t.state = .Processing) [w'.stage.snarkTask]
      w'.snarks := by
  cases hm with
  | snarkNew snark hnew =>
      refine h.snark.change ?_
      intro x _
      refine Or.inr ?_
      intro c hc
      have hbusy := h.snark.busy c hc w.stage.snarkTask
        (List.mem_singleton_self _) rfl
      rw [hnew.fresh] at hbusy
      exact nomatch hbusy
  | finalise s listing hf =>
      cases hf with
      | mk _ _ _ _ _ _ _ _ _ _ _ _ _ _ => exact h.snark
  | snarkOut now t hwait ht =>
      exact h.snark.handOut (List.mem_singleton_self _) (waiting_idle hwait) rfl
        (by rw [ht]; rfl) rfl
  | snarkIn i c t r now hc _ _ =>
      exact h.snark.takeBack hc fun x _ => Or.inr rfl
  | _ => exact h.snark

omit [Blob β] in
/-- A late copy is not of a task made later. -/
theorem Shape.not_newborn (hs : Shape w) {c t : ProveTask β}
    (hc : c ∈ w.proves) (ht : Newborn w.stage.uuid t) : t.taskId ≠ c.taskId := by
  have hlt := hs.proves_lt c hc
  have hle := ht.id_le
  omega

/-- So is each prove task, and then it is busy. -/
theorem Leases.moved_prove (hs : Shape w) (h : Leases w)
    (hm : Moved feat w w') :
    Lease (fun t => t.taskId) (fun t => t.state = .Processing)
      w'.stage.proveTasks w'.proves := by
  cases hm with
  | grow new _ _ _ hg =>
      refine h.prove.change ?_
      intro t ht
      rcases List.mem_append.mp ht with ht | ht
      · exact Or.inl (.of_mem ht)
      · exact Or.inr fun c hc => hs.not_newborn hc (hg.newborn t ht)
  | finalise s listing hf =>
      refine h.prove.change ?_
      intro t ht
      rcases hf.mem_prove t ht with ht | ht
      · exact Or.inl (.of_mem ht)
      · exact Or.inr fun c hc => hs.not_newborn hc ht
  | proveOut now x t hx hwait ht =>
      subst ht
      exact h.prove.handOut hx (waiting_idle hwait) rfl rfl rfl
  | proveIn i c t r now ps err hc htaken _ _ =>
      refine h.prove.takeBack hc ?_
      intro x hx
      cases htaken with
      | miss _ => exact Or.inl (.of_mem hx)
      | hit y hy hid _ =>
          rcases mem_put.mp hx with ⟨hx, _⟩ | ⟨rfl, _⟩
          · exact Or.inl (.of_mem hx)
          · exact Or.inr ((onProveTaskDst_taskId ..).trans hid)
  | _ => exact h.prove

/-- So is each agg task, and it stays in the list. -/
theorem Leases.moved_agg (hs : Shape w) (h : Leases w) (hm : Moved feat w w') :
    Lease (fun a => a.taskId) (fun a => a.state = .Processing)
        w'.stage.aggTasks w'.aggs ∧
      ∀ c ∈ w'.aggs, ∃ a ∈ w'.stage.aggTasks, a.taskId = c.taskId := by
  cases hm with
  | finalise s listing hf =>
      -- before the graph exists no agg task is in flight
      have hnone : ∀ c, c ∉ w.aggs := by
        intro c hc
        obtain ⟨a, ha, _⟩ := h.known c hc
        cases hf with
        | mk _ _ _ _ _ _ _ _ hdone _ _ _ _ _ =>
            rw [(hs.early hdone).1] at ha
            exact nomatch ha
      refine ⟨h.agg.change ?_, fun c hc => absurd hc (hnone c)⟩
      exact fun a _ => Or.inr fun c hc => absurd hc (hnone c)
  | aggOut now x t inputs hx _ hwait ht _ =>
      subst ht
      refine ⟨h.agg.handOut hx (waiting_idle hwait) rfl rfl rfl, ?_⟩
      intro c hc
      rcases List.mem_append.mp hc with hc | hc
      · obtain ⟨a, ha, hac⟩ := h.known c hc
        obtain ⟨b, hb, hba⟩ := exists_key
          (map_key_put (fun a : AggTask β => a.taskId) _ _) ha
        exact ⟨b, hb, hba.trans hac⟩
      · rw [List.mem_singleton.mp hc]
        exact ⟨_, mem_put.mpr (Or.inr ⟨rfl, x, hx, rfl⟩), rfl⟩
  | proveIn i c t r now ps err hc htaken _ _ =>
      refine ⟨h.agg.change ?_, ?_⟩
      · intro a ha
        obtain ⟨b, hb, childs, rfl⟩ := mem_clearOn ha
        exact Or.inl ⟨b, hb, rfl, Iff.rfl⟩
      · intro d hd
        obtain ⟨a, ha, hac⟩ := h.known d hd
        obtain ⟨b, hb, hba⟩ := exists_key
          (map_clearOn (fun a : AggTask β => a.taskId) (fun _ _ => rfl) _ _ _) ha
        exact ⟨b, hb, hba.trans hac⟩
  | aggIn i c t r now as err file hc htaken _ _ _ =>
      refine ⟨h.agg.takeBack hc ?_, ?_⟩
      · intro a ha
        obtain ⟨b, hb, childs, rfl⟩ := mem_clearOn ha
        cases htaken with
        | miss _ => exact Or.inl ⟨b, hb, rfl, Iff.rfl⟩
        | hit y hy hid _ =>
            rcases mem_put.mp hb with ⟨hb, _⟩ | ⟨rfl, _⟩
            · exact Or.inl ⟨b, hb, rfl, Iff.rfl⟩
            · exact Or.inr ((onTask_taskId ..).trans hid)
      · intro d hd
        obtain ⟨a, ha, hac⟩ := h.known d (List.mem_of_mem_eraseIdx hd)
        obtain ⟨b, hb, hba⟩ := exists_key
          ((map_clearOn (fun a : AggTask β => a.taskId) (fun _ _ => rfl)
            _ _ _).trans htaken.ids) ha
        exact ⟨b, hb, hba.trans hac⟩
  | _ => exact ⟨h.agg, h.known⟩

/-- A move keeps the leases. -/
theorem Leases.moved (hs : Shape w) (h : Leases w) (hm : Moved feat w w') :
    Leases w' :=
  ⟨h.moved_split hm, h.moved_prove hs hm, (h.moved_agg hs hm).1,
    (h.moved_agg hs hm).2, h.moved_snark hm⟩

/-! ## No copy is lost -/

omit [Blob β] in
/-- The result a delivery brought. -/
def Task.head : Task β → TaskHead β
  | .Split t => t.toTaskHead
  | .Prove t => t.toTaskHead
  | .Agg t => t.toTaskHead
  | .Snark t => t.toTaskHead

/-- Some result was none of UNPROCESSED, SUCCESS and FAILED. -/
def Unsettled (w : World β) : Prop :=
  ∃ d ∈ w.delivered, d.head.state.settled = false

omit [Blob β] in
instance (w : World β) : Decidable (Unsettled w) :=
  inferInstanceAs (Decidable (∃ d ∈ w.delivered, d.head.state.settled = false))

/-- Every task in state PROCESSING has a copy in flight. -/
structure Held (w : World β) : Prop where
  split : Accounted (fun _ => ()) (fun t => t.state = .Processing)
    [w.stage.splitTask] w.splits (Unsettled w)
  prove : Accounted (fun t => t.taskId) (fun t => t.state = .Processing)
    w.stage.proveTasks w.proves (Unsettled w)
  agg   : Accounted (fun a => a.taskId) (fun a => a.state = .Processing)
    w.stage.aggTasks w.aggs (Unsettled w)
  snark : Accounted (fun _ => ()) (fun t => t.state = .Processing)
    [w.stage.snarkTask] w.snarks (Unsettled w)

/-- In every reachable state a task is out at most once, and then it is busy. -/
theorem Reachable.leases {g : GenerateTask β} (h : Reachable feat g w) :
    Leases w :=
  h.inv (Leases.start g) fun _ _ hs hl hm => hl.moved hs hm

/-- A new stage has nothing out to be held. -/
theorem Held.start (g : GenerateTask β) (file : Option β) :
    Held (World.start g file) := by
  refine ⟨?_, ?_, ?_, ?_⟩
  · intro t ht hb
    rw [List.mem_singleton.mp ht] at hb
    exact nomatch hb
  · intro t ht
    exact nomatch ht
  · intro t ht
    exact nomatch ht
  · intro t ht hb
    rw [List.mem_singleton.mp ht] at hb
    exact nomatch hb

omit [Blob β] in
/-- A settled result ends the lease. -/
theorem settled_idle {state : TaskState} (h : state.settled = true) :
    state ≠ .Processing := by
  intro hp
  rw [hp] at h
  exact nomatch h

/-- Results are only ever added to the record. -/
theorem Moved.delivered (hm : Moved feat w w') :
    w'.delivered = w.delivered ∨ ∃ d, w'.delivered = d :: w.delivered := by
  cases hm with
  | splitIn i c r now _ => exact Or.inr ⟨_, rfl⟩
  | proveIn i c t r now ps err _ _ _ _ => exact Or.inr ⟨_, rfl⟩
  | aggIn i c t r now as err file _ _ _ _ _ => exact Or.inr ⟨_, rfl⟩
  | snarkIn i c t r now _ _ _ => exact Or.inr ⟨_, rfl⟩
  | _ => exact Or.inl rfl

/-- A result that was unsettled stays one. -/
theorem Unsettled.moved (hm : Moved feat w w') (h : Unsettled w) :
    Unsettled w' := by
  obtain ⟨d, hd, hst⟩ := h
  rcases hm.delivered with heq | ⟨e, heq⟩
  · exact ⟨d, heq ▸ hd, hst⟩
  · exact ⟨d, heq ▸ List.mem_cons_of_mem e hd, hst⟩

/-- A split that is busy is out, or its result was unsettled. -/
theorem Held.moved_split (h : Held w) (hm : Moved feat w w') :
    Accounted (fun _ => ()) (fun t => t.state = .Processing)
      [w'.stage.splitTask] w'.splits (Unsettled w') := by
  have hmono := Unsettled.moved hm
  cases hm with
  | start split _ _ hst =>
      intro t ht hb
      rw [List.mem_singleton.mp ht] at hb
      exact nomatch hst.symm.trans hb
  | finalise s listing hf =>
      cases hf with
      | mk _ _ _ _ _ _ _ _ _ _ _ _ _ _ => exact h.split
  | splitOut now t _ ht =>
      exact h.split.handOut (List.mem_singleton_self _) rfl rfl
  | splitIn i c r now hc =>
      refine h.split.takeBack hc hmono ?_
      intro x hx hb
      refine Or.inr ⟨_, List.mem_cons_self .., ?_⟩
      show (stampSrc now (r.split c).toTaskHead).state.settled = false
      rw [stampSrc_state]
      cases hr : r.state.settled with
      | false => exact hr
      | true =>
          rw [List.mem_singleton.mp hx] at hb
          refine absurd ((onTask_state ..).symm.trans hb) ?_
          show (if r.state.settled then r.state else _) ≠ _
          rw [if_pos hr]
          exact settled_idle hr
  | _ => exact h.split.mono hmono

/-- The same for the snark task. -/
theorem Held.moved_snark (h : Held w) (hm : Moved feat w w') :
    Accounted (fun _ => ()) (fun t => t.state = .Processing)
      [w'.stage.snarkTask] w'.snarks (Unsettled w') := by
  have hmono := Unsettled.moved hm
  cases hm with
  | snarkNew snark hnew =>
      intro t ht hb
      rw [List.mem_singleton.mp ht] at hb
      exact nomatch hnew.state.symm.trans hb
  | finalise s listing hf =>
      cases hf with
      | mk _ _ _ _ _ _ _ _ _ _ _ _ _ _ => exact h.snark
  | snarkOut now t _ ht =>
      exact h.snark.handOut (List.mem_singleton_self _) rfl rfl
  | snarkIn i c t r now hc _ hback =>
      refine h.snark.takeBack hc hmono ?_
      intro x hx hb
      refine Or.inr ⟨_, List.mem_cons_self .., ?_⟩
      show t.state.settled = false
      rw [hback.state]
      cases hr : r.state.settled with
      | false => rfl
      | true =>
          rw [List.mem_singleton.mp hx] at hb
          refine absurd ((onTask_state ..).symm.trans hb) ?_
          show (if r.state.settled then r.state else _) ≠ _
          rw [if_pos hr]
          exact settled_idle hr
  | _ => exact h.snark.mono hmono

/-- The same for the prove tasks. -/
theorem Held.moved_prove (h : Held w) (hm : Moved feat w w') :
    Accounted (fun t => t.taskId) (fun t => t.state = .Processing)
      w'.stage.proveTasks w'.proves (Unsettled w') := by
  have hmono := Unsettled.moved hm
  cases hm with
  | grow new _ _ _ hg =>
      refine h.prove.change ?_
      intro t ht hb
      rcases List.mem_append.mp ht with ht | ht
      · exact .of_mem ht
      · exact absurd hb (hg.newborn t ht).idle
  | finalise s listing hf =>
      refine h.prove.change ?_
      intro t ht hb
      rcases hf.mem_prove t ht with ht | ht
      · exact .of_mem ht
      · exact absurd hb ht.idle
  | proveOut now x t hx _ ht =>
      subst ht
      exact h.prove.handOut hx rfl rfl
  | proveIn i c t r now ps err hc htaken _ hback =>
      refine h.prove.takeBack hc hmono ?_
      intro x hx hb
      have hlost : r.state.settled = false → Unsettled
          { w with delivered := .Prove t :: w.delivered } := by
        intro hr
        refine ⟨_, List.mem_cons_self .., ?_⟩
        show t.state.settled = false
        rw [hback.state]
        exact hr
      cases htaken with
      | miss hmiss =>
          -- a busy entry with this id would have been matched
          refine Or.inl ⟨.of_mem hx, ?_⟩
          exact fun hid => hmiss x hx hid hb
      | hit y hy hid _ =>
          rcases (mem_put_of_mem hy (onProveTaskDst_taskId ..)).mp hx with
            rfl | ⟨hx, hne⟩
          · refine Or.inr (hlost ?_)
            rw [onProveTaskDst_state] at hb
            cases hr : r.state.settled with
            | false => rfl
            | true =>
                have hst : r.state = .Processing := by
                  rwa [if_pos (show (r.prove c).state.settled = true from hr)]
                    at hb
                exact absurd hst (settled_idle hr)
          · exact Or.inl ⟨.of_mem hx, fun hk => hne (hk.trans hid.symm)⟩
  | _ => exact h.prove.mono hmono

/-- The same for the agg tasks. -/
theorem Held.moved_agg (h : Held w) (hm : Moved feat w w') :
    Accounted (fun a => a.taskId) (fun a => a.state = .Processing)
      w'.stage.aggTasks w'.aggs (Unsettled w') := by
  have hmono := Unsettled.moved hm
  cases hm with
  | finalise s listing hf =>
      intro a ha hb
      rw [hf.mem_agg a ha] at hb
      cases hp : a.fromProve <;> simp [hp] at hb
  | aggOut now x t inputs hx _ _ ht _ =>
      subst ht
      exact h.agg.handOut hx rfl rfl
  | proveIn i c t r now ps err hc htaken _ _ =>
      refine (h.agg.change ?_).mono hmono
      intro a ha _
      obtain ⟨b, hb, childs, rfl⟩ := mem_clearOn ha
      exact ⟨b, hb, rfl, Iff.rfl⟩
  | aggIn i c t r now as err file hc htaken _ hback _ =>
      refine h.agg.takeBack hc hmono ?_
      intro x hx hb
      obtain ⟨b, hbm, childs, rfl⟩ := mem_clearOn hx
      cases htaken with
      | miss hmiss =>
          refine Or.inl ⟨⟨b, hbm, rfl, Iff.rfl⟩, ?_⟩
          exact fun hid => hmiss b hbm hid hb
      | hit y hy hid _ =>
          rcases (mem_put_of_mem hy (onTask_taskId ..)).mp hbm with
            rfl | ⟨hbm, hne⟩
          · refine Or.inr ⟨_, List.mem_cons_self .., ?_⟩
            show t.state.settled = false
            rw [hback.state]
            cases hr : r.state.settled with
            | false => rfl
            | true =>
                refine absurd ((onTask_state ..).symm.trans hb) ?_
                show (if r.state.settled then r.state else _) ≠ _
                rw [if_pos hr]
                exact settled_idle hr
          · exact Or.inl ⟨⟨b, hbm, rfl, Iff.rfl⟩,
              fun hk => hne (hk.trans hid.symm)⟩
  | _ => exact h.agg.mono hmono

/-- A move keeps what is held. -/
theorem Held.moved (h : Held w) (hm : Moved feat w w') : Held w' :=
  ⟨h.moved_split hm, h.moved_prove hm, h.moved_agg hm, h.moved_snark hm⟩

/-- In every reachable state a busy task is out, or a result was unsettled. -/
theorem Reachable.held {g : GenerateTask β} (h : Reachable feat g w) :
    Held w :=
  h.inv (Held.start g) fun _ _ _ hl hm => hl.moved hm

end

end ZkmProver
