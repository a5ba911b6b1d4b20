import ZkmProver.Worker

/-! # The list of prove tasks — one for each segment, whatever the polls said

    `dispatch` appends to the list, for 64 segments at first and for as many
    as `segments.txt` says later on; once, when the split is done, it cuts or
    completes the list to the number of segments and appends the deferred
    proofs (`Relisted`).  Everything else writes to the tasks in their places.
    So position `i` is segment `i`, and no task changes its id. -/

namespace ZkmProver

open Forest Keyed Machine

variable {β : Type} [Blob β]

/-! ## Tasks for consecutive segments -/

section

variable {g : GenerateTask β} {uuid fileNo : Nat} {new more : List (ProveTask β)}

/-- The `k`-th new task is that of the `k`-th next segment. -/
theorem Grown.getElem? (h : Grown g uuid fileNo new) {k : Nat}
    {t : ProveTask β} (hk : new[k]? = some t) :
    ∃ program, t = segTask g program (uuid + k) (fileNo + k) := by
  induction h generalizing k with
  | nil => cases hk
  | cons program _ ih =>
      cases k with
      | zero =>
          cases hk
          exact ⟨program, rfl⟩
      | succ k =>
          obtain ⟨program', ht⟩ := ih hk
          refine ⟨program', ?_⟩
          rw [ht, Nat.succ_add_eq_add_succ, Nat.succ_add_eq_add_succ]

end

/-- The deferred tasks at the end of the list. -/
structure Late (feat : Feature) (uuid : Nat) (deferred : List (ProveTask β)) :
    Prop where
  born   : ∀ t ∈ deferred,
    uuid ≤ t.taskId ∧ t.isDeferred = true ∧ t.failureCount = 0
  sorted : deferred.Pairwise fun t u => t.fileNo ≤ u.fileNo
  none   : feat = .prover → deferred = []

/-- What a `dispatch` does to the list. -/
inductive Relisted (feat : Feature) (s s' : Stage β) : Prop where
  | grown (new : List (ProveTask β)) :
      Grown s.generateTask s.uuid s.proveTasks.length new →
      (s.isTasksGenDone = true → new = []) →
      s'.proveTasks = s.proveTasks ++ new →
      s'.isTasksGenDone = s.isTasksGenDone → Relisted feat s s'
  | finalised (new deferred : List (ProveTask β)) :
      Grown s.generateTask s.uuid s.proveTasks.length new →
      s.isTasksGenDone = false → s'.isTasksGenDone = true →
      s.splitTask.state = .Success →
      s.splitTask.totalSegments ≤ s.proveTasks.length + new.length →
      s'.proveTasks
        = (s.proveTasks ++ new).take s.splitTask.totalSegments ++ deferred →
      Late feat s.uuid deferred → Relisted feat s s'

section

variable {feat : Feature} {s s' : Stage β} {disk : Disk β}

/-! ## The code of `dispatch` -/

/-- Completing the list grows it and cuts it at the number of segments. -/
theorem completeProveTasks_list (h : s.completeProveTasks disk = some s') :
    ∃ new, Grown s.generateTask s.uuid s.proveTasks.length new ∧
      s.splitTask.totalSegments ≤ s.proveTasks.length + new.length ∧
      s' = { s with
        proveTasks := (s.proveTasks ++ new).take s.splitTask.totalSegments
        uuid := s.uuid + new.length } := by
  rw [Stage.completeProveTasks] at h
  by_cases hcut : s.splitTask.totalSegments < s.proveTasks.length
  · simp only [if_pos hcut] at h
    cases h
    refine ⟨[], .nil, Nat.le_of_lt hcut, ?_⟩
    rw [List.append_nil]
    rfl
  · simp only [if_neg hcut] at h
    obtain ⟨new, hg, hlen, rfl⟩ := extendProveTasks_grown h
    have htotal : s.splitTask.totalSegments
        = (s.proveTasks ++ new).length := by
      rw [List.length_append]
      omega
    refine ⟨new, hg, ?_, ?_⟩
    · rw [htotal, List.length_append]
    · rw [htotal, List.take_length]

/-- A deferred task has never failed. -/
theorem genDeferredTasks_list (h : s.genDeferredTasks disk = some s') :
    ∃ deferred, Late .proverV2 s.uuid deferred ∧
      s' = { s with
        proveTasks := s.proveTasks ++ deferred, uuid := s'.uuid } := by
  obtain ⟨deferred, hd, hs'⟩ := genDeferredTasks_spec h
  have hfresh : ∀ t ∈ deferred, t.failureCount = 0 := by
    rw [Stage.genDeferredTasks, Option.bind_eq_bind,
      Option.bind_eq_some_iff] at h
    obtain ⟨files, _, h⟩ := h
    have hlist : s'.proveTasks = s.proveTasks ++ deferred :=
      congrArg Stage.proveTasks hs'
    dsimp only at h
    split at h
    · cases h
      rw [List.self_eq_append_right.mp hlist]
      exact fun t ht => absurd ht List.not_mem_nil
    · rw [Option.bind_eq_bind, Option.bind_eq_some_iff] at h
      obtain ⟨program, _, h⟩ := h
      cases h
      rw [← List.append_cancel_left hlist]
      intro t ht
      obtain ⟨k, hk, rfl⟩ := List.mem_mapIdx.mp ht
      rfl
  refine ⟨deferred, ⟨?_, hd.sorted, fun hf => by cases hf⟩, ?_⟩
  · intro t ht
    exact ⟨(fresh_range hd.ids t ht).1, (hd.born t ht).1, hfresh t ht⟩
  · rw [hs']

/-- Behind the split the deferred tasks join as well. -/
theorem genProveTaskPost_list (h : s.genProveTaskPost feat disk = some s') :
    ∃ new deferred, Grown s.generateTask s.uuid s.proveTasks.length new ∧
      s.splitTask.totalSegments ≤ s.proveTasks.length + new.length ∧
      s'.proveTasks = (s.proveTasks ++ new).take s.splitTask.totalSegments
        ++ deferred ∧
      Late feat s.uuid deferred := by
  rw [Stage.genProveTaskPost, Option.bind_eq_bind, Option.bind_eq_some_iff] at h
  obtain ⟨s₁, h₁, h⟩ := h
  obtain ⟨new, hg, hle, rfl⟩ := completeProveTasks_list h₁
  cases feat with
  | prover =>
      refine ⟨new, [], hg, hle, ?_, ⟨?_, .nil, fun _ => rfl⟩⟩
      · rw [List.append_nil]
        dsimp only at h
        split at h
        · cases h
          rfl
        · cases h
          rfl
      · exact fun t ht => absurd ht List.not_mem_nil
  | proverV2 =>
      obtain ⟨deferred, hlate, hs'⟩ := genDeferredTasks_list h
      refine ⟨new, deferred, hg, hle, congrArg Stage.proveTasks hs', ?_⟩
      refine ⟨fun t ht => ?_, hlate.sorted, fun hf => by cases hf⟩
      obtain ⟨hid, hdef, hfresh⟩ := hlate.born t ht
      exact ⟨Nat.le_trans (Nat.le_add_right ..) hid, hdef, hfresh⟩

/-- Planning the aggregations leaves the prove tasks as they are. -/
theorem genGraph_list (h : s.genGraph feat disk = some s') :
    s'.proveTasks = s.proveTasks ∧ s'.isTasksGenDone = s.isTasksGenDone := by
  rw [Stage.genGraph] at h
  split at h
  · cases h
    exact ⟨rfl, rfl⟩
  · cases feat with
    | prover =>
        rw [Stage.genAggTasks, Stage.genAggTasksV1] at h
        split at h
        · cases h
        · cases h
          exact ⟨rfl, rfl⟩
    | proverV2 =>
        rw [Stage.genAggTasks, Stage.genAggTasksV2, Option.map_eq_some_iff] at h
        obtain ⟨vk, _, rfl⟩ := h
        exact ⟨rfl, rfl⟩

/-- The end of task generation completes the list for good. -/
theorem finalise_list (h : s.finalise feat disk = some s') :
    ∃ new deferred, Grown s.generateTask s.uuid s.proveTasks.length new ∧
      s.splitTask.totalSegments ≤ s.proveTasks.length + new.length ∧
      s'.proveTasks = (s.proveTasks ++ new).take s.splitTask.totalSegments
        ++ deferred ∧
      Late feat s.uuid deferred ∧ s'.isTasksGenDone = true := by
  rw [Stage.finalise, Option.bind_eq_bind, Option.bind_eq_some_iff] at h
  obtain ⟨s₁, h₁, h⟩ := h
  rw [Option.bind_eq_some_iff] at h
  obtain ⟨s₂, h₂, h⟩ := h
  obtain ⟨new, deferred, hg, hle, hlist, hlate⟩ := genProveTaskPost_list h₁
  rw [clearSuccessful_eq, Option.some.injEq] at h
  refine ⟨new, deferred, hg, hle, ?_, hlate, ?_⟩
  · rw [← h, ← hlist]
    exact (genGraph_list h₂).1
  · rw [← h]

/-- The step machine leaves the prove tasks as they are. -/
theorem advance_list (h : s.advance disk = some s') :
    s'.proveTasks = s.proveTasks := by
  rw [advance_frame h]

/-- **DISPATCH AND THE LIST**. -/
theorem dispatch_relisted (h : s.dispatch feat disk = some s') :
    Relisted feat s s' := by
  have stays : s'.proveTasks = s.proveTasks →
      s'.isTasksGenDone = s.isTasksGenDone → Relisted feat s s' :=
    fun hlist hgen => .grown [] .nil (fun _ => rfl)
      (hlist.trans (List.append_nil _).symm) hgen
  cases dispatch_step h with
  | start split _ _ _ _ => exact stays rfl rfl
  | split s₁ _ h₁ _ _ _ _ =>
      obtain ⟨new, hg, hskip, rfl⟩ := genProveTask_list h₁
      exact .grown new hg (fun hd => hskip (Or.inr hd)) rfl rfl
  | finalise s₁ s₂ _ _ h₁ _ hsplit hdone _ h₂ h =>
      obtain ⟨new, hg, _, rfl⟩ := genProveTask_list h₁
      obtain ⟨more, deferred, hmore, hle, hlist, hlate, hgen⟩ :=
        finalise_list h₂
      dsimp only at hmore hle hlist hlate
      rw [List.length_append] at hmore hle
      refine .finalised (new ++ more) deferred (hg.append hmore) hdone
        ((advance_done h).trans hgen) hsplit ?_ ?_
        ⟨fun t ht => ?_, hlate.sorted, hlate.none⟩
      · rw [List.length_append, ← Nat.add_assoc]
        exact hle
      · rw [advance_list h, hlist, List.append_assoc]
      · obtain ⟨hid, hdef, hfresh⟩ := hlate.born t ht
        exact ⟨Nat.le_trans (Nat.le_add_right ..) hid, hdef, hfresh⟩
  | advance s₁ _ _ h₁ _ _ h =>
      obtain ⟨new, hg, hskip, rfl⟩ := genProveTask_list h₁
      have hdone := advance_done h
      exact .grown new hg (fun hd => hskip (Or.inr hd)) (advance_list h) hdone
  | snark _ _ _ _ _ => exact stays rfl rfl
  | ended _ _ => exact stays rfl rfl
  | idle _ _ _ _ => exact stays rfl rfl

end

/-! ## Positions -/

/-- The part of a task that only its position decides. -/
structure Spot where
  id : Nat
  fileNo : Nat
  isDeferred : Bool
  segment : String

omit [Blob β] in
/-- Where a task stands in the list. -/
def ProveTask.spot (t : ProveTask β) : Spot where
  id := t.taskId
  fileNo := t.fileNo
  isDeferred := t.isDeferred
  segment := t.segment

omit [Blob β] in
/-- Position `i` holds the normal task of segment `i`. -/
def Placed (segPath : String) (l : List (ProveTask β)) : Prop :=
  ∀ (i : Nat) (t : ProveTask β), l[i]? = some t →
    t.isDeferred = false ∧ t.fileNo = i ∧
      t.segment = segPath ++ "/" ++ toString i

section

variable {segPath : String} {l l' new : List (ProveTask β)}

omit [Blob β] in
/-- Only number, kind and file of a task are read. -/
theorem Placed.congr (h : Placed segPath l)
    (hspots : l'.map ProveTask.spot = l.map ProveTask.spot) :
    Placed segPath l' := by
  intro i t ht
  have hspot : (l.map ProveTask.spot)[i]? = some t.spot := by
    rw [← hspots, List.getElem?_map, ht]
    rfl
  rw [List.getElem?_map, Option.map_eq_some_iff] at hspot
  obtain ⟨u, hu, hut⟩ := hspot
  obtain ⟨hdef, hno, hseg⟩ := h i u hu
  exact ⟨(congrArg Spot.isDeferred hut).symm.trans hdef,
    (congrArg Spot.fileNo hut).symm.trans hno,
    (congrArg Spot.segment hut).symm.trans hseg⟩

/-- What a grown list adds stands at its own place. -/
theorem Placed.append {g : GenerateTask β} {uuid : Nat}
    (h : Placed g.segPath l) (hg : Grown g uuid l.length new) :
    Placed g.segPath (l ++ new) := by
  intro i t ht
  rcases Nat.lt_or_ge i l.length with hlt | hge
  · rw [List.getElem?_append_left hlt] at ht
    exact h i t ht
  · rw [List.getElem?_append_right hge] at ht
    obtain ⟨program, rfl⟩ := hg.getElem? ht
    rw [Nat.add_sub_cancel' hge]
    exact ⟨rfl, rfl, rfl⟩

omit [Blob β] in
/-- A list that is cut short stays in place. -/
theorem Placed.take (h : Placed segPath l) (n : Nat) :
    Placed segPath (l.take n) := by
  intro i t ht
  rw [List.getElem?_take] at ht
  split at ht
  · exact h i t ht
  · cases ht

end

omit [Blob β] in
/-- What the list `l` is finalised to: the first `n` positions are the normal
    tasks, those of `l` as they were, and the deferred ones follow. -/
structure FinalList (feat : Feature) (segPath : String) (n : Nat)
    (l l' : List (ProveTask β)) : Prop where
  length   : n ≤ l'.length
  placed   : Placed segPath (l'.take n)
  kept     : ∀ i < n, ∀ t : ProveTask β, l[i]? = some t → l'[i]? = some t
  deferred : ∀ t ∈ l'.drop n, t.isDeferred = true
  sorted   : (l'.drop n).Pairwise fun t u => t.fileNo ≤ u.fileNo
  none     : feat = .prover → l'.length = n

/-- A list that was placed, grown, cut and extended is final. -/
theorem FinalList.mk' {feat : Feature} {g : GenerateTask β} {uuid n : Nat}
    {l new deferred : List (ProveTask β)} (hl : Placed g.segPath l)
    (hg : Grown g uuid l.length new) (hle : n ≤ l.length + new.length)
    (hd : Late feat uuid deferred) :
    FinalList feat g.segPath n l ((l ++ new).take n ++ deferred) := by
  have hlen : ((l ++ new).take n).length = n := by
    rw [List.length_take, List.length_append, Nat.min_eq_left hle]
  have hdrop : ((l ++ new).take n ++ deferred).drop n = deferred :=
    List.drop_left' hlen
  refine ⟨?_, ?_, ?_, ?_, ?_, ?_⟩
  · rw [List.length_append, hlen]
    exact Nat.le_add_right ..
  · rw [List.take_left' hlen]
    exact (hl.append hg).take n
  · intro i hi t ht
    obtain ⟨hlt, _⟩ := List.getElem?_eq_some_iff.mp ht
    rw [List.getElem?_append_left (hi.trans_eq hlen.symm),
      List.getElem?_take, if_pos hi, List.getElem?_append_left hlt]
    exact ht
  · rw [hdrop]
    exact fun t ht => (hd.born t ht).2.1
  · rw [hdrop]
    exact hd.sorted
  · intro hf
    rw [hd.none hf, List.append_nil, hlen]

section

variable {feat : Feature} {g : GenerateTask β} {w w' : World β}

omit [Blob β] in
/-- Handing a task out does not move it. -/
theorem handProve_spot {disk : Disk β} {now : Nat} (x y : ProveTask β)
    (h : Stage.handProve disk now x = some y) : y.spot = x.spot := by
  obtain ⟨_, _, rfl⟩ := handProve_eq_some.mp h
  rfl

omit [Blob β] in
/-- A result does not move it either. -/
theorem takeProve_spot {now : Nat} {t : ProveTask β} (x y : ProveTask β)
    (h : Stage.takeProve now t x = some y) : y.spot = x.spot := by
  rw [Stage.takeProve] at h
  split at h
  · cases h
    obtain ⟨hno, hdef, hseg⟩ := onProveTaskDst_fixed now t x
    simp only [ProveTask.spot, hno, hdef, hseg, onProveTaskDst_taskId]
  · cases h

/-- What a step does to the list. -/
inductive ListStep (feat : Feature) (w w' : World β) : Action β → Prop where
  | relisted (disk : Disk β) :
      Relisted feat w.stage w'.stage → ListStep feat w w' (.dispatch disk)
  | handed (disk : Disk β) (now : Nat) :
      w'.stage.proveTasks
        = w.stage.proveTasks.replaceF (Stage.handProve disk now) →
      w'.stage.isTasksGenDone = w.stage.isTasksGenDone →
      ListStep feat w w' (.getProve disk now)
  | taken (i : Nat) (r : Reply β) (now : Nat) (c : ProveTask β) :
      w.proves[i]? = some c →
      w'.stage.proveTasks
        = w.stage.proveTasks.replaceF (Stage.takeProve now (r.prove c)) →
      w'.stage.isTasksGenDone = w.stage.isTasksGenDone →
      w'.stage.isError = (w.stage.isError ||
        (w.stage.proveTasks.find? (Stage.matchProve (r.prove c))).any
          (onProveTaskError (r.prove c))) →
      ListStep feat w w' (.onProve i r now)
  | missing (i : Nat) (r : Reply β) (now : Nat) :
      w.proves[i]? = none → w' = w → ListStep feat w w' (.onProve i r now)
  | other (a : Action β) :
      (∀ (i : Nat) (r : Reply β) (now : Nat), a ≠ .onProve i r now) →
      w'.stage.proveTasks = w.stage.proveTasks →
      w'.stage.isTasksGenDone = w.stage.isTasksGenDone → ListStep feat w w' a

/-- Every step is one of these on the list of prove tasks. -/
theorem World.step_listStep {a : Action β} (h : w.step feat a = some w') :
    ListStep feat w w' a := by
  cases World.step_stepped h with
  | dispatch disk s hd => exact .relisted disk (dispatch_relisted hd)
  | quiet _ hno =>
      cases a with
      | onProve i r now => exact .missing i r now (hno i r now rfl) rfl
      | _ => exact .other _ (by rintro _ _ _ ⟨⟩) rfl rfl
  | getSplit now t _ _ => exact .other _ (by rintro _ _ _ ⟨⟩) rfl rfl
  | getProve disk now => exact .handed disk now rfl rfl
  | getAgg now t s _ hs =>
      rw [hs]
      exact .other _ (by rintro _ _ _ ⟨⟩) rfl rfl
  | getSnark now t _ _ => exact .other _ (by rintro _ _ _ ⟨⟩) rfl rfl
  | onSplit i r now c _ => exact .other _ (by rintro _ _ _ ⟨⟩) rfl rfl
  | onProve i r now c hc =>
      rw [onProveTask_eq]
      exact .taken i r now c hc rfl rfl rfl
  | onAgg i r now io c t s file _ hon =>
      obtain ⟨rfl, _, _⟩ := onAggTask_eq hon
      exact .other _ (by rintro _ _ _ ⟨⟩) rfl rfl
  | onSnark i r now io c t s file _ _ hs =>
      rw [hs]
      exact .other _ (by rintro _ _ _ ⟨⟩) rfl rfl

/-- Only a `dispatch` changes more than the tasks in their places. -/
theorem World.step_list {a : Action β} (h : w.step feat a = some w') :
    (∃ disk, a = .dispatch disk ∧ Relisted feat w.stage w'.stage) ∨
      (w'.stage.proveTasks.map ProveTask.spot
          = w.stage.proveTasks.map ProveTask.spot ∧
        w'.stage.isTasksGenDone = w.stage.isTasksGenDone) := by
  cases World.step_listStep h with
  | relisted disk hlist => exact Or.inl ⟨disk, rfl, hlist⟩
  | handed disk now hlist hgen =>
      refine Or.inr ⟨?_, hgen⟩
      rw [hlist]
      exact map_replaceF _ handProve_spot _
  | taken i r now c _ hlist hgen _ =>
      refine Or.inr ⟨?_, hgen⟩
      rw [hlist]
      exact map_replaceF _ takeProve_spot _
  | missing i r now _ hw =>
      rw [hw]
      exact Or.inr ⟨rfl, rfl⟩
  | other a _ hlist hgen =>
      rw [hlist]
      exact Or.inr ⟨rfl, hgen⟩

/-- How the list of a later world has come from that of an earlier one: the
    ids are kept and more may follow until the list is finalised, and none
    comes or goes behind that. -/
structure Evolved (w w' : World β) : Prop where
  growing : w'.stage.isTasksGenDone = false →
    w.stage.isTasksGenDone = false ∧
      w.stage.proveTasks.map (·.taskId) <+: w'.stage.proveTasks.map (·.taskId)
  settled : w.stage.isTasksGenDone = true →
    w'.stage.isTasksGenDone = true ∧
      w'.stage.proveTasks.map (·.taskId) = w.stage.proveTasks.map (·.taskId)

omit [Blob β] in
theorem Evolved.refl (w : World β) : Evolved w w :=
  ⟨fun h => ⟨h, List.prefix_refl _⟩, fun h => ⟨h, rfl⟩⟩

omit [Blob β] in
theorem Evolved.trans {u v w : World β} (h : Evolved u v) (h' : Evolved v w) :
    Evolved u w where
  growing := by
    intro hw
    obtain ⟨hv, hvw⟩ := h'.growing hw
    obtain ⟨hu, huv⟩ := h.growing hv
    exact ⟨hu, huv.trans hvw⟩
  settled := by
    intro hu
    obtain ⟨hv, huv⟩ := h.settled hu
    obtain ⟨hw, hvw⟩ := h'.settled hv
    exact ⟨hw, hvw.trans huv⟩

/-- A step only appends to the list, and only until it is final. -/
theorem World.step_evolved {a : Action β} (h : w.step feat a = some w') :
    Evolved w w' := by
  rcases World.step_list h with ⟨_, _, hlist⟩ | ⟨hspots, hgen⟩
  · cases hlist with
    | grown new _ hnil hlist hgen =>
        refine ⟨fun hd => ⟨hgen.symm.trans hd, ?_⟩,
          fun hd => ⟨hgen.trans hd, ?_⟩⟩
        · rw [hlist, List.map_append]
          exact List.prefix_append _ _
        · rw [hlist, hnil hd, List.append_nil]
    | finalised new deferred _ hnot hdone _ _ _ _ =>
        refine ⟨fun hd => ?_, fun hd => ?_⟩
        · cases hdone.symm.trans hd
        · cases hnot.symm.trans hd
  · have hids := congrArg (List.map Spot.id) hspots
    rw [List.map_map, List.map_map] at hids
    have hids : w'.stage.proveTasks.map (·.taskId)
        = w.stage.proveTasks.map (·.taskId) := hids
    exact ⟨fun hd => ⟨hgen.symm.trans hd, hids ▸ List.prefix_refl _⟩,
      fun hd => ⟨hgen.trans hd, hids⟩⟩

/-- The request never changes. -/
theorem Reachable.request (h : Reachable feat g w) :
    w.stage.generateTask = g :=
  h.inv (fun _ => rfl) fun _ _ _ hreq hm => hm.request.trans hreq

/-- Until the list is final, every step keeps each task at its place. -/
theorem Placed.step {a : Action β} (hr : Reachable feat g w)
    (h : w.stage.isTasksGenDone = false → Placed g.segPath w.stage.proveTasks)
    (hstep : w.step feat a = some w')
    (hgen' : w'.stage.isTasksGenDone = false) :
    Placed g.segPath w'.stage.proveTasks := by
  rcases World.step_list hstep with ⟨_, _, hlist⟩ | ⟨hspots, hgen⟩
  · cases hlist with
    | grown new hg _ hlist hgen =>
        rw [hr.request] at hg
        rw [hlist]
        exact (h (hgen.symm.trans hgen')).append hg
    | finalised new deferred _ _ hdone _ _ _ _ =>
        cases hdone.symm.trans hgen'
  · exact (h (hgen.symm.trans hgen')).congr hspots

/-- **POSITIONS**: until the list is finalised. -/
theorem Reachable.placed (h : Reachable feat g w) :
    w.stage.isTasksGenDone = false → Placed g.segPath w.stage.proveTasks := by
  obtain ⟨file, acts, hrun⟩ := h
  have hall : Reachable feat g w ∧ (w.stage.isTasksGenDone = false →
      Placed g.segPath w.stage.proveTasks) := by
    refine run_inv (I := fun w => Reachable feat g w ∧
      (w.stage.isTasksGenDone = false →
        Placed g.segPath w.stage.proveTasks)) ?_
      ⟨.start g file, fun _ i t ht => by cases ht⟩ hrun
    intro v a v' hv hstep
    exact ⟨hv.1.step hstep, Placed.step hv.1 hv.2 hstep⟩
  exact hall.2

/-- **ONE TASK A SEGMENT**: until the list is finalised, position `i` holds
    the normal task of segment `i`, and ids never change; it is finalised to
    the positions below the number of segments of the split that succeeded,
    with the tasks that were there as they were and the deferred ones behind;
    and from then on its ids stay. -/
theorem one_task_a_segment (h : Reachable feat g w) :
    (w.stage.isTasksGenDone = false → Placed g.segPath w.stage.proveTasks) ∧
    (∀ a w', w.step feat a = some w' → w.stage.isTasksGenDone = false →
      w'.stage.isTasksGenDone = true →
      w.stage.splitTask.state = .Success ∧
        FinalList feat g.segPath w.stage.splitTask.totalSegments
          w.stage.proveTasks w'.stage.proveTasks) ∧
    ∀ as w', run (World.step feat) w as = some w' → Evolved w w' := by
  refine ⟨h.placed, ?_, ?_⟩
  · intro a w' hstep hnot hdone
    rcases World.step_list hstep with ⟨_, _, hlist⟩ | ⟨_, hgen⟩
    · cases hlist with
      | grown new _ _ _ hgen => cases (hgen.trans hnot).symm.trans hdone
      | finalised new deferred hg _ _ hsplit hle hlist hlate =>
          rw [h.request] at hg
          rw [hlist]
          exact ⟨hsplit, FinalList.mk' (h.placed hnot) hg hle hlate⟩
    · cases (hgen.trans hnot).symm.trans hdone
  · intro as w' hrun
    exact run_rel (I := fun _ => True) (fun _ _ _ _ _ => trivial) Evolved.refl
      (fun _ _ _ => Evolved.trans) (fun _ _ _ _ => World.step_evolved) trivial
      hrun

end

/-- Before the dispatch behind the split. -/
def splitBack : List (Action (List UInt8)) :=
  [.dispatch .full, .getSplit 1, .onSplit 0 ⟨.Success, "a", 10, 2⟩ 2]

/-- The 64 tasks are cut to the two segments. -/
theorem one_task_a_segment_two :
    ∃ w w' : World (List UInt8), Reachable .prover aggRequest w ∧
      w.step .prover (.dispatch .full) = some w' ∧
      w'.stage.proveTasks.length = 2 ∧
      FinalList .prover "" 2 w.stage.proveTasks w'.stage.proveTasks := by
  obtain ⟨w, hw, hp⟩ := Reachable.of_check .prover aggRequest splitBack
    (fun w => !w.stage.isTasksGenDone && w.stage.splitTask.totalSegments = 2 &&
      (w.step .prover (.dispatch .full)).any fun w' =>
        w'.stage.isTasksGenDone && w'.stage.proveTasks.length = 2) (by decide)
  rw [Bool.and_eq_true, Bool.and_eq_true, Bool.not_eq_true',
    decide_eq_true_eq] at hp
  obtain ⟨⟨hnot, htotal⟩, hp⟩ := hp
  obtain ⟨w', hstep, hw'⟩ := (Option.any_eq_true _ _).mp hp
  rw [Bool.and_eq_true, decide_eq_true_eq] at hw'
  obtain ⟨_, hfinal⟩ := (one_task_a_segment hw).2.1 _ w' hstep hnot hw'.1
  rw [htotal] at hfinal
  exact ⟨w, w', hw, hstep, hw'.2, hfinal⟩

end ZkmProver
