import ZkmProver.StepMoves

/-! # Giving back — a task that found no capacity

    A client call without a node for it returns its task in state UNPROCESSED.
    For every kind of task but snark this undoes the handing out: the stage is
    as before, but for the start time and for a FAILED task that is UNPROCESSED
    now, and no file is touched.  `on_snark_task` writes the file at
    `snark_path` before it looks at the state (`give_back_undoes`). -/

namespace ZkmProver

open Keyed

variable {β : Type}

/-- The four kinds of task that are handed out. -/
inductive TaskKind where
  | Split
  | Prove
  | Agg
  | Snark
  deriving DecidableEq

/-- A task that was not worked on. -/
def TaskHead.unprocessed (t : TaskHead β) : TaskHead β :=
  { t with state := .Unprocessed }

/-- The task as a call gives it back. -/
def Task.unprocessed : Task β → Task β
  | .Split t => .Split { t with toTaskHead := t.toTaskHead.unprocessed }
  | .Prove t => .Prove { t with toTaskHead := t.toTaskHead.unprocessed }
  | .Agg t => .Agg { t with toTaskHead := t.toTaskHead.unprocessed }
  | .Snark t => .Snark { t with toTaskHead := t.toTaskHead.unprocessed }

namespace Stage

/-- The `get_*_task` of a kind; `none` is a panic. -/
def getOf (disk : Disk β) (now : Nat) (s : Stage β) :
    TaskKind → Option (Option (Task β) × Stage β)
  | .Split => some (Prod.map (Option.map .Split) id (s.getSplitTask now))
  | .Prove => some (Prod.map (Option.map .Prove) id (s.getProveTask disk now))
  | .Agg => (s.getAggTask now).map (Prod.map (Option.map .Agg) id)
  | .Snark => some (Prod.map (Option.map .Snark) id (s.getSnarkTask now))

/-- The `on_*_task` of a task's kind, and what is written to `snark_path`;
    `none` is a panic. -/
def onOf (now : Nat) (io : Bool) (s : Stage β) :
    Task β → Option (Stage β × Option β)
  | .Split t => some ((s.onSplitTask now t).1, none)
  | .Prove t => some ((s.onProveTask now t).1, none)
  | .Agg t => (s.onAggTask now io t).map fun ret => (ret.1, ret.2.2)
  | .Snark t => (s.onSnarkTask now io t).map fun ret => (ret.1, some ret.2.2)

end Stage

/-! ## As before -/

/-- The task as before, but for its start time and a FAILED that is UNPROCESSED
    now. -/
structure TaskHead.Undone (before after : TaskHead β) : Prop where
  rest : after =
    { before with
      state := after.state
      trace := { before.trace with startTs := after.trace.startTs } }
  state : after.state = before.state ∨
    before.state = .Failed ∧ after.state = .Unprocessed

/-- The split is as before, up to its start time. -/
def SplitTask.Undone (t t' : SplitTask β) : Prop :=
  ∃ head, t.toTaskHead.Undone head ∧ t' = { t with toTaskHead := head }

/-- A prove task is as before, up to its start time. -/
def ProveTask.Undone (t t' : ProveTask β) : Prop :=
  ∃ head, t.toTaskHead.Undone head ∧ t' = { t with toTaskHead := head }

/-- An agg task is as before, up to its start time. -/
def AggTask.Undone (t t' : AggTask β) : Prop :=
  ∃ head, t.toTaskHead.Undone head ∧ t' = { t with toTaskHead := head }

/-- The snark task is as before, up to its start time. -/
def SnarkTask.Undone (t t' : SnarkTask β) : Prop :=
  ∃ head, t.toTaskHead.Undone head ∧ t' = { t with toTaskHead := head }

/-- The stage as before, but for that in its tasks; `is_error` is the same. -/
structure Stage.Undone (before after : Stage β) : Prop where
  split : before.splitTask.Undone after.splitTask
  prove : List.Forall₂ ProveTask.Undone before.proveTasks after.proveTasks
  agg   : List.Forall₂ AggTask.Undone before.aggTasks after.aggTasks
  snark : before.snarkTask.Undone after.snarkTask
  rest  : after =
    { before with
      splitTask := after.splitTask
      proveTasks := after.proveTasks
      aggTasks := after.aggTasks
      snarkTask := after.snarkTask }

theorem TaskHead.Undone.refl (t : TaskHead β) : t.Undone t :=
  ⟨rfl, Or.inl rfl⟩

theorem SplitTask.Undone.refl (t : SplitTask β) : t.Undone t :=
  ⟨t.toTaskHead, .refl _, rfl⟩

theorem ProveTask.Undone.refl (t : ProveTask β) : t.Undone t :=
  ⟨t.toTaskHead, .refl _, rfl⟩

theorem AggTask.Undone.refl (t : AggTask β) : t.Undone t :=
  ⟨t.toTaskHead, .refl _, rfl⟩

theorem SnarkTask.Undone.refl (t : SnarkTask β) : t.Undone t :=
  ⟨t.toTaskHead, .refl _, rfl⟩

/-- A stage is as it was. -/
theorem Stage.Undone.refl (s : Stage β) : s.Undone s :=
  ⟨.refl _, List.forall₂_same.mpr fun t _ => .refl t,
    List.forall₂_same.mpr fun t _ => .refl t, .refl _, rfl⟩

/-- A waiting task that is handed out and not worked on. -/
theorem TaskHead.undone {t : TaskHead β} (hwait : t.state.waiting = true)
    (now : Nat) : t.Undone (t.handOut now).unprocessed := by
  refine ⟨rfl, ?_⟩
  cases hst : t.state with
  | Unprocessed => exact Or.inl rfl
  | Failed => exact Or.inr ⟨rfl, rfl⟩
  | _ =>
      rw [hst] at hwait
      cases hwait

/-! ## The four kinds -/

namespace Stage

variable {s s' : Stage β} {now : Nat}

/-- The split that is given back is as before. -/
theorem undone_split {t : SplitTask β}
    (hget : s.getSplitTask now = (some t, s')) (now' : Nat) :
    s.Undone (s'.onSplitTask now'
      { t with toTaskHead := t.toTaskHead.unprocessed }).1 := by
  rw [getSplitTask] at hget
  cases hhead : getTask now s.splitTask.toTaskHead with
  | none =>
      rw [hhead] at hget
      cases hget
  | some head =>
      rw [hhead] at hget
      obtain ⟨hwait, rfl⟩ := getTask_eq_some.mp hhead
      cases hget
      refine ⟨⟨_, TaskHead.undone hwait now, rfl⟩, (Undone.refl s).prove,
        (Undone.refl s).agg, .refl _, ?_⟩
      simp [onSplitTask, TaskHead.unprocessed]

/-- The table after a task that was handed out comes back. -/
theorem undone_put {α : Type} {key : α → Nat} {R : α → α → Prop}
    (hrefl : ∀ z, R z z) {l : List α} (hnd : (l.map key).Nodup) {x y z : α}
    (hx : x ∈ l) (hy : key y = key x) (hz : key z = key x) (hxz : R x z) :
    List.Forall₂ R l (put key z (put key y l)) := by
  rw [put_put (hz.trans hy.symm)]
  exact forall₂_put hrefl hnd hx hz hxz

/-- So is a prove task. -/
theorem undone_prove (hnd : (s.proveTasks.map (·.taskId)).Nodup)
    {disk : Disk β} {t : ProveTask β}
    (hget : s.getProveTask disk now = (some t, s')) (now' : Nat) :
    s.Undone (s'.onProveTask now'
      { t with toTaskHead := t.toTaskHead.unprocessed }).1 := by
  rw [getProveTask] at hget
  obtain ⟨hfind, rfl⟩ := Prod.mk.inj hget
  obtain ⟨x, hx, hxt⟩ := List.exists_of_findSome?_eq_some hfind
  obtain ⟨hwait, _, ht⟩ := handProve_eq_some.mp hxt
  have hid : t.taskId = x.taskId := congrArg (·.taskId) ht
  rw [replaceF_eq_put hnd
    (fun a b hab => by rw [(handProve_eq_some.mp hab).2.2]; rfl) hfind,
    onProveTask_eq]
  have hmem : t ∈ put (fun x => x.taskId) t s.proveTasks :=
    (mem_put_of_mem hx hid).mpr (Or.inl rfl)
  have hnd' : ((put (fun x => x.taskId) t s.proveTasks).map
      (·.taskId)).Nodup := by
    rwa [map_key_put]
  have htaken := onProve_taken now'
    { t with toTaskHead := t.toTaskHead.unprocessed } hnd'
  -- the entry that is taken back is the one that was handed out
  dsimp only at htaken ⊢
  generalize List.replaceF _ (put (fun x => x.taskId) t s.proveTasks) = ps at *
  generalize Option.any _ (List.find? _ _) = err at *
  cases htaken with
  | miss hmiss =>
      refine absurd ?_ (hmiss t hmem rfl)
      rw [ht]
      rfl
  | hit y hy hyid _ =>
      obtain rfl : y = t := eq_of_key hnd' hy hmem hyid
      refine ⟨.refl _, undone_put .refl hnd hx hid hid ?_,
        (Undone.refl s).agg, .refl _, ?_⟩
      · subst ht
        exact ⟨_, TaskHead.undone hwait now, rfl⟩
      · simp [onProveTaskError, TaskHead.unprocessed, clearOn]

/-- Without success nothing is written. -/
theorem onAggTask_returns (s : Stage β) (now : Nat) (io : Bool) {t : AggTask β}
    (ht : t.state ≠ .Success) :
    ∃ s' t', s.onAggTask now io t = some (s', t', none) := by
  rw [onAggTask]
  exact ⟨_, _, if_neg ht⟩

/-- So is an agg task, and nothing is written. -/
theorem undone_agg (hnd : (s.aggTasks.map (·.taskId)).Nodup) {t : AggTask β}
    (hget : s.getAggTask now = some (some t, s')) (now' : Nat) (io : Bool) :
    ∃ s'' t', s'.onAggTask now' io
        { t with toTaskHead := t.toTaskHead.unprocessed } = some (s'', t', none) ∧
      s.Undone s'' := by
  rw [getAggTask] at hget
  cases hfind : s.aggTasks.findSome? (handAgg now) with
  | none =>
      simp only [hfind] at hget
      cases hget
  | some a =>
      simp only [hfind, Option.map_eq_some_iff] at hget
      obtain ⟨inputs, _, hget⟩ := hget
      obtain ⟨x, hx, hxa⟩ := List.exists_of_findSome?_eq_some hfind
      obtain ⟨_, hwait, ha⟩ := handAgg_eq_some.mp hxa
      have hid : a.taskId = x.taskId := congrArg (·.taskId) ha
      rw [replaceF_eq_put hnd
        (fun a b hab => by rw [(handAgg_eq_some.mp hab).2.2]; rfl) hfind] at hget
      cases hget
      obtain ⟨s'', t', hon⟩ := onAggTask_returns
        { s with aggTasks := put (fun x => x.taskId) a s.aggTasks } now' io
        (t := { a with inputs, toTaskHead := a.toTaskHead.unprocessed })
        (by rintro ⟨⟩)
      refine ⟨s'', t', hon, ?_⟩
      rw [(onAggTask_eq hon).1]
      -- as for a prove task, but with the inputs filled in on the copy
      have hmem : a ∈ put (fun x => x.taskId) a s.aggTasks :=
        (mem_put_of_mem hx hid).mpr (Or.inl rfl)
      have hnd' : ((put (fun x => x.taskId) a s.aggTasks).map
          (·.taskId)).Nodup := by
        rwa [map_key_put]
      obtain ⟨err, htaken⟩ := Exists.intro _ (onAgg_taken now'
        { a with inputs, toTaskHead := a.toTaskHead.unprocessed } hnd')
      dsimp only at htaken ⊢
      generalize List.replaceF _ (put (fun x => x.taskId) a s.aggTasks) = as
        at *
      cases htaken with
      | miss hmiss =>
          refine absurd ?_ (hmiss a hmem rfl)
          rw [ha]
          rfl
      | hit y hy hyid _ =>
          obtain rfl : y = a := eq_of_key hnd' hy hmem hyid
          refine ⟨.refl _, (Undone.refl s).prove,
            undone_put .refl hnd hx hid hid ?_, .refl _, ?_⟩
          · subst ha
            exact ⟨_, TaskHead.undone hwait now, rfl⟩
          · simp [TaskHead.unprocessed]

end Stage

/-- **GIVE BACK**: from any reachable stage, a task that is handed out and
    comes back UNPROCESSED leaves the stage as it was and no file behind,
    exactly when it is not the snark task. -/
theorem give_back_undoes [Blob β] {feat : Feature} {g : GenerateTask β}
    {w : World β} (h : Reachable feat g w) (disk : Disk β) (now now' : Nat)
    (io : Bool) (kind : TaskKind) {t : Task β} {s : Stage β}
    (hget : w.stage.getOf disk now kind = some (some t, s)) :
    (∃ s', s.onOf now' io t.unprocessed = some (s', none) ∧
        w.stage.Undone s') ↔ kind ≠ .Snark := by
  cases kind with
  | Split =>
      refine iff_of_true ?_ (by rintro ⟨⟩)
      rw [Stage.getOf, Option.some_inj, Prod.map, Prod.mk.injEq,
        Option.map_eq_some_iff] at hget
      obtain ⟨⟨t, ht, rfl⟩, rfl⟩ := hget
      exact ⟨_, rfl, Stage.undone_split (Prod.ext ht rfl) now'⟩
  | Prove =>
      refine iff_of_true ?_ (by rintro ⟨⟩)
      rw [Stage.getOf, Option.some_inj, Prod.map, Prod.mk.injEq,
        Option.map_eq_some_iff] at hget
      obtain ⟨⟨t, ht, rfl⟩, rfl⟩ := hget
      exact ⟨_, rfl,
        Stage.undone_prove h.shape.prove_nodup (Prod.ext ht rfl) now'⟩
  | Agg =>
      refine iff_of_true ?_ (by rintro ⟨⟩)
      rw [Stage.getOf, Option.map_eq_some_iff] at hget
      obtain ⟨⟨t', s'⟩, hget, hpair⟩ := hget
      rw [Prod.map, Prod.mk.injEq, Option.map_eq_some_iff] at hpair
      obtain ⟨⟨t, ht, rfl⟩, rfl⟩ := hpair
      cases ht
      obtain ⟨s'', t', hon, hundone⟩ :=
        Stage.undone_agg h.shape.agg_nodup hget now' io
      refine ⟨s'', ?_, hundone⟩
      rw [Task.unprocessed, Stage.onOf, id_eq, hon]
      rfl
  | Snark =>
      refine iff_of_false ?_ (fun hne => hne rfl)
      rw [Stage.getOf, Option.some_inj, Prod.map, Prod.mk.injEq,
        Option.map_eq_some_iff] at hget
      obtain ⟨⟨t, _, rfl⟩, _⟩ := hget
      rintro ⟨s', hon, _⟩
      -- if the call returns, the file was written
      rw [Task.unprocessed, Stage.onOf, Option.map_eq_some_iff] at hon
      obtain ⟨_, _, hret⟩ := hon
      cases hret

/-- The first prove task of a split is given back. -/
theorem give_back_undoes_prove : ∃ w t s s',
    Reachable .proverV2 aggRequest w ∧
      w.stage.getOf .full 8 .Prove = some (some t, s) ∧
      s.onOf 9 true t.unprocessed = some (s', none) ∧ w.stage.Undone s' := by
  obtain ⟨w, hw, hp⟩ := Reachable.of_check .proverV2 aggRequest splitRun
    (fun w => (w.stage.getOf .full 8 .Prove).any fun ret => ret.1.isSome)
    (by decide)
  obtain ⟨⟨t, s⟩, hget, ht⟩ := Option.any_eq_true _ _ |>.mp hp
  obtain ⟨t, rfl⟩ := Option.isSome_iff_exists.mp ht
  obtain ⟨s', hon, hundone⟩ :=
    (give_back_undoes hw .full 8 9 true .Prove hget).mpr (by decide)
  exact ⟨w, t, s, s', hw, hget, hon, hundone⟩

/-- A snark task that found no capacity leaves an empty file at `snark_path`. -/
theorem give_back_writes : ∃ w t s,
    Reachable .prover { aggRequest with targetStep := .Snark } w ∧
      w.stage.getOf .full 8 .Snark = some (some t, s) ∧
      (s.onOf 9 true t.unprocessed).map (·.2) = some (some []) := by
  obtain ⟨w, hw, hp⟩ := Reachable.of_check .prover
    { aggRequest with targetStep := .Snark } aggregatedRun
    (fun w => (w.stage.getOf .full 8 .Snark).any fun ret =>
      ret.1.any fun t =>
        (ret.2.onOf 9 true t.unprocessed).map (·.2) = some (some []))
    (by decide)
  obtain ⟨⟨t, s⟩, hget, ht⟩ := Option.any_eq_true _ _ |>.mp hp
  obtain ⟨t, rfl, hfile⟩ := Option.any_eq_true _ _ |>.mp ht
  exact ⟨w, t, s, hw, hget, of_decide_eq_true hfile⟩

end ZkmProver
