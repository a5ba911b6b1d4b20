import ZkmProver.Phases

/-! # Rows — which segment each prove task is for

    The prove tasks are numbered from 0 without gaps, cut or completed to the
    number of segments, and followed by the deferred proofs in increasing file
    number.  Copies and results carry the number of their task. -/

namespace ZkmProver

open Forest Keyed Machine

variable {β : Type}

/-- The part of a prove task that no hand-out and no result changes. -/
structure Label (β : Type) where
  id : Nat
  fileNo : Nat
  isDeferred : Bool
  content : Option β

/-- The label of a prove task. -/
def ProveTask.label (t : ProveTask β) : Label β where
  id := t.taskId
  fileNo := t.fileNo
  isDeferred := t.isDeferred
  content := if t.isDeferred then some t.output else none

/-- The completed row over `total` segments and a listing. -/
structure Row (feat : Feature) (total : Nat) (listing : List (Nat × β))
    (labels : List (Label β)) : Prop where
  order    : labels.filter (fun l => !l.isDeferred)
    ++ labels.filter (fun l => l.isDeferred) = labels
  normal   : (labels.filter fun l => !l.isDeferred).map (·.fileNo)
    = List.range total
  deferred : ((labels.filter fun l => l.isDeferred).map
    fun l => (l.fileNo, l.content)).Perm
      (listing.map fun p => (p.1, some p.2))
  sorted   : (labels.filter fun l => l.isDeferred).Pairwise
    fun l m => l.fileNo ≤ m.fileNo
  none     : feat = .prover → labels.filter (fun l => l.isDeferred) = []

/-- What a copy or a result of a prove task is for: a task of the stage, or a
    segment that turned out not to exist. -/
inductive Tagged (s : Stage β) (c : ProveTask β) : Prop where
  | known (l : Label β) : l ∈ s.proveTasks.map ProveTask.label →
      l.id = c.taskId → l.fileNo = c.fileNo → l.isDeferred = false → Tagged s c
  | beyond : s.isTasksGenDone = true → s.splitTask.totalSegments ≤ c.fileNo →
      (∀ l ∈ s.proveTasks.map ProveTask.label, l.id ≠ c.taskId) → Tagged s c

/-- The prove tasks of a world and their copies. -/
structure Rows (feat : Feature) (w : World β) : Prop where
  growing   : w.stage.isTasksGenDone = false →
    w.stage.proveTasks.map (·.fileNo) = List.range w.stage.proveTasks.length
  row       : w.stage.isTasksGenDone = true →
    Row feat w.stage.splitTask.totalSegments w.listing
      (w.stage.proveTasks.map ProveTask.label)
  proves    : ∀ c ∈ w.proves, Tagged w.stage c
  delivered : ∀ c, Task.Prove c ∈ w.delivered → Tagged w.stage c

theorem filter_none {α : Type} {p : α → Bool} {l : List α}
    (h : ∀ x ∈ l, p x = false) : l.filter p = [] :=
  List.filter_eq_nil_iff.mpr fun x hx hp => nomatch (h x hx).symm.trans hp

section

variable [Blob β] {feat : Feature} {w w' : World β}

theorem Rows.start (g : GenerateTask β) (file : Option β) :
    Rows feat (World.start g file) := by
  refine ⟨fun _ => rfl, nofun, ?_, ?_⟩
  all_goals intro c hc; exact nomatch hc

omit [Blob β] in
/-- A task numbered `k` is the `k`-th. -/
theorem mem_take_of_fileNo {ps : List (ProveTask β)}
    (h : ps.map (·.fileNo) = List.range ps.length) {t : ProveTask β}
    (ht : t ∈ ps) {n : Nat} (hlt : t.fileNo < n) : t ∈ ps.take n := by
  obtain ⟨j, hj⟩ := List.mem_iff_getElem?.mp ht
  have hno : (ps.map (·.fileNo))[j]? = some t.fileNo := by
    rw [List.getElem?_map, hj]
    rfl
  obtain ⟨hjlt, _⟩ := List.getElem?_eq_some_iff.mp hj
  rw [h, List.getElem?_range hjlt] at hno
  have hjt : j = t.fileNo := Option.some.inj hno
  refine List.mem_iff_getElem?.mpr ⟨j, ?_⟩
  rw [List.getElem?_take, if_pos (by omega), hj]

/-- The numbers of the completed list of normal tasks. -/
theorem Completed.fileNos {s : Stage β} {normal : List (ProveTask β)} {u : Nat}
    (h : Completed s normal u)
    (hno : s.proveTasks.map (·.fileNo) = List.range s.proveTasks.length) :
    normal.map (·.fileNo) = List.range s.splitTask.totalSegments := by
  cases h with
  | cut hlt =>
      rw [List.map_take, hno, List.take_range, Nat.min_eq_left (by omega)]
  | extend new _ hlen hg =>
      rw [List.map_append, hno, hg.fileNos, List.range_eq_range', ← hlen,
        List.range_eq_range', ← List.range'_append_1, Nat.zero_add]

/-- A normal task survives the completion unless its segment does not exist. -/
theorem Completed.kept {s : Stage β} {normal : List (ProveTask β)} {u : Nat}
    (h : Completed s normal u)
    (hno : s.proveTasks.map (·.fileNo) = List.range s.proveTasks.length)
    {t : ProveTask β} (ht : t ∈ s.proveTasks) :
    t ∈ normal ∨ s.splitTask.totalSegments ≤ t.fileNo := by
  cases h with
  | cut _ =>
      rcases Nat.lt_or_ge t.fileNo s.splitTask.totalSegments with hlt | hge
      · exact Or.inl (mem_take_of_fileNo hno ht hlt)
      · exact Or.inr hge
  | extend new _ _ _ => exact Or.inl (List.mem_append_left _ ht)

theorem Finalised.row (hs : Shape w) (h : Rows feat w) {s : Stage β}
    {listing : List (Nat × β)} (hf : Finalised feat w.stage s listing) :
    Row feat s.splitTask.totalSegments listing
      (s.proveTasks.map ProveTask.label) := by
  cases hf with
  | mk normal deferred as u u' errmsg listing _ hdone _ _ hn hd _ =>
      have hno := hn.fileNos (h.growing hdone)
      have hnorm : ∀ t ∈ normal, t.isDeferred = false :=
        hn.normal (hs.early hdone).2
      have hfil : ∀ l ∈ normal.map ProveTask.label, l.isDeferred = false := by
        intro l hl
        obtain ⟨t, ht, rfl⟩ := List.mem_map.mp hl
        exact hnorm t ht
      have hdef : ∀ l ∈ deferred.map ProveTask.label, l.isDeferred = true := by
        intro l hl
        obtain ⟨t, ht, rfl⟩ := List.mem_map.mp hl
        exact (hd.born t ht).1
      -- the two filters take the row apart again
      have hleft : ((normal ++ deferred).map ProveTask.label).filter
          (fun l => !l.isDeferred) = normal.map ProveTask.label := by
        rw [List.map_append, List.filter_append,
          List.filter_eq_self.mpr fun l hl => by rw [hfil l hl]; rfl,
          filter_none fun l hl => by rw [hdef l hl]; rfl, List.append_nil]
      have hright : ((normal ++ deferred).map ProveTask.label).filter
          (fun l => l.isDeferred) = deferred.map ProveTask.label := by
        rw [List.map_append, List.filter_append, filter_none hfil,
          List.filter_eq_self.mpr hdef, List.nil_append]
      have hcontent : ∀ t ∈ deferred,
          (t.label.fileNo, t.label.content) = (t.fileNo, some t.output) := by
        intro t ht
        rw [ProveTask.label, (hd.born t ht).1]
        rfl
      refine ⟨?_, ?_, ?_, ?_, ?_⟩
      · rw [hleft, hright, List.map_append]
      · rw [hleft, List.map_map]
        exact hno
      · rw [hright, List.map_map]
        have hperm := hd.perm.map fun p => (p.1, some p.2)
        rw [List.map_map] at hperm
        have hsame : deferred.map ((fun l : Label β => (l.fileNo, l.content)) ∘
            ProveTask.label) = deferred.map fun t => (t.fileNo, some t.output) :=
          List.map_congr_left hcontent
        rw [hsame]
        exact hperm
      · rw [hright, List.pairwise_map]
        exact hd.sorted
      · intro hf
        rw [hright, hd.none hf]
        rfl

omit [Blob β] in
/-- A result changes no label: only busy tasks take one, and deferred tasks
    are never busy. -/
theorem ProveTaken.labels (hs : Shape w) (hg : Graph feat w) {now : Nat}
    {t : ProveTask β} {ps : List (ProveTask β)} {err : Bool}
    (h : ProveTaken now t w.stage.proveTasks ps err) :
    ps.map ProveTask.label = w.stage.proveTasks.map ProveTask.label := by
  cases h with
  | miss _ => rfl
  | hit x hx _ hst =>
      refine map_put_of_mem ProveTask.label hs.prove_nodup hx
        (onProveTaskDst_taskId ..) ?_
      have hdef : x.isDeferred = false := by
        cases hd : x.isDeferred with
        | false => rfl
        | true => exact nomatch hst.symm.trans (hg.deferred x hx hd)
      obtain ⟨hno, hd, _⟩ := onProveTaskDst_fixed now t x
      simp only [ProveTask.label, hno, hd, hdef, onProveTaskDst_taskId]
      rfl

omit [Blob β] in
/-- Tags stay true while labels stay and the number of segments is fixed. -/
theorem Tagged.keep {s s' : Stage β} {c : ProveTask β} (h : Tagged s c)
    (hlabels : ∀ l ∈ s.proveTasks.map ProveTask.label,
      l ∈ s'.proveTasks.map ProveTask.label)
    (hgen : s.isTasksGenDone = true → s'.isTasksGenDone = true ∧
      s'.splitTask.totalSegments = s.splitTask.totalSegments ∧
      s'.proveTasks.map ProveTask.label = s.proveTasks.map ProveTask.label) :
    Tagged s' c := by
  cases h with
  | known l hl hid hno hdef => exact .known l (hlabels l hl) hid hno hdef
  | beyond hd hle hgone =>
      obtain ⟨hd', htotal, hsame⟩ := hgen hd
      exact .beyond hd' (by rw [htotal]; exact hle) (by rw [hsame]; exact hgone)

/-- Once the graph is there the number of segments is fixed. -/
theorem Phases.total {g : GenerateTask β} (h : Phases g w) (hl : Leases w)
    (hm : Moved feat w w') (hd : w.stage.isTasksGenDone = true) :
    w'.stage.isTasksGenDone = true ∧
      w'.stage.splitTask.totalSegments = w.stage.splitTask.totalSegments :=
  ⟨hm.gen hd, by rw [hm.split_done hl (h.gen hd).1]⟩

omit [Blob β] in
theorem mem_labels {ps : List (ProveTask β)} {t : ProveTask β} (ht : t ∈ ps) :
    t.label ∈ ps.map ProveTask.label := List.mem_map_of_mem ht

/-- A move that leaves the labels alone, with what it adds to the copies and
    the record. -/
theorem Rows.keep {g : GenerateTask β} (hl : Leases w) (hp : Phases g w)
    (h : Rows feat w) (hm : Moved feat w w')
    (hlabels : w'.stage.proveTasks.map ProveTask.label
      = w.stage.proveTasks.map ProveTask.label)
    (hgen : w'.stage.isTasksGenDone = w.stage.isTasksGenDone)
    (hlisting : w'.listing = w.listing)
    (hproves : ∀ c ∈ w'.proves, c ∈ w.proves ∨ Tagged w.stage c)
    (hdelivered : ∀ c, Task.Prove c ∈ w'.delivered →
      Task.Prove c ∈ w.delivered ∨ Tagged w.stage c) : Rows feat w' := by
  have htag : ∀ c, Tagged w.stage c → Tagged w'.stage c := by
    intro c hc
    refine hc.keep (fun l hmem => ?_) fun hd => ?_
    · rw [hlabels]
      exact hmem
    · obtain ⟨hd', htotal⟩ := hp.total hl hm hd
      exact ⟨hd', htotal, hlabels⟩
  refine ⟨?_, ?_, ?_, ?_⟩
  · intro hd
    have hno := congrArg (List.map fun l : Label β => l.fileNo) hlabels
    rw [List.map_map, List.map_map] at hno
    have hlen := congrArg List.length hlabels
    rw [List.length_map, List.length_map] at hlen
    rw [hlen]
    exact hno.trans (h.growing (hgen.symm.trans hd))
  · intro hd
    have hd' := hgen.symm.trans hd
    rw [hlabels, hlisting, (hp.total hl hm hd').2]
    exact h.row hd'
  · intro c hc
    rcases hproves c hc with hc | hc
    · exact htag c (h.proves c hc)
    · exact htag c hc
  · intro c hc
    rcases hdelivered c hc with hc | hc
    · exact htag c (h.delivered c hc)
    · exact htag c hc

omit [Blob β] in
/-- The number of a normal task of a completed row. -/
theorem Row.fileNo_lt {total : Nat} {listing : List (Nat × β)}
    {labels : List (Label β)} (h : Row feat total listing labels) {l : Label β}
    (hl : l ∈ labels) (hdef : l.isDeferred = false) : l.fileNo < total := by
  have hmem : l.fileNo ∈
      (labels.filter fun l => !l.isDeferred).map (·.fileNo) :=
    List.mem_map_of_mem (List.mem_filter.mpr ⟨hl, by rw [hdef]; rfl⟩)
  rw [h.normal, List.mem_range] at hmem
  exact hmem

omit [Blob β] in
/-- The id of a task beyond the last segment is gone. -/
theorem cut_gone (hs : Shape w) {s : Stage β} {listing : List (Nat × β)}
    (hrow : Row feat s.splitTask.totalSegments listing
      (s.proveTasks.map ProveTask.label))
    (hmem : ∀ u ∈ s.proveTasks,
      u ∈ w.stage.proveTasks ∨ Newborn w.stage.uuid u)
    {t : ProveTask β} (ht : t ∈ w.stage.proveTasks)
    (hdef : t.label.isDeferred = false)
    (hge : s.splitTask.totalSegments ≤ t.fileNo) :
    ∀ l ∈ s.proveTasks.map ProveTask.label, l.id ≠ t.taskId := by
  intro l hl hid
  obtain ⟨u, hu, rfl⟩ := List.mem_map.mp hl
  have hut : u.taskId = t.taskId := hid
  rcases hmem u hu with hold | hnew
  · rw [eq_of_key hs.prove_nodup hold ht hut] at hu
    have hlt : t.fileNo < _ := hrow.fileNo_lt (mem_labels hu) hdef
    omega
  · have hle := hnew.id_le
    have hlt := hs.prove_lt t ht
    omega

/-- **ROWS**: moves keep the numbering. -/
theorem Rows.moved {g : GenerateTask β} (hs : Shape w) (hl : Leases w)
    (hg : Graph feat w) (hp : Phases g w) (h : Rows feat w)
    (hm : Moved feat w w') : Rows feat w' := by
  have hkeep := h.keep hl hp hm
  cases hm with
  | grow new _ hdone _ hgr =>
      have hmem : ∀ l ∈ w.stage.proveTasks.map ProveTask.label,
          l ∈ (w.stage.proveTasks ++ new).map ProveTask.label := by
        intro l hmem
        rw [List.map_append]
        exact List.mem_append_left _ hmem
      have hnone : w.stage.isTasksGenDone = true → False :=
        fun hd => nomatch hdone.symm.trans hd
      refine ⟨?_, fun hd => (hnone hd).elim, ?_, ?_⟩
      · intro _
        show (w.stage.proveTasks ++ new).map (·.fileNo) = _
        rw [List.map_append, h.growing hdone, hgr.fileNos,
          List.range_eq_range', List.length_append, List.range_eq_range',
          ← List.range'_append_1, Nat.zero_add]
      · exact fun c hc => (h.proves c hc).keep hmem fun hd => (hnone hd).elim
      · exact fun c hc => (h.delivered c hc).keep hmem fun hd => (hnone hd).elim
  | finalise s listing hf =>
      have hrow := hf.row hs h
      -- a copy of a task that is cut off is beyond the last segment
      have htag : ∀ c, Tagged w.stage c → Tagged s c := by
        intro c hc
        have hmem := hf.mem_prove
        cases hf with
        | mk normal deferred as u u' errmsg listing _ hdone _ _ hn _ _ =>
            cases hc with
            | known l hl hid hno hdef =>
                obtain ⟨t, ht, rfl⟩ := List.mem_map.mp hl
                rcases hn.kept (h.growing hdone) ht with hnorm | hge
                · exact .known t.label
                    (mem_labels (List.mem_append_left _ hnorm)) hid hno hdef
                · have hgone := cut_gone hs hrow hmem ht hdef hge
                  exact .beyond rfl (hge.trans_eq hno)
                    (hid ▸ hgone)
            | beyond hd _ _ => exact nomatch hdone.symm.trans hd
      have hdone := hf.frame.2
      exact ⟨fun hd => (nomatch hdone.symm.trans hd), fun _ => hrow,
        fun c hc => htag c (h.proves c hc),
        fun c hc => htag c (h.delivered c hc)⟩
  | proveOut now x t hx hwait ht =>
      subst ht
      refine hkeep (map_put_of_mem ProveTask.label hs.prove_nodup hx rfl rfl)
        rfl rfl ?_ fun c hc => Or.inl hc
      intro c hc
      rcases List.mem_append.mp hc with hc | hc
      · exact Or.inl hc
      · rw [List.mem_singleton.mp hc]
        refine Or.inr (.known x.label (mem_labels hx) rfl rfl ?_)
        cases hd : x.isDeferred with
        | false => exact hd
        | true => exact absurd (hg.deferred x hx hd) (waiting_unfinished hwait)
  | proveIn i c t r now ps err hc htaken hct hback =>
      refine hkeep (htaken.labels hs hg) rfl rfl ?_ ?_
      · exact fun d hd => Or.inl (List.mem_of_mem_eraseIdx hd)
      · intro d hd
        rcases List.mem_cons.mp hd with hd | hd
        · cases hd
          refine Or.inr ?_
          have hno : t.fileNo = c.fileNo := by rw [hct]
          cases h.proves c (List.mem_of_getElem? hc) with
          | known l hl hid hl' hdef =>
              exact .known l hl (hid.trans hback.taskId.symm)
                (hl'.trans hno.symm) hdef
          | beyond hd hle hgone =>
              exact .beyond hd (by rw [hno]; exact hle)
                (by rw [hback.taskId]; exact hgone)
        · exact Or.inl hd
  | splitIn i c r now _ =>
      refine hkeep rfl rfl rfl (fun c hc => Or.inl hc) fun d hd => Or.inl ?_
      rcases List.mem_cons.mp hd with hd | hd
      · exact nomatch hd
      · exact hd
  | aggIn i c t r now as err file _ _ _ _ _ =>
      refine hkeep rfl rfl rfl (fun c hc => Or.inl hc) fun d hd => Or.inl ?_
      rcases List.mem_cons.mp hd with hd | hd
      · exact nomatch hd
      · exact hd
  | snarkIn i c t r now _ _ _ =>
      refine hkeep rfl rfl rfl (fun c hc => Or.inl hc) fun d hd => Or.inl ?_
      rcases List.mem_cons.mp hd with hd | hd
      · exact nomatch hd
      · exact hd
  | _ => exact hkeep rfl rfl rfl (fun c hc => Or.inl hc) fun d hd => Or.inl hd

theorem Reachable.rows {g : GenerateTask β}
    (hfrom : g.fromStep = .Init ∨ g.fromStep = .Agg)
    (h : Reachable feat g w) : Rows feat w := by
  have hall : Leases w ∧ Graph feat w ∧ Phases g w ∧ Rows feat w :=
    h.inv (I := fun w => Leases w ∧ Graph feat w ∧ Phases g w ∧ Rows feat w)
      (fun file => ⟨Leases.start g file, Graph.start g file,
        Phases.start hfrom file, Rows.start g file⟩)
      fun _ _ hs hi hm => ⟨hi.1.moved hs hm, hi.2.1.moved hs hi.1 hm,
        hi.2.2.1.moved hi.1 hm, hi.2.2.2.moved hs hi.1 hi.2.1 hi.2.2.1 hm⟩
  exact hall.2.2.2

end

end ZkmProver
