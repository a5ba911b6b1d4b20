import ZkmProver.Success

/-! # The target — no work past the requested step

    A request from the first step on makes prove, agg and snark tasks only as
    far as its target goes (`Reachable.on_target`).  A request that starts
    from given receipts makes its snark task without a look at the target. -/

namespace ZkmProver

open Forest Keyed Machine

variable {β : Type}

/-- The requests that `generate_proof` accepts for a cluster run. -/
structure ClusterRequest (g : GenerateTask β) : Prop where
  fromStep : g.fromStep = .Init ∨ g.fromStep = .Agg
  target   : g.targetStep = .Split ∨ g.targetStep = .Agg ∨
    g.targetStep = .Snark
  cluster  : g.singleNode = false

/-- Every task there is belongs to a step up to the target, and no snark proof
    went to `snark_path` when that is to hold the aggregate proof. -/
structure OnTarget (g : GenerateTask β) (w : World β) : Prop where
  snark : w.stage.snarkTask.state ≠ .Initial →
    g.targetStep = .Snark ∧ g.compositeProof = false
  agg   : w.stage.aggTasks ≠ [] →
    (g.targetStep = .Agg ∨ g.targetStep = .Snark) ∧ g.compositeProof = false
  prove : w.stage.proveTasks ≠ [] → g.targetStep ≠ .Split
  file  : g.targetStep = .Agg → w.stage.isSuccess = true →
    ∀ t, Task.Snark t ∉ w.delivered

section

variable [Blob β] {feat : Feature} {g : GenerateTask β} {w w' : World β}

/-! ## What is kept along a run -/

/-- Prove tasks are there for a later target only, and a snark result has come
    back for a snark task only. -/
structure Origins (w : World β) : Prop where
  prove : w.stage.proveTasks ≠ [] → w.stage.generateTask.targetStep ≠ .Split
  snark : ∀ t, Task.Snark t ∈ w.delivered →
    w.stage.snarkTask.state ≠ .Initial

theorem Origins.start (g : GenerateTask β) (file : Option β) :
    Origins (World.start g file) :=
  ⟨fun h => absurd rfl h, fun _ ht => absurd ht List.not_mem_nil⟩

omit [Blob β] in
theorem ProveTaken.ne_nil {now : Nat} {t : ProveTask β}
    {ps ps' : List (ProveTask β)} {err : Bool}
    (h : ProveTaken now t ps ps' err) (hne : ps' ≠ []) : ps ≠ [] := by
  rintro rfl
  have hids := h.ids
  exact hne (List.map_eq_nil_iff.mp hids)

theorem Origins.moved (hl : Leases w) (h : Origins w) (hm : Moved feat w w') :
    Origins w' := by
  constructor
  · intro hne
    rw [hm.request]
    cases hm with
    | grow new _ _ htarget _ => exact htarget
    | finalise s listing hf =>
        cases hf with
        | mk _ _ _ _ _ _ _ _ _ _ htarget _ _ _ => exact htarget
    | proveOut now x t hx _ _ => exact h.prove (List.ne_nil_of_mem hx)
    | proveIn i c t r now ps err _ htaken _ _ =>
        exact h.prove (htaken.ne_nil hne)
    | _ => exact h.prove hne
  · intro t ht
    cases hm with
    | snarkNew snark hnew =>
        rw [hnew.state]
        exact nofun
    | snarkOut now u _ hu =>
        subst hu
        exact nofun
    | snarkIn i c u r now hc _ _ =>
        exact onTask_made (hl.snark_busy (List.mem_of_getElem? hc))
    | finalise s listing hf =>
        cases hf with
        | mk _ _ _ _ _ _ _ _ _ _ _ _ _ _ => exact h.snark t ht
    | splitIn i c r now _ =>
        rcases List.mem_cons.mp ht with hnew | hold
        · exact nomatch hnew
        · exact h.snark t hold
    | proveIn i c u r now ps err _ _ _ _ =>
        rcases List.mem_cons.mp ht with hnew | hold
        · exact nomatch hnew
        · exact h.snark t hold
    | aggIn i c u r now as err file _ _ _ _ _ =>
        rcases List.mem_cons.mp ht with hnew | hold
        · exact nomatch hnew
        · exact h.snark t hold
    | _ => exact h.snark t ht

theorem Reachable.origins (h : Reachable feat g w) : Origins w := by
  have hboth : Leases w ∧ Origins w :=
    h.inv (I := fun w => Leases w ∧ Origins w)
      (fun file => ⟨Leases.start g file, Origins.start g file⟩)
      fun _ _ hs hi hm => ⟨hi.1.moved hs hm, hi.2.moved hi.1 hm⟩
  exact hboth.2

/-! ## From the first step on -/

/-- **ON TARGET**: a request from the first step on, or one whose target is
    the snark proof of a whole proof, keeps to its target. -/
theorem Reachable.on_target (hacc : ClusterRequest g)
    (hgood : g.fromStep = .Init ∨
      (g.targetStep = .Snark ∧ g.compositeProof = false))
    (h : Reachable feat g w) : OnTarget g w := by
  have hp := h.phases hacc.fromStep
  have ho := h.origins
  have hreq := hp.request
  have hsnark : w.stage.snarkTask.state ≠ .Initial →
      g.targetStep = .Snark ∧ g.compositeProof = false := by
    intro hne
    rcases hgood with hf | hgood
    · obtain ⟨hagg, hnot⟩ := hp.due hne hf
      have hwhole := hagg.whole
      rw [hreq] at hwhole
      refine ⟨?_, hwhole⟩
      rcases hacc.target with ht | ht | ht
      · exact absurd ht (hp.gen hagg.proved.done).2
      · exact absurd ht hnot
      · exact ht
    · exact hgood
  refine ⟨hsnark, fun hne => ?_, fun hne => ?_, fun ht _ t hmem => ?_⟩
  · -- there is a graph, so the list of prove tasks was completed
    have hdone : w.stage.isTasksGenDone = true := by
      cases hd : w.stage.isTasksGenDone with
      | true => rfl
      | false => exact absurd (h.shape.early hd).1 hne
    refine ⟨?_, ?_⟩
    · rcases hacc.target with ht | ht
      · exact absurd ht (hp.gen hdone).2
      · exact ht
    · cases hc : g.compositeProof with
      | false => rfl
      | true => exact absurd (h.graph.composite hdone (hreq ▸ hc)) hne
  · have htarget := ho.prove hne
    rwa [hreq] at htarget
  · have hnot := (hsnark (ho.snark t hmem)).1
    exact nomatch ht.symm.trans hnot

end

/-! ## From given receipts -/

theorem deserialize_receiptBytes :
    Blob.deserialize receiptBytes = some [[7]] := by decide

/-- A request that starts from given receipts makes its snark task at once. -/
theorem snark_at_once {feat : Feature} {g : GenerateTask (List UInt8)}
    (hfrom : g.fromStep = .Agg) :
    ∃ w, Reachable feat g w ∧ w.stage.snarkTask.state ≠ .Initial := by
  have hstep : (World.start g none).stage.step = .Agg := hfrom
  have hread : (Disk.receipt.read g.receiptInputsPath).bind Blob.deserialize
      = some [[7]] := deserialize_receiptBytes
  have hfresh : (Stage.new g).snarkTask.state = .Initial := rfl
  obtain ⟨s, hs⟩ : ∃ s, (Stage.new g).genSnarkTask .receipt = some s := by
    rw [Stage.genSnarkTask, if_pos hfresh]
    simp only [Stage.new, hfrom, hread]
    exact ⟨_, rfl⟩
  have hstate : s.snarkTask.state = .Unprocessed := by
    rw [Stage.genSnarkTask, if_pos hfresh] at hs
    simp only [Stage.new, hfrom, hread, Option.some.injEq] at hs
    subst hs
    rfl
  refine ⟨{ World.start g none with
    stage := { s with step := .Snark }
    listing := World.listed feat .receipt (Stage.new g)
      { s with step := .Snark } [] }, ⟨none, [.dispatch .receipt], ?_⟩, ?_⟩
  · refine run_cons.mpr ⟨_, ?_, rfl⟩
    show ((Stage.new g).dispatch feat .receipt).map _ = _
    have hdisp : (Stage.new g).dispatch feat .receipt
        = some { s with step := .Snark } := by
      have hnew : (Stage.new g).step = .Agg := hfrom
      rw [Stage.dispatch, hnew]
      dsimp only
      rw [if_pos (show (Stage.new g).generateTask.fromStep = .Agg from hfrom),
        hs]
      rfl
    rw [hdisp]
    rfl
  · show s.snarkTask.state ≠ .Initial
    rw [hstate]
    rintro ⟨⟩

/-- **TARGET**: the runs of an accepted request keep to its target just when
    it starts at the first step or asks for the snark proof of a whole
    proof. -/
theorem on_target_iff {feat : Feature} {g : GenerateTask (List UInt8)}
    (hacc : ClusterRequest g) :
    (∀ w, Reachable feat g w → OnTarget g w) ↔
      g.fromStep = .Init ∨
        (g.targetStep = .Snark ∧ g.compositeProof = false) := by
  constructor
  · intro hall
    rcases hacc.fromStep with hf | hf
    · exact Or.inl hf
    · obtain ⟨w, hw, hne⟩ : ∃ w, Reachable feat g w ∧ _ := snark_at_once hf
      exact Or.inr ((hall w hw).snark hne)
  · exact fun hgood w hw => hw.on_target hacc hgood

/-- From given receipts with the aggregate proof as the target. -/
def fromAggRequest : GenerateTask (List UInt8) :=
  { aggRequest with fromStep := .Agg }

/-- The request for the aggregate proof over two segments. -/
theorem on_target_iff_agg :
    ClusterRequest (aggRequest : GenerateTask (List UInt8)) ∧
      ∀ w, Reachable .prover (aggRequest : GenerateTask (List UInt8)) w →
        OnTarget aggRequest w :=
  have hacc : ClusterRequest (aggRequest : GenerateTask (List UInt8)) :=
    ⟨Or.inl rfl, Or.inr (Or.inl rfl), rfl⟩
  ⟨hacc, (on_target_iff hacc).mpr (Or.inl rfl)⟩

/-- From given receipts a snark proof is made, and stands where `get_status`
    reads the aggregate proof. -/
theorem target_missed :
    ClusterRequest fromAggRequest ∧ fromAggRequest.targetStep = .Agg ∧
      ∃ w, Reachable .prover fromAggRequest w ∧
        w.stage.isSuccess = true ∧ w.stage.isError = false ∧
        w.snarkFile = some [9] ∧ ∃ t, Task.Snark t ∈ w.delivered := by
  refine ⟨⟨Or.inr rfl, Or.inr (Or.inl rfl), rfl⟩, rfl, ?_⟩
  obtain ⟨w, hw, hp⟩ := Reachable.of_check .prover fromAggRequest
    [.dispatch .receipt, .getSnark 1, .onSnark 0 ⟨.Success, "a", [9]⟩ 2 true,
      .dispatch .receipt]
    (fun w => (w.stage.isSuccess && !w.stage.isError
      && w.snarkFile = some [9]) && w.delivered.any Task.isSnark) (by decide)
  rw [Bool.and_eq_true, Bool.and_eq_true, Bool.and_eq_true,
    decide_eq_true_eq, Bool.not_eq_true'] at hp
  obtain ⟨⟨⟨hsucc, herr⟩, hfile⟩, hany⟩ := hp
  obtain ⟨d, hd, hsnark⟩ := List.any_eq_true.mp hany
  cases d with
  | Snark t => exact ⟨w, hw, hsucc, herr, hfile, t, hd⟩
  | Split t => cases hsnark
  | Prove t => cases hsnark
  | Agg t => cases hsnark

end ZkmProver
