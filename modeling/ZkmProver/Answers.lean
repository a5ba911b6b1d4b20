import ZkmProver.StatusFiles

/-! # Answers — `get_status` on a proof that has succeeded

    What `generate_proof` writes lies below a few names in the directory of
    the proof (`Origin.below`).  The receipt is not among them, and nobody
    writes it later; the output stream is written by a split, and a request
    from `Agg` has none.  Both are read with `unwrap`. -/

namespace ZkmProver

open Machine

/-! ## What a request writes -/

/-- The upload of a request that is accepted with the row `row`. -/
structure Uploaded (svc : StageServiceSVC) (feat : Feature)
    (req : GenerateProofRequest) (existsPath : String → Bool)
    (row : InsertedRow) (fromStep : Step) (elfOps : List FileOp) : Prop where
  isFrom : fromStep = .Init ∨ fromStep = .Agg
  asked  : Step.fromI32 (req.fromStep.getD 0) = some fromStep
  elf    : ∃ elfPath elfId,
    svc.elf req existsPath fromStep = .ok (elfPath, elfId, elfOps)
  status : row.status = .Computing
  request : ∃ elfPath elfId targetStep, row.context
    = svc.generateTask feat req elfPath elfId fromStep targetStep
  files  : (svc.generateProof feat req existsPath).files
    = elfOps ++ svc.inputOps req ++ svc.receiptOps feat req fromStep

/-- A row comes from an upload that passed every check. -/
theorem generateProof_row {svc : StageServiceSVC} {feat : Feature}
    {req : GenerateProofRequest} {existsPath : String → Bool}
    {row : InsertedRow}
    (h : (svc.generateProof feat req existsPath).row = some row) :
    ∃ fromStep elfOps,
      Uploaded svc feat req existsPath row fromStep elfOps := by
  rcases generateProof_cases svc feat req existsPath with
    ⟨_, _, hnone⟩ | ⟨user, fromStep, targetStep, elfPath, elfId, elfOps,
      hadmits, helf, hupload⟩
  · cases hnone.symm.trans h
  · rw [hupload, StageServiceSVC.upload] at h
    split at h
    · cases h
    case isFalse hreceipts =>
      cases h
      refine ⟨fromStep, elfOps, hadmits.start.2, hadmits.start.1,
        ⟨elfPath, elfId, helf⟩, rfl, ⟨elfPath, elfId, targetStep, rfl⟩, ?_⟩
      rw [hupload, StageServiceSVC.upload, if_neg hreceipts]

/-! ## Paths -/

/-- The second characters, behind the slash, are there and differ. -/
def apart (a b : String) : Bool :=
  match a.toList[1]?, b.toList[1]? with
  | some c, some c' => c ≠ c'
  | _, _ => false

/-- Names that differ in a letter before either ends lead to different files. -/
theorem path_ne {dir a b : String} (h : apart a b = true)
    (rest rest' : String) : dir ++ (a ++ rest) ≠ dir ++ (b ++ rest') := by
  intro heq
  have hsame := congrArg (fun s => s.toList[1]?)
    (String.append_right_inj .. |>.mp heq)
  rw [apart] at h
  split at h
  case h_1 c c' ha hb =>
    simp only [String.toList_append] at hsame
    rw [List.getElem?_append_left (List.getElem?_eq_some_iff.mp ha).1, ha,
      List.getElem?_append_left (List.getElem?_eq_some_iff.mp hb).1, hb]
      at hsame
    exact of_decide_eq_true h (Option.some.inj hsame)
  case h_2 => cases h

/-- The path lies below one of these names in `dir`. -/
def Below (dir : String) (names : List String) (path : String) : Prop :=
  ∃ name ∈ names, ∃ rest, path = dir ++ (name ++ rest)

/-- A file below one of the names is none below another one. -/
theorem Below.ne {dir path b : String} {names : List String}
    (h : Below dir names path) (hb : ∀ name ∈ names, apart name b = true)
    (rest : String) : path ≠ dir ++ (b ++ rest) := by
  obtain ⟨name, hname, rest', rfl⟩ := h
  exact path_ne (hb name hname) rest' rest

section

variable {svc : StageServiceSVC} {feat : Feature} {req : GenerateProofRequest}
  {existsPath : String → Bool} {row : InsertedRow} {fromStep : Step}
  {elfOps : List FileOp} {path : String} {content : List UInt8}

/-- What `generate_proof` puts into the directory of the proof. -/
def uploadNames : List String := ["/0_", "/input_stream", "/wrap"]

/-- The ELF goes to the cache. -/
theorem elf_below {elfPath elfId : String}
    (h : svc.elf req existsPath fromStep = .ok (elfPath, elfId, elfOps))
    (hw : FileOp.write path content ∈ elfOps) :
    Below svc.baseDir ["/elf"] path := by
  rcases elf_ok h with rfl | ⟨_, hpath, rfl⟩
  · exact absurd hw List.not_mem_nil
  · cases List.mem_singleton.mp hw
    refine ⟨"/elf", List.mem_singleton_self _,
      "/" ++ svc.elfHash req.elfData, ?_⟩
    rw [hpath]
    simp only [String.append_assoc]

/-- An input goes to its stream directory. -/
theorem input_below {name : String} {isEmpty : Bool} {bytes : List UInt8}
    (h : FileOp.write path content ∈ (svc.input req name isEmpty bytes).2) :
    Below (svc.dirPath req) uploadNames path := by
  rw [StageServiceSVC.input] at h
  split at h
  · exact absurd h List.not_mem_nil
  · cases List.mem_singleton.mp h
    refine ⟨"/input_stream", by decide, "/" ++ name, ?_⟩
    rw [StageServiceSVC.inputStreamDir]
    simp only [String.append_assoc]

/-- So do all inputs, and the block. -/
theorem inputOps_below (h : FileOp.write path content ∈ svc.inputOps req) :
    Below (svc.dirPath req) uploadNames path := by
  rw [StageServiceSVC.inputOps, List.mem_append, List.mem_append,
    List.mem_append, List.mem_append] at h
  rcases h with (((hdirs | hblock) | hdir) | hpublic) | hprivate
  · rcases List.mem_cons.mp hdirs with hdir | hdir
    · cases hdir
    · cases List.mem_singleton.mp hdir
  · obtain ⟨item, _, hitem⟩ := List.mem_map.mp hblock
    cases hitem
    refine ⟨"/0_", by decide,
      toString (req.blockNo.getD 0) ++ ("/" ++ item.1), ?_⟩
    rw [StageServiceSVC.blockDir]
    simp only [String.append_assoc]
  · cases List.mem_singleton.mp hdir
  · exact input_below hpublic
  · exact input_below hprivate

/-- The receipts go to the wrap and to the input streams. -/
theorem receiptOps_below
    (h : FileOp.write path content ∈ svc.receiptOps feat req fromStep) :
    Below (svc.dirPath req) uploadNames path := by
  rw [StageServiceSVC.receiptOps] at h
  simp only [List.mem_append, List.mem_cons, List.not_mem_nil, or_false,
    reduceCtorEq] at h
  rcases h with (hinputs | hreceipts) | hwrap
  · exact input_below hinputs
  · exact input_below hreceipts
  · split at hwrap
    · cases List.mem_singleton.mp hwrap
      refine ⟨"/wrap", by decide,
        "/public_values." ++ StageServiceSVC.suffix feat, ?_⟩
      simp only [String.append_assoc]
    · exact absurd hwrap List.not_mem_nil

/-- **ORIGINS**: without a split the files lie below a few names only. -/
theorem Origin.below
    (hu : Uploaded svc feat req existsPath row fromStep elfOps)
    (h : Origin (svc.generateProof feat req existsPath).files row.context path) :
    Below svc.baseDir ["/elf"] path ∨
      Below (svc.dirPath req) ("/snark" :: uploadNames) path ∨
      fromStep = .Init ∧
        (Below (svc.dirPath req) ["/segment"] path ∨
          path = row.context.outputStreamPath) := by
  obtain ⟨elfPath, elfId, targetStep, hreq⟩ := hu.request
  have hup : Below (svc.dirPath req) uploadNames path →
      Below (svc.dirPath req) ("/snark" :: uploadNames) path := by
    rintro ⟨name, hname, rest, hpath⟩
    exact ⟨name, List.mem_cons_of_mem _ hname, rest, hpath⟩
  have hfrom : row.context.fromStep = fromStep := by rw [hreq]; rfl
  cases h with
  | upload _ content hop =>
      rw [hu.files, List.mem_append, List.mem_append] at hop
      rcases hop with (helf | hinput) | hreceipt
      · obtain ⟨elfPath, elfId, hok⟩ := hu.elf
        exact Or.inl (elf_below hok helf)
      · exact Or.inr (Or.inl (hup (inputOps_below hinput)))
      · exact Or.inr (Or.inl (hup (receiptOps_below hreceipt)))
  | snark =>
      have hpath : row.context.snarkPath = svc.dirPath req ++ "/snark"
          ++ "/proof_with_public_inputs.json" := by rw [hreq]; rfl
      refine Or.inr (Or.inl ⟨"/snark", List.mem_cons_self ..,
        "/proof_with_public_inputs.json", ?_⟩)
      rw [hpath, String.append_assoc]
  | segment name hinit =>
      have hpath : row.context.segPath = svc.dirPath req ++ "/segment" := by
        rw [hreq]; rfl
      refine Or.inr (Or.inr ⟨hfrom ▸ hinit, Or.inl ⟨"/segment",
        List.mem_singleton_self _, "/" ++ name, ?_⟩⟩)
      rw [hpath]
      simp only [String.append_assoc]
  | output hinit => exact Or.inr (Or.inr ⟨hfrom ▸ hinit, Or.inr rfl⟩)

end

/-! ## The theorem -/

section

variable {svc : StageServiceSVC} {req : GenerateProofRequest}
  {existsPath : String → Bool} {row : InsertedRow} {fromStep : Step}
  {elfOps : List FileOp}

/-- What `get_status` reads of a request under feature `prover`. -/
theorem Uploaded.mustRead
    (hu : Uploaded svc .prover req existsPath row fromStep elfOps) :
    row.context.outputStreamPath
        = svc.dirPath req ++ ("/output_stream" ++ "/output_stream") ∧
      row.context.mustRead = row.context.outputStreamPath
        :: if req.compositeProof then
            [svc.dirPath req ++ ("/prove" ++ "/receipt/0")]
          else [] := by
  obtain ⟨elfPath, elfId, targetStep, hreq⟩ := hu.request
  have hout : row.context.outputStreamPath
      = svc.dirPath req ++ ("/output_stream" ++ "/output_stream") := by
    rw [hreq, ← String.append_assoc]
    rfl
  have hprove : row.context.provePath = svc.dirPath req ++ "/prove" := by
    rw [hreq]
    rfl
  have hcomp : row.context.compositeProof = req.compositeProof := by
    rw [hreq]
    rfl
  have hpath : row.context.outputStreamPath ≠ "" := by
    rw [hout]
    intro hempty
    exact absurd (String.append_eq_empty_iff.mp hempty).2 (by decide)
  refine ⟨hout, ?_⟩
  rw [GenerateTask.mustRead, if_neg hpath, hcomp, hprove, String.append_assoc]
  split <;> rfl

/-- No file is written at a path below another name of the directory. -/
theorem Origin.ne {path b : String}
    (hu : Uploaded svc .prover req existsPath row fromStep elfOps)
    (h : Origin (svc.generateProof .prover req existsPath).files row.context
      path)
    (hb : ∀ name ∈ "/snark" :: uploadNames, apart name b = true)
    (hinit : fromStep = .Init →
      apart "/segment" b = true ∧ apart "/output_stream" b = true)
    (rest : String) : path ≠ svc.dirPath req ++ (b ++ rest) := by
  rcases h.below hu with helf | hup | ⟨hfrom, hseg | hout⟩
  · have hdir : svc.dirPath req ++ (b ++ rest)
        = svc.baseDir ++ ("/proof/" ++ (req.proofId ++ (b ++ rest))) := by
      rw [StageServiceSVC.dirPath]
      simp only [String.append_assoc]
    rw [hdir]
    exact helf.ne (by decide) _
  · exact hup.ne hb rest
  · refine hseg.ne (fun name hname => ?_) rest
    rw [List.mem_singleton.mp hname]
    exact (hinit hfrom).1
  · rw [hout, hu.mustRead.1]
    exact path_ne (hinit hfrom).2 _ rest

end

section

variable {κ : Type} [DecidableEq κ]

/-- A call that answers Computing has inserted its row. -/
theorem computing_row {resolve : String → κ} {svc : StageServiceSVC}
    {feat : Feature} {req : GenerateProofRequest}
    {existsPath : String → Bool} {io : Io} {site : Site κ}
    (h : ((svc.generateProof feat req existsPath).call resolve io
      site).1.isComputing = true) :
    ∃ row, (svc.generateProof feat req existsPath).row = some row := by
  by_contra hno
  have hu := generateProof_formed svc feat req existsPath
  have hstop : ((svc.generateProof feat req existsPath).call resolve io
      site).1.isComputing = false :=
    (call_stops hu fun hins =>
      hno (Option.isSome_iff_exists.mp hins.1)).2
  cases hstop.symm.trans h

/-- **GET STATUS**: of the requests that are accepted, exactly those from
    `Init` whose proof is not composite have all their files written by the
    time they have succeeded, and get their response. -/
theorem get_status_answers (svc : StageServiceSVC) (req : GenerateProofRequest)
    (existsPath : String → Bool) (resolve : String → κ) (io : Io)
    (site : Site κ)
    (haccepted : ((svc.generateProof .prover req existsPath).call resolve io
      site).1.isComputing = true) :
    ∃ row, (svc.generateProof .prover req existsPath).row = some row ∧
      ∀ (b : Boot (List UInt8)) (acts : List ServedAct) (s : Served κ)
        (returned : StageRow) (stage : Option (Stage (List UInt8)))
        (executeInfo : List (SplitTask (List UInt8))),
        Served.Runs resolve row b
          ((svc.generateProof .prover req existsPath).call resolve io site).2
          acts s →
        s.ctl = .returned returned stage → returned.status = .Success →
        (req.compositeProof = false ∧
            Step.fromI32 (req.fromStep.getD 0) = some .Init →
          (∀ path ∈ row.context.mustRead, resolve path ∈ s.written) ∧
          (svc.getStatus .prover req.proofId (some (row.stored returned))
            executeInfo fun path => s.site.files (resolve path)).isSome
              = true) ∧
        (Function.Injective resolve →
          ¬ (req.compositeProof = false ∧
            Step.fromI32 (req.fromStep.getD 0) = some .Init) →
          ∃ path ∈ row.context.mustRead, resolve path ∉ s.written) := by
  obtain ⟨row, hrow⟩ := computing_row haccepted
  refine ⟨row, hrow, ?_⟩
  intro b acts s returned stage executeInfo hrun hend hsucc
  obtain ⟨fromStep, elfOps, hu⟩ := generateProof_row hrow
  obtain ⟨hout, hmust⟩ := hu.mustRead
  have hfrom : row.context.fromStep = fromStep := by
    obtain ⟨elfPath, elfId, targetStep, hreq⟩ := hu.request
    rw [hreq]
    rfl
  have hsourced : Sourced resolve
      (svc.generateProof .prover req existsPath).files row.context s := by
    refine hrun.sourced (hfrom ▸ hu.isFrom) hu.status ?_ ?_
    · intro f hf
      rw [call_touched] at hf
      rw [call_files]
      exact perform_present hf
    · intro f hf
      rw [call_touched] at hf
      obtain ⟨path, content, hop, hpath⟩ := perform_origin hf
      exact ⟨path, hpath, .upload path content hop⟩
  refine ⟨?_, ?_⟩
  · rintro ⟨hcomp, hasked⟩
    cases hu.asked.symm.trans hasked
    have hwritten : ∀ path ∈ row.context.mustRead,
        resolve path ∈ s.written := by
      have hrouted := hsourced.routed
      rw [hend] at hrouted
      rw [hmust, if_neg (by rw [hcomp]; exact Bool.false_ne_true)]
      intro path hpath
      rw [List.mem_singleton.mp hpath]
      exact hrouted hsucc hfrom
    refine ⟨hwritten, (getStatus_isSome ..).mpr ?_⟩
    rintro g hctx _ path hpath
    cases hctx
    exact hsourced.present _ (hwritten path hpath)
  · intro hinj hbad
    by_contra hall
    have horigin : ∀ path ∈ row.context.mustRead,
        Origin (svc.generateProof .prover req existsPath).files row.context
          path := by
      intro path hpath
      have hwritten : resolve path ∈ s.written := by
        by_contra hnot
        exact hall ⟨path, hpath, hnot⟩
      obtain ⟨path', heq, horig⟩ := hsourced.origin _ hwritten
      rw [hinj heq]
      exact horig
    rw [hmust] at horigin
    cases hcomp : req.compositeProof with
    | true =>
        -- nobody writes the receipt
        rw [hcomp, if_pos rfl] at horigin
        exact (horigin _ (List.mem_cons_of_mem _ (List.mem_singleton_self _))).ne
          hu (by decide) (fun _ => by decide) _ rfl
    | false =>
        -- without a split nobody writes the output stream
        have hagg : fromStep ≠ .Init := by
          rintro rfl
          exact hbad ⟨hcomp, hu.asked⟩
        exact (horigin _ (List.mem_cons_self ..)).ne hu (by decide)
          (fun hinit => absurd hinit hagg) _ hout

end

/-! ## A split, and a receipt that is wrapped -/

/-- The worker has returned, and its row says SUCCESS. -/
def Ctl.succeeded {β : Type} : Ctl β → Bool
  | .returned row _ => row.status = .Success
  | _ => false

theorem Ctl.succeeded_iff {β : Type} {c : Ctl β} (h : c.succeeded = true) :
    ∃ row stage, c = .returned row stage ∧ row.status = .Success := by
  cases c with
  | returned row stage => exact ⟨row, stage, rfl, of_decide_eq_true h⟩
  | _ => cases h

/-- Nothing is there. -/
def bareSite : Site String := ⟨fun _ => none, [], []⟩

/-- A request that is for its segments only. -/
def splitRequest : GenerateProofRequest :=
  { privateRequest with targetStep := some 1 }

/-- The split comes back with one segment, and the next turn ends. -/
def splitServed : List ServedAct :=
  [.worker (.handOut (fun k => k) .full),
    .split 0 1 (.ran "n" (.ran 7 [("0", [1])] [9]) (fun _ => .ok) true),
    .worker (.dispatch 1 .full 0)] ++ (quickTurn .tick).map .worker

/-- A row of `oneUserSVC`. -/
def rowOf (req : GenerateProofRequest) (elfPath elfId : String)
    (fromStep targetStep : Step) : InsertedRow where
  id := req.proofId
  address := "u"
  status := .Computing
  context :=
    oneUserSVC.generateTask .prover req elfPath elfId fromStep targetStep

/-- The row it inserts. -/
def splitRow : InsertedRow := rowOf splitRequest "d/elf/h" "h" .Init .Split

/-- What `generate_proof` leaves where there was nothing. -/
def uploadOf (req : GenerateProofRequest) : CallRun String :=
  ((oneUserSVC.generateProof .prover req fun _ => false).call id fairIo
    bareSite).2

/-- A closed run that is checked to succeed, as the theorem wants it. -/
theorem served_succeeds {row : InsertedRow} {b : Boot (List UInt8)}
    {upload : CallRun String} {acts : List ServedAct}
    {p : Served String → Bool}
    (h : (run (Served.step id row.context.snarkPath)
      (Served.start id row b upload) acts).any
        (fun s => s.ctl.succeeded && p s) = true) :
    ∃ s returned stage, Served.Runs id row b upload acts s ∧
      s.ctl = .returned returned stage ∧ returned.status = .Success ∧
      p s = true := by
  obtain ⟨s, hrun, hs⟩ := Option.any_eq_true .. |>.mp h
  rw [Bool.and_eq_true] at hs
  obtain ⟨returned, stage, hend, hsucc⟩ := Ctl.succeeded_iff hs.1
  exact ⟨s, returned, stage, hrun, hend, hsucc, hs.2⟩

/-- The segments are split off, and `get_status` answers. -/
theorem get_status_answers_split :
    ∃ s returned stage,
      Served.Runs id splitRow freshBoot (uploadOf splitRequest) splitServed s ∧
      s.ctl = .returned returned stage ∧ returned.status = .Success ∧
      (∀ path ∈ splitRow.context.mustRead, path ∈ s.written) ∧
      (oneUserSVC.getStatus .prover splitRequest.proofId
        (some (splitRow.stored returned)) [] s.site.files).isSome = true := by
  obtain ⟨row, hrow, hall⟩ := get_status_answers oneUserSVC splitRequest
    (fun _ => false) id fairIo bareSite rfl
  obtain rfl : splitRow = row := Option.some.inj hrow
  obtain ⟨s, returned, stage, hrun, hend, hsucc, _⟩ :=
    @served_succeeds splitRow freshBoot (uploadOf splitRequest) splitServed
      (fun _ => true) (by decide)
  exact ⟨s, returned, stage, hrun, hend, hsucc,
    (hall freshBoot splitServed s returned stage [] hrun hend hsucc).1
      ⟨rfl, rfl⟩⟩

/-- A receipt is wrapped, with no split before. -/
def wrapRequest : GenerateProofRequest :=
  { privateRequest with fromStep := some 3, receiptInputs := [[7]] }

/-- The row that `wrapRequest` inserts. -/
def wrapRow : InsertedRow := rowOf wrapRequest "" "" .Agg .Snark

/-- Every file is there and holds the receipt. -/
def receiptDisk : Disk (List UInt8) :=
  { Disk.full with read := fun _ => some (putVec [[7]]) }

/-- The receipt is handed out and comes back as a proof. -/
def wrapServed : List ServedAct :=
  [.worker (.handOut (fun k => k) .full),
    .worker (.receive 1 (.snark 0 ⟨.Success, "n", [8]⟩ true)),
    .worker (.dispatch 1 .full 0)]

/-- A proof from `Agg` succeeds, its row is found, and `get_status`
    panics. -/
theorem wrapped_unanswered :
    (oneUserSVC.generateProof .prover wrapRequest fun _ => false).row
        = some wrapRow ∧
      ((oneUserSVC.generateProof .prover wrapRequest fun _ => false).call id
        fairIo bareSite).1.isComputing = true ∧
      ∃ s returned stage,
        Served.Runs id wrapRow { freshBoot with disk := receiptDisk }
          (uploadOf wrapRequest) wrapServed s ∧
        s.ctl = .returned returned stage ∧ returned.status = .Success ∧
        oneUserSVC.getStatus .prover wrapRequest.proofId
          (some (wrapRow.stored returned)) [] s.site.files = none := by
  refine ⟨rfl, rfl, ?_⟩
  obtain ⟨s, returned, stage, hrun, hend, hsucc, hfile⟩ :=
    @served_succeeds wrapRow { freshBoot with disk := receiptDisk }
      (uploadOf wrapRequest) wrapServed
      (fun s => (s.site.files wrapRow.context.outputStreamPath).isNone)
      (by decide)
  refine ⟨s, returned, stage, hrun, hend, hsucc, ?_⟩
  by_contra hsome
  have hread := (getStatus_isSome ..).mp
    (Option.isSome_iff_ne_none.mpr hsome) _ rfl hsucc
    wrapRow.context.outputStreamPath (List.mem_singleton_self _)
  rw [Option.isNone_iff_eq_none.mp hfile] at hread
  cases hread

end ZkmProver
