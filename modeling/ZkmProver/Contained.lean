import ZkmProver.Intake
import ZkmProver.Paths

/-! # Contained — where `generate_proof` writes

    Whatever a request asks for lies in the directory of its proof, or is the
    cache file of its ELF: so it would be if its `proof_id` were a UUID and its
    block files had the names of files, as the client has them.  Neither is
    checked.  Both are spliced into paths, and a request stays in its directory
    exactly when the `proof_id` is one plain name and no block file climbs out
    of it (`requests_contained`). -/

namespace ZkmProver

open Paths

/-! ## What a call creates and writes -/

/-- The operation is among those up to the first that fails, and is not
    refused. -/
def Upload.Reaches (u : Upload) (io : Io) (op : FileOp) : Prop :=
  ∃ k, u.files[k]? = some op ∧ (∀ j < k, io.file j = .ok) ∧
    io.file k ≠ .refused

/-- Some answers let every operation be reached. -/
theorem Upload.reaches_iff {u : Upload} {op : FileOp} :
    (∃ io, u.Reaches io op) ↔ op ∈ u.files := by
  constructor
  · rintro ⟨io, k, hk, _⟩
    exact List.mem_of_getElem? hk
  · intro hop
    obtain ⟨k, hk⟩ := List.getElem?_of_mem hop
    exact ⟨fairIo, k, hk, fun _ _ => rfl, by rintro ⟨⟩⟩

namespace StageServiceSVC

variable (svc : StageServiceSVC)

/-- The directory named by `proof_id`. -/
def ownDir (proofId : String) : Loc :=
  (resolve (svc.baseDir ++ "/proof")).child proofId.toList

/-- The cache file of an ELF. -/
def cached (elfData : List UInt8) : Loc :=
  resolve (svc.baseDir ++ "/elf" ++ "/" ++ svc.elfHash elfData)

end StageServiceSVC

/-- What is created or written is in the directory of the proof, or is the
    cache file of the ELF. -/
def FileOp.Contained (svc : StageServiceSVC) (req : GenerateProofRequest) :
    FileOp → Prop
  | .createDirAll path => (svc.ownDir req.proofId).Under (resolve path)
  | .write path _ =>
      (svc.ownDir req.proofId).Under (resolve path) ∨
        resolve path = svc.cached req.elfData

/-! ## The directory of a proof -/

section

variable {svc : StageServiceSVC} {feat : Feature} {req : GenerateProofRequest}
  {existsPath : String → Bool} {fromStep : Step}

/-- The directory of a proof, as a path below `proof`. -/
theorem dirPath_eq (svc : StageServiceSVC) (req : GenerateProofRequest) :
    svc.dirPath req = svc.baseDir ++ "/proof" ++ "/" ++ req.proofId := by
  have hslash : ("/proof/" : String) = "/proof" ++ "/" := rfl
  rw [StageServiceSVC.dirPath, hslash, ← String.append_assoc]

theorem slash_ne {s t : String} : s ++ "/" ++ t ≠ "" := by
  intro h
  have hslash := (String.append_eq_empty_iff.mp h).1
  exact absurd (String.append_eq_empty_iff.mp hslash).2 (by decide)

/-- It is not the empty path. -/
theorem dirPath_ne (svc : StageServiceSVC) (req : GenerateProofRequest) :
    svc.dirPath req ≠ "" := by
  rw [dirPath_eq]
  exact slash_ne

/-- A plain id has the directory of its name. -/
theorem resolve_dirPath (h : Plain req.proofId.toList) :
    resolve (svc.dirPath req) = svc.ownDir req.proofId := by
  rw [dirPath_eq, resolve_child ?_ h]
  · rfl
  · intro hnil
    exact absurd (String.append_eq_empty_iff.mp hnil).2 (by decide)

/-- Only a plain name leads into the directory of that name. -/
theorem plain_of_under
    (h : (svc.ownDir req.proofId).Under (resolve (svc.dirPath req))) :
    Plain req.proofId.toList :=
  resolve_trail _ _ (h.2.2.subset List.mem_cons_self)

/-- What lies below a fixed name. -/
theorem under_fixed (h : Plain req.proofId.toList) {path t : String}
    (hpath : path = svc.dirPath req ++ "/" ++ t) (ht : (relative t).above = 0) :
    (svc.ownDir req.proofId).Under (resolve path) := by
  rw [hpath, resolve_join (dirPath_ne svc req), resolve_dirPath h]
  exact Loc.under_follow _ ht

/-- The name of the directory of the block. -/
def blockName (req : GenerateProofRequest) : String :=
  "0_" ++ toString (req.blockNo.getD 0)

/-- The name of a block directory is plain. -/
theorem plain_blockName (req : GenerateProofRequest) :
    Plain (blockName req).toList := by
  have hname : (blockName req).toList
      = '0' :: '_' :: (Nat.repr (req.blockNo.getD 0)).toList := by
    rw [blockName, String.toList_append]
    rfl
  rw [hname]
  refine ⟨by rintro ⟨⟩, by rintro ⟨⟩, by rintro ⟨⟩, fun hmem => ?_⟩
  rcases List.mem_cons.mp hmem with hmem | hmem
  · cases hmem
  · rcases List.mem_cons.mp hmem with hmem | hmem
    · cases hmem
    · exact Decimal.not_mem (by decide) hmem

theorem blockDir_eq (svc : StageServiceSVC) (req : GenerateProofRequest) :
    svc.blockDir req = svc.dirPath req ++ "/" ++ blockName req := by
  have hslash : ("/0_" : String) = "/" ++ "0_" := rfl
  rw [StageServiceSVC.blockDir, blockName, hslash]
  simp only [String.append_assoc]

/-- The block goes into a directory of the proof's. -/
theorem resolve_blockDir (h : Plain req.proofId.toList) :
    resolve (svc.blockDir req)
      = (svc.ownDir req.proofId).child (blockName req).toList := by
  rw [blockDir_eq, resolve_child (dirPath_ne svc req) (plain_blockName req),
    resolve_dirPath h]

/-- A block file of this name stays in the directory of its proof: behind the
    level that is its own, it gives the names again that it has left.  Or it is
    the cache file of the ELF. -/
def StageServiceSVC.Keeps (svc : StageServiceSVC) (req : GenerateProofRequest)
    (fileName : String) : Prop :=
  let dir := svc.ownDir req.proofId
  let r := relative fileName
  (dir.trail.take (r.above - 1) <:+ r.trail ∧
      (dir.absolute = true ∨ r.above - 1 ≤ dir.trail.length)) ∨
    (dir.child (blockName req).toList).follow r = svc.cached req.elfData

instance (svc : StageServiceSVC) (req : GenerateProofRequest)
    (fileName : String) : Decidable (svc.Keeps req fileName) :=
  inferInstanceAs (Decidable ((_ ∧ _) ∨ _))

/-- A block file stays inside just when its name does not leave. -/
theorem block_contained (h : Plain req.proofId.toList) (fileName : String)
    (content : List UInt8) :
    (FileOp.write (svc.blockDir req ++ "/" ++ fileName) content).Contained
        svc req ↔ svc.Keeps req fileName := by
  have hne : svc.blockDir req ≠ "" := by
    rw [blockDir_eq]
    exact slash_ne
  rw [FileOp.Contained, resolve_join hne, resolve_blockDir h,
    Loc.under_follow_child_iff]
  rfl

/-! ## What a request writes -/

/-- An input stays inside. -/
theorem input_contained (h : Plain req.proofId.toList) {name : String}
    (hname : (relative ("input_stream/" ++ name)).above = 0) {isEmpty : Bool}
    {content : List UInt8} :
    ∀ op ∈ (svc.input req name isEmpty content).2, op.Contained svc req := by
  intro op hop
  rw [StageServiceSVC.input] at hop
  split at hop
  · cases hop
  · rw [List.mem_singleton.mp hop]
    refine Or.inl (under_fixed h ?_ hname)
    rw [StageServiceSVC.inputStreamDir]
    simp only [String.append_assoc]
    rfl

/-- All inputs stay inside, if the block files do. -/
theorem inputOps_contained (h : Plain req.proofId.toList)
    (hblock : ∀ item ∈ req.blockData, svc.Keeps req item.1) :
    ∀ op ∈ svc.inputOps req, op.Contained svc req := by
  intro op hop
  rw [StageServiceSVC.inputOps, List.mem_append, List.mem_append,
    List.mem_append, List.mem_append] at hop
  rcases hop with (((hdirs | hitem) | hdir) | hpublic) | hprivate
  · rcases List.mem_cons.mp hdirs with rfl | hdir
    · show Loc.Under _ _
      rw [resolve_dirPath h]
      exact Loc.Under.refl _
    · rw [List.mem_singleton.mp hdir]
      show Loc.Under _ _
      rw [resolve_blockDir h]
      exact Loc.under_child _ _
  · obtain ⟨item, hmem, rfl⟩ := List.mem_map.mp hitem
    exact (block_contained h ..).mpr (hblock item hmem)
  · rw [List.mem_singleton.mp hdir]
    refine under_fixed (t := "input_stream") h ?_ (by decide)
    rw [StageServiceSVC.inputStreamDir, String.append_assoc]
    rfl
  · exact input_contained h (by decide) op hpublic
  · exact input_contained h (by decide) op hprivate

/-- The receipts stay inside. -/
theorem receiptOps_contained (h : Plain req.proofId.toList) :
    ∀ op ∈ svc.receiptOps feat req fromStep, op.Contained svc req := by
  intro op hop
  have hdir : ∀ {path t : String}, path = svc.dirPath req ++ "/" ++ t →
      (relative t).above = 0 →
      (FileOp.createDirAll path).Contained svc req :=
    fun hpath ht => under_fixed h hpath ht
  rw [StageServiceSVC.receiptOps, List.mem_append, List.mem_append,
    List.mem_append, List.mem_append] at hop
  rcases hop with (((hinputs | hreceipts) | hdirs) | hdummy) | hsnark
  · exact input_contained h (by decide) op hinputs
  · exact input_contained h (by decide) op hreceipts
  · simp only [List.mem_cons, List.not_mem_nil, or_false] at hdirs
    rcases hdirs with rfl | rfl | rfl | rfl
    · exact hdir (t := "output_stream")
        (by simp only [String.append_assoc]; rfl) (by decide)
    · exact hdir (t := "segment")
        (by simp only [String.append_assoc]; rfl) (by decide)
    · exact hdir (t := "prove/receipt")
        (by simp only [String.append_assoc]; rfl) (by decide)
    · exact hdir (t := "wrap")
        (by simp only [String.append_assoc]; rfl) (by decide)
  · split at hdummy
    case isTrue =>
      rw [List.mem_singleton.mp hdummy]
      cases feat with
      | prover =>
          exact Or.inl (under_fixed (t := "wrap/public_values.json") h
            (by simp only [String.append_assoc]; rfl) (by decide))
      | proverV2 =>
          exact Or.inl (under_fixed (t := "wrap/public_values.bin") h
            (by simp only [String.append_assoc]; rfl) (by decide))
    case isFalse => cases hdummy
  · rw [List.mem_singleton.mp hsnark]
    exact hdir (t := "snark") (by simp only [String.append_assoc]; rfl)
      (by decide)

/-! ## The whole call -/

/-- The write of the ELF is the first operation, and the others are those of
    the inputs and of the receipts. -/
theorem Uploads.files {u : Upload} (h : Uploads svc feat req existsPath u) :
    ∃ fromStep elfOps rest,
      Step.fromI32 (req.fromStep.getD 0) = some fromStep ∧
      (elfOps = [] ∨ svc.Misses req existsPath fromStep ∧ elfOps
        = [.write (svc.baseDir ++ "/elf" ++ "/" ++ svc.elfHash req.elfData)
          req.elfData]) ∧
      u.files = elfOps ++ rest ∧ (∀ op ∈ svc.inputOps req, op ∈ rest) ∧
      ∀ op ∈ rest, op ∈ svc.inputOps req ∨
        op ∈ svc.receiptOps feat req fromStep := by
  obtain ⟨user, fromStep, targetStep, elfPath, elfId, elfOps, hadmits, helf,
    rfl⟩ := h
  have hcache : elfOps = [] ∨ svc.Misses req existsPath fromStep ∧ elfOps
      = [.write (svc.baseDir ++ "/elf" ++ "/" ++ svc.elfHash req.elfData)
        req.elfData] := by
    rcases elf_ok helf with hnil | ⟨hmiss, rfl, hops⟩
    · exact Or.inl hnil
    · exact Or.inr ⟨hmiss, hops⟩
  rw [StageServiceSVC.upload]
  split
  · exact ⟨fromStep, elfOps, _, hadmits.start.1, hcache, rfl, fun _ hop => hop,
      fun _ hop => Or.inl hop⟩
  · exact ⟨fromStep, elfOps, _, hadmits.start.1, hcache,
      List.append_assoc .., fun _ hop => List.mem_append_left _ hop,
      fun _ hop => List.mem_append.mp hop⟩

/-- The request names its directory and its files, or is turned away. -/
def StageServiceSVC.Confined (svc : StageServiceSVC) (feat : Feature)
    (req : GenerateProofRequest) (existsPath : String → Bool) : Prop :=
  svc.Admitted feat req existsPath →
    Plain req.proofId.toList ∧ ∀ item ∈ req.blockData, svc.Keeps req item.1

/-- What a call touches stays inside just when the request is confined. -/
theorem contained_iff :
    (∀ op ∈ (svc.generateProof feat req existsPath).files,
        op.Contained svc req) ↔ svc.Confined feat req existsPath := by
  rcases generateProof_cases svc feat req existsPath with
    ⟨hno, hfiles, _⟩ | huploads
  · rw [hfiles]
    exact ⟨fun _ hyes => absurd hyes hno, fun _ _ hop => by cases hop⟩
  · obtain ⟨fromStep, elfOps, rest, _, helf, hfiles, hinputs, hall⟩ :=
      huploads.files
    rw [hfiles]
    constructor
    · intro h _
      -- the first directory already tells whether the `proof_id` is plain
      have hinput : ∀ op ∈ svc.inputOps req, op.Contained svc req :=
        fun op hop => h op (List.mem_append_right _ (hinputs op hop))
      have hdir : (svc.ownDir req.proofId).Under
          (resolve (svc.dirPath req)) := by
        refine hinput (.createDirAll _) ?_
        simp [StageServiceSVC.inputOps]
      have hplain := plain_of_under hdir
      refine ⟨hplain, fun item hitem => ?_⟩
      refine (block_contained hplain item.1 item.2).mp (hinput _ ?_)
      have hwrite : FileOp.write (svc.blockDir req ++ "/" ++ item.1) item.2 ∈
          req.blockData.map fun item =>
            .write (svc.blockDir req ++ "/" ++ item.1) item.2 :=
        List.mem_map_of_mem hitem
      simp [StageServiceSVC.inputOps, hwrite]
    · intro h op hop
      obtain ⟨user, fromStep, targetStep, _, _, _, hadmits, _, _⟩ := huploads
      obtain ⟨hplain, hblock⟩ := h ⟨user, fromStep, targetStep, hadmits⟩
      rcases List.mem_append.mp hop with hop | hop
      · rcases helf with rfl | ⟨-, rfl⟩
        · cases hop
        · rw [List.mem_singleton.mp hop]
          exact Or.inr rfl
      · rcases hall op hop with hop | hop
        · exact inputOps_contained hplain hblock op hop
        · exact receiptOps_contained hplain op hop

/-- **APART**: two requests that stay in their directories share nothing but
    cache files. -/
theorem touched_apart {req' : GenerateProofRequest}
    {existsPath' : String → Bool} (h : svc.Confined feat req existsPath)
    (h' : svc.Confined feat req' existsPath')
    (hid : req.proofId ≠ req'.proofId) {io io' : Io} {s s' : Site Loc}
    {f : Loc}
    (hf : f ∈ ((svc.generateProof feat req existsPath).call resolve io
      s).2.touched)
    (hf' : f ∈ ((svc.generateProof feat req' existsPath').call resolve io'
      s').2.touched) :
    ∃ elfData, f = svc.cached elfData := by
  rw [call_touched, perform_touched] at hf hf'
  obtain ⟨k, path, content, hop, -, -, rfl⟩ := hf
  obtain ⟨k', path', content', hop', -, -, heq⟩ := hf'
  have hown := contained_iff.mpr h _ (List.mem_of_getElem? hop)
  have hown' := contained_iff.mpr h' _ (List.mem_of_getElem? hop')
  rcases hown with hown | hcached
  · rcases hown' with hown' | hcached'
    · rw [← heq] at hown'
      exact absurd (String.toList_inj.mp (hown.child_inj hown')) hid
    · exact ⟨_, heq.trans hcached'⟩
  · exact ⟨_, hcached⟩

end

/-- **CONTAINED**: whatever its operations are answered, a request stays in its
    directory, the cache file of its ELF apart, exactly when it is turned away
    or its `proof_id` is a plain name and none of its block files climbs out of
    that directory; and of two such requests with two `proof_id`s none writes
    a file of the other, cache files apart. -/
theorem requests_contained (svc : StageServiceSVC) (feat : Feature) :
    (∀ req existsPath,
      (∀ io op, (svc.generateProof feat req existsPath).Reaches io op →
          op.Contained svc req) ↔
        svc.Confined feat req existsPath) ∧
    ∀ req req' existsPath existsPath', svc.Confined feat req existsPath →
      svc.Confined feat req' existsPath' → req.proofId ≠ req'.proofId →
        ∀ (io io' : Io) (s s' : Site Loc) (f : Loc),
          f ∈ ((svc.generateProof feat req existsPath).call resolve io
            s).2.touched →
          f ∈ ((svc.generateProof feat req' existsPath').call resolve io'
            s').2.touched →
          ∃ elfData, f = svc.cached elfData := by
  refine ⟨fun req existsPath => ?_,
    fun _ _ _ _ h h' hid _ _ _ _ _ hf hf' => touched_apart h h' hid hf hf'⟩
  rw [← contained_iff]
  constructor
  · intro h op hop
    obtain ⟨io, hreached⟩ := Upload.reaches_iff.mpr hop
    exact h io op hreached
  · exact fun h io op hreached => h op (Upload.reaches_iff.mp ⟨io, hreached⟩)

/-! ## A request into the directory of another -/

/-- One block file of this name. -/
def fileRequest (proofId fileName : String) : GenerateProofRequest :=
  { privateRequest with proofId := proofId, blockData := [(fileName, [9])] }

/-- No file, no row, and nothing in the queue. -/
def emptySite : Site Loc := ⟨fun _ => none, [], []⟩

/-- The files that are written when nothing fails. -/
def writtenFiles (req : GenerateProofRequest) : List Loc :=
  ((oneUserSVC.generateProof .proverV2 req fun _ => false).call resolve fairIo
    emptySite).2.touched

/-- Block files with names that are no paths; the cache file is shared. -/
theorem requests_contained_plain :
    oneUserSVC.Confined .proverV2 (fileRequest "p" "tx") (fun _ => false) ∧
      oneUserSVC.Confined .proverV2 (fileRequest "q" "tx") (fun _ => false) ∧
      resolve "d/elf/h" ∈ writtenFiles (fileRequest "p" "tx") ∧
      resolve "d/elf/h" ∈ writtenFiles (fileRequest "q" "tx") ∧
      ∃ elfData, resolve "d/elf/h" = oneUserSVC.cached elfData := by
  have hp : oneUserSVC.Confined .proverV2 (fileRequest "p" "tx")
      (fun _ => false) := fun _ => by decide
  have hq : oneUserSVC.Confined .proverV2 (fileRequest "q" "tx")
      (fun _ => false) := fun _ => by decide
  have hwp : resolve "d/elf/h" ∈ writtenFiles (fileRequest "p" "tx") := by
    decide
  have hwq : resolve "d/elf/h" ∈ writtenFiles (fileRequest "q" "tx") := by
    decide
  exact ⟨hp, hq, hwp, hwq, (requests_contained oneUserSVC .proverV2).2 _ _ _ _
    hp hq (by decide) fairIo fairIo emptySite emptySite _ hwp hwq⟩

/-- A block file of the proof `p` that is the private input of `q`. -/
theorem block_file_escapes :
    (∃ op, (oneUserSVC.generateProof .proverV2
          (fileRequest "p" "../../q/input_stream/private_input")
          fun _ => false).Reaches fairIo op ∧
        ¬ op.Contained oneUserSVC
          (fileRequest "p" "../../q/input_stream/private_input")) ∧
      ∃ f ∈ writtenFiles
          (fileRequest "p" "../../q/input_stream/private_input"),
        f ∈ writtenFiles (fileRequest "q" "tx") ∧
          ∀ elfData, f ≠ oneUserSVC.cached elfData := by
  constructor
  · refine ⟨.write (oneUserSVC.blockDir (fileRequest "p" "tx") ++ "/"
        ++ "../../q/input_stream/private_input") [9],
      ⟨3, rfl, fun _ _ => rfl, by rintro ⟨⟩⟩, ?_⟩
    show ¬ (Loc.Under _ _ ∨ _ = _)
    decide
  · refine ⟨resolve "d/proof/q/input_stream/private_input", by decide,
      by decide, fun elfData => ?_⟩
    show _ ≠ resolve ("d" ++ "/elf" ++ "/" ++ "h")
    decide

end ZkmProver
