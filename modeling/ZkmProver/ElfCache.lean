import ZkmProver.Contained

/-! # Elf cache — programs by their hash

    An ELF is stored under its hash, and a file of that name is taken for the
    program from then on: only whether it exists is looked at.  The file is
    created under its final name and filled behind that, so a write that breaks
    off leaves a file that every later request for the program is given.  While
    no such write breaks off, and no block file leads into the cache, every
    file of the cache has the content it is named by (`elf_cache_addressed`). -/

namespace ZkmProver

open Machine Paths

/-! ## Calls in sequence -/

/-- A call, with what the file system answers it, and the directories that are
    there. -/
structure GenerateCall where
  req : GenerateProofRequest
  isDir : Loc → Bool
  io : Io

/-- The site, and what has been written by the calls so far. -/
structure CacheRun where
  site : Site Loc
  written : List Loc

namespace CacheRun

/-- `Path::exists` -/
def existsPath (c : CacheRun) (call : GenerateCall) (path : String) : Bool :=
  (c.site.files (resolve path)).isSome || call.isDir (resolve path)

/-- What a call does, on the files as they are. -/
def upload (svc : StageServiceSVC) (feat : Feature) (c : CacheRun)
    (call : GenerateCall) : Upload :=
  svc.generateProof feat call.req (c.existsPath call)

/-- The cache behind a call, and what the call has written. -/
def step (svc : StageServiceSVC) (feat : Feature) (c : CacheRun)
    (call : GenerateCall) : Option CacheRun :=
  let out := (c.upload svc feat call).call resolve call.io c.site
  some
    { site := out.2.site
      written := c.written ++ out.2.touched }

end CacheRun

/-- Where the cached ELFs are. -/
def StageServiceSVC.elfDir (svc : StageServiceSVC) : Loc :=
  resolve (svc.baseDir ++ "/elf")

/-- Every file of the cache that the calls have written and that is the
    `elf_path` of a row has the content it is named by. -/
def CacheRun.Addressed (svc : StageServiceSVC) (c : CacheRun) : Prop :=
  ∀ row ∈ c.site.rows, ∀ name,
    resolve row.context.elfPath = svc.elfDir.child name →
      svc.elfDir.child name ∈ c.written →
        ∃ content, c.site.files (svc.elfDir.child name) = some content ∧
          (svc.elfHash content).toList = name

/-- The write of an ELF into the cache does not break off, and no block file
    that is reached leads into the cache. -/
structure CacheRun.Clean (svc : StageServiceSVC) (feat : Feature)
    (c : CacheRun) (call : GenerateCall) : Prop where
  elf   : svc.Admitted feat call.req (c.existsPath call) →
    Step.fromI32 (call.req.fromStep.getD 0) = some .Init →
      svc.Misses call.req (c.existsPath call) .Init →
        ∀ left, call.io.file 0 = .cut left → left = call.req.elfData
  block : ∀ item ∈ call.req.blockData,
    (c.upload svc feat call).Reaches call.io
        (.write (svc.blockDir call.req ++ "/" ++ item.1) item.2) →
      ∀ name, resolve (svc.blockDir call.req ++ "/" ++ item.1)
        ≠ svc.elfDir.child name

/-! ## What a list of operations leaves -/

section

variable {κ : Type} [DecidableEq κ] {resolve : String → κ} {s : Site κ}
  {answers : Nat → IoAnswer} {ops : List FileOp} {f : κ}
  {P : List UInt8 → Prop}

/-- An answered operation leaves only contents of `P` in `f`. -/
def Leaves (resolve : String → κ) (f : κ) (P : List UInt8 → Prop) :
    FileOp → IoAnswer → Prop
  | .write path content, .ok => resolve path = f → P content
  | .write path _, .cut left => resolve path = f → P left
  | _, _ => True

/-- The file is there, with a content of `P`. -/
def Site.Holds (s : Site κ) (f : κ) (P : List UInt8 → Prop) : Prop :=
  ∃ content, s.files f = some content ∧ P content

omit [DecidableEq κ] in
/-- What a file holds, under a weaker property. -/
theorem Site.Holds.imp {Q : List UInt8 → Prop} (h : s.Holds f P)
    (hpq : ∀ content, P content → Q content) : s.Holds f Q := by
  obtain ⟨content, hcontent, hp⟩ := h
  exact ⟨content, hcontent, hpq content hp⟩

/-- A write that is right leaves every file right. -/
theorem Site.holds_put (h : s.Holds f P) {f' : κ} {content : List UInt8}
    (hP : f' = f → P content) : (s.put f' content).Holds f P := by
  by_cases hf : f' = f
  · subst hf
    exact ⟨content, Function.update_self .., hP rfl⟩
  · obtain ⟨old, hold, hp⟩ := h
    exact ⟨old, (Function.update_of_ne (Ne.symm hf) ..).trans hold, hp⟩

/-- So does an operation, if it succeeds or fails before the file is open. -/
theorem attempt_holds {op : FileOp} {answer : IoAnswer}
    (h : Leaves resolve f P op answer)
    (hf : f ∈ (s.attempt resolve op answer).touched ∨ s.Holds f P) :
    (s.attempt resolve op answer).site.Holds f P := by
  have hput : ∀ {path content}, (resolve path = f → P content) →
      f ∈ [resolve path] ∨ s.Holds f P →
        (s.put (resolve path) content).Holds f P := by
    rintro path content hP (hf | hf)
    · have heq : f = resolve path := List.mem_singleton.mp hf
      subst heq
      exact ⟨content, Function.update_self .., hP rfl⟩
    · exact Site.holds_put hf hP
  cases op with
  | createDirAll path =>
      cases answer <;> exact hf.resolve_left List.not_mem_nil
  | write path content =>
      cases answer with
      | ok => exact hput h hf
      | refused => exact hf.resolve_left List.not_mem_nil
      | cut left => exact hput h hf

/-- **HOLDS**: a file that is touched, or was fine before, is fine behind the
    operations if each leaves it so. -/
theorem perform_holds
    (h : ∀ k op, ops[k]? = some op → (∀ j < k, answers j = .ok) →
      Leaves resolve f P op (answers k))
    (hf : f ∈ (s.perform resolve ops answers).touched ∨ s.Holds f P) :
    (s.perform resolve ops answers).site.Holds f P := by
  induction ops generalizing s answers with
  | nil => exact hf.resolve_left List.not_mem_nil
  | cons op ops ih =>
      have hfirst := h 0 op rfl fun _ hj => absurd hj (Nat.not_lt_zero _)
      rw [Site.perform] at hf ⊢
      dsimp only at hf ⊢
      split at hf
      case isTrue hdone =>
        -- the operations behind the first start from what it has left
        rw [if_pos hdone]
        dsimp only at hf ⊢
        refine ih (fun k op' hop hbefore => h (k + 1) op' hop ?_) ?_
        · intro j hj
          cases j with
          | zero => exact (attempt_done op (answers 0)).mp hdone
          | succ j => exact hbefore j (Nat.lt_of_succ_lt_succ hj)
        · rw [List.mem_append] at hf
          rcases hf with (hf | hf) | hf
          · exact Or.inr (attempt_holds hfirst (Or.inl hf))
          · exact Or.inl hf
          · exact Or.inr (attempt_holds hfirst (Or.inr hf))
      case isFalse hdone =>
        rw [if_neg hdone]
        exact attempt_holds hfirst hf

end

/-! ## What leads into the cache -/

section

variable {svc : StageServiceSVC} {feat : Feature} {req : GenerateProofRequest}
  {fromStep : Step} {path : String} {content : List UInt8}

/-- The cache is a directory below the base. -/
theorem elfDir_eq (svc : StageServiceSVC) :
    svc.elfDir = (resolve (svc.baseDir ++ "/")).child "elf".toList := by
  have hslash : ("/elf" : String) = "/" ++ "elf" := rfl
  rw [StageServiceSVC.elfDir, hslash, ← String.append_assoc, resolve_slash,
    relative_plain (by decide)]
  rfl

/-- An ELF is at the file of its hash. -/
theorem cached_eq (svc : StageServiceSVC) {elfData : List UInt8}
    (h : Plain (svc.elfHash elfData).toList) :
    svc.cached elfData = svc.elfDir.child (svc.elfHash elfData).toList := by
  refine resolve_child (fun hnil => ?_) h
  exact absurd (String.append_eq_empty_iff.mp hnil).2 (by decide)

/-- A file in a directory of another name. -/
theorem resolve_apart {dir name : String} (hdir : Plain dir.toList)
    (hname : Plain name.toList) (hne : dir ≠ "elf") (n : List Char) :
    resolve (svc.dirPath req ++ "/" ++ dir ++ "/" ++ name)
      ≠ svc.elfDir.child n := by
  rw [resolve_child slash_ne hname, resolve_child (dirPath_ne svc req) hdir,
    elfDir_eq]
  intro heq
  -- the two differ in the name before the last
  have htrail := congrArg Loc.trail heq
  have htail := (List.cons.inj htrail).2
  exact hne (String.toList_inj.mp (List.cons.inj htail).1)

/-- No input is written into the cache. -/
theorem input_apart {name : String} (hname : Plain name.toList)
    {isEmpty : Bool} {bytes : List UInt8}
    (h : FileOp.write path content ∈ (svc.input req name isEmpty bytes).2)
    (n : List Char) : resolve path ≠ svc.elfDir.child n := by
  rw [StageServiceSVC.input] at h
  split at h
  · cases h
  · cases List.mem_singleton.mp h
    have hslash : ("/input_stream" : String) = "/" ++ "input_stream" := rfl
    rw [StageServiceSVC.inputStreamDir, hslash, ← String.append_assoc]
    exact resolve_apart (by decide) hname (by decide) n

/-- Of the writes of the inputs only a block file can lead into the cache. -/
theorem inputOps_apart (h : FileOp.write path content ∈ svc.inputOps req)
    {n : List Char} (hpath : resolve path = svc.elfDir.child n) :
    ∃ item ∈ req.blockData,
      path = svc.blockDir req ++ "/" ++ item.1 ∧ content = item.2 := by
  rw [StageServiceSVC.inputOps, List.mem_append, List.mem_append,
    List.mem_append, List.mem_append] at h
  rcases h with (((hdirs | hitem) | hdir) | hpublic) | hprivate
  · rcases List.mem_cons.mp hdirs with hdir | hdir
    · cases hdir
    · cases List.mem_singleton.mp hdir
  · obtain ⟨item, hmem, heq⟩ := List.mem_map.mp hitem
    cases heq
    exact ⟨item, hmem, rfl, rfl⟩
  · cases List.mem_singleton.mp hdir
  · exact absurd hpath (input_apart (by decide) hpublic n)
  · exact absurd hpath (input_apart (by decide) hprivate n)

/-- No receipt is. -/
theorem receiptOps_apart
    (h : FileOp.write path content ∈ svc.receiptOps feat req fromStep)
    (n : List Char) : resolve path ≠ svc.elfDir.child n := by
  rw [StageServiceSVC.receiptOps, List.mem_append, List.mem_append,
    List.mem_append, List.mem_append] at h
  rcases h with (((hinputs | hreceipts) | hdirs) | hdummy) | hsnark
  · exact input_apart (by decide) hinputs n
  · exact input_apart (by decide) hreceipts n
  · simp at hdirs
  · split at hdummy
    case isTrue =>
      cases List.mem_singleton.mp hdummy
      have hsuffix : ∃ name, Plain name.toList ∧
          svc.dirPath req ++ "/wrap"
              ++ ("/public_values." ++ StageServiceSVC.suffix feat)
            = svc.dirPath req ++ "/" ++ "wrap" ++ "/" ++ name := by
        cases feat with
        | prover =>
            refine ⟨"public_values.json", by decide, ?_⟩
            simp only [String.append_assoc]
            rfl
        | proverV2 =>
            refine ⟨"public_values.bin", by decide, ?_⟩
            simp only [String.append_assoc]
            rfl
      obtain ⟨name, hname, heq⟩ := hsuffix
      rw [String.append_assoc, heq]
      exact resolve_apart (by decide) hname (by decide) n
    case isFalse => cases hdummy
  · cases List.mem_singleton.mp hsnark

end

/-! ## Every call keeps the cache -/

section

variable {svc : StageServiceSVC} {feat : Feature}

/-- Every file of the cache that the calls have written has the content it is
    named by. -/
def CacheRun.Sound (svc : StageServiceSVC) (c : CacheRun) : Prop :=
  ∀ name, svc.elfDir.child name ∈ c.written →
    c.site.Holds (svc.elfDir.child name)
      fun content => (svc.elfHash content).toList = name

/-- Of the operations behind the write of the ELF none leads into the cache in
    a clean call. -/
theorem CacheRun.Clean.apart {c : CacheRun} {call : GenerateCall}
    (h : c.Clean svc feat call) {fromStep : Step} {path : String}
    {content : List UInt8} {name : List Char}
    (hop : FileOp.write path content ∈ svc.inputOps call.req ∨
      FileOp.write path content ∈ svc.receiptOps feat call.req fromStep)
    (hreached : (c.upload svc feat call).Reaches call.io
      (.write path content)) :
    resolve path ≠ svc.elfDir.child name := by
  intro hpath
  rcases hop with hop | hop
  · obtain ⟨item, hitem, rfl, rfl⟩ := inputOps_apart hop hpath
    exact h.block item hitem hreached name hpath
  · exact receiptOps_apart hop name hpath

/-- What a clean call leaves in a file of the cache. -/
theorem CacheRun.Clean.leaves {c : CacheRun} {call : GenerateCall}
    (h : c.Clean svc feat call)
    (hhash : ∀ elfData, Plain (svc.elfHash elfData).toList)
    (name : List Char) {k : Nat} {op : FileOp}
    (hop : (c.upload svc feat call).files[k]? = some op)
    (hbefore : ∀ j < k, call.io.file j = .ok) :
    Leaves resolve (svc.elfDir.child name)
      (fun content => (svc.elfHash content).toList = name) op
      (call.io.file k) := by
  have hreached : call.io.file k ≠ .refused →
      (c.upload svc feat call).Reaches call.io op :=
    fun hans => ⟨k, hop, hbefore, hans⟩
  rcases generateProof_cases svc feat call.req (c.existsPath call) with
    ⟨_, hfiles, _⟩ | huploads
  · rw [CacheRun.upload, hfiles] at hop
    cases hop
  obtain ⟨fromStep, elfOps, rest, hasked, helf, hfiles, _, hall⟩ :=
    huploads.files
  have hadmitted : svc.Admitted feat call.req (c.existsPath call) := by
    obtain ⟨user, fromStep, targetStep, _, _, _, hadmits, _⟩ := huploads
    exact ⟨user, fromStep, targetStep, hadmits⟩
  rw [CacheRun.upload, hfiles] at hop
  have hrest : op ∈ rest → Leaves resolve (svc.elfDir.child name)
      (fun content => (svc.elfHash content).toList = name) op
      (call.io.file k) := by
    intro hmem
    cases op with
    | createDirAll path => trivial
    | write path content =>
        cases hans : call.io.file k with
        | refused => trivial
        | ok =>
            exact fun hpath => absurd hpath (h.apart (hall _ hmem)
              (hreached (by rw [hans]; rintro ⟨⟩)))
        | cut left =>
            exact fun hpath => absurd hpath (h.apart (hall _ hmem)
              (hreached (by rw [hans]; rintro ⟨⟩)))
  -- the write of the ELF comes first, if it is not in the cache
  rcases helf with rfl | ⟨hmiss, rfl⟩
  · exact hrest (List.mem_of_getElem? hop)
  · cases k with
    | succ k => exact hrest (List.mem_of_getElem? (i := k) hop)
    | zero =>
        cases hop
        have hname : resolve (svc.baseDir ++ "/elf" ++ "/"
            ++ svc.elfHash call.req.elfData) = svc.elfDir.child name →
            (svc.elfHash call.req.elfData).toList = name := by
          intro hpath
          have hchild := (cached_eq svc (hhash _)).symm.trans hpath
          exact (List.cons.inj (congrArg Loc.trail hchild)).1
        obtain rfl := hmiss.1
        cases hans : call.io.file 0 with
        | ok => exact hname
        | refused => trivial
        | cut left =>
            have hleft := h.elf hadmitted hasked hmiss left hans
            intro hpath
            rw [hleft]
            exact hname hpath

/-- A call whose write of the ELF does not fail half-way keeps the cache sound.
    -/
theorem CacheRun.Sound.step {c c' : CacheRun} {call : GenerateCall}
    (hs : c.Sound svc) (h : c.Clean svc feat call)
    (hhash : ∀ elfData, Plain (svc.elfHash elfData).toList)
    (hstep : c.step svc feat call = some c') : c'.Sound svc := by
  cases hstep
  intro name hf
  have hheld := perform_holds (s := c.site)
    (fun k op hop hbefore => h.leaves hhash name hop hbefore)
    ((List.mem_append.mp hf).elim (fun hf => Or.inr (hs name hf)) fun hf =>
      Or.inl (by rwa [call_touched] at hf))
  obtain ⟨content, hcontent, heq⟩ := hheld
  refine ⟨content, ?_, heq⟩
  dsimp only
  rw [call_files]
  exact hcontent

/-- In a sound cache each file has the content it is named by. -/
theorem CacheRun.Sound.addressed {c : CacheRun} (h : c.Sound svc) :
    c.Addressed svc :=
  fun _ _ name _ hwritten => h name hwritten

end

/-- **ADDRESSED**: in every run of calls whose writes into the cache do not
    break off and whose block files do not lead there, every file of the cache
    that a request was accepted with has the content it is named by. -/
theorem elf_cache_addressed (svc : StageServiceSVC) (feat : Feature)
    (hhash : ∀ elfData, Plain (svc.elfHash elfData).toList)
    (site : Site Loc) (calls : List GenerateCall) (c : CacheRun)
    (hrun : run (CacheRun.step svc feat) ⟨site, []⟩ calls = some c)
    (hclean : Along (CacheRun.step svc feat)
      (CacheRun.Clean svc feat) ⟨site, []⟩ calls) :
    c.Addressed svc := by
  have hsound : c.Sound svc :=
    run_inv_along (I := CacheRun.Sound svc)
      (fun _ _ _ h hs hstep => hs.step h hhash hstep) hclean
      (fun _ hnil => (List.not_mem_nil hnil).elim) hrun
  exact hsound.addressed

/-! ## A write that breaks off -/

/-- SHA-256 of the empty program and of the program of one byte `1`. -/
def hashSVC : StageServiceSVC :=
  { oneUserSVC with
    elfHash := fun elfData =>
      if elfData = [] then
        "e3b0c44298fc1c149afbf4c8996fb92427ae41e4649b934ca495991b7852b855"
      else
        "4bf5122f344554c53bde2ebb8cd2b7e3d1600ad631c385a5d7cce23c7785459a" }

/-- The private request, and the answer to the write of its ELF. -/
def elfCall (proofId : String) (answer : IoAnswer) : GenerateCall where
  req := { privateRequest with proofId := proofId }
  isDir := fun _ => false
  io := ⟨fun k => if k = 0 then answer else .ok, true, true⟩

/-- The whole program is written, and found by the second request. -/
theorem elf_cache_addressed_two :
    ∃ c, run (CacheRun.step hashSVC .proverV2) ⟨emptySite, []⟩
        [elfCall "p" .ok, elfCall "q" .ok] = some c ∧
      c.site.rows.length = 2 ∧ hashSVC.cached [1] ∈ c.written ∧
      c.Addressed hashSVC := by
  obtain ⟨c, hrun, hrows, hwritten⟩ := run_of_check
    (CacheRun.step hashSVC .proverV2) ⟨emptySite, []⟩
    [elfCall "p" .ok, elfCall "q" .ok]
    (fun c => c.site.rows.length = 2 ∧ hashSVC.cached [1] ∈ c.written)
    (by decide)
  refine ⟨c, hrun, hrows, hwritten, ?_⟩
  have hclean : ∀ c proofId, CacheRun.Clean hashSVC .proverV2 c
      (elfCall proofId .ok) :=
    fun c proofId => ⟨fun _ _ _ left h => (by cases h),
      fun _ h => absurd h List.not_mem_nil⟩
  refine elf_cache_addressed hashSVC .proverV2 (fun elfData => ?_) emptySite _
    c hrun ⟨hclean _ _, fun _ _ => ⟨hclean _ _, fun _ _ => trivial⟩⟩
  show Plain (if elfData = [] then _ else _ : String).toList
  split <;> decide

/-- The write breaks off behind `File::create`.  The second request finds the
    file, is accepted, and proves the empty program for the one it brought. -/
theorem elf_cache_truncated :
    ∃ c, run (CacheRun.step hashSVC .proverV2) ⟨emptySite, []⟩
        [elfCall "p" (.cut []), elfCall "q" .ok] = some c ∧
      ¬ c.Addressed hashSVC := by
  obtain ⟨c, hrun, hfile, hwritten, hrow⟩ := run_of_check
    (CacheRun.step hashSVC .proverV2) ⟨emptySite, []⟩
    [elfCall "p" (.cut []), elfCall "q" .ok]
    (fun c => c.site.files (hashSVC.cached [1]) = some [] ∧
      hashSVC.cached [1] ∈ c.written ∧ c.site.rows.any (fun row =>
        row.id = "q" ∧ resolve row.context.elfPath = hashSVC.cached [1]))
    (by decide)
  refine ⟨c, hrun, fun h => ?_⟩
  obtain ⟨row, hmem, hpath⟩ := List.any_eq_true.mp hrow
  have hcached : hashSVC.cached [1]
      = hashSVC.elfDir.child (hashSVC.elfHash [1]).toList := by decide
  rw [hcached] at hfile hwritten hpath
  obtain ⟨content, hcontent, hhash⟩ := h row hmem _
    (of_decide_eq_true hpath).2 hwritten
  cases hfile.symm.trans hcontent
  revert hhash
  decide

end ZkmProver
