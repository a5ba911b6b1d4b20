import Mathlib.Data.Finset.Card
import Mathlib.Data.Finset.Image
import Mathlib.Data.List.Perm.Subperm
import ZkmProver.Panics
import ZkmProver.SegmentFiles

/-! # Deferred proofs — through the segment directory

    The split writes deferred input `i` to a file numbered `2^16 | i`, and the
    stage makes a task of each such file it finds, in the order of the
    numbers.  The numbers are `2^16 + i` up to the input 65535, whose listing
    comes back in order; the input 65536 has the number of the input 0. -/

namespace ZkmProver

open Machine Rename

variable {ι σ ρ : Type}

/-! ## Names and numbers -/

/-- What is left behind a prefix. -/
theorem stripStart_eq_some {pre cs rest : List Char} :
    stripStart pre cs = some rest ↔ cs = pre ++ rest := by
  induction pre generalizing cs with
  | nil => simp [stripStart]
  | cons p pre ih =>
      cases cs with
      | nil => simp [stripStart]
      | cons c cs =>
          rw [stripStart, List.cons_append, List.cons.injEq]
          split
          case isTrue hpc => rw [ih, and_iff_right hpc.symm]
          case isFalse hpc =>
            exact iff_of_false (by rintro ⟨⟩) fun h => hpc h.1.symm

/-- A name with a number has the letter that no other file has. -/
theorem mem_of_deferredNumber {name : String} {n : Nat}
    (h : deferredNumber name = some n) : 'd' ∈ name.toList := by
  obtain ⟨rest, hstrip, _⟩ := Option.bind_eq_some_iff.mp h
  rw [stripStart_eq_some.mp hstrip]
  exact List.mem_append_left _ (by decide)

/-- Below 2^16 the number is a sum. -/
theorem lor_eq_add {i : Nat} (hi : i < 65536) : 65536 ||| i = 65536 + i :=
  (Nat.two_pow_add_eq_or_of_lt (i := 16) hi 1).symm

/-- A name is read back as its number. -/
theorem deferredNumber_proofName {i : Nat} (hi : i < 65536) :
    deferredNumber (proofName i) = some (65536 + i) := by
  have hstrip : stripStart "deferred_proof_".toList (proofName i).toList
      = some (Nat.repr (65536 + i)).toList := by
    rw [stripStart_eq_some, proofName, String.toList_append, lor_eq_add hi]
  rw [deferredNumber, hstrip, Option.bind_some]
  exact parseUsize_repr (by omega)

/-- Below 2^16 no two inputs have one name. -/
theorem proofName_inj {i j : Nat} (hi : i < 65536) (hj : j < 65536)
    (h : proofName i = proofName j) : i = j := by
  have hnumber := congrArg deferredNumber h
  rw [deferredNumber_proofName hi, deferredNumber_proofName hj] at hnumber
  have := Option.some.inj hnumber
  omega

/-! ## What the writes leave -/

/-- Proofs are written one list behind the other. -/
theorem putProofs_append (store : Store) (ps qs : List (Nat × List UInt8)) :
    putProofs store (ps ++ qs) = putProofs (putProofs store ps) qs := by
  induction ps generalizing store with
  | nil => rfl
  | cons p ps ih => exact ih _

/-- A name none of the proofs has. -/
theorem putProofs_other (store : Store) {ps : List (Nat × List UInt8)}
    {name : String} (h : ∀ p ∈ ps, name ≠ proofName p.1) :
    (putProofs store ps).files name = store.files name := by
  induction ps generalizing store with
  | nil => rfl
  | cons p ps ih =>
      obtain ⟨i, proof⟩ := p
      rw [List.forall_mem_cons] at h
      rw [putProofs, ih _ h.2]
      split
      case isTrue => rfl
      case isFalse => exact Function.update_of_ne h.1 ..

/-- What is at a name depends on what was there, and on the proofs. -/
theorem putProofs_congr {store store' : Store} {name : String}
    (h : store.files name = store'.files name) (ps : List (Nat × List UInt8)) :
    (putProofs store ps).files name = (putProofs store' ps).files name := by
  induction ps generalizing store store' with
  | nil => exact h
  | cons p ps ih =>
      obtain ⟨i, proof⟩ := p
      refine ih ?_
      split
      case isTrue => exact h
      case isFalse =>
        by_cases hname : name = proofName i
        · subst hname
          simp only [Store.put, Function.update_self]
        · exact (Function.update_of_ne hname ..).trans
            (h.trans (Function.update_of_ne hname ..).symm)

/-- Where no two have one name, every proof is there. -/
theorem putProofs_mem (store : Store) {ps : List (Nat × List UInt8)}
    (hps : ps.Pairwise fun p q => proofName p.1 ≠ proofName q.1)
    {p : Nat × List UInt8} (hp : p ∈ ps) (hne : p.2 ≠ []) :
    (putProofs store ps).files (proofName p.1) = some p.2 := by
  induction ps generalizing store with
  | nil => cases hp
  | cons q ps ih =>
      obtain ⟨hhead, hrest⟩ := List.pairwise_cons.mp hps
      rcases List.mem_cons.mp hp with rfl | hp
      · rw [putProofs, putProofs_other _ hhead, if_neg hne]
        exact Function.update_self ..
      · exact ih _ hrest hp

/-- A file that is there was there, or is one of a proof. -/
theorem putProofs_ne_none (store : Store) {ps : List (Nat × List UInt8)}
    {name : String} :
    (putProofs store ps).files name ≠ none ↔ store.files name ≠ none ∨
      ∃ p ∈ ps, p.2 ≠ [] ∧ name = proofName p.1 := by
  induction ps generalizing store with
  | nil => simp [putProofs]
  | cons p ps ih =>
      obtain ⟨i, proof⟩ := p
      have hput : (if proof = [] then store
          else store.put (proofName i) proof).files name ≠ none ↔
          store.files name ≠ none ∨ proof ≠ [] ∧ name = proofName i := by
        by_cases hproof : proof = []
        · simp [hproof]
        · by_cases hname : name = proofName i
          · simp [hproof, hname, Store.put]
          · simp [hproof, hname, Store.put]
      rw [putProofs, ih, hput, or_assoc]
      simp only [List.mem_cons, exists_eq_or_imp]

/-! ## The deferred files of a run -/

namespace Splitter

variable [DecidableEq ι]

/-- The deferred proofs that a step writes, in the order it writes them. -/
def deferredWrite (s : Splitter ι σ ρ) :
    SplitAct ι σ ρ → Option (List (Nat × List UInt8))
  | .finish w proofs =>
      match s.workers w with
      | .busy b => if b.done then some proofs else none
      | _ => none
  | _ => none

/-- All of a run. -/
def deferredWrites (out : Outside σ ρ) (s : Splitter ι σ ρ)
    (as : List (SplitAct ι σ ρ)) : List (Nat × List UInt8) :=
  (collect (step out) deferredWrite s as).flatten

variable {out : Outside σ ρ} {s s' : Splitter ι σ ρ} {a : SplitAct ι σ ρ}

omit [DecidableEq ι] in
/-- The two names of a segment file or of `segments.txt`. -/
theorem writeFile_frame {store store' : Store} {path name : String}
    {buf : List UInt8} {k : Nat} {p p' : Phase}
    (hpath : 'd' ∉ path.toList) (hname : 'd' ∈ name.toList)
    (h : store.writeFile path buf k p = some (p', store')) :
    store'.files name = store.files name := by
  have hne : name ≠ path := fun heq => hpath (heq ▸ hname)
  have htmp : name ≠ tmp path := by
    rintro rfl
    rw [tmp, String.toList_append, List.mem_append] at hname
    rcases hname with hname | hname
    · exact hpath hname
    · exact absurd hname (by decide)
  cases p with
  | idle =>
      cases h
      exact Function.update_of_ne htmp ..
  | writing n =>
      rw [Store.writeFile] at h
      split at h
      case h_1 => cases h
      case h_2 =>
        split at h
        case isTrue =>
          cases h
          exact Function.update_of_ne htmp ..
        case isFalse =>
          cases h
          exact (Function.update_of_ne hne ..).trans
            (Function.update_of_ne htmp ..)
  | renamed => cases h

/-- The files with that letter are the deferred proofs. -/
theorem step_files (h : s.step out a = some s') {name : String}
    (hname : 'd' ∈ name.toList) :
    s'.store.files name
      = (putProofs s.store ((s.deferredWrite a).getD [])).files name := by
  -- `segments.txt` and the segments have names without it
  cases a with
  | send exeState done =>
      dsimp only [step] at h
      split at h
      case isTrue =>
        cases h
        rfl
      case isFalse => cases h
  | fail =>
      dsimp only [step] at h
      split at h
      case isTrue =>
        cases h
        rfl
      case isFalse => cases h
  | recv w =>
      dsimp only [step] at h
      split at h
      case h_1 =>
        cases h
        rfl
      case h_2 => cases h
  | exit w =>
      dsimp only [step] at h
      split at h
      case h_1 =>
        split at h
        case isTrue => cases h
        case isFalse =>
          cases h
          rfl
      case h_2 => cases h
  | waitForTurn w =>
      dsimp only [step] at h
      split at h
      case h_1 =>
        split at h
        case isTrue =>
          cases h
          rfl
        case isFalse => cases h
      case h_2 => cases h
  | number w deferred =>
      dsimp only [step] at h
      split at h
      case h_1 =>
        dsimp only [number] at h
        split at h
        case h_1 => cases h
        case h_2 =>
          cases h
          rfl
      case h_2 => cases h
  | writeText w k =>
      dsimp only [step] at h
      split at h
      case h_1 b hw =>
        obtain ⟨⟨text, store⟩, hs, rfl⟩ := Option.map_eq_some_iff.mp h
        exact writeFile_frame (by decide) hname hs
      case h_2 => cases h
  | advanceTurn w =>
      dsimp only [step] at h
      split at h
      case h_1 =>
        split at h
        case isTrue =>
          cases h
          rfl
        case isFalse => cases h
      case h_2 => cases h
  | writeSegment w j k =>
      dsimp only [step] at h
      split at h
      case h_1 b hw =>
        split at h
        case h_1 segment hj hp =>
          obtain ⟨⟨phase, store⟩, hs, rfl⟩ := Option.map_eq_some_iff.mp h
          exact writeFile_frame (not_d_segmentName _) hname hs
        case h_2 => cases h
      case h_2 => cases h
  | release w =>
      dsimp only [step] at h
      split at h
      case h_1 =>
        split at h
        case isTrue =>
          cases h
          rfl
        case isFalse => cases h
      case h_2 => cases h
  | finish w proofs =>
      dsimp only [step] at h
      split at h
      case h_1 b hw =>
        split at h
        case isTrue =>
          cases h
          simp only [deferredWrite, hw]
          cases b.done <;> rfl
        case isFalse => cases h
      case h_2 => cases h

/-- So they are what the deferred writes of the run leave. -/
theorem run_files {as : List (SplitAct ι σ ρ)}
    (hrun : run (step out) s as = some s') {name : String}
    (hname : 'd' ∈ name.toList) :
    s'.store.files name
      = (putProofs s.store (deferredWrites out s as)).files name := by
  induction as generalizing s with
  | nil =>
      cases hrun
      rfl
  | cons a as ih =>
      obtain ⟨t, ht, hrun⟩ := run_cons.mp hrun
      have hwrites : deferredWrites out s (a :: as)
          = (s.deferredWrite a).getD [] ++ deferredWrites out t as := by
        rw [deferredWrites, collect, ht]
        cases s.deferredWrite a <;> rfl
      rw [ih hrun, hwrites, putProofs_append]
      exact putProofs_congr (step_files ht hname) _

end Splitter

/-! ## What the stage finds -/

/-- The directory as it is read: its names in any order, and their files. -/
structure Disk.Shows (disk : Disk (List UInt8)) (dir : String)
    (store : Store) : Prop where
  listing : ∃ names, disk.readDir dir = some names ∧ names.Nodup ∧
    ∀ name, name ∈ names ↔ store.files name ≠ none
  read : ∀ name, disk.read (dir ++ "/" ++ name) = store.files name

/-- The deferred inputs with their indices. -/
def indexed (inputs : List (List UInt8)) : List (Nat × List UInt8) :=
  inputs.mapIdx fun i input => (i, input)

/-- A directory whose deferred files are those of `inputs`, written in any
    order. -/
structure Holds (store : Store) (inputs : List (List UInt8)) : Prop where
  filled : ∀ input ∈ inputs, input ≠ []
  files : ∃ writes, writes.Perm (indexed inputs) ∧
    ∀ name : String, 'd' ∈ name.toList →
      store.files name = (putProofs ⟨fun _ => none, []⟩ writes).files name

variable {store : Store} {inputs : List (List UInt8)}

/-- An input and its place. -/
theorem mem_indexed {p : Nat × List UInt8} :
    p ∈ indexed inputs ↔ inputs[p.1]? = some p.2 := by
  rw [indexed, List.mem_mapIdx, List.getElem?_eq_some_iff]
  constructor
  · rintro ⟨i, hi, rfl⟩
    exact ⟨hi, rfl⟩
  · rintro ⟨hi, hp⟩
    exact ⟨p.1, hi, by rw [hp]⟩

/-- Every deferred file is one of an input. -/
theorem Holds.exists_input (h : Holds store inputs) {name : String} {n : Nat}
    (hnumber : deferredNumber name = some n) (hfile : store.files name ≠ none) :
    ∃ i < inputs.length, name = proofName i := by
  obtain ⟨writes, hperm, hfiles⟩ := h.files
  rw [hfiles name (mem_of_deferredNumber hnumber)] at hfile
  obtain ⟨p, hp, -, rfl⟩ :=
    ((putProofs_ne_none _).mp hfile).resolve_left (fun h => h rfl)
  have hget := mem_indexed.mp (hperm.mem_iff.mp hp)
  exact ⟨p.1, (List.getElem?_eq_some_iff.mp hget).1, rfl⟩

theorem proofName_d (i : Nat) : 'd' ∈ (proofName i).toList := by
  rw [proofName, String.toList_append]
  exact List.mem_append_left _ (by decide)

/-- Up to 2^16 inputs have names of their own. -/
theorem indexed_names (hle : inputs.length ≤ 65536) :
    (indexed inputs).Pairwise fun p q => proofName p.1 ≠ proofName q.1 := by
  rw [List.pairwise_iff_getElem]
  intro j k hj hk hjk hname
  rw [indexed, List.length_mapIdx] at hj hk
  simp only [indexed, List.getElem_mapIdx] at hname
  have heq := proofName_inj (hj.trans_le hle) (hk.trans_le hle) hname
  exact absurd heq hjk.ne

/-- And so each has its file. -/
theorem Holds.file (h : Holds store inputs) (hle : inputs.length ≤ 65536)
    {i : Nat} {input : List UInt8} (hi : inputs[i]? = some input) :
    store.files (proofName i) = some input := by
  obtain ⟨writes, hperm, hfiles⟩ := h.files
  have hmem : (i, input) ∈ writes := hperm.mem_iff.mpr (mem_indexed.mpr hi)
  have hnames : writes.Pairwise fun p q => proofName p.1 ≠ proofName q.1 :=
    (hperm.pairwise_iff fun hne => hne.symm).mpr (indexed_names hle)
  have hne : input ≠ [] := h.filled _ (List.mem_of_getElem? hi)
  have hfile := putProofs_mem ⟨fun _ => none, []⟩ hnames hmem hne
  rw [hfiles _ (proofName_d i)]
  exact hfile

variable {disk : Disk (List UInt8)} {dir : String}

/-- The file numbers and contents of a listing are those of its names that have
    a number. -/
theorem deferredProofs_eq {names : List String}
    (hnames : disk.readDir dir = some names) :
    deferredProofs .proverV2 disk dir
      = (names.filter fun name => (deferredNumber name).isSome).filterMap
          fun name => (deferredNumber name).map
            (·, safeRead disk (dir ++ "/" ++ name)) := by
  rw [deferredProofs, hnames, Option.getD_some, List.filterMap_filter]
  refine List.filterMap_congr fun name _ => ?_
  cases deferredNumber name <;> rfl

/-- Up to 2^16 inputs, the listing has all of them. -/
theorem Holds.listed (h : Holds store inputs) (hdisk : disk.Shows dir store)
    (hle : inputs.length ≤ 65536) :
    (deferredProofs .proverV2 disk dir).Perm
      (inputs.mapIdx fun i input => (65536 + i, input)) := by
  obtain ⟨names, hnames, hnodup, hmem⟩ := hdisk.listing
  rw [deferredProofs_eq hnames]
  have hinj : ∀ i ∈ List.range inputs.length,
      ∀ j ∈ List.range inputs.length, proofName i = proofName j → i = j := by
    intro i hi j hj
    exact proofName_inj ((List.mem_range.mp hi).trans_le hle)
      ((List.mem_range.mp hj).trans_le hle)
  have hperm : (names.filter fun name => (deferredNumber name).isSome).Perm
      ((List.range inputs.length).map proofName) := by
    refine (List.perm_ext_iff_of_nodup (hnodup.filter _)
      (List.Nodup.map_on hinj List.nodup_range)).mpr fun name => ?_
    rw [List.mem_filter, hmem, List.mem_map]
    constructor
    · rintro ⟨hfile, hnumber⟩
      obtain ⟨n, hn⟩ := Option.isSome_iff_exists.mp hnumber
      obtain ⟨i, hi, rfl⟩ := h.exists_input hn hfile
      exact ⟨i, List.mem_range.mpr hi, rfl⟩
    · rintro ⟨i, hi, rfl⟩
      have hi := List.mem_range.mp hi
      rw [h.file hle (List.getElem?_eq_getElem hi),
        deferredNumber_proofName (hi.trans_le hle)]
      exact ⟨by rintro ⟨⟩, rfl⟩
  refine (hperm.filterMap _).trans (.of_eq ?_)
  rw [List.filterMap_map]
  -- entry by entry
  have hread : ∀ i ∈ List.range inputs.length,
      ((fun name => (deferredNumber name).map
        (·, safeRead disk (dir ++ "/" ++ name))) ∘ proofName) i
        = some (65536 + i, inputs.getD i []) := by
    intro i hi
    have hi := List.mem_range.mp hi
    have hget := List.getElem?_eq_getElem hi
    rw [Function.comp_apply, deferredNumber_proofName (hi.trans_le hle),
      safeRead, hdisk.read, h.file hle hget, List.getD_eq_getElem?_getD, hget]
    rfl
  rw [List.filterMap_congr hread, List.filterMap_eq_map']
  refine List.ext_getElem (by simp) fun i hi _ => ?_
  have hi : i < inputs.length := by simpa using hi
  simp [hi]

/-- Beyond, it has fewer. -/
theorem Holds.listed_lt (h : Holds store inputs) (hdisk : disk.Shows dir store)
    (hgt : 65536 < inputs.length) :
    (deferredProofs .proverV2 disk dir).length < inputs.length := by
  obtain ⟨names, hnames, hnodup, hmem⟩ := hdisk.listing
  rw [deferredProofs_eq hnames]
  refine (List.length_filterMap_le ..).trans_lt ?_
  have hsub : (names.filter fun name => (deferredNumber name).isSome).toFinset
      ⊆ (Finset.range inputs.length).image proofName := by
    intro name hname
    rw [List.mem_toFinset, List.mem_filter, hmem] at hname
    obtain ⟨n, hn⟩ := Option.isSome_iff_exists.mp hname.2
    obtain ⟨i, hi, rfl⟩ := h.exists_input hn hname.1
    exact Finset.mem_image_of_mem _ (Finset.mem_range.mpr hi)
  rw [← List.toFinset_card_of_nodup (hnodup.filter _)]
  refine (Finset.card_le_card hsub).trans_lt ?_
  refine (Finset.card_image_le.trans_eq (Finset.card_range _)).lt_of_ne ?_
  intro hcard
  -- the inputs 0 and 2^16 have one name
  have hinj := Finset.card_image_iff.mp (hcard.trans (Finset.card_range _).symm)
  have hzero : (0 : Nat) ∈ (Finset.range inputs.length : Set Nat) := by
    simpa using (Nat.zero_lt_of_lt hgt)
  have hlast : 65536 ∈ (Finset.range inputs.length : Set Nat) := by
    simpa using hgt
  have hsame : proofName 0 = proofName 65536 := by
    rw [proofName, proofName, Nat.or_zero, Nat.or_self]
  cases hinj hzero hlast hsame

/-- Sorted by number, the outputs are the inputs in order. -/
theorem outputs_eq {u : Nat} {listing : List (Nat × List UInt8)}
    {deferred : List (ProveTask (List UInt8))}
    (hd : Deferreds .proverV2 u listing deferred)
    (hperm : listing.Perm
      (inputs.mapIdx fun i input => (65536 + i, input))) :
    deferred.map (·.output) = inputs := by
  have hsorted : (deferred.map fun t => (t.fileNo, t.output)).Pairwise
      fun p q => p.1 ≤ q.1 := List.pairwise_map.mpr hd.sorted
  have hrange : (inputs.mapIdx fun i input => (65536 + i, input)).Pairwise
      fun p q => p.1 ≤ q.1 := by
    rw [List.pairwise_iff_getElem]
    intro j k hj hk hjk
    rw [List.getElem_mapIdx, List.getElem_mapIdx]
    exact Nat.add_le_add_left hjk.le _
  have heq := (hd.perm.trans hperm).eq_of_pairwise ?_ hsorted hrange
  · have houtput : deferred.map (·.output)
        = (inputs.mapIdx fun i input => (65536 + i, input)).map Prod.snd := by
      rw [← heq, List.map_map]
      rfl
    refine houtput.trans (List.ext_getElem (by simp) fun i _ _ => ?_)
    simp
  · -- a number stands for one input
    intro p q hp hq hpq hqp
    rw [(hd.perm.trans hperm).mem_iff, List.mem_mapIdx] at hp
    rw [List.mem_mapIdx] at hq
    obtain ⟨i, hi, rfl⟩ := hp
    obtain ⟨j, hj, rfl⟩ := hq
    obtain rfl : i = j :=
      Nat.add_left_cancel (Nat.le_antisymm hpq hqp)
    rfl

/-- The deferred tasks of a stage that finds such a directory. -/
theorem Holds.outputs_iff (h : Holds store inputs)
    {g : GenerateTask (List UInt8)} {w : World (List UInt8)}
    (hw : Reachable .proverV2 g w) (hdone : w.stage.isTasksGenDone = false)
    (hdisk : disk.Shows w.stage.generateTask.segPath store)
    {stage : Stage (List UInt8)}
    (hpost : w.stage.genProveTaskPost .proverV2 disk = some stage) :
    (stage.proveTasks.filter fun t => t.isDeferred).map (·.output) = inputs
      ↔ inputs.length ≤ 65536 := by
  obtain ⟨normal, deferred, u, errmsg, hn, hd, rfl⟩ :=
    genProveTaskPost_spec hpost
  have hnormal : (normal.filter fun t => t.isDeferred) = [] := by
    refine List.filter_eq_nil_iff.mpr fun t ht hdef => ?_
    rw [hn.normal (hw.shape.early hdone).2 t ht] at hdef
    cases hdef
  have hdeferred : (deferred.filter fun t => t.isDeferred) = deferred :=
    List.filter_eq_self.mpr fun t ht => (hd.born t ht).1
  dsimp only
  rw [List.filter_append, hnormal, hdeferred, List.nil_append]
  constructor
  · intro hout
    refine Nat.le_of_not_lt fun hgt => ?_
    have hlength := congrArg List.length hout
    rw [List.length_map] at hlength
    have hlisted := hd.perm.length_eq
    rw [List.length_map] at hlisted
    have := h.listed_lt hdisk hgt
    omega
  · intro hle
    exact outputs_eq hd (h.listed hdisk hle)

/-- **DEFERRED ROUND TRIP**: after any run of the split from an empty
    directory, listed in any order, the deferred tasks that the stage makes
    have the deferred inputs as their outputs, in order, exactly when there are
    no more than 2^16. -/
theorem deferred_round_trip [DecidableEq ι] {out : Outside σ ρ}
    {as : List (SplitAct ι σ ρ)} {s : Splitter ι σ ρ}
    (hrun : run (Splitter.step out) (Splitter.start out fun _ => none) as
      = some s)
    (hfilled : ∀ input ∈ inputs, input ≠ [])
    (hwrites : (Splitter.deferredWrites out (Splitter.start out fun _ => none)
      as).Perm (indexed inputs))
    {g : GenerateTask (List UInt8)} {w : World (List UInt8)}
    (hw : Reachable .proverV2 g w) (hdone : w.stage.isTasksGenDone = false)
    (hdisk : disk.Shows w.stage.generateTask.segPath s.store)
    {stage : Stage (List UInt8)}
    (hpost : w.stage.genProveTaskPost .proverV2 disk = some stage) :
    (stage.proveTasks.filter fun t => t.isDeferred).map (·.output) = inputs
      ↔ inputs.length ≤ 65536 :=
  Holds.outputs_iff
    ⟨hfilled, _, hwrites, fun _ hname => Splitter.run_files hrun hname⟩
    hw hdone hdisk hpost

/-! ## A run with any number of inputs -/

/-- One worker, one segment, and the deferred proofs. -/
def proofsRun (proofs : List (Nat × List UInt8)) :
    List (SplitAct Unit Unit Unit) :=
  [.send () true, .recv (), .waitForTurn (), .number () [], .writeText () 0,
    .writeText () 0, .writeText () 0, .advanceTurn (), .writeSegment () 0 0,
    .writeSegment () 0 0, .writeSegment () 0 0, .finish () proofs, .exit ()]

/-- The directory before the deferred proofs. -/
def segmentStore : Store :=
  (((((⟨fun _ => none, []⟩ : Store).put (tmp segmentsTxt) []).put
    (tmp segmentsTxt) [49]).rename segmentsTxt [49]).put (tmp "0") []
      |>.put (tmp "0") [1]).rename "0" [1]

/-- One segment and its count are there to begin with. -/
theorem segmentStore_files (name : String) :
    segmentStore.files name ≠ none ↔ name = "0" ∨ name = segmentsTxt := by
  have htmp : tmp "0" ≠ segmentsTxt := by decide
  have hzero : segmentsTxt ≠ "0" := by decide
  simp only [segmentStore, Store.put, Store.rename, Function.update_apply]
  split_ifs with h0 h1 h2 <;> simp_all

/-- Every name of such a directory once. -/
def listingOf (inputs : List (List UInt8)) : List String :=
  "0" :: segmentsTxt :: ((List.range inputs.length).map proofName).dedup

/-- The listing has each name once. -/
theorem listingOf_nodup (inputs : List (List UInt8)) :
    (listingOf inputs).Nodup := by
  have hother : ∀ name : String, 'd' ∉ name.toList →
      name ∉ ((List.range inputs.length).map proofName).dedup := by
    intro name hname hmem
    obtain ⟨i, -, rfl⟩ := List.mem_map.mp (List.mem_dedup.mp hmem)
    exact hname (proofName_d i)
  rw [listingOf, List.nodup_cons, List.nodup_cons, List.mem_cons, not_or]
  exact ⟨⟨by decide, hother _ (by decide)⟩, hother _ (by decide),
    List.nodup_dedup _⟩

/-- The listing has the names that are there. -/
theorem mem_listingOf (hfilled : ∀ input ∈ inputs, input ≠ [])
    (name : String) : name ∈ listingOf inputs ↔
      (putProofs segmentStore (indexed inputs).reverse).files name ≠ none := by
  rw [listingOf, List.mem_cons, List.mem_cons, List.mem_dedup, List.mem_map,
    putProofs_ne_none, segmentStore_files, or_assoc]
  refine or_congr_right (or_congr_right ?_)
  constructor
  · rintro ⟨i, hi, rfl⟩
    have hget := List.getElem?_eq_getElem (List.mem_range.mp hi)
    exact ⟨(i, _), List.mem_reverse.mpr (mem_indexed.mpr hget),
      hfilled _ (List.mem_of_getElem? hget), rfl⟩
  · rintro ⟨p, hp, -, rfl⟩
    obtain ⟨hi, -⟩ := List.getElem?_eq_some_iff.mp
      (mem_indexed.mp (List.mem_reverse.mp hp))
    exact ⟨p.1, List.mem_range.mpr hi, rfl⟩

/-- The directory `""` as it is read. -/
def Disk.ofStore (names : List String) (store : Store) :
    Disk (List UInt8) where
  read path := store.files (String.ofList (path.toList.drop 1))
  readToString _ := none
  readDir _ := some names
  existsPath _ := true

/-- With the request's files and a listing the function does not panic. -/
theorem genProveTaskPost_returns {s : Stage (List UInt8)}
    (hready : s.generateTask.Ready disk)
    {names : List String}
    (hnames : disk.readDir s.generateTask.segPath = some names) :
    ∃ s', s.genProveTaskPost .proverV2 disk = some s' := by
  obtain ⟨s₁, h₁⟩ := Option.isSome_iff_exists.mp
    ((Stage.completeProveTasks_isSome s disk).mpr (Or.inr hready))
  obtain ⟨normal, u, -, rfl⟩ := completeProveTasks_spec h₁
  obtain ⟨s₂, h₂⟩ := Option.isSome_iff_exists.mp
    ((Stage.genDeferredTasks_isSome _ disk).mpr
      (⟨names, hnames, Or.inr hready⟩ :
        Stage.DeferredReady { s with proveTasks := normal, uuid := u } disk))
  exact ⟨s₂, by rw [Stage.genProveTaskPost, h₁]; exact h₂⟩

/-- The split and the stage meet what the round trip asks for. -/
theorem exists_round_trip (hfilled : ∀ input ∈ inputs, input ≠ []) :
    ∃ s w stage disk,
      run (Splitter.step oneRecord) (Splitter.start oneRecord fun _ => none)
          (proofsRun (indexed inputs).reverse) = some s ∧
        (Splitter.deferredWrites oneRecord
          (Splitter.start oneRecord fun _ => none)
          (proofsRun (indexed inputs).reverse)).Perm (indexed inputs) ∧
        Reachable .proverV2 aggRequest w ∧ w.stage.isTasksGenDone = false ∧
        Disk.Shows disk w.stage.generateTask.segPath s.store ∧
        w.stage.genProveTaskPost .proverV2 disk = some stage := by
  generalize hps : (indexed inputs).reverse = ps
  have hsome : (run (Splitter.step oneRecord)
      (Splitter.start oneRecord fun _ => none) (proofsRun ps)).isSome := rfl
  obtain ⟨s, hs⟩ := Option.isSome_iff_exists.mp hsome
  have hstore : (run (Splitter.step oneRecord)
      (Splitter.start oneRecord fun _ => none) (proofsRun ps)).map
        (fun s => s.store) = some (putProofs segmentStore ps) := rfl
  rw [hs] at hstore
  have hstore : s.store = putProofs segmentStore ps := Option.some.inj hstore
  have hwrites : Splitter.deferredWrites oneRecord
      (Splitter.start oneRecord fun _ => none) (proofsRun ps) = ps :=
    List.append_nil ps
  obtain ⟨w, hw, hp⟩ := Reachable.of_check .proverV2 aggRequest
    [.dispatch .full, .getSplit 1, .onSplit 0 ⟨.Success, "a", 10, 1⟩ 2]
    (fun w => !w.stage.isTasksGenDone) (by decide)
  have hreq := (hw.phases (Or.inl rfl)).request
  have hlisted : (Disk.ofStore (listingOf inputs) s.store).readDir
      w.stage.generateTask.segPath = some (listingOf inputs) := rfl
  obtain ⟨stage, hpost⟩ := genProveTaskPost_returns
    (Or.inr ⟨by rw [hreq]; rfl, Or.inl (by rw [hreq]; rfl)⟩) hlisted
  refine ⟨s, w, stage, _, hs, ?_, hw, by simpa using hp, ?_, hpost⟩
  · rw [hwrites, ← hps]
    exact List.reverse_perm _
  · refine ⟨⟨_, rfl, listingOf_nodup inputs, fun name => ?_⟩, fun name => ?_⟩
    · rw [hstore, ← hps]
      exact mem_listingOf hfilled name
    · have hpath : String.ofList
          ((w.stage.generateTask.segPath ++ "/" ++ name).toList.drop 1)
            = name := by
        have hdir : w.stage.generateTask.segPath = "" := by
          rw [hreq]
          rfl
        rw [hdir, String.toList_append]
        exact String.ofList_toList
      exact congrArg s.store.files hpath

/-- Two inputs, written from the last to the first. -/
theorem deferred_round_trip_two : ∃ s w stage disk,
    run (Splitter.step oneRecord) (Splitter.start oneRecord fun _ => none)
        (proofsRun (indexed [[7], [8]]).reverse) = some s ∧
      Reachable .proverV2 aggRequest w ∧
      Disk.Shows disk w.stage.generateTask.segPath s.store ∧
      w.stage.genProveTaskPost .proverV2 disk = some stage ∧
      (stage.proveTasks.filter fun t => t.isDeferred).map (·.output)
        = [[7], [8]] := by
  have hfilled : ∀ input ∈ [[7], [8]], input ≠ ([] : List UInt8) := by decide
  obtain ⟨s, w, stage, disk, hrun, hwrites, hw, hdone, hdisk, hpost⟩ :=
    exists_round_trip hfilled
  exact ⟨s, w, stage, disk, hrun, hw, hdisk, hpost,
    (deferred_round_trip hrun hfilled hwrites hw hdone hdisk hpost).mpr
      (by decide)⟩

/-- The input 65536 takes the file of the input 0. -/
theorem exists_lost (hfilled : ∀ input ∈ inputs, input ≠ [])
    (hgt : 65536 < inputs.length) : ∃ s w stage disk,
    run (Splitter.step oneRecord) (Splitter.start oneRecord fun _ => none)
        (proofsRun (indexed inputs).reverse) = some s ∧
      Reachable .proverV2 aggRequest w ∧
      Disk.Shows disk w.stage.generateTask.segPath s.store ∧
      w.stage.genProveTaskPost .proverV2 disk = some stage ∧
      (stage.proveTasks.filter fun t => t.isDeferred).map (·.output)
        ≠ inputs := by
  obtain ⟨s, w, stage, disk, hrun, hwrites, hw, hdone, hdisk, hpost⟩ :=
    exists_round_trip hfilled
  refine ⟨s, w, stage, disk, hrun, hw, hdisk, hpost, fun hout => ?_⟩
  have hle := (Holds.outputs_iff
    ⟨hfilled, _, hwrites, fun _ hname => Splitter.run_files hrun hname⟩
    hw hdone hdisk hpost).mp hout
  omega

/-- Of 65537 inputs the last one is written over the one before. -/
theorem deferred_proof_lost : ∃ s w stage disk,
    run (Splitter.step oneRecord) (Splitter.start oneRecord fun _ => none)
        (proofsRun (indexed (List.replicate 65537 [1])).reverse) = some s ∧
      Reachable .proverV2 aggRequest w ∧
      Disk.Shows disk w.stage.generateTask.segPath s.store ∧
      w.stage.genProveTaskPost .proverV2 disk = some stage ∧
      (stage.proveTasks.filter fun t => t.isDeferred).map (·.output)
        ≠ List.replicate 65537 [1] := by
  refine exists_lost ?_ ?_
  · intro input hinput
    rw [List.eq_of_mem_replicate hinput]
    exact List.cons_ne_nil _ _
  · rw [List.length_replicate]
    omega

end ZkmProver
