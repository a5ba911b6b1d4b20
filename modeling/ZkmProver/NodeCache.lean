import Mathlib.Data.List.Basic
import ZkmProver.Machine

/-! # NodeCache — the jobs of a node under `prover_v2`, its caches and locks

    `Pipeline` of `prover_v2` runs every job at once; what keeps the jobs
    apart are the two caches.  A job takes `PROGRAM_CACHE`, looks its program
    up or generates it, and takes `KEY_CACHE` for the keys.  The split and the
    single node hold both guards to their end; `RootProver::prove` drops the
    first when it has traced the checkpoint, and does without it for a record.
    A wrap waits for the one that initializes `WRAP_KEYS`.  The guards of
    `parking_lot` are dropped by a panic and are not poisoned.

    A job may hang, with what it holds.  The locks are taken in one order, so
    whoever waits for ever waits behind a job that hangs (`jobs_wait`); and
    behind one that has both caches waits, from then on, every split and every
    proof of the node (`hung_job_blocks`).  What a job finds in a cache was
    generated for its own program id (`cached_as_generated`). -/

/-! ## Locks taken in the order of a rank -/

namespace Locks

variable {τ ℓ : Type}

/-- The thread is one of `P`, or it waits for a lock that one of them has, or
    one that waits behind them. -/
inductive Behind (threads : List τ) (holds : τ → ℓ → Prop)
    (wants : τ → Option ℓ) (P : τ → Prop) : τ → Prop where
  | self (t : τ) : P t → Behind threads holds wants P t
  | waits (t t' : τ) (l : ℓ) : wants t = some l → t' ∈ threads → holds t' l →
      Behind threads holds wants P t' → Behind threads holds wants P t

/-- **ORDERED LOCKS**: when each thread that has a lock is one of `P` or waits
    for a lock that is taken, and waits only for what ranks above all it has,
    they all wait behind the threads of `P`. -/
theorem behind_of_order {threads : List τ} {holds : τ → ℓ → Prop}
    {wants : τ → Option ℓ} {P : τ → Prop} (rank : ℓ → Nat) (b : Nat)
    (hbound : ∀ l, rank l < b)
    (horder : ∀ t l, wants t = some l → ∀ l', holds t l' → rank l' < rank l)
    (hwait : ∀ t ∈ threads, (∃ l, holds t l) →
      P t ∨ ∃ l, wants t = some l ∧ ∃ t' ∈ threads, holds t' l)
    {t : τ} (ht : t ∈ threads) {l : ℓ} (hl : holds t l) :
    Behind threads holds wants P t := by
  -- the ranks go up along the threads that wait
  have hclimb : ∀ n, ∀ t ∈ threads, ∀ l, holds t l → b ≤ rank l + n →
      Behind threads holds wants P t := by
    intro n
    induction n with
    | zero =>
        intro t _ l _ hb
        exact absurd (hbound l) (Nat.not_lt.mpr hb)
    | succ n ih =>
        intro t ht l hl hb
        rcases hwait t ht ⟨l, hl⟩ with hP | ⟨l', hw, t', ht', hh⟩
        · exact .self t hP
        · have hlt := horder t l' hw l hl
          exact .waits t t' l' hw ht' hh (ih t' ht' l' hh (by omega))
  exact hclimb b t ht l hl (Nat.le_add_left ..)

end Locks

namespace ZkmProver

open Machine

variable {ε π κ : Type}

/-! ## The caches -/

/-- What the code uses of `lru::LruCache`, for keys that are strings. -/
structure LruCache where
  Cache : Type → Type
  /-- `LruCache::new` -/
  new : {α : Type} → Nat → Cache α
  /-- `get`; the cache notes the use -/
  get : {α : Type} → Cache α → String → Option α × Cache α
  /-- `push` -/
  push : {α : Type} → Cache α → String → α → Cache α

namespace LruCache

/-- A lookup under the key comes to the value. -/
def Finds (L : LruCache) {α : Type} (q : L.Cache α) (id : String) (v : α) :
    Prop :=
  (L.get q id).1 = some v

/-- What is found under a key was pushed under it. -/
structure Lawful (L : LruCache) : Prop where
  new : ∀ {α : Type} (n : Nat) (id : String) (v : α),
    ¬ L.Finds (L.new n) id v
  get : ∀ {α : Type} (q : L.Cache α) (id id' : String) (v : α),
    L.Finds (L.get q id).2 id' v → L.Finds q id' v
  push : ∀ {α : Type} (q : L.Cache α) (id id' : String) (v v' : α),
    L.Finds (L.push q id v) id' v' →
      id' = id ∧ v' = v ∨ L.Finds q id' v'

end LruCache

/-- `DEFAULT_CACHE_SIZE` -/
def defaultCacheSize : Nat := 5

/-! ## Jobs -/

/-- What the prover of the SDK computes: a program from an ELF, and the keys
    of a program. -/
structure GlobalProver (ε π κ : Type) where
  getProgram : ε → Option π
  setup : π → κ

/-- What a job is to do. -/
inductive Work (π : Type) where
  /-- `Executor::split` -/
  | split
  /-- `RootProver::prove` on a `Segment::State` -/
  | state
  /-- on a `Segment::Record`, with the program of the record -/
  | record (p : π)
  /-- `SingleNodeProver::prove`, and whether it wraps the proof -/
  | single (snark : Bool)
  /-- `SnarkProver::prove` -/
  | snark

/-- A job of `run_back_task`, with the program id of its context. -/
structure NodeJob (π : Type) where
  programId : String
  work : Work π

/-- Where a job is.  A single node has read the ELF before it asks for the
    program; behind the keys it may go on to wrap the proof. -/
inductive JobPhase (ε π κ : Type) where
  | starting
  | wantsProgram (elf : Option ε)
  | inProgram (elf : Option ε)
  | hasProgram (p : π)
  | wantsKeys (p : π)
  | inKeys (p : π)
  | proving (p : π) (k : κ)
  | wantsWrap (kept : Option (π × κ))
  | inWrap (kept : Option (π × κ))
  | wrapped (kept : Option (π × κ))
  | finished (ok : Bool)
  /-- it does not come to the end of what it was at -/
  | hung (phase : JobPhase ε π κ)

/-- The two mutexes, and the cell of the wrap's keys while one initializes it.
    -/
inductive NodeLock where
  | programCache
  | keyCache
  | wrapKeys
  deriving DecidableEq

/-- The guard of `PROGRAM_CACHE` lives as long as the job. -/
def Work.keepsProgram : Work π → Bool
  | .split => true
  | .single _ => true
  | _ => false

/-- The locks a job has at a place. -/
def NodeJob.holds (job : NodeJob π) : JobPhase ε π κ → NodeLock → Bool
  | .inProgram _, .programCache => true
  | .hasProgram _, .programCache => true
  | .wantsKeys _, .programCache => job.work.keepsProgram
  | .inKeys _, .programCache => job.work.keepsProgram
  | .inKeys _, .keyCache => true
  | .proving _ _, .programCache => job.work.keepsProgram
  | .proving _ _, .keyCache => true
  | .wantsWrap kept, .programCache => kept.isSome
  | .wantsWrap kept, .keyCache => kept.isSome
  | .inWrap kept, .programCache => kept.isSome
  | .inWrap kept, .keyCache => kept.isSome
  | .inWrap _, .wrapKeys => true
  | .wrapped kept, .programCache => kept.isSome
  | .wrapped kept, .keyCache => kept.isSome
  | .hung phase, l => job.holds phase l
  | _, _ => false

/-- The lock a job is blocked at. -/
def JobPhase.wants : JobPhase ε π κ → Option NodeLock
  | .wantsProgram _ => some .programCache
  | .wantsKeys _ => some .keyCache
  | .wantsWrap _ => some .wrapKeys
  | _ => none

/-- The job has returned, with a result or without. -/
def JobPhase.isFinished : JobPhase ε π κ → Bool
  | .finished _ => true
  | _ => false

/-- The job will not take another step. -/
def JobPhase.isHung : JobPhase ε π κ → Bool
  | .hung _ => true
  | _ => false

/-- The statics, and the ELFs that programs were generated from. -/
structure Caches (L : LruCache) (ε π κ : Type) where
  programs : L.Cache π
  keys : L.Cache κ
  wrapKeys : Bool
  reads : List (String × ε)

/-- The statics when the node starts. -/
def Caches.new (L : LruCache) : Caches L ε π κ where
  programs := L.new defaultCacheSize
  keys := L.new defaultCacheSize
  wrapKeys := false
  reads := []

/-- What a job does next, with what it meets on the way. -/
inductive JobDeed (ε : Type) where
  /-- the inputs are read; `elf` is the ELF, if the read succeeds -/
  | begin (elf : Option ε)
  /-- `lock()`, or `get_or_init` -/
  | lock
  /-- under `PROGRAM_CACHE`; `file` is what is at `elf_path` -/
  | lookup (file : Option ε)
  /-- what comes next is done -/
  | next
  /-- an error is returned, or the job panics -/
  | fail
  /-- what comes next does not come to an end -/
  | hang

/-- The job goes on by itself. -/
def JobPhase.runs (phase : JobPhase ε π κ) : Bool :=
  phase.wants.isNone && !phase.isFinished && !phase.isHung

/-- What a job does once its inputs are read; the single node needs the ELF
    then. -/
def NodeJob.begin (job : NodeJob π) (elf : Option ε) : JobPhase ε π κ :=
  match job.work with
  | .split => .wantsProgram none
  | .state => .wantsProgram none
  | .record p => .wantsKeys p
  | .single _ =>
      match elf with
      | some e => .wantsProgram (some e)
      | none => .finished false
  | .snark => .wantsWrap none

section

variable {L : LruCache}

/-- The end of a lookup under `PROGRAM_CACHE`: what is found, or the `unwrap`
    of nothing. -/
def Caches.foundProgram (c : Caches L ε π κ) (got : Option π × L.Cache π) :
    JobPhase ε π κ × Caches L ε π κ :=
  match got with
  | (some p, programs) => (.hasProgram p, { c with programs := programs })
  | (none, programs) => (.finished false, { c with programs := programs })

/-- The same for the keys, under `KEY_CACHE`. -/
def Caches.foundKeys (c : Caches L ε π κ) (p : π)
    (got : Option κ × L.Cache κ) : JobPhase ε π κ × Caches L ε π κ :=
  match got with
  | (some k, keys) => (.proving p k, { c with keys := keys })
  | (none, keys) => (.finished false, { c with keys := keys })

variable (prover : GlobalProver ε π κ)

/-- Under `PROGRAM_CACHE`. -/
def Caches.lookup (c : Caches L ε π κ) (id : String) (elf : Option ε) :
    JobPhase ε π κ × Caches L ε π κ :=
  match L.get c.programs id with
  | (some p, programs) => c.foundProgram (some p, programs)
  | (none, programs) =>
      match elf with
      | none => (.finished false, { c with programs := programs })
      | some e =>
          match prover.getProgram e with
          | none => (.finished false, { c with programs := programs })
          | some p =>
              { c with reads := (id, e) :: c.reads }.foundProgram
                (L.get (L.push programs id p) id)

/-- Under `KEY_CACHE`. -/
def Caches.setup (c : Caches L ε π κ) (id : String) (p : π) :
    JobPhase ε π κ × Caches L ε π κ :=
  match L.get c.keys id with
  | (some k, keys) => c.foundKeys p (some k, keys)
  | (none, keys) =>
      c.foundKeys p (L.get (L.push keys id (prover.setup p)) id)

/-- One step of a job, if the locks that are free allow it. -/
def NodeJob.act (job : NodeJob π) (free : NodeLock → Bool)
    (c : Caches L ε π κ) :
    JobPhase ε π κ → JobDeed ε → Option (JobPhase ε π κ × Caches L ε π κ)
  | .starting, .begin elf => some (job.begin elf, c)
  | .wantsProgram elf, .lock =>
      if free .programCache then some (.inProgram elf, c) else none
  | .inProgram elf, .lookup file =>
      some (c.lookup prover job.programId (elf.or file))
  | .hasProgram p, .next => some (.wantsKeys p, c)
  | .wantsKeys p, .lock =>
      if free .keyCache then some (.inKeys p, c) else none
  | .inKeys p, .next => some (c.setup prover job.programId p)
  | .proving p k, .next =>
      match job.work with
      | .single true => some (.wantsWrap (some (p, k)), c)
      | _ => some (.finished true, c)
  | .wantsWrap kept, .lock =>
      if c.wrapKeys then some (.wrapped kept, c)
      else if free .wrapKeys then some (.inWrap kept, c) else none
  | .inWrap kept, .next => some (.wrapped kept, { c with wrapKeys := true })
  | .wrapped _, .next => some (.finished true, c)
  | phase, .fail => if phase.runs then some (.finished false, c) else none
  | phase, .hang => if phase.runs then some (.hung phase, c) else none
  | _, _ => none

end

/-! ## The node -/

/-- The statics and the jobs, by their number. -/
structure CacheNode (L : LruCache) (ε π κ : Type) where
  caches : Caches L ε π κ
  jobs : List (NodeJob π × JobPhase ε π κ)

/-- A step of the node. -/
inductive CacheAct (ε π : Type) where
  /-- `run_back_task` starts a job -/
  | submit (job : NodeJob π)
  | work (i : Nat) (deed : JobDeed ε)

section

variable {L : LruCache}

/-- A node that has just been started. -/
def CacheNode.new (L : LruCache) : CacheNode L ε π κ := ⟨.new L, []⟩

/-- No job has the lock. -/
def CacheNode.free (n : CacheNode L ε π κ) (l : NodeLock) : Bool :=
  n.jobs.all fun j => !j.1.holds j.2 l

/-- A job comes in, or one takes a step if the locks allow it. -/
def CacheNode.step (prover : GlobalProver ε π κ) (n : CacheNode L ε π κ) :
    CacheAct ε π → Option (CacheNode L ε π κ)
  | .submit job => some { n with jobs := n.jobs ++ [(job, .starting)] }
  | .work i deed =>
      match n.jobs[i]? with
      | none => none
      | some (job, phase) =>
          (job.act prover n.free n.caches phase deed).map fun out =>
            { caches := out.2, jobs := n.jobs.set i (job, out.1) }

/-- A state of a node that was started with its caches empty. -/
def CacheNode.Reachable (prover : GlobalProver ε π κ) (n : CacheNode L ε π κ) :
    Prop :=
  ∃ acts, run (CacheNode.step prover) (.new L) acts = some n

end

/-! ## A small node

    ELFs, programs and keys are numbers, and a cache is a list with the entry
    that was used last at its head. -/

/-- `get` on the entries of a list, with the capacity. -/
def listGet {α : Type} (q : Nat × List (String × α)) (id : String) :
    Option α × Nat × List (String × α) :=
  match q.2.find? fun e => e.1 = id with
  | some e => (some e.2, q.1, e :: q.2.filter fun e => e.1 ≠ id)
  | none => (none, q)

/-- `push`; the last entry goes if there is no room. -/
def listPush {α : Type} (q : Nat × List (String × α)) (id : String) (v : α) :
    Nat × List (String × α) :=
  (q.1, ((id, v) :: q.2.filter fun e => e.1 ≠ id).take q.1)

/-- A cache on a list, with the entry that was used last at the head. -/
def listCache : LruCache where
  Cache := fun α => Nat × List (String × α)
  new := fun n => (n, [])
  get := listGet
  push := listPush

section

variable {α : Type} {q : Nat × List (String × α)} {id id' : String} {v v' : α}

/-- What a lookup finds is the entry with the key. -/
theorem listGet_fst : (listGet q id).1 = some v ↔
    (q.2.find? fun e => e.1 = id) = some (id, v) := by
  rw [listGet]
  cases hfind : q.2.find? fun e => decide (e.1 = id) with
  | none => exact ⟨(fun h => nomatch h), fun h => nomatch h⟩
  | some e =>
      obtain ⟨k, w⟩ := e
      have hkey : k = id := by simpa using List.find?_some hfind
      cases hkey
      constructor
      · intro h
        cases h
        rfl
      · intro h
        cases h
        rfl

/-- The entries of another key are where they were. -/
theorem find?_others {entries : List (String × α)} (hne : id' ≠ id) :
    ((entries.filter fun e => e.1 ≠ id).find? fun e => e.1 = id')
      = entries.find? fun e => e.1 = id' := by
  rw [List.find?_filter]
  congr 1
  funext e
  by_cases he : e.1 = id'
  · simp [he, hne]
  · simp [he]

/-- A lookup adds nothing. -/
theorem listGet_get (h : (listGet (listGet q id).2 id').1 = some v) :
    (listGet q id').1 = some v := by
  rw [listGet_fst] at h ⊢
  rw [listGet] at h
  cases hfind : q.2.find? fun e => decide (e.1 = id) with
  | none => rwa [hfind] at h
  | some e =>
      rw [hfind] at h
      have hkey : e.1 = id := by simpa using List.find?_some hfind
      by_cases hid : id' = id
      · cases hid
        rw [List.find?_cons_of_pos (by simp [hkey])] at h
        exact hfind.trans h
      · rwa [List.find?_cons_of_neg (by simp [hkey, Ne.symm hid]),
          find?_others hid] at h

/-- A push adds its own entry only. -/
theorem listGet_push (h : (listGet (listPush q id v) id').1 = some v') :
    id' = id ∧ v' = v ∨ (listGet q id').1 = some v' := by
  rw [listGet_fst] at h ⊢
  have hfound := (List.take_prefix _ _).find?_eq_some h
  by_cases hid : id' = id
  · cases hid
    rw [List.find?_cons_of_pos (by simp)] at hfound
    cases hfound
    exact Or.inl ⟨rfl, rfl⟩
  · rw [List.find?_cons_of_neg (by simp [Ne.symm hid]), find?_others hid]
      at hfound
    exact Or.inr hfound

end

/-- The cache on a list keeps the laws. -/
theorem listCache_lawful : listCache.Lawful where
  new := fun _ _ _ h => nomatch h
  get := fun _ _ _ _ h => listGet_get h
  push := fun _ _ _ _ _ h => listGet_push h

/-- The program of an ELF is its successor, and the keys are the double. -/
def smallProver : GlobalProver Nat Nat Nat where
  getProgram := fun e => if e = 0 then none else some (e + 1)
  setup := fun p => 2 * p

/-- A split and the proof of one of its segments: the split has both caches,
    the proof waits for the first. -/
def splitAtWork : List (CacheAct Nat Nat) :=
  [.submit ⟨"a", .split⟩, .submit ⟨"a", .state⟩, .work 0 (.begin none),
    .work 1 (.begin none), .work 0 .lock, .work 0 (.lookup (some 7)),
    .work 0 .next, .work 0 .lock, .work 0 .next]

/-- The split comes to its end, and the proof finds all it needs. -/
def provedBehind : List (CacheAct Nat Nat) :=
  [.work 0 .next, .work 1 .lock, .work 1 (.lookup none), .work 1 .next,
    .work 1 .lock, .work 1 .next]

/-! ## What a step of a job can do -/

/-- What a step of a job can come to; `Caches.lookup` and `Caches.setup` are
    left as they are. -/
inductive Took {L : LruCache} (prover : GlobalProver ε π κ) (job : NodeJob π)
    (free : NodeLock → Bool) (c : Caches L ε π κ) :
    JobPhase ε π κ → JobPhase ε π κ → Caches L ε π κ → Prop where
  | toProgram (elf : Option ε) :
      Took prover job free c .starting (.wantsProgram elf) c
  | toKeys (p : π) : job.work = .record p →
      Took prover job free c .starting (.wantsKeys p) c
  | toWrap : job.work = .snark →
      Took prover job free c .starting (.wantsWrap none) c
  | lockProgram (elf : Option ε) : free .programCache = true →
      Took prover job free c (.wantsProgram elf) (.inProgram elf) c
  | program (elf file : Option ε) (p : π) (c' : Caches L ε π κ) :
      c.lookup prover job.programId file = (.hasProgram p, c') →
      Took prover job free c (.inProgram elf) (.hasProgram p) c'
  | noProgram (elf file : Option ε) (c' : Caches L ε π κ) :
      c.lookup prover job.programId file = (.finished false, c') →
      Took prover job free c (.inProgram elf) (.finished false) c'
  | traced (p : π) : Took prover job free c (.hasProgram p) (.wantsKeys p) c
  | lockKeys (p : π) : free .keyCache = true →
      Took prover job free c (.wantsKeys p) (.inKeys p) c
  | keys (p : π) (k : κ) (c' : Caches L ε π κ) :
      c.setup prover job.programId p = (.proving p k, c') →
      Took prover job free c (.inKeys p) (.proving p k) c'
  | noKeys (p : π) (c' : Caches L ε π κ) :
      c.setup prover job.programId p = (.finished false, c') →
      Took prover job free c (.inKeys p) (.finished false) c'
  | proved (p : π) (k : κ) :
      Took prover job free c (.proving p k) (.finished true) c
  | shrunk (p : π) (k : κ) : job.work = .single true →
      Took prover job free c (.proving p k) (.wantsWrap (some (p, k))) c
  | lockWrap (kept : Option (π × κ)) : free .wrapKeys = true →
      Took prover job free c (.wantsWrap kept) (.inWrap kept) c
  | passWrap (kept : Option (π × κ)) : c.wrapKeys = true →
      Took prover job free c (.wantsWrap kept) (.wrapped kept) c
  | wrap (kept : Option (π × κ)) :
      Took prover job free c (.inWrap kept) (.wrapped kept)
        { c with wrapKeys := true }
  | ended (kept : Option (π × κ)) :
      Took prover job free c (.wrapped kept) (.finished true) c
  | failed (phase : JobPhase ε π κ) : phase.runs = true →
      Took prover job free c phase (.finished false) c
  | hung (phase : JobPhase ε π κ) : phase.runs = true →
      Took prover job free c phase (.hung phase) c

section

variable {L : LruCache} {prover : GlobalProver ε π κ} {job : NodeJob π}
  {free : NodeLock → Bool} {c c' : Caches L ε π κ}
  {phase phase' : JobPhase ε π κ} {deed : JobDeed ε}

theorem begin_took (elf : Option ε) :
    Took prover job free c .starting (job.begin elf) c := by
  unfold NodeJob.begin
  split
  · exact .toProgram none
  · exact .toProgram none
  case h_3 p hwork => exact .toKeys p hwork
  · split
    · exact .toProgram _
    · exact .failed _ rfl
  case h_5 hwork => exact .toWrap hwork

/-- The end of a lookup, with the program or with the panic. -/
theorem foundProgram_cases (c : Caches L ε π κ) (got : Option π × L.Cache π) :
    (∃ p, got.1 = some p ∧
      c.foundProgram got = (.hasProgram p, { c with programs := got.2 })) ∨
    c.foundProgram got = (.finished false, { c with programs := got.2 }) := by
  obtain ⟨found, programs⟩ := got
  cases found with
  | some p => exact Or.inl ⟨p, rfl, rfl⟩
  | none => exact Or.inr rfl

/-- The same for the keys. -/
theorem foundKeys_cases (c : Caches L ε π κ) (p : π)
    (got : Option κ × L.Cache κ) :
    (∃ k, got.1 = some k ∧
      c.foundKeys p got = (.proving p k, { c with keys := got.2 })) ∨
    c.foundKeys p got = (.finished false, { c with keys := got.2 }) := by
  obtain ⟨found, keys⟩ := got
  cases found with
  | some k => exact Or.inl ⟨k, rfl, rfl⟩
  | none => exact Or.inr rfl

variable (prover) in
/-- What a lookup does: the program is found, it fails, or the program of the
    ELF is pushed and looked up again. -/
theorem lookup_cases (c : Caches L ε π κ) (id : String) (elf : Option ε) :
    (∃ p, L.Finds c.programs id p ∧ c.lookup prover id elf
      = (.hasProgram p, { c with programs := (L.get c.programs id).2 })) ∨
    c.lookup prover id elf
      = (.finished false, { c with programs := (L.get c.programs id).2 }) ∨
    ∃ e p, prover.getProgram e = some p ∧ c.lookup prover id elf
      = { c with reads := (id, e) :: c.reads }.foundProgram
          (L.get (L.push (L.get c.programs id).2 id p) id) := by
  unfold Caches.lookup LruCache.Finds
  cases hget : L.get c.programs id with
  | mk found programs =>
      cases found with
      | some p => exact Or.inl ⟨p, rfl, rfl⟩
      | none =>
          cases elf with
          | none => exact Or.inr (Or.inl rfl)
          | some e =>
              dsimp only
              cases hp : prover.getProgram e with
              | none => exact Or.inr (Or.inl rfl)
              | some p => exact Or.inr (Or.inr ⟨e, p, hp, rfl⟩)

variable (prover) in
/-- The keys are found, or set up, pushed and looked up again. -/
theorem setup_cases (c : Caches L ε π κ) (id : String) (p : π) :
    (∃ k, L.Finds c.keys id k ∧ c.setup prover id p
      = (.proving p k, { c with keys := (L.get c.keys id).2 })) ∨
    c.setup prover id p = c.foundKeys p
      (L.get (L.push (L.get c.keys id).2 id (prover.setup p)) id) := by
  unfold Caches.setup LruCache.Finds
  cases hget : L.get c.keys id with
  | mk found keys =>
      cases found with
      | some k => exact Or.inl ⟨k, rfl, rfl⟩
      | none => exact Or.inr rfl

/-- What happens under `PROGRAM_CACHE` is of the list. -/
theorem lookup_took (elf file : Option ε) :
    Took prover job free c (.inProgram elf)
      (c.lookup prover job.programId file).1
      (c.lookup prover job.programId file).2 := by
  rcases lookup_cases prover c job.programId file with
    ⟨p, _, hlook⟩ | hlook | ⟨e, p, _, hlook⟩
  · rw [hlook]
    exact .program elf file p _ hlook
  · rw [hlook]
    exact .noProgram elf file _ hlook
  · rcases foundProgram_cases { c with reads := (job.programId, e) :: c.reads }
      (L.get (L.push (L.get c.programs job.programId).2 job.programId p)
        job.programId) with ⟨p', _, hfound⟩ | hfound <;>
      rw [hfound] at hlook <;> rw [hlook]
    · exact .program elf file p' _ hlook
    · exact .noProgram elf file _ hlook

/-- So is what happens under `KEY_CACHE`. -/
theorem setup_took (p : π) :
    Took prover job free c (.inKeys p) (c.setup prover job.programId p).1
      (c.setup prover job.programId p).2 := by
  rcases setup_cases prover c job.programId p with
    ⟨k, _, hset⟩ | hset
  · rw [hset]
    exact .keys p k _ hset
  · rcases foundKeys_cases c p
      (L.get (L.push (L.get c.keys job.programId).2 job.programId
        (prover.setup p)) job.programId) with ⟨k, _, hfound⟩ | hfound <;>
      rw [hfound] at hset <;> rw [hset]
    · exact .keys p k _ hset
    · exact .noKeys p _ hset

/-- **INVERSION**: every step of a job is one of the list. -/
theorem act_took (h : job.act prover free c phase deed = some (phase', c')) :
    Took prover job free c phase phase' c' := by
  cases deed with
  | begin elf =>
      cases phase with
      | starting => cases h; exact begin_took elf
      | _ => cases h
  | lock =>
      cases phase with
      | wantsProgram elf =>
          obtain ⟨hfree, h⟩ := Option.ite_none_right_eq_some.mp h
          cases h
          exact .lockProgram elf hfree
      | wantsKeys p =>
          obtain ⟨hfree, h⟩ := Option.ite_none_right_eq_some.mp h
          cases h
          exact .lockKeys p hfree
      | wantsWrap kept =>
          rw [NodeJob.act] at h
          by_cases hwrap : c.wrapKeys = true
          · rw [if_pos hwrap] at h
            cases h
            exact .passWrap kept hwrap
          · rw [if_neg hwrap] at h
            obtain ⟨hfree, h⟩ := Option.ite_none_right_eq_some.mp h
            cases h
            exact .lockWrap kept hfree
      | _ => cases h
  | lookup file =>
      cases phase with
      | inProgram elf =>
          have hlook : c.lookup prover job.programId (elf.or file)
              = (phase', c') := Option.some.inj h
          have htook : Took prover job free c (.inProgram elf) _ _ :=
            lookup_took elf (elf.or file)
          rwa [hlook] at htook
      | _ => cases h
  | next =>
      cases phase with
      | hasProgram p => cases h; exact .traced p
      | inKeys p =>
          have hset : c.setup prover job.programId p = (phase', c') :=
            Option.some.inj h
          have htook : Took prover job free c (.inKeys p) _ _ := setup_took p
          rwa [hset] at htook
      | proving p k =>
          rw [NodeJob.act] at h
          split at h
          case h_1 hwork => cases h; exact .shrunk p k hwork
          case h_2 => cases h; exact .proved p k
      | inWrap kept => cases h; exact .wrap kept
      | wrapped kept => cases h; exact .ended kept
      | _ => cases h
  | fail =>
      have hfail : job.act prover free c phase .fail
          = if phase.runs then some (.finished false, c) else none := by
        cases phase <;> rfl
      rw [hfail] at h
      obtain ⟨hruns, h⟩ := Option.ite_none_right_eq_some.mp h
      cases h
      exact .failed phase hruns
  | hang =>
      have hhang : job.act prover free c phase .hang
          = if phase.runs then some (.hung phase, c) else none := by
        cases phase <;> rfl
      rw [hhang] at h
      obtain ⟨hruns, h⟩ := Option.ite_none_right_eq_some.mp h
      cases h
      exact .hung phase hruns

/-! ## Steps of the node -/

variable {n n' : CacheNode L ε π κ} {a : CacheAct ε π}

/-- A step of the node is a new job or a step of one. -/
theorem CacheNode.step_cases (h : n.step prover a = some n') :
    (∃ job, a = .submit job ∧
      n' = { n with jobs := n.jobs ++ [(job, .starting)] }) ∨
    ∃ i deed job phase phase' c', a = .work i deed ∧
      n.jobs[i]? = some (job, phase) ∧
      Took prover job n.free n.caches phase phase' c' ∧
      n' = ⟨c', n.jobs.set i (job, phase')⟩ := by
  cases a with
  | submit job =>
      cases h
      exact Or.inl ⟨job, rfl, rfl⟩
  | work i deed =>
      rw [CacheNode.step] at h
      split at h
      · cases h
      case h_2 job phase hi =>
        obtain ⟨⟨phase', c'⟩, hact, rfl⟩ := Option.map_eq_some_iff.mp h
        exact Or.inr ⟨i, deed, job, phase, phase', c', rfl, hi, act_took hact,
          rfl⟩

/-- The invariant rule: at the start, over a new job, and over a step of one. -/
theorem CacheNode.Reachable.inv {I : CacheNode L ε π κ → Prop}
    (hnew : I (.new L))
    (hsubmit : ∀ (n : CacheNode L ε π κ) job, I n →
      I { n with jobs := n.jobs ++ [(job, .starting)] })
    (hwork : ∀ (n : CacheNode L ε π κ) i job phase phase' c', I n →
      n.jobs[i]? = some (job, phase) →
      Took prover job n.free n.caches phase phase' c' →
      I ⟨c', n.jobs.set i (job, phase')⟩)
    (h : CacheNode.Reachable prover n) : I n := by
  obtain ⟨acts, hrun⟩ := h
  refine run_inv ?_ hnew hrun
  intro n a n' hn hs
  rcases CacheNode.step_cases hs with ⟨job, _, rfl⟩ |
    ⟨i, deed, job, phase, phase', c', _, hi, htook, rfl⟩
  · exact hsubmit n job hn
  · exact hwork n i job phase phase' c' hn hi htook

/-! ## One job a lock -/

/-- A job keeps its locks, and gets another one only if it is free. -/
theorem Took.holds (h : Took prover job free c phase phase' c') {l : NodeLock}
    (hl : job.holds phase' l = true) :
    job.holds phase l = true ∨ free l = true := by
  cases h with
  -- the three steps that take a lock found it free
  | lockProgram elf hfree =>
      cases l with
      | programCache => exact Or.inr hfree
      | _ => cases hl
  | lockKeys p hfree =>
      cases l with
      | programCache => exact Or.inl hl
      | keyCache => exact Or.inr hfree
      | wrapKeys => cases hl
  | lockWrap kept hfree =>
      cases l with
      | wrapKeys => exact Or.inr hfree
      | _ => exact Or.inl hl
  -- a record comes to the keys without the first cache
  | toKeys p hwork =>
      cases l with
      | programCache =>
          rw [NodeJob.holds, hwork] at hl
          cases hl
      | _ => cases hl
  | traced p =>
      cases l with
      | programCache => exact Or.inl rfl
      | _ => cases hl
  | shrunk p k hwork =>
      cases l with
      | programCache =>
          rw [NodeJob.holds, hwork]
          exact Or.inl rfl
      | keyCache => exact Or.inl rfl
      | wrapKeys => cases hl
  | wrap kept =>
      cases l with
      | wrapKeys => cases hl
      | _ => exact Or.inl hl
  | passWrap kept _ =>
      cases l with
      | wrapKeys => cases hl
      | _ => exact Or.inl hl
  | program elf file p c' _ => cases l <;> exact Or.inl hl
  | keys p k c' _ => cases l <;> exact Or.inl hl
  | hung phase _ => exact Or.inl hl
  | toProgram elf => cases l <;> cases hl
  | toWrap _ => cases l <;> cases hl
  | noProgram elf file c' _ => cases l <;> cases hl
  | noKeys p c' _ => cases l <;> cases hl
  | proved p k => cases l <;> cases hl
  | ended kept => cases l <;> cases hl
  | failed phase _ => cases l <;> cases hl

/-- Two jobs do not have one lock. -/
def CacheNode.Exclusive (n : CacheNode L ε π κ) : Prop :=
  ∀ (l : NodeLock) (i j : Nat) (a b : NodeJob π × JobPhase ε π κ),
    n.jobs[i]? = some a → n.jobs[j]? = some b →
    a.1.holds a.2 l = true → b.1.holds b.2 l = true → i = j

/-- A lock that is free is nobody's. -/
theorem free_of {l : NodeLock} (h : n.free l = true) {i : Nat}
    {a : NodeJob π × JobPhase ε π κ} (hi : n.jobs[i]? = some a) :
    a.1.holds a.2 l = false := by
  have hno := List.all_eq_true.mp h a (List.mem_of_getElem? hi)
  rwa [Bool.not_eq_true'] at hno

/-- What is at a place of the list after a step of the `i`-th job. -/
theorem getElem?_set_cases {α : Type} {xs : List α} {i j : Nat} {x y z : α}
    (hi : xs[i]? = some x) (hj : (xs.set i y)[j]? = some z) :
    i = j ∧ z = y ∨ i ≠ j ∧ xs[j]? = some z := by
  by_cases hij : i = j
  · subst hij
    obtain ⟨hlt, _⟩ := List.getElem?_eq_some_iff.mp hi
    rw [List.getElem?_set_self hlt] at hj
    exact Or.inl ⟨rfl, (Option.some.inj hj).symm⟩
  · rw [List.getElem?_set_ne hij] at hj
    exact Or.inr ⟨hij, hj⟩

/-- What is at a place of the list after one more job. -/
theorem getElem?_submit_cases {α : Type} {xs : List α} {j : Nat} {y z : α}
    (hj : (xs ++ [y])[j]? = some z) : z = y ∨ xs[j]? = some z := by
  rw [List.getElem?_append] at hj
  split at hj
  · exact Or.inr hj
  · exact Or.inl (List.mem_singleton.mp (List.mem_of_getElem? hj))

/-- **EXCLUSIVE**: at most one job is between `PROGRAM_CACHE.lock()` and the
    end of its guard, at most one has the keys, and at most one initializes
    the keys of the wrap. -/
theorem CacheNode.Reachable.exclusive (h : CacheNode.Reachable prover n) :
    n.Exclusive := by
  refine h.inv ?_ ?_ ?_
  · intro l i j a b hi
    cases hi
  · intro n job hn l i j a b hi hj ha hb
    have hold : ∀ (i : Nat) (a : NodeJob π × JobPhase ε π κ),
        (n.jobs ++ [(job, .starting)])[i]? = some a →
        a.1.holds a.2 l = true → n.jobs[i]? = some a := by
      intro i a hi ha
      rcases getElem?_submit_cases hi with rfl | hi
      · cases l <;> cases ha
      · exact hi
    exact hn l i j a b (hold i a hi ha) (hold j b hj hb) ha hb
  · intro n k job phase phase' c' hn hk htook l i j a b hi hj ha hb
    -- the one that moves has had the lock, or nobody has
    have hmoved : ∀ (j : Nat) (b : NodeJob π × JobPhase ε π κ), k ≠ j →
        n.jobs[j]? = some b → b.1.holds b.2 l = true →
        job.holds phase' l = true → False := by
      intro j b hne hj hb hl
      rcases htook.holds hl with hold | hfree
      · exact hne (hn l k j _ b hk hj hold hb)
      · exact nomatch (free_of hfree hj).symm.trans hb
    rcases getElem?_set_cases hk hi with ⟨rfl, rfl⟩ | ⟨hki, hi⟩ <;>
      rcases getElem?_set_cases hk hj with ⟨rfl, rfl⟩ | ⟨hkj, hj⟩
    · rfl
    · exact (hmoved j b hkj hj hb ha).elim
    · exact (hmoved i a hki hi ha hb).elim
    · exact hn l i j a b hi hj ha hb

/-! ## Who waits for whom -/

/-- The order in which the locks are taken. -/
def NodeLock.rank : NodeLock → Nat
  | .programCache => 0
  | .keyCache => 1
  | .wrapKeys => 2

/-- A job waits only for locks above those it has. -/
theorem holds_below {l l' : NodeLock} (hwants : phase.wants = some l)
    (hholds : job.holds phase l' = true) : l'.rank < l.rank := by
  cases phase with
  | wantsProgram elf => cases l' <;> cases hholds
  | wantsKeys p =>
      cases hwants
      cases l' with
      | programCache => exact Nat.zero_lt_one
      | _ => cases hholds
  | wantsWrap kept =>
      cases hwants
      cases l' with
      | programCache => exact Nat.zero_lt_two
      | keyCache => exact Nat.one_lt_two
      | wrapKeys => cases hholds
  | _ => cases hwants

/-- A job takes a step if it goes on by itself, or the lock it is at is
    free. -/
theorem act_isSome
    (h : phase.runs = true ∨ ∃ l, phase.wants = some l ∧ free l = true) :
    ∃ deed out, job.act prover free c phase deed = some out := by
  rcases h with hruns | ⟨l, hwants, hfree⟩
  · have hfail : job.act prover free c phase .fail
        = if phase.runs then some (.finished false, c) else none := by
      cases phase <;> rfl
    exact ⟨.fail, _, hfail.trans (if_pos hruns)⟩
  · cases phase with
    | wantsProgram elf => cases hwants; exact ⟨.lock, _, if_pos hfree⟩
    | wantsKeys p => cases hwants; exact ⟨.lock, _, if_pos hfree⟩
    | wantsWrap kept =>
        cases hwants
        have hact : job.act prover free c (.wantsWrap kept) .lock
            = if c.wrapKeys then some (.wrapped kept, c)
              else if free .wrapKeys then some (.inWrap kept, c) else none := rfl
        rw [if_pos hfree] at hact
        by_cases hwrap : c.wrapKeys = true
        · exact ⟨.lock, _, hact.trans (if_pos hwrap)⟩
        · exact ⟨.lock, _, hact.trans (if_neg hwrap)⟩
    | _ => cases hwants

/-- Every job has finished, hangs, goes on by itself or is at a lock. -/
theorem JobPhase.cases_of (phase : JobPhase ε π κ) :
    phase.isFinished = true ∨ phase.isHung = true ∨ phase.runs = true ∨
      ∃ l, phase.wants = some l := by
  cases phase with
  | wantsProgram elf => exact Or.inr (Or.inr (Or.inr ⟨_, rfl⟩))
  | wantsKeys p => exact Or.inr (Or.inr (Or.inr ⟨_, rfl⟩))
  | wantsWrap kept => exact Or.inr (Or.inr (Or.inr ⟨_, rfl⟩))
  | finished ok => exact Or.inl rfl
  | hung phase => exact Or.inr (Or.inl rfl)
  | _ => exact Or.inr (Or.inr (Or.inl rfl))

/-- A job that has finished has no lock. -/
theorem holds_finished (job : NodeJob π) (hphase : phase.isFinished = true)
    (l : NodeLock) : job.holds phase l = false := by
  cases phase with
  | finished ok => cases l <;> rfl
  | _ => cases hphase

/-- The job hangs, or waits for a lock that such a job has, or one that waits
    behind such a job. -/
def CacheNode.Held (n : CacheNode L ε π κ) :
    NodeJob π × JobPhase ε π κ → Prop :=
  Locks.Behind n.jobs (fun j l => j.1.holds j.2 l = true) (fun j => j.2.wants)
    fun j => j.2.isHung = true

/-- Nobody can take a step. -/
def CacheNode.Stuck (prover : GlobalProver ε π κ) (n : CacheNode L ε π κ) :
    Prop :=
  ∀ i deed, n.step prover (.work i deed) = none

/-- In a stuck state a job has finished, hangs, or is at a lock that is
    taken. -/
theorem CacheNode.Stuck.cases (h : n.Stuck prover)
    {j : NodeJob π × JobPhase ε π κ} (hj : j ∈ n.jobs) :
    j.2.isFinished = true ∨ j.2.isHung = true ∨ ∃ l, j.2.wants = some l ∧
      ∃ k ∈ n.jobs, k.1.holds k.2 l = true := by
  obtain ⟨i, hi⟩ := List.mem_iff_getElem?.mp hj
  have hno : ¬ ∃ deed out,
      j.1.act prover n.free n.caches j.2 deed = some out := by
    rintro ⟨deed, out, hact⟩
    have hnone := h i deed
    rw [CacheNode.step, hi] at hnone
    dsimp only at hnone
    rw [hact] at hnone
    exact nomatch hnone
  rcases j.2.cases_of with hfin | hhung | hruns | ⟨l, hl⟩
  · exact Or.inl hfin
  · exact Or.inr (Or.inl hhung)
  · exact absurd (act_isSome (Or.inl hruns)) hno
  · refine Or.inr (Or.inr ⟨l, hl, ?_⟩)
    by_contra hfree
    refine hno (act_isSome (Or.inr ⟨l, hl, List.all_eq_true.mpr ?_⟩))
    intro k hk
    rw [Bool.not_eq_true', ← Bool.not_eq_true]
    exact fun hh => hfree ⟨k, hk, hh⟩

/-- A job that hangs does so for ever. -/
theorem Took.not_hung (h : Took prover job free c (.hung phase) phase' c') :
    False := by
  cases h with
  | failed _ hruns => cases hruns
  | hung _ hruns => cases hruns

/-- How far a job is from its end. -/
def JobPhase.remaining : JobPhase ε π κ → Nat
  | .starting => 10
  | .wantsProgram _ => 9
  | .inProgram _ => 8
  | .hasProgram _ => 7
  | .wantsKeys _ => 6
  | .inKeys _ => 5
  | .proving _ _ => 4
  | .wantsWrap _ => 3
  | .inWrap _ => 2
  | .wrapped _ => 1
  | .finished _ => 0
  | .hung _ => 0

/-- A step brings a job nearer to its end. -/
theorem Took.remaining (h : Took prover job free c phase phase' c') :
    phase'.remaining < phase.remaining := by
  have hruns : ∀ phase : JobPhase ε π κ, phase.runs = true →
      0 < phase.remaining := by
    intro phase h
    cases phase with
    | finished ok => cases h
    | hung phase => cases h
    | _ => exact Nat.succ_pos _
  cases h with
  | failed phase hphase => exact hruns phase hphase
  | hung phase hphase => exact hruns phase hphase
  | _ => exact of_decide_eq_true rfl

/-- How far all the jobs are from their end. -/
def remainingAll : List (NodeJob π × JobPhase ε π κ) → Nat
  | [] => 0
  | j :: jobs => j.2.remaining + remainingAll jobs

/-- A job that moves is nearer to its end, and the others are where they
    were. -/
theorem remaining_set {jobs : List (NodeJob π × JobPhase ε π κ)} {i : Nat}
    (hi : jobs[i]? = some (job, phase))
    (hlt : phase'.remaining < phase.remaining) :
    remainingAll (jobs.set i (job, phase')) + 1 ≤ remainingAll jobs := by
  induction jobs generalizing i with
  | nil => cases hi
  | cons j jobs ih =>
      cases i with
      | zero =>
          cases hi
          show phase'.remaining + remainingAll jobs + 1
            ≤ phase.remaining + remainingAll jobs
          omega
      | succ i =>
          have hrest := ih hi
          show j.2.remaining + remainingAll (jobs.set i (job, phase')) + 1
            ≤ j.2.remaining + remainingAll jobs
          omega

/-- A step of a job, not the start of one. -/
def CacheAct.isWork : CacheAct ε π → Bool
  | .submit _ => false
  | .work _ _ => true

/-- The steps of a run are paid for by what remained. -/
theorem run_remaining {acts : List (CacheAct ε π)}
    (hwork : ∀ a ∈ acts, a.isWork = true)
    (hrun : run (CacheNode.step prover) n acts = some n') :
    acts.length + remainingAll n'.jobs ≤ remainingAll n.jobs := by
  induction acts generalizing n with
  | nil => cases hrun; exact Nat.le_of_eq (Nat.zero_add _)
  | cons a acts ih =>
      obtain ⟨u, hs, hr⟩ := run_cons.mp hrun
      have hrest := ih (fun b hb => hwork b (List.mem_cons_of_mem a hb)) hr
      rcases CacheNode.step_cases hs with ⟨job, rfl, _⟩ |
        ⟨i, deed, job, phase, phase', c', _, hi, htook, rfl⟩
      · cases hwork _ (List.mem_cons_self ..)
      · have hless := remaining_set hi htook.remaining
        rw [List.length_cons]
        exact Nat.le_trans (Nat.le_of_eq (Nat.add_right_comm ..))
          (Nat.le_trans (Nat.succ_le_succ hrest) hless)

/-- **NO DEADLOCK**: whoever is scheduled, the jobs of a node come to rest,
    and then each has finished, hangs, or waits behind a job that hangs. -/
theorem jobs_wait (prover : GlobalProver ε π κ) (n : CacheNode L ε π κ) :
    ∃ bound, ∀ (acts : List (CacheAct ε π)) (n' : CacheNode L ε π κ),
      (∀ a ∈ acts, a.isWork = true) →
      run (CacheNode.step prover) n acts = some n' →
      acts.length ≤ bound ∧ (n'.Stuck prover →
        ∀ j ∈ n'.jobs, j.2.isFinished = true ∨ n'.Held j) := by
  refine ⟨remainingAll n.jobs, fun acts n' hwork hrun => ⟨?_, ?_⟩⟩
  · exact Nat.le_trans (Nat.le_add_right ..) (run_remaining hwork hrun)
  · intro hstuck j hj
    have hheld : ∀ k ∈ n'.jobs, ∀ l, k.1.holds k.2 l = true → n'.Held k := by
      intro k hk l hl
      refine Locks.behind_of_order NodeLock.rank 3
        (fun l => by cases l <;> decide)
        (fun _ _ hw _ hh => holds_below hw hh) ?_ hk hl
      rintro t ht ⟨l, hl⟩
      rcases hstuck.cases ht with hfin | hhung | hwait
      · exact nomatch hl.symm.trans (holds_finished t.1 hfin l)
      · exact Or.inl hhung
      · exact Or.inr hwait
    rcases hstuck.cases hj with hfin | hhung | ⟨l, hl, k, hk, hh⟩
    · exact Or.inl hfin
    · exact Or.inr (.self j hhung)
    · exact Or.inr (.waits j k l hl hk hh (hheld k hk l hh))

/-- The split hangs in its threads, and the proof has come to the first
    cache. -/
def splitHangs : List (CacheAct Nat Nat) := splitAtWork ++ [.work 0 .hang]

/-- They are at rest: the proof waits behind the split. -/
theorem jobs_wait_split : ∃ n : CacheNode listCache Nat Nat Nat,
    run (CacheNode.step smallProver) (.new listCache) splitHangs = some n ∧
      n.Stuck smallProver ∧
      ∃ j ∈ n.jobs, j.2.wants = some .programCache ∧ n.Held j := by
  obtain ⟨n, hrun, hall, hfree, j, hj, hlock⟩ := run_of_check
    (CacheNode.step smallProver)
    (.new listCache : CacheNode listCache Nat Nat Nat) splitHangs
    (fun n => (∀ j ∈ n.jobs, j.2.isHung = true ∨
        j.2.wants = some .programCache) ∧ n.free .programCache = false ∧
      ∃ j ∈ n.jobs, j.2.wants = some .programCache) (by decide +kernel)
  -- the one hangs, and the lock of the other is taken
  have hstuck : n.Stuck smallProver := by
    intro i deed
    cases hs : n.step smallProver (.work i deed) with
    | none => rfl
    | some n' =>
        rcases CacheNode.step_cases hs with ⟨job, hno, _⟩ |
          ⟨_, _, job, phase, phase', c', _, hi, htook, _⟩
        · cases hno
        · rcases hall _ (List.mem_of_getElem? hi) with hhung | hwants
          · cases phase with
            | hung phase => exact htook.not_hung.elim
            | _ => cases hhung
          · cases htook with
            | lockProgram elf hyes => exact nomatch hfree.symm.trans hyes
            | failed phase hruns => rw [JobPhase.runs, hwants] at hruns; cases hruns
            | hung phase hruns => rw [JobPhase.runs, hwants] at hruns; cases hruns
            | _ => cases hwants
  obtain ⟨bound, hwait⟩ := jobs_wait smallProver n
  refine ⟨n, hrun, hstuck, j, hj, hlock, ?_⟩
  rcases (hwait [] n (fun a ha => absurd ha List.not_mem_nil) rfl).2 hstuck j hj
    with hfin | hheld
  · obtain ⟨job, phase⟩ := j
    cases phase with
    | finished ok => cases hlock
    | _ => cases hfin
  · exact hheld

/-! ## What a job that hangs holds up -/

/-- A job at the wrap has a program and keys with it, unless it is one that
    only wraps. -/
def NodeJob.Wraps (job : NodeJob π) : JobPhase ε π κ → Prop
  | .wantsWrap none => job.work = .snark
  | .inWrap none => job.work = .snark
  | .wrapped none => job.work = .snark
  | .hung phase => job.Wraps phase
  | _ => True

/-- Only a job that does nothing but wrap comes to the wrap without keys. -/
theorem Took.wraps (h : Took prover job free c phase phase' c')
    (hw : job.Wraps phase) : job.Wraps phase' := by
  cases h with
  | toWrap hwork => exact hwork
  | lockWrap kept _ => cases kept <;> exact hw
  | passWrap kept _ => cases kept <;> exact hw
  | wrap kept => cases kept <;> exact hw
  | hung phase _ => exact hw
  | _ => trivial

/-- In every reachable state that is so of every job. -/
theorem CacheNode.Reachable.wraps (h : CacheNode.Reachable prover n) :
    ∀ j ∈ n.jobs, j.1.Wraps j.2 := by
  refine h.inv (I := fun n => ∀ j ∈ n.jobs, j.1.Wraps j.2)
    (fun j hj => absurd hj List.not_mem_nil) ?_ ?_
  · intro n job hn j hj
    rcases List.mem_append.mp hj with hj | hj
    · exact hn j hj
    · rw [List.mem_singleton.mp hj]
      trivial
  · intro n i job phase phase' c' hn hi htook j hj
    rcases List.mem_or_eq_of_mem_set hj with hold | rfl
    · exact hn j hold
    · exact htook.wraps (hn _ (List.mem_of_getElem? hi))

/-- The job is not at the caches and will not get past them, as long as they
    are taken. -/
def JobPhase.Outside : JobPhase ε π κ → Prop
  | .starting => True
  | .wantsProgram _ => True
  | .wantsKeys _ => True
  | .finished ok => ok = false
  | .hung _ => True
  | _ => False

/-- A job without the caches is outside, has its result, or only wraps. -/
theorem outside_of (hw : job.Wraps phase)
    (hprogram : job.holds phase .programCache = false)
    (hkeys : job.holds phase .keyCache = false) :
    job.work = .snark ∨ phase.Outside ∨ phase = .finished true := by
  cases phase with
  | inProgram elf => cases hprogram
  | hasProgram p => cases hprogram
  | inKeys p => cases hkeys
  | proving p k => cases hkeys
  | wantsWrap kept =>
      cases kept with
      | none => exact Or.inl hw
      | some _ => cases hkeys
  | inWrap kept =>
      cases kept with
      | none => exact Or.inl hw
      | some _ => cases hkeys
  | wrapped kept =>
      cases kept with
      | none => exact Or.inl hw
      | some _ => cases hkeys
  | finished ok =>
      cases ok with
      | false => exact Or.inr (Or.inl rfl)
      | true => exact Or.inr (Or.inr rfl)
  | _ => exact Or.inr (Or.inl trivial)

/-- With both caches taken a job stays outside. -/
theorem Took.outside (h : Took prover job free c phase phase' c')
    (hprogram : free .programCache = false) (hkeys : free .keyCache = false)
    (ho : phase.Outside) : job.work = .snark ∨ phase'.Outside := by
  cases h with
  | toWrap hwork => exact Or.inl hwork
  | toProgram elf => exact Or.inr trivial
  | toKeys p _ => exact Or.inr trivial
  -- the two locks are taken
  | lockProgram elf hfree => exact nomatch hprogram.symm.trans hfree
  | lockKeys p hfree => exact nomatch hkeys.symm.trans hfree
  | failed phase _ => exact Or.inr rfl
  | hung phase _ => exact Or.inr trivial
  | _ => exact ho.elim

/-- The `i`-th job hangs with both caches since the state `n₀`; of the others
    none has got past them. -/
structure CacheNode.Blocked (n₀ : CacheNode L ε π κ) (i : Nat)
    (job : NodeJob π) (phase : JobPhase ε π κ) (n : CacheNode L ε π κ) :
    Prop where
  hung : n.jobs[i]? = some (job, .hung phase)
  others : ∀ (k : Nat) (job' : NodeJob π) (phase' : JobPhase ε π κ),
    n.jobs[k]? = some (job', phase') →
    job'.work = .snark ∨ phase'.Outside ∨
      phase' = .finished true ∧ n₀.jobs[k]? = some (job', .finished true)

/-- The job goes on hanging, and nobody gets past it. -/
theorem CacheNode.Blocked.step {n₀ : CacheNode L ε π κ} {i : Nat}
    (h : n₀.Blocked i job phase n)
    (hprogram : job.holds phase .programCache = true)
    (hkeys : job.holds phase .keyCache = true)
    (hs : n.step prover a = some n') : n₀.Blocked i job phase n' := by
  have htaken : ∀ l, job.holds phase l = true → n.free l = false := by
    intro l hl
    rw [← Bool.not_eq_true]
    exact fun hfree => nomatch (free_of hfree h.hung).symm.trans hl
  rcases CacheNode.step_cases hs with ⟨new, _, rfl⟩ |
    ⟨m, deed, mover, at', to', c', _, hm, htook, rfl⟩
  · -- a job that comes in has not been to the caches
    obtain ⟨hlt, _⟩ := List.getElem?_eq_some_iff.mp h.hung
    refine ⟨(List.getElem?_append_left hlt).trans h.hung, ?_⟩
    intro k job' phase' hk
    rcases getElem?_submit_cases hk with hnew | hold
    · cases hnew
      exact Or.inr (Or.inl trivial)
    · exact h.others k job' phase' hold
  · have hne : m ≠ i := by
      rintro rfl
      cases hm.symm.trans h.hung
      exact htook.not_hung
    refine ⟨(List.getElem?_set_ne hne).trans h.hung, ?_⟩
    intro k job' phase' hk
    rcases getElem?_set_cases hm hk with ⟨rfl, hsame⟩ | ⟨_, hold⟩
    · cases hsame
      rcases h.others m mover at' hm with hsnark | hout | ⟨hfin, _⟩
      · exact Or.inl hsnark
      · rcases htook.outside (htaken _ hprogram) (htaken _ hkeys) hout with
          hsnark | hout
        · exact Or.inl hsnark
        · exact Or.inr (Or.inl hout)
      · -- a finished job takes no step
        cases hfin
        cases htook with
        | failed _ hruns => cases hruns
        | hung _ hruns => cases hruns
    · exact h.others k job' phase' hold

/-- **BLOCKED**: once a job hangs with both caches, as a split does when its
    threads do not come to an end, no split, no proof and no single-node job
    of the node ever gets a result, however many are submitted and whoever is
    scheduled; only those that have it already, and the wraps. -/
theorem hung_job_blocks (h : CacheNode.Reachable prover n) {i : Nat}
    (hi : n.jobs[i]? = some (job, .hung phase))
    (hprogram : job.holds phase .programCache = true)
    (hkeys : job.holds phase .keyCache = true) {acts : List (CacheAct ε π)}
    (hrun : run (CacheNode.step prover) n acts = some n') :
    n'.jobs[i]? = some (job, .hung phase) ∧
    ∀ (k : Nat) (job' : NodeJob π), n'.jobs[k]? = some (job', .finished true) →
      job'.work = .snark ∨ n.jobs[k]? = some (job', .finished true) := by
  have hstart : n.Blocked i job phase n := by
    refine ⟨hi, fun k job' phase' hk => ?_⟩
    by_cases hki : k = i
    · cases hki
      cases hk.symm.trans hi
      exact Or.inr (Or.inl trivial)
    · -- what the job that hangs has, no other one has
      have hnot : ∀ l, job.holds phase l = true →
          job'.holds phase' l = false := by
        intro l hl
        rw [← Bool.not_eq_true]
        exact fun hh => hki (h.exclusive l k i _ _ hk hi hh hl)
      rcases outside_of (h.wraps _ (List.mem_of_getElem? hk))
        (hnot _ hprogram) (hnot _ hkeys) with hsnark | hout | hfin
      · exact Or.inl hsnark
      · exact Or.inr (Or.inl hout)
      · cases hfin
        exact Or.inr (Or.inr ⟨rfl, hk⟩)
  have hend : n.Blocked i job phase n' :=
    run_inv (fun _ _ _ hb hs => hb.step hprogram hkeys hs) hstart hrun
  refine ⟨hend.hung, fun k job' hk => ?_⟩
  rcases hend.others k job' _ hk with hsnark | hout | ⟨_, hold⟩
  · exact Or.inl hsnark
  · cases hout
  · exact Or.inr hold

/-- A record, whose proof does without the first cache, and a wrap come in
    behind the split that hangs. -/
def behindSplit : List (CacheAct Nat Nat) :=
  [.submit ⟨"a", .record 8⟩, .submit ⟨"b", .snark⟩, .work 2 (.begin none),
    .work 3 (.begin none), .work 3 .lock, .work 3 .next, .work 3 .next]

/-- The wrap has its result, the proof waits. -/
theorem hung_job_blocks_split : ∃ n n' : CacheNode listCache Nat Nat Nat,
    run (CacheNode.step smallProver) (.new listCache) splitHangs = some n ∧
      run (CacheNode.step smallProver) n behindSplit = some n' ∧
      (n'.jobs.map fun j => j.2.isFinished) = [false, false, false, true] ∧
      ∀ (k : Nat) (job : NodeJob Nat),
        n'.jobs[k]? = some (job, .finished true) →
          job.work = .snark ∨ n.jobs[k]? = some (job, .finished true) := by
  obtain ⟨n, hrun, hheld, hnext⟩ := run_of_check (CacheNode.step smallProver)
    (.new listCache : CacheNode listCache Nat Nat Nat) splitHangs
    (fun n => (n.jobs[0]?.any fun j => j.2.isHung &&
        j.1.holds j.2 .programCache && j.1.holds j.2 .keyCache) = true ∧
      (run (CacheNode.step smallProver) n behindSplit).any (fun n' =>
        decide ((n'.jobs.map fun j => j.2.isFinished)
          = [false, false, false, true])) = true) (by decide +kernel)
  obtain ⟨n', hrun', hfin⟩ := (Option.any_eq_true _ _).mp hnext
  obtain ⟨⟨job, phase⟩, hi, hboth⟩ := (Option.any_eq_true _ _).mp hheld
  rw [Bool.and_eq_true, Bool.and_eq_true] at hboth
  obtain ⟨⟨hhung, hprogram⟩, hkeys⟩ := hboth
  cases phase with
  | hung phase =>
      exact ⟨n, n', hrun, hrun', of_decide_eq_true hfin,
        (hung_job_blocks ⟨_, hrun⟩ hi hprogram hkeys hrun').2⟩
  | _ => cases hhung

/-! ## What a job finds in the caches -/

/-- The program a job works with, and its keys. -/
def JobPhase.program : JobPhase ε π κ → Option π
  | .hasProgram p => some p
  | .wantsKeys p => some p
  | .inKeys p => some p
  | .proving p _ => some p
  | .wantsWrap kept => kept.map Prod.fst
  | .inWrap kept => kept.map Prod.fst
  | .wrapped kept => kept.map Prod.fst
  | .hung phase => phase.program
  | _ => none

/-- The keys a job works with. -/
def JobPhase.keys : JobPhase ε π κ → Option κ
  | .proving _ k => some k
  | .wantsWrap kept => kept.map Prod.snd
  | .inWrap kept => kept.map Prod.snd
  | .wrapped kept => kept.map Prod.snd
  | .hung phase => phase.keys
  | _ => none

/-- The program was generated from an ELF that some job with this program id
    read, or comes with a record that was given for this id. -/
def CacheNode.Source (prover : GlobalProver ε π κ) (n : CacheNode L ε π κ)
    (id : String) (p : π) : Prop :=
  (∃ e, (id, e) ∈ n.caches.reads ∧ prover.getProgram e = some p) ∨
    ∃ j ∈ n.jobs, j.1 = ⟨id, .record p⟩

/-- The keys are those of such a program. -/
def CacheNode.KeySource (prover : GlobalProver ε π κ) (n : CacheNode L ε π κ)
    (id : String) (k : κ) : Prop :=
  ∃ p, n.Source prover id p ∧ k = prover.setup p

/-- Everything that is found in the caches, and everything a job works with,
    has a source for its own program id. -/
structure CacheNode.Sourced (prover : GlobalProver ε π κ)
    (n : CacheNode L ε π κ) : Prop where
  programs : ∀ id p, L.Finds n.caches.programs id p → n.Source prover id p
  keys : ∀ id k, L.Finds n.caches.keys id k → n.KeySource prover id k
  jobs : ∀ j ∈ n.jobs,
    (∀ p, j.2.program = some p → n.Source prover j.1.programId p) ∧
    (∀ k, j.2.keys = some k → n.KeySource prover j.1.programId k)

/-- Reads and jobs are not forgotten. -/
def CacheNode.Grows (n n' : CacheNode L ε π κ) : Prop :=
  (∀ r ∈ n.caches.reads, r ∈ n'.caches.reads) ∧
    ∀ j ∈ n.jobs, ∃ j' ∈ n'.jobs, j'.1 = j.1

/-- A source stays one. -/
theorem CacheNode.Source.mono {id : String} {p : π}
    (h : n.Source prover id p) (hgrows : n.Grows n') :
    n'.Source prover id p := by
  rcases h with ⟨e, he, hp⟩ | ⟨j, hj, hjob⟩
  · exact Or.inl ⟨e, hgrows.1 _ he, hp⟩
  · obtain ⟨j', hj', hsame⟩ := hgrows.2 j hj
    exact Or.inr ⟨j', hj', hsame.trans hjob⟩

/-- So does that of keys. -/
theorem CacheNode.KeySource.mono {id : String} {k : κ}
    (h : n.KeySource prover id k) (hgrows : n.Grows n') :
    n'.KeySource prover id k := by
  obtain ⟨p, hp, hk⟩ := h
  exact ⟨p, hp.mono hgrows, hk⟩

/-- What a lookup leaves: what is found under an id was found there before, or
    was generated from an ELF that has been read for this id. -/
theorem lookup_finds (hlru : L.Lawful) {id : String} {elf : Option ε}
    (h : c.lookup prover id elf = (phase', c')) :
    c'.keys = c.keys ∧ (∀ r ∈ c.reads, r ∈ c'.reads) ∧
      (∀ id' p, L.Finds c'.programs id' p → L.Finds c.programs id' p ∨
        id' = id ∧ ∃ e, (id, e) ∈ c'.reads ∧ prover.getProgram e = some p) ∧
      (∀ p, phase' = .hasProgram p → L.Finds c.programs id p ∨
        ∃ e, (id, e) ∈ c'.reads ∧ prover.getProgram e = some p) := by
  have hold : ∀ id' p, L.Finds (L.get c.programs id).2 id' p →
      L.Finds c.programs id' p := fun id' p => hlru.get _ _ _ _
  rcases lookup_cases prover c id elf with
    ⟨p, hp, hlook⟩ | hlook | ⟨e, p, hgen, hlook⟩
  · cases hlook.symm.trans h
    refine ⟨rfl, fun _ hr => hr, fun id' p' hf => Or.inl (hold id' p' hf), ?_⟩
    intro p' hp'
    cases hp'
    exact Or.inl hp
  · cases hlook.symm.trans h
    exact ⟨rfl, fun _ hr => hr, fun id' p' hf => Or.inl (hold id' p' hf),
      fun _ hno => nomatch hno⟩
  · -- the program is pushed, and looked up again
    have hpushed : ∀ id' p', L.Finds (L.push (L.get c.programs id).2 id p) id' p' →
        L.Finds c.programs id' p' ∨ id' = id ∧ ∃ e', (id, e') ∈
          (id, e) :: c.reads ∧ prover.getProgram e' = some p' := by
      intro id' p' hf
      rcases hlru.push _ _ _ _ _ hf with ⟨hid, rfl⟩ | hf
      · exact Or.inr ⟨hid, e, List.mem_cons_self .., hgen⟩
      · exact Or.inl (hold id' p' hf)
    have hlast : ∀ id' p', L.Finds (L.get (L.push (L.get c.programs id).2 id p)
        id).2 id' p' → L.Finds c.programs id' p' ∨ id' = id ∧ ∃ e', (id, e') ∈
          (id, e) :: c.reads ∧ prover.getProgram e' = some p' :=
      fun id' p' hf => hpushed id' p' (hlru.get _ _ _ _ hf)
    rcases foundProgram_cases { c with reads := (id, e) :: c.reads }
      (L.get (L.push (L.get c.programs id).2 id p) id) with
        ⟨p', hgot, hfound⟩ | hfound <;>
      cases (hlook.trans hfound).symm.trans h
    · refine ⟨rfl, fun _ hr => List.mem_cons_of_mem _ hr, hlast, ?_⟩
      intro p'' hp''
      cases hp''
      exact (hpushed id p' hgot).imp_right And.right
    · exact ⟨rfl, fun _ hr => List.mem_cons_of_mem _ hr, hlast,
        fun _ hno => nomatch hno⟩

/-- The same for the keys, which come from the program the job has. -/
theorem setup_finds (hlru : L.Lawful) {id : String} {p : π}
    (h : c.setup prover id p = (phase', c')) :
    c'.programs = c.programs ∧ c'.reads = c.reads ∧
      (∀ id' k, L.Finds c'.keys id' k → L.Finds c.keys id' k ∨
        id' = id ∧ k = prover.setup p) ∧
      (∀ k, phase' = .proving p k →
        L.Finds c.keys id k ∨ k = prover.setup p) := by
  have hold : ∀ id' k, L.Finds (L.get c.keys id).2 id' k →
      L.Finds c.keys id' k := fun id' k => hlru.get _ _ _ _
  rcases setup_cases prover c id p with ⟨k, hk, hset⟩ | hset
  · cases hset.symm.trans h
    refine ⟨rfl, rfl, fun id' k' hf => Or.inl (hold id' k' hf), ?_⟩
    intro k' hk'
    cases hk'
    exact Or.inl hk
  · have hpushed : ∀ id' k, L.Finds (L.push (L.get c.keys id).2 id
        (prover.setup p)) id' k → L.Finds c.keys id' k ∨
          id' = id ∧ k = prover.setup p := by
      intro id' k hf
      exact (hlru.push _ _ _ _ _ hf).symm.imp_left (hold id' k)
    have hlast : ∀ id' k, L.Finds (L.get (L.push (L.get c.keys id).2 id
        (prover.setup p)) id).2 id' k → L.Finds c.keys id' k ∨
          id' = id ∧ k = prover.setup p :=
      fun id' k hf => hpushed id' k (hlru.get _ _ _ _ hf)
    rcases foundKeys_cases c p
      (L.get (L.push (L.get c.keys id).2 id (prover.setup p)) id) with
        ⟨k, hgot, hfound⟩ | hfound <;>
      cases (hset.trans hfound).symm.trans h
    · refine ⟨rfl, rfl, hlast, ?_⟩
      intro k' hk'
      cases hk'
      exact (hpushed id k hgot).imp_right And.right
    · exact ⟨rfl, rfl, hlast, fun _ hno => nomatch hno⟩

/-- No ELF that was read is forgotten. -/
theorem Took.reads (hlru : L.Lawful)
    (h : Took prover job free c phase phase' c') :
    ∀ r ∈ c.reads, r ∈ c'.reads := by
  cases h with
  | program elf file p c' hlook => exact (lookup_finds hlru hlook).2.1
  | noProgram elf file c' hlook => exact (lookup_finds hlru hlook).2.1
  | keys p k c' hset => rw [(setup_finds hlru hset).2.1]; exact fun r hr => hr
  | noKeys p c' hset => rw [(setup_finds hlru hset).2.1]; exact fun r hr => hr
  | _ => exact fun r hr => hr

/-- A step of a job forgets nothing. -/
theorem grows_set {i : Nat} (hi : n.jobs[i]? = some (job, phase))
    (hreads : ∀ r ∈ n.caches.reads, r ∈ c'.reads) :
    n.Grows ⟨c', n.jobs.set i (job, phase')⟩ := by
  refine ⟨hreads, ?_⟩
  intro j hj
  obtain ⟨k, hk⟩ := List.mem_iff_getElem?.mp hj
  obtain ⟨hlt, _⟩ := List.getElem?_eq_some_iff.mp hi
  by_cases hik : i = k
  · cases hik
    cases hi.symm.trans hk
    exact ⟨_, List.mem_of_getElem? (List.getElem?_set_self hlt), rfl⟩
  · exact ⟨j, List.mem_of_getElem? ((List.getElem?_set_ne hik).trans hk), rfl⟩

/-- A step of a job leaves the caches with sources, and the job with what it
    works with. -/
theorem Took.sourced (hlru : L.Lawful)
    (h : Took prover job n.free n.caches phase phase' c')
    (hn : n.Sourced prover) {i : Nat} (hi : n.jobs[i]? = some (job, phase)) :
    CacheNode.Sourced prover ⟨c', n.jobs.set i (job, phase')⟩ := by
  have hgrows : n.Grows ⟨c', n.jobs.set i (job, phase')⟩ :=
    grows_set hi (h.reads hlru)
  have hprograms : ∀ id p, L.Finds n.caches.programs id p →
      CacheNode.Source prover ⟨c', n.jobs.set i (job, phase')⟩ id p :=
    fun id p hf => (hn.programs id p hf).mono hgrows
  have hkeys : ∀ id k, L.Finds n.caches.keys id k →
      CacheNode.KeySource prover ⟨c', n.jobs.set i (job, phase')⟩ id k :=
    fun id k hf => (hn.keys id k hf).mono hgrows
  obtain ⟨hp, hk⟩ := hn.jobs _ (List.mem_of_getElem? hi)
  -- what is left is the entry that is put in, and the job that moves
  have hjobs : (∀ p, phase'.program = some p →
        CacheNode.Source prover ⟨c', n.jobs.set i (job, phase')⟩
          job.programId p) →
      (∀ k, phase'.keys = some k →
        CacheNode.KeySource prover ⟨c', n.jobs.set i (job, phase')⟩
          job.programId k) →
      ∀ j ∈ n.jobs.set i (job, phase'),
        (∀ p, j.2.program = some p →
          CacheNode.Source prover ⟨c', n.jobs.set i (job, phase')⟩
            j.1.programId p) ∧
        (∀ k, j.2.keys = some k →
          CacheNode.KeySource prover ⟨c', n.jobs.set i (job, phase')⟩
            j.1.programId k) := by
    intro hprogram hkey j hj
    rcases List.mem_or_eq_of_mem_set hj with hold | rfl
    · obtain ⟨hp, hk⟩ := hn.jobs j hold
      exact ⟨fun p hpe => (hp p hpe).mono hgrows,
        fun k hke => (hk k hke).mono hgrows⟩
    · exact ⟨hprogram, hkey⟩
  have hsame : (∀ p, phase'.program = some p → phase.program = some p) →
      (∀ k, phase'.keys = some k → phase.keys = some k) →
      ∀ j ∈ n.jobs.set i (job, phase'),
        (∀ p, j.2.program = some p →
          CacheNode.Source prover ⟨c', n.jobs.set i (job, phase')⟩
            j.1.programId p) ∧
        (∀ k, j.2.keys = some k →
          CacheNode.KeySource prover ⟨c', n.jobs.set i (job, phase')⟩
            j.1.programId k) :=
    fun hsp hsk => hjobs (fun p hpe => (hp p (hsp p hpe)).mono hgrows)
      fun k hke => (hk k (hsk k hke)).mono hgrows
  cases h with
  | toKeys p hwork =>
      -- a record brings its program with it
      refine ⟨hprograms, hkeys, hjobs ?_ fun k hke => nomatch hke⟩
      rintro _ ⟨⟩
      obtain ⟨hlt, _⟩ := List.getElem?_eq_some_iff.mp hi
      refine Or.inr ⟨_, List.mem_of_getElem? (List.getElem?_set_self hlt), ?_⟩
      rw [← hwork]
  | program elf file p c' hlook =>
      -- found in the cache, or generated from what has just been read
      obtain ⟨hsamekeys, _, hfinds, hgot⟩ := lookup_finds hlru hlook
      have hread : (∃ e, (job.programId, e) ∈ c'.reads ∧
          prover.getProgram e = some p) → CacheNode.Source prover
            ⟨c', n.jobs.set i (job, .hasProgram p)⟩ job.programId p := Or.inl
      refine ⟨?_, fun id k hf => hkeys id k (hsamekeys ▸ hf), hjobs ?_
        fun k hke => nomatch hke⟩
      · intro id p' hf
        rcases hfinds id p' hf with hf | ⟨rfl, hgen⟩
        · exact hprograms id p' hf
        · exact Or.inl hgen
      · rintro _ ⟨⟩
        exact (hgot p rfl).elim (hprograms _ p) hread
  | noProgram elf file c' hlook =>
      obtain ⟨hsamekeys, _, hfinds, _⟩ := lookup_finds hlru hlook
      refine ⟨?_, fun id k hf => hkeys id k (hsamekeys ▸ hf),
        hsame (fun _ h => nomatch h) fun _ h => nomatch h⟩
      intro id p' hf
      rcases hfinds id p' hf with hf | ⟨rfl, hgen⟩
      · exact hprograms id p' hf
      · exact Or.inl hgen
  | keys p k c' hset =>
      -- new keys are those of the job's program, which has its source
      obtain ⟨hsameprograms, _, hfinds, hgot⟩ := setup_finds hlru hset
      have hprogram := (hp p rfl).mono hgrows
      refine ⟨fun id p' hf => hprograms id p' (hsameprograms ▸ hf), ?_,
        hjobs ?_ ?_⟩
      · intro id k' hf
        rcases hfinds id k' hf with hf | ⟨rfl, rfl⟩
        · exact hkeys id k' hf
        · exact ⟨p, hprogram, rfl⟩
      · rintro _ ⟨⟩
        exact hprogram
      · rintro _ ⟨⟩
        rcases hgot k rfl with hf | rfl
        · exact hkeys _ k hf
        · exact ⟨p, hprogram, rfl⟩
  | noKeys p c' hset =>
      obtain ⟨hsameprograms, _, hfinds, _⟩ := setup_finds hlru hset
      have hprogram := (hp p rfl).mono hgrows
      refine ⟨fun id p' hf => hprograms id p' (hsameprograms ▸ hf), ?_,
        hsame (fun _ h => nomatch h) fun _ h => nomatch h⟩
      intro id k' hf
      rcases hfinds id k' hf with hf | ⟨rfl, rfl⟩
      · exact hkeys id k' hf
      · exact ⟨p, hprogram, rfl⟩
  | toProgram elf =>
      exact ⟨hprograms, hkeys, hsame (fun _ h => nomatch h) fun _ h => nomatch h⟩
  | toWrap _ =>
      exact ⟨hprograms, hkeys, hsame (fun _ h => nomatch h) fun _ h => nomatch h⟩
  | lockProgram elf _ =>
      exact ⟨hprograms, hkeys, hsame (fun _ h => nomatch h) fun _ h => nomatch h⟩
  | proved p k =>
      exact ⟨hprograms, hkeys, hsame (fun _ h => nomatch h) fun _ h => nomatch h⟩
  | ended kept =>
      exact ⟨hprograms, hkeys, hsame (fun _ h => nomatch h) fun _ h => nomatch h⟩
  | failed phase _ =>
      exact ⟨hprograms, hkeys, hsame (fun _ h => nomatch h) fun _ h => nomatch h⟩
  | _ => exact ⟨hprograms, hkeys, hsame (fun _ h => h) fun _ h => h⟩

/-- **SOURCES**: over every run the caches hold, and the jobs work with, what
    was generated for their ids. -/
theorem CacheNode.Reachable.sourced (hlru : L.Lawful)
    (h : CacheNode.Reachable prover n) : n.Sourced prover := by
  refine h.inv (I := fun n => n.Sourced prover) ?_ ?_
    fun n i job phase phase' c' hn hi htook => htook.sourced hlru hn hi
  · exact ⟨fun id p hf => absurd hf (hlru.new _ id p),
      fun id k hf => absurd hf (hlru.new _ id k),
      fun _ hj => absurd hj List.not_mem_nil⟩
  · intro n job hn
    have hgrows : n.Grows { n with jobs := n.jobs ++ [(job, .starting)] } :=
      ⟨fun _ hr => hr, fun j hj => ⟨j, List.mem_append_left _ hj, rfl⟩⟩
    refine ⟨fun id p hf => (hn.programs id p hf).mono hgrows,
      fun id k hf => (hn.keys id k hf).mono hgrows, ?_⟩
    intro j hj
    rcases List.mem_append.mp hj with hj | hj
    · obtain ⟨hp, hk⟩ := hn.jobs j hj
      exact ⟨fun p hpe => (hp p hpe).mono hgrows,
        fun k hke => (hk k hke).mono hgrows⟩
    · rw [List.mem_singleton.mp hj]
      exact ⟨(fun _ h => nomatch h), fun _ h => nomatch h⟩

/-- The ELFs and the records that were met agree with a table of ELFs by
    program id. -/
structure CacheNode.Named (prover : GlobalProver ε π κ) (n : CacheNode L ε π κ)
    (elfOf : String → ε) : Prop where
  reads : ∀ r ∈ n.caches.reads, r.2 = elfOf r.1
  records : ∀ j ∈ n.jobs, ∀ p, j.1.work = .record p →
    prover.getProgram (elfOf j.1.programId) = some p

/-- If ids stand for ELFs, a source is the program of the ELF. -/
theorem CacheNode.Source.named {elfOf : String → ε} (hnamed : n.Named prover elfOf)
    {id : String} {p : π} (h : n.Source prover id p) :
    prover.getProgram (elfOf id) = some p := by
  rcases h with ⟨e, he, hp⟩ | ⟨j, hj, hjob⟩
  · rw [← hnamed.reads _ he]
    exact hp
  · have hrecord := hnamed.records j hj p (by rw [hjob])
    rwa [hjob] at hrecord

/-- **AS GENERATED**: over any number of jobs in any order, whatever fails or
    panics, the program and the keys a job works with come from an ELF that a
    job with the same program id read on this node, or from a record given for
    that id.  If every program id stands for one ELF, each job has the program
    of that ELF and its keys, as if there were no caches. -/
theorem cached_as_generated (hlru : L.Lawful)
    (h : CacheNode.Reachable prover n)
    {j : NodeJob π × JobPhase ε π κ} (hj : j ∈ n.jobs) :
    (∀ p, j.2.program = some p → n.Source prover j.1.programId p) ∧
    (∀ k, j.2.keys = some k → n.KeySource prover j.1.programId k) ∧
    ∀ elfOf, n.Named prover elfOf →
      (∀ p, j.2.program = some p →
        prover.getProgram (elfOf j.1.programId) = some p) ∧
      (∀ k, j.2.keys = some k →
        (prover.getProgram (elfOf j.1.programId)).map prover.setup
          = some k) := by
  obtain ⟨hp, hk⟩ := (h.sourced hlru).jobs j hj
  refine ⟨hp, hk, ?_⟩
  intro elfOf hnamed
  refine ⟨fun p hpe => (hp p hpe).named hnamed, ?_⟩
  intro k hke
  obtain ⟨p, hsource, rfl⟩ := hk k hke
  rw [hsource.named hnamed]
  rfl

/-- The proof behind the split, which has read the ELF: it proves with the
    program of the ELF and its keys. -/
theorem cached_as_generated_hit : ∃ n : CacheNode listCache Nat Nat Nat,
    run (CacheNode.step smallProver) (.new listCache)
        (splitAtWork ++ provedBehind)
        = some n ∧ n.caches.reads = [("a", 7)] ∧
      ∃ j ∈ n.jobs, j.2.program = some 8 ∧ j.2.keys = some 16 ∧
        n.Source smallProver "a" 8 ∧ n.KeySource smallProver "a" 16 := by
  obtain ⟨n, hrun, hreads, hany⟩ := run_of_check (CacheNode.step smallProver)
    (.new listCache : CacheNode listCache Nat Nat Nat) (splitAtWork ++ provedBehind)
    (fun n => n.caches.reads = [("a", 7)] ∧
      (n.jobs.any fun j => j.1.programId = "a" ∧ j.2.program = some 8 ∧
        j.2.keys = some 16) = true) (by decide +kernel)
  obtain ⟨j, hj, hhas⟩ := List.any_eq_true.mp hany
  obtain ⟨hid, hp, hk⟩ := of_decide_eq_true hhas
  obtain ⟨hsource, hkeys, _⟩ :=
    cached_as_generated listCache_lawful ⟨_, hrun⟩ hj
  exact ⟨n, hrun, hreads, j, hj, hp, hk, hid ▸ hsource 8 hp,
    hid ▸ hkeys 16 hk⟩

end

end ZkmProver
