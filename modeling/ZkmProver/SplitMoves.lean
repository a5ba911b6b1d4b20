import ZkmProver.Disk
import ZkmProver.Splitter

/-! # Split moves — what a step of the splitter does

    `SplitMoved` says what each action does, and `kinds` puts together those
    that neither number a segment nor rename a file.  A worker that takes
    numbers gets those of `number_spec`: its records have the next shards, and
    its files the next names. -/

namespace ZkmProver

open Machine Rename

variable {ι σ ρ : Type} [DecidableEq ι]

/-! ## Names -/

theorem digits_of_segmentName {k : Nat} {c : Char}
    (h : c ∈ (segmentName k).toList) : c.isDigit = true :=
  Decimal.isDigit_of_mem h

/-- Different segments have different files. -/
theorem segmentName_inj {j k : Nat} (h : segmentName j = segmentName k) :
    j = k := Decimal.repr_inj h

/-- A name with a letter is not that of a segment. -/
theorem segmentName_ne {k : Nat} {name : String} {c : Char}
    (hc : c ∈ name.toList) (hdigit : c.isDigit = false) :
    segmentName k ≠ name := by
  rintro rfl
  exact nomatch hdigit.symm.trans (digits_of_segmentName hc)

theorem segmentName_ne_tmp (k : Nat) (path : String) :
    segmentName k ≠ tmp path := by
  refine segmentName_ne (c := 't') ?_ rfl
  rw [tmp, String.toList_append]
  exact List.mem_append_right _ (by decide)

theorem segmentName_ne_text (k : Nat) : segmentName k ≠ segmentsTxt :=
  segmentName_ne (c := 's') (by decide) rfl

theorem text_ne_tmp (k : Nat) : segmentsTxt ≠ tmp (segmentName k) := by
  intro h
  have hs : 's' ∈ (tmp (segmentName k)).toList := by
    rw [← h]
    decide
  rw [tmp, String.toList_append, List.mem_append] at hs
  rcases hs with hdigit | htmp
  · cases digits_of_segmentName hdigit
  · exact absurd htmp (by decide)

theorem proof_ne (i : Nat) {name : String} (hd : 'd' ∉ name.toList) :
    name ≠ proofName i := by
  rintro rfl
  refine hd ?_
  rw [proofName, String.toList_append]
  exact List.mem_append_left _ (by decide)

theorem not_d_segmentName (k : Nat) : 'd' ∉ (segmentName k).toList :=
  fun h => nomatch digits_of_segmentName h

theorem not_d_tmp (k : Nat) : 'd' ∉ (tmp (segmentName k)).toList := by
  rw [tmp, String.toList_append, List.mem_append]
  rintro (h | h)
  · exact not_d_segmentName k h
  · exact absurd h (by decide)

/-- The deferred proofs are written beside everything else. -/
theorem putProofs_frame (store : Store) (proofs : List (Nat × List UInt8))
    {name : String} (hd : 'd' ∉ name.toList) :
    (putProofs store proofs).files name = store.files name ∧
      (putProofs store proofs).renames = store.renames := by
  induction proofs generalizing store with
  | nil => exact ⟨rfl, rfl⟩
  | cons proof proofs ih =>
      obtain ⟨i, proof⟩ := proof
      obtain ⟨hfiles, hrenames⟩ := ih
        (if proof = [] then store else store.put (proofName i) proof)
      rw [putProofs, hfiles, hrenames]
      split
      case isTrue => exact ⟨rfl, rfl⟩
      case isFalse => exact ⟨Function.update_of_ne (proof_ne i hd) .., rfl⟩

/-! ## Numbers for a checkpoint -/

theorem ofNat_succ (n : Nat) : UInt32.ofNat n + 1 = UInt32.ofNat (n + 1) :=
  (UInt32.ofNat_add n 1).symm

/-- Records that are stamped one after the other have the next shards. -/
theorem stampRecords_shard
    {update : PublicValues → PublicValues → PublicValues}
    (hupdate : ∀ s r, (update s r).shard = s.shard + 1) {state : PublicValues}
    {n : Nat} (hstate : state.shard = UInt32.ofNat n)
    (rs : List (ExecutionRecord ρ)) :
    (stampRecords update state rs).1.shard = UInt32.ofNat (n + rs.length) ∧
      (stampRecords update state rs).2.length = rs.length ∧
      ∀ (j : Nat) (r : ExecutionRecord ρ),
        (stampRecords update state rs).2[j]? = some r →
          r.publicValues.shard = UInt32.ofNat (n + j + 1) := by
  induction rs generalizing state n with
  | nil => exact ⟨hstate, rfl, fun j r h => nomatch h⟩
  | cons r rs ih =>
      have hnext : (update state r.publicValues).shard
          = UInt32.ofNat (n + 1) := by
        rw [hupdate, hstate, ofNat_succ]
      obtain ⟨hlast, hlen, hall⟩ := ih hnext
      rw [stampRecords]
      refine ⟨?_, ?_, ?_⟩
      · rw [hlast, List.length_cons, Nat.add_assoc, Nat.add_comm 1]
      · rw [List.length_cons, hlen, List.length_cons]
      · intro j x hx
        cases j with
        | zero =>
            cases hx
            exact hnext
        | succ j =>
            rw [hall j x hx]
            congr 1
            omega

/-- The segments of a checkpoint behind `base` earlier ones. -/
structure Numbered (exe : σ) (base : Nat) (segments : List (Segment σ ρ)) :
    Prop where
  shape  : ∃ (pv : PublicValues) (rs : List (ExecutionRecord ρ)),
    segments = .State exe pv :: rs.map .Record
  shards : ∀ (j : Nat) (seg : Segment σ ρ), segments[j]? = some seg →
    seg.publicValues.shard = UInt32.ofNat (base + j + 1)

theorem Numbered.pos {exe : σ} {base : Nat} {segments : List (Segment σ ρ)}
    (h : Numbered exe base segments) : 0 < segments.length := by
  obtain ⟨pv, rs, rfl⟩ := h.shape
  exact Nat.zero_lt_succ _

/-- What a stretch is when it gets its numbers. -/
def newStretch (done : Bool) (base : Nat) (segments : List (Segment σ ρ)) :
    Stretch σ ρ where
  done := done
  base := base
  total := base + segments.length
  segments := segments
  text := .idle
  passed := false
  phase := fun _ => .idle

/-- The worker takes its numbers. -/
theorem number_spec {s s' : Splitter ι σ ρ} {w : ι} {t : Traced σ ρ}
    {deferred : List (ExecutionRecord ρ)} (hone : t.records.length = 1)
    (hstate : s.state.shard = UInt32.ofNat s.segmentIndex)
    (h : s.number w t deferred = some s') :
    ∃ segments state, Numbered t.exeState s.segmentIndex segments ∧
      state.shard = UInt32.ofNat (s.segmentIndex + segments.length) ∧
      s' =
        { s.setWorker w (.busy (newStretch t.done s.segmentIndex segments)) with
          guard := some w
          state := state
          segmentIndex := s.segmentIndex + segments.length
          reserved := s.reserved ++ [(t.index, segments)] } := by
  obtain ⟨r, hr⟩ := List.length_eq_one_iff.mp hone
  have hcpu : ∀ a b : PublicValues, (a.cpuShard b).shard = a.shard + 1 :=
    fun _ _ => rfl
  have hdef : ∀ a b : PublicValues, (a.deferredShard b).shard = a.shard + 1 :=
    fun _ _ => rfl
  rw [Splitter.number, hr] at h
  dsimp only [stampRecords] at h
  -- the state behind the one record, with the execution shard moved or not
  have hmid : ∀ b : Bool,
      (if b then s.state.cpuShard r.publicValues
        else { s.state.cpuShard r.publicValues with
          executionShard :=
            (s.state.cpuShard r.publicValues).executionShard + 1 }).shard
        = UInt32.ofNat (s.segmentIndex + 1) := by
    intro b
    have hmoved : (s.state.cpuShard r.publicValues).shard
        = UInt32.ofNat (s.segmentIndex + 1) := by
      rw [hcpu, hstate, ofNat_succ]
    cases b <;> exact hmoved
  obtain ⟨hlast, hlen, hall⟩ :=
    stampRecords_shard hdef (hmid t.done) deferred
  generalize stampRecords PublicValues.deferredShard _ deferred = stamped
    at h hlast hlen hall
  obtain ⟨state, rs⟩ := stamped
  dsimp only at h hlast hlen hall
  have hlength : s.segmentIndex + ([r].length + rs.length)
      = s.segmentIndex + (Segment.State (ρ := ρ) t.exeState
        (s.state.cpuShard r.publicValues) :: rs.map .Record).length := by
    rw [List.length_singleton, List.length_cons, List.length_map,
      Nat.add_comm 1]
  refine ⟨.State t.exeState (s.state.cpuShard r.publicValues)
    :: rs.map .Record, state, ⟨⟨_, rs, rfl⟩, ?_⟩, ?_, ?_⟩
  · intro j seg hseg
    cases j with
    | zero =>
        cases hseg
        show (s.state.cpuShard r.publicValues).shard = _
        rw [hcpu, hstate, ofNat_succ]
    | succ j =>
        rw [List.getElem?_cons_succ, List.getElem?_map,
          Option.map_eq_some_iff] at hseg
        obtain ⟨x, hx, rfl⟩ := hseg
        show x.publicValues.shard = _
        rw [hall j x hx]
        congr 1
        omega
  · rw [hlast, ← hlength, hlen, List.length_singleton]
    congr 1
    omega
  · rw [← Option.some.inj h, newStretch, ← hlength]
    rfl

/-! ## Steps -/

/-- What a step does, action by action. -/
inductive SplitMoved (out : Outside σ ρ) (s : Splitter ι σ ρ) :
    Splitter ι σ ρ → Prop where
  | send (exeState : σ) (done : Bool) (hg : s.generator = .running) :
      SplitMoved out s
        { s with
          queue := s.queue ++ [(s.sent.length, exeState, done)]
          sent := s.sent ++ [exeState]
          generator := if done then .ended else .running }
  | fail (hg : s.generator = .running) :
      SplitMoved out s { s with generator := .failed }
  | recv (w : ι) (index : Nat) (exeState : σ) (done : Bool)
      (queue : List (Nat × σ × Bool)) (hw : s.workers w = .receiving)
      (hq : s.queue = (index, exeState, done) :: queue) :
      SplitMoved out s
        { s.setWorker w (.waiting
            ⟨index, exeState, done, out.traceCheckpoint exeState⟩) with
          queue := queue }
  | exit (w : ι) (hw : s.workers w = .receiving) (hq : s.queue = [])
      (hg : s.generator ≠ .running) :
      SplitMoved out s (s.setWorker w .exited)
  | waitForTurn (w : ι) (t : Traced σ ρ) (hw : s.workers w = .waiting t)
      (ha : out.admits s.turn t.index = true) :
      SplitMoved out s (s.setWorker w (.admitted t))
  | number (w : ι) (t : Traced σ ρ) (deferred : List (ExecutionRecord ρ))
      (s' : Splitter ι σ ρ) (hw : s.workers w = .admitted t)
      (hg : s.guard = none) (hs : s.number w t deferred = some s') :
      SplitMoved out s s'
  | writeText (w : ι) (b : Stretch σ ρ) (k : Nat) (text : Phase)
      (store : Store) (hw : s.workers w = .busy b)
      (hs : s.store.writeFile segmentsTxt (textOf b.total) k b.text
        = some (text, store)) :
      SplitMoved out s
        { s.setWorker w (.busy { b with text := text }) with store := store }
  | advanceTurn (w : ι) (b : Stretch σ ρ) (hw : s.workers w = .busy b)
      (ht : b.text = .renamed) (hp : b.passed = false) :
      SplitMoved out s
        { s.setWorker w (.busy { b with passed := true }) with
          turn := s.turn + 1 }
  | writeSegment (w : ι) (b : Stretch σ ρ) (j k : Nat) (segment : Segment σ ρ)
      (phase : Phase) (store : Store) (hw : s.workers w = .busy b)
      (hj : b.segments[j]? = some segment) (hp : b.passed = true)
      (hs : s.store.writeFile (segmentName (b.base + j))
        (out.encode segment) k (b.phase j) = some (phase, store)) :
      SplitMoved out s
        { s.setWorker w (.busy
            { b with phase := Function.update b.phase j phase }) with
          store := store }
  | release (w : ι) (b : Stretch σ ρ) (hw : s.workers w = .busy b)
      (hp : b.passed = true) (hg : s.guard = some w) :
      SplitMoved out s { s with guard := none }
  | finish (w : ι) (b : Stretch σ ρ) (proofs : List (Nat × List UInt8))
      (hw : s.workers w = .busy b) (hp : b.passed = true)
      (hall : ∀ j < b.segments.length, b.phase j = .renamed) :
      SplitMoved out s
        { s.setWorker w .receiving with
          guard := if s.guard = some w then none else s.guard
          store := if b.done then putProofs s.store proofs else s.store }

/-- Every step of the splitter is one of the moves. -/
theorem splitMoved {out : Outside σ ρ} {s s' : Splitter ι σ ρ}
    {a : SplitAct ι σ ρ} (h : s.step out a = some s') :
    SplitMoved out s s' := by
  cases a with
  | send exeState done =>
      dsimp only [Splitter.step] at h
      split at h
      case isTrue hg =>
        cases h
        exact .send exeState done hg
      case isFalse => exact nomatch h
  | fail =>
      dsimp only [Splitter.step] at h
      split at h
      case isTrue hg =>
        cases h
        exact .fail hg
      case isFalse => exact nomatch h
  | recv w =>
      dsimp only [Splitter.step] at h
      split at h
      case h_1 index exeState done queue hw hq =>
        cases h
        exact .recv w index exeState done queue hw hq
      case h_2 => exact nomatch h
  | exit w =>
      dsimp only [Splitter.step] at h
      split at h
      case h_1 hw hq =>
        split at h
        case isTrue => exact nomatch h
        case isFalse hg =>
          cases h
          exact .exit w hw hq hg
      case h_2 => exact nomatch h
  | waitForTurn w =>
      dsimp only [Splitter.step] at h
      split at h
      case h_1 t hw =>
        split at h
        case isTrue ha =>
          cases h
          exact .waitForTurn w t hw ha
        case isFalse => exact nomatch h
      case h_2 => exact nomatch h
  | number w deferred =>
      dsimp only [Splitter.step] at h
      split at h
      case h_1 t hw hg => exact .number w t deferred s' hw hg h
      case h_2 => exact nomatch h
  | writeText w k =>
      dsimp only [Splitter.step] at h
      split at h
      case h_1 b hw =>
        obtain ⟨⟨text, store⟩, hs, rfl⟩ := Option.map_eq_some_iff.mp h
        exact .writeText w b k text store hw hs
      case h_2 => exact nomatch h
  | advanceTurn w =>
      dsimp only [Splitter.step] at h
      split at h
      case h_1 b hw =>
        split at h
        case isTrue hif =>
          cases h
          exact .advanceTurn w b hw hif.1 hif.2
        case isFalse => exact nomatch h
      case h_2 => exact nomatch h
  | writeSegment w j k =>
      dsimp only [Splitter.step] at h
      split at h
      case h_1 b hw =>
        split at h
        case h_1 segment hj hp =>
          obtain ⟨⟨phase, store⟩, hs, rfl⟩ := Option.map_eq_some_iff.mp h
          exact .writeSegment w b j k segment phase store hw hj hp hs
        case h_2 => exact nomatch h
      case h_2 => exact nomatch h
  | release w =>
      dsimp only [Splitter.step] at h
      split at h
      case h_1 b hw =>
        split at h
        case isTrue hif =>
          cases h
          exact .release w b hw hif.1 hif.2
        case isFalse => exact nomatch h
      case h_2 => exact nomatch h
  | finish w proofs =>
      dsimp only [Splitter.step] at h
      split at h
      case h_1 b hw =>
        split at h
        case isTrue hif =>
          cases h
          exact .finish w b proofs hw hif.1 hif.2
        case isFalse => exact nomatch h
      case h_2 => exact nomatch h

/-! ## What is seen of a worker -/

/-- The checkpoint it has no numbers for yet. -/
def Worker.checkpoint : Worker σ ρ → Option (Traced σ ρ)
  | .waiting t => some t
  | .admitted t => some t
  | _ => none

/-- The index it was let in with. -/
def Worker.letIn : Worker σ ρ → Option Nat
  | .admitted t => some t.index
  | _ => none

/-- The segments a worker is writing. -/
def Worker.stretch : Worker σ ρ → Option (Stretch σ ρ)
  | .busy b => some b
  | _ => none

/-- It has numbers and has not passed the turn on. -/
def Worker.hasTurn : Worker σ ρ → Bool
  | .busy b => !b.passed
  | _ => false

theorem Worker.hasTurn_eq {x : Worker σ ρ} {b : Stretch σ ρ}
    (hx : x.stretch = some b) : x.hasTurn = !b.passed := by
  cases x with
  | busy c =>
      cases hx
      rfl
  | receiving | waiting | admitted | exited => exact nomatch hx

namespace Splitter

variable (s : Splitter ι σ ρ) (w : ι) (x : Worker σ ρ)

theorem setWorker_self : (s.setWorker w x).workers w = x :=
  Function.update_self ..

variable {w}

theorem setWorker_ne {w' : ι} (h : w' ≠ w) :
    (s.setWorker w x).workers w' = s.workers w' :=
  Function.update_of_ne h ..

omit [DecidableEq ι] in
theorem flat_congr {s s' : Splitter ι σ ρ} (h : s'.reserved = s.reserved) :
    s'.flat = s.flat := by
  rw [flat, h, flat]

omit [DecidableEq ι] in
/-- A checkpoint that takes numbers appends its segments. -/
theorem flat_concat {s s' : Splitter ι σ ρ} {e : Nat × List (Segment σ ρ)}
    (h : s'.reserved = s.reserved ++ [e]) : s'.flat = s.flat ++ e.2 := by
  rw [flat, h, List.flatMap_append, List.flatMap_singleton, flat]

/-- Of a worker that looks the same, nothing has changed. -/
theorem view_setWorker {β : Type} (f : Worker σ ρ → β) {x y : Worker σ ρ}
    (hw : s.workers w = y) (h : f x = f y) (w' : ι) :
    f ((s.setWorker w x).workers w') = f (s.workers w') := by
  by_cases hww : w' = w
  · subst hww
    rw [setWorker_self, h, hw]
  · rw [setWorker_ne s x hww]

/-- A worker that is set to something else has not exited. -/
theorem exited_of_setWorker {x : Worker σ ρ} {w' : ι}
    (h : (s.setWorker w x).workers w' = .exited) (hx : x ≠ .exited) :
    s.workers w' = .exited := by
  by_cases hww : w' = w
  · subst hww
    exact absurd ((s.setWorker_self w' x).symm.trans h) hx
  · exact (s.setWorker_ne x hww).symm.trans h

section
variable {s s' : Splitter ι σ ρ} {b : Stretch σ ρ}
  (h : s'.workers = (s.setWorker w (.busy b)).workers)
include h

theorem stretch_self : (s'.workers w).stretch = some b := by
  rw [h, setWorker_self]
  rfl

theorem stretch_ne {w' : ι} (hww : w' ≠ w) :
    (s'.workers w').stretch = (s.workers w').stretch := by
  rw [h, setWorker_ne s _ hww]

/-- A stretch is that of the worker that moved, or was there before. -/
theorem stretch_cases {w' : ι} {b' : Stretch σ ρ}
    (hb' : (s'.workers w').stretch = some b') :
    w' = w ∧ b' = b ∨ w' ≠ w ∧ (s.workers w').stretch = some b' := by
  by_cases hww : w' = w
  · subst hww
    exact Or.inl ⟨rfl, Option.some.inj (hb'.symm.trans (stretch_self h))⟩
  · exact Or.inr ⟨hww, (stretch_ne h hww).symm.trans hb'⟩

end

end Splitter

/-! ## Steps that give no numbers -/

/-- The same segments under the same numbers. -/
structure Stretch.Same (b b' : Stretch σ ρ) : Prop where
  base     : b'.base = b.base
  total    : b'.total = b.total
  segments : b'.segments = b.segments
  passed   : b'.passed = false → b.passed = false

theorem Stretch.Same.refl (b : Stretch σ ρ) : b.Same b := ⟨rfl, rfl, rfl, id⟩

/-- A step that gives no numbers and renames no file. -/
structure Quiet (s s' : Splitter ι σ ρ) : Prop where
  reserved : s'.reserved = s.reserved
  count    : s'.segmentIndex = s.segmentIndex
  state    : s'.state = s.state
  sent     : ∃ more, s'.sent = s.sent ++ more
  files    : ∀ name : String, 'd' ∉ name.toList →
    s'.store.files name = s.store.files name
  renames  : s'.store.renames = s.store.renames
  stretch    : ∀ w b', (s'.workers w).stretch = some b' →
    ∃ b, (s.workers w).stretch = some b ∧ b.Same b' ∧
      b'.text = b.text ∧ b'.phase = b.phase ∧
        (b'.passed = true → b.passed = true ∨ b.text = .renamed)
  gone     : ∀ w b, (s.workers w).stretch = some b →
    (∃ b', (s'.workers w).stretch = some b') ∨
      b.passed = true ∧ ∀ j < b.segments.length, b.phase j = .renamed

omit [DecidableEq ι] in
theorem Quiet.of_stretch {s s' : Splitter ι σ ρ}
    (hreserved : s'.reserved = s.reserved)
    (hcount : s'.segmentIndex = s.segmentIndex) (hstate : s'.state = s.state)
    (hsent : ∃ more, s'.sent = s.sent ++ more) (hstore : s'.store = s.store)
    (hview : ∀ w, (s'.workers w).stretch = (s.workers w).stretch) :
    Quiet s s' := by
  refine ⟨hreserved, hcount, hstate, hsent, fun name _ => by rw [hstore],
    by rw [hstore], fun w b' hb' => ?_, fun w b hb => ?_⟩
  · exact ⟨b', hview w ▸ hb', .refl b', rfl, rfl, Or.inl⟩
  · exact Or.inl ⟨b, (hview w).trans hb⟩

/-- A step is quiet, or it is one of three. -/
theorem SplitMoved.kinds {out : Outside σ ρ} {s s' : Splitter ι σ ρ}
    (hm : SplitMoved out s s') :
    Quiet s s' ∨
      (∃ w t deferred, s.workers w = .admitted t ∧ s.guard = none ∧
        s.number w t deferred = some s') ∨
      (∃ w b k text store, s.workers w = .busy b ∧
        s.store.writeFile segmentsTxt (textOf b.total) k b.text
          = some (text, store) ∧
        s' = { s.setWorker w (.busy { b with text := text }) with
          store := store }) ∨
      ∃ (w : ι) (b : Stretch σ ρ) (j k : Nat) (segment : Segment σ ρ)
        (phase : Phase) (store : Store), s.workers w = .busy b ∧
        b.segments[j]? = some segment ∧ b.passed = true ∧
        s.store.writeFile (segmentName (b.base + j)) (out.encode segment) k
          (b.phase j) = some (phase, store) ∧
        s' = { s.setWorker w (.busy
          { b with phase := Function.update b.phase j phase }) with
            store := store } := by
  cases hm with
  | send exeState done hg =>
      exact Or.inl (.of_stretch rfl rfl rfl ⟨_, rfl⟩ rfl fun _ => rfl)
  | fail hg =>
      exact Or.inl (.of_stretch rfl rfl rfl ⟨[], (List.append_nil _).symm⟩ rfl
        fun _ => rfl)
  | recv w index exeState done queue hw hq =>
      exact Or.inl (.of_stretch rfl rfl rfl ⟨[], (List.append_nil _).symm⟩ rfl
        (s.view_setWorker Worker.stretch hw rfl))
  | exit w hw hq hg =>
      exact Or.inl (.of_stretch rfl rfl rfl ⟨[], (List.append_nil _).symm⟩ rfl
        (s.view_setWorker Worker.stretch hw rfl))
  | waitForTurn w t hw ha =>
      exact Or.inl (.of_stretch rfl rfl rfl ⟨[], (List.append_nil _).symm⟩ rfl
        (s.view_setWorker Worker.stretch hw rfl))
  | number w t deferred _ hw hg hs =>
      exact Or.inr (Or.inl ⟨w, t, deferred, hw, hg, hs⟩)
  | writeText w b k text store hw hs =>
      exact Or.inr (Or.inr (Or.inl ⟨w, b, k, text, store, hw, hs, rfl⟩))
  | advanceTurn w b hw ht hp =>
      refine Or.inl ⟨rfl, rfl, rfl, ⟨[], (List.append_nil _).symm⟩,
        fun _ _ => rfl, rfl, fun w' b' hb' => ?_, fun w' b' hb' => ?_⟩
      · rcases Splitter.stretch_cases rfl hb' with ⟨rfl, rfl⟩ | ⟨-, hb'⟩
        · rw [hw]
          exact ⟨b, rfl, ⟨rfl, rfl, rfl, nofun⟩, rfl, rfl, fun _ => Or.inr ht⟩
        · exact ⟨b', hb', .refl b', rfl, rfl, Or.inl⟩
      · refine Or.inl ?_
        dsimp only
        by_cases hww : w' = w
        · subst hww
          rw [Splitter.setWorker_self]
          exact ⟨_, rfl⟩
        · rw [Splitter.setWorker_ne s _ hww]
          exact ⟨b', hb'⟩
  | writeSegment w b j k segment phase store hw hj hp hs =>
      exact Or.inr (Or.inr (Or.inr
        ⟨w, b, j, k, segment, phase, store, hw, hj, hp, hs, rfl⟩))
  | release w b hw hp hg =>
      exact Or.inl (.of_stretch rfl rfl rfl ⟨[], (List.append_nil _).symm⟩ rfl
        fun _ => rfl)
  | finish w b proofs hw hp hall =>
      have hproofs : ∀ name : String, 'd' ∉ name.toList →
          (if b.done then putProofs s.store proofs else s.store).files name
              = s.store.files name ∧
            (if b.done then putProofs s.store proofs
              else s.store).renames = s.store.renames := by
        intro name hname
        split
        · exact putProofs_frame s.store proofs hname
        · exact ⟨rfl, rfl⟩
      refine Or.inl ⟨rfl, rfl, rfl, ⟨[], (List.append_nil _).symm⟩,
        fun name hname => (hproofs name hname).1, (hproofs "" nofun).2,
        fun w' b' hb' => ?_, fun w' b' hb' => ?_⟩
      · dsimp only at hb'
        by_cases hww : w' = w
        · subst hww
          rw [Splitter.setWorker_self] at hb'
          exact nomatch hb'
        · rw [Splitter.setWorker_ne s _ hww] at hb'
          exact ⟨b', hb', .refl b', rfl, rfl, Or.inl⟩
      · dsimp only
        by_cases hww : w' = w
        · subst hww
          rw [hw] at hb'
          cases hb'
          exact Or.inr ⟨hp, hall⟩
        · rw [Splitter.setWorker_ne s _ hww]
          exact Or.inl ⟨b', hb'⟩

end ZkmProver
