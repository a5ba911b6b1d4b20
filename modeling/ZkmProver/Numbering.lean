import ZkmProver.SplitMoves

/-! # Numbering — the line, the turn and the numbers

    `Line` is about who has which checkpoint: those that have numbers are the
    first ones.  `Baton` is about the turn: the next worker to take numbers
    has the next checkpoint.  `Numbers` is about the two counters, and what
    each worker holds of the numbered segments.  Every step keeps the three
    together (`Splits.moved`). -/

namespace ZkmProver

open Machine Rename

variable {ι σ ρ : Type} [DecidableEq ι]

/-! ## The line of checkpoints -/

/-- Of the checkpoints that were sent, the first ones have numbers, the last
    ones are in the channel, and each one between is with one worker. -/
structure Line (s : Splitter ι σ ρ) : Prop where
  order  : s.reserved.map (·.1) = List.range s.reserved.length
  room   : s.reserved.length + s.queue.length ≤ s.sent.length
  queued : ∀ (k : Nat) (e : Nat × σ × Bool), s.queue[k]? = some e →
    e.1 + s.queue.length = s.sent.length + k ∧ s.sent[e.1]? = some e.2.1
  held   : ∀ w t, (s.workers w).checkpoint = some t →
    s.reserved.length ≤ t.index ∧
      t.index + s.queue.length < s.sent.length ∧
      s.sent[t.index]? = some t.exeState ∧ t.records.length = 1
  apart  : ∀ w w' t t', (s.workers w).checkpoint = some t →
    (s.workers w').checkpoint = some t' → t.index = t'.index → w = w'
  found  : ∀ i, s.reserved.length ≤ i → i + s.queue.length < s.sent.length →
    ∃ w t, (s.workers w).checkpoint = some t ∧ t.index = i

omit [DecidableEq ι] in
/-- A step elsewhere leaves the line as it is. -/
theorem Line.congr {s s' : Splitter ι σ ρ} (h : Line s)
    (hsent : s'.sent = s.sent) (hqueue : s'.queue = s.queue)
    (hreserved : s'.reserved = s.reserved)
    (hview : ∀ w, (s'.workers w).checkpoint = (s.workers w).checkpoint) :
    Line s' := by
  obtain ⟨horder, hroom, hqueued, hheld, hapart, hfound⟩ := h
  constructor
  · rw [hreserved]
    exact horder
  · rw [hsent, hqueue, hreserved]
    exact hroom
  · rw [hsent, hqueue]
    exact hqueued
  · intro w t ht
    rw [hsent, hqueue, hreserved]
    exact hheld w t (hview w ▸ ht)
  · intro w w' t t' ht ht'
    exact hapart w w' t t' (hview w ▸ ht) (hview w' ▸ ht')
  · intro i hlow hhigh
    rw [hreserved] at hlow
    rw [hsent, hqueue] at hhigh
    obtain ⟨w, t, ht, hi⟩ := hfound i hlow hhigh
    exact ⟨w, t, (hview w).trans ht, hi⟩

theorem getElem?_append_of_some {α : Type} {l m : List α} {i : Nat} {a : α}
    (h : l[i]? = some a) : (l ++ m)[i]? = some a := by
  have hlt : i < l.length := List.getElem?_eq_some_iff.mp h |>.1
  rw [List.getElem?_append_left hlt, h]

omit [DecidableEq ι] in
/-- The next checkpoint goes to the end of the line. -/
theorem Line.send {s : Splitter ι σ ρ} (h : Line s) (exeState : σ)
    (done : Bool) (g : Generator) :
    Line { s with
      queue := s.queue ++ [(s.sent.length, exeState, done)]
      sent := s.sent ++ [exeState]
      generator := g } := by
  obtain ⟨horder, hroom, hqueued, hheld, hapart, hfound⟩ := h
  refine ⟨horder, ?_, ?_, ?_, hapart, ?_⟩
  · dsimp only
    rw [List.length_append, List.length_append, List.length_singleton,
      List.length_singleton]
    omega
  · intro k e he
    dsimp only at he ⊢
    rw [List.length_append, List.length_append, List.length_singleton,
      List.length_singleton]
    rw [List.getElem?_append] at he
    split at he
    case isTrue hlt =>
      obtain ⟨hpos, hstate⟩ := hqueued k e he
      exact ⟨by omega, getElem?_append_of_some hstate⟩
    case isFalse hge =>
      rw [List.getElem?_singleton] at he
      split at he
      case isTrue hk =>
        cases he
        exact ⟨by dsimp only; omega, List.getElem?_concat_length⟩
      case isFalse => exact nomatch he
  · intro w t ht
    obtain ⟨hlow, hhigh, hstate, hone⟩ := hheld w t ht
    refine ⟨hlow, ?_, getElem?_append_of_some hstate, hone⟩
    dsimp only
    rw [List.length_append, List.length_append, List.length_singleton,
      List.length_singleton]
    omega
  · intro i hlow hhigh
    dsimp only at hlow hhigh
    rw [List.length_append, List.length_append, List.length_singleton,
      List.length_singleton] at hhigh
    exact hfound i hlow (by omega)

/-- A worker takes the first checkpoint of the channel. -/
theorem Line.recv {s : Splitter ι σ ρ} (h : Line s) {w : ι} {t : Traced σ ρ}
    {done : Bool} {queue : List (Nat × σ × Bool)}
    (hw : s.workers w = .receiving)
    (hq : s.queue = (t.index, t.exeState, done) :: queue)
    (hone : t.records.length = 1) :
    Line { s.setWorker w (.waiting t) with queue := queue } := by
  obtain ⟨horder, hroom, hqueued, hheld, hapart, hfound⟩ := h
  have hlen : s.queue.length = queue.length + 1 := by
    rw [hq, List.length_cons]
  obtain ⟨hpos, hstate⟩ :=
    hqueued 0 (t.index, t.exeState, done) (by rw [hq, List.getElem?_cons_zero])
  dsimp only at hpos hstate
  -- another worker has an earlier one
  have hother : ∀ w' t',
      ((s.setWorker w (.waiting t)).workers w').checkpoint = some t' →
        w' = w ∧ t' = t ∨ w' ≠ w ∧
          (s.workers w').checkpoint = some t' ∧ t'.index < t.index := by
    intro w' t' ht'
    by_cases hww : w' = w
    · subst hww
      rw [Splitter.setWorker_self] at ht'
      exact Or.inl ⟨rfl, (Option.some.inj ht').symm⟩
    · rw [Splitter.setWorker_ne s _ hww] at ht'
      have hhigh := (hheld w' t' ht').2.1
      exact Or.inr ⟨hww, ht', by omega⟩
  refine ⟨horder, ?_, ?_, ?_, ?_, ?_⟩
  · show s.reserved.length + queue.length ≤ s.sent.length
    omega
  · intro k e he
    obtain ⟨hk, hsent⟩ :=
      hqueued (k + 1) e (by rw [hq, List.getElem?_cons_succ]; exact he)
    refine ⟨?_, hsent⟩
    show e.1 + queue.length = s.sent.length + k
    omega
  · intro w' t' ht'
    show s.reserved.length ≤ t'.index ∧
      t'.index + queue.length < s.sent.length ∧ _
    rcases hother w' t' ht' with ⟨rfl, rfl⟩ | ⟨-, ht, -⟩
    · exact ⟨by omega, by omega, hstate, hone⟩
    · obtain ⟨hlow, hhigh, hrest⟩ := hheld w' t' ht
      exact ⟨hlow, by omega, hrest⟩
  · intro v v' u u' hu hu' hindex
    rcases hother v u hu with ⟨rfl, rfl⟩ | ⟨-, hu, hlt⟩
    · rcases hother v' u' hu' with ⟨rfl, -⟩ | ⟨-, -, hlt'⟩
      · rfl
      · omega
    · rcases hother v' u' hu' with ⟨rfl, rfl⟩ | ⟨-, hu', -⟩
      · omega
      · exact hapart v v' u u' hu hu' hindex
  · intro i hlow hhigh
    change i + queue.length < s.sent.length at hhigh
    by_cases hi : i = t.index
    · refine ⟨w, t, ?_, hi.symm⟩
      show ((s.setWorker w (.waiting t)).workers w).checkpoint = some t
      rw [Splitter.setWorker_self]
      rfl
    · obtain ⟨w', t', ht', hti⟩ := hfound i hlow (by omega)
      have hww : w' ≠ w := by
        rintro rfl
        rw [hw] at ht'
        exact nomatch ht'
      refine ⟨w', t', ?_, hti⟩
      show ((s.setWorker w (.waiting t)).workers w').checkpoint = some t'
      rw [Splitter.setWorker_ne s _ hww]
      exact ht'

/-- The first of the checkpoints that workers have gets its numbers. -/
theorem Line.number {s s' : Splitter ι σ ρ} (h : Line s) {w : ι}
    {t : Traced σ ρ} {b : Stretch σ ρ} {segments : List (Segment σ ρ)}
    (ht : (s.workers w).checkpoint = some t)
    (hfirst : t.index = s.reserved.length)
    (hsent : s'.sent = s.sent) (hqueue : s'.queue = s.queue)
    (hreserved : s'.reserved = s.reserved ++ [(t.index, segments)])
    (hworkers : s'.workers = (s.setWorker w (.busy b)).workers) :
    Line s' := by
  obtain ⟨horder, hroom, hqueued, hheld, hapart, hfound⟩ := h
  have hlen : s'.reserved.length = s.reserved.length + 1 := by
    rw [hreserved, List.length_append, List.length_singleton]
  have hother : ∀ w' t', (s'.workers w').checkpoint = some t' →
      w' ≠ w ∧ (s.workers w').checkpoint = some t' := by
    intro w' t' ht'
    rw [hworkers] at ht'
    by_cases hww : w' = w
    · subst hww
      rw [Splitter.setWorker_self] at ht'
      exact nomatch ht'
    · rw [Splitter.setWorker_ne s _ hww] at ht'
      exact ⟨hww, ht'⟩
  have hroom' := (hheld w t ht).2.1
  constructor
  · rw [hlen, List.range_succ, hreserved, List.map_append, horder,
      List.map_singleton, hfirst]
  · rw [hlen, hsent, hqueue]
    omega
  · rw [hsent, hqueue]
    exact hqueued
  · intro w' t' ht'
    obtain ⟨hne, ht'⟩ := hother w' t' ht'
    obtain ⟨hlow, hhigh, hrest⟩ := hheld w' t' ht'
    have hindex : t'.index ≠ t.index := fun heq =>
      hne (hapart w' w t' t ht' ht heq)
    rw [hlen, hsent, hqueue]
    exact ⟨by omega, hhigh, hrest⟩
  · intro v v' u u' hu hu'
    exact hapart v v' u u' (hother v u hu).2 (hother v' u' hu').2
  · intro i hlow hhigh
    rw [hlen] at hlow
    rw [hsent, hqueue] at hhigh
    obtain ⟨w', t', ht', hti⟩ := hfound i (by omega) hhigh
    have hww : w' ≠ w := by
      rintro rfl
      have htt : t' = t := Option.some.inj (ht'.symm.trans ht)
      subst htt
      omega
    refine ⟨w', t', ?_, hti⟩
    rw [hworkers, Splitter.setWorker_ne s _ hww]
    exact ht'

/-! ## The turn -/

/-- The turn is that of the next checkpoint, or it has not been passed on by
    the last one, which is then under the locks. -/
structure Baton (s : Splitter ι σ ρ) : Prop where
  letIn : ∀ w i, (s.workers w).letIn = some i → i ≤ s.turn
  taken : ∀ w, (s.workers w).hasTurn = true →
    s.guard = some w ∧ s.turn + 1 = s.reserved.length
  free  : (∀ w, (s.workers w).hasTurn = false) → s.turn = s.reserved.length

omit [DecidableEq ι] in
/-- It leaves the turn as it is. -/
theorem Baton.congr {s s' : Splitter ι σ ρ} (h : Baton s)
    (hletIn : ∀ w i, (s'.workers w).letIn = some i →
      (s.workers w).letIn = some i ∨ i ≤ s.turn)
    (hview : ∀ w, (s'.workers w).hasTurn = (s.workers w).hasTurn)
    (hguard : ∀ w, (s.workers w).hasTurn = true → s.guard = some w →
      s'.guard = some w)
    (hturn : s'.turn = s.turn) (hreserved : s'.reserved = s.reserved) :
    Baton s' := by
  constructor
  · intro w i hi
    rw [hturn]
    rcases hletIn w i hi with hi | hi
    · exact h.letIn w i hi
    · exact hi
  · intro w hw
    rw [hview] at hw
    obtain ⟨hg, hlen⟩ := h.taken w hw
    rw [hturn, hreserved]
    exact ⟨hguard w hw hg, hlen⟩
  · intro hall
    rw [hturn, hreserved]
    exact h.free fun w => (hview w).symm.trans (hall w)

omit [DecidableEq ι] in
/-- Nobody is under the locks: the turn is that of the next checkpoint. -/
theorem Baton.open {s : Splitter ι σ ρ} (h : Baton s) (hg : s.guard = none) :
    (∀ w, (s.workers w).hasTurn = false) ∧ s.turn = s.reserved.length := by
  have hall : ∀ w, (s.workers w).hasTurn = false := by
    intro w
    cases hw : (s.workers w).hasTurn with
    | false => rfl
    | true => cases hg.symm.trans (h.taken w hw).1
  exact ⟨hall, h.free hall⟩

/-- A worker takes the numbers of the next checkpoint. -/
theorem Baton.number {s s' : Splitter ι σ ρ} (h : Baton s) {w : ι}
    {b : Stretch σ ρ} {e : Nat × List (Segment σ ρ)} (hg : s.guard = none)
    (hp : b.passed = false) (hturn : s'.turn = s.turn)
    (hguard : s'.guard = some w) (hreserved : s'.reserved = s.reserved ++ [e])
    (hworkers : s'.workers = (s.setWorker w (.busy b)).workers) :
    Baton s' := by
  obtain ⟨hall, hlen⟩ := h.open hg
  have hw : (s'.workers w).hasTurn = true := by
    rw [hworkers, Splitter.setWorker_self, Worker.hasTurn, hp]
    rfl
  constructor
  · intro w' i hi
    rw [hworkers] at hi
    rw [hturn]
    by_cases hww : w' = w
    · subst hww
      rw [Splitter.setWorker_self] at hi
      exact nomatch hi
    · rw [Splitter.setWorker_ne s _ hww] at hi
      exact h.letIn w' i hi
  · intro w' hw'
    have hww : w' = w := by
      by_contra hne
      rw [hworkers, Splitter.setWorker_ne s _ hne, hall] at hw'
      exact nomatch hw'
    rw [hturn, hreserved, List.length_append, List.length_singleton, hlen, hww]
    exact ⟨hguard, rfl⟩
  · intro hnone
    exact nomatch (hnone w).symm.trans hw

/-- The worker that has the turn passes it on. -/
theorem Baton.advanceTurn {s : Splitter ι σ ρ} (h : Baton s) {w : ι}
    {b : Stretch σ ρ} (hw : s.workers w = .busy b) (hp : b.passed = false) :
    Baton { s.setWorker w (.busy { b with passed := true }) with
      turn := s.turn + 1 } := by
  have hhas : (s.workers w).hasTurn = true := by
    rw [hw, Worker.hasTurn, hp]
    rfl
  obtain ⟨hg, hlen⟩ := h.taken w hhas
  constructor
  · intro w' i hi
    have hview := s.view_setWorker Worker.letIn
      (x := .busy { b with passed := true }) hw rfl w'
    replace hi := hview.symm.trans hi
    exact Nat.le_succ_of_le (h.letIn w' i hi)
  · intro w' hw'
    dsimp only at hw'
    by_cases hww : w' = w
    · rw [hww, Splitter.setWorker_self] at hw'
      exact nomatch hw'
    · rw [Splitter.setWorker_ne s _ hww] at hw'
      have hg' := (h.taken w' hw').1
      exact absurd (Option.some.inj (hg'.symm.trans hg)) hww
  · intro _
    exact hlen

/-! ## The numbers of the segments -/

/-- The two counters are at the number of segments so far, and each stretch has
    a stretch of its own. -/
structure Numbers (s : Splitter ι σ ρ) : Prop where
  count  : s.segmentIndex = s.flat.length
  state  : s.state.shard = UInt32.ofNat s.flat.length
  shards : ∀ (k : Nat) (seg : Segment σ ρ), s.flat[k]? = some seg →
    seg.publicValues.shard = UInt32.ofNat (k + 1)
  shape  : ∀ e ∈ s.reserved, ∃ exe, s.sent[e.1]? = some exe ∧
    ∃ (pv : PublicValues) (rs : List (ExecutionRecord ρ)),
      e.2 = .State exe pv :: rs.map .Record
  slice  : ∀ w b, (s.workers w).stretch = some b →
    b.total = b.base + b.segments.length ∧ b.total ≤ s.flat.length ∧
      ∀ (j : Nat) (seg : Segment σ ρ), b.segments[j]? = some seg →
        s.flat[b.base + j]? = some seg
  last   : ∀ w b, (s.workers w).stretch = some b → b.passed = false →
    b.total = s.flat.length
  apart  : ∀ w w' b b', w ≠ w' → (s.workers w).stretch = some b →
    (s.workers w').stretch = some b' → b.total ≤ b'.base ∨ b'.total ≤ b.base

omit [DecidableEq ι] in
/-- It leaves the numbers as they are. -/
theorem Numbers.congr {s s' : Splitter ι σ ρ} (h : Numbers s)
    (hreserved : s'.reserved = s.reserved)
    (hcount : s'.segmentIndex = s.segmentIndex) (hstate : s'.state = s.state)
    (hsent : ∃ more, s'.sent = s.sent ++ more)
    (hstretch : ∀ w b', (s'.workers w).stretch = some b' →
      ∃ b, (s.workers w).stretch = some b ∧ b.Same b') :
    Numbers s' := by
  have hflat := Splitter.flat_congr hreserved
  constructor
  · rw [hcount, hflat]
    exact h.count
  · rw [hstate, hflat]
    exact h.state
  · rw [hflat]
    exact h.shards
  · rw [hreserved]
    intro e he
    obtain ⟨more, hmore⟩ := hsent
    obtain ⟨exe, hexe, hshape⟩ := h.shape e he
    rw [hmore]
    exact ⟨exe, getElem?_append_of_some hexe, hshape⟩
  · intro w b' hb'
    obtain ⟨b, hb, hsame⟩ := hstretch w b' hb'
    rw [hflat, hsame.total, hsame.base, hsame.segments]
    exact h.slice w b hb
  · intro w b' hb' hp
    obtain ⟨b, hb, hsame⟩ := hstretch w b' hb'
    rw [hflat, hsame.total]
    exact h.last w b hb (hsame.passed hp)
  · intro w w' b' c' hne hb' hc'
    obtain ⟨b, hb, hsame⟩ := hstretch w b' hb'
    obtain ⟨c, hc, hsame'⟩ := hstretch w' c' hc'
    rw [hsame.total, hsame.base, hsame'.total, hsame'.base]
    exact h.apart w w' b c hne hb hc

/-- The next segments get the next numbers. -/
theorem Numbers.number {s s' : Splitter ι σ ρ} (h : Numbers s) {w : ι}
    {t : Traced σ ρ} {segments : List (Segment σ ρ)}
    (hnumbered : Numbered t.exeState s.segmentIndex segments)
    (hsent : s.sent[t.index]? = some t.exeState)
    (hpassed : ∀ w, (s.workers w).hasTurn = false)
    (hshard : s'.state.shard
      = UInt32.ofNat (s.segmentIndex + segments.length))
    (hcount : s'.segmentIndex = s.segmentIndex + segments.length)
    (hsent' : s'.sent = s.sent)
    (hreserved : s'.reserved = s.reserved ++ [(t.index, segments)])
    (hworkers : s'.workers = (s.setWorker w
      (.busy (newStretch t.done s.segmentIndex segments))).workers) :
    Numbers s' := by
  have hflat : s'.flat = s.flat ++ segments := Splitter.flat_concat hreserved
  have hlen : s'.flat.length = s.segmentIndex + segments.length := by
    rw [hflat, List.length_append, h.count]
  constructor
  · rw [hcount, hlen]
  · rw [hshard, hlen]
  · intro k seg hk
    rw [hflat, List.getElem?_append] at hk
    split at hk
    case isTrue => exact h.shards k seg hk
    case isFalse hge =>
      rw [hnumbered.shards _ seg hk, h.count]
      congr 1
      omega
  · intro e he
    rw [hreserved, List.mem_append, List.mem_singleton] at he
    rw [hsent']
    rcases he with he | rfl
    · exact h.shape e he
    · exact ⟨t.exeState, hsent, hnumbered.shape⟩
  · intro w' b' hb'
    rw [hlen]
    rcases Splitter.stretch_cases hworkers hb' with ⟨rfl, rfl⟩ | ⟨-, hb'⟩
    · refine ⟨rfl, Nat.le_refl _, fun j seg hj => ?_⟩
      show s'.flat[s.segmentIndex + j]? = some seg
      rw [hflat, h.count, List.getElem?_append_right (Nat.le_add_right ..),
        Nat.add_sub_cancel_left]
      exact hj
    · obtain ⟨htotal, hle, hslice⟩ := h.slice w' b' hb'
      rw [h.count, hflat]
      exact ⟨htotal, by omega,
        fun j seg hj => getElem?_append_of_some (hslice j seg hj)⟩
  · intro w' b' hb' hp
    rw [hlen]
    rcases Splitter.stretch_cases hworkers hb' with ⟨rfl, rfl⟩ | ⟨-, hb'⟩
    · rfl
    · have hturn := hpassed w'
      rw [Worker.hasTurn_eq hb', hp] at hturn
      exact nomatch hturn
  · intro v v' b b' hne hb hb'
    rcases Splitter.stretch_cases hworkers hb with ⟨rfl, rfl⟩ | ⟨-, hb⟩
    · rcases Splitter.stretch_cases hworkers hb' with ⟨rfl, -⟩ | ⟨-, hb'⟩
      · exact absurd rfl hne
      · exact Or.inr (h.count ▸ (h.slice v' b' hb').2.1)
    · rcases Splitter.stretch_cases hworkers hb' with ⟨rfl, rfl⟩ | ⟨-, hb'⟩
      · exact Or.inl (h.count ▸ (h.slice v b hb).2.1)
      · exact h.apart v v' b b' hne hb hb'

/-! ## The invariant of the counters -/

/-- What is known of the threads at every moment. -/
structure Splits (s : Splitter ι σ ρ) : Prop where
  line    : Line s
  baton   : Baton s
  numbers : Numbers s
  ended   : s.generator = .ended → s.sent ≠ []
  exited  : ∀ w, s.workers w = .exited →
    s.queue = [] ∧ s.generator ≠ .running

section
variable {s s' : Splitter ι σ ρ}

omit [DecidableEq ι] in
/-- Whoever takes numbers has the next checkpoint. -/
theorem Splits.first (h : Splits s) {w : ι} {t : Traced σ ρ}
    (hw : s.workers w = .admitted t)
    (hg : s.guard = none) :
    t.index = s.reserved.length ∧ s.sent[t.index]? = some t.exeState ∧
      t.records.length = 1 := by
  have hcheckpoint : (s.workers w).checkpoint = some t := by
    rw [hw]
    rfl
  have hletIn : (s.workers w).letIn = some t.index := by
    rw [hw]
    rfl
  obtain ⟨hlow, -, hsent, hone⟩ := h.line.held w t hcheckpoint
  have hturn := (h.baton.open hg).2
  have hle := h.baton.letIn w t.index hletIn
  exact ⟨by omega, hsent, hone⟩

/-- The worker whose turn it is numbers its segments. -/
theorem Splits.number (h : Splits s) {w : ι} {t : Traced σ ρ}
    {deferred : List (ExecutionRecord ρ)} (hw : s.workers w = .admitted t)
    (hg : s.guard = none) (hs : s.number w t deferred = some s') :
    Splits s' := by
  obtain ⟨hfirst, hsent, hone⟩ := h.first hw hg
  have hshard : s.state.shard = UInt32.ofNat s.segmentIndex :=
    h.numbers.count ▸ h.numbers.state
  obtain ⟨segments, state, hnumbered, hlast, rfl⟩ :=
    number_spec hone hshard hs
  have hcheckpoint : (s.workers w).checkpoint = some t := by
    rw [hw]
    rfl
  refine ⟨h.line.number hcheckpoint hfirst rfl rfl rfl rfl,
    h.baton.number hg rfl rfl rfl rfl rfl,
    h.numbers.number hnumbered hsent (h.baton.open hg).1 hlast rfl rfl rfl rfl,
    h.ended, fun w' hw' => ?_⟩
  exact h.exited w' (s.exited_of_setWorker hw' nofun)

/-- A write changes nothing for the others. -/
theorem Splits.write (h : Splits s) {w : ι} {b : Stretch σ ρ}
    (b' : Stretch σ ρ) (store : Store) (hw : s.workers w = .busy b)
    (hsame : b.Same b') (hp : b'.passed = b.passed) :
    Splits { s.setWorker w (.busy b') with store := store } := by
  have hview : (Worker.busy b').hasTurn = (Worker.busy b).hasTurn := by
    rw [Worker.hasTurn, hp, Worker.hasTurn]
  refine ⟨h.line.congr rfl rfl rfl (s.view_setWorker Worker.checkpoint hw rfl),
    h.baton.congr (fun w' i hi => Or.inl ?_)
      (s.view_setWorker Worker.hasTurn hw hview) (fun _ _ hg => hg) rfl rfl,
    h.numbers.congr rfl rfl rfl ⟨[], (List.append_nil _).symm⟩
      fun w' c hc => ?_, h.ended, fun w' hw' => ?_⟩
  · exact (s.view_setWorker Worker.letIn (x := .busy b') hw rfl w').symm.trans
      hi
  · rcases Splitter.stretch_cases rfl hc with ⟨rfl, rfl⟩ | ⟨-, hc⟩
    · exact ⟨b, by rw [hw]; rfl, hsame⟩
    · exact ⟨c, hc, .refl c⟩
  · exact h.exited w' (s.exited_of_setWorker hw' nofun)

/-- **IN STEP**: every step keeps the line, the turn and the numbers. -/
theorem Splits.moved {out : Outside σ ρ}
    (htrace : ∀ exe, (out.traceCheckpoint exe).length = 1)
    (hadmits : ∀ t i, out.admits t i = true → i ≤ t) (h : Splits s)
    (hm : SplitMoved out s s') : Splits s' := by
  have hnumbers : Numbers s' := by
    rcases hm.kinds with hq | ⟨w, t, deferred, hw, hg, hs⟩ |
      ⟨w, b, k, text, store, hw, hs, rfl⟩ |
      ⟨w, b, j, k, segment, phase, store, hw, hj, hp, hs, rfl⟩
    · refine h.numbers.congr hq.reserved hq.count hq.state hq.sent
        fun w b' hb' => ?_
      obtain ⟨b, hb, hsame, -⟩ := hq.stretch w b' hb'
      exact ⟨b, hb, hsame⟩
    · exact (h.number hw hg hs).numbers
    · exact (h.write { b with text := text } store hw ⟨rfl, rfl, rfl, id⟩
        rfl).numbers
    · exact (h.write { b with phase := Function.update b.phase j phase } store
        hw ⟨rfl, rfl, rfl, id⟩ rfl).numbers
  cases hm with
  | send exeState done hg =>
      refine ⟨h.line.send exeState done _, h.baton.congr (fun _ _ => Or.inl)
        (fun _ => rfl) (fun _ _ hg => hg) rfl rfl, hnumbers,
        fun _ => List.concat_ne_nil _ _, fun w hw => ?_⟩
      exact absurd hg (h.exited w hw).2
  | fail hg =>
      refine ⟨h.line.congr rfl rfl rfl fun _ => rfl,
        h.baton.congr (fun _ _ => Or.inl) (fun _ => rfl) (fun _ _ hg => hg)
          rfl rfl, hnumbers, nofun, fun w hw => ?_⟩
      exact absurd hg (h.exited w hw).2
  | recv w index exeState done queue hw hq =>
      refine ⟨h.line.recv hw hq (htrace exeState),
        h.baton.congr (fun w' i hi => Or.inl ?_)
          (s.view_setWorker Worker.hasTurn hw rfl) (fun _ _ hg => hg) rfl rfl,
        hnumbers, h.ended, fun w' hw' => ?_⟩
      · exact (s.view_setWorker Worker.letIn
          (x := .waiting ⟨index, exeState, done, _⟩) hw rfl w').symm.trans hi
      · have hempty := (h.exited w' (s.exited_of_setWorker hw' nofun)).1
        exact nomatch hq.symm.trans hempty
  | exit w hw hq hg =>
      refine ⟨h.line.congr rfl rfl rfl
          (s.view_setWorker Worker.checkpoint hw rfl),
        h.baton.congr (fun w' i hi => Or.inl ?_)
          (s.view_setWorker Worker.hasTurn hw rfl) (fun _ _ hg => hg) rfl rfl,
        hnumbers, h.ended, fun _ _ => ⟨hq, hg⟩⟩
      exact (s.view_setWorker Worker.letIn (x := .exited) hw rfl w').symm.trans
        hi
  | waitForTurn w t hw ha =>
      refine ⟨h.line.congr rfl rfl rfl
          (s.view_setWorker Worker.checkpoint hw rfl),
        h.baton.congr (fun w' i hi => ?_)
          (s.view_setWorker Worker.hasTurn hw rfl) (fun _ _ hg => hg) rfl rfl,
        hnumbers, h.ended, fun w' hw' => ?_⟩
      · by_cases hww : w' = w
        · subst hww
          rw [Splitter.setWorker_self] at hi
          cases hi
          exact Or.inr (hadmits _ _ ha)
        · rw [Splitter.setWorker_ne s _ hww] at hi
          exact Or.inl hi
      · exact h.exited w' (s.exited_of_setWorker hw' nofun)
  | number w t deferred _ hw hg hs => exact h.number hw hg hs
  | writeText w b k text store hw hs =>
      exact h.write _ store hw ⟨rfl, rfl, rfl, id⟩ rfl
  | advanceTurn w b hw ht hp =>
      refine ⟨h.line.congr rfl rfl rfl
          (s.view_setWorker Worker.checkpoint hw rfl),
        h.baton.advanceTurn hw hp, hnumbers, h.ended, fun w' hw' => ?_⟩
      exact h.exited w' (s.exited_of_setWorker hw' nofun)
  | writeSegment w b j k segment phase store hw hj hp hs =>
      exact h.write _ store hw ⟨rfl, rfl, rfl, id⟩ rfl
  | release w b hw hp hg =>
      refine ⟨h.line.congr rfl rfl rfl fun _ => rfl,
        h.baton.congr (fun _ _ => Or.inl) (fun _ => rfl)
          (fun w' hw' hg' => ?_) rfl rfl, hnumbers, h.ended, h.exited⟩
      -- the one under the locks has passed the turn on
      have hww : w' = w := Option.some.inj (hg'.symm.trans hg)
      rw [hww, hw, Worker.hasTurn, hp] at hw'
      exact nomatch hw'
  | finish w b proofs hw hp hall =>
      have hview : (Worker.receiving : Worker σ ρ).hasTurn
          = (Worker.busy b).hasTurn := by
        show false = !b.passed
        rw [hp]
        rfl
      refine ⟨h.line.congr rfl rfl rfl
          (s.view_setWorker Worker.checkpoint hw rfl),
        h.baton.congr (fun w' i hi => Or.inl ?_)
          (s.view_setWorker Worker.hasTurn hw hview)
          (fun w' hw' hg' => ?_) rfl rfl,
        hnumbers, h.ended, fun w' hw' => ?_⟩
      · exact (s.view_setWorker Worker.letIn (x := .receiving) hw rfl
          w').symm.trans hi
      · have hww : s.guard ≠ some w := by
          intro hg
          have hww : w' = w := Option.some.inj (hg'.symm.trans hg)
          rw [hww, hw, ← hview] at hw'
          exact nomatch hw'
        exact (if_neg hww).trans hg'
      · exact h.exited w' (s.exited_of_setWorker hw' nofun)

end

end ZkmProver
