import ZkmProver.Numbering

/-! # Segment files — each is written once, as a whole, under its number

    A number is `Open` from the time a worker takes it to the rename that puts
    the file in its place.  While it is open the file is what it was before
    the run; when it is not, the file holds the segment with that number. -/

namespace ZkmProver

open Machine Rename

variable {ι σ ρ : Type}

namespace Splitter

/-- The segment with this number is still to be put in its place. -/
def Open (s : Splitter ι σ ρ) (k : Nat) : Prop :=
  ∃ w b j, (s.workers w).stretch = some b ∧ j < b.segments.length ∧
    k = b.base + j ∧ b.phase j ≠ .renamed

/-- So is `segments.txt`. -/
def TextOpen (s : Splitter ι σ ρ) : Prop :=
  ∃ w b, (s.workers w).stretch = some b ∧ b.text ≠ .renamed

end Splitter

namespace Splitter

variable {s s' : Splitter ι σ ρ} {path : String} {buf : List UInt8}

theorem timesWritten_append
    (h : s'.store.renames = s.store.renames ++ [(path, buf)])
    (name : String) :
    s'.timesWritten name
      = s.timesWritten name + if path = name then 1 else 0 := by
  rw [timesWritten, h, List.countP_append, timesWritten, List.countP_singleton]
  by_cases hp : path = name
  · rw [if_pos hp, if_pos (decide_eq_true hp)]
  · rw [if_neg hp, if_neg (by rw [decide_eq_false hp]; exact nofun)]

theorem texts_append
    (h : s'.store.renames = s.store.renames ++ [(path, buf)]) :
    s'.texts = s.texts ++ if path = segmentsTxt then [buf] else [] := by
  rw [texts, h, List.filter_append, List.map_append, texts]
  by_cases hp : path = segmentsTxt
  · rw [if_pos hp, List.filter_cons_of_pos (by simpa using hp)]
    rfl
  · rw [if_neg hp, List.filter_cons_of_neg (by simpa using hp)]
    rfl

section
variable {k : Nat} {p p' : Phase} (h : p.Holds s.store path buf)
  (hs : s.store.writeFile path buf k p = some (p', s'.store))
include h hs

/-- A file with another name is written no oftener than before. -/
theorem writeFile_other {name : String} (hname : name ≠ path)
    (htmp : name ≠ tmp path) :
    s'.store.files name = s.store.files name ∧
      s'.timesWritten name = s.timesWritten name := by
  refine ⟨writeFile_files h hs hname htmp, ?_⟩
  rcases writeFile_renames h hs with hrenames | hrenames
  · rw [timesWritten, hrenames, timesWritten]
  · rw [timesWritten_append hrenames, if_neg hname.symm, Nat.add_zero]

theorem renamed_cases {r : String × List UInt8} (hr : r ∈ s'.store.renames) :
    r ∈ s.store.renames ∨ r = (path, buf) := by
  rcases writeFile_renames h hs with hrenames | hrenames
  · exact Or.inl (hrenames ▸ hr)
  · rw [hrenames, List.mem_append, List.mem_singleton] at hr
    exact hr

end

end Splitter

/-- The directory; `files` is what was there before the run. -/
structure Directory (out : Outside σ ρ) (files : String → Option (List UInt8))
    (s : Splitter ι σ ρ) : Prop where
  late     : ∀ w b, (s.workers w).stretch = some b → b.passed = true →
    b.text = .renamed
  text     : ∀ w b, (s.workers w).stretch = some b →
    b.text.Holds s.store segmentsTxt (textOf b.total)
  writes   : ∀ (w : ι) (b : Stretch σ ρ) (j : Nat) (seg : Segment σ ρ),
    (s.workers w).stretch = some b → b.segments[j]? = some seg →
      (b.phase j).Holds s.store (segmentName (b.base + j)) (out.encode seg)
  done     : ∀ (k : Nat) (seg : Segment σ ρ), s.flat[k]? = some seg →
    ¬ s.Open k → s.store.files (segmentName k) = some (out.encode seg) ∧
      s.timesWritten (segmentName k) = 1
  todo     : ∀ k, s.Open k ∨ s.flat.length ≤ k →
    s.store.files (segmentName k) = files (segmentName k) ∧
      s.timesWritten (segmentName k) = 0
  names    : ∀ r ∈ s.store.renames, r.1 = segmentsTxt ∨
    ∃ k < s.flat.length, r.1 = segmentName k
  textFile : s.store.files segmentsTxt
    = s.texts.getLast?.or (files segmentsTxt)
  texts    : ∃ vals : List Nat, s.texts = vals.map textOf ∧
    vals.Pairwise (· < ·) ∧ (∀ v ∈ vals, v ≤ s.flat.length) ∧
      (s.TextOpen → ∀ v ∈ vals, v < s.flat.length) ∧
        (¬ s.TextOpen → vals.getLast? = some s.flat.length ∨
          vals = [] ∧ s.flat.length = 0)

variable {out : Outside σ ρ} {files : String → Option (List UInt8)}
  {s s' : Splitter ι σ ρ}

theorem Directory.quiet (h : Directory out files s) (hq : Quiet s s') :
    Directory out files s' := by
  have hflat := Splitter.flat_congr hq.reserved
  have htimes : ∀ name, s'.timesWritten name = s.timesWritten name := by
    intro name
    rw [Splitter.timesWritten, hq.renames, Splitter.timesWritten]
  have htexts : s'.texts = s.texts := by
    rw [Splitter.texts, hq.renames, Splitter.texts]
  -- a stretch that is still there was there before
  have hkept : ∀ w b b', (s.workers w).stretch = some b →
      (s'.workers w).stretch = some b' →
        b.Same b' ∧ b'.text = b.text ∧ b'.phase = b.phase := by
    intro w b b' hb hb'
    obtain ⟨b₀, hb₀, hsame, htext, hphase, -⟩ := hq.stretch w b' hb'
    cases Option.some.inj (hb₀.symm.trans hb)
    exact ⟨hsame, htext, hphase⟩
  have hopen : ∀ k, s'.Open k ↔ s.Open k := by
    intro k
    constructor
    · rintro ⟨w, b', j, hb', hj, hk, hphase'⟩
      obtain ⟨b, hb, hsame, -, hphase, -⟩ := hq.stretch w b' hb'
      exact ⟨w, b, j, hb, hsame.segments ▸ hj, hsame.base ▸ hk,
        hphase ▸ hphase'⟩
    · rintro ⟨w, b, j, hb, hj, hk, hphase⟩
      rcases hq.gone w b hb with ⟨b', hb'⟩ | ⟨-, hall⟩
      · obtain ⟨hsame, -, hphase'⟩ := hkept w b b' hb hb'
        refine ⟨w, b', j, hb', ?_, ?_, ?_⟩
        · rw [hsame.segments]
          exact hj
        · rw [hsame.base]
          exact hk
        · rw [hphase']
          exact hphase
      · exact absurd (hall j hj) hphase
  have htextOpen : s'.TextOpen ↔ s.TextOpen := by
    constructor
    · rintro ⟨w, b', hb', hopen'⟩
      obtain ⟨b, hb, -, htext, -⟩ := hq.stretch w b' hb'
      exact ⟨w, b, hb, htext ▸ hopen'⟩
    · rintro ⟨w, b, hb, hopen'⟩
      rcases hq.gone w b hb with ⟨b', hb'⟩ | ⟨hp, -⟩
      · refine ⟨w, b', hb', ?_⟩
        rw [(hkept w b b' hb hb').2.1]
        exact hopen'
      · exact absurd (h.late w b hb hp) hopen'
  constructor
  · intro w b' hb' hp'
    obtain ⟨b, hb, -, htext, -, hp⟩ := hq.stretch w b' hb'
    rw [htext]
    rcases hp hp' with hp | hrenamed
    · exact h.late w b hb hp
    · exact hrenamed
  · intro w b' hb'
    obtain ⟨b, hb, hsame, htext, -⟩ := hq.stretch w b' hb'
    rw [htext, hsame.total]
    exact (h.text w b hb).congr (hq.files _ (by decide))
  · intro w b' j seg hb' hj
    obtain ⟨b, hb, hsame, -, hphase, -⟩ := hq.stretch w b' hb'
    rw [hphase, hsame.base]
    rw [hsame.segments] at hj
    exact (h.writes w b j seg hb hj).congr (hq.files _ (not_d_tmp _))
  · intro k seg hk hclosed
    rw [hq.files _ (not_d_segmentName k), htimes]
    exact h.done k seg (hflat ▸ hk) fun hk => hclosed ((hopen k).mpr hk)
  · intro k hk
    rw [hq.files _ (not_d_segmentName k), htimes]
    rw [hflat, hopen] at hk
    exact h.todo k hk
  · rw [hq.renames, hflat]
    exact h.names
  · rw [hq.files _ (by decide), htexts]
    exact h.textFile
  · rw [htexts, hflat, htextOpen]
    exact h.texts

section
variable [DecidableEq ι]

/-- The files of the new stretch are all to be written. -/
theorem Directory.number (h : Directory out files s) (hs : Splits s) {w : ι}
    {t : Traced σ ρ} {segments : List (Segment σ ρ)}
    (hpos : 0 < segments.length) (hw : s.workers w = .admitted t)
    (hstore : s'.store = s.store)
    (hreserved : s'.reserved = s.reserved ++ [(t.index, segments)])
    (hworkers : s'.workers = (s.setWorker w
      (.busy (newStretch t.done s.segmentIndex segments))).workers) :
    Directory out files s' := by
  have hflat : s'.flat = s.flat ++ segments := Splitter.flat_concat hreserved
  have hlen : s'.flat.length = s.flat.length + segments.length := by
    rw [hflat, List.length_append]
  have hcount := hs.numbers.count
  have htimes : ∀ name, s'.timesWritten name = s.timesWritten name := by
    intro name
    rw [Splitter.timesWritten, hstore, Splitter.timesWritten]
  have htexts : s'.texts = s.texts := by
    rw [Splitter.texts, hstore, Splitter.texts]
  have hnone : (s.workers w).stretch = none := by
    rw [hw]
    rfl
  have hnew := Splitter.stretch_self hworkers
  have hstretch : ∀ w' b', (s'.workers w').stretch = some b' →
      b' = newStretch t.done s.segmentIndex segments ∨
        (s.workers w').stretch = some b' := fun w' b' hb' =>
    (Splitter.stretch_cases hworkers hb').imp And.right And.right
  have hopen : ∀ k, s'.Open k ↔
      s.Open k ∨ s.flat.length ≤ k ∧ k < s'.flat.length := by
    intro k
    constructor
    · rintro ⟨w', b', j, hb', hj, hk, hphase⟩
      rcases hstretch w' b' hb' with rfl | hb'
      · refine Or.inr ?_
        have hj' : j < segments.length := hj
        have hk' : k = s.segmentIndex + j := hk
        omega
      · exact Or.inl ⟨w', b', j, hb', hj, hk, hphase⟩
    · rintro (⟨w', b, j, hb, hj, hk, hphase⟩ | ⟨hlow, hhigh⟩)
      · have hww : w' ≠ w := by
          rintro rfl
          cases hnone.symm.trans hb
        exact ⟨w', b, j, (Splitter.stretch_ne hworkers hww).trans hb, hj, hk,
          hphase⟩
      · refine ⟨w, _, k - s.flat.length, hnew, ?_, ?_, by rintro ⟨⟩⟩
        · show k - s.flat.length < segments.length
          omega
        · show k = s.segmentIndex + (k - s.flat.length)
          omega
  constructor
  · intro w' b' hb' hp
    rcases hstretch w' b' hb' with rfl | hb'
    · cases hp
    · exact h.late w' b' hb' hp
  · intro w' b' hb'
    rw [hstore]
    rcases hstretch w' b' hb' with rfl | hb'
    · trivial
    · exact h.text w' b' hb'
  · intro w' b' j seg hb' hj
    rw [hstore]
    rcases hstretch w' b' hb' with rfl | hb'
    · trivial
    · exact h.writes w' b' j seg hb' hj
  · intro k seg hk hclosed
    rw [hopen] at hclosed
    have hlt : k < s'.flat.length := List.getElem?_eq_some_iff.mp hk |>.1
    have hold : k < s.flat.length := by
      by_contra hge
      exact hclosed (Or.inr ⟨Nat.le_of_not_lt hge, hlt⟩)
    rw [hflat, List.getElem?_append_left hold] at hk
    rw [hstore, htimes]
    exact h.done k seg hk fun hk => hclosed (Or.inl hk)
  · intro k hk
    rw [hstore, htimes]
    refine h.todo k ?_
    rw [hopen] at hk
    rcases hk with (hk | hk) | hk
    · exact Or.inl hk
    · exact Or.inr hk.1
    · exact Or.inr (by omega)
  · intro r hr
    rw [hstore] at hr
    rcases h.names r hr with hr | ⟨k, hk, hr⟩
    · exact Or.inl hr
    · exact Or.inr ⟨k, by omega, hr⟩
  · rw [hstore, htexts]
    exact h.textFile
  · -- the numbers so far are not above the old length
    obtain ⟨vals, hvals, hpairs, hle, -, -⟩ := h.texts
    rw [htexts]
    refine ⟨vals, hvals, hpairs, fun v hv => ?_, fun _ v hv => ?_,
      fun hclosed => ?_⟩
    · have := hle v hv
      omega
    · have := hle v hv
      omega
    · exact absurd ⟨w, _, hnew, by rintro ⟨⟩⟩ hclosed

/-- `segments.txt` is written under the turn. -/
theorem Directory.writeText (h : Directory out files s) (hs : Splits s) {w : ι}
    {b : Stretch σ ρ} {k : Nat} {text : Phase} {store : Store}
    (hw : s.workers w = .busy b)
    (hwrite : s.store.writeFile segmentsTxt (textOf b.total) k b.text
      = some (text, store)) (hstore : s'.store = store)
    (hreserved : s'.reserved = s.reserved)
    (hworkers : s'.workers
      = (s.setWorker w (.busy { b with text := text })).workers) :
    Directory out files s' := by
  have hb : (s.workers w).stretch = some b := by
    rw [hw]
    rfl
  have hflat := Splitter.flat_congr hreserved
  have hholds := h.text w b hb
  subst hstore
  obtain ⟨hopen, hspec⟩ := writeFile_spec hholds hwrite
  have hpassed : b.passed = false := by
    cases hp : b.passed with
    | false => rfl
    | true => exact absurd (h.late w b hb hp) hopen
  have hguard : ∀ w' b', (s.workers w').stretch = some b' → b'.passed = false →
      s.guard = some w' := by
    intro w' b' hb' hp
    refine (hs.baton.taken w' ?_).1
    rw [Worker.hasTurn_eq hb', hp]
    rfl
  -- the others have written theirs
  have hothers : ∀ w' b', w' ≠ w → (s.workers w').stretch = some b' →
      b'.text = .renamed := by
    intro w' b' hne hb'
    refine h.late w' b' hb' ?_
    cases hp : b'.passed with
    | true => rfl
    | false =>
        have hg := (hguard w' b' hb' hp).symm.trans (hguard w b hb hpassed)
        exact absurd (Option.some.inj hg) hne
  have hnew := Splitter.stretch_self hworkers
  have hstretch : ∀ w' b', (s'.workers w').stretch = some b' →
      w' = w ∧ b' = { b with text := text } ∨
        w' ≠ w ∧ (s.workers w').stretch = some b' := fun _ _ =>
    Splitter.stretch_cases hworkers
  have hopens : ∀ k, s'.Open k ↔ s.Open k := by
    intro k
    constructor
    · rintro ⟨w', b', j, hb', hj, hk, hphase⟩
      rcases hstretch w' b' hb' with ⟨-, rfl⟩ | ⟨-, hb'⟩
      · exact ⟨w, b, j, hb, hj, hk, hphase⟩
      · exact ⟨w', b', j, hb', hj, hk, hphase⟩
    · rintro ⟨w', b', j, hb', hj, hk, hphase⟩
      by_cases hww : w' = w
      · subst hww
        cases Option.some.inj (hb'.symm.trans hb)
        exact ⟨w', _, j, hnew, hj, hk, hphase⟩
      · exact ⟨w', b', j, (Splitter.stretch_ne hworkers hww).trans hb', hj, hk,
          hphase⟩
  have hsegment : ∀ k, s'.store.files (segmentName k)
      = s.store.files (segmentName k) ∧
        s'.timesWritten (segmentName k) = s.timesWritten (segmentName k) :=
    fun k => Splitter.writeFile_other hholds hwrite (segmentName_ne_text k)
      (segmentName_ne_tmp k _)
  have htotal := hs.numbers.last w b hb hpassed
  constructor
  · intro w' b' hb' hp
    rcases hstretch w' b' hb' with ⟨-, rfl⟩ | ⟨-, hb'⟩
    · cases hpassed.symm.trans hp
    · exact h.late w' b' hb' hp
  · intro w' b' hb'
    rcases hstretch w' b' hb' with ⟨-, rfl⟩ | ⟨hne, hb'⟩
    · rcases hspec with ⟨-, hholds, -, -⟩ | ⟨htext, -, -, -⟩
      · exact hholds
      · dsimp only
        rw [htext]
        trivial
    · rw [hothers w' b' hne hb']
      trivial
  · intro w' b' j seg hb' hj
    have hold : (b'.phase j).Holds s.store (segmentName (b'.base + j))
        (out.encode seg) := by
      rcases hstretch w' b' hb' with ⟨-, rfl⟩ | ⟨-, hb'⟩
      · exact h.writes w b j seg hb hj
      · exact h.writes w' b' j seg hb' hj
    refine hold.congr (writeFile_files hholds hwrite (text_ne_tmp _).symm
      fun heq => ?_)
    exact segmentName_ne_text _ (tmp_inj heq)
  · intro k seg hk hclosed
    rw [(hsegment k).1, (hsegment k).2]
    exact h.done k seg (hflat ▸ hk) fun hk => hclosed ((hopens k).mpr hk)
  · intro k hk
    rw [(hsegment k).1, (hsegment k).2]
    rw [hopens, hflat] at hk
    exact h.todo k hk
  · intro r hr
    rw [hflat]
    rcases Splitter.renamed_cases hholds hwrite hr with hr | rfl
    · exact h.names r hr
    · exact Or.inl rfl
  · rcases hspec with ⟨-, -, hrenames, hsame⟩ | ⟨-, hrenames, hfile, -⟩
    · rw [hsame _ (ne_tmp _), Splitter.texts, hrenames]
      exact h.textFile
    · rw [hfile, Splitter.texts_append hrenames, if_pos rfl,
        List.getLast?_concat]
      rfl
  · obtain ⟨vals, hvals, hpairs, hle, hlt, -⟩ := h.texts
    have hlt := hlt ⟨w, b, hb, hopen⟩
    rw [hflat]
    rcases hspec with ⟨htext, -, hrenames, -⟩ | ⟨htext, hrenames, -, -⟩
    · have htexts : s'.texts = s.texts := by
        rw [Splitter.texts, hrenames, Splitter.texts]
      rw [htexts]
      exact ⟨vals, hvals, hpairs, hle, fun _ => hlt, fun hclosed =>
        absurd ⟨w, _, hnew, htext⟩ hclosed⟩
    · refine ⟨vals ++ [s.flat.length], ?_, ?_, ?_, ?_, ?_⟩
      · rw [Splitter.texts_append hrenames, if_pos rfl, hvals, htotal,
          List.map_append, List.map_singleton]
      · refine List.pairwise_append.mpr ⟨hpairs, List.pairwise_singleton ..,
          fun v hv v' hv' => ?_⟩
        rw [List.mem_singleton.mp hv']
        exact hlt v hv
      · intro v hv
        rcases List.mem_append.mp hv with hv | hv
        · exact hle v hv
        · exact (List.mem_singleton.mp hv).le
      · rintro ⟨w', b', hb', hopen'⟩
        rcases hstretch w' b' hb' with ⟨-, rfl⟩ | ⟨hne, hb'⟩
        · exact absurd htext hopen'
        · exact absurd (hothers w' b' hne hb') hopen'
      · intro _
        exact Or.inl List.getLast?_concat

/-- The number of a segment is that of one segment of one stretch. -/
theorem Numbers.place (h : Numbers s) {w w' : ι} {b b' : Stretch σ ρ}
    {j j' : Nat} (hb : (s.workers w).stretch = some b)
    (hb' : (s.workers w').stretch = some b') (hj : j < b.segments.length)
    (hj' : j' < b'.segments.length) (heq : b.base + j = b'.base + j') :
    w = w' ∧ b = b' ∧ j = j' := by
  have htotal := (h.slice w b hb).1
  have htotal' := (h.slice w' b' hb').1
  have hww : w = w' := by
    by_contra hne
    have happart := h.apart w w' b b' hne hb hb'
    omega
  subst hww
  cases Option.some.inj (hb.symm.trans hb')
  exact ⟨rfl, rfl, by omega⟩

/-- The phase of one segment has changed, and nothing else in the stretches. -/
structure Phased (s s' : Splitter ι σ ρ) (k : Nat) (phase : Phase) : Prop where
  before : ∀ w b', (s'.workers w).stretch = some b' →
    ∃ b, (s.workers w).stretch = some b ∧ b.Same b' ∧ b'.text = b.text ∧
      b'.passed = b.passed ∧ ∀ j < b.segments.length,
        b'.phase j = if b.base + j = k then phase else b.phase j
  after  : ∀ w b, (s.workers w).stretch = some b →
    ∃ b', (s'.workers w).stretch = some b'

theorem Phased.write (h : Numbers s) {w : ι} {b : Stretch σ ρ} {i : Nat}
    {phase : Phase} (hb : (s.workers w).stretch = some b)
    (hi : i < b.segments.length)
    (hworkers : s'.workers = (s.setWorker w (.busy
      { b with phase := Function.update b.phase i phase })).workers) :
    Phased s s' (b.base + i) phase := by
  constructor
  · intro w' b' hb'
    rcases Splitter.stretch_cases hworkers hb' with ⟨rfl, rfl⟩ | ⟨hww, hb'⟩
    · refine ⟨b, hb, ⟨rfl, rfl, rfl, id⟩, rfl, rfl, fun j hj => ?_⟩
      by_cases hji : j = i
      · subst hji
        rw [if_pos rfl]
        exact Function.update_self ..
      · rw [if_neg (by omega)]
        exact Function.update_of_ne hji ..
    · refine ⟨b', hb', .refl b', rfl, rfl, fun j hj => ?_⟩
      rw [if_neg fun heq => hww (h.place hb' hb hj hi heq).1]
  · intro w' c hc
    by_cases hww : w' = w
    · subst hww
      exact ⟨_, Splitter.stretch_self hworkers⟩
    · exact ⟨c, (Splitter.stretch_ne hworkers hww).trans hc⟩

section
omit [DecidableEq ι]

/-- The number of the segment is closed by the rename, the others stay. -/
theorem Phased.open_iff {w : ι} {b : Stretch σ ρ} {i m : Nat} {phase : Phase}
    (h : Phased s s' (b.base + i) phase) (hb : (s.workers w).stretch = some b)
    (hi : i < b.segments.length) (hphase : b.phase i ≠ .renamed) :
    s'.Open m ↔ s.Open m ∧ ¬ (m = b.base + i ∧ phase = .renamed) := by
  constructor
  · rintro ⟨w', b', j, hb', hj, rfl, hphase'⟩
    obtain ⟨c, hc, hsame, -, -, hphases⟩ := h.before w' b' hb'
    rw [hsame.segments] at hj
    rw [hphases j hj] at hphase'
    rw [hsame.base]
    split at hphase'
    case isTrue heq =>
      exact ⟨⟨w, b, i, hb, hi, heq, hphase⟩, fun hm => hphase' hm.2⟩
    case isFalse hne =>
      exact ⟨⟨w', c, j, hc, hj, rfl, hphase'⟩, fun hm => hne hm.1⟩
  · rintro ⟨⟨w', c, j, hc, hj, rfl, hphase'⟩, hm⟩
    obtain ⟨b', hb'⟩ := h.after w' c hc
    obtain ⟨c', hc', hsame, -, -, hphases⟩ := h.before w' b' hb'
    cases Option.some.inj (hc.symm.trans hc')
    refine ⟨w', b', j, hb', ?_, ?_, ?_⟩
    · rw [hsame.segments]
      exact hj
    · rw [hsame.base]
    · rw [hphases j hj]
      split
      case isTrue heq => exact fun hp => hm ⟨heq, hp⟩
      case isFalse => exact hphase'

theorem Phased.textOpen_iff {k : Nat} {phase : Phase}
    (h : Phased s s' k phase) : s'.TextOpen ↔ s.TextOpen := by
  constructor
  · rintro ⟨w, b', hb', htext⟩
    obtain ⟨b, hb, -, htext', -⟩ := h.before w b' hb'
    exact ⟨w, b, hb, htext' ▸ htext⟩
  · rintro ⟨w, b, hb, htext⟩
    obtain ⟨b', hb'⟩ := h.after w b hb
    obtain ⟨c, hc, -, htext', -⟩ := h.before w b' hb'
    cases Option.some.inj (hb.symm.trans hc)
    exact ⟨w, b', hb', htext' ▸ htext⟩

end

/-- A segment file is written under its own number. -/
theorem Directory.writeSegment (h : Directory out files s) (hs : Splits s) {w : ι}
    {b : Stretch σ ρ} {i k : Nat} {segment : Segment σ ρ} {phase : Phase}
    {store : Store} (hw : s.workers w = .busy b)
    (hi : b.segments[i]? = some segment)
    (hwrite : s.store.writeFile (segmentName (b.base + i))
      (out.encode segment) k (b.phase i) = some (phase, store))
    (hstore : s'.store = store) (hreserved : s'.reserved = s.reserved)
    (hworkers : s'.workers = (s.setWorker w (.busy
      { b with phase := Function.update b.phase i phase })).workers) :
    Directory out files s' := by
  have hb : (s.workers w).stretch = some b := by
    rw [hw]
    rfl
  have hlt : i < b.segments.length := List.getElem?_eq_some_iff.mp hi |>.1
  have hflat := Splitter.flat_congr hreserved
  have hsegment := (hs.numbers.slice w b hb).2.2 i segment hi
  have hholds := h.writes w b i segment hb hi
  subst hstore
  obtain ⟨hphase, hspec⟩ := writeFile_spec hholds hwrite
  have hp := Phased.write hs.numbers hb hlt hworkers
  have hopens := fun m => hp.open_iff hb hlt hphase (m := m)
  have hother : ∀ m, m ≠ b.base + i →
      s'.store.files (segmentName m) = s.store.files (segmentName m) ∧
        s'.timesWritten (segmentName m) = s.timesWritten (segmentName m) := by
    intro m hm
    have hne : segmentName m ≠ segmentName (b.base + i) := fun heq =>
      hm (segmentName_inj heq)
    exact Splitter.writeFile_other hholds hwrite hne (segmentName_ne_tmp m _)
  have htexts : s'.texts = s.texts := by
    rcases writeFile_renames hholds hwrite with hrenames | hrenames
    · rw [Splitter.texts, hrenames, Splitter.texts]
    · rw [Splitter.texts_append hrenames, if_neg (segmentName_ne_text _),
        List.append_nil]
  have hwasOpen : s.Open (b.base + i) := ⟨w, b, i, hb, hlt, rfl, hphase⟩
  constructor
  · intro w' b' hb' hpassed'
    obtain ⟨c, hc, -, htext, hpassed, -⟩ := hp.before w' b' hb'
    rw [htext]
    exact h.late w' c hc (hpassed ▸ hpassed')
  · intro w' b' hb'
    obtain ⟨c, hc, hsame, htext, -⟩ := hp.before w' b' hb'
    rw [htext, hsame.total]
    refine (h.text w' c hc).congr (writeFile_files hholds hwrite
      (segmentName_ne_tmp _ _).symm fun heq => ?_)
    exact segmentName_ne_text _ (tmp_inj heq).symm
  · intro w' b' j seg hb' hj
    obtain ⟨c, hc, hsame, -, -, hphases⟩ := hp.before w' b' hb'
    rw [hsame.segments] at hj
    have hjc := List.getElem?_eq_some_iff.mp hj |>.1
    rw [hphases j hjc, hsame.base]
    split
    case isTrue heq =>
      -- the segment that is being written
      obtain ⟨rfl, rfl, rfl⟩ := hs.numbers.place hc hb hjc hlt heq
      cases Option.some.inj (hj.symm.trans hi)
      rcases hspec with ⟨-, hholds, -, -⟩ | ⟨hrenamed, -, -, -⟩
      · exact hholds
      · rw [hrenamed]
        trivial
    case isFalse hne =>
      refine (h.writes w' c j seg hc hj).congr (writeFile_files hholds hwrite
        (segmentName_ne_tmp _ _).symm fun heq => ?_)
      exact hne (segmentName_inj (tmp_inj heq))
  · intro m seg hm hclosed
    rw [hflat] at hm
    by_cases hmi : m = b.base + i
    · subst hmi
      cases Option.some.inj (hm.symm.trans hsegment)
      rcases hspec with ⟨hnot, -, -, -⟩ | ⟨-, hrenames, hfile, -⟩
      · exact absurd ((hopens _).mpr ⟨hwasOpen, fun hp => hnot hp.2⟩) hclosed
      · refine ⟨hfile, ?_⟩
        rw [Splitter.timesWritten_append hrenames, if_pos rfl,
          (h.todo _ (Or.inl hwasOpen)).2]
    · rw [(hother m hmi).1, (hother m hmi).2]
      exact h.done m seg hm fun hm =>
        hclosed ((hopens m).mpr ⟨hm, fun hp => hmi hp.1⟩)
  · intro m hm
    rw [hopens, hflat] at hm
    by_cases hmi : m = b.base + i
    · subst hmi
      have hless : b.base + i < s.flat.length :=
        List.getElem?_eq_some_iff.mp hsegment |>.1
      have hnot : phase ≠ .renamed := by
        rcases hm with hm | hm
        · exact fun hp => hm.2 ⟨rfl, hp⟩
        · omega
      rcases hspec with ⟨-, -, hrenames, hsame⟩ | ⟨hrenamed, -, -, -⟩
      · rw [hsame _ (ne_tmp _), Splitter.timesWritten, hrenames]
        exact h.todo _ (Or.inl hwasOpen)
      · exact absurd hrenamed hnot
    · rw [(hother m hmi).1, (hother m hmi).2]
      exact h.todo m (hm.imp And.left id)
  · intro r hr
    rw [hflat]
    rcases Splitter.renamed_cases hholds hwrite hr with hr | rfl
    · exact h.names r hr
    · exact Or.inr ⟨b.base + i, List.getElem?_eq_some_iff.mp hsegment |>.1, rfl⟩
  · rw [htexts, writeFile_files hholds hwrite (segmentName_ne_text _).symm
      (text_ne_tmp _)]
    exact h.textFile
  · rw [htexts, hflat, hp.textOpen_iff]
    exact h.texts

/-! ## Runs -/

theorem Directory.moved (h : Directory out files s) (hs : Splits s)
    (hm : SplitMoved out s s') : Directory out files s' := by
  rcases hm.kinds with hq | ⟨w, t, deferred, hw, hg, hnumber⟩ |
    ⟨w, b, k, text, store, hw, hwrite, rfl⟩ |
    ⟨w, b, j, k, segment, phase, store, hw, hj, -, hwrite, rfl⟩
  · exact h.quiet hq
  · have hshard : s.state.shard = UInt32.ofNat s.segmentIndex :=
      hs.numbers.count ▸ hs.numbers.state
    obtain ⟨segments, state, hnumbered, -, rfl⟩ :=
      number_spec (hs.first hw hg).2.2 hshard hnumber
    exact h.number hs hnumbered.pos hw rfl rfl rfl
  · exact h.writeText hs hw hwrite rfl rfl rfl
  · exact h.writeSegment hs hw hj hwrite rfl rfl rfl

omit [DecidableEq ι] in
theorem splits_start (hshard : out.reset.shard = 0) :
    Splits (Splitter.start out files : Splitter ι σ ρ) := by
  refine ⟨⟨rfl, Nat.le_refl _, nofun, nofun, nofun, nofun⟩,
    ⟨nofun, nofun, fun _ => rfl⟩,
    ⟨rfl, hshard, nofun, nofun, nofun, nofun, nofun⟩, nofun, nofun⟩

omit [DecidableEq ι] in
theorem directory_start :
    Directory out files (Splitter.start out files : Splitter ι σ ρ) := by
  refine ⟨nofun, nofun, nofun, nofun, fun _ _ => ⟨rfl, rfl⟩, nofun, rfl,
    [], rfl, .nil, nofun, nofun, fun _ => Or.inr ⟨rfl, rfl⟩⟩

theorem splits_run (htrace : ∀ exe, (out.traceCheckpoint exe).length = 1)
    (hadmits : ∀ t i, out.admits t i = true → i ≤ t)
    (hshard : out.reset.shard = 0) {as : List (SplitAct ι σ ρ)}
    (hrun : run (Splitter.step out) (Splitter.start out files) as = some s) :
    Splits s ∧ Directory out files s := by
  refine run_inv (I := fun s => Splits s ∧ Directory out files s)
    (fun s a s' hI ha => ?_) ⟨splits_start hshard, directory_start⟩ hrun
  have hm := splitMoved ha
  exact ⟨hI.1.moved htrace hadmits hm, hI.2.moved hI.1 hm⟩

/-- Without workers nothing is numbered or written. -/
theorem idle_run [IsEmpty ι] {as : List (SplitAct ι σ ρ)}
    (hrun : run (Splitter.step out) (Splitter.start out files) as = some s) :
    s.segmentIndex = 0 ∧ s.store = ⟨files, []⟩ := by
  refine run_inv
    (I := fun s : Splitter ι σ ρ => s.segmentIndex = 0 ∧ s.store = ⟨files, []⟩)
    (fun s a s' hI ha => ?_) ⟨rfl, rfl⟩ hrun
  cases splitMoved ha with
  | send => exact hI
  | fail => exact hI
  | recv w | exit w | waitForTurn w | number w | writeText w
  | advanceTurn w | writeSegment w | release w | finish w =>
      exact isEmptyElim w

/-- At any moment a segment file is as it was before the run or whole, and
    `segments.txt` has only increased. -/
structure Whole (out : Outside σ ρ) (files : String → Option (List UInt8))
    (s : Splitter ι σ ρ) : Prop where
  segments : ∀ k,
    s.store.files (segmentName k) = files (segmentName k) ∧
        s.timesWritten (segmentName k) = 0 ∨
      ∃ seg, s.flat[k]? = some seg ∧
        s.store.files (segmentName k) = some (out.encode seg) ∧
          s.timesWritten (segmentName k) = 1
  texts    : ∃ vals : List Nat, s.texts = vals.map textOf ∧
    vals.Pairwise (· < ·)
  textFile : s.store.files segmentsTxt
    = s.texts.getLast?.or (files segmentsTxt)

/-- What is in the directory when the function returns. -/
structure Complete (out : Outside σ ρ) (files : String → Option (List UInt8))
    (s : Splitter ι σ ρ) : Prop where
  written : ∀ k < s.segmentIndex, ∃ seg, s.flat[k]? = some seg ∧
    seg.publicValues.shard = UInt32.ofNat (k + 1) ∧
      s.store.files (segmentName k) = some (out.encode seg) ∧
        s.timesWritten (segmentName k) = 1
  others  : ∀ k, s.segmentIndex ≤ k →
    s.store.files (segmentName k) = files (segmentName k)
  names   : ∀ r ∈ s.store.renames, r.1 = segmentsTxt ∨
    ∃ k < s.segmentIndex, r.1 = segmentName k
  order   : ∀ (i : Nat) (e : Nat × List (Segment σ ρ)),
    s.reserved[i]? = some e → e.1 = i ∧ ∃ exe, s.sent[i]? = some exe ∧
      ∃ (pv : PublicValues) (rs : List (ExecutionRecord ρ)),
        e.2 = .State exe pv :: rs.map .Record
  all     : Nonempty ι → s.reserved.length = s.sent.length
  text    : Nonempty ι → s.texts.getLast? = some (textOf s.segmentIndex) ∧
    s.store.files segmentsTxt = some (textOf s.segmentIndex)
  idle    : IsEmpty ι → s.segmentIndex = 0 ∧ s.store = ⟨files, []⟩

omit [DecidableEq ι] in
theorem Directory.whole (h : Directory out files s) : Whole out files s := by
  obtain ⟨vals, hvals, hpairs, -⟩ := h.texts
  refine ⟨fun k => ?_, ⟨vals, hvals, hpairs⟩, h.textFile⟩
  by_cases hopen : s.Open k
  · exact Or.inl (h.todo k (Or.inl hopen))
  · cases hk : s.flat[k]? with
    | none =>
        exact Or.inl (h.todo k (Or.inr (List.getElem?_eq_none_iff.mp hk)))
    | some seg => exact Or.inr ⟨seg, rfl, h.done k seg hk hopen⟩

omit [DecidableEq ι] in
/-- When every worker has exited, every checkpoint has its numbers. -/
theorem Splits.all_reserved (h : Splits s) (hret : s.Returned)
    (hworker : Nonempty ι) :
    s.reserved.length = s.sent.length ∧ 0 < s.flat.length := by
  obtain ⟨w⟩ := hworker
  have hqueue := (h.exited w (hret.2 w)).1
  have hroom := h.line.room
  have hall : s.reserved.length = s.sent.length := by
    by_contra hne
    rw [hqueue] at hroom
    have hless : s.reserved.length + s.queue.length < s.sent.length := by
      rw [hqueue]
      exact lt_of_le_of_ne hroom hne
    obtain ⟨w', t, ht, -⟩ := h.line.found _ (Nat.le_refl _) hless
    rw [hret.2 w'] at ht
    exact nomatch ht
  refine ⟨hall, ?_⟩
  cases hr : s.reserved with
  | nil =>
      rw [hr] at hall
      exact absurd (List.length_eq_zero_iff.mp hall.symm) (h.ended hret.1)
  | cons e rest =>
      obtain ⟨exe, -, pv, rs, hshape⟩ :=
        h.numbers.shape e (hr ▸ List.mem_cons_self ..)
      rw [Splitter.flat, hr, List.flatMap_cons, hshape]
      exact Nat.zero_lt_succ _

/-- **SPLIT NUMBERING**: for every number of workers and every interleaving
    of them, segment files and shards have the same numbers. -/
theorem split_numbering
    (htrace : ∀ exe, (out.traceCheckpoint exe).length = 1)
    (hadmits : ∀ t i, out.admits t i = true → i ≤ t)
    (hshard : out.reset.shard = 0) {as : List (SplitAct ι σ ρ)}
    (hrun : run (Splitter.step out) (Splitter.start out files) as = some s) :
    Whole out files s ∧ (s.Returned → Complete out files s) := by
  obtain ⟨hs, hd⟩ := splits_run htrace hadmits hshard hrun
  refine ⟨hd.whole, fun hret => ?_⟩
  have hidle : ∀ w b, (s.workers w).stretch ≠ some b := by
    intro w b hb
    rw [hret.2 w] at hb
    exact nomatch hb
  have hclosed : ∀ k, ¬ s.Open k := fun k ⟨w, b, _, hb, _⟩ => hidle w b hb
  have htextClosed : ¬ s.TextOpen := fun ⟨w, b, hb, _⟩ => hidle w b hb
  have htext : Nonempty ι →
      s.texts.getLast? = some (textOf s.segmentIndex) := by
    intro hworker
    obtain ⟨vals, hvals, -, -, -, hlast⟩ := hd.texts
    rcases hlast htextClosed with hlast | ⟨-, hzero⟩
    · rw [hvals, List.getLast?_map, hlast, hs.numbers.count]
      rfl
    · exact absurd hzero (hs.all_reserved hret hworker).2.ne'
  constructor
  · intro k hk
    rw [hs.numbers.count] at hk
    have hseg := List.getElem?_eq_getElem hk
    exact ⟨_, hseg, hs.numbers.shards k _ hseg, hd.done k _ hseg (hclosed k)⟩
  · intro k hk
    exact (hd.todo k (Or.inr (hs.numbers.count ▸ hk))).1
  · rw [hs.numbers.count]
    exact hd.names
  · intro i e he
    have hi : (s.reserved.map (·.1))[i]? = some e.1 := by
      rw [List.getElem?_map, he]
      rfl
    rw [hs.line.order] at hi
    obtain ⟨_, hi⟩ := List.getElem?_eq_some_iff.mp hi
    rw [List.getElem_range] at hi
    obtain ⟨exe, hexe, hshape⟩ :=
      hs.numbers.shape e (List.mem_of_getElem? he)
    exact ⟨hi.symm, exe, hi ▸ hexe, hshape⟩
  · exact fun hworker => (hs.all_reserved hret hworker).1
  · intro hworker
    refine ⟨htext hworker, ?_⟩
    rw [hd.textFile, htext hworker]
    rfl
  · intro hnone
    exact idle_run hrun

end

/-! ## Two runs -/

/-- A program whose checkpoints have one record each. -/
def oneRecord : Outside Unit Unit where
  traceCheckpoint _ := [⟨(), ⟨[], [], 0, 0, 0, 0, [], [], [], []⟩⟩]
  admits turn index := turn == index
  encode segment := [segment.publicValues.shard.toNat.toUInt8]
  reset := ⟨[], [], 0, 0, 0, 0, [], [], [], []⟩

/-- Two workers with a checkpoint each; the second has a deferred record. -/
def twoWorkers : List (SplitAct Bool Unit Unit) :=
  [.send () false, .recv true, .send () true, .recv false, .waitForTurn true,
    .number true [], .writeText true 0, .writeText true 0, .writeText true 0,
    .advanceTurn true, .release true, .waitForTurn false,
    .number false [⟨(), ⟨[], [], 0, 0, 0, 0, [], [], [], []⟩⟩],
    .writeText false 0, .writeText false 0, .writeText false 0,
    .advanceTurn false, .writeSegment false 1 0, .writeSegment true 0 0,
    .writeSegment false 0 0, .writeSegment false 1 0, .writeSegment true 0 0,
    .writeSegment false 0 0, .writeSegment false 1 0, .writeSegment true 0 0,
    .writeSegment false 0 0, .finish false [], .exit false, .finish true [],
    .exit true]

theorem split_numbering_two_workers :
    ∃ s, run (Splitter.step oneRecord)
        (Splitter.start oneRecord fun _ => none) twoWorkers = some s ∧
      Whole oneRecord (fun _ => none) s ∧ s.segmentIndex = 3 ∧
        Complete oneRecord (fun _ => none) s := by
  have hsome : (run (Splitter.step oneRecord)
      (Splitter.start oneRecord fun _ => none) twoWorkers).isSome := rfl
  obtain ⟨s, hs⟩ := Option.isSome_iff_exists.mp hsome
  have hend : (run (Splitter.step oneRecord)
      (Splitter.start oneRecord fun _ => none) twoWorkers).map
        (fun s => (s.segmentIndex, s.generator)) = some (3, .ended) := rfl
  have hexited : ∀ w, (run (Splitter.step oneRecord)
      (Splitter.start oneRecord fun _ => none) twoWorkers).map
        (fun s => s.workers w) = some .exited := by
    rintro (_ | _) <;> rfl
  rw [hs] at hend
  obtain ⟨hthree, hended⟩ := Prod.mk.inj (Option.some.inj hend)
  obtain ⟨hwhole, hret⟩ := split_numbering (fun _ => rfl)
    (fun t i h => (beq_iff_eq.mp h).ge) rfl hs
  refine ⟨s, hs, hwhole, hthree, hret ⟨hended, fun w => ?_⟩⟩
  have hw := hexited w
  rw [hs] at hw
  exact Option.some.inj hw

/-- Without workers the function returns and `segments.txt` is not there. -/
theorem no_workers_no_text :
    (∀ exe, (oneRecord.traceCheckpoint exe).length = 1) ∧
      (∀ t i, oneRecord.admits t i = true → i ≤ t) ∧
        oneRecord.reset.shard = 0 ∧
          ∃ s : Splitter (Fin 0) Unit Unit,
            run (Splitter.step oneRecord)
                (Splitter.start oneRecord fun _ => none) [.send () true]
              = some s ∧
            s.Returned ∧ s.segmentIndex = 0 ∧
              s.store.files segmentsTxt ≠ some (textOf s.segmentIndex) :=
  ⟨fun _ => rfl, fun _ _ h => (beq_iff_eq.mp h).ge, rfl, _, rfl,
    ⟨rfl, fun w => w.elim0⟩, rfl, nofun⟩

end ZkmProver
