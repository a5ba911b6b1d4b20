import Mathlib.Data.List.Basic
import Mathlib.Order.Filter.AtTopBot.Basic
import Mathlib.Order.WellFounded

/-! # Machines with partial steps — runs and what they preserve

    A machine is a partial step function `step : σ → α → Option σ` on states
    `σ`, driven by actions `α`; `none` is a step that ends the run.  A run is
    the fold of `step` over a list of actions.  This file fixes the three
    rules every run argument of the development uses: an invariant of one
    step is an invariant of a run (`run_inv`), possibly for actions of a given
    kind only (`run_inv_of`), and a reflexive and transitive relation that
    holds across one step holds across a run (`run_rel`). -/

namespace Machine

variable {σ τ α γ : Type}

/-- Run a list of actions from a state. -/
def run (step : σ → α → Option σ) : σ → List α → Option σ
  | s, [] => some s
  | s, a :: as => (step s a).bind fun s' => run step s' as

@[simp] theorem run_nil (step : σ → α → Option σ) (s : σ) :
    run step s [] = some s := rfl

/-- A run is a first step and the rest. -/
theorem run_cons {step : σ → α → Option σ} {s t : σ} {a : α} {as : List α} :
    run step s (a :: as) = some t ↔
      ∃ s', step s a = some s' ∧ run step s' as = some t := by
  rw [run, Option.bind_eq_some_iff]

/-- A run over two lists is one over each. -/
theorem run_append {step : σ → α → Option σ} {s t : σ} {as bs : List α} :
    run step s (as ++ bs) = some t ↔
      ∃ u, run step s as = some u ∧ run step u bs = some t := by
  induction as generalizing s with
  | nil => simp
  | cons a as ih =>
      rw [List.cons_append, run_cons]
      constructor
      · rintro ⟨s', hs, hr⟩
        obtain ⟨u, hu, ht⟩ := ih.mp hr
        exact ⟨u, run_cons.mpr ⟨s', hs, hu⟩, ht⟩
      · rintro ⟨u, hu, ht⟩
        obtain ⟨s', hs, hr⟩ := run_cons.mp hu
        exact ⟨s', hs, ih.mpr ⟨u, hr, ht⟩⟩

/-- A run is the first steps and a last one. -/
theorem run_snoc {step : σ → α → Option σ} {s t : σ} {as : List α} {a : α} :
    run step s (as ++ [a]) = some t ↔
      ∃ u, run step s as = some u ∧ step u a = some t := by
  rw [run_append]
  constructor
  · rintro ⟨u, hu, ht⟩
    obtain ⟨t', h, hnil⟩ := run_cons.mp ht
    cases hnil
    exact ⟨u, hu, h⟩
  · rintro ⟨u, hu, ht⟩
    exact ⟨u, hu, run_cons.mpr ⟨t, ht, rfl⟩⟩

/-- **RUN RULE**: what every step by an action of kind `P` preserves, a run
    of such actions preserves. -/
theorem run_inv_of {step : σ → α → Option σ} {P : α → Prop} {I : σ → Prop}
    (hstep : ∀ s a s', P a → I s → step s a = some s' → I s')
    {as : List α} {s t : σ} (has : ∀ a ∈ as, P a) (hs : I s)
    (hrun : run step s as = some t) : I t := by
  induction as generalizing s with
  | nil => cases hrun; exact hs
  | cons a as ih =>
      obtain ⟨s', h, hr⟩ := run_cons.mp hrun
      exact ih (fun b hb => has b (List.mem_cons_of_mem a hb))
        (hstep s a s' (has a (List.mem_cons_self ..)) hs h) hr

/-- What every step preserves, every run preserves. -/
theorem run_inv {step : σ → α → Option σ} {I : σ → Prop}
    (hstep : ∀ s a s', I s → step s a = some s' → I s')
    {as : List α} {s t : σ} (hs : I s)
    (hrun : run step s as = some t) : I t := by
  have hall : ∀ a ∈ as, (fun _ => True) a := fun _ _ => trivial
  exact run_inv_of (fun s a s' _ => hstep s a s') hall hs hrun

/-- A concrete run, and what is seen to hold behind it. -/
theorem run_of_check (step : σ → α → Option σ) (s : σ) (as : List α)
    (P : σ → Prop) [DecidablePred P]
    (h : ((run step s as).any fun t => decide (P t)) = true) :
    ∃ t, run step s as = some t ∧ P t := by
  obtain ⟨t, ht, hp⟩ := Option.any_eq_true _ _ |>.mp h
  exact ⟨t, ht, of_decide_eq_true hp⟩

/-- The same with the actions so far in view. -/
theorem run_trace {step : σ → α → Option σ} {I : List α → σ → Prop}
    (hstep : ∀ as t a t', I as t → step t a = some t' → I (as ++ [a]) t')
    {as bs : List α} {s t : σ} (hs : I as s)
    (hrun : run step s bs = some t) : I (as ++ bs) t := by
  induction bs generalizing as s with
  | nil =>
      cases hrun
      rw [List.append_nil]
      exact hs
  | cons b bs ih =>
      obtain ⟨s', h, hr⟩ := run_cons.mp hrun
      have hmore := ih (hstep as s b s' hs h) hr
      rwa [List.append_assoc] at hmore

/-- Every step of a run is taken where, and by an action for which, `P`
    holds. -/
def Along (step : σ → α → Option σ) (P : σ → α → Prop) (s : σ) :
    List α → Prop
  | [] => True
  | a :: as => P s a ∧ ∀ s', step s a = some s' → Along step P s' as

/-- What holds along a run and at one more step. -/
theorem along_snoc {step : σ → α → Option σ} {P : σ → α → Prop} {s t : σ}
    {as : List α} {a : α} (hrun : run step s as = some t) :
    Along step P s (as ++ [a]) ↔ Along step P s as ∧ P t a := by
  induction as generalizing s with
  | nil =>
      cases hrun
      exact ⟨fun h => ⟨trivial, h.1⟩, fun h => ⟨h.2, fun _ _ => trivial⟩⟩
  | cons b bs ih =>
      obtain ⟨s', hb, hr⟩ := run_cons.mp hrun
      rw [List.cons_append, Along, Along]
      constructor
      · rintro ⟨hP, hrest⟩
        obtain ⟨hbs, ha⟩ := (ih hr).mp (hrest s' hb)
        refine ⟨⟨hP, fun u hu => ?_⟩, ha⟩
        cases hb.symm.trans hu
        exact hbs
      · rintro ⟨⟨hP, hrest⟩, ha⟩
        refine ⟨hP, fun u hu => ?_⟩
        cases hb.symm.trans hu
        exact (ih hr).mpr ⟨hrest s' hb, ha⟩

/-- What holds along two halves. -/
theorem along_append {step : σ → α → Option σ} {P : σ → α → Prop} {s t : σ}
    {as bs : List α} (hrun : run step s as = some t) :
    Along step P s (as ++ bs) ↔ Along step P s as ∧ Along step P t bs := by
  induction as generalizing s with
  | nil =>
      cases hrun
      exact ⟨fun h => ⟨trivial, h⟩, And.right⟩
  | cons a as ih =>
      obtain ⟨s', ha, hr⟩ := run_cons.mp hrun
      rw [List.cons_append, Along, Along]
      constructor
      · rintro ⟨hP, hrest⟩
        obtain ⟨has, hbs⟩ := (ih hr).mp (hrest s' ha)
        refine ⟨⟨hP, fun u hu => ?_⟩, hbs⟩
        cases ha.symm.trans hu
        exact has
      · rintro ⟨⟨hP, hrest⟩, hbs⟩
        refine ⟨hP, fun u hu => ?_⟩
        cases ha.symm.trans hu
        exact (ih hr).mpr ⟨hrest s' ha, hbs⟩

/-- Two properties along a run give a third. -/
theorem Along.imp₂ {step : σ → α → Option σ} {P Q R : σ → α → Prop}
    (hR : ∀ s a, P s a → Q s a → R s a) {s : σ} {as : List α}
    (hP : Along step P s as) (hQ : Along step Q s as) : Along step R s as := by
  induction as generalizing s with
  | nil => trivial
  | cons a as ih =>
      exact ⟨hR s a hP.1 hQ.1, fun s' h => ih (hP.2 s' h) (hQ.2 s' h)⟩

/-- What every step under `P` preserves, a run whose steps are all under `P`
    preserves. -/
theorem run_inv_along {step : σ → α → Option σ} {P : σ → α → Prop}
    {I : σ → Prop} (hstep : ∀ s a s', P s a → I s → step s a = some s' → I s')
    {as : List α} {s t : σ} (has : Along step P s as) (hs : I s)
    (hrun : run step s as = some t) : I t := by
  induction as generalizing s with
  | nil => cases hrun; exact hs
  | cons a as ih =>
      obtain ⟨s', h, hr⟩ := run_cons.mp hrun
      exact ih (has.2 s' h) (hstep s a s' has.1 hs h) hr

/-- Some step of a run is one of `P`. -/
def Happens (step : σ → α → Option σ) (P : σ → α → Prop) (s : σ) :
    List α → Prop
  | [] => False
  | a :: as => P s a ∨ ∃ s', step s a = some s' ∧ Happens step P s' as

/-- Some step of `P` is followed, sooner or later, by a step of `Q`. -/
def Follows (step : σ → α → Option σ) (P Q : σ → α → Prop) (s : σ) :
    List α → Prop
  | [] => False
  | a :: as => ∃ s', step s a = some s' ∧
      (P s a ∧ Happens step Q s' as ∨ Follows step P Q s' as)

/-- Along a run that can be followed a decidable test is decidable. -/
instance decidableAlong {step : σ → α → Option σ} {P : σ → α → Prop}
    [∀ s a, Decidable (P s a)] :
    ∀ (s : σ) (as : List α), Decidable (Along step P s as)
  | _, [] => isTrue trivial
  | s, a :: as =>
      match h : step s a with
      | none =>
          decidable_of_iff (P s a)
            ⟨fun hP => ⟨hP, fun _ hs => nomatch h.symm.trans hs⟩, And.left⟩
      | some t =>
          have : Decidable (Along step P t as) := decidableAlong t as
          decidable_of_iff (P s a ∧ Along step P t as)
            ⟨fun hP => ⟨hP.1, fun _ hs => Option.some.inj (h.symm.trans hs) ▸ hP.2⟩,
              fun hP => ⟨hP.1, hP.2 t h⟩⟩

instance decidableHappens {step : σ → α → Option σ} {P : σ → α → Prop}
    [∀ s a, Decidable (P s a)] :
    ∀ (s : σ) (as : List α), Decidable (Happens step P s as)
  | _, [] => isFalse id
  | s, a :: as =>
      match h : step s a with
      | none =>
          decidable_of_iff (P s a)
            ⟨Or.inl, fun hP => hP.elim id fun ⟨_, hs, _⟩ =>
              nomatch h.symm.trans hs⟩
      | some t =>
          have : Decidable (Happens step P t as) := decidableHappens t as
          decidable_of_iff (P s a ∨ Happens step P t as)
            ⟨fun hP => hP.imp_right fun ht => ⟨t, h, ht⟩,
              fun hP => hP.imp_right fun ⟨_, hs, ht⟩ =>
                Option.some.inj (h.symm.trans hs) ▸ ht⟩

instance decidableFollows {step : σ → α → Option σ} {P Q : σ → α → Prop}
    [∀ s a, Decidable (P s a)] [∀ s a, Decidable (Q s a)] :
    ∀ (s : σ) (as : List α), Decidable (Follows step P Q s as)
  | _, [] => isFalse id
  | s, a :: as =>
      match h : step s a with
      | none => isFalse fun ⟨_, hs, _⟩ => nomatch h.symm.trans hs
      | some t =>
          have : Decidable (Follows step P Q t as) := decidableFollows t as
          decidable_of_iff
            (P s a ∧ Happens step Q t as ∨ Follows step P Q t as)
            ⟨fun hP => ⟨t, h, hP⟩,
              fun ⟨_, hs, hP⟩ => Option.some.inj (h.symm.trans hs) ▸ hP⟩

/-- What has happened has happened in a longer run. -/
theorem Happens.append {step : σ → α → Option σ} {P : σ → α → Prop} {s : σ}
    {as : List α} (h : Happens step P s as) (bs : List α) :
    Happens step P s (as ++ bs) := by
  induction as generalizing s with
  | nil => exact h.elim
  | cons a as ih =>
      rcases h with hP | ⟨s', hs, hrest⟩
      · exact Or.inl hP
      · exact Or.inr ⟨s', hs, ih hrest⟩

/-- What has happened has happened somewhere. -/
theorem Happens.exists {step : σ → α → Option σ} {P : σ → α → Prop} {s : σ}
    {as : List α} (h : Happens step P s as) : ∃ t a, P t a := by
  induction as generalizing s with
  | nil => exact h.elim
  | cons a as ih =>
      rcases h with hP | ⟨_, _, hrest⟩
      · exact ⟨s, a, hP⟩
      · exact ih hrest

/-- The last step of a run. -/
theorem happens_snoc {step : σ → α → Option σ} {P : σ → α → Prop} {s t : σ}
    {as : List α} {a : α} (hrun : run step s as = some t) (h : P t a) :
    Happens step P s (as ++ [a]) := by
  induction as generalizing s with
  | nil =>
      cases hrun
      exact Or.inl h
  | cons b bs ih =>
      obtain ⟨s', hb, hr⟩ := run_cons.mp hrun
      exact Or.inr ⟨s', hb, ih hr⟩

/-- What follows in the second half follows in the whole. -/
theorem follows_append {step : σ → α → Option σ} {P Q : σ → α → Prop}
    {s t : σ} {as bs : List α} (hrun : run step s as = some t)
    (h : Follows step P Q t bs) : Follows step P Q s (as ++ bs) := by
  induction as generalizing s with
  | nil => cases hrun; exact h
  | cons a as ih =>
      obtain ⟨s', hs, hr⟩ := run_cons.mp hrun
      exact ⟨s', hs, Or.inr (ih hr)⟩

/-- Where no step of the run is one of `P`, nothing follows one. -/
theorem not_follows {step : σ → α → Option σ} {P Q : σ → α → Prop} {s : σ}
    {as : List α} (h : Along step (fun s a => ¬ P s a) s as) :
    ¬ Follows step P Q s as := by
  induction as generalizing s with
  | nil => exact id
  | cons a as ih =>
      rintro ⟨s', hs, ⟨hP, _⟩ | hrest⟩
      · exact h.1 hP
      · exact ih (h.2 s' hs) hrest

/-- What holds along a run by an invariant of its steps. -/
theorem along_of {step : σ → α → Option σ} {P Q : σ → α → Prop}
    {I : σ → Prop} (hstep : ∀ s a s', P s a → I s → step s a = some s' → I s')
    (hQ : ∀ s a, P s a → I s → Q s a) {as : List α} {s : σ}
    (has : Along step P s as) (hs : I s) : Along step Q s as := by
  induction as generalizing s with
  | nil => trivial
  | cons a as ih =>
      refine ⟨hQ s a has.1 hs, fun s' h => ?_⟩
      exact ih (has.2 s' h) (hstep s a s' has.1 hs h)

/-- Actions that are fine in every state. -/
theorem along_mem {step : σ → α → Option σ} {P : σ → α → Prop} {as : List α}
    (h : ∀ a ∈ as, ∀ s, P s a) (s : σ) : Along step P s as := by
  induction as generalizing s with
  | nil => trivial
  | cons a as ih =>
      refine ⟨h a (List.mem_cons_self ..) s, fun s' _ => ?_⟩
      exact ih (fun b hb => h b (List.mem_cons_of_mem a hb)) s'

/-- In a run of that kind an action was fine where it was taken. -/
theorem Along.of_mem {step : σ → α → Option σ} {P : σ → α → Prop} {s t : σ}
    {as : List α} (h : Along step P s as) (hrun : run step s as = some t)
    {a : α} (ha : a ∈ as) : ∃ u u', P u a ∧ step u a = some u' := by
  induction as generalizing s with
  | nil => exact absurd ha List.not_mem_nil
  | cons b bs ih =>
      obtain ⟨s', hb, hr⟩ := run_cons.mp hrun
      rcases List.mem_cons.mp ha with rfl | ha
      · exact ⟨s, s', h.1, hb⟩
      · exact ih (h.2 s' hb) hr ha

theorem along_true {step : σ → α → Option σ} (s : σ) (as : List α) :
    Along step (fun _ _ => True) s as :=
  along_mem (fun _ _ _ => trivial) s

/-- The number of steps of a run that pass a test. -/
def tally (step : σ → α → Option σ) (f : σ → α → σ → Bool) (s : σ) :
    List α → Nat
  | [] => 0
  | a :: as =>
      match step s a with
      | none => 0
      | some s' => (f s a s').toNat + tally step f s' as

/-- The count over one more step. -/
theorem tally_snoc {step : σ → α → Option σ} {f : σ → α → σ → Bool}
    {s t t' : σ} {as : List α} {a : α} (hrun : run step s as = some t)
    (hstep : step t a = some t') :
    tally step f s (as ++ [a]) = tally step f s as + (f t a t').toNat := by
  induction as generalizing s with
  | nil =>
      cases hrun
      simp [tally, hstep]
  | cons b bs ih =>
      obtain ⟨s', hb, hr⟩ := run_cons.mp hrun
      rw [List.cons_append, tally, tally, hb]
      dsimp only
      rw [ih hr, Nat.add_assoc]

/-- What a test of state and action finds along a run. -/
def collect (step : σ → α → Option σ) (f : σ → α → Option γ) (s : σ) :
    List α → List γ
  | [] => []
  | a :: as =>
      match step s a with
      | none => []
      | some s' => (f s a).toList ++ collect step f s' as

/-- What is collected over one more step. -/
theorem collect_snoc {step : σ → α → Option σ} {f : σ → α → Option γ}
    {s t t' : σ} {as : List α} {a : α} (hrun : run step s as = some t)
    (hstep : step t a = some t') :
    collect step f s (as ++ [a])
      = collect step f s as ++ (f t a).toList := by
  induction as generalizing s with
  | nil =>
      cases hrun
      simp [collect, hstep]
  | cons b bs ih =>
      obtain ⟨s', hb, hr⟩ := run_cons.mp hrun
      rw [List.cons_append, collect, collect, hb]
      dsimp only
      rw [ih hr, List.append_assoc]

/-- A reflexive, transitive relation across one step (from a state with the
    invariant) holds across a run. -/
theorem run_rel {step : σ → α → Option σ} {I : σ → Prop} {R : σ → σ → Prop}
    (hI : ∀ s a s', I s → step s a = some s' → I s')
    (refl : ∀ s, R s s) (trans : ∀ s t u, R s t → R t u → R s u)
    (hstep : ∀ s a s', I s → step s a = some s' → R s s')
    {as : List α} {s t : σ} (hs : I s)
    (hrun : run step s as = some t) : R s t := by
  induction as generalizing s with
  | nil => cases hrun; exact refl _
  | cons a as ih =>
      obtain ⟨s', h, hr⟩ := run_cons.mp hrun
      exact trans s s' t (hstep s a s' hs h) (ih (hI s a s' hs h) hr)

/-- **SIMULATION RULE**: if every step of a machine is matched, through `abs`,
    by a run of another machine, then every run is. -/
theorem run_sim {step : σ → α → Option σ} {step' : τ → γ → Option τ}
    {abs : σ → τ}
    (hstep : ∀ s a s', step s a = some s' →
      ∃ bs, run step' (abs s) bs = some (abs s'))
    {as : List α} {s t : σ} (hrun : run step s as = some t) :
    ∃ bs, run step' (abs s) bs = some (abs t) := by
  induction as generalizing s with
  | nil => cases hrun; exact ⟨[], rfl⟩
  | cons a as ih =>
      obtain ⟨s', h, hr⟩ := run_cons.mp hrun
      obtain ⟨bs, hbs⟩ := hstep s a s' h
      obtain ⟨cs, hcs⟩ := ih hr
      exact ⟨bs ++ cs, run_append.mpr ⟨abs s', hbs, hcs⟩⟩

/-- **PROJECTION RULE**: a projection that turns every step into a step of
    another machine turns every run, dead ends included, into a run of it. -/
theorem run_map {step : σ → α → Option σ} {step' : τ → γ → Option τ}
    {abs : σ → τ} {act : α → γ}
    (hstep : ∀ s a, (step s a).map abs = step' (abs s) (act a))
    (s : σ) (as : List α) :
    (run step s as).map abs = run step' (abs s) (as.map act) := by
  induction as generalizing s with
  | nil => rfl
  | cons a as ih =>
      rw [List.map_cons, run, run, ← hstep s a]
      cases step s a with
      | none => rfl
      | some s' => exact ih s'

/-- **COMMUTING STEPS**: where any two actions of a list commute in the states
    with the invariant, the order of the list does not matter. -/
theorem run_perm {step : σ → α → Option σ} {I : σ → Prop} {R : α → α → Prop}
    (hsymm : ∀ a b, R a b → R b a)
    (hI : ∀ s a s', I s → step s a = some s' → I s')
    (hcomm : ∀ s a b, I s → R a b →
      (step s a).bind (step · b) = (step s b).bind (step · a))
    {as bs : List α} (hperm : as.Perm bs) (has : as.Pairwise R) {s : σ}
    (hs : I s) : run step s as = run step s bs := by
  induction hperm generalizing s with
  | nil => rfl
  | @cons a as bs _ ih =>
      rw [run, run]
      cases h : step s a with
      | none => rfl
      | some s' => exact ih (List.pairwise_cons.mp has).2 (hI s a s' hs h)
  | swap a b as =>
      obtain ⟨hfirst, _⟩ := List.pairwise_cons.mp has
      have hab := hcomm s b a hs (hfirst a List.mem_cons_self)
      have hrun : ∀ c d : α, run step s (c :: d :: as)
          = ((step s c).bind (step · d)).bind fun u => run step u as := by
        intro c d
        rw [run, Option.bind_assoc]
        rfl
      rw [hrun, hrun, hab]
  | @trans as bs cs hp _ ih ih' =>
      have hbs := (hp.pairwise_iff fun h => hsymm _ _ h).mp has
      exact (ih has hs).trans (ih' hbs hs)

/-! ## Endless schedules -/

/-- The state behind `n` actions of a schedule; `none` when the machine has
    come to its end before. -/
def after (step : σ → α → Option σ) (s : σ) (schedule : Nat → α) (n : Nat) :
    Option σ :=
  run step s ((List.range n).map schedule)

end Machine
