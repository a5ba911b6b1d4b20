import Mathlib.Data.List.Forall2
import ZkmProver.Disk

/-! # The shard size — how `NetworkProve::new` passes it on

    The options come from the library, which reads `SHARD_SIZE` of the process
    environment.  `NetworkProve::new` sets that variable for the call and
    removes it after, also one that was there before.  So a job's options are
    its own only where the server was started without the variable, or no job
    sets a size (`prover_opts_of_job`). -/

namespace ZkmProver

/-- The process environment. -/
abbrev Env := String → Option String

namespace Env

/-- `std::env::set_var` -/
def setVar (env : Env) (key value : String) : Env :=
  Function.update env key (some value)

/-- `std::env::remove_var` -/
def removeVar (env : Env) (key : String) : Env :=
  Function.update env key none

theorem removeVar_setVar (env : Env) (key value : String) :
    (env.setVar key value).removeVar key = env.removeVar key :=
  Function.update_idem ..

theorem removeVar_eq_self {env : Env} {key : String} :
    env.removeVar key = env ↔ env key = none :=
  Function.update_eq_self_iff.trans eq_comm

end Env

/-- The library's options: the two that are read or set here, and the rest. -/
structure ZKMProverOpts (Rest : Type) where
  /-- `core_opts.shard_size` -/
  shardSize : Nat
  /-- `core_opts.split_opts.keccak` -/
  keccak : Nat
  rest : Rest

namespace NetworkProve

/-- The two ways to a `NetworkProve`, `new` with its `shard_size`. -/
inductive Call where
  | new (shardSize : UInt32)
  | default

variable {Rest : Type}

-- `ZKMProverOpts::default()`, which reads the environment
variable (defaultOpts : Env → ZKMProverOpts Rest)

/-- The options of `NetworkProve::new`, and the environment after it. -/
def new (shardSize : UInt32) (env : Env) : ZKMProverOpts Rest × Env :=
  let env := if 0 < shardSize
    then env.setVar "SHARD_SIZE" (Nat.repr shardSize.toNat) else env
  let keccaks := ((env "KECCAK_PER_SHARD").bind
    fun v => parseUsize v.toList).getD 0
  let opts := defaultOpts env
  let opts := if 0 < keccaks then { opts with keccak := keccaks } else opts
  let env := if 0 < shardSize then env.removeVar "SHARD_SIZE" else env
  (opts, env)

/-- The options a call makes, and the environment behind it. -/
def Call.run (env : Env) : Call → ZKMProverOpts Rest × Env
  | .new shardSize => NetworkProve.new defaultOpts shardSize env
  | .default => (defaultOpts env, env)

/-- One call after the other: the options of each, and the environment it
    leaves. -/
def runAll (env : Env) : List Call → List (ZKMProverOpts Rest × Env)
  | [] => []
  | call :: calls =>
      call.run defaultOpts env
        :: runAll (call.run defaultOpts env).2 calls

/-- The call's own size where it has one, else that of the options without. -/
def Call.shardSize (opts : ZKMProverOpts Rest) : Call → Nat
  | .new shardSize => if 0 < shardSize then shardSize.toNat else opts.shardSize
  | .default => opts.shardSize

/-- A call whose size is set and removed again. -/
def Call.Sets (call : Call) : Prop :=
  ∃ shardSize, 0 < shardSize ∧ call = .new shardSize

/-- What a call should return whatever was called before: the options it has in
    the initial environment, which it leaves as it is. -/
def OfJob (env : Env) (call : Call) (ret : ZKMProverOpts Rest × Env) : Prop :=
  ret.1 = (call.run defaultOpts env).1 ∧
    ret.1.shardSize = call.shardSize (defaultOpts env) ∧ ret.2 = env

variable {defaultOpts} {env : Env}

/-- After a call that sets a size the variable is gone. -/
theorem env_of_sets {call : Call} (hsets : call.Sets) :
    (call.run defaultOpts env).2 = env.removeVar "SHARD_SIZE" := by
  obtain ⟨shardSize, hpos, rfl⟩ := hsets
  simp only [Call.run, new, if_pos hpos, Env.removeVar_setVar]

theorem env_of_not_sets {call : Call} (hkeeps : ¬ call.Sets) :
    (call.run defaultOpts env).2 = env := by
  cases call with
  | new shardSize =>
      have hzero : ¬ 0 < shardSize := fun hpos => hkeeps ⟨shardSize, hpos, rfl⟩
      simp only [Call.run, new, if_neg hzero]
  | default => rfl

/-- The environment survives a call that sets no size, and any call where the
    variable is not there. -/
theorem env_kept_iff {call : Call} :
    (call.run defaultOpts env).2 = env
      ↔ env "SHARD_SIZE" = none ∨ ¬ call.Sets := by
  by_cases hsets : call.Sets
  · rw [env_of_sets hsets, Env.removeVar_eq_self]
    exact (or_iff_left (not_not_intro hsets)).symm
  · exact iff_of_true (env_of_not_sets hsets) (Or.inr hsets)

/-- The shard size of a call in its own environment. -/
theorem shardSize_run
    (hreads : ∀ (env : Env) (shardSize : UInt32), 0 < shardSize →
      env "SHARD_SIZE" = some (Nat.repr shardSize.toNat) →
      (defaultOpts env).shardSize = shardSize.toNat) (call : Call) :
    (call.run defaultOpts env).1.shardSize
      = call.shardSize (defaultOpts env) := by
  cases call with
  | default => rfl
  | new shardSize =>
      have hkeccak : ∀ (keccaks : Nat) (opts : ZKMProverOpts Rest),
          (if 0 < keccaks then { opts with keccak := keccaks }
            else opts).shardSize = opts.shardSize := by
        intro keccaks opts
        split <;> rfl
      simp only [Call.run, new, Call.shardSize, hkeccak]
      split
      case isTrue hpos =>
        exact hreads _ shardSize hpos (Function.update_self ..)
      case isFalse => rfl

/-- As long as every call keeps the environment, each one runs in the first. -/
theorem forall₂_ofJob_iff
    (hshard : ∀ call : Call, (call.run defaultOpts env).1.shardSize
      = call.shardSize (defaultOpts env)) (calls : List Call) :
    List.Forall₂ (OfJob defaultOpts env) calls (runAll defaultOpts env calls)
      ↔ ∀ call ∈ calls, (call.run defaultOpts env).2 = env := by
  induction calls with
  | nil => simp [runAll]
  | cons call calls ih =>
      rw [runAll, List.forall₂_cons, List.forall_mem_cons]
      -- the rest runs in what this call leaves
      constructor
      · rintro ⟨⟨_, _, hkept⟩, hrest⟩
        rw [hkept, ih] at hrest
        exact ⟨hkept, hrest⟩
      · rintro ⟨hkept, hrest⟩
        rw [hkept, ih]
        exact ⟨⟨rfl, hshard call, hkept⟩, hrest⟩

end NetworkProve

/-- **OPTIONS OF THE JOB**: in a sequence of calls every one returns what its
    own size and the initial environment determine, and leaves that
    environment, exactly when `SHARD_SIZE` was not set at first or no call sets
    a size. -/
theorem prover_opts_of_job {Rest : Type}
    (defaultOpts : Env → ZKMProverOpts Rest)
    (hreads : ∀ (env : Env) (shardSize : UInt32), 0 < shardSize →
      env "SHARD_SIZE" = some (Nat.repr shardSize.toNat) →
      (defaultOpts env).shardSize = shardSize.toNat)
    (env : Env) (calls : List NetworkProve.Call) :
    List.Forall₂ (NetworkProve.OfJob defaultOpts env) calls
        (NetworkProve.runAll defaultOpts env calls) ↔
      env "SHARD_SIZE" = none ∨ ∀ call ∈ calls, ¬ call.Sets := by
  rw [NetworkProve.forall₂_ofJob_iff (NetworkProve.shardSize_run hreads)]
  simp only [NetworkProve.env_kept_iff]
  constructor
  · intro hkept
    by_cases hnone : env "SHARD_SIZE" = none
    · exact Or.inl hnone
    · exact Or.inr fun call hcall => (hkept call hcall).resolve_left hnone
  · rintro (hnone | hkeeps) call hcall
    · exact Or.inl hnone
    · exact Or.inr (hkeeps call hcall)

/-- Options with `SHARD_SIZE` where it is a number, and `2 ^ 22` otherwise. -/
def optsFromEnv (env : Env) : ZKMProverOpts Unit :=
  ⟨((env "SHARD_SIZE").bind fun v => parseUsize v.toList).getD (2 ^ 22), 0, ()⟩

theorem optsFromEnv_shardSize (env : Env) (shardSize : UInt32)
    (h : env "SHARD_SIZE" = some (Nat.repr shardSize.toNat)) :
    (optsFromEnv env).shardSize = shardSize.toNat := by
  have hfits : shardSize.toNat < 2 ^ 64 :=
    Nat.lt_trans shardSize.toNat_lt (by decide)
  simp only [optsFromEnv, h, Option.bind_some, parseUsize_repr hfits,
    Option.getD_some]

theorem prover_opts_of_job_unset :
    List.Forall₂ (NetworkProve.OfJob optsFromEnv fun _ => none)
      [.new 65536, .default]
      (NetworkProve.runAll optsFromEnv (fun _ => none) [.new 65536, .default]) :=
  (prover_opts_of_job optsFromEnv
    (fun env shardSize _ => optsFromEnv_shardSize env shardSize) (fun _ => none)
    [.new 65536, .default]).mpr (Or.inl rfl)

/-- A server started with 65536: after a job of its own size, the next one
    without gets what the library has. -/
theorem prover_opts_forgotten :
    (NetworkProve.runAll optsFromEnv
        (Env.setVar (fun _ => none) "SHARD_SIZE" "65536")
        [.new 1024, .new 0]).map (fun ret => ret.1.shardSize) = [1024, 2 ^ 22] ∧
    ¬ List.Forall₂
        (NetworkProve.OfJob optsFromEnv
          (Env.setVar (fun _ => none) "SHARD_SIZE" "65536"))
        [.new 1024, .new 0]
        (NetworkProve.runAll optsFromEnv
          (Env.setVar (fun _ => none) "SHARD_SIZE" "65536")
          [.new 1024, .new 0]) := by
  constructor
  · decide
  · rw [NetworkProve.forall₂_ofJob_iff (NetworkProve.shardSize_run
      fun env shardSize _ => optsFromEnv_shardSize env shardSize)]
    intro hkept
    refine (NetworkProve.env_kept_iff.mp (hkept _ List.mem_cons_self)).elim
      (fun hnone => ?_) fun hkeeps => ?_
    · cases (Function.update_self ..).symm.trans hnone
    · exact hkeeps ⟨1024, by decide, rfl⟩

end ZkmProver
