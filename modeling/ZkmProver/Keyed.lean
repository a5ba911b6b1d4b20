import Mathlib.Data.List.Basic
import Mathlib.Data.List.Forall2
import Mathlib.Data.List.Nodup

/-! # Lists of records as tables keyed by an id

    A list whose entries have pairwise distinct keys is a table.  `put` writes
    an entry over the one with the same key.  The two scans a scheduler makes
    over such a list, "find the first entry that passes and update it"
    (`findSome?` with `replaceF`) and "count the copies of an entry", are
    described here in terms of `put` and of the keys, so that no invariant
    proof has to follow a scan. -/

namespace Keyed

variable {α κ γ : Type} [DecidableEq κ]

/-- Write `y` over the entries that have its key. -/
def put (key : α → κ) (y : α) (l : List α) : List α :=
  l.map fun x => if key x = key y then y else x

@[simp] theorem length_put (key : α → κ) (y : α) (l : List α) :
    (put key y l).length = l.length := by
  simp [put]

/-- What is in the list after the put. -/
theorem mem_put {key : α → κ} {y z : α} {l : List α} :
    z ∈ put key y l ↔
      (z ∈ l ∧ key z ≠ key y) ∨ (z = y ∧ ∃ x ∈ l, key x = key y) := by
  rw [put, List.mem_map]
  constructor
  · rintro ⟨x, hx, rfl⟩
    by_cases h : key x = key y
    · rw [if_pos h]
      exact Or.inr ⟨rfl, x, hx, h⟩
    · rw [if_neg h]
      exact Or.inl ⟨hx, h⟩
  · rintro (⟨hz, hne⟩ | ⟨rfl, x, hx, h⟩)
    · exact ⟨z, hz, if_neg hne⟩
    · exact ⟨x, hx, if_pos h⟩

/-- A projection that the write leaves alone. -/
theorem map_put {key : α → κ} {y : α} {l : List α} (g : α → γ)
    (h : ∀ x ∈ l, key x = key y → g x = g y) :
    (put key y l).map g = l.map g := by
  rw [put, List.map_map]
  refine List.map_congr_left ?_
  intro x hx
  by_cases hk : key x = key y
  · simp [hk, h x hx hk]
  · simp [hk]

@[simp] theorem map_key_put (key : α → κ) (y : α) (l : List α) :
    (put key y l).map key = l.map key :=
  map_put key fun _ _ h => h

omit [DecidableEq κ] in
/-- Distinct keys: an entry is determined by its key. -/
theorem eq_of_key {key : α → κ} {l : List α} (hnd : (l.map key).Nodup)
    {x y : α} (hx : x ∈ l) (hy : y ∈ l) (h : key x = key y) : x = y :=
  List.inj_on_of_nodup_map hnd hx hy h

omit [DecidableEq κ] in
/-- Lists of entries of a table are known by their keys. -/
theorem eq_of_map_key {key : α → κ} {table : List α}
    (hnd : (table.map key).Nodup) :
    ∀ {l m : List α}, (∀ x ∈ l, x ∈ table) → (∀ x ∈ m, x ∈ table) →
      l.map key = m.map key → l = m
  | [], [], _, _, _ => rfl
  | [], _ :: _, _, _, h => nomatch h
  | _ :: _, [], _, _, h => nomatch h
  | x :: l, y :: m, hl, hm, h => by
      rw [List.map_cons, List.map_cons, List.cons.injEq] at h
      have hxy := eq_of_key hnd (hl x (List.mem_cons_self ..))
        (hm y (List.mem_cons_self ..)) h.1
      rw [hxy, eq_of_map_key hnd
        (fun z hz => hl z (List.mem_cons_of_mem _ hz))
        (fun z hz => hm z (List.mem_cons_of_mem _ hz)) h.2]

/-- Without a hit nothing is replaced. -/
theorem findSome?_none {f : α → Option α} {l : List α}
    (h : l.findSome? f = none) : l.replaceF f = l := by
  rw [List.findSome?_eq_none_iff] at h
  exact List.replaceF_of_forall_none h

/-- **SCAN AND UPDATE**: where keys are distinct and updates keep the key,
    replacing the first entry that passes is one `put`. -/
theorem replaceF_eq_put {key : α → κ} {f : α → Option α} {l : List α}
    (hnd : (l.map key).Nodup) (hkey : ∀ x y, f x = some y → key y = key x)
    {y : α} (h : l.findSome? f = some y) : l.replaceF f = put key y l := by
  induction l with
  | nil => simp at h
  | cons x l ih =>
      rw [List.map_cons, List.nodup_cons] at hnd
      cases hx : f x with
      | some x' =>
          rw [List.findSome?_cons, hx] at h
          cases h
          rw [List.replaceF_cons_of_some f hx, put, List.map_cons,
            if_pos (hkey x y hx).symm]
          -- the key of `x` occurs nowhere else
          have hrest : ∀ z ∈ l, (if key z = key y then y else z) = id z := by
            intro z hz
            refine if_neg fun hzy => hnd.1 ?_
            rw [← hkey x y hx, ← hzy]
            exact List.mem_map_of_mem hz
          rw [List.map_congr_left hrest, List.map_id]
      | none =>
          rw [List.findSome?_cons, hx] at h
          obtain ⟨z, hz, hzy⟩ := List.exists_of_findSome?_eq_some h
          have hne : key x ≠ key y := by
            intro hxy
            refine hnd.1 ?_
            rw [hxy, hkey z y hzy]
            exact List.mem_map_of_mem hz
          rw [List.replaceF_cons_of_none f hx, ih hnd.2 h, put, put,
            List.map_cons, if_neg hne]

omit [DecidableEq κ] in
/-- A projection that the update leaves alone. -/
theorem map_replaceF {f : α → Option α} (g : α → γ)
    (h : ∀ x y, f x = some y → g y = g x) (l : List α) :
    (l.replaceF f).map g = l.map g := by
  induction l with
  | nil => rfl
  | cons x l ih =>
      cases hx : f x with
      | none => rw [List.replaceF_cons_of_none f hx, List.map_cons, ih,
          List.map_cons]
      | some y => rw [List.replaceF_cons_of_some f hx, List.map_cons,
          List.map_cons, h x y hx]

/-- Writing over one entry of a table: the others stay as they are. -/
theorem map_put_of_mem {key : α → κ} {x y : α} {l : List α} (g : α → γ)
    (hnd : (l.map key).Nodup) (hx : x ∈ l) (hkey : key y = key x)
    (hg : g y = g x) : (put key y l).map g = l.map g := by
  refine map_put g ?_
  intro z hz hzy
  rw [eq_of_key hnd hz hx (hzy.trans hkey), hg]

/-- What an entry is like after a write over `x`. -/
theorem exists_put {key : α → κ} {x y : α} {l : List α} {P : α → Prop}
    (hx : x ∈ l) (hkey : key y = key x) (k : κ) :
    (∃ z ∈ put key y l, key z = k ∧ P z)
      ↔ (k = key x ∧ P y) ∨ (k ≠ key x ∧ ∃ z ∈ l, key z = k ∧ P z) := by
  constructor
  · rintro ⟨z, hz, rfl, hP⟩
    rcases mem_put.mp hz with ⟨hz, hne⟩ | ⟨rfl, _⟩
    · exact Or.inr ⟨hkey ▸ hne, z, hz, rfl, hP⟩
    · exact Or.inl ⟨hkey, hP⟩
  · rintro (⟨rfl, hP⟩ | ⟨hne, z, hz, rfl, hP⟩)
    · exact ⟨y, mem_put.mpr (Or.inr ⟨rfl, x, hx, hkey.symm⟩), hkey, hP⟩
    · exact ⟨z, mem_put.mpr (Or.inl ⟨hz, hkey ▸ hne⟩), rfl, hP⟩

/-- Where the entry with the key of `y` is `x`. -/
theorem mem_put_of_mem {key : α → κ} {x y z : α} {l : List α}
    (hx : x ∈ l) (hkey : key y = key x) :
    z ∈ put key y l ↔ z = y ∨ (z ∈ l ∧ key z ≠ key x) := by
  rw [mem_put, hkey]
  constructor
  · rintro (h | ⟨rfl, _⟩)
    · exact Or.inr h
    · exact Or.inl rfl
  · rintro (rfl | h)
    · exact Or.inr ⟨rfl, x, hx, rfl⟩
    · exact Or.inl h

/-- Only the last write of an entry counts. -/
theorem put_put {key : α → κ} {y z : α} (hkey : key z = key y) (l : List α) :
    put key z (put key y l) = put key z l := by
  rw [put, put, put, List.map_map]
  refine List.map_congr_left fun x _ => ?_
  by_cases hx : key x = key y
  · simp [hx, hkey]
  · simp [hx, hkey]

/-- A table that is as before, but for the entry `x`. -/
theorem forall₂_put {key : α → κ} {R : α → α → Prop} (hrefl : ∀ z, R z z)
    {l : List α} (hnd : (l.map key).Nodup) {x y : α} (hx : x ∈ l)
    (hkey : key y = key x) (hxy : R x y) : List.Forall₂ R l (put key y l) := by
  rw [put, List.forall₂_map_right_iff]
  refine List.forall₂_same.mpr fun z hz => ?_
  split
  case isTrue hzy => rwa [eq_of_key hnd hz hx (hzy.trans hkey)]
  case isFalse => exact hrefl z

omit [DecidableEq κ] in
/-- A property of the keys is a property of the row of keys. -/
theorem forall_key {key : α → κ} {P : κ → Prop} {l m : List α}
    (hkeys : m.map key = l.map key) (h : ∀ x ∈ l, P (key x)) :
    ∀ x ∈ m, P (key x) := by
  intro x hx
  have hmem : key x ∈ l.map key := hkeys ▸ List.mem_map_of_mem hx
  obtain ⟨y, hy, hyx⟩ := List.mem_map.mp hmem
  rw [← hyx]
  exact h y hy

omit [DecidableEq κ] in
/-- Two lists with one row of keys have the same keys. -/
theorem exists_key {key : α → κ} {l m : List α}
    (hkeys : m.map key = l.map key) {x : α} (hx : x ∈ l) :
    ∃ y ∈ m, key y = key x := by
  have hmem : key x ∈ m.map key := hkeys ▸ List.mem_map_of_mem hx
  exact List.mem_map.mp hmem

/-! ## Looking up a key -/

/-- Looking up a value depends on the keys and values alone. -/
theorem find?_map_congr {key : α → κ} {f : α → γ} {l m : List α}
    (h : m.map (fun x => (key x, f x)) = l.map (fun x => (key x, f x)))
    (k : κ) :
    (m.find? fun x => key x = k).map f = (l.find? fun x => key x = k).map f := by
  have hpair : ∀ l : List α, (l.find? fun x => key x = k).map f
      = ((l.map fun x => (key x, f x)).find? fun p => p.1 = k).map (·.2) := by
    intro l
    rw [List.find?_map, Option.map_map]
    rfl
  rw [hpair, hpair, h]

/-- In a table an entry is found under its key. -/
theorem find?_of_mem {key : α → κ} {l : List α} (hnd : (l.map key).Nodup)
    {x : α} (hx : x ∈ l) : (l.find? fun y => key y = key x) = some x := by
  cases hfind : l.find? fun y => key y = key x with
  | none =>
      rw [List.find?_eq_none] at hfind
      exact absurd (hfind x hx) (by simp)
  | some y =>
      have hkey : key y = key x := by simpa using List.find?_some hfind
      rw [eq_of_key hnd (List.mem_of_find?_eq_some hfind) hx hkey]

/-- Keys that are all there are looked up in their order. -/
theorem map_key_lookup {key : α → κ} {l : List α} {ks : List κ}
    (h : ∀ k ∈ ks, ∃ x ∈ l, key x = k) :
    (ks.filterMap fun k => l.find? fun x => key x = k).map key = ks := by
  induction ks with
  | nil => rfl
  | cons k ks ih =>
      obtain ⟨x, hx, hk⟩ := h k (List.mem_cons_self ..)
      have hrest := ih fun k' hk' => h k' (List.mem_cons_of_mem k hk')
      cases hfind : l.find? fun y => decide (key y = k) with
      | none =>
          rw [List.find?_eq_none] at hfind
          exact absurd hk (by simpa using hfind x hx)
      | some y =>
          have hkey : key y = k := by simpa using List.find?_some hfind
          rw [List.filterMap_cons, hfind]
          show key y :: _ = _
          rw [hkey, hrest]

omit [DecidableEq κ] in
theorem replaceF_find?_none {p : α → Bool} {f : α → α} {l : List α}
    (h : l.find? p = none) :
    (l.replaceF fun x => if p x then some (f x) else none) = l := by
  rw [List.find?_eq_none] at h
  exact List.replaceF_of_forall_none fun x hx => if_neg (h x hx)

/-- Updating the first entry that passes a test. -/
theorem replaceF_find?_some {key : α → κ} {p : α → Bool} {f : α → α}
    {l : List α} (hnd : (l.map key).Nodup) (hkey : ∀ x, key (f x) = key x)
    {x : α} (h : l.find? p = some x) :
    (l.replaceF fun x => if p x then some (f x) else none)
      = put key (f x) l := by
  refine replaceF_eq_put hnd ?_ ?_
  · intro a b hab
    split at hab
    · rw [← Option.some.inj hab, hkey]
    · exact nomatch hab
  · clear hnd
    induction l with
    | nil => exact nomatch h
    | cons a l ih =>
        rw [List.findSome?_cons]
        by_cases hp : p a = true
        · rw [List.find?_cons_of_pos hp] at h
          rw [if_pos hp, ← Option.some.inj h]
        · rw [List.find?_cons_of_neg hp] at h
          rw [if_neg hp]
          exact ih h

/-! ## Two updates of one list -/

/-- Through a projection. -/
theorem replaceF_map {f : α → Option α} {f' : γ → Option γ} {u : α → γ}
    (h : ∀ x, (f x).map u = f' (u x)) (l : List α) :
    (l.replaceF f).map u = (l.map u).replaceF f' := by
  induction l with
  | nil => rfl
  | cons x l ih =>
      rw [List.map_cons]
      have hx := h x
      cases hf : f x with
      | none =>
          rw [hf, Option.map_none] at hx
          rw [List.replaceF_cons_of_none f hf,
            List.replaceF_cons_of_none f' hx.symm, List.map_cons, ih]
      | some y =>
          rw [hf, Option.map_some] at hx
          rw [List.replaceF_cons_of_some f hf,
            List.replaceF_cons_of_some f' hx.symm, List.map_cons]

/-- Two updates do not get into each other's way at an entry. -/
inductive Apart (f g : α → Option α) (x : α) : Prop where
  | neither : f x = none → g x = none → Apart f g x
  | left (y : α) : f x = some y → g x = none → g y = none → Apart f g x
  | right (z : α) : g x = some z → f x = none → f z = none → Apart f g x
  | both (y z v : α) : f x = some y → g x = some z → g y = some v →
      f z = some v → Apart f g x

theorem Apart.symm {f g : α → Option α} {x : α} (h : Apart f g x) :
    Apart g f x := by
  cases h with
  | neither hf hg => exact .neither hg hf
  | left y hf hg hgy => exact .right y hf hg hgy
  | right z hg hf hfz => exact .left z hg hf hfz
  | both y z v hf hg hgy hfz => exact .both z y v hg hf hfz hgy

/-- Updates of entries with different keys. -/
theorem Apart.of_key {f g : α → Option α} {key : α → γ} {k k' : γ}
    (hne : k ≠ k') (hf : ∀ x y, f x = some y → key x = k ∧ key y = k)
    (hg : ∀ x y, g x = some y → key x = k' ∧ key y = k') (x : α) :
    Apart f g x := by
  have hno : ∀ z, key z = k → g z = none := by
    intro z hz
    refine Option.eq_none_iff_forall_ne_some.mpr fun v hv => ?_
    exact hne (hz.symm.trans (hg z v hv).1)
  have hno' : ∀ z, key z = k' → f z = none := by
    intro z hz
    refine Option.eq_none_iff_forall_ne_some.mpr fun v hv => ?_
    exact hne ((hf z v hv).1.symm.trans hz)
  cases hfx : f x with
  | some y =>
      obtain ⟨hx, hy⟩ := hf x y hfx
      exact .left y hfx (hno x hx) (hno y hy)
  | none =>
      cases hgx : g x with
      | some z => exact .right z hgx hfx (hno' z (hg x z hgx).2)
      | none => exact .neither hfx hgx

theorem Apart.none {g : α → Option α} (x : α) :
    Apart (fun _ => Option.none) g x := by
  cases hg : g x with
  | some z => exact .right z hg rfl rfl
  | none => exact .neither rfl hg

/-- Updates of a part are apart where the part is. -/
theorem Apart.map {f g : α → Option α} {f' g' : γ → Option γ} {u : α → γ}
    (hf' : ∀ x, f' (u x) = (f x).map u) (hg' : ∀ x, g' (u x) = (g x).map u)
    {x : α} (h : Apart f g x) : Apart f' g' (u x) := by
  cases h with
  | neither hf hg =>
      refine .neither ?_ ?_
      · rw [hf', hf, Option.map_none]
      · rw [hg', hg, Option.map_none]
  | left y hf hg hgy =>
      refine .left (u y) ?_ ?_ ?_
      · rw [hf', hf, Option.map_some]
      · rw [hg', hg, Option.map_none]
      · rw [hg', hgy, Option.map_none]
  | right z hg hf hfz =>
      refine .right (u z) ?_ ?_ ?_
      · rw [hg', hg, Option.map_some]
      · rw [hf', hf, Option.map_none]
      · rw [hf', hfz, Option.map_none]
  | both y z v hf hg hgy hfz =>
      refine .both (u y) (u z) (u v) ?_ ?_ ?_ ?_
      · rw [hf', hf, Option.map_some]
      · rw [hg', hg, Option.map_some]
      · rw [hg', hgy, Option.map_some]
      · rw [hf', hfz, Option.map_some]

/-- Replacements at two places, in either order. -/
theorem replaceF_comm {f g : α → Option α} {l : List α}
    (h : ∀ x ∈ l, Apart f g x) :
    (l.replaceF f).replaceF g = (l.replaceF g).replaceF f := by
  induction l with
  | nil => rfl
  | cons x l ih =>
      have hrest := ih fun y hy => h y (List.mem_cons_of_mem x hy)
      cases h x List.mem_cons_self with
      | neither hf hg =>
          rw [List.replaceF_cons_of_none f hf, List.replaceF_cons_of_none g hg,
            List.replaceF_cons_of_none g hg, List.replaceF_cons_of_none f hf,
            hrest]
      | left y hf hg hgy =>
          rw [List.replaceF_cons_of_some f hf, List.replaceF_cons_of_none g hg,
            List.replaceF_cons_of_none g hgy, List.replaceF_cons_of_some f hf]
      | right z hg hf hfz =>
          rw [List.replaceF_cons_of_none f hf, List.replaceF_cons_of_some g hg,
            List.replaceF_cons_of_some g hg, List.replaceF_cons_of_none f hfz]
      | both y z v hf hg hgy hfz =>
          rw [List.replaceF_cons_of_some f hf, List.replaceF_cons_of_some g hg,
            List.replaceF_cons_of_some g hgy, List.replaceF_cons_of_some f hfz]

/-- What is in the list after the replacement. -/
theorem mem_replaceF {f : α → Option α} {l : List α} {y : α}
    (h : y ∈ l.replaceF f) : y ∈ l ∨ ∃ x ∈ l, f x = some y := by
  induction l with
  | nil => exact Or.inl h
  | cons x l ih =>
      cases hf : f x with
      | none =>
          rw [List.replaceF_cons_of_none f hf] at h
          rcases List.mem_cons.mp h with rfl | h
          · exact Or.inl List.mem_cons_self
          · rcases ih h with hold | ⟨z, hz, hzy⟩
            · exact Or.inl (List.mem_cons_of_mem x hold)
            · exact Or.inr ⟨z, List.mem_cons_of_mem x hz, hzy⟩
      | some z =>
          rw [List.replaceF_cons_of_some f hf] at h
          rcases List.mem_cons.mp h with rfl | h
          · exact Or.inr ⟨x, List.mem_cons_self, hf⟩
          · exact Or.inl (List.mem_cons_of_mem x h)

/-- What holds of all entries and is kept by the update. -/
theorem forall_replaceF {P : α → Prop} {f : α → Option α} {l : List α}
    (hl : ∀ x ∈ l, P x) (hf : ∀ x y, P x → f x = some y → P y) :
    ∀ y ∈ l.replaceF f, P y := by
  intro y hy
  rcases mem_replaceF hy with hy | ⟨x, hx, hxy⟩
  · exact hl y hy
  · exact hf x y (hl x hx) hxy

/-- A test that the update does not change the outcome of. -/
theorem find?_isSome_replaceF {p : α → Bool} {f : α → Option α} {l : List α}
    (h : ∀ x ∈ l, ∀ y, f x = some y → p y = p x) :
    ((l.replaceF f).find? p).isSome = (l.find? p).isSome := by
  induction l with
  | nil => rfl
  | cons x l ih =>
      have hrest := ih fun y hy => h y (List.mem_cons_of_mem x hy)
      cases hf : f x with
      | none =>
          rw [List.replaceF_cons_of_none f hf, List.find?_cons, List.find?_cons]
          cases p x with
          | true => rfl
          | false => exact hrest
      | some y =>
          have hxy := h x List.mem_cons_self y hf
          rw [List.replaceF_cons_of_some f hf, List.find?_cons, List.find?_cons,
            hxy]
          cases p x <;> rfl

/-- Entries that fail a test before and after do not matter to it. -/
theorem find?_replaceF {p : α → Bool} {f : α → Option α} {l : List α}
    (h : ∀ x y, f x = some y → p x = false ∧ p y = false) :
    (l.replaceF f).find? p = l.find? p := by
  induction l with
  | nil => rfl
  | cons x l ih =>
      cases hf : f x with
      | none =>
          rw [List.replaceF_cons_of_none f hf, List.find?_cons, List.find?_cons,
            ih]
      | some y =>
          obtain ⟨hx, hy⟩ := h x y hf
          rw [List.replaceF_cons_of_some f hf, List.find?_cons, List.find?_cons,
            hx, hy]

/-! ## Drawing fresh keys -/

section Fresh

variable {key : α → Nat} {l new : List α} {u : Nat}

/-- New keys from the counter on are no old ones. -/
theorem nodup_append_fresh (hnd : (l.map key).Nodup) (hlt : ∀ x ∈ l, key x < u)
    (hnew : new.map key = List.range' u new.length) :
    ((l ++ new).map key).Nodup := by
  rw [List.map_append, List.nodup_append]
  refine ⟨hnd, hnew ▸ List.nodup_range', ?_⟩
  intro a ha b hb hab
  obtain ⟨x, hx, rfl⟩ := List.mem_map.mp ha
  have h1 := hlt x hx
  rw [hnew, List.mem_range'_1] at hb
  omega

/-- New keys are those from the counter on. -/
theorem fresh_range (hnew : new.map key = List.range' u new.length) :
    ∀ x ∈ new, u ≤ key x ∧ key x < u + new.length := by
  intro x hx
  have hmem : key x ∈ new.map key := List.mem_map_of_mem hx
  rwa [hnew, List.mem_range'_1] at hmem

/-- All keys are below the counter behind them. -/
theorem lt_append_fresh (hlt : ∀ x ∈ l, key x < u)
    (hnew : new.map key = List.range' u new.length) :
    ∀ x ∈ l ++ new, key x < u + new.length := by
  intro x hx
  rcases List.mem_append.mp hx with hx | hx
  · have := hlt x hx
    omega
  · exact (fresh_range hnew x hx).2

end Fresh

/-! ## Copies of an entry -/

/-- How many copies of the entry with key `k` a list holds. -/
def copies (key : α → κ) (k : κ) (l : List α) : Nat :=
  l.countP fun x => decide (key x = k)

@[simp] theorem copies_nil (key : α → κ) (k : κ) : copies key k [] = 0 := rfl

@[simp] theorem copies_append (key : α → κ) (k : κ) (l m : List α) :
    copies key k (l ++ m) = copies key k l + copies key k m :=
  List.countP_append

@[simp] theorem copies_cons (key : α → κ) (k : κ) (x : α) (l : List α) :
    copies key k (x :: l) = copies key k l + if key x = k then 1 else 0 := by
  simp [copies, List.countP_cons]

/-- A copy with another key does not count. -/
theorem copies_snoc_of_ne {key : α → κ} {k : κ} {x : α} (h : key x ≠ k)
    (l : List α) : copies key k (l ++ [x]) = copies key k l := by
  rw [copies_append, copies_cons, copies_nil, if_neg h]
  rfl

/-- A copy that is there counts. -/
theorem copies_pos (key : α → κ) {x : α} {l : List α} (h : x ∈ l) :
    0 < copies key (key x) l :=
  List.countP_pos_iff.mpr ⟨x, h, by simp⟩

/-- No copy, no key. -/
theorem copies_eq_zero {key : α → κ} {k : κ} {l : List α} :
    copies key k l = 0 ↔ ∀ x ∈ l, key x ≠ k := by
  simp [copies, List.countP_eq_zero]

/-- Taking the `i`-th copy away. -/
theorem copies_eraseIdx (key : α → κ) (k : κ) {l : List α} {i : Nat} {x : α}
    (h : l[i]? = some x) :
    copies key k (l.eraseIdx i) + (if key x = k then 1 else 0)
      = copies key k l := by
  obtain ⟨hi, rfl⟩ := List.getElem?_eq_some_iff.mp h
  have hsplit : l = l.take i ++ l[i] :: l.drop (i + 1) := by
    rw [← List.drop_eq_getElem_cons hi, List.take_append_drop]
  have hcount := congrArg (copies key k) hsplit
  rw [copies_append, copies_cons] at hcount
  rw [List.eraseIdx_eq_take_drop_succ, copies_append]
  omega

/-- Writing over the `i`-th entry. -/
theorem copies_set (key : α → κ) (k : κ) {l : List α} {i : Nat} {x : α}
    (h : l[i]? = some x) (y : α) :
    copies key k (l.set i y) + (if key x = k then 1 else 0)
      = copies key k l + if key y = k then 1 else 0 := by
  obtain ⟨hi, rfl⟩ := List.getElem?_eq_some_iff.mp h
  have hsplit : l = l.take i ++ l[i] :: l.drop (i + 1) := by
    rw [← List.drop_eq_getElem_cons hi, List.take_append_drop]
  have hcount := congrArg (copies key k) hsplit
  rw [copies_append, copies_cons] at hcount
  rw [List.set_eq_take_append_cons_drop, if_pos hi, copies_append, copies_cons]
  omega

/-- Two entries with one key are counted twice. -/
theorem two_le_copies {key : α → κ} {k : κ} {l : List α} {i j : Nat} {x y : α}
    (hi : l[i]? = some x) (hj : l[j]? = some y) (hne : i ≠ j)
    (hx : key x = k) (hy : key y = k) : 2 ≤ copies key k l := by
  have hcount := copies_eraseIdx key k hi
  rw [if_pos hx] at hcount
  have hmem : y ∈ l.eraseIdx i := by
    refine List.mem_iff_getElem?.mpr ?_
    rcases Nat.lt_or_gt_of_ne hne with hlt | hgt
    · refine ⟨j - 1, ?_⟩
      rw [List.getElem?_eraseIdx, if_neg (by omega), Nat.sub_add_cancel (by omega)]
      exact hj
    · refine ⟨j, ?_⟩
      rw [List.getElem?_eraseIdx, if_pos hgt]
      exact hj
  have hpos := copies_pos key hmem
  rw [hy] at hpos
  omega

/-- What counts is there. -/
theorem exists_of_copies {key : α → κ} {k : κ} {l : List α}
    (h : 0 < copies key k l) : ∃ x ∈ l, key x = k := by
  obtain ⟨x, hx, hk⟩ := List.countP_pos_iff.mp h
  exact ⟨x, hx, of_decide_eq_true hk⟩

/-! ## Leases -/

/-- A table whose busy entries are out as copies: no entry has two copies out,
    and an entry with a copy out is busy. -/
structure Lease (key : α → κ) (busy : α → Prop) (table out : List α) :
    Prop where
  once : ∀ k, copies key k out ≤ 1
  busy : ∀ c ∈ out, ∀ x ∈ table, key x = key c → busy x

/-- Every busy entry has a copy out, or something was `lost`. -/
def Accounted (key : α → κ) (busy : α → Prop) (table out : List α)
    (lost : Prop) : Prop :=
  ∀ x ∈ table, busy x → lost ∨ ∃ c ∈ out, key c = key x

/-- The entry `x` is in the table, up to what is neither key nor `busy`. -/
def Same (key : α → κ) (busy : α → Prop) (table : List α) (x : α) : Prop :=
  ∃ y ∈ table, key y = key x ∧ (busy y ↔ busy x)

omit [DecidableEq κ] in
theorem Same.of_mem {key : α → κ} {busy : α → Prop} {table : List α} {x : α}
    (h : x ∈ table) : Same key busy table x := ⟨x, h, rfl, Iff.rfl⟩

namespace Lease

variable {key : α → κ} {busy : α → Prop} {table table' out : List α}

/-- With nothing busy nothing is out. -/
theorem start : Lease key busy table [] :=
  ⟨fun _ => Nat.zero_le _, fun _ hc => nomatch hc⟩

/-- The table loses entries, or gains some that no copy is of. -/
theorem change (h : Lease key busy table out)
    (hsub : ∀ x ∈ table', Same key busy table x ∨ ∀ c ∈ out, key x ≠ key c) :
    Lease key busy table' out := by
  refine ⟨h.once, ?_⟩
  intro c hc x hx hk
  rcases hsub x hx with ⟨y, hy, hyx, hbusy⟩ | hno
  · exact hbusy.mp (h.busy c hc y hy (hyx.trans hk))
  · exact absurd hk (hno c hc)

/-- **HAND OUT**: an idle entry becomes busy and a copy goes out. -/
theorem handOut (h : Lease key busy table out) {x y c : α} (hx : x ∈ table)
    (hidle : ¬ busy x) (hy : key y = key x) (hbusy : busy y)
    (hc : key c = key x) : Lease key busy (put key y table) (out ++ [c]) := by
  have hnone : ∀ d ∈ out, key d ≠ key x :=
    fun d hd hk => hidle (h.busy d hd x hx hk.symm)
  refine ⟨?_, ?_⟩
  · intro k
    rw [copies_append, copies_cons, copies_nil]
    by_cases hk : key c = k
    · have hzero : copies key k out = 0 :=
        copies_eq_zero.mpr (by rw [← hk, hc]; exact hnone)
      have hone : (if key c = k then 1 else 0) = 1 := if_pos hk
      omega
    · rw [if_neg hk]
      exact h.once k
  · intro d hd z hz hk
    rcases (mem_put_of_mem hx hy).mp hz with rfl | ⟨hz, hne⟩
    · exact hbusy
    · rcases List.mem_append.mp hd with hd | hd
      · exact h.busy d hd z hz hk
      · rw [List.mem_singleton.mp hd, hc] at hk
        exact absurd hk hne

/-- The other copies have other keys. -/
theorem others (h : Lease key busy table out) {i : Nat} {c : α}
    (hi : out[i]? = some c) : ∀ d ∈ out.eraseIdx i, key d ≠ key c := by
  have hcount := copies_eraseIdx key (key c) hi
  rw [if_pos rfl] at hcount
  have hone := h.once (key c)
  exact copies_eq_zero.mp (by omega)

/-- **TAKE BACK**: a copy comes back; its entry may change in any way. -/
theorem takeBack (h : Lease key busy table out) {i : Nat} {c : α}
    (hi : out[i]? = some c)
    (hsub : ∀ x ∈ table', Same key busy table x ∨ key x = key c) :
    Lease key busy table' (out.eraseIdx i) := by
  refine ⟨?_, ?_⟩
  · intro k
    have hcount := copies_eraseIdx key k hi
    have hone := h.once k
    omega
  · intro d hd x hx hk
    have hne := h.others hi d hd
    rcases hsub x hx with ⟨y, hy, hyx, hbusy⟩ | hx
    · exact hbusy.mp
        (h.busy d (List.mem_of_mem_eraseIdx hd) y hy (hyx.trans hk))
    · exact absurd (hk.symm.trans hx) hne

/-- Busy entries have exactly one copy out, idle ones none. -/
theorem count (h : Lease key busy table out)
    (ha : Accounted key busy table out False) {x : α} (hx : x ∈ table) :
    (busy x → copies key (key x) out = 1) ∧
      (¬ busy x → copies key (key x) out = 0) := by
  constructor
  · intro hb
    obtain hl | ⟨c, hc, hk⟩ := ha x hx hb
    · exact hl.elim
    · have hpos := copies_pos key hc
      rw [hk] at hpos
      have hone := h.once (key x)
      omega
  · intro hb
    refine copies_eq_zero.mpr ?_
    intro c hc hk
    exact hb (h.busy c hc x hx hk.symm)

end Lease

namespace Accounted

variable {key : α → κ} {busy : α → Prop} {table table' out : List α}
  {lost lost' : Prop}

omit [DecidableEq κ] in
/-- What may be lost may also be more. -/
theorem mono (h : Accounted key busy table out lost) (hmono : lost → lost') :
    Accounted key busy table out lost' :=
  fun x hx hb => (h x hx hb).imp_left hmono

omit [DecidableEq κ] in
/-- The table may change where nothing is busy. -/
theorem change (h : Accounted key busy table out lost)
    (hsub : ∀ x ∈ table', busy x → Same key busy table x) :
    Accounted key busy table' out lost := by
  intro x hx hb
  obtain ⟨y, hy, hyx, hbusy⟩ := hsub x hx hb
  rcases h y hy (hbusy.mpr hb) with hl | ⟨c, hc, hk⟩
  · exact Or.inl hl
  · exact Or.inr ⟨c, hc, hk.trans hyx⟩

/-- An entry is handed out. -/
theorem handOut (h : Accounted key busy table out lost) {x y c : α}
    (hx : x ∈ table) (hy : key y = key x) (hc : key c = key x) :
    Accounted key busy (put key y table) (out ++ [c]) lost := by
  intro z hz hb
  rcases (mem_put_of_mem hx hy).mp hz with rfl | ⟨hz, _⟩
  · exact Or.inr ⟨c, by simp, hc.trans hy.symm⟩
  · rcases h z hz hb with hl | ⟨d, hd, hk⟩
    · exact Or.inl hl
    · exact Or.inr ⟨d, List.mem_append_left _ hd, hk⟩

/-- The entry of a copy that comes back is busy no more, or the result was
    lost. -/
theorem takeBack (h : Accounted key busy table out lost) {i : Nat} {c : α}
    (hi : out[i]? = some c) (hmono : lost → lost')
    (hsub : ∀ x ∈ table', busy x →
      (Same key busy table x ∧ key x ≠ key c) ∨ lost') :
    Accounted key busy table' (out.eraseIdx i) lost' := by
  intro x hx hb
  rcases hsub x hx hb with ⟨⟨y, hy, hyx, hbusy⟩, hne⟩ | hl
  · rcases h y hy (hbusy.mpr hb) with hl | ⟨d, hd, hk⟩
    · exact Or.inl (hmono hl)
    · rw [hyx] at hk
      have hpos := copies_pos key hd
      have hcount := copies_eraseIdx key (key d) hi
      have hcd : key c ≠ key d := by
        intro hcd
        exact hne (hk.symm.trans hcd.symm)
      rw [if_neg hcd] at hcount
      have hleft : 0 < copies key (key d) (out.eraseIdx i) := by omega
      obtain ⟨e, he, hke⟩ := exists_of_copies hleft
      exact Or.inr ⟨e, he, hke.trans hk⟩
  · exact Or.inl hl

end Accounted

/-! ## Weights -/

/-- The sum of some numbers. -/
def total : List Nat → Nat
  | [] => 0
  | n :: ns => n + total ns

omit [DecidableEq κ] in
/-- The sum of two lists. -/
theorem total_append (ns ms : List Nat) :
    total (ns ++ ms) = total ns + total ms := by
  induction ns with
  | nil => exact (Nat.zero_add _).symm
  | cons n ns ih => rw [List.cons_append, total, total, ih, Nat.add_assoc]

omit [DecidableEq κ] in
/-- An entry is taken out. -/
theorem total_eraseIdx (f : α → Nat) {l : List α} {i : Nat} {x : α}
    (hi : l[i]? = some x) :
    total ((l.eraseIdx i).map f) + f x = total (l.map f) := by
  induction l generalizing i with
  | nil => cases hi
  | cons y l ih =>
      cases i with
      | zero =>
          cases hi
          simp [total, Nat.add_comm]
      | succ i =>
          have hrest := ih hi
          simp only [List.eraseIdx_cons_succ, List.map_cons, total]
          omega

/-- One entry of a table is written over. -/
theorem total_put (f : α → Nat) {key : α → κ} {l : List α}
    (hnd : (l.map key).Nodup) {x y : α} (hx : x ∈ l) (hkey : key y = key x) :
    total ((put key y l).map f) + f x = total (l.map f) + f y := by
  induction l with
  | nil => cases hx
  | cons z l ih =>
      rw [List.map_cons, List.nodup_cons] at hnd
      simp only [put, List.map_cons, total]
      by_cases hz : key z = key y
      · have hzx : z = x := by
          rcases List.mem_cons.mp hx with rfl | hx
          · rfl
          · exact absurd (hz.trans hkey ▸ List.mem_map_of_mem hx) hnd.1
        -- the other entries have other keys
        have hrest : put key y l = l := by
          refine (List.map_congr_left fun u hu => ?_).trans (List.map_id l)
          refine if_neg fun huy => hnd.1 ?_
          rw [hz, ← huy]
          exact List.mem_map_of_mem hu
        rw [put] at hrest
        rw [if_pos hz, hrest, hzx]
        omega
      · have hx : x ∈ l := by
          rcases List.mem_cons.mp hx with rfl | hx
          · exact absurd hkey.symm hz
          · exact hx
        have hrest := ih hnd.2 hx
        rw [put] at hrest
        rw [if_neg hz]
        omega

end Keyed
