import Mathlib.Data.List.Basic
import Mathlib.Data.List.Nodup
import Mathlib.Data.List.Pairwise
import Mathlib.Data.List.Perm.Basic

/-! # Reduction forests — grouping neighbours until one root is left

    A reduction over a row of leaves is planned by repeatedly replacing a run
    of neighbouring roots by one new node over them.  `Built ls nodes roots`
    says that `nodes` (in the order of their creation) and the row `roots` come
    about in this way from the leaves `ls`.

    Whatever the order and the sizes of the groups, four facts follow by
    induction on the construction: every source is a leaf or an earlier node
    (`srcs_mem`), every leaf and every node is consumed once or still a root
    (`balance`), an unfinished forest has a node all of whose sources are
    finished (`ready`), and any reading of the nodes that concatenates the
    readings of their sources reads the roots as the leaves, left to right
    (`value`). -/

namespace Forest

variable {ι γ : Type}

/-- What a node reads: a leaf, or the result of another node. -/
inductive Src (ι : Type) where
  | leaf (i : ι) : Src ι
  | node (i : ι) : Src ι
  deriving DecidableEq

/-- The id a source names. -/
def Src.id : Src ι → ι
  | .leaf i => i
  | .node i => i

/-- A planned node and its sources, left to right. -/
structure Node (ι : Type) where
  id : ι
  srcs : List (Src ι)

/-- Forests over the leaves `ls`: the nodes made so far and the row of
    roots still to be grouped. -/
inductive Built (ls : List ι) : List (Node ι) → List (Src ι) → Prop where
  | start : Built ls [] (ls.map Src.leaf)
  | group {nodes : List (Node ι)} {before grp after : List (Src ι)} {i : ι} :
      Built ls nodes (before ++ grp ++ after) → i ∉ nodes.map Node.id →
      Built ls (nodes ++ [⟨i, grp⟩]) (before ++ Src.node i :: after)

namespace Built

variable {ls : List ι} {nodes : List (Node ι)} {roots : List (Src ι)}

/-- No id is built twice. -/
theorem nodup (h : Built ls nodes roots) : (nodes.map Node.id).Nodup := by
  induction h with
  | start => exact List.nodup_nil
  | group _ fresh ih =>
      rw [List.map_append, List.nodup_append]
      refine ⟨ih, List.nodup_singleton _, ?_⟩
      intro a ha b hb hab
      rw [List.map_singleton, List.mem_singleton] at hb
      subst hab hb
      exact fresh ha

/-- **BALANCE**: sources and roots together are the leaves and the nodes,
    each once. -/
theorem balance [DecidableEq ι] (h : Built ls nodes roots) :
    (nodes.flatMap Node.srcs ++ roots).Perm
      (ls.map Src.leaf ++ nodes.map fun n => Src.node n.id) := by
  induction h with
  | start => simp
  | group _ _ ih =>
      rw [List.perm_iff_count] at ih ⊢
      intro s
      have := ih s
      simp only [List.flatMap_append, List.flatMap_singleton, List.map_append,
        List.map_singleton, List.count_append, List.count_cons,
        List.count_nil] at this ⊢
      omega

/-- Sources and roots are leaves or planned nodes. -/
theorem mem_cases [DecidableEq ι] (h : Built ls nodes roots) {s : Src ι}
    (hs : s ∈ nodes.flatMap Node.srcs ++ roots) :
    (∃ i ∈ ls, s = Src.leaf i) ∨ ∃ n ∈ nodes, s = Src.node n.id := by
  rw [h.balance.mem_iff, List.mem_append, List.mem_map, List.mem_map] at hs
  rcases hs with ⟨i, hi, rfl⟩ | ⟨n, hn, rfl⟩
  · exact Or.inl ⟨i, hi, rfl⟩
  · exact Or.inr ⟨n, hn, rfl⟩

/-- What a node reads is a leaf of the list or another node. -/
theorem srcs_mem [DecidableEq ι] (h : Built ls nodes roots) {n : Node ι}
    (hn : n ∈ nodes) {s : Src ι} (hs : s ∈ n.srcs) :
    (∃ i ∈ ls, s = Src.leaf i) ∨ ∃ m ∈ nodes, s = Src.node m.id :=
  h.mem_cases (List.mem_append_left _ (List.mem_flatMap.mpr ⟨n, hn, hs⟩))

/-- **FORWARD**: no node reads itself or a later node. -/
theorem forward [DecidableEq ι] (h : Built ls nodes roots) :
    (∀ n ∈ nodes, Src.node n.id ∉ n.srcs) ∧
      nodes.Pairwise fun m n => Src.node n.id ∉ m.srcs := by
  induction h with
  | start => exact ⟨fun n hn => absurd hn List.not_mem_nil, .nil⟩
  | @group nodes before grp after i hb fresh ih =>
      -- the new id is not among the sources and roots so far
      have hnew : Src.node i ∉ nodes.flatMap Node.srcs
          ++ (before ++ grp ++ after) := by
        intro hmem
        rcases hb.mem_cases hmem with ⟨j, _, hj⟩ | ⟨m, hm, hi⟩
        · cases hj
        · exact fresh (Src.node.inj hi ▸ List.mem_map_of_mem hm)
      refine ⟨?_, ?_⟩
      · intro n hn
        rcases List.mem_append.mp hn with hn | hn
        · exact ih.1 n hn
        · rw [List.mem_singleton.mp hn]
          exact fun hi => hnew (by simp [hi])
      · rw [List.pairwise_append]
        refine ⟨ih.2, List.pairwise_singleton _ _, ?_⟩
        intro m hm n hn hi
        rw [List.mem_singleton.mp hn] at hi
        exact hnew (List.mem_append_left _ (List.mem_flatMap.mpr ⟨m, hm, hi⟩))

/-- Distinct leaves: nothing is consumed twice, and no root is consumed. -/
theorem nodup_srcs [DecidableEq ι] (h : Built ls nodes roots)
    (hls : ls.Nodup) : (nodes.flatMap Node.srcs ++ roots).Nodup := by
  rw [h.balance.nodup_iff, List.nodup_append]
  refine ⟨hls.map fun a b hab => Src.leaf.inj hab, ?_, ?_⟩
  · have hnd := h.nodup.map fun a b (hab : Src.node a = Src.node b) =>
      Src.node.inj hab
    rwa [List.map_map] at hnd
  · intro a ha b hb hab
    obtain ⟨i, _, rfl⟩ := List.mem_map.mp ha
    obtain ⟨n, _, rfl⟩ := List.mem_map.mp hb
    exact nomatch hab

/-- Distinct leaves: a source has one consumer. -/
theorem consumer [DecidableEq ι] (h : Built ls nodes roots) (hls : ls.Nodup)
    {n m : Node ι} (hn : n ∈ nodes) (hm : m ∈ nodes) {s : Src ι}
    (hsn : s ∈ n.srcs) (hsm : s ∈ m.srcs) : n = m := by
  have hnd := (List.nodup_append.mp (h.nodup_srcs hls)).1
  rw [List.nodup_flatMap] at hnd
  refine Classical.byContradiction fun hne => ?_
  have hsymm : Std.Symm (Function.onFun List.Disjoint (@Node.srcs ι)) :=
    ⟨fun _ _ hd _ h1 h2 => hd h2 h1⟩
  exact hnd.2.forall hn hm hne hsn hsm

/-- Distinct leaves: a node reads a source once. -/
theorem srcs_nodup [DecidableEq ι] (h : Built ls nodes roots) (hls : ls.Nodup)
    {n : Node ι} (hn : n ∈ nodes) : n.srcs.Nodup := by
  have hnd := (List.nodup_append.mp (h.nodup_srcs hls)).1
  rw [List.nodup_flatMap] at hnd
  exact hnd.1 n hn

/-- **READY**: once the leaves are done, an unfinished node exists whose
    sources are all done. -/
theorem ready [DecidableEq ι] (h : Built ls nodes roots) {done : Src ι → Prop}
    (hls : ∀ i ∈ ls, done (Src.leaf i))
    (hex : ∃ n ∈ nodes, ¬ done (Src.node n.id)) :
    ∃ n ∈ nodes, ¬ done (Src.node n.id) ∧ ∀ s ∈ n.srcs, done s := by
  induction h with
  | start => obtain ⟨n, hn, _⟩ := hex; exact nomatch hn
  | @group nodes before grp after i hb _ ih =>
      by_cases hold : ∃ n ∈ nodes, ¬ done (Src.node n.id)
      · obtain ⟨n, hn, hnd, hsrc⟩ := ih hold
        exact ⟨n, List.mem_append_left _ hn, hnd, hsrc⟩
      · -- only the newest node is unfinished: its sources are older
        obtain ⟨n, hn, hnd⟩ := hex
        rcases List.mem_append.mp hn with hn | hn
        · exact absurd ⟨n, hn, hnd⟩ hold
        · refine ⟨n, List.mem_append_right _ hn, hnd, ?_⟩
          intro s hs
          rw [List.mem_singleton] at hn
          subst hn
          have hmem : s ∈ nodes.flatMap Node.srcs ++ (before ++ grp ++ after) := by
            simp [hs]
          rcases hb.mem_cases hmem with ⟨j, hj, rfl⟩ | ⟨m, hm, rfl⟩
          · exact hls j hj
          · exact Classical.byContradiction fun hmd => hold ⟨m, hm, hmd⟩

/-- **VALUE**: a reading that concatenates at every node reads the roots as
    the leaves in order. -/
theorem value (h : Built ls nodes roots) {val : Src ι → List γ}
    (hval : ∀ n ∈ nodes, val (Src.node n.id) = n.srcs.flatMap val) :
    roots.flatMap val = ls.flatMap fun i => val (Src.leaf i) := by
  induction h with
  | start => rw [List.flatMap_map]
  | @group nodes before grp after i _ _ ih =>
      have hold := ih fun n hn => hval n (List.mem_append_left _ hn)
      have hnew := hval ⟨i, grp⟩ (by simp)
      rw [← hold]
      simp [hnew]

/-- Group several disjoint runs of a row, left to right. -/
theorem groups {gs : List (Node ι)} {before after : List (Src ι)}
    (h : Built ls nodes (before ++ gs.flatMap Node.srcs ++ after))
    (hnd : (nodes ++ gs).map Node.id |>.Nodup) :
    Built ls (nodes ++ gs)
      (before ++ gs.map (fun n => Src.node n.id) ++ after) := by
  induction gs generalizing nodes before with
  | nil => simpa using h
  | cons g gs ih =>
      have hfirst : Built ls (nodes ++ [⟨g.id, g.srcs⟩])
          (before ++ Src.node g.id :: (gs.flatMap Node.srcs ++ after)) := by
        refine @Built.group _ _ _ before g.srcs _ g.id ?_ ?_
        · simpa using h
        · rw [List.map_append, List.map_cons, List.nodup_append] at hnd
          intro hg
          exact hnd.2.2 g.id hg g.id (List.mem_cons_self ..) rfl
      have hnext : Built ls (nodes ++ [g])
          (before ++ [Src.node g.id] ++ gs.flatMap Node.srcs ++ after) := by
        simpa using hfirst
      have hrest := ih hnext (by simpa using hnd)
      simpa using hrest

end Built

/-! ## The leaves below a source -/

/-- Leaves left to right, over nodes listed latest first. -/
def leavesRev [DecidableEq ι] : List (Node ι) → Src ι → List ι
  | _, .leaf i => [i]
  | [], .node _ => []
  | n :: older, .node i =>
      if n.id = i then n.srcs.flatMap (leavesRev older)
      else leavesRev older (.node i)

/-- The leaves below a source, left to right. -/
def leaves [DecidableEq ι] (nodes : List (Node ι)) (s : Src ι) : List ι :=
  leavesRev nodes.reverse s

@[simp] theorem leaves_leaf [DecidableEq ι] (nodes : List (Node ι)) (i : ι) :
    leaves nodes (.leaf i) = [i] := by
  rw [leaves]
  cases nodes.reverse <;> rfl

/-- A node that is added last changes no other. -/
theorem leaves_snoc [DecidableEq ι] (nodes : List (Node ι)) (n : Node ι)
    (i : ι) :
    leaves (nodes ++ [n]) (.node i)
      = if n.id = i then n.srcs.flatMap (leaves nodes)
        else leaves nodes (.node i) := by
  rw [leaves, List.reverse_append]
  rfl

namespace Built

variable {ls : List ι} {nodes : List (Node ι)} {roots : List (Src ι)}

/-- The leaves below a node are those below its sources. -/
theorem leaves_node [DecidableEq ι] (h : Built ls nodes roots) :
    ∀ n ∈ nodes, leaves nodes (.node n.id) = n.srcs.flatMap (leaves nodes) := by
  induction h with
  | start => intro n hn; exact nomatch hn
  | @group nodes before grp after i hb fresh ih =>
      -- older sources do not see the new node
      have hold : ∀ s ∈ nodes.flatMap Node.srcs ++ (before ++ grp ++ after),
          leaves (nodes ++ [⟨i, grp⟩]) s = leaves nodes s := by
        intro s hs
        rcases hb.mem_cases hs with ⟨j, _, rfl⟩ | ⟨m, hm, rfl⟩
        · rw [leaves_leaf, leaves_leaf]
        · rw [leaves_snoc, if_neg]
          intro hi
          exact fresh (List.mem_map.mpr ⟨m, hm, hi.symm⟩)
      have hsrcs : ∀ l : List (Src ι),
          (∀ s ∈ l, s ∈ nodes.flatMap Node.srcs ++ (before ++ grp ++ after)) →
          l.flatMap (leaves (nodes ++ [⟨i, grp⟩])) = l.flatMap (leaves nodes) :=
        fun l hl => List.flatMap_congr fun s hs => hold s (hl s hs)
      intro n hn
      rcases List.mem_append.mp hn with hn | hn
      · have hne : i ≠ n.id := fun hi =>
          fresh (List.mem_map.mpr ⟨n, hn, hi.symm⟩)
        rw [leaves_snoc, if_neg hne, ih n hn, hsrcs]
        intro s hs
        exact List.mem_append_left _ (List.mem_flatMap.mpr ⟨n, hn, hs⟩)
      · rw [List.mem_singleton] at hn
        subst hn
        rw [leaves_snoc, if_pos rfl, hsrcs]
        intro s hs
        simp [hs]

/-- **ORDER**: the roots, read left to right, cover the leaves in order. -/
theorem order [DecidableEq ι] (h : Built ls nodes roots) :
    roots.flatMap (leaves nodes) = ls := by
  have hv := h.value h.leaves_node
  rw [hv]
  simp

end Built

/-! ## Cutting a row into neighbouring batches -/

/-- A non-empty run of neighbours: `head` is what `batch[0]` reads. -/
structure Batch (α : Type) where
  head : α
  tail : List α

namespace Batch

variable {α δ : Type}

/-- The run as a list. -/
def toList (b : Batch α) : List α := b.head :: b.tail

/-- A batch of one. -/
def single (a : α) : Batch α := ⟨a, []⟩

theorem head_mem (b : Batch α) : b.head ∈ b.toList := List.mem_cons_self ..

end Batch

variable {α : Type}

/-- Runs of `k` neighbours (the last may be shorter); `fuel` bounds their
    number. -/
def chunksFuel (k : Nat) : Nat → List α → List (Batch α)
  | 0, _ => []
  | _ + 1, [] => []
  | fuel + 1, x :: xs =>
      ⟨x, xs.take (k - 1)⟩ :: chunksFuel k fuel (xs.drop (k - 1))

/-- `slice::chunks`. -/
def chunks (k : Nat) (l : List α) : List (Batch α) := chunksFuel k l.length l

/-- Nothing is lost in the chunks. -/
theorem chunksFuel_flatten (k : Nat) :
    ∀ (fuel : Nat) (l : List α), l.length ≤ fuel →
      (chunksFuel k fuel l).flatMap Batch.toList = l := by
  intro fuel
  induction fuel with
  | zero =>
      intro l hl
      rw [List.length_eq_zero_iff.mp (Nat.le_zero.mp hl)]
      rfl
  | succ fuel ih =>
      intro l hl
      cases l with
      | nil => rfl
      | cons x xs =>
          have hdrop : (xs.drop (k - 1)).length ≤ fuel := by
            simp only [List.length_cons] at hl
            rw [List.length_drop]
            omega
          rw [chunksFuel, List.flatMap_cons, ih _ hdrop, Batch.toList,
            List.cons_append, List.take_append_drop]

/-- Cutting loses nothing and keeps the order. -/
theorem chunks_flatten (k : Nat) (l : List α) :
    (chunks k l).flatMap Batch.toList = l :=
  chunksFuel_flatten k l.length l (Nat.le_refl _)

/-- The first batch starts with the first element. -/
theorem chunks_cons (k : Nat) (x : α) (xs : List α) :
    ∃ rest, chunks k (x :: xs) = ⟨x, xs.take (k - 1)⟩ :: rest := ⟨_, rfl⟩

/-- What is in a chunk is in the list. -/
theorem mem_of_mem_chunks {k : Nat} {l : List α} {b : Batch α}
    (hb : b ∈ chunks k l) {x : α} (hx : x ∈ b.toList) : x ∈ l := by
  rw [← chunks_flatten k l]
  exact List.mem_flatMap.mpr ⟨b, hb, hx⟩

/-- Chunks of two or more halve the list. -/
theorem length_chunksFuel {k : Nat} (hk : 2 ≤ k) :
    ∀ (fuel : Nat) (l : List α), l.length ≤ fuel →
      (chunksFuel k fuel l).length ≤ (l.length + 1) / 2 := by
  intro fuel
  induction fuel with
  | zero => intro l _; exact Nat.zero_le _
  | succ fuel ih =>
      intro l hl
      cases l with
      | nil => exact Nat.zero_le _
      | cons x xs =>
          simp only [List.length_cons] at hl ⊢
          have hrec := ih (xs.drop (k - 1)) (by rw [List.length_drop]; omega)
          rw [List.length_drop] at hrec
          rw [chunksFuel, List.length_cons]
          omega

/-- Batches of two or more at least halve a row. -/
theorem length_chunks {k : Nat} (hk : 2 ≤ k) (l : List α) :
    (chunks k l).length ≤ (l.length + 1) / 2 :=
  length_chunksFuel hk l.length l (Nat.le_refl _)

end Forest
