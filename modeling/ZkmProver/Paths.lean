import Mathlib.Data.List.Basic
import Mathlib.Logic.Function.Iterate

/-! # Paths — what a path leads to

    The components of a path are followed one by one: an empty one and `.` stay
    where they are, `..` goes back to the parent, every other one goes into
    what it names (`resolve`).  Links are not followed.

    A path that is put behind another one is followed from where that one leads
    to (`resolve_join`), so a whole path can be read off its parts. -/

namespace Paths

/-- What a path leads to: whether it starts at the root, how many levels it
    lies above its start, and the names behind them, the last one first. -/
@[ext]
structure Loc where
  absolute : Bool
  above : Nat
  trail : List (List Char)
  deriving DecidableEq

namespace Loc

/-- The root has no parent but itself. -/
def parent (l : Loc) : Loc :=
  match l.trail with
  | _ :: rest => { l with trail := rest }
  | [] => if l.absolute then l else { l with above := l.above + 1 }

/-- The entry of a directory with this name. -/
def child (l : Loc) (name : List Char) : Loc :=
  { l with trail := name :: l.trail }

/-- One component. -/
def enter (l : Loc) (name : List Char) : Loc :=
  if name = [] ∨ name = ['.'] then l
  else if name = ['.', '.'] then l.parent
  else l.child name

/-- The names one after another. -/
def walk (l : Loc) (names : List (List Char)) : Loc := names.foldl enter l

/-- Where nothing has been entered yet. -/
def here : Loc := ⟨false, 0, []⟩

/-- `r` taken from `l`, not from where it starts. -/
def follow (l r : Loc) : Loc :=
  { parent^[r.above] l with trail := r.trail ++ (parent^[r.above] l).trail }

/-- `l` is `d`, or lies in it. -/
def Under (d l : Loc) : Prop :=
  l.absolute = d.absolute ∧ l.above = d.above ∧ d.trail <:+ l.trail

instance (d l : Loc) : Decidable (d.Under l) :=
  inferInstanceAs (Decidable (_ ∧ _ ∧ _))

end Loc

/-- The names between the slashes. -/
def components (path : String) : List (List Char) := path.toList.splitOn '/'

/-- Where an absolute or a relative path starts. -/
def start (path : String) : Loc := ⟨path.toList.head? = some '/', 0, []⟩

/-- Where a path leads, with `.` and `..` taken by their letters. -/
def resolve (path : String) : Loc := (start path).walk (components path)

/-- The path as one that is put behind another. -/
def relative (path : String) : Loc := Loc.here.walk (components path)

/-- A name of one component that is entered. -/
def Plain (name : List Char) : Prop :=
  name ≠ [] ∧ name ≠ ['.'] ∧ name ≠ ['.', '.'] ∧ '/' ∉ name

instance (name : List Char) : Decidable (Plain name) :=
  inferInstanceAs (Decidable (_ ∧ _ ∧ _ ∧ _))

example : resolve "/a/./b//../c" = ⟨true, 0, [['c'], ['a']]⟩ := by decide

example : resolve "a/../../b" = ⟨false, 1, [['b']]⟩ := by decide

/-! ## One component -/

namespace Loc

variable {l r d : Loc} {name : List Char}

/-- A plain component is a step down. -/
theorem enter_plain (h : Plain name) : l.enter name = l.child name := by
  obtain ⟨hne, hdot, hdots, _⟩ := h
  rw [enter, if_neg (not_or.mpr ⟨hne, hdot⟩), if_neg hdots]

/-- To follow a path is to follow it component by component. -/
theorem follow_enter (l r : Loc) (name : List Char)
    (hr : r.absolute = false) :
    (l.follow r).enter name = l.follow (r.enter name) := by
  rw [enter, enter]
  split
  case isTrue => rfl
  case isFalse =>
    split
    case isTrue =>
      obtain ⟨absolute, above, trail⟩ := r
      cases trail with
      | nil =>
          -- the climb goes on
          cases hr
          show (parent^[above] l).parent = parent^[above + 1] l
          rw [Function.iterate_succ_apply']
      | cons n rest => rfl
    case isFalse => rfl

/-- No component makes a location absolute or relative. -/
theorem enter_absolute (l : Loc) (name : List Char) :
    (l.enter name).absolute = l.absolute := by
  rw [enter]
  split
  · rfl
  · split
    · rw [parent]
      split
      · rfl
      · split <;> rfl
    · rfl

/-- Following a relative path is walking its components. -/
theorem follow_walk (l : Loc) {r : Loc} (names : List (List Char))
    (hr : r.absolute = false) :
    (l.follow r).walk names = l.follow (r.walk names) := by
  induction names generalizing r with
  | nil => rfl
  | cons name names ih =>
      show ((l.follow r).enter name).walk names = l.follow ((r.enter name).walk names)
      rw [follow_enter l r name hr]
      exact ih ((enter_absolute r name).trans hr)

theorem walk_append (l : Loc) (ns ms : List (List Char)) :
    l.walk (ns ++ ms) = (l.walk ns).walk ms := List.foldl_append

/-- A walk takes the path from where it stands. -/
theorem walk_eq_follow (l : Loc) (names : List (List Char)) :
    l.walk names = l.follow (here.walk names) :=
  follow_walk l (r := here) names rfl

end Loc

/-! ## Paths that are put together -/

/-- The components of a joined path are those of its two parts. -/
theorem components_join (s t : String) :
    components (s ++ "/" ++ t) = components s ++ components t := by
  rw [components, String.append_assoc, String.toList_append,
    String.toList_append]
  exact List.splitOn_append_cons_self s.toList t.toList

/-- A separator at the end adds nothing. -/
theorem components_slash (s : String) :
    components (s ++ "/") = components s ++ [[]] := by
  have hjoin := components_join s ""
  rwa [String.append_empty] at hjoin

/-- Behind an empty path the separator stands at the front. -/
theorem resolve_slash (s t : String) :
    resolve (s ++ "/" ++ t) = (resolve (s ++ "/")).follow (relative t) := by
  have hstart : start (s ++ "/" ++ t) = start (s ++ "/") := by
    rw [start, start, String.toList_append, String.toList_append]
    cases s.toList <;> rfl
  rw [resolve, components_join, Loc.walk_append, hstart, Loc.walk_eq_follow,
    resolve, components_slash, Loc.walk_append]
  rfl

/-- **JOIN**: a path behind another one. -/
theorem resolve_join {s : String} (hs : s ≠ "") (t : String) :
    resolve (s ++ "/" ++ t) = (resolve s).follow (relative t) := by
  have hstart : start (s ++ "/") = start s := by
    rw [start, start, String.toList_append]
    cases hlist : s.toList with
    | nil => exact absurd (String.toList_inj.mp hlist) hs
    | cons c cs => rfl
  have hslash : resolve (s ++ "/") = resolve s := by
    rw [resolve, components_slash, Loc.walk_append, hstart]
    rfl
  rw [resolve_slash, hslash]

theorem relative_plain {name : String} (h : Plain name.toList) :
    relative name = ⟨false, 0, [name.toList]⟩ := by
  rw [relative, components, List.splitOn_eq_singleton h.2.2.2]
  exact Loc.enter_plain h

/-- **CHILD**: a plain name behind a path. -/
theorem resolve_child {s name : String} (hs : s ≠ "") (h : Plain name.toList) :
    resolve (s ++ "/" ++ name) = (resolve s).child name.toList := by
  rw [resolve_join hs, relative_plain h]
  rfl

/-! ## What a path can lead to -/

/-- No component has a separator in it. -/
theorem not_mem_components {path : String} {name : List Char}
    (h : name ∈ components path) : '/' ∉ name := by
  rw [components] at h
  generalize path.toList = cs at h
  induction cs generalizing name with
  | nil =>
      rw [List.splitOn_nil] at h
      rw [List.mem_singleton.mp h]
      exact List.not_mem_nil
  | cons c cs ih =>
      rw [List.splitOn_cons_eq_if_modifyHead] at h
      split at h
      case isTrue =>
        rcases List.mem_cons.mp h with rfl | h
        · exact List.not_mem_nil
        · exact ih h
      case isFalse hc =>
        rw [beq_iff_eq] at hc
        cases hsplit : cs.splitOn '/' with
        | nil => exact absurd hsplit (List.splitOn_ne_nil _ _)
        | cons first rest =>
            rw [hsplit] at h ih
            rcases List.mem_cons.mp h with rfl | h
            · intro hmem
              rcases List.mem_cons.mp hmem with heq | hmem
              · exact hc heq.symm
              · exact ih List.mem_cons_self hmem
            · exact ih (List.mem_cons_of_mem _ h)

/-- The trail of a walk is plain: `.` and `..` never stay on it. -/
theorem Loc.walk_trail {l : Loc} {names : List (List Char)}
    (hnames : ∀ n ∈ names, '/' ∉ n) (hl : ∀ n ∈ l.trail, Plain n) :
    ∀ n ∈ (l.walk names).trail, Plain n := by
  induction names generalizing l with
  | nil => exact hl
  | cons name names ih =>
      refine ih (l := l.enter name)
        (fun n hn => hnames n (List.mem_cons_of_mem _ hn)) ?_
      rw [enter]
      split
      case isTrue => exact hl
      case isFalse hstay =>
        split
        case isTrue =>
          rw [parent]
          split
          case h_1 first rest htrail =>
            exact fun n hn => hl n (htrail ▸ List.mem_cons_of_mem _ hn)
          case h_2 => split <;> exact hl
        case isFalse hback =>
          rw [not_or] at hstay
          intro n hn
          rcases List.mem_cons.mp hn with rfl | hn
          · exact ⟨hstay.1, hstay.2, hback, hnames n List.mem_cons_self⟩
          · exact hl n hn

/-- Every name on the way is plain. -/
theorem resolve_trail (path : String) : ∀ n ∈ (resolve path).trail, Plain n :=
  Loc.walk_trail (fun _ hn => not_mem_components hn)
    fun _ hn => (List.not_mem_nil hn).elim

/-! ## Under a directory -/

namespace Loc

variable {d e l r : Loc}

theorem Under.refl (d : Loc) : d.Under d := ⟨rfl, rfl, List.suffix_rfl⟩

/-- Lying under is transitive. -/
theorem Under.trans (h : d.Under e) (h' : e.Under l) : d.Under l :=
  ⟨h'.1.trans h.1, h'.2.1.trans h.2.1, h.2.2.trans h'.2.2⟩

/-- A child lies under its directory. -/
theorem under_child (d : Loc) (name : List Char) : d.Under (d.child name) :=
  ⟨rfl, rfl, List.suffix_cons _ _⟩

/-- A path that does not climb stays inside. -/
theorem under_follow (d : Loc) {r : Loc} (hr : r.above = 0) :
    d.Under (d.follow r) := by
  rw [follow, hr]
  exact ⟨rfl, rfl, List.suffix_append _ _⟩

/-- Two directories of one parent have nothing in common. -/
theorem Under.child_inj {n m : List Char} (h : (d.child n).Under l)
    (h' : (d.child m).Under l) : n = m := by
  obtain ⟨ns, hns⟩ := h.2.2
  obtain ⟨ms, hms⟩ := h'.2.2
  have heq : ns ++ n :: d.trail = ms ++ m :: d.trail := hns.trans hms.symm
  have htail := (List.append_inj' heq rfl).2
  exact (List.cons.inj htail).1

/-- A climb that stays below the start goes along the trail. -/
theorem iterate_parent_le {k : Nat} (hk : k ≤ l.trail.length) :
    parent^[k] l = { l with trail := l.trail.drop k } := by
  induction k generalizing l with
  | zero => rfl
  | succ k ih =>
      obtain ⟨absolute, above, trail⟩ := l
      cases trail with
      | nil => cases hk
      | cons n rest =>
          rw [Function.iterate_succ_apply]
          exact ih (Nat.le_of_succ_le_succ hk)

/-- At the end of the trail the root stays where it is, and every other start
    is left behind. -/
theorem iterate_parent_ge {k : Nat} (hk : l.trail.length ≤ k) :
    parent^[k] l = { l with
      above := if l.absolute then l.above
        else l.above + (k - l.trail.length)
      trail := [] } := by
  induction k generalizing l with
  | zero =>
      obtain ⟨absolute, above, trail⟩ := l
      cases List.eq_nil_of_length_eq_zero (Nat.le_zero.mp hk)
      cases absolute <;> rfl
  | succ k ih =>
      obtain ⟨absolute, above, trail⟩ := l
      rw [Function.iterate_succ_apply]
      cases trail with
      | nil =>
          cases absolute with
          | true => exact ih (Nat.zero_le _)
          | false =>
              refine (ih (Nat.zero_le _)).trans ?_
              simp [parent, Nat.add_assoc, Nat.add_comm 1]
      | cons n rest =>
          refine (ih (Nat.le_of_succ_le_succ hk)).trans ?_
          dsimp only [parent, List.length_cons]
          rw [Nat.add_sub_add_right]
          rfl

/-- **CLIMB**: what climbs out of `d` is back inside exactly when it gives the
    names again that it has left, and has not left the start behind. -/
theorem under_follow_iff :
    d.Under (d.follow r) ↔
      d.trail.take r.above <:+ r.trail ∧
        (d.absolute = true ∨ r.above ≤ d.trail.length) := by
  rcases Nat.le_total r.above d.trail.length with hle | hge
  · rw [Under, follow, iterate_parent_le hle]
    have hsplit : d.trail <:+ r.trail ++ d.trail.drop r.above ↔
        d.trail.take r.above <:+ r.trail := by
      have hself := @List.suffix_append_self_iff _ (d.trail.take r.above)
        r.trail (d.trail.drop r.above)
      rwa [List.take_append_drop] at hself
    exact ⟨fun h => ⟨hsplit.mp h.2.2, Or.inr hle⟩,
      fun h => ⟨rfl, rfl, hsplit.mpr h.1⟩⟩
  · rw [Under, follow, iterate_parent_ge hge, List.take_of_length_le hge]
    dsimp only
    rw [List.append_nil]
    cases hroot : d.absolute with
    | true => exact ⟨fun h => ⟨h.2.2, Or.inl rfl⟩, fun h => ⟨rfl, rfl, h.1⟩⟩
    | false =>
        have hstart : d.above + (r.above - d.trail.length) = d.above ↔
            r.above ≤ d.trail.length := by omega
        constructor
        · exact fun h => ⟨h.2.2, Or.inr (hstart.mp h.2.1)⟩
        · rintro ⟨hsuffix, hno | hle⟩
          · cases hno
          · exact ⟨rfl, hstart.mpr hle, hsuffix⟩

/-- The same from a directory in `d`, which one level leads out of. -/
theorem under_follow_child_iff (d : Loc) (name : List Char) (r : Loc) :
    d.Under ((d.child name).follow r) ↔
      d.trail.take (r.above - 1) <:+ r.trail ∧
        (d.absolute = true ∨ r.above - 1 ≤ d.trail.length) := by
  obtain ⟨absolute, above, trail⟩ := r
  cases above with
  | zero =>
      refine iff_of_true ?_ ⟨List.nil_suffix, Or.inr (Nat.zero_le _)⟩
      exact (under_child d name).trans (under_follow _ rfl)
  | succ k =>
      have hback : (d.child name).follow ⟨absolute, k + 1, trail⟩
          = d.follow ⟨absolute, k, trail⟩ := by
        rw [follow, Function.iterate_succ_apply]
        rfl
      rw [hback, under_follow_iff]
      rfl

end Loc

end Paths
