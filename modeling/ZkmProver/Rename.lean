import Mathlib.Data.List.Basic
import Mathlib.Logic.Function.Basic

/-! # Files that appear whole — write beside, then rename

    A file is written under a second name and renamed when it is complete.
    The steps of the write are those of the operating system: create, some
    bytes at a time, rename; the rename moves whatever the second name leads
    to.  As long as nobody else writes under the second name, the file is
    there as a whole or not at all (`writeFile_spec`).

    `renames` is a record of the renames so far, the oldest first. -/

namespace Rename

/-- The files by their name, and the renames so far. -/
structure Store where
  files : String → Option (List UInt8)
  renames : List (String × List UInt8)

/-- How far a write has come. -/
inductive Phase where
  | idle
  /-- the second file is there, with so many bytes in it -/
  | writing (n : Nat)
  | renamed
  deriving DecidableEq

/-- The second name. -/
def tmp (path : String) : String := path ++ ".tmp"

/-- Two paths with one temporary file are one path. -/
theorem tmp_inj {p q : String} (h : tmp p = tmp q) : p = q :=
  String.append_left_inj _ |>.mp h

/-- A path is never its own temporary file. -/
theorem ne_tmp (path : String) : path ≠ tmp path := by
  intro h
  have hempty : ".tmp" = "" := String.append_eq_left_iff.mp h.symm
  exact absurd hempty (by decide)

namespace Store

/-- The file gets this content. -/
def put (s : Store) (path : String) (content : List UInt8) : Store :=
  { s with files := Function.update s.files path (some content) }

/-- `std::fs::rename` of the second file. -/
def rename (s : Store) (path : String) (content : List UInt8) : Store where
  files :=
    Function.update (Function.update s.files (tmp path) none) path
      (some content)
  renames := s.renames ++ [(path, content)]

/-- One step of writing `buf` to `path`; `k` is how many bytes more than one
    the system takes at once. -/
def writeFile (s : Store) (path : String) (buf : List UInt8) (k : Nat) :
    Phase → Option (Phase × Store)
  | .idle => some (.writing 0, s.put (tmp path) [])
  | .writing n =>
      match s.files (tmp path) with
      | none => none
      | some content =>
          if n < buf.length then
            let m := min (n + k + 1) buf.length
            some (.writing m,
              s.put (tmp path) (content.take n ++ (buf.take m).drop n))
          else some (.renamed, s.rename path content)
  | .renamed => none

end Store

/-- The second file has the first `n` bytes. -/
def Phase.Holds (s : Store) (path : String) (buf : List UInt8) : Phase → Prop
  | .writing n => n ≤ buf.length ∧ s.files (tmp path) = some (buf.take n)
  | _ => True

/-- The phases read the temporary file alone. -/
theorem Phase.Holds.congr {s s' : Store} {path : String} {buf : List UInt8}
    {p : Phase} (h : p.Holds s path buf)
    (hsame : s'.files (tmp path) = s.files (tmp path)) :
    p.Holds s' path buf := by
  cases p with
  | idle => trivial
  | writing n => exact ⟨h.1, hsame.trans h.2⟩
  | renamed => trivial

variable {s s' : Store} {path : String} {buf : List UInt8} {k : Nat}
  {p p' : Phase}

/-- **WHOLE FILES**: a step leaves the file alone, or puts it there whole. -/
theorem writeFile_spec (h : p.Holds s path buf)
    (hs : s.writeFile path buf k p = some (p', s')) :
    p ≠ .renamed ∧
      (p' ≠ .renamed ∧ p'.Holds s' path buf ∧ s'.renames = s.renames ∧
          (∀ q, q ≠ tmp path → s'.files q = s.files q) ∨
        p' = .renamed ∧ s'.renames = s.renames ++ [(path, buf)] ∧
          s'.files path = some buf ∧
          ∀ q, q ≠ path → q ≠ tmp path → s'.files q = s.files q) := by
  cases p with
  | idle =>
      cases hs
      refine ⟨nofun, Or.inl ⟨nofun, ⟨Nat.zero_le _, ?_⟩, rfl, fun q hq => ?_⟩⟩
      · rw [List.take_zero]
        exact Function.update_self ..
      · exact Function.update_of_ne hq ..
  | writing n =>
      obtain ⟨hle, hfile⟩ := h
      rw [Store.writeFile, hfile] at hs
      dsimp only at hs
      split at hs
      case isTrue hlt =>
        cases hs
        refine ⟨nofun, Or.inl ⟨nofun, ⟨Nat.min_le_right .., ?_⟩, rfl,
          fun q hq => ?_⟩⟩
        · -- the first `n` bytes and those up to `m` are the first `m`
          have hm : n ≤ min (n + k + 1) buf.length := by omega
          have htake : (buf.take n).take n
              = (buf.take (min (n + k + 1) buf.length)).take n := by
            rw [List.take_take, List.take_take, Nat.min_self,
              Nat.min_eq_left hm]
          rw [htake, List.take_append_drop]
          exact Function.update_self ..
        · exact Function.update_of_ne hq ..
      case isFalse hge =>
        cases hs
        have hall : buf.take n = buf :=
          List.take_of_length_le (Nat.le_of_not_lt hge)
        rw [hall]
        refine ⟨nofun, Or.inr ⟨rfl, rfl, Function.update_self ..,
          fun q hq hq' => ?_⟩⟩
        show Function.update (Function.update _ _ _) _ _ q = _
        rw [Function.update_of_ne hq, Function.update_of_ne hq']
  | renamed => exact nomatch hs

/-- A write touches no file but its own two. -/
theorem writeFile_files (h : p.Holds s path buf)
    (hs : s.writeFile path buf k p = some (p', s')) {q : String}
    (hq : q ≠ path) (hq' : q ≠ tmp path) : s'.files q = s.files q := by
  rcases (writeFile_spec h hs).2 with ⟨-, -, -, hsame⟩ | ⟨-, -, -, hsame⟩
  · exact hsame q hq'
  · exact hsame q hq hq'

/-- It renames nothing, or its own file. -/
theorem writeFile_renames (h : p.Holds s path buf)
    (hs : s.writeFile path buf k p = some (p', s')) :
    s'.renames = s.renames ∨ s'.renames = s.renames ++ [(path, buf)] :=
  (writeFile_spec h hs).2.imp (·.2.2.1) (·.2.1)

end Rename
