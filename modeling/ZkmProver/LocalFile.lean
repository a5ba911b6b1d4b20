import Mathlib.Data.List.Basic
import Mathlib.Logic.Function.Basic

/-! # Local files — `LocalFile` as an `io::Write`

    `LocalFile` creates its file anew in every `write`, so a file holds what
    was written last.  By `write_all` every buffer that is not empty is one
    such write, and an empty one is none.  So the file holds all that was
    written only if that was in one buffer (`write_all_concat`). -/

namespace ZkmProver

/-- What is at each path. -/
abbrev LocalFiles := String → Option (List UInt8)

/-- The default of `io::Write::write_all`: `write` what remains until nothing
    does; to write nothing of it is an error (`none`), as is an error of
    `write`. -/
def writeAll {σ : Type} (write : σ → List UInt8 → Option (Nat × σ)) (s : σ) :
    List UInt8 → Option σ
  | [] => some s
  | byte :: rest =>
      match write s (byte :: rest) with
      | none => none
      | some (0, _) => none
      | some (n + 1, s') => writeAll write s' (rest.drop n)
  termination_by buf => buf.length
  decreasing_by
    rw [List.length_drop, List.length_cons]
    omega

/-- `LocalFile` -/
structure LocalFile where
  path : String

namespace LocalFile

/-- `File::create`, and all bytes into the empty file. -/
def write (file : LocalFile) (files : LocalFiles) (buf : List UInt8) :
    Option (Nat × LocalFiles) :=
  some (buf.length, Function.update files file.path (some buf))

/-- `read` -/
def read (file : LocalFile) (files : LocalFiles) : Option (List UInt8) :=
  files file.path

/-- One `write_all` after the other on the same handle. -/
def writeAlls (file : LocalFile) (files : LocalFiles) (bufs : List (List UInt8)) :
    Option LocalFiles :=
  bufs.foldlM (writeAll file.write) files

variable (file : LocalFile) (files : LocalFiles)

/-- The whole buffer goes into one `write`. -/
theorem writeAll_eq (buf : List UInt8) :
    writeAll file.write files buf
      = some (if buf = [] then files
          else Function.update files file.path (some buf)) := by
  cases buf with
  | nil =>
      rw [writeAll]
      rfl
  | cons byte rest =>
      rw [writeAll]
      show writeAll file.write _ (rest.drop rest.length) = _
      rw [List.drop_length, writeAll, if_neg (List.cons_ne_nil _ _)]

/-- The buffers that are written at all. -/
def written (bufs : List (List UInt8)) : List (List UInt8) :=
  bufs.filter fun buf => !buf.isEmpty

/-- Empty buffers add nothing. -/
theorem flatten_written (bufs : List (List UInt8)) :
    (written bufs).flatten = bufs.flatten := by
  induction bufs with
  | nil => rfl
  | cons buf bufs ih =>
      cases buf with
      | nil => exact ih
      | cons byte rest => exact congrArg (byte :: rest ++ ·) ih

/-- **LAST WRITE**: the file holds the last buffer that is not empty. -/
theorem read_writeAlls (bufs : List (List UInt8)) :
    (file.writeAlls files bufs).map file.read
      = some ((written bufs).getLast?.or (file.read files)) := by
  induction bufs generalizing files with
  | nil => rfl
  | cons buf bufs ih =>
      rw [writeAlls, List.foldlM_cons, writeAll_eq]
      cases buf with
      | nil => exact ih files
      | cons byte rest =>
          refine (ih _).trans (congrArg some ?_)
          have hread : file.read (Function.update files file.path
              (some (byte :: rest))) = some (byte :: rest) :=
            Function.update_self ..
          have hwritten : written ((byte :: rest) :: bufs)
              = (byte :: rest) :: written bufs := rfl
          rw [if_neg (List.cons_ne_nil _ _), hread, hwritten, List.getLast?_cons]
          cases (written bufs).getLast? <;> rfl

/-- What is written is not empty. -/
theorem ne_nil_of_mem_written {bufs : List (List UInt8)} {buf : List UInt8}
    (hbuf : buf ∈ written bufs) : buf ≠ [] := by
  rintro rfl
  have hfull := (List.mem_filter.mp hbuf).2
  cases hfull

/-- Nothing is written just when all buffers are empty. -/
theorem written_eq_nil {bufs : List (List UInt8)} :
    written bufs = [] ↔ ∀ buf ∈ bufs, buf = [] := by
  rw [written, List.filter_eq_nil_iff]
  refine forall₂_congr fun buf _ => ?_
  cases buf with
  | nil => simp
  | cons byte rest => simp

/-- To read as all that was written is to have it in the last write alone. -/
theorem reads_iff (bufs : List (List UInt8)) :
    (∃ files', file.writeAlls files bufs = some files' ∧
        file.read files' = some bufs.flatten) ↔
      (written bufs).getLast?.or (file.read files)
        = some (written bufs).flatten := by
  obtain ⟨files', hrun, hlast⟩ :=
    Option.map_eq_some_iff.mp (file.read_writeAlls files bufs)
  rw [flatten_written, ← hlast, hrun]
  constructor
  · rintro ⟨_, ⟨⟩, hread⟩
    exact hread
  · intro hread
    exact ⟨files', rfl, hread⟩

end LocalFile

/-- **ONE BUFFER**: after a sequence of `write_all` the file reads as what was
    written when just one of the buffers is not empty, or none is and an
    empty file was there before. -/
theorem write_all_concat (file : LocalFile) (files : LocalFiles)
    (bufs : List (List UInt8)) :
    (∃ files', file.writeAlls files bufs = some files' ∧
        file.read files' = some bufs.flatten) ↔
      (∃ buf, LocalFile.written bufs = [buf]) ∨
        (∀ buf ∈ bufs, buf = []) ∧ files file.path = some [] := by
  rw [LocalFile.reads_iff, ← LocalFile.written_eq_nil]
  have hfull : ∀ buf ∈ LocalFile.written bufs, buf ≠ [] := fun _ =>
    LocalFile.ne_nil_of_mem_written
  generalize LocalFile.written bufs = written at hfull
  rcases List.eq_nil_or_concat written with rfl | ⟨init, last, rfl⟩
  · -- nothing was written: what was there is there
    simp [LocalFile.read]
  · -- the last buffer is the whole only if nothing is before it
    rw [List.concat_eq_append, List.getLast?_concat, List.flatten_append]
    have hinit : init.flatten = [] → init = [] := by
      intro hempty
      cases init with
      | nil => rfl
      | cons buf rest =>
          exact absurd (List.append_eq_nil_iff.mp hempty).1
            (hfull buf (by simp))
    constructor
    · intro hsame
      have hsame := Option.some.inj hsame
      have hlength := congrArg List.length hsame
      simp at hlength
      refine Or.inl ⟨last, ?_⟩
      rw [hinit (List.eq_nil_of_length_eq_zero (by simp; omega)), List.nil_append]
    · rintro (⟨buf, hone⟩ | ⟨hnone, _⟩)
      · rcases List.append_eq_singleton_iff.mp hone with ⟨rfl, _⟩ | ⟨_, hlast⟩
        · simp
        · cases hlast
      · simp at hnone

/-- Two buffers leave the second alone, and an empty one leaves no file. -/
theorem write_all_lost :
    (¬ ∃ files', (LocalFile.mk "proof").writeAlls (fun _ => none) [[1], [2]]
        = some files' ∧
      (LocalFile.mk "proof").read files' = some [[1], [2]].flatten) ∧
    ¬ ∃ files', (LocalFile.mk "proof").writeAlls (fun _ => none) [[]]
        = some files' ∧
      (LocalFile.mk "proof").read files' = some [[]].flatten := by
  rw [LocalFile.reads_iff, LocalFile.reads_iff]
  decide

end ZkmProver
