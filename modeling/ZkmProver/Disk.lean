import Mathlib.Algebra.Group.Nat.Defs
import Mathlib.Data.List.Basic

/-! # Byte strings, the directory tree and the texts read from it

    The scheduler moves `Vec<u8>` values around without looking inside them,
    with three exceptions collected in `Blob`.  The model is generic in that
    type, so that a result can be taken as a plain byte string or as a term
    that remembers how it was made.

    The directory tree is written by other processes while the stage runs, so
    every access is answered by a `Disk`, chosen afresh each time.

    Names of files and signed texts are put together from arbitrary strings
    and decimal numbers with a separator between them.  The number behind the
    last separator can be read back, and so what stands in front of it
    (`Decimal.append_sep_inj`); where the last separator is has to be
    known. -/

/-! ## Decimal numerals -/

namespace Decimal

/-- A number is written in digits. -/
theorem isDigit_of_mem {n : Nat} {c : Char} (h : c ∈ (Nat.repr n).toList) :
    c.isDigit = true := by
  rw [Nat.toList_repr] at h
  exact Nat.isDigit_of_mem_toDigits (by decide) (by decide) h

theorem not_mem {n : Nat} {c : Char} (hc : c.isDigit = false) :
    c ∉ (Nat.repr n).toList :=
  fun h => nomatch hc.symm.trans (isDigit_of_mem h)

/-- Two numbers are written alike only if they are one. -/
theorem repr_inj {m n : Nat} (h : Nat.repr m = Nat.repr n) : m = n := by
  have hvalue := congrArg (fun s => Nat.ofDigitChars 10 s.toList 0) h
  rwa [Nat.toList_repr, Nat.toList_repr, Nat.ofDigitChars_ten_toDigits,
    Nat.ofDigitChars_ten_toDigits] at hvalue

/-- The text behind the last separator, and the text in front of it. -/
theorem append_cons_inj {α : Type} {xs ys ds es : List α} {sep : α}
    (hd : sep ∉ ds) (he : sep ∉ es) (h : xs ++ sep :: ds = ys ++ sep :: es) :
    xs = ys ∧ ds = es := by
  rcases List.append_eq_append_iff.mp h with ⟨as, hys, hds⟩ | ⟨as, hxs, hes⟩
  · cases as with
    | nil =>
        rw [List.append_nil] at hys
        exact ⟨hys.symm, (List.cons.inj hds).2⟩
    | cons a as =>
        refine absurd ?_ hd
        rw [(List.cons.inj hds).2]
        exact List.mem_append_right _ List.mem_cons_self
  · cases as with
    | nil =>
        rw [List.append_nil] at hxs
        exact ⟨hxs, (List.cons.inj hes).2.symm⟩
    | cons a as =>
        refine absurd ?_ he
        rw [(List.cons.inj hes).2]
        exact List.mem_append_right _ List.mem_cons_self

/-- **SEPARATED**: a text and a number with `&` between them. -/
theorem append_sep_inj {s t : String} {m n : Nat}
    (h : s ++ "&" ++ Nat.repr m = t ++ "&" ++ Nat.repr n) : s = t ∧ m = n := by
  have hlist := congrArg String.toList h
  rw [String.append_assoc, String.append_assoc, String.toList_append,
    String.toList_append, String.toList_append, String.toList_append] at hlist
  have hsep : ∀ k, '&' ∉ (Nat.repr k).toList := fun k => not_mem (by decide)
  obtain ⟨hs, hn⟩ := append_cons_inj (hsep m) (hsep n) hlist
  exact ⟨String.toList_inj.mp hs, repr_inj (String.toList_inj.mp hn)⟩

end Decimal

namespace ZkmProver

/-- What the scheduler does with a `Vec<u8>` besides moving it. -/
class Blob (β : Type) where
  /-- `vec![]` -/
  empty : β
  /-- `bincode::deserialize::<Vec<Vec<u8>>>` -/
  deserialize : β → Option (List β)
  /-- `String::from_utf8` -/
  fromUtf8 : β → Option String

/-! ## Plain byte strings -/

/-- The next eight bytes as a little-endian number, and what follows. -/
def takeU64 (bytes : List UInt8) : Option (Nat × List UInt8) :=
  if bytes.length < 8 then none
  else
    some ((bytes.take 8).foldr (fun b n => b.toNat + 256 * n) 0, bytes.drop 8)

/-- A byte string behind its length, and what follows. -/
def takeBytes (bytes : List UInt8) : Option (List UInt8 × List UInt8) :=
  (takeU64 bytes).bind fun (n, rest) =>
    if rest.length < n then none else some (rest.take n, rest.drop n)

/-- `n` byte strings; trailing bytes are allowed. -/
def takeVec : Nat → List UInt8 → Option (List (List UInt8))
  | 0, _ => some []
  | n + 1, bytes =>
      (takeBytes bytes).bind fun (head, rest) =>
        (takeVec n rest).map (head :: ·)

instance : Blob (List UInt8) where
  empty := []
  deserialize := fun bytes => (takeU64 bytes).bind fun (n, rest) => takeVec n rest
  fromUtf8 := fun bytes => String.fromUTF8? ⟨bytes.toArray⟩

example :
    (Blob.deserialize [1, 0, 0, 0, 0, 0, 0, 0, 2, 0, 0, 0, 0, 0, 0, 0, 7, 9]
      : Option (List (List UInt8))) = some [[7, 9]] := by decide

/-- One look at the directory tree. -/
structure Disk (β : Type) where
  /-- `std::fs::read` and `file::new(..).read()` -/
  read : String → Option β
  /-- `std::fs::read_to_string` -/
  readToString : String → Option String
  /-- `file::new(..).read_dir()` -/
  readDir : String → Option (List String)
  /-- `std::path::Path::exists` -/
  existsPath : String → Bool

/-- `safe_read`: an unreadable file reads as no bytes. -/
def safeRead {β : Type} [Blob β] (disk : Disk β) (path : String) : β :=
  (disk.read path).getD Blob.empty

/-! ## Numbers in file names and in `segments.txt` -/

/-- Unicode `White_Space`, which `str::trim` strips. -/
def isWhiteSpace (c : Char) : Bool :=
  let n := c.toNat
  (0x9 ≤ n && n ≤ 0xd) || n == 0x20 || n == 0x85 || n == 0xa0 || n == 0x1680
    || (0x2000 ≤ n && n ≤ 0x200a) || n == 0x2028 || n == 0x2029 || n == 0x202f
    || n == 0x205f || n == 0x3000

/-- `str::trim`. -/
def trim (cs : List Char) : List Char :=
  ((cs.dropWhile isWhiteSpace).reverse.dropWhile isWhiteSpace).reverse

/-- The value of a run of decimal digits, `none` at any other character. -/
def digits : Nat → List Char → Option Nat
  | acc, [] => some acc
  | acc, c :: cs =>
      if c.isDigit then digits (10 * acc + (c.toNat - '0'.toNat)) cs else none

/-- Decimal digits are read as the number they spell. -/
theorem digits_eq {ds : List Char} (h : ∀ c ∈ ds, c.isDigit = true)
    (acc : Nat) : digits acc ds = some (Nat.ofDigitChars 10 ds acc) := by
  induction ds generalizing acc with
  | nil => rfl
  | cons c ds ih =>
      rw [digits, if_pos (h c List.mem_cons_self),
        ih fun c' hc' => h c' (List.mem_cons_of_mem _ hc'),
        Nat.ofDigitChars_cons]

/-- `str::parse::<usize>`: an optional plus sign, then at least one digit, and
    the value fits 64 bits. -/
def parseUsize (cs : List Char) : Option Nat :=
  let ds := match cs with
    | '+' :: ds => ds
    | ds => ds
  if ds.isEmpty then none
  else match digits 0 ds with
    | none => none
    | some n => if n < 2 ^ 64 then some n else none

/-- A number written out is parsed back. -/
theorem parseUsize_repr {n : Nat} (hn : n < 2 ^ 64) :
    parseUsize (Nat.repr n).toList = some n := by
  have hdigits : ∀ c ∈ (Nat.repr n).toList, c.isDigit = true := fun _ =>
    Decimal.isDigit_of_mem
  have hvalue : digits 0 (Nat.repr n).toList = some n := by
    rw [digits_eq hdigits, Nat.toList_repr, Nat.ofDigitChars_ten_toDigits]
  unfold parseUsize
  split
  case h_1 ds hsign =>
    have hplus := hdigits '+' (hsign ▸ List.mem_cons_self)
    cases hplus
  case h_2 =>
    dsimp only
    rw [hvalue, if_neg (by simp)]
    exact if_pos hn

/-- `str::strip_prefix`. -/
def stripStart : List Char → List Char → Option (List Char)
  | [], cs => some cs
  | p :: ps, c :: cs => if p = c then stripStart ps cs else none
  | _ :: _, [] => none

/-- The file number of a `deferred_proof_<n>` name. -/
def deferredNumber (fileName : String) : Option Nat :=
  (stripStart "deferred_proof_".toList fileName.toList).bind parseUsize

example : parseUsize "64".toList = some 64 := by decide

example : deferredNumber "deferred_proof_7" = some 7 := by decide

example : deferredNumber "segments.txt" = none := by decide

end ZkmProver
