import Kfs.Base
import Kfs.Lib.Decimal

/-!
# Lines of the log and of the checkpoint

`entry.cc`, the reader that the log and the checkpoint share: a line is a record type and fields, split
at slashes. Each `pop` takes a tag and what follows it from the front of the components.

* `Integers`: the types of the numbers, as wide as they are or unbounded;
* `toNumber`, `pop_name`, `pop_path`, `pop_fid`, `pop_short`, `pop_type`, `pop_time`: `none` when `ok` becomes
  false;
* `getlines`: the lines that `getline` hands out, and `feed`: the loop that parses them;
* `num`, `pop_fid_num`, `pop_name_cons`, …: what the pops return on fields as they are written.
-/

namespace Kfs

open Lib

/-! ## Fields -/

/-- What becomes of a number that is read: what `strtoll` returns for it, and what an `int` holds of that. -/
class Integers where
  strtoll : ℤ → ℤ
  int : ℤ → ℤ

/-- `strtoll` stops at the bounds of `long long`, and an `int` keeps the lower half. -/
@[reducible] def Integers.machine : Integers where
  strtoll n := max (-2 ^ 63) (min n (2 ^ 63 - 1))
  int n := n.bmod (2 ^ 32)

/-- Numbers that the server has written come from these types; nothing becomes of them. -/
instance Integers.written : Integers where
  strtoll n := n
  int n := n

/-- A number as a field. -/
def num (n : ℤ) : Str := printInt n

section

variable [Integers]

/-- `toNumber`; -1 when something follows the number. -/
def toNumber (s : Str) : ℤ := if (strtoll s).2 = [] then Integers.strtoll (strtoll s).1 else -1

/-- Remove a file name. The name of the root shows up as two empty components. -/
def pop_name (tag : Str) : List Str → Option (Str × List Str)
  | t :: name :: c =>
    if t ≠ tag then none
    else if name ≠ [] then some (name, c)
    else
      match c with
      | [] :: c => some (['/'], c)
      | _ => none
  | _ => none

/-- Remove a path name: everything that is left. -/
def pop_path (tag : Str) : List Str → Option Str
  | t :: c => if t ≠ tag ∨ c = [] then none else some (joinSep '/' c)
  | [] => none

/-- Remove a file id. -/
def pop_fid (tag : Str) : List Str → Option (ℤ × List Str)
  | t :: s :: c => if t ≠ tag ∨ toNumber s = -1 then none else some (toNumber s, c)
  | _ => none

/-- The conversion to `int16_t`. -/
def toInt16 (n : ℤ) : ℤ := n.bmod 65536

/-- Remove a short value. -/
def pop_short (tag : Str) : List Str → Option (ℤ × List Str)
  | t :: s :: c => if t ≠ tag ∨ toInt16 (toNumber s) = -1 then none else some (toInt16 (toNumber s), c)
  | _ => none

/-- Remove a file type. -/
def pop_type (tag : Str) : List Str → Option (FileType × List Str)
  | t :: s :: c =>
    if t ≠ tag then none
    else if s = "file".toList then some (.file, c)
    else if s = "dir".toList then some (.dir, c)
    else none
  | _ => none

/-- Remove a time value. -/
def pop_time (tag : Str) : List Str → Option (Timeval × List Str)
  | t :: s :: u :: c =>
    if t ≠ tag ∨ toNumber s = -1 ∨ toNumber u = -1 then none else some (⟨toNumber s, toNumber u⟩, c)
  | _ => none

end

/-! ## Files -/

def MAXLINE : ℕ := 400

/-- What `getline` has stored of a line: a `char` array, which ends at the first NUL. -/
def cstring (line : Str) : Str := line.takeWhile (· ≠ '\x00')

/-- The parser of a line, on a state of type `σ`: `none` when it crashes, else whether the line is
accepted. -/
abbrev LineParser (σ : Type) := σ → Str → Option (Bool × σ)

/-- The reading loop over the lines of a file. On a line that does not fit, `getline` sets the failbit
and hands out what fits; if that is accepted the loop never ends. -/
def feed {σ : Type} (parse : LineParser σ) (s : σ) : List Str → Option (Bool × σ)
  | [] => some (true, s)
  | line :: lines =>
    if line.length < MAXLINE then
      match parse s (cstring line) with
      | none => none
      | some (false, s) => some (false, s)
      | some (true, s) => feed parse s lines
    else
      match parse s (cstring (line.take (MAXLINE - 1))) with
      | some (false, s) => some (false, s)
      | _ => none

/-- `DiskEntry::parse`: an empty line is accepted; `table` looks the record type up. -/
def parseEntry {σ : Type} (table : Str → Option (σ → List Str → Option (Bool × σ))) : LineParser σ :=
  fun s line =>
    if line = [] then some (true, s)
    else
      match table ((line.splitOn '/').headD []) with
      | none => some (false, s)
      | some handler => handler s (line.splitOn '/')

/-! ## What the pops return on fields as they are written -/

@[simp] theorem toNumber_num (n : ℤ) : toNumber (num n) = n := by
  simp [toNumber, num, strtoll_printInt, Integers.strtoll]

variable {tag name : Str} {c : List Str} {n : ℤ}

theorem pop_fid_num (h : n ≠ -1) : pop_fid tag (tag :: num n :: c) = some (n, c) := by
  simp [pop_fid, h]

theorem pop_name_cons (h : name ≠ []) : pop_name tag (tag :: name :: c) = some (name, c) := by
  simp [pop_name, h]

theorem pop_path_splitOn (path : Str) : pop_path tag (tag :: path.splitOn '/') = some path := by
  simp [pop_path, List.splitOn_ne_nil, joinSep_splitOn]

theorem toInt16_of_range (h₀ : -32768 ≤ n) (h₁ : n < 32768) : toInt16 n = n := by
  unfold toInt16
  rw [Int.bmod_eq_of_le] <;> omega

theorem pop_short_num (h₀ : 0 ≤ n) (h₁ : n < 32768) :
    pop_short tag (tag :: num n :: c) = some (n, c) := by
  have h : toInt16 n = n := toInt16_of_range (by omega) h₁
  simp only [pop_short, toNumber_num, h]
  rw [if_neg (by simp; omega)]

theorem pop_time_num {t : Timeval} (hs : t.tv_sec ≠ -1) (hu : t.tv_usec ≠ -1) :
    pop_time tag (tag :: num t.tv_sec :: num t.tv_usec :: c) = some (t, c) := by
  simp [pop_time, hs, hu]

/-! ## Characters of a line -/

theorem cstring_of_not_mem {line : Str} (h : '\x00' ∉ line) : cstring line = line := by
  rw [cstring, List.takeWhile_eq_self_iff]
  intro x hx
  simp only [ne_eq, decide_eq_true_eq]
  rintro rfl
  exact h hx

theorem num_not_mem {d : Char} (n : ℤ) (hd : d.isDigit = false) (hm : d ≠ '-') : d ∉ num n :=
  not_mem_printInt n hd hm

end Kfs
