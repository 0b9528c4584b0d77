import Mathlib.Data.List.ReduceOption
import Mathlib.Data.Prod.Lex
import Kfs.Lib.MinElement

/-!
# The file table of the client

`FindFreeFileTableEntry` looks for a free entry of the file table. When the table is full it takes the smallest entry,
as `fte_compare` orders them, if this is a directory or has no mode.

* `Use`: what an entry is used for; `FileTableEntry.openMode` is what `Open` stores;
* `fte_compare`, `FindFreeFileTableEntry`;
* `weakOn_iff`: the tables on which `fte_compare` is a strict weak order;
* **`recycled_iff`**: the full tables in which the right entry is recycled.
-/

namespace Kfs.Client.FileTable

open Kfs.Lib

def EMFILE : ℤ := 24

def MAX_FILES : ℕ := 512000

def O_RDONLY : ℕ := 0

def O_WRONLY : ℕ := 1

def O_RDWR : ℕ := 2

/-- What an entry of the table is used for: a file is open with the flags that `Open` has got. -/
inductive Use
  | directory
  | attributes
  | file (flags : ℕ)
  deriving DecidableEq

structure FileTableEntry where
  use : Use
  lastAccessTime : ℤ

/-- The mode that `Open` stores. -/
def openModeOf (flags : ℕ) : ℕ :=
  if flags &&& O_RDWR ≠ 0 then O_RDWR
  else if flags &&& O_WRONLY ≠ 0 then O_WRONLY
  else if flags &&& O_RDONLY ≠ 0 then O_RDONLY
  else 0

namespace FileTableEntry

def isDirectory (e : FileTableEntry) : Bool := e.use = .directory

def openMode (e : FileTableEntry) : ℕ :=
  match e.use with
  | .file flags => openModeOf flags
  | _ => 0

end FileTableEntry

def fte_compare (first second : FileTableEntry) : Bool :=
  let dir1 := first.isDirectory
  let dir2 := second.isDirectory
  if dir1 = dir2 then first.lastAccessTime < second.lastAccessTime
  else if !dir1 && first.openMode == 0 then dir1
  else if !dir2 && second.openMode == 0 then dir2
  else dir1

/-- The entry that is free then, or `-EMFILE`; and the table. -/
def FindFreeFileTableEntry (mFileTable : List (Option FileTableEntry)) : ℤ × List (Option FileTableEntry) :=
  match mFileTable.findIdx? Option.isNone with
  | some i => (i, mFileTable)
  | none =>
    let last := mFileTable.length
    if last ≠ MAX_FILES then (last, mFileTable ++ [none])
    else
      match minElement fte_compare mFileTable.reduceOption with
      | none => (-EMFILE, mFileTable)
      | some (oldest, i) =>
        if oldest.isDirectory || oldest.openMode == 0 then (i, mFileTable.set i none) else (-EMFILE, mFileTable)

/-- What recycling an entry of a full table comes to. -/
def Recycled (t : List FileTableEntry) (res : ℤ × List (Option FileTableEntry)) : Prop :=
  WeakOn fte_compare t ∧
    (res.1 = -EMFILE → ∀ e ∈ t, e.use ≠ .directory ∧ e.use ≠ .attributes) ∧
    ∀ (i : ℕ) (e : FileTableEntry), t[i]? = some e → res.2[i]? = some none → ∀ flags, e.use ≠ .file flags

/-! ## The order of the entries -/

/-- A file that has no mode: an entry for the attributes, or a file that is open only to read. -/
def Modeless (e : FileTableEntry) : Prop := e.isDirectory = false ∧ e.openMode = 0

/-- A file that is open to write. -/
def Writable (e : FileTableEntry) : Prop := e.isDirectory = false ∧ e.openMode ≠ 0
  deriving Decidable

/-- The directories have one time, the files without a mode have one, and it is before that of all other files. -/
def Even (t : List FileTableEntry) : Prop :=
  ∃ td tm, ∀ e ∈ t, (e.isDirectory = true → e.lastAccessTime = td) ∧ (Modeless e → e.lastAccessTime = tm) ∧
    (Writable e → tm < e.lastAccessTime)

variable {x y e : FileTableEntry} {t : List FileTableEntry}

theorem kinds (e : FileTableEntry) : e.isDirectory = true ∨ Modeless e ∨ Writable e := by
  cases hd : e.isDirectory with
  | true => exact Or.inl rfl
  | false =>
    by_cases hm : e.openMode = 0
    · exact Or.inr (Or.inl ⟨hd, hm⟩)
    · exact Or.inr (Or.inr ⟨hd, hm⟩)

theorem compare_same (h : x.isDirectory = y.isDirectory) :
    fte_compare x y = decide (x.lastAccessTime < y.lastAccessTime) := by
  rw [fte_compare, if_pos h]

theorem compare_file (hx : x.isDirectory = false) (hy : y.isDirectory = true) : fte_compare x y = false := by
  rw [fte_compare, hx, hy]
  simp

theorem compare_modeless (hx : x.isDirectory = true) (hy : Modeless y) : fte_compare x y = false := by
  rw [fte_compare, hx, hy.1, hy.2]
  rfl

theorem compare_writable (hx : x.isDirectory = true) (hy : Writable y) : fte_compare x y = true := by
  rw [fte_compare, hx, hy.1]
  simp [hy.2]

theorem weakOn_iff : WeakOn fte_compare t ↔
    (∀ e ∈ t, e.isDirectory = false) ∨ (∀ e ∈ t, ¬ Modeless e) ∨ Even t := by
  constructor
  · intro h
    by_cases hdir : ∀ e ∈ t, e.isDirectory = false
    · exact Or.inl hdir
    by_cases hmodeless : ∀ e ∈ t, ¬ Modeless e
    · exact Or.inr (Or.inl hmodeless)
    push Not at hdir hmodeless
    obtain ⟨d, hd, hdir⟩ := hdir
    obtain ⟨m, hm, hmodeless⟩ := hmodeless
    rw [ne_eq, Bool.not_eq_false] at hdir
    have hapart : ∀ {x z : FileTableEntry}, x.isDirectory = true → Modeless z →
        ¬ fte_compare x z = true ∧ ¬ fte_compare z x = true := fun hx hz =>
      ⟨Bool.eq_false_iff.1 (compare_modeless hx hz), Bool.eq_false_iff.1 (compare_file hz.1 hx)⟩
    refine Or.inr (Or.inr ⟨d.lastAccessTime, m.lastAccessTime, fun x hx =>
      ⟨fun hxd => ?_, fun hxm => ?_, fun hxw => ?_⟩⟩)
    · have hsame := h.incomp_trans ⟨x, hx⟩ ⟨m, hm⟩ ⟨d, hd⟩ (hapart hxd hmodeless) (hapart hdir hmodeless).symm
      rw [compare_same (hxd.trans hdir.symm), compare_same (hdir.trans hxd.symm), decide_eq_true_iff,
        decide_eq_true_iff]
        at hsame
      omega
    · have hsame := h.incomp_trans ⟨x, hx⟩ ⟨d, hd⟩ ⟨m, hm⟩ (hapart hdir hxm).symm (hapart hdir hmodeless)
      rw [compare_same (hxm.1.trans hmodeless.1.symm), compare_same (hmodeless.1.trans hxm.1.symm), decide_eq_true_iff,
        decide_eq_true_iff] at hsame
      omega
    · have hless := compare_writable hdir hxw
      cases h.cotrans hd hm hx hless with
      | inl hdm => exact absurd hdm (hapart hdir hmodeless).1
      | inr hmx => rwa [compare_same (hmodeless.1.trans hxw.1.symm), decide_eq_true_iff] at hmx
  · intro h
    rcases h with hdir | hmodeless | ⟨td, tm, heven⟩
    · refine WeakOn.of_key (fun e => e.lastAccessTime) fun x hx y hy => ?_
      rw [compare_same ((hdir x hx).trans (hdir y hy).symm), decide_eq_true_iff]
    · refine WeakOn.of_key (fun e => toLex (!e.isDirectory, e.lastAccessTime)) fun x hx y hy => ?_
      rw [Prod.Lex.toLex_lt_toLex]
      cases hxd : x.isDirectory with
      | true =>
        cases hyd : y.isDirectory with
        | true => simp [compare_same (hxd.trans hyd.symm)]
        | false =>
          have hw : Writable y := ⟨hyd, fun h0 => hmodeless y hy ⟨hyd, h0⟩⟩
          simp [compare_writable hxd hw]
      | false =>
        cases hyd : y.isDirectory with
        | true => simp [compare_file hxd hyd]
        | false => simp [compare_same (hxd.trans hyd.symm)]
    · refine WeakOn.of_key (fun e => if Writable e then e.lastAccessTime else tm) fun x hx y hy => ?_
      obtain ⟨hxd, hxm, hxw⟩ := heven x hx
      obtain ⟨hyd, hym, hyw⟩ := heven y hy
      rcases kinds x with hx | hx | hx
      · have hnx : ¬ Writable x := fun hw => by rw [hw.1] at hx; cases hx
        rcases kinds y with hy | hy | hy
        · have hny : ¬ Writable y := fun hw => by rw [hw.1] at hy; cases hy
          rw [compare_same (hx.trans hy.symm), if_neg hnx, if_neg hny, hxd hx, hyd hy]
          simp
        · rw [compare_modeless hx hy, if_neg hnx, if_neg fun hw => hw.2 hy.2]
          simp
        · rw [compare_writable hx hy, if_neg hnx, if_pos hy]
          simpa using hyw hy
      · rcases kinds y with hy | hy | hy
        · have hny : ¬ Writable y := fun hw => by rw [hw.1] at hy; cases hy
          rw [compare_file hx.1 hy, if_neg fun hw => hw.2 hx.2, if_neg hny]
          simp
        · rw [compare_same (hx.1.trans hy.1.symm), if_neg fun hw => hw.2 hx.2, if_neg fun hw => hw.2 hy.2,
            hxm hx, hym hy]
          simp
        · rw [compare_same (hx.1.trans hy.1.symm), if_neg fun hw => hw.2 hx.2, if_pos hy, hxm hx, decide_eq_true_iff]
      · rcases kinds y with hy | hy | hy
        · have hny : ¬ Writable y := fun hw => by rw [hw.1] at hy; cases hy
          have hlt := hxw hx
          rw [compare_file hx.1 hy, if_pos hx, if_neg hny]
          simp [hlt.le]
        · rw [compare_same (hx.1.trans hy.1.symm), if_pos hx, if_neg fun hw => hw.2 hy.2, hym hy, decide_eq_true_iff]
        · rw [compare_same (hx.1.trans hy.1.symm), if_pos hx, if_pos hy, decide_eq_true_iff]

/-! ## The entry that is recycled -/

theorem isDirectory_iff : e.isDirectory = true ↔ e.use = .directory := decide_eq_true_iff

/-- In a full table the first smallest entry is recycled, if it is a directory or has no mode. -/
theorem FindFreeFileTableEntry_full {i : ℕ} (hlen : t.length = MAX_FILES)
    (hmin : minElement fte_compare t = some (e, i)) :
    FindFreeFileTableEntry (t.map some) =
      if Writable e then (-EMFILE, t.map some) else (↑i, (t.map some).set i none) := by
  have hnone : (t.map some).findIdx? Option.isNone = none := by simp [List.findIdx?_eq_none_iff]
  have hall : (t.map some).reduceOption = t := by simp [List.reduceOption]
  have hw : (e.isDirectory || e.openMode == 0) = !decide (Writable e) := by
    cases hd : e.isDirectory <;> simp [Writable, hd, Bool.beq_eq_decide_eq]
  rw [FindFreeFileTableEntry, hnone]
  dsimp only
  rw [List.length_map, if_neg (not_not.2 hlen), hall, hmin]
  dsimp only
  rw [hw]
  by_cases h : Writable e
  · rw [if_pos h, decide_eq_true h]
    rfl
  · rw [if_neg h, decide_eq_false h]
    rfl

theorem recycled_first {i : ℕ} (hlen : t.length = MAX_FILES) (hweak : WeakOn fte_compare t)
    (hfirst : FirstMin fte_compare t e i) : Recycled t (FindFreeFileTableEntry (t.map some)) ↔
      e.use = .directory ∨ e.use = .attributes ∨ Writable e ∧ ∀ x ∈ t, x.use ≠ .directory ∧ x.use ≠ .attributes := by
  have hne : t ≠ [] := List.ne_nil_of_mem hfirst.mem.1
  obtain ⟨e', i', hmin, hfirst'⟩ := minElement_first hweak hne
  obtain ⟨rfl, rfl⟩ := hfirst.unique hfirst'
  rw [FindFreeFileTableEntry_full hlen hmin]
  by_cases hw : Writable e
  · have hdir : e.use ≠ .directory := fun h => by
      rw [← isDirectory_iff, hw.1] at h
      cases h
    have hattr : e.use ≠ .attributes := fun h => hw.2 (by rw [FileTableEntry.openMode, h])
    rw [if_pos hw]
    constructor
    · exact fun h => Or.inr (Or.inr ⟨hw, h.2.1 rfl⟩)
    · rintro (h | h | h)
      · exact absurd h hdir
      · exact absurd h hattr
      · refine ⟨hweak, fun _ => h.2, fun j x hj hnone => ?_⟩
        rw [List.getElem?_map, hj] at hnone
        cases hnone
  · rw [if_neg hw]
    constructor
    · intro h
      have hlt : i < (t.map some).length := by
        rw [List.length_map]
        exact (List.getElem?_eq_some_iff.1 hfirst.mem.2).1
      have hfree := h.2.2 i e hfirst.mem.2 (List.getElem?_set_self hlt)
      cases huse : e.use with
      | directory => exact Or.inl rfl
      | attributes => exact Or.inr (Or.inl rfl)
      | file flags => exact absurd huse (hfree flags)
    · intro h
      refine ⟨hweak, fun hneg => ?_, fun j x hj hnone flags hfile => ?_⟩
      · have hi : (0 : ℤ) ≤ i := Int.natCast_nonneg i
        rw [show (i : ℤ) = -EMFILE from hneg] at hi
        exact absurd hi (by decide)
      · by_cases hij : i = j
        · subst hij
          rw [hfirst.mem.2] at hj
          cases hj
          rw [hfile] at h
          rcases h with h | h | h
          · cases h
          · cases h
          · exact hw h.1
        · rw [List.getElem?_set_ne hij, List.getElem?_map, hj] at hnone
          cases hnone

/-- A directory is smaller than a file that is open to write. -/
theorem first_not_writable {i : ℕ} (hfirst : FirstMin fte_compare t e i) (hx : x ∈ t) (hdir : x.isDirectory = true) :
    ¬ Writable e := by
  intro hw
  obtain ⟨before, behind, rfl, -, hbefore, hbehind⟩ := hfirst
  have hless := compare_writable hdir hw
  cases List.mem_append.1 hx with
  | inl hb =>
    have hcomp := hbefore x hb
    rw [compare_file hw.1 hdir] at hcomp
    cases hcomp
  | inr hb =>
    cases List.mem_cons.1 hb with
    | inl heq =>
      rw [heq, hw.1] at hdir
      cases hdir
    | inr hb =>
      rw [hbehind x hb] at hless
      cases hless

/-- The tables in which the right entry is recycled: without directories the file that has not been accessed for
longest, and the first of these, is there for its attributes only, or no entry is; or there are directories and no
files without a mode; or the first entry that is not open to write is no file that is open. -/
def Reclaims (t : List FileTableEntry) : Prop :=
  (∃ before e behind, t = before ++ e :: behind ∧ (∀ x ∈ t, x.use ≠ .directory) ∧
    (∀ x ∈ before, e.lastAccessTime < x.lastAccessTime) ∧ (∀ x ∈ behind, e.lastAccessTime ≤ x.lastAccessTime) ∧
    (e.use = .attributes ∨ Writable e ∧ ∀ x ∈ t, x.use ≠ .attributes)) ∨
  ((∃ x ∈ t, x.use = .directory) ∧ ∀ x ∈ t, ¬ Modeless x) ∨
  Even t ∧ ∃ before e behind, t = before ++ e :: behind ∧ (∀ x ∈ before, Writable x) ∧
    (e.use = .directory ∨ e.use = .attributes)

/-- **The right entry is recycled** in these full tables, and in no others. -/
theorem recycled_iff (t : List FileTableEntry) (hlen : t.length = MAX_FILES) :
    Recycled t (FindFreeFileTableEntry (t.map some)) ↔ Reclaims t := by
  have hne : t ≠ [] := by
    intro h
    rw [h] at hlen
    exact absurd hlen (by decide)
  constructor
  · intro h
    have hweak := h.1
    obtain ⟨e, i, hmin, hfirst⟩ := minElement_first hweak hne
    have hright := (recycled_first hlen hweak hfirst).1 h
    obtain ⟨before, behind, hl, -, hbefore, hbehind⟩ := hfirst
    have hmem : e ∈ t := by simp [hl]
    by_cases hdir : ∀ x ∈ t, x.isDirectory = false
    · have hsame : ∀ x ∈ t, x.isDirectory = e.isDirectory := fun x hx => (hdir x hx).trans (hdir e hmem).symm
      have hnot : ∀ x ∈ t, x.use ≠ .directory := fun x hx hd => by
        rw [← isDirectory_iff, hdir x hx] at hd
        cases hd
      refine Or.inl ⟨before, e, behind, hl, hnot, fun x hx => ?_, fun x hx => ?_, ?_⟩
      · have hcomp := hbefore x hx
        rwa [compare_same (hsame x (by simp [hl, hx])).symm, decide_eq_true_iff] at hcomp
      · have hcomp := hbehind x hx
        rwa [compare_same (hsame x (by simp [hl, hx])), decide_eq_false_iff_not, not_lt] at hcomp
      · rcases hright with hd | ha | hw
        · exact absurd hd (hnot e hmem)
        · exact Or.inl ha
        · exact Or.inr ⟨hw.1, fun x hx => (hw.2 x hx).2⟩
    · push Not at hdir
      obtain ⟨d, hd, hdir⟩ := hdir
      rw [ne_eq, Bool.not_eq_false] at hdir
      have hnw : ¬ Writable e := first_not_writable ⟨before, behind, hl, rfl, hbefore, hbehind⟩ hd hdir
      have heither : e.use = .directory ∨ e.use = .attributes := by
        rcases hright with h | h | h
        · exact Or.inl h
        · exact Or.inr h
        · exact absurd h.1 hnw
      by_cases hmodeless : ∀ x ∈ t, ¬ Modeless x
      · exact Or.inr (Or.inl ⟨⟨d, hd, isDirectory_iff.1 hdir⟩, hmodeless⟩)
      have heven : Even t := by
        rcases weakOn_iff.1 hweak with h | h | h
        · rw [h d hd] at hdir
          cases hdir
        · exact absurd h hmodeless
        · exact h
      refine Or.inr (Or.inr ⟨heven, before, e, behind, hl, fun x hx => ?_, heither⟩)
      obtain ⟨td, tm, htimes⟩ := heven
      obtain ⟨hxd, hxm, -⟩ := htimes x (by simp [hl, hx])
      obtain ⟨hed, hem, -⟩ := htimes e hmem
      have hcomp := hbefore x hx
      rcases kinds x with hk | hk | hk
      · rcases kinds e with he | he | he
        · rw [compare_same (he.trans hk.symm), hxd hk, hed he, decide_eq_true_iff] at hcomp
          exact absurd hcomp (lt_irrefl _)
        · rw [compare_file he.1 hk] at hcomp
          cases hcomp
        · exact absurd he hnw
      · rcases kinds e with he | he | he
        · rw [compare_modeless he hk] at hcomp
          cases hcomp
        · rw [compare_same (he.1.trans hk.1.symm), hxm hk, hem he, decide_eq_true_iff] at hcomp
          exact absurd hcomp (lt_irrefl _)
        · exact absurd he hnw
      · exact hk
  · rintro (⟨before, e, behind, hl, hdir, hbefore, hbehind, he⟩ | ⟨⟨d, hd, hdir⟩, hmodeless⟩ |
      ⟨heven, before, e, behind, hl, hbefore, he⟩)
    · have hfile : ∀ x ∈ t, x.isDirectory = false := fun x hx =>
        Bool.eq_false_iff.2 fun h => hdir x hx (isDirectory_iff.1 h)
      have hsame : ∀ x ∈ t, ∀ y ∈ t, x.isDirectory = y.isDirectory := fun x hx y hy =>
        (hfile x hx).trans (hfile y hy).symm
      have hmem : e ∈ t := by simp [hl]
      have hfirst : FirstMin fte_compare t e before.length := by
        refine ⟨before, behind, hl, rfl, fun x hx => ?_, fun x hx => ?_⟩
        · rw [compare_same (hsame e hmem x (by simp [hl, hx])), decide_eq_true_iff]
          exact hbefore x hx
        · rw [compare_same (hsame x (by simp [hl, hx]) e hmem), decide_eq_false_iff_not, not_lt]
          exact hbehind x hx
      refine (recycled_first hlen (weakOn_iff.2 (Or.inl hfile)) hfirst).2 (Or.inr ?_)
      cases he with
      | inl ha => exact Or.inl ha
      | inr hw => exact Or.inr ⟨hw.1, fun x hx => ⟨hdir x hx, hw.2 x hx⟩⟩
    · have hweak : WeakOn fte_compare t := weakOn_iff.2 (Or.inr (Or.inl hmodeless))
      obtain ⟨e, i, -, hfirst⟩ := minElement_first hweak hne
      refine (recycled_first hlen hweak hfirst).2 (Or.inl ?_)
      rcases kinds e with he | he | he
      · exact isDirectory_iff.1 he
      · exact absurd he (hmodeless e hfirst.mem.1)
      · exact absurd he (first_not_writable hfirst hd (isDirectory_iff.2 hdir))
    · have hweak : WeakOn fte_compare t := weakOn_iff.2 (Or.inr (Or.inr heven))
      obtain ⟨td, tm, htimes⟩ := heven
      obtain ⟨hed, hem, -⟩ := htimes e (by simp [hl])
      have hkind : e.isDirectory = true ∨ Modeless e := by
        cases he with
        | inl hd => exact Or.inl (isDirectory_iff.2 hd)
        | inr ha => exact Or.inr ⟨by rw [FileTableEntry.isDirectory, ha]; rfl, by rw [FileTableEntry.openMode, ha]⟩
      have hfirst : FirstMin fte_compare t e before.length := by
        refine ⟨before, behind, hl, rfl, fun x hx => ?_, fun x hx => ?_⟩
        · have hw := hbefore x hx
          cases hkind with
          | inl hd => exact compare_writable hd hw
          | inr hm =>
            rw [compare_same (hm.1.trans hw.1.symm), decide_eq_true_iff, hem hm]
            exact (htimes x (by simp [hl, hx])).2.2 hw
        · obtain ⟨hxd, hxm, hxw⟩ := htimes x (by simp [hl, hx])
          cases hkind with
          | inl hd =>
            cases hd' : x.isDirectory with
            | true => rw [compare_same (hd'.trans hd.symm), hxd hd', hed hd, decide_eq_false (lt_irrefl _)]
            | false => exact compare_file hd' hd
          | inr hm =>
            rcases kinds x with hk | hk | hk
            · exact compare_modeless hk hm
            · rw [compare_same (hk.1.trans hm.1.symm), hxm hk, hem hm, decide_eq_false (lt_irrefl _)]
            · rw [compare_same (hk.1.trans hm.1.symm), hem hm, decide_eq_false (hxw hk).not_gt]
      refine (recycled_first hlen hweak hfirst).2 ?_
      exact he.imp_right Or.inl

/-- A table of directories. -/
theorem recycled_directories :
    Recycled (List.replicate MAX_FILES ⟨.directory, 0⟩)
      (FindFreeFileTableEntry ((List.replicate MAX_FILES ⟨.directory, 0⟩).map some)) := by
  refine (recycled_iff _ List.length_replicate).2 (Or.inr (Or.inl ⟨⟨⟨.directory, 0⟩, ?_, rfl⟩, fun x hx h => ?_⟩))
  · exact List.mem_replicate.2 ⟨by decide, rfl⟩
  · rw [(List.mem_replicate.1 hx).2] at h
    cases h.1

/-- A file that is open to write, and has not been accessed for longest, before entries for attributes only. -/
def oldOpen : List FileTableEntry := ⟨.file O_RDWR, 0⟩ :: List.replicate (MAX_FILES - 1) ⟨.attributes, 1⟩

theorem recycled_oldOpen : ¬ Recycled oldOpen (FindFreeFileTableEntry (oldOpen.map some)) := by
  intro h
  have hlen : oldOpen.length = MAX_FILES := by
    rw [oldOpen, List.length_cons, List.length_replicate]
    decide
  have hmem : ∀ x ∈ oldOpen, x.isDirectory = false := by
    intro x hx
    cases List.mem_cons.1 hx with
    | inl heq => rw [heq]; rfl
    | inr hrest => rw [(List.mem_replicate.1 hrest).2]; rfl
  have hfirst : FirstMin fte_compare oldOpen ⟨.file O_RDWR, 0⟩ 0 := by
    refine ⟨[], _, rfl, rfl, fun x hx => absurd hx List.not_mem_nil, fun x hx => ?_⟩
    rw [(List.mem_replicate.1 hx).2]
    rfl
  rcases (recycled_first hlen (weakOn_iff.2 (Or.inl hmem)) hfirst).1 h with hd | ha | hw
  · cases hd
  · cases ha
  · exact (hw.2 ⟨.attributes, 1⟩ (List.mem_cons_of_mem _ (List.mem_replicate.2 ⟨by decide, rfl⟩))).2 rfl

end Kfs.Client.FileTable
