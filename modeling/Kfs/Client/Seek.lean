import Mathlib.Algebra.Order.Group.Int
import Mathlib.Logic.Function.Basic
import Mathlib.Tactic.Common

/-!
# Seeking in a file

`KfsClientImpl::Seek` with the types of its numbers: positions are signed numbers of 64 bits, the size of a chunk is an
unsigned one, and the number of a chunk has 32 bits. What the flush of the buffer brings comes from outside.

* `Descriptor`, `Seek`;
* `Sought`: an error that changes nothing, or the position that was asked for;
* **`Seek_iff`**: when a seek is one of these.
-/

namespace Kfs.Client.Seeking

def EBADF : ℤ := 9

def EINVAL : ℤ := 22

def CHUNKSIZE : ℤ := 67108864

def MAX_FILES : ℤ := 512000

def SEEK_SET : ℤ := 0

def SEEK_CUR : ℤ := 1

def SEEK_END : ℤ := 2

/-- The position of a descriptor; `preferredServer` tells whether there is a connection to one. -/
structure FilePosition where
  fileOffset : ℤ
  chunkNum : ℤ
  chunkOffset : ℤ
  preferredServer : Bool
  deriving DecidableEq

structure ChunkBuffer where
  chunkno : ℤ
  start : ℤ
  length : ℤ
  dirty : Bool
  deriving DecidableEq

/-- An entry of the file table. -/
structure Descriptor where
  isDirectory : Bool
  fileSize : ℤ
  currPos : FilePosition
  buffer : ChunkBuffer
  deriving DecidableEq

/-- What `WriteToServer` returns, and the size of the file then. -/
structure Written where
  numIO : ℤ
  fileSize : ℤ

def FlushBuffer (written : Written) (d : Descriptor) : Descriptor :=
  if d.buffer.dirty then
    if 0 ≤ written.numIO then
      { d with fileSize := written.fileSize, buffer := { d.buffer with dirty := false, length := 0 } }
    else d
  else d

/-- A signed number of 64 bits. -/
def Fits (n : ℤ) : Prop := -9223372036854775808 ≤ n ∧ n < 9223372036854775808
  deriving Decidable

def toUInt64 (n : ℤ) : ℤ := n % 18446744073709551616

def toInt32 (n : ℤ) : ℤ := Int.bmod n 4294967296

/-- The position that a seek computes; a sum that overflows has no meaning. -/
def newOff (d : Descriptor) (offset whence : ℤ) : ℤ :=
  if whence = SEEK_SET then offset
  else if whence = SEEK_CUR then d.currPos.fileOffset + offset
  else d.fileSize + offset

def moveTo (d : Descriptor) (newOff : ℤ) (preferredServer : Bool) : Descriptor :=
  { d with currPos := ⟨newOff, toInt32 (toUInt64 newOff / CHUNKSIZE), toUInt64 newOff % CHUNKSIZE, preferredServer⟩ }

/-- `Seek` for the descriptor in the table. -/
def seek (written : Written) (d : Descriptor) (offset whence : ℤ) : Option (ℤ × Descriptor) :=
  if d.isDirectory then some (-EBADF, d)
  else if whence ≠ SEEK_SET ∧ whence ≠ SEEK_CUR ∧ whence ≠ SEEK_END then some (-EINVAL, d)
  else
    let newOff := newOff d offset whence
    if ¬ Fits newOff then none
    else if d.currPos.chunkNum ≠ toInt32 (toUInt64 newOff / CHUNKSIZE) then
      let d := FlushBuffer written d
      if d.buffer.dirty then none else some (newOff, moveTo d newOff false)
    else some (newOff, moveTo d newOff d.currPos.preferredServer)

/-- `Seek`: the result, and the file table. An entry that is not there must not be asked. -/
def Seek (written : Written) (mFileTable : ℤ → Option Descriptor) (fd offset whence : ℤ) :
    Option (ℤ × (ℤ → Option Descriptor)) :=
  if fd < 0 ∨ MAX_FILES ≤ fd then some (-EBADF, mFileTable)
  else
    match mFileTable fd with
    | none => none
    | some d => (seek written d offset whence).map fun (r, d) => (r, Function.update mFileTable fd (some d))

/-- The end of the file as the application sees it. -/
def endOfFile (d : Descriptor) : ℤ :=
  if d.buffer.dirty then max d.fileSize (d.buffer.chunkno * CHUNKSIZE + d.buffer.start + d.buffer.length)
  else d.fileSize

/-- The position that is asked for: counted from the start of the file, from where the descriptor is, or from the
end. -/
def requested (d : Descriptor) (offset whence : ℤ) : ℤ :=
  if whence = SEEK_SET then offset
  else if whence = SEEK_CUR then d.currPos.fileOffset + offset
  else endOfFile d + offset

/-- A negative error and nothing has changed, or the descriptor is at the position that was asked for. -/
def Sought (mFileTable : ℤ → Option Descriptor) (fd offset whence : ℤ) (res : Option (ℤ × (ℤ → Option Descriptor))) :
    Prop :=
  (∃ r < 0, res = some (r, mFileTable)) ∨
  ∃ r mFileTable' d d', res = some (r, mFileTable') ∧ mFileTable fd = some d ∧ mFileTable' fd = some d' ∧
    0 ≤ requested d offset whence ∧ d'.currPos.fileOffset = requested d offset whence ∧
    d'.currPos.fileOffset = d'.currPos.chunkNum * CHUNKSIZE + d'.currPos.chunkOffset ∧
    0 ≤ d'.currPos.chunkOffset ∧ d'.currPos.chunkOffset < CHUNKSIZE

/-- The descriptor is at a position already, and stays connected there. -/
def At (d : Descriptor) (p : ℤ) : Prop :=
  d.currPos.fileOffset = p ∧ d.currPos.chunkNum = toInt32 (toUInt64 p / CHUNKSIZE) ∧
    d.currPos.chunkOffset = toUInt64 p % CHUNKSIZE

/-- When a seek within a file goes well. -/
def Seekable (written : Written) (d : Descriptor) (offset whence : ℤ) : Prop :=
  let p := newOff d offset whence
  Fits p ∧ (0 ≤ p ∨ At d p) ∧ p < 2147483648 * CHUNKSIZE ∧
    (whence = SEEK_END → 0 ≤ p → endOfFile d = d.fileSize) ∧
    (d.currPos.chunkNum ≠ toInt32 (toUInt64 p / CHUNKSIZE) → d.buffer.dirty = true → 0 ≤ written.numIO)

section

variable {written : Written} {d d' : Descriptor} {offset whence p : ℤ}

theorem FlushBuffer_dirty :
    (FlushBuffer written d).buffer.dirty = true ↔ d.buffer.dirty = true ∧ written.numIO < 0 := by
  unfold FlushBuffer
  split_ifs with hdirty hok
  · simp [hok]
  · simp [hdirty, not_le.1 hok]
  · simp [hdirty]

/-- The number of the chunk is right as far as it has 32 bits. -/
theorem position_eq (hp : 0 ≤ p) (hfits : Fits p) : p = toInt32 (toUInt64 p / CHUNKSIZE) * CHUNKSIZE +
    toUInt64 p % CHUNKSIZE ↔ p < 2147483648 * CHUNKSIZE := by
  have hsame : toUInt64 p = p := Int.emod_eq_of_lt hp (by have := hfits.2; omega)
  rw [hsame, toInt32, Int.bmod_def, CHUNKSIZE]
  have := hfits.2
  split_ifs
  all_goals omega

theorem moveTo_eq_iff {preferredServer : Bool} : moveTo d p preferredServer = d ↔
    At d p ∧ d.currPos.preferredServer = preferredServer := by
  obtain ⟨isDirectory, fileSize, ⟨fileOffset, chunkNum, chunkOffset, preferred⟩, buffer⟩ := d
  simp only [moveTo, At, Descriptor.mk.injEq, FilePosition.mk.injEq, true_and, and_true]
  constructor
  · rintro ⟨h₁, h₂, h₃, h₄⟩
    exact ⟨⟨h₁.symm, h₂.symm, h₃.symm⟩, h₄.symm⟩
  · rintro ⟨⟨h₁, h₂, h₃⟩, h₄⟩
    exact ⟨h₁.symm, h₂.symm, h₃.symm, h₄.symm⟩

theorem requested_eq (hwhence : whence = SEEK_SET ∨ whence = SEEK_CUR ∨ whence = SEEK_END)
    (hp : 0 ≤ newOff d offset whence) : requested d offset whence = newOff d offset whence ↔
      (whence = SEEK_END → 0 ≤ newOff d offset whence → endOfFile d = d.fileSize) := by
  rcases hwhence with rfl | rfl | rfl
  · exact iff_of_true rfl fun h => absurd h (by decide)
  · exact iff_of_true rfl fun h => absurd h (by decide)
  · have hreq : requested d offset SEEK_END = endOfFile d + offset := rfl
    have hnew : newOff d offset SEEK_END = d.fileSize + offset := rfl
    rw [hreq, hnew] at *
    constructor
    · intro h _ _
      omega
    · intro h
      rw [h rfl hp]

/-- What a seek that comes to its end leaves. -/
theorem seek_eq (hfile : d.isDirectory = false) (hwhence : whence = SEEK_SET ∨ whence = SEEK_CUR ∨ whence = SEEK_END)
    (hfits : Fits (newOff d offset whence)) (hflush : d.currPos.chunkNum ≠ toInt32 (toUInt64 (newOff d offset whence) /
      CHUNKSIZE) → d.buffer.dirty = true → 0 ≤ written.numIO) :
    ∃ d₀ preferredServer, seek written d offset whence =
        some (newOff d offset whence, moveTo d₀ (newOff d offset whence) preferredServer) ∧
      (d.currPos.chunkNum = toInt32 (toUInt64 (newOff d offset whence) / CHUNKSIZE) →
        d₀ = d ∧ preferredServer = d.currPos.preferredServer) := by
  have hknown : ¬ (whence ≠ SEEK_SET ∧ whence ≠ SEEK_CUR ∧ whence ≠ SEEK_END) := by tauto
  rw [seek, hfile, if_neg Bool.false_ne_true, if_neg hknown]
  dsimp only
  rw [if_neg (not_not.2 hfits)]
  split_ifs with hchunk hdirty
  · obtain ⟨hd, hneg⟩ := FlushBuffer_dirty.1 hdirty
    exact absurd (hflush hchunk hd) hneg.not_ge
  · exact ⟨_, _, rfl, fun h => absurd h hchunk⟩
  · exact ⟨_, _, rfl, fun _ => ⟨rfl, rfl⟩⟩

/-- A seek that is sought does not overflow, and its flush has not failed. -/
theorem seek_ne_none (hfile : d.isDirectory = false)
    (hwhence : whence = SEEK_SET ∨ whence = SEEK_CUR ∨ whence = SEEK_END) (h : seek written d offset whence ≠ none) :
    Fits (newOff d offset whence) ∧ (d.currPos.chunkNum ≠ toInt32 (toUInt64 (newOff d offset whence) / CHUNKSIZE) →
      d.buffer.dirty = true → 0 ≤ written.numIO) := by
  have hknown : ¬ (whence ≠ SEEK_SET ∧ whence ≠ SEEK_CUR ∧ whence ≠ SEEK_END) := by tauto
  rw [seek, hfile, if_neg Bool.false_ne_true, if_neg hknown] at h
  dsimp only at h
  by_cases hfits : Fits (newOff d offset whence)
  · refine ⟨hfits, fun hchunk hdirty => not_lt.1 fun hneg => ?_⟩
    rw [if_neg (not_not.2 hfits), if_pos hchunk, if_pos (FlushBuffer_dirty.2 ⟨hdirty, hneg⟩)] at h
    exact h rfl
  · rw [if_pos hfits] at h
    exact absurd rfl h

end

/-- **A seek fails and changes nothing, or comes to the position that was asked for**, exactly when the descriptor is
not valid, or its entry is there and is a directory, or the command is not known, or the seek is `Seekable`. -/
theorem Seek_iff (written : Written) (mFileTable : ℤ → Option Descriptor) (fd offset whence : ℤ) :
    Sought mFileTable fd offset whence (Seek written mFileTable fd offset whence) ↔
      (fd < 0 ∨ MAX_FILES ≤ fd) ∨ ∃ d, mFileTable fd = some d ∧ (d.isDirectory = true ∨
        (whence ≠ SEEK_SET ∧ whence ≠ SEEK_CUR ∧ whence ≠ SEEK_END) ∨ Seekable written d offset whence) := by
  rw [Seek]
  by_cases hfd : fd < 0 ∨ MAX_FILES ≤ fd
  · rw [if_pos hfd]
    exact ⟨fun _ => Or.inl hfd, fun _ => Or.inl ⟨-EBADF, by decide, rfl⟩⟩
  rw [if_neg hfd]
  cases hentry : mFileTable fd with
  | none =>
    constructor
    · rintro (⟨r, -, hr⟩ | ⟨r, t, d, d', hr, -⟩)
      · cases hr
      · cases hr
    · rintro (h | ⟨d, hd, -⟩)
      · exact absurd h hfd
      · cases hd
  | some d =>
    dsimp only
    have hsame : Function.update mFileTable fd (some d) = mFileTable := by rw [← hentry, Function.update_eq_self]
    cases hfile : d.isDirectory with
    | true =>
      rw [seek, hfile, if_pos rfl, Option.map_some, hsame]
      exact ⟨fun _ => Or.inr ⟨d, rfl, Or.inl hfile⟩, fun _ => Or.inl ⟨-EBADF, by decide, rfl⟩⟩
    | false =>
      by_cases hwhence : whence ≠ SEEK_SET ∧ whence ≠ SEEK_CUR ∧ whence ≠ SEEK_END
      · rw [seek, hfile, if_neg Bool.false_ne_true, if_pos hwhence, Option.map_some, hsame]
        exact ⟨fun _ => Or.inr ⟨d, rfl, Or.inr (Or.inl hwhence)⟩, fun _ => Or.inl ⟨-EINVAL, by decide, rfl⟩⟩
      · have hknown : whence = SEEK_SET ∨ whence = SEEK_CUR ∨ whence = SEEK_END := by tauto
        constructor
        · intro h
          have hne : seek written d offset whence ≠ none := by
            intro hnone
            rw [hnone] at h
            rcases h with ⟨r, -, hr⟩ | ⟨r, t, d, d', hr, -⟩
            · cases hr
            · cases hr
          obtain ⟨hfits, hflush⟩ := seek_ne_none hfile hknown hne
          obtain ⟨d₀, preferredServer, hseek, hstays⟩ := seek_eq hfile hknown hfits hflush
          rw [hseek, Option.map_some] at h
          refine Or.inr ⟨d, rfl, Or.inr (Or.inr ?_)⟩
          rcases h with ⟨r, hneg, hr⟩ | ⟨r, t, d₁, d', hr, hd, hd', hpos, hat, heq, -⟩
          · obtain ⟨hp, htable⟩ := Prod.mk.inj (Option.some.inj hr)
            have hmoved : moveTo d₀ (newOff d offset whence) preferredServer = d := by
              have hget := congrFun htable fd
              rw [Function.update_self, hentry] at hget
              exact Option.some.inj hget
            have hchunk : d.currPos.chunkNum = toInt32 (toUInt64 (newOff d offset whence) / CHUNKSIZE) :=
              (congrArg (fun d => d.currPos.chunkNum) hmoved).symm
            obtain ⟨rfl, rfl⟩ := hstays hchunk
            refine ⟨hfits, Or.inr (moveTo_eq_iff.1 hmoved).1, ?_, fun _ h0 => ?_, hflush⟩
            · rw [CHUNKSIZE]
              omega
            · omega
          · obtain ⟨rfl, rfl⟩ := Prod.mk.inj (Option.some.inj hr)
            rw [Function.update_self, Option.some.injEq] at hd'
            subst hd'
            cases hentry.symm.trans hd
            have hp : 0 ≤ newOff d offset whence := hpos.trans_eq hat.symm
            exact ⟨hfits, Or.inl hp, (position_eq hp hfits).1 heq, (requested_eq hknown hp).1 hat.symm, hflush⟩
        · rintro (h | ⟨d₁, hd, h | h | ⟨hfits, hpos, hlt, hend, hflush⟩⟩)
          · exact absurd h hfd
          · cases hd
            rw [hfile] at h
            cases h
          · exact absurd h hwhence
          · cases hd
            obtain ⟨d₀, preferredServer, hseek, hstays⟩ := seek_eq hfile hknown hfits hflush
            rw [hseek, Option.map_some]
            by_cases hp : 0 ≤ newOff d offset whence
            · have hreq := (requested_eq hknown hp).2 hend
              refine Or.inr ⟨_, _, d, _, rfl, hentry, Function.update_self _ _ _, hreq ▸ hp, hreq.symm,
                (position_eq hp hfits).2 hlt, Int.emod_nonneg _ (by decide), Int.emod_lt_of_pos _ (by decide)⟩
            · have hat := hpos.resolve_left hp
              obtain ⟨rfl, rfl⟩ := hstays hat.2.1
              refine Or.inl ⟨_, not_le.1 hp, ?_⟩
              rw [moveTo_eq_iff.2 ⟨hat, rfl⟩, hsame]

/-- A file of ten bytes that has been opened. -/
def opened : Descriptor := ⟨false, 10, ⟨0, 0, 0, false⟩, ⟨-1, 0, 0, false⟩⟩

/-- In front of the file. -/
theorem Seek_front :
    ¬ Sought (fun _ => some opened) 3 (-1) SEEK_SET (Seek ⟨0, 10⟩ (fun _ => some opened) 3 (-1) SEEK_SET) := by
  have hseek : seek ⟨0, 10⟩ opened (-1) SEEK_SET = some (-1, moveTo opened (-1) false) := by decide +kernel
  rw [Seek, if_neg (by decide)]
  dsimp only
  rw [hseek]
  rintro (⟨r, -, hr⟩ | ⟨r, t, d, d', -, -, -, hpos, -⟩)
  · have hget := congrFun (Prod.mk.inj (Option.some.inj hr)).2 3
    rw [Function.update_self] at hget
    cases (congrArg (fun d => d.currPos.fileOffset) (Option.some.inj hget))
  · have hneg : (0 : ℤ) ≤ -1 := hpos
    exact absurd hneg (by decide)

end Kfs.Client.Seeking
