import Kfs.Server.Model
import Kfs.Disk.Entry

/-!
# The log and its replay

The `log` methods of `request.cc`, and `replay.cc`: each record type has a handler that pops its fields and
runs the operation of the tree again, with the ids of the record. `none` is a crash: a failed assertion of
the operation or of the handler, a panic of `updateSeed`, or a loop that does not end.

* `LogRec.line`: the line that a record is written as;
* `redo`: what the handlers do once they have their fields;
* `replay_create`, …, `replayTable`, `replayLine`: from the components of a line;
* `playlog`: a whole file.
-/

namespace Kfs

open Lib

/-! ## Writing -/

/-- The fields that the `log` methods write, with slashes between them. -/
def LogRec.fields : LogRec → List Str
  | .create dir name fid n =>
    ["create".toList, "dir".toList, num dir, "name".toList, name, "id".toList, num fid,
      "numReplicas".toList, num n]
  | .mkdir dir name fid =>
    ["mkdir".toList, "dir".toList, num dir, "name".toList, name, "id".toList, num fid]
  | .remove dir name => ["remove".toList, "dir".toList, num dir, "name".toList, name]
  | .rmdir dir name => ["rmdir".toList, "dir".toList, num dir, "name".toList, name]
  | .rename dir oldname newname =>
    ["rename".toList, "dir".toList, num dir, "old".toList, oldname, "new".toList, newname]
  | .allocate fid offset chunkId chunkVersion =>
    ["allocate".toList, "file".toList, num fid, "offset".toList, num offset, "chunkId".toList,
      num chunkId, "chunkVersion".toList, num chunkVersion]
  | .truncate fid offset =>
    ["truncate".toList, "file".toList, num fid, "offset".toList, num offset]
  | .chunkVersionInc n => ["chunkVersionInc".toList, num n]

/-- The line of a record, without its newline. -/
def LogRec.line (r : LogRec) : Str := joinSep '/' r.fields

/-! ## Redoing -/

/-- `updateSeed`: the seed may not go down. -/
def updateSeed (seed new : ℤ) : Option ℤ := if new < seed then none else some new

/-- The end of `replay_create` and `replay_mkdir`: a new file moves the seed. -/
def redoNew (r : Option (ℤ × ℤ × Fs)) : Option (Bool × Fs) :=
  match r with
  | none => none
  | some (status, me, fs) =>
    if status = 0 then (updateSeed fs.fileID me).map fun seed => (true, { fs with fileID := seed })
    else some (false, fs)

/-- The handlers that only look at the status. -/
def redoStatus (r : Option (ℤ × Fs)) : Option (Bool × Fs) := r.map fun (status, fs) => (decide (status = 0), fs)

/-- The second half of `replay_allocate`: attach the chunk. -/
def redoAssign (env : Env) (fs : Fs) (fid offset cid chunkVersion : ℤ) : Option (Bool × Fs) :=
  let (status, fs) := assignChunkId env fs fid offset cid chunkVersion
  if status = 0 then
    if cid > fs.chunkID then (updateSeed fs.chunkID cid).map fun seed => (true, { fs with chunkID := seed })
    else some (true, fs)
  else some (false, fs)

/-- `replay_allocate` after its fields. A file that is gone is passed over, and so is a record that
matches what is in the tree. -/
def redoAllocate (env : Env) (fs : Fs) (fid offset logChunkId logChunkVersion : ℤ) :
    Option (Bool × Fs) :=
  match getFattr fs.leaves fid with
  | none => some (true, fs)
  | some _ =>
    match allocateChunkId fs fid offset logChunkId false with
    | none => none
    | some (status, cid, chunkVersion, fs) =>
      if status = -EEXIST ∧ chunkVersion = logChunkVersion then some (true, fs)
      else if status = -EEXIST ∨ status = 0 then
        if cid = logChunkId then redoAssign env fs fid offset cid logChunkVersion else none
      else some (false, fs)

/-- What the handlers do with the fields of a record. During replay every lease has expired: `env` has
the clock only. -/
def redo (env : Env) (fs : Fs) : LogRec → Option (Bool × Fs)
  | .create parent myname me n => redoNew (create env fs parent myname me n false)
  | .mkdir parent myname me => redoNew (mkdir env fs parent myname me)
  | .remove parent myname => redoStatus (remove env fs parent myname)
  | .rmdir parent myname => redoStatus (rmdir fs parent myname)
  | .rename parent oldname newpath => redoStatus (rename env fs parent oldname newpath true)
  | .allocate fid offset cid v => redoAllocate env fs fid offset cid v
  | .truncate fid offset =>
    (truncate env fs fid offset).map fun (status, _, fs) => (decide (status = 0), fs)
  | .chunkVersionInc n => some (decide (1 ≤ n), { fs with chunkVersionInc := n })

/-! ## Reading -/

section

variable [Integers]

/-- The common start of the records of the name space. -/
def pop_parent (c : List Str) : Option (ℤ × List Str) := pop_fid "dir".toList c.tail

def popCreate (c : List Str) : Option LogRec := do
  let (parent, c) ← pop_parent c
  let (myname, c) ← pop_name "name".toList c
  let (me, c) ← pop_fid "id".toList c
  let (n, _) ← pop_short "numReplicas".toList c
  return .create parent myname me n

def popMkdir (c : List Str) : Option LogRec := do
  let (parent, c) ← pop_parent c
  let (myname, c) ← pop_name "name".toList c
  let (me, _) ← pop_fid "id".toList c
  return .mkdir parent myname me

def popRemove (c : List Str) : Option LogRec := do
  let (parent, c) ← pop_parent c
  let (myname, _) ← pop_name "name".toList c
  return .remove parent myname

def popRmdir (c : List Str) : Option LogRec := do
  let (parent, c) ← pop_parent c
  let (myname, _) ← pop_name "name".toList c
  return .rmdir parent myname

def popRename (c : List Str) : Option LogRec := do
  let (parent, c) ← pop_parent c
  let (oldname, c) ← pop_name "old".toList c
  let newpath ← pop_path "new".toList c
  return .rename parent oldname newpath

def popAllocate (c : List Str) : Option LogRec := do
  let (fid, c) ← pop_fid "file".toList c.tail
  let (offset, c) ← pop_fid "offset".toList c
  let (cid, c) ← pop_fid "chunkId".toList c
  let (v, _) ← pop_fid "chunkVersion".toList c
  return .allocate fid offset cid v

def popTruncate (c : List Str) : Option LogRec := do
  let (fid, c) ← pop_fid "file".toList c.tail
  let (offset, _) ← pop_fid "offset".toList c
  return .truncate fid offset

/-- Redo the record that the fields make, or reject the line. -/
def redoPopped (env : Env) (fs : Fs) (r : Option LogRec) : Option (Bool × Fs) :=
  match r with
  | none => some (false, fs)
  | some r => redo env fs r

def replay_version (fs : Fs) (c : List Str) : Option (Bool × Fs) :=
  some ((pop_fid "version".toList c).any fun p => decide (p.1 = 1), fs)

def replay_create (env : Env) (fs : Fs) (c : List Str) : Option (Bool × Fs) :=
  redoPopped env fs (popCreate c)

def replay_mkdir (env : Env) (fs : Fs) (c : List Str) : Option (Bool × Fs) :=
  redoPopped env fs (popMkdir c)

def replay_remove (env : Env) (fs : Fs) (c : List Str) : Option (Bool × Fs) :=
  redoPopped env fs (popRemove c)

def replay_rmdir (env : Env) (fs : Fs) (c : List Str) : Option (Bool × Fs) :=
  redoPopped env fs (popRmdir c)

def replay_rename (env : Env) (fs : Fs) (c : List Str) : Option (Bool × Fs) :=
  redoPopped env fs (popRename c)

def replay_allocate (env : Env) (fs : Fs) (c : List Str) : Option (Bool × Fs) :=
  redoPopped env fs (popAllocate c)

def replay_truncate (env : Env) (fs : Fs) (c : List Str) : Option (Bool × Fs) :=
  redoPopped env fs (popTruncate c)

/-- `restore_chunkVersionInc`, which the checkpoint uses too. -/
def restore_chunkVersionInc (fs : Fs) (c : List Str) : Option (Bool × Fs) :=
  match c.tail with
  | [] => some (false, fs)
  | s :: _ => some (decide (1 ≤ toNumber s), { fs with chunkVersionInc := toNumber s })

/-- `restore_time` prints the component after the record type, which must be there. -/
def restore_time (fs : Fs) (c : List Str) : Option (Bool × Fs) :=
  if c.tail = [] then none else some (true, fs)

/-- The handler of a record type. -/
def replayTable (env : Env) (type : Str) : Option (Fs → List Str → Option (Bool × Fs)) :=
  if type = "version".toList then some replay_version
  else if type = "create".toList then some (replay_create env)
  else if type = "mkdir".toList then some (replay_mkdir env)
  else if type = "remove".toList then some (replay_remove env)
  else if type = "rmdir".toList then some (replay_rmdir env)
  else if type = "rename".toList then some (replay_rename env)
  else if type = "allocate".toList then some (replay_allocate env)
  else if type = "truncate".toList then some (replay_truncate env)
  else if type = "chunkVersionInc".toList then some restore_chunkVersionInc
  else if type = "time".toList then some restore_time
  else none

def replayLine (env : Env) : LineParser Fs := parseEntry (replayTable env)

/-- Replay the contents of a log file; the status is 0 when the result is `true`. -/
def playlog (env : Env) (fs : Fs) (file : Str) : Option (Bool × Fs) :=
  feed (replayLine env) fs (file.splitOn '\n')

end

end Kfs
