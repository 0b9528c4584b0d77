import Kfs.Leaves

/-!
# File and directory operations

`kfsops.cc` over the sequence of leaf items. A failed assertion, a null or dangling pointer, a panic
and an endless loop are `none`; otherwise the operations return a status and the new state.

* `Fs`: the leaf items, the id seeds, the chunk version increment and the dumpster counter;
* `Env`: what an operation finds outside: the clock and the valid leases;
* `lookup`, `lookupPath`, `readdir`, `getalloc`: reading;
* `create`, `mkdir`, `rmdir`, `remove`, `rename`, `moveToDumpster`, `cleanupDumpster`: the name space;
* `allocateChunkId`, `assignChunkId`, `truncate`, `changeFileReplication`: files.
-/

namespace Kfs

/-! ## State -/

def ROOTFID : ℤ := 2

/-- The size of a chunk, in bytes. -/
def CHUNKSIZE : ℤ := 67108864

def EPERM : ℤ := 1
def ENOENT : ℤ := 2
def EBUSY : ℤ := 16
def EEXIST : ℤ := 17
def ENOTDIR : ℤ := 20
def EISDIR : ℤ := 21
def EINVAL : ℤ := 22
def ENOTEMPTY : ℤ := 39

/-- The name of the directory for files that are removed while busy. -/
def DUMPSTERDIR : Str := "dumpster".toList

/-- The metadata state: the items of `metatree`, the seeds of `fileID` and `chunkID`,
`chunkVersionInc` and the counter of `moveToDumpster`. -/
structure Fs where
  leaves : List Meta
  fileID : ℤ
  chunkID : ℤ
  chunkVersionInc : ℤ
  counter : ℕ
  deriving DecidableEq

/-- The clock, and the chunks with a valid lease. -/
structure Env where
  now : Timeval
  leased : ℤ → Bool

namespace Leaves

/-- `del` with the status checked: `none` when there is no such item. -/
def delOk (l : List Meta) (m : Meta) : Option (List Meta) :=
  if l.any (hits m) then some (del l m) else none

/-- Overwrite the first item with key `k` through the pointer that a lookup returned. -/
def update (l : List Meta) (k : Key) (g : Meta → Meta) : List Meta :=
  match l with
  | [] => []
  | x :: l => if x.key.eqv k then g x :: l else x :: update l k g

end Leaves

/-- `MetaFattr(t, id, n)`: the attributes of a new file or directory. -/
def MetaFattr.new (env : Env) (t : FileType) (id n : ℤ) : MetaFattr where
  id := id
  type := t
  numReplicas := n
  mtime := env.now
  ctime := env.now
  crtime := env.now
  chunkcount := 0
  filesize := if t = .dir then 0 else -1

/-- Legal means nonempty and not containing any slashes. -/
def legalname (name : Str) : Bool := !name.isEmpty && !name.contains '/'

/-- The start of the chunk that contains `offset`. -/
def chunkStartOffset (offset : ℤ) : ℤ := offset.tdiv CHUNKSIZE * CHUNKSIZE

/-! ## Reading -/

def Meta.dentry? : Meta → Option MetaDentry
  | .dentry d => some d
  | _ => none

def Meta.fattr? : Meta → Option MetaFattr
  | .fattr f => some f
  | _ => none

def Meta.chunkinfo? : Meta → Option MetaChunkInfo
  | .chunkinfo c => some c
  | _ => none

/-- The attributes of `fid`. -/
def getFattr (l : List Meta) (fid : ℤ) : Option MetaFattr :=
  (Leaves.find l ⟨.fattr, fid, 0⟩).head?.bind Meta.fattr?

/-- The entries of `dir`; the inner `none` is `-ENOENT`. -/
def readdir (l : List Meta) (dir : ℤ) : Option (Option (List MetaDentry)) :=
  match Leaves.find l ⟨.dentry, dir, 0⟩ with
  | [] => some none
  | v => if 2 ≤ v.length then some (some (v.filterMap Meta.dentry?)) else none

/-- The entry `fname` of `dir`. -/
def getDentry (l : List Meta) (dir : ℤ) (fname : Str) : Option (Option MetaDentry) :=
  (readdir l dir).map fun v => v.bind fun v => v.find? fun d => decide (d.name = fname)

/-- Look up a name and return its attributes. -/
def lookup (l : List Meta) (dir : ℤ) (fname : Str) : Option (Option MetaFattr) :=
  match getDentry l dir fname with
  | none => none
  | some none => some none
  | some (some d) =>
    match getFattr l d.id with
    | none => none
    | some fa => some (some fa)

/-- The loop of `lookupPath` over the components of the path. -/
def lookupComponents (l : List Meta) : ℤ → List Str → Option (Option MetaFattr)
  | _, [] => some none
  | dir, [c] => lookup l dir c
  | dir, c :: cs =>
    match lookup l dir c with
    | none => none
    | some none => some none
    | some (some fa) => lookupComponents l fa.id cs

/-- Apply `lookup` to an entire path. -/
def lookupPath (l : List Meta) (rootdir : ℤ) (path : Str) : Option (Option MetaFattr) :=
  let isabs := decide (path.head? = some '/')
  let dir := if rootdir = 0 ∨ isabs then ROOTFID else rootdir
  let rest := if isabs then path.tail else path
  if rest = [] then lookup l dir ['/'] else lookupComponents l dir (rest.splitOn '/')

/-- A directory is empty when it has only two entries. -/
def emptydir (l : List Meta) (dir : ℤ) : Option Bool :=
  (readdir l dir).map fun v => decide ((v.getD []).length = 2)

/-- The chunks of `file`, by offset. -/
def getalloc (l : List Meta) (file : ℤ) : List MetaChunkInfo :=
  (Leaves.find l ⟨.chunkinfo, file, Key.matchAny⟩).filterMap Meta.chunkinfo?

/-- The chunk of `file` at the chunk boundary `boundary`. -/
def getChunk (l : List Meta) (file boundary : ℤ) : Option MetaChunkInfo :=
  (Leaves.find l ⟨.chunkinfo, file, boundary⟩).head?.bind Meta.chunkinfo?

/-- The loop of `is_descendant`; the fuel bounds the number of ancestors. -/
def isDescendantLoop (l : List Meta) (src : ℤ) : ℕ → ℤ → Option Bool
  | 0, _ => none
  | fuel + 1, dst =>
    if src ≠ dst ∧ dst ≠ ROOTFID then
      match lookup l dst ['.', '.'] with
      | some (some dotdot) => isDescendantLoop l src fuel dotdot.id
      | _ => none
    else some (decide (src = dst))

/-- Whether `src` is `dst` or one of its ancestors. -/
def is_descendant (l : List Meta) (src dst : ℤ) : Option Bool :=
  isDescendantLoop l src (l.length + 1) dst

/-! ## The name space -/

/-- Common code for `create` and `mkdir`. -/
def link (env : Env) (l : List Meta) (dir : ℤ) (fname : Str) (type : FileType) (myID n : ℤ) :
    Option (List Meta) :=
  if legalname fname then
    let l := Leaves.insert l (.dentry ⟨dir, fname, myID⟩)
    if fname ≠ ['.'] ∧ fname ≠ ['.', '.'] then
      some (Leaves.insert l (.fattr (MetaFattr.new env type myID n)))
    else some l
  else none

/-- Common code for `remove` and `rmdir`. -/
def unlink (l : List Meta) (dir : ℤ) (fname : Str) (fa : MetaFattr) (save_fa : Bool) :
    Option (List Meta) := do
  let l ← Leaves.delOk l (.dentry ⟨dir, fname, fa.id⟩)
  if save_fa then return l else Leaves.delOk l (.fattr fa)

/-- Create a directory; `newFid` is 0 except during replay. The result has the new id. -/
def mkdir (env : Env) (fs : Fs) (dir : ℤ) (dname : Str) (newFid : ℤ) : Option (ℤ × ℤ × Fs) :=
  if ¬ legalname dname ∧ dir ≠ ROOTFID ∧ dname ≠ ['/'] then some (-EINVAL, newFid, fs)
  else
    match lookup fs.leaves dir dname with
    | none => none
    | some (some _) => some (-EEXIST, newFid, fs)
    | some none =>
      let gen := decide (newFid = 0 ∧ dname ≠ ['/'])
      let fs := if gen then { fs with fileID := fs.fileID + 1 } else fs
      let myID := if newFid = 0 then (if dname = ['/'] then dir else fs.fileID) else newFid
      let l := Leaves.insert fs.leaves (.dentry ⟨dir, dname, myID⟩)
      let l := Leaves.insert l (.fattr (MetaFattr.new env .dir myID 1))
      match link env l myID ['.'] .dir myID 1 with
      | none => none
      | some l =>
        match link env l myID ['.', '.'] .dir dir 1 with
        | none => none
        | some l => some (0, myID, { fs with leaves := l })

/-- Remove a directory. -/
def rmdir (fs : Fs) (dir : ℤ) (dname : Str) : Option (ℤ × Fs) :=
  match lookup fs.leaves dir dname with
  | none => none
  | some fa =>
    if dir = ROOTFID ∧ dname = DUMPSTERDIR then some (-EPERM, fs)
    else
      match fa with
      | none => some (-ENOENT, fs)
      | some fa =>
        if fa.type ≠ .dir then some (-ENOTDIR, fs)
        else if dname = ['.'] ∨ dname = ['.', '.'] then some (-EPERM, fs)
        else do
          if ← emptydir fs.leaves fa.id then
            let l ← unlink fs.leaves fa.id ['.'] fa true
            let l ← unlink l fa.id ['.', '.'] fa true
            let l ← unlink l dir dname fa false
            return (0, { fs with leaves := l })
          else return (-ENOTEMPTY, fs)

/-- The directory part and the last component of a path that contains a slash. -/
def splitPath (path : Str) : Str × Str :=
  let r := path.reverse
  ((r.dropWhile (· ≠ '/')).tail.reverse, (r.takeWhile (· ≠ '/')).reverse)

/-- The destination directory and name of `rename`, or the error status. -/
def renameTarget (l : List Meta) (parent : ℤ) (newname : Str) : Option (Except ℤ (ℤ × Str)) :=
  if newname.contains '/' then
    match lookupPath l parent (splitPath newname).1 with
    | none => none
    | some none => some (.error (-ENOENT))
    | some (some ddfattr) =>
      if ddfattr.type ≠ .dir then some (.error (-ENOTDIR))
      else some (.ok (ddfattr.id, (splitPath newname).2))
  else some (.ok (parent, newname))

/-- What `rename` has found out before it changes anything: the entry and attributes of the source,
the destination, and whether something is there. -/
structure RenamePlan where
  src : MetaDentry
  sfattr : MetaFattr
  ddir : ℤ
  dname : Str
  dexists : Bool

/-- Whether the target is a directory with entries. -/
def targetFull (l : List Meta) (t : FileType) (dfattr : Option MetaFattr) : Option Bool :=
  match dfattr with
  | some d => if t = .dir then (emptydir l d.id).map (!·) else some false
  | none => some false

/-- Whether a directory would become its own descendant. -/
def renameLoop (l : List Meta) (sfattr : MetaFattr) (ddir : ℤ) : Option Bool :=
  if sfattr.type = .dir then is_descendant l sfattr.id ddir else some false

/-- The checks of `rename` on the attributes of the source and the target. -/
def renameConflict (l : List Meta) (src : MetaDentry) (sfattr : MetaFattr) (ddir : ℤ) (dname : Str)
    (dfattr : Option MetaFattr) (overwrite : Bool) : Option (Except ℤ RenamePlan) :=
  if ¬ overwrite ∧ dfattr.isSome then some (.error (-EEXIST))
  else if dfattr.any fun d => sfattr.type ≠ d.type then
    some (.error (if sfattr.type = .dir then -ENOTDIR else -EISDIR))
  else
    match targetFull l sfattr.type dfattr with
    | none => none
    | some true => some (.error (-ENOTEMPTY))
    | some false =>
      match renameLoop l sfattr ddir with
      | none => none
      | some true => some (.error (-EINVAL))
      | some false => some (.ok ⟨src, sfattr, ddir, dname, dfattr.isSome⟩)

/-- The checks of `rename`; `error status` returns the status with nothing changed. -/
def renameCheck (l : List Meta) (parent : ℤ) (oldname newname : Str) (overwrite : Bool) :
    Option (Except ℤ RenamePlan) :=
  match getDentry l parent oldname with
  | none => none
  | some none => some (.error (-ENOENT))
  | some (some src) =>
    match renameTarget l parent newname with
    | none => none
    | some (.error status) => some (.error status)
    | some (.ok (ddir, dname)) =>
      if ¬ legalname dname then some (.error (-EINVAL))
      else if ddir = parent ∧ dname = oldname then some (.error 0)
      else
        match lookup l parent oldname, lookup l ddir dname with
        | some (some sfattr), some dfattr =>
          renameConflict l src sfattr ddir dname dfattr overwrite
        | _, _ => none

/-- The end of `rename`: link `src` as `dname` in `ddir`. The pointers must still be valid. -/
def relink (env : Env) (l : List Meta) (p : RenamePlan) : Option (List Meta) :=
  if .dentry p.src ∈ l ∧ (p.sfattr.type = .dir → .fattr p.sfattr ∈ l) then do
    let l ← if p.sfattr.type = .dir then unlink l p.src.id ['.', '.'] p.sfattr true else some l
    let l ← Leaves.delOk l (.dentry p.src)
    let l := Leaves.insert l (.dentry ⟨p.ddir, p.dname, p.src.id⟩)
    if p.sfattr.type = .dir then link env l p.src.id ['.', '.'] .dir p.ddir 1 else some l
  else none

/-- The removal of the target of a `rename`, when there is one; `rm` is `Tree::remove`. -/
def clearTarget (rm : Fs → ℤ → Str → Option (ℤ × Fs)) (fs : Fs) (p : RenamePlan) :
    Option (ℤ × Fs) :=
  if p.dexists then
    (if p.sfattr.type = .dir then rmdir fs p.ddir p.dname else rm fs p.ddir p.dname)
  else some (0, fs)

/-- Rename a file or directory; `rm` is `Tree::remove`. -/
def renameWith (rm : Fs → ℤ → Str → Option (ℤ × Fs)) (env : Env) (fs : Fs) (parent : ℤ)
    (oldname newname : Str) (overwrite : Bool) : Option (ℤ × Fs) :=
  match renameCheck fs.leaves parent oldname newname overwrite with
  | none => none
  | some (.error status) => some (status, fs)
  | some (.ok p) =>
    match clearTarget rm fs p with
    | none => none
    | some (status, fs) =>
      if status ≠ 0 then some (status, fs)
      else (relink env fs.leaves p).map fun l => (0, { fs with leaves := l })

/-- `makeDumpsterDir`; the status of `mkdir` is not looked at. -/
def makeDumpsterDir (env : Env) (fs : Fs) : Option Fs :=
  (mkdir env fs ROOTFID DUMPSTERDIR 0).map fun r => r.2.2

/-- The attributes of the dumpster, which is made if it is missing. -/
def getDumpster (env : Env) (fs : Fs) : Option (MetaFattr × Fs) := do
  match ← lookup fs.leaves ROOTFID DUMPSTERDIR with
  | some fa => return (fa, fs)
  | none =>
    let fs ← makeDumpsterDir env fs
    let fa ← ← lookup fs.leaves ROOTFID DUMPSTERDIR
    return (fa, fs)

/-- The name of a busy file in the dumpster. -/
def tempname (fname : Str) (counter : ℕ) : Str :=
  '/' :: DUMPSTERDIR ++ '/' :: fname ++ (toString counter).toList

/-- Rename a busy file into the dumpster; `rm` is `Tree::remove`. -/
def moveToDumpsterWith (rm : Fs → ℤ → Str → Option (ℤ × Fs)) (env : Env) (fs : Fs) (dir : ℤ)
    (fname : Str) : Option (ℤ × Fs) := do
  let (fa, fs) ← getDumpster env fs
  if fa.id = dir then return (-EEXIST, fs)
  else
    renameWith rm env { fs with counter := fs.counter + 1 } dir fname (tempname fname fs.counter) true

/-- `DeleteChunk` of each of the chunks. -/
def deleteChunks (l : List Meta) (chunks : List MetaChunkInfo) : Option (List Meta) :=
  chunks.foldlM (fun l c => Leaves.delOk l (.chunkinfo c)) l

/-- Fire away the chunks of a file. -/
def dropChunks (l : List Meta) (fa : MetaFattr) (chunks : List MetaChunkInfo) : Option (List Meta) :=
  if fa.chunkcount > 0 then deleteChunks l chunks else some l

/-- `Tree::remove`. It calls itself through `moveToDumpster` and `rename`; the fuel bounds the
depth. -/
def removeF : ℕ → Env → Fs → ℤ → Str → Option (ℤ × Fs)
  | 0, _, _, _, _ => none
  | fuel + 1, env, fs, dir, fname => do
    match ← lookup fs.leaves dir fname with
    | none => return (-ENOENT, fs)
    | some fa =>
      if fa.type ≠ .file then return (-EISDIR, fs)
      else
        let chunks := getalloc fs.leaves fa.id
        if fa.chunkcount > 0 ∧ fa.chunkcount ≠ chunks.length then none
        else if fa.chunkcount > 0 ∧ chunks.any fun c => env.leased c.chunkId then
          moveToDumpsterWith (removeF fuel env) env fs dir fname
        else
          let l ← dropChunks fs.leaves fa chunks
          let l ← unlink l dir fname fa false
          return (0, { fs with leaves := l })

/-- Remove a file. A removal from the dumpster is never diverted to the dumpster again. -/
def remove (env : Env) (fs : Fs) (dir : ℤ) (fname : Str) : Option (ℤ × Fs) :=
  removeF 2 env fs dir fname

def rename (env : Env) (fs : Fs) (parent : ℤ) (oldname newname : Str) (overwrite : Bool) :
    Option (ℤ × Fs) :=
  renameWith (removeF 2 env) env fs parent oldname newname overwrite

/-- Blow away the file of that name, if there is one. -/
def removeOld (env : Env) (fs : Fs) (dir : ℤ) (fname : Str) (fa : Option MetaFattr) :
    Option (ℤ × Fs) :=
  if fa.isSome then remove env fs dir fname else some (0, fs)

/-- Create a file; `newFid` is 0 except during replay. The result has the new id. -/
def create (env : Env) (fs : Fs) (dir : ℤ) (fname : Str) (newFid numReplicas : ℤ)
    (exclusive : Bool) : Option (ℤ × ℤ × Fs) :=
  if ¬ legalname fname then some (-EINVAL, newFid, fs)
  else if numReplicas ≤ 0 then some (-EINVAL, newFid, fs)
  else do
    let fa ← lookup fs.leaves dir fname
    if fa.any fun fa => fa.type ≠ .file then return (-EISDIR, newFid, fs)
    else if fa.isSome ∧ exclusive then return (-EEXIST, newFid, fs)
    else
      let (status, fs) ← removeOld env fs dir fname fa
      if status = -EBUSY then return (status, newFid, fs)
      else if status ≠ 0 then none
      else
        let fs := if newFid = 0 then { fs with fileID := fs.fileID + 1 } else fs
        let newFid := if newFid = 0 then fs.fileID else newFid
        let l ← link env fs.leaves dir fname .file newFid numReplicas
        return (0, newFid, { fs with leaves := l })

/-- Remove the entries of the dumpster whose files are no longer busy. -/
def cleanupDumpster (env : Env) (fs : Fs) : Option Fs := do
  match ← lookup fs.leaves ROOTFID DUMPSTERDIR with
  | none => none
  | some fa =>
    let v ← readdir fs.leaves fa.id
    (v.getD []).foldlM (fun fs e => (remove env fs fa.id e.name).map Prod.snd) fs

/-! ## Chunks -/

/-- Grab a chunk id for `offset`; `chunkId` is 0 except during replay, and `live` says that the
caller asks for the number of replicas too. The result has the status, the chunk id and its
version. -/
def allocateChunkId (fs : Fs) (file offset chunkId : ℤ) (live : Bool) : Option (ℤ × ℤ × ℤ × Fs) :=
  match getFattr fs.leaves file with
  | none => some (-ENOENT, chunkId, 0, fs)
  | some fa =>
    if live ∧ fa.numReplicas = 0 then none
    else if offset.tmod CHUNKSIZE ≠ 0 then none
    else
      match getChunk fs.leaves file (chunkStartOffset offset) with
      | some c => some (-EEXIST, c.chunkId, c.chunkVersion, fs)
      | none =>
        if chunkId = 0 then
          some (0, fs.chunkID + 1, fs.chunkVersionInc, { fs with chunkID := fs.chunkID + 1 })
        else some (0, chunkId, 0, fs)

/-- Link a chunk id with its file. -/
def assignChunkId (env : Env) (fs : Fs) (file offset chunkId chunkVersion : ℤ) : ℤ × Fs :=
  match getFattr fs.leaves file with
  | none => (-ENOENT, fs)
  | some _ =>
    let ckey : Key := ⟨.chunkinfo, file, chunkStartOffset offset⟩
    match getChunk fs.leaves file (chunkStartOffset offset) with
    | some c =>
      if c.chunkVersion = chunkVersion then (-EEXIST, fs)
      else
        (0, { fs with leaves := Leaves.update fs.leaves ckey fun _ =>
                        .chunkinfo { c with chunkVersion := chunkVersion } })
    | none =>
      let l := Leaves.insert fs.leaves (.chunkinfo ⟨file, offset, chunkId, chunkVersion⟩)
      let l := Leaves.update l ⟨.fattr, file, 0⟩ fun x =>
        match x with
        | .fattr fa =>
          .fattr { fa with chunkcount := fa.chunkcount + 1, filesize := -1, mtime := env.now }
        | x => x
      (0, { fs with leaves := l })

/-- Change the size of a file: 0, an error, or 1 and the offset at which a chunk must be allocated
first. -/
def truncate (env : Env) (fs : Fs) (file offset : ℤ) : Option (ℤ × ℤ × Fs) :=
  match getFattr fs.leaves file with
  | none => some (-ENOENT, 0, fs)
  | some fa =>
    if fa.type ≠ .file then some (-EISDIR, 0, fs)
    else
      let chunks := getalloc fs.leaves fa.id
      if fa.chunkcount ≠ chunks.length then none
      else
        let setFattr := fun (l : List Meta) (fa : MetaFattr) =>
          Leaves.update l ⟨.fattr, file, 0⟩ fun _ => .fattr fa
        let fa := { fa with filesize := -1 }
        let last := chunkStartOffset offset
        match chunks.drop (Lib.lowerBound (fun c => decide (c.offset < last)) chunks) with
        | [] => some (1, last, { fs with leaves := setFattr fs.leaves fa })
        | m :: ms =>
          if m.offset ≠ last then some (1, last, { fs with leaves := setFattr fs.leaves fa })
          else do
            let dead := if m.offset ≤ offset then ms else m :: ms
            let l ← deleteChunks fs.leaves dead
            let fa := { fa with chunkcount := fa.chunkcount - dead.length, mtime := env.now }
            return (0, 0, { fs with leaves := setFattr l fa })

/-- Change the degree of replication of a file. -/
def changeFileReplication (fs : Fs) (fid numReplicas : ℤ) : ℤ × Fs :=
  match getFattr fs.leaves fid with
  | none => (-ENOENT, fs)
  | some fa =>
    (0, { fs with leaves := Leaves.update fs.leaves ⟨.fattr, fid, 0⟩ fun _ =>
                    .fattr { fa with numReplicas := numReplicas } })

/-- Make the dumpster if it is missing, and clean it up; done on startup. -/
def emptyDumpsterDir (env : Env) (fs : Fs) : Option Fs :=
  (makeDumpsterDir env fs).bind (cleanupDumpster env)

/-- `new_tree`: the root directory in an empty tree. -/
def newTree (env : Env) : Option Fs :=
  (mkdir env ⟨[], ROOTFID, ROOTFID, 0, 1⟩ ROOTFID ['/'] 0).map fun r => r.2.2

end Kfs
