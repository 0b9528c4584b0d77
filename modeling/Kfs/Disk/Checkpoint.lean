import Kfs.Disk.Codec
import Kfs.Fs.ChunkTable
import Kfs.Server.Namespace

/-!
# Checkpoints

`checkpoint.cc` writes the seeds and then a line for each leaf item; `restore.cc` reads the lines and inserts the
items into an empty tree. The count of the chunks of a file is not read: it goes up with each chunk.

* `Meta.show`, `checkpointText`: the text of a checkpoint; `rebuild`: reading it;
* `WellFormed`: attributes for each id once, an owner for each chunk, legal names and fields in range;
* `restoreLine_show`: the line of an item is read as the item;
* **`rebuild_checkpoint`**: the tree comes back, with the number of replicas raised to the minimum.
-/

namespace Kfs

open Lib

/-! ## Writing -/

/-- The name that a type is written with. -/
def FileType.name : FileType → Str
  | .none => "empty".toList
  | .file => "file".toList
  | .dir => "dir".toList

/-- The fields of the line of an item. -/
def Meta.fields : Meta → List Str
  | .dentry d => ["dentry".toList, "name".toList, d.name, "id".toList, num d.id, "parent".toList, num d.dir]
  | .fattr f =>
    ["fattr".toList, f.type.name, "id".toList, num f.id, "chunkcount".toList, num f.chunkcount,
      "numReplicas".toList, num f.numReplicas, "mtime".toList, num f.mtime.tv_sec, num f.mtime.tv_usec,
      "ctime".toList, num f.ctime.tv_sec, num f.ctime.tv_usec,
      "crtime".toList, num f.crtime.tv_sec, num f.crtime.tv_usec]
  | .chunkinfo c =>
    ["chunkinfo".toList, "fid".toList, num c.id, "chunkid".toList, num c.chunkId, "offset".toList, num c.offset,
      "chunkVersion".toList, num c.chunkVersion]

/-- `show`, for each kind of item. -/
def Meta.show (m : Meta) : Str := joinSep '/' m.fields

/-- The lines before the items; `stamp` is what `ctime` prints, without its newline. -/
def headerLines (highest : ℤ) (fs : Fs) (stamp logname : Str) : List Str :=
  ["checkpoint".toList ++ '/' :: num highest, "version".toList ++ '/' :: num 1,
    "fid".toList ++ '/' :: num fs.fileID, "chunkId".toList ++ '/' :: num fs.chunkID,
    "chunkVersionInc".toList ++ '/' :: num fs.chunkVersionInc, "time".toList ++ '/' :: stamp,
    "log".toList ++ '/' :: logname, []]

/-- The text that `do_CP` writes. -/
def checkpointText (highest : ℤ) (fs : Fs) (stamp logname : Str) : Str :=
  (headerLines highest fs stamp logname ++ fs.leaves.map Meta.show).flatMap fun line => line ++ ['\n']

/-! ## Reading -/

/-- What a checkpoint restores: the metadata, the sequence number and the log to replay from. -/
structure Restored where
  fs : Fs
  seqno : ℤ
  log : Str
  deriving DecidableEq

section

variable [Integers]

/-- A number after the record type. -/
def popNumber (c : List Str) : Option ℤ := c.tail.head?.map toNumber

def checkpoint_seq (s : Restored) (c : List Str) : Option (Bool × Restored) :=
  match popNumber c with
  | none => some (false, s)
  | some n => some (decide (0 ≤ n), { s with seqno := n })

def checkpoint_version (s : Restored) (c : List Str) : Option (Bool × Restored) :=
  some (decide ((popNumber c).map Integers.int = some 1), s)

def checkpoint_fid (s : Restored) (c : List Str) : Option (Bool × Restored) :=
  match popNumber c with
  | none => some (false, s)
  | some n => some (decide (0 < n), { s with fs := { s.fs with fileID := n } })

def checkpoint_chunkId (s : Restored) (c : List Str) : Option (Bool × Restored) :=
  match popNumber c with
  | none => some (false, s)
  | some n => some (decide (0 < n), { s with fs := { s.fs with chunkID := n } })

/-- `checkpoint_time` prints the component after the record type, which must be there. -/
def checkpoint_time (s : Restored) (c : List Str) : Option (Bool × Restored) :=
  if c.tail = [] then none else some (true, s)

def checkpoint_log (s : Restored) (c : List Str) : Option (Bool × Restored) :=
  some (true, { s with log := joinSep '/' c.tail })

def restoreVersionInc (s : Restored) (c : List Str) : Option (Bool × Restored) :=
  (restore_chunkVersionInc s.fs c).map fun (ok, fs) => (ok, { s with fs := fs })

/-- Insert a leaf item. -/
def Restored.insert (s : Restored) (m : Meta) : Restored :=
  { s with fs := { s.fs with leaves := Leaves.insert s.fs.leaves m } }

def popDentry (c : List Str) : Option MetaDentry := do
  let (name, c) ← pop_name "name".toList c.tail
  let (id, c) ← pop_fid "id".toList c
  let (parent, _) ← pop_fid "parent".toList c
  return ⟨parent, name, id⟩

def restore_dentry (s : Restored) (c : List Str) : Option (Bool × Restored) :=
  match popDentry c with
  | none => some (false, s)
  | some d => some (true, s.insert (.dentry d))

/-- The attributes of a line; the number of replicas is not below the minimum, and no chunk is counted yet. -/
def popFattr (minReplicas : ℤ) (c : List Str) : Option MetaFattr := do
  let (type, c) ← pop_type "fattr".toList c
  let (fid, c) ← pop_fid "id".toList c
  let (_, c) ← pop_fid "chunkcount".toList c
  let (n, c) ← pop_short "numReplicas".toList c
  let (mtime, c) ← pop_time "mtime".toList c
  let (ctime, c) ← pop_time "ctime".toList c
  let (crtime, _) ← pop_time "crtime".toList c
  return ⟨fid, type, if n < minReplicas then minReplicas else n, mtime, ctime, crtime, 0,
    if type = .dir then 0 else -1⟩

def restore_fattr (minReplicas : ℤ) (s : Restored) (c : List Str) : Option (Bool × Restored) :=
  match popFattr minReplicas c with
  | none => some (false, s)
  | some f => some (true, s.insert (.fattr f))

def popChunkinfo (c : List Str) : Option MetaChunkInfo := do
  let (fid, c) ← pop_fid "fid".toList c.tail
  let (cid, c) ← pop_fid "chunkid".toList c
  let (offset, c) ← pop_fid "offset".toList c
  let (chunkVersion, _) ← pop_fid "chunkVersion".toList c
  return ⟨fid, offset, cid, chunkVersion⟩

/-- One more chunk in the item, when it is an item of attributes. -/
def Meta.countChunk : Meta → Meta
  | .fattr f => .fattr { f with chunkcount := f.chunkcount + 1 }
  | x => x

/-- The attributes of the file must be there. -/
def restore_chunkinfo (s : Restored) (c : List Str) : Option (Bool × Restored) :=
  match popChunkinfo c with
  | none => some (false, s)
  | some ch =>
    let l := Leaves.insert s.fs.leaves (.chunkinfo ch)
    match getFattr l ch.id with
    | none => none
    | some _ => some (true, { s with fs := { s.fs with
        leaves := Leaves.update l ⟨.fattr, ch.id, 0⟩ Meta.countChunk } })

/-- The handler of a record type. -/
def restoreTable (minReplicas : ℤ) (type : Str) : Option (Restored → List Str → Option (Bool × Restored)) :=
  if type = "checkpoint".toList then some checkpoint_seq
  else if type = "version".toList then some checkpoint_version
  else if type = "fid".toList then some checkpoint_fid
  else if type = "chunkId".toList then some checkpoint_chunkId
  else if type = "time".toList then some checkpoint_time
  else if type = "log".toList then some checkpoint_log
  else if type = "chunkVersionInc".toList then some restoreVersionInc
  else if type = "dentry".toList then some restore_dentry
  else if type = "fattr".toList then some (restore_fattr minReplicas)
  else if type = "chunkinfo".toList then some restore_chunkinfo
  else none

def restoreLine (minReplicas : ℤ) : LineParser Restored := parseEntry (restoreTable minReplicas)

/-- Rebuild the metadata from the text of a checkpoint. -/
def rebuild (minReplicas : ℤ) (s : Restored) (file : Str) : Option (Bool × Restored) :=
  feed (restoreLine minReplicas) s (file.splitOn '\n')

end

/-! ## One item -/

variable {minReplicas : ℤ} {s : Restored} {fs : Fs} {l pre : List Meta}

/-- The attributes that are restored when `cs` are the chunks. -/
def MetaFattr.restored (minReplicas : ℤ) (cs : List MetaChunkInfo) (f : MetaFattr) : MetaFattr :=
  { f with
    numReplicas := max f.numReplicas minReplicas
    chunkcount := (cs.filter fun c => decide (c.id = f.id)).length
    filesize := if f.type = .dir then 0 else -1 }

/-- What the line of an item does to the items. -/
def restoreItem (minReplicas : ℤ) (l : List Meta) : Meta → List Meta
  | .dentry d => Leaves.insert l (.dentry d)
  | .fattr f => Leaves.insert l (.fattr (f.restored minReplicas []))
  | .chunkinfo c => Leaves.update (Leaves.insert l (.chunkinfo c)) ⟨.fattr, c.id, 0⟩ Meta.countChunk

/-- A name that can be written: a legal one, or that of the root. -/
def MetaDentry.Named (d : MetaDentry) : Prop := legalname d.name = true ∨ d.name = ['/']

/-- Fields that are in range. -/
def Meta.InRange : Meta → Prop
  | .dentry d => d.Named ∧ 0 ≤ d.dir ∧ 0 ≤ d.id
  | .fattr f => f.type ≠ .none ∧ 0 ≤ f.id ∧ 0 ≤ f.chunkcount ∧ 0 ≤ f.numReplicas ∧ f.numReplicas < 32768 ∧
      (0 ≤ f.mtime.tv_sec ∧ 0 ≤ f.mtime.tv_usec) ∧ (0 ≤ f.ctime.tv_sec ∧ 0 ≤ f.ctime.tv_usec) ∧
      (0 ≤ f.crtime.tv_sec ∧ 0 ≤ f.crtime.tv_usec)
  | .chunkinfo c => 0 ≤ c.id ∧ 0 ≤ c.offset ∧ 0 ≤ c.chunkId ∧ 0 ≤ c.chunkVersion

instance (d : MetaDentry) : Decidable d.Named := by unfold MetaDentry.Named; infer_instance

instance (m : Meta) : Decidable m.InRange := by cases m <;> unfold Meta.InRange <;> infer_instance

theorem splitOn_show (m : Meta) : m.show.splitOn '/' = m.fields.flatMap fun f => f.splitOn '/' :=
  splitOn_joinSep (by cases m <;> simp [Meta.fields])

theorem show_ne_nil (m : Meta) : m.show ≠ [] := by
  cases m <;> simp [Meta.show, Meta.fields, joinSep]

theorem popDentry_fields {d : MetaDentry} (h : (Meta.dentry d).InRange) :
    popDentry ((Meta.dentry d).fields.flatMap fun f => f.splitOn '/') = some d := by
  obtain ⟨hn, hdir, hid⟩ := h
  have h₁ : ∀ c, pop_fid "id".toList ("id".toList :: num d.id :: c) = some (d.id, c) := fun c =>
    pop_fid_num (by omega)
  have h₂ : ∀ c, pop_fid "parent".toList ("parent".toList :: num d.dir :: c) = some (d.dir, c) := fun c =>
    pop_fid_num (by omega)
  have hc : (Meta.dentry d).fields.flatMap (fun f => f.splitOn '/') =
      "dentry".toList :: "name".toList ::
        (d.name.splitOn '/' ++ ["id".toList, num d.id, "parent".toList, num d.dir]) := by
    simp only [Meta.fields, List.flatMap_cons, splitOn_num, List.flatMap_nil, List.append_nil]
    rfl
  have hp : pop_name "name".toList ("name".toList ::
      (d.name.splitOn '/' ++ ["id".toList, num d.id, "parent".toList, num d.dir])) =
      some (d.name, ["id".toList, num d.id, "parent".toList, num d.dir]) := by
    rcases hn with hn | hn
    · rw [splitOn_name hn]
      exact pop_name_cons (legalname_iff.mp hn).1
    · rw [hn]
      rfl
  rw [hc]
  unfold popDentry
  rw [List.tail_cons, hp]
  simp only [Option.bind_eq_bind, Option.bind_some, h₁, h₂]
  rfl

theorem popFattr_fields {f : MetaFattr} (h : (Meta.fattr f).InRange) :
    popFattr minReplicas ((Meta.fattr f).fields.flatMap fun f => f.splitOn '/') =
      some (f.restored minReplicas []) := by
  obtain ⟨ht, hid, hcc, hn, hn', hm, hct, hcr⟩ := h
  have hc : (Meta.fattr f).fields.flatMap (fun f => f.splitOn '/') = (Meta.fattr f).fields := by
    refine components_eq fun g hg => ?_
    have hs : ∀ n, '/' ∉ num n := slash_not_mem_num
    have hty : '/' ∉ f.type.name := by cases f.type <;> decide
    simp only [Meta.fields, List.mem_cons, List.not_mem_nil, or_false] at hg
    rcases hg with rfl | rfl | rfl | rfl | rfl | rfl | rfl | rfl | rfl | rfl | rfl | rfl | rfl | rfl | rfl | rfl | rfl
    all_goals first | exact hs _ | exact hty | decide
  have htype : ∀ c, pop_type "fattr".toList ("fattr".toList :: f.type.name :: c) = some (f.type, c) := by
    intro c
    cases hf : f.type with
    | none => exact absurd hf ht
    | file => rfl
    | dir => rfl
  have hmax : (if f.numReplicas < minReplicas then minReplicas else f.numReplicas) =
      max f.numReplicas minReplicas := by
    split_ifs <;> omega
  rw [hc]
  unfold popFattr
  simp only [Meta.fields, Option.bind_eq_bind, htype, Option.bind_some, pop_fid_num (show f.id ≠ -1 by omega),
    pop_fid_num (show f.chunkcount ≠ -1 by omega), pop_short_num hn hn',
    pop_time_num (show f.mtime.tv_sec ≠ -1 by omega) (show f.mtime.tv_usec ≠ -1 by omega),
    pop_time_num (show f.ctime.tv_sec ≠ -1 by omega) (show f.ctime.tv_usec ≠ -1 by omega),
    pop_time_num (show f.crtime.tv_sec ≠ -1 by omega) (show f.crtime.tv_usec ≠ -1 by omega), hmax]
  rfl

theorem popChunkinfo_fields {c : MetaChunkInfo} (h : (Meta.chunkinfo c).InRange) :
    popChunkinfo ((Meta.chunkinfo c).fields.flatMap fun f => f.splitOn '/') = some c := by
  obtain ⟨h₁, h₂, h₃, h₄⟩ := h
  have hc : (Meta.chunkinfo c).fields.flatMap (fun f => f.splitOn '/') = (Meta.chunkinfo c).fields := by
    refine components_eq fun g hg => ?_
    have hs : ∀ n, '/' ∉ num n := slash_not_mem_num
    simp only [Meta.fields, List.mem_cons, List.not_mem_nil, or_false] at hg
    rcases hg with rfl | rfl | rfl | rfl | rfl | rfl | rfl | rfl | rfl
    all_goals first | exact hs _ | decide
  rw [hc]
  unfold popChunkinfo
  simp only [Meta.fields, List.tail_cons, Option.bind_eq_bind, Option.bind_some,
    pop_fid_num (show c.id ≠ -1 by omega), pop_fid_num (show c.chunkId ≠ -1 by omega),
    pop_fid_num (show c.offset ≠ -1 by omega), pop_fid_num (show c.chunkVersion ≠ -1 by omega)]
  rfl

/-- **The line of an item is read as the item.** -/
theorem restoreLine_show {m : Meta} (h : m.InRange)
    (hown : ∀ c, m = .chunkinfo c → ∃ f, getFattr s.fs.leaves c.id = some f) :
    restoreLine minReplicas s m.show =
      some (true, { s with fs := { s.fs with leaves := restoreItem minReplicas s.fs.leaves m } }) := by
  unfold restoreLine parseEntry
  rw [if_neg (show_ne_nil m), splitOn_show]
  cases m with
  | dentry d =>
    change restore_dentry s _ = _
    rw [restore_dentry, popDentry_fields h]
    rfl
  | fattr f =>
    have hhead : ((Meta.fattr f).fields.flatMap fun f => f.splitOn '/').headD [] = "fattr".toList := rfl
    rw [hhead]
    change restore_fattr minReplicas s _ = _
    rw [restore_fattr, popFattr_fields h]
    rfl
  | chunkinfo c =>
    obtain ⟨f, hf⟩ := hown c rfl
    change restore_chunkinfo s _ = _
    rw [restore_chunkinfo, popChunkinfo_fields h]
    have hf' : getFattr (Leaves.insert s.fs.leaves (.chunkinfo c)) c.id = some f := by
      rw [getFattr_eq, fattrs, filterMap_insert Meta.fattr? rfl, ← fattrs, ← getFattr_eq]
      exact hf
    simp only [hf']
    rfl

/-! ## The items -/

/-- The items that have been restored when those of `pre` have been read. -/
structure Restoring (minReplicas : ℤ) (pre l : List Meta) : Prop where
  dentries : List.Perm (dentries l) (dentries pre)
  chunks : List.Perm (chunks l) (chunks pre)
  fattrs : List.Perm (fattrs l) ((fattrs pre).map (MetaFattr.restored minReplicas (Kfs.chunks pre)))

/-- Items with a smaller kind come first. -/
theorem Ordered.kind_le {rest : List Meta} {x y : Meta} (ho : Ordered ((pre ++ rest).map Meta.key)) (hx : x ∈ pre)
    (hy : y ∈ rest) : x.key.kind.val ≤ y.key.kind.val := by
  rw [List.map_append] at ho
  have hlt := (List.pairwise_append.mp ho.1).2.2 x.key (List.mem_map_of_mem hx) y.key (List.mem_map_of_mem hy)
  rw [Key.lt_false_iff] at hlt
  omega

namespace Restoring

theorem dentry (h : Restoring minReplicas pre l) (d : MetaDentry) :
    Restoring minReplicas (pre ++ [.dentry d]) (restoreItem minReplicas l (.dentry d)) where
  dentries := by
    have hi := (Leaves.insert_perm l (.dentry d)).filterMap Meta.dentry?
    have hp : List.Perm (Kfs.dentries (pre ++ [.dentry d])) (d :: Kfs.dentries pre) := by
      simp [Kfs.dentries, Meta.dentry?]
    exact hi.trans ((h.dentries.cons d).trans hp.symm)
  chunks := by
    have hp : Kfs.chunks (pre ++ [.dentry d]) = Kfs.chunks pre := by simp [Kfs.chunks, Meta.chunkinfo?]
    rw [restoreItem, chunks_insert_dentry, hp]
    exact h.chunks
  fattrs := by
    have hc : Kfs.chunks (pre ++ [.dentry d]) = Kfs.chunks pre := by simp [Kfs.chunks, Meta.chunkinfo?]
    have hf : Kfs.fattrs (pre ++ [.dentry d]) = Kfs.fattrs pre := by simp [Kfs.fattrs, Meta.fattr?]
    rw [restoreItem, fattrs_insert_dentry, hc, hf]
    exact h.fattrs

theorem fattr (h : Restoring minReplicas pre l) (hno : Kfs.chunks pre = []) (f : MetaFattr) :
    Restoring minReplicas (pre ++ [.fattr f]) (restoreItem minReplicas l (.fattr f)) where
  dentries := by
    have hp : Kfs.dentries (pre ++ [.fattr f]) = Kfs.dentries pre := by simp [Kfs.dentries, Meta.dentry?]
    rw [restoreItem, Kfs.dentries, filterMap_insert Meta.dentry? rfl, hp]
    exact h.dentries
  chunks := by
    have hp : Kfs.chunks (pre ++ [.fattr f]) = Kfs.chunks pre := by simp [Kfs.chunks, Meta.chunkinfo?]
    rw [restoreItem, chunks_insert_fattr, hp]
    exact h.chunks
  fattrs := by
    have hc : Kfs.chunks (pre ++ [.fattr f]) = Kfs.chunks pre := by simp [Kfs.chunks, Meta.chunkinfo?]
    have hf : Kfs.fattrs (pre ++ [.fattr f]) = Kfs.fattrs pre ++ [f] := by simp [Kfs.fattrs, Meta.fattr?]
    have hi := fattrs_insert_fattr l (f.restored minReplicas [])
    have hr := h.fattrs
    rw [hno] at hr
    rw [hc, hf, hno, List.map_append, List.map_singleton]
    exact hi.trans ((hr.cons _).trans (List.perm_append_singleton _ _).symm)

/-- A chunk more is counted in the attributes of its file, and nowhere else. -/
theorem restored_snoc (cs : List MetaChunkInfo) (c : MetaChunkInfo) (f : MetaFattr) :
    f.restored minReplicas (cs ++ [c]) = if c.id = f.id then
      { f.restored minReplicas cs with chunkcount := (f.restored minReplicas cs).chunkcount + 1 }
    else f.restored minReplicas cs := by
  by_cases hc : c.id = f.id
  · simp [MetaFattr.restored, hc]
  · simp [MetaFattr.restored, hc]

/-- Counting a chunk changes no entry. -/
theorem dentries_countChunk {l : List Meta} {fid : ℤ} (h : ∃ f ∈ Kfs.fattrs l, f.id = fid) :
    List.Perm (Kfs.dentries (Leaves.update l ⟨.fattr, fid, 0⟩ Meta.countChunk)) (Kfs.dentries l) := by
  obtain ⟨f, hf, hid⟩ := h
  obtain ⟨z, r, hz, hp, hp'⟩ := update_perm (k := ⟨.fattr, fid, 0⟩) (g := Meta.countChunk)
    ⟨.fattr f, mem_fattrs.mp hf, (eqv_fattr _ fid).mpr ⟨f, rfl, hid⟩⟩
  obtain ⟨g, rfl, -⟩ := (eqv_fattr z fid).mp hz
  exact (hp'.filterMap Meta.dentry?).trans (hp.filterMap Meta.dentry?).symm

theorem chunk (h : Restoring minReplicas pre l) (huniq : ((Kfs.fattrs pre).map MetaFattr.id).Nodup)
    (c : MetaChunkInfo) (hown : ∃ f ∈ Kfs.fattrs pre, f.id = c.id) :
    Restoring minReplicas (pre ++ [.chunkinfo c]) (restoreItem minReplicas l (.chunkinfo c)) := by
  have hd : Kfs.dentries (pre ++ [.chunkinfo c]) = Kfs.dentries pre := by simp [Kfs.dentries, Meta.dentry?]
  have hf : Kfs.fattrs (pre ++ [.chunkinfo c]) = Kfs.fattrs pre := by simp [Kfs.fattrs, Meta.fattr?]
  have hc : Kfs.chunks (pre ++ [.chunkinfo c]) = Kfs.chunks pre ++ [c] := by simp [Kfs.chunks, Meta.chunkinfo?]
  have hfi : Kfs.fattrs (Leaves.insert l (.chunkinfo c)) = Kfs.fattrs l := filterMap_insert _ rfl l
  have hci : List.Perm (Kfs.chunks (Leaves.insert l (.chunkinfo c))) (c :: Kfs.chunks l) :=
    (Leaves.insert_perm l (.chunkinfo c)).filterMap _
  obtain ⟨g, hg, hgid⟩ := hown
  have hex : ∃ f ∈ Kfs.fattrs (Leaves.insert l (.chunkinfo c)), f.id = c.id := by
    rw [hfi]
    exact ⟨_, h.fattrs.mem_iff.mpr (List.mem_map_of_mem hg), hgid⟩
  obtain ⟨f₁, f₂, R, hid, hf₂, hpl, hpu, hcu⟩ := update_fattr (g := Meta.countChunk) hex fun f => ⟨_, rfl⟩
  obtain rfl := Meta.fattr.inj hf₂
  rw [hfi] at hpl
  refine ⟨?_, ?_, ?_⟩
  · rw [hd]
    refine (dentries_countChunk hex).trans ?_
    rw [Kfs.dentries, filterMap_insert Meta.dentry? rfl]
    exact h.dentries
  · rw [hc]
    exact hcu.symm.trans (hci.trans ((h.chunks.cons c).trans (List.perm_append_singleton _ _).symm))
  · rw [hf, hc]
    have hG := List.perm_cons_erase hg
    have hne : ∀ x ∈ (Kfs.fattrs pre).erase g, x.id ≠ g.id := by
      have hnd := (hG.map MetaFattr.id).nodup_iff.mp huniq
      intro x hx he
      exact (List.nodup_cons.mp hnd).1 (he ▸ List.mem_map_of_mem hx)
    have hold : List.Perm (f₁ :: R) (g.restored minReplicas (Kfs.chunks pre) ::
        ((Kfs.fattrs pre).erase g).map (MetaFattr.restored minReplicas (Kfs.chunks pre))) :=
      hpl.symm.trans (h.fattrs.trans (hG.map _))
    -- the attributes that are counted in are those of the file
    obtain rfl : f₁ = g.restored minReplicas (Kfs.chunks pre) := by
      rcases List.mem_cons.mp (hold.subset List.mem_cons_self) with he | he
      · exact he
      · obtain ⟨x, hx, rfl⟩ := List.mem_map.mp he
        exact absurd (hid.trans hgid.symm) (hne x hx)
    have hrest : ((Kfs.fattrs pre).erase g).map (MetaFattr.restored minReplicas (Kfs.chunks pre ++ [c])) =
        ((Kfs.fattrs pre).erase g).map (MetaFattr.restored minReplicas (Kfs.chunks pre)) := by
      refine List.map_congr_left fun x hx => ?_
      rw [restored_snoc, if_neg]
      exact fun he => hne x hx (he.symm.trans hgid.symm)
    refine hpu.trans (List.Perm.trans ?_ (hG.map _).symm)
    rw [List.map_cons, hrest, restored_snoc, if_pos hgid.symm]
    exact (hold.cons_inv).cons _

end Restoring

/-! ## The whole checkpoint -/

/-- A well-formed tree: items in order and in range, attributes for each id once, an owner for each chunk, and
seeds that have been used. -/
structure WellFormed (fs : Fs) : Prop where
  ordered : Ordered (fs.leaves.map Meta.key)
  inRange : ∀ m ∈ fs.leaves, m.InRange
  uniq : ((fattrs fs.leaves).map MetaFattr.id).Nodup
  owner : ∀ c ∈ chunks fs.leaves, ∃ f ∈ fattrs fs.leaves, f.id = c.id
  fileID : 0 < fs.fileID
  chunkID : 0 < fs.chunkID
  inc : 1 ≤ fs.chunkVersionInc

/-- A line that fits the buffer, without control characters. -/
def FitLine (line : Str) : Prop := line.length < MAXLINE ∧ '\n' ∉ line ∧ '\x00' ∉ line

instance (line : Str) : Decidable (FitLine line) := by unfold FitLine; infer_instance

theorem feed_fit {σ : Type} {parse : LineParser σ} {s s' : σ} {line : Str} {lines : List Str} (hf : FitLine line)
    (hp : parse s line = some (true, s')) : feed parse s (line :: lines) = feed parse s' lines := by
  rw [feed, if_pos hf.1, cstring_of_not_mem hf.2.2, hp]

theorem splitOn_text : ∀ {lines : List Str}, (∀ line ∈ lines, FitLine line) →
    (lines.flatMap fun line => line ++ ['\n']).splitOn '\n' = lines ++ [[]]
  | [], _ => rfl
  | line :: lines, h => by
    have hs : ((line :: lines).flatMap fun line => line ++ ['\n']) =
        line ++ '\n' :: lines.flatMap fun line => line ++ ['\n'] := by simp
    rw [hs, List.splitOn_append_cons_self_of_not_mem (h line List.mem_cons_self).2.1,
      splitOn_text fun l hl => h l (List.mem_cons_of_mem _ hl), List.cons_append]

/-- The lines of the items are read as the items. -/
theorem feed_items (hwf : WellFormed fs) (hfit : ∀ m ∈ fs.leaves, FitLine m.show) :
    ∀ {rest pre : List Meta} {s : Restored},
    fs.leaves = pre ++ rest → Restoring minReplicas pre s.fs.leaves →
    ∃ l', feed (restoreLine minReplicas) s (rest.map Meta.show ++ [[]]) =
        some (true, { s with fs := { s.fs with leaves := l' } }) ∧ Restoring minReplicas fs.leaves l'
  | [], pre, s, he, h => by
    refine ⟨s.fs.leaves, ?_, ?_⟩
    · simp [feed, restoreLine, parseEntry, cstring, MAXLINE]
    · rw [he, List.append_nil]
      exact h
  | m :: rest, pre, s, he, h => by
    have hm : m ∈ fs.leaves := by simp [he]
    have ho := he ▸ hwf.ordered
    have hkind : ∀ x ∈ pre, x.key.kind.val ≤ m.key.kind.val := fun x hx => ho.kind_le hx List.mem_cons_self
    have howner : ∀ c, m = .chunkinfo c → ∃ f ∈ fattrs pre, f.id = c.id := by
      rintro c rfl
      obtain ⟨f, hf, hid⟩ := hwf.owner c (mem_chunks.mpr hm)
      rw [mem_fattrs, he, List.mem_append] at hf
      refine ⟨f, mem_fattrs.mpr (hf.resolve_right fun hr => ?_), hid⟩
      -- attributes do not come after chunks
      have hr : .fattr f ∈ rest := (List.mem_cons.mp hr).resolve_left (by simp)
      have ho' : Ordered (((pre ++ [Meta.chunkinfo c]) ++ rest).map Meta.key) := by
        rw [List.append_assoc]
        exact ho
      have hle := ho'.kind_le (List.mem_append_right _ (List.mem_singleton_self _)) hr
      simp [Meta.key, MetaType.val] at hle
    have hstep : Restoring minReplicas (pre ++ [m]) (restoreItem minReplicas s.fs.leaves m) := by
      cases m with
      | dentry d => exact h.dentry d
      | fattr f =>
        refine h.fattr (List.eq_nil_iff_forall_not_mem.mpr fun c hc => ?_) f
        have hle := hkind _ (mem_chunks.mp hc)
        simp [Meta.key, MetaType.val] at hle
      | chunkinfo c =>
        have hu := hwf.uniq
        rw [he, fattrs, List.filterMap_append, List.map_append] at hu
        exact h.chunk (List.Nodup.of_append_left hu) c (howner c rfl)
    have hown : ∀ c, m = .chunkinfo c → ∃ f, getFattr s.fs.leaves c.id = some f := by
      intro c hc
      obtain ⟨f, hf, hid⟩ := howner c hc
      have hmem := h.fattrs.mem_iff.mpr (List.mem_map_of_mem hf)
      rcases hg : getFattr s.fs.leaves c.id with - | g
      · have hne := getFattr_none hg _ (mem_fattrs.mp hmem)
        exact absurd hid hne
      · exact ⟨g, rfl⟩
    have he' : fs.leaves = (pre ++ [m]) ++ rest := by simp [he]
    rw [List.map_cons, List.cons_append, feed_fit (hfit m hm) (restoreLine_show (hwf.inRange m hm) hown)]
    exact feed_items hwf hfit he' hstep

/-- A line with a record type that has no slash. -/
theorem feed_tag {tag rest : Str} {lines : List Str} {s s' : Restored}
    {handler : Restored → List Str → Option (Bool × Restored)} (hf : FitLine (tag ++ '/' :: rest))
    (hs : '/' ∉ tag) (hh : restoreTable minReplicas tag = some handler)
    (hp : handler s (tag :: rest.splitOn '/') = some (true, s')) :
    feed (restoreLine minReplicas) s ((tag ++ '/' :: rest) :: lines) = feed (restoreLine minReplicas) s' lines := by
  refine feed_fit hf ?_
  unfold restoreLine parseEntry
  rw [if_neg (by simp), List.splitOn_append_cons_self_of_not_mem hs, List.headD_cons, hh]
  exact hp

theorem popNumber_num (tag : Str) (n : ℤ) : popNumber (tag :: (num n).splitOn '/') = some n := by
  simp [popNumber, splitOn_num]

/-- The lines before the items restore the seeds. -/
theorem feed_header {highest : ℤ} {stamp logname : Str} {lines : List Str} (hwf : WellFormed fs) (hn : 0 ≤ highest)
    (hh : ∀ line ∈ headerLines highest fs stamp logname, FitLine line) :
    feed (restoreLine minReplicas) s (headerLines highest fs stamp logname ++ lines) =
      feed (restoreLine minReplicas) ⟨⟨s.fs.leaves, fs.fileID, fs.chunkID, fs.chunkVersionInc, s.fs.counter⟩,
        highest, logname⟩ lines := by
  have e₁ : ∀ (s : Restored) tag, checkpoint_seq s (tag :: (num highest).splitOn '/') =
      some (true, { s with seqno := highest }) := by
    intro s tag
    simp [checkpoint_seq, popNumber_num, hn]
  have e₂ : ∀ (s : Restored) tag, checkpoint_version s (tag :: (num 1).splitOn '/') = some (true, s) := by
    intro s tag
    simp [checkpoint_version, popNumber_num, Integers.int]
  have e₃ : ∀ (s : Restored) tag, checkpoint_fid s (tag :: (num fs.fileID).splitOn '/') =
      some (true, { s with fs := { s.fs with fileID := fs.fileID } }) := by
    intro s tag
    simp [checkpoint_fid, popNumber_num, hwf.fileID]
  have e₄ : ∀ (s : Restored) tag, checkpoint_chunkId s (tag :: (num fs.chunkID).splitOn '/') =
      some (true, { s with fs := { s.fs with chunkID := fs.chunkID } }) := by
    intro s tag
    simp [checkpoint_chunkId, popNumber_num, hwf.chunkID]
  have e₅ : ∀ (s : Restored) tag, restoreVersionInc s (tag :: (num fs.chunkVersionInc).splitOn '/') =
      some (true, { s with fs := { s.fs with chunkVersionInc := fs.chunkVersionInc } }) := by
    intro s tag
    simp [restoreVersionInc, restore_chunkVersionInc, splitOn_num, hwf.inc]
  have e₆ : ∀ (s : Restored) tag, checkpoint_time s (tag :: stamp.splitOn '/') = some (true, s) := by
    intro s tag
    simp [checkpoint_time, List.splitOn_ne_nil]
  have e₇ : ∀ (s : Restored) tag, checkpoint_log s (tag :: logname.splitOn '/') =
      some (true, { s with log := logname }) := by
    intro s tag
    simp [checkpoint_log, joinSep_splitOn]
  have e₈ : ∀ s : Restored, restoreLine minReplicas s [] = some (true, s) := fun _ => rfl
  unfold headerLines at hh ⊢
  simp only [List.cons_append, List.nil_append]
  rw [feed_tag (hh _ (by simp only [List.mem_cons, true_or])) (by decide) rfl (e₁ s _),
    feed_tag (hh _ (by simp only [List.mem_cons, true_or, or_true])) (by decide) rfl (e₂ _ _),
    feed_tag (hh _ (by simp only [List.mem_cons, true_or, or_true])) (by decide) rfl (e₃ _ _),
    feed_tag (hh _ (by simp only [List.mem_cons, true_or, or_true])) (by decide) rfl (e₄ _ _),
    feed_tag (hh _ (by simp only [List.mem_cons, true_or, or_true])) (by decide) rfl (e₅ _ _),
    feed_tag (hh _ (by simp only [List.mem_cons, true_or, or_true])) (by decide) rfl (e₆ _ _),
    feed_tag (hh _ (by simp only [List.mem_cons, true_or, or_true])) (by decide) rfl (e₇ _ _),
    feed_fit (hh _ (by simp only [List.mem_cons, true_or, or_true])) (e₈ _)]

/-- **A checkpoint of a well-formed tree is accepted, and restores it**, but for numbers of replicas below the
minimum, which are raised to it. -/
theorem rebuild_checkpoint (minReplicas highest : ℤ) (stamp logname : Str) (hwf : WellFormed fs) (hn : 0 ≤ highest)
    (hh : ∀ line ∈ headerLines highest fs stamp logname, FitLine line)
    (hfit : ∀ x ∈ fs.leaves, FitLine x.show) (hs : s.fs.leaves = []) :
    ∃ r, rebuild minReplicas s (checkpointText highest fs stamp logname) = some (true, r) ∧
      List.Perm (dentries r.fs.leaves) (dentries fs.leaves) ∧
      List.Perm (fattrs r.fs.leaves) ((fattrs fs.leaves).map (MetaFattr.restored minReplicas (chunks fs.leaves))) ∧
      List.Perm (chunks r.fs.leaves) (chunks fs.leaves) ∧ r.fs.fileID = fs.fileID ∧ r.fs.chunkID = fs.chunkID ∧
      r.fs.chunkVersionInc = fs.chunkVersionInc := by
  have hall : ∀ line ∈ headerLines highest fs stamp logname ++ fs.leaves.map Meta.show, FitLine line := by
    intro line hl
    rcases List.mem_append.mp hl with hl | hl
    · exact hh line hl
    · obtain ⟨x, hx, rfl⟩ := List.mem_map.mp hl
      exact hfit x hx
  have hstart : Restoring minReplicas [] s.fs.leaves := by
    rw [hs]
    exact ⟨.refl _, .refl _, .refl _⟩
  obtain ⟨l', hl', hr⟩ := feed_items
    (s := ⟨⟨s.fs.leaves, fs.fileID, fs.chunkID, fs.chunkVersionInc, s.fs.counter⟩, highest, logname⟩) hwf hfit
    rfl hstart
  refine ⟨⟨⟨l', fs.fileID, fs.chunkID, fs.chunkVersionInc, s.fs.counter⟩, highest, logname⟩, ?_, hr.dentries,
    hr.fattrs, hr.chunks, rfl, rfl, rfl⟩
  rw [rebuild, checkpointText, splitOn_text hall, List.append_assoc, feed_header hwf hn hh]
  exact hl'

/-- A tree with a file `f` of one chunk. -/
def oneFile : Fs where
  leaves :=
    [.fattr ⟨2, .dir, 1, ⟨0, 0⟩, ⟨0, 0⟩, ⟨0, 0⟩, 0, 0⟩, .fattr ⟨3, .file, 2, ⟨5, 0⟩, ⟨5, 0⟩, ⟨5, 0⟩, 1, -1⟩,
      .dentry ⟨2, ['/'], 2⟩, .dentry ⟨2, ['.'], 2⟩, .dentry ⟨2, ['.', '.'], 2⟩, .dentry ⟨2, ['f'], 3⟩,
      .chunkinfo ⟨3, 0, 3, 1⟩]
  fileID := 3
  chunkID := 3
  chunkVersionInc := 1
  counter := 1

theorem oneFile_wellFormed : WellFormed oneFile where
  ordered := by decide
  inRange := by decide +kernel
  uniq := by decide
  owner := by decide
  fileID := by decide
  chunkID := by decide
  inc := by decide

/-- Where the restorer starts. -/
def emptyRestored : Restored := ⟨⟨[], ROOTFID, ROOTFID, 0, 1⟩, 0, []⟩

theorem oneFile_restored : ∃ r, rebuild 1 emptyRestored (checkpointText 7 oneFile "Mon Jan  1 00:00:00 2007".toList
      "./kfslog/log.0".toList) = some (true, r) ∧ List.Perm (dentries r.fs.leaves) (dentries oneFile.leaves) ∧
      List.Perm (fattrs r.fs.leaves) (fattrs oneFile.leaves) ∧
      List.Perm (chunks r.fs.leaves) (chunks oneFile.leaves) := by
  obtain ⟨r, hr, hd, hf, hc, -⟩ := rebuild_checkpoint (s := emptyRestored) 1 7 "Mon Jan  1 00:00:00 2007".toList
    "./kfslog/log.0".toList oneFile_wellFormed (by decide) (by decide +kernel) (by decide +kernel) rfl
  exact ⟨r, hr, hd, hf, hc⟩

/-- The minimum is not above the number of replicas of any file, and that of a directory is raised to it. -/
theorem dirReplicas_raised : WellFormed oneFile ∧
    (∀ f ∈ fattrs oneFile.leaves, f.type = .file → 2 ≤ f.numReplicas) ∧
    (∀ m ∈ oneFile.leaves, FitLine m.show) ∧
    ∃ r, rebuild 2 emptyRestored (checkpointText 7 oneFile "Mon Jan  1 00:00:00 2007".toList
      "./kfslog/log.0".toList) = some (true, r) ∧
      ¬ List.Perm ((fattrs r.fs.leaves).map fun f => (f.id, f.type, f.numReplicas))
        ((fattrs oneFile.leaves).map fun f => (f.id, f.type, f.numReplicas)) := by
  refine ⟨oneFile_wellFormed, by decide, by decide +kernel, ?_⟩
  have hx : ((rebuild 2 emptyRestored (checkpointText 7 oneFile "Mon Jan  1 00:00:00 2007".toList
      "./kfslog/log.0".toList)).map fun r => (r.1, decide (List.Perm
        ((fattrs r.2.fs.leaves).map fun f => (f.id, f.type, f.numReplicas))
        ((fattrs oneFile.leaves).map fun f => (f.id, f.type, f.numReplicas))))) = some (true, false) := by
    decide +kernel
  obtain ⟨⟨b, r⟩, hr, hb⟩ := Option.map_eq_some_iff.mp hx
  obtain ⟨rfl, hperm⟩ := Prod.mk.inj hb
  exact ⟨r, hr, of_decide_eq_false hperm⟩

end Kfs
