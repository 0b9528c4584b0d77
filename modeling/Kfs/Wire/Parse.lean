import Kfs.Fs.Model
import Kfs.Layout.Model
import Kfs.Wire.Requests

/-!
# The metaserver reads a request

`ParseCommand` of the metaserver, with the handlers of the requests that a client sends.

* `MetaRequest`, `ParseCommand` and the handlers `parseHandlerLookup`, `parseHandlerCreate`, ...;
* `MetaRequest.WellFormed`, **`ParseCommand_wellFormed`**: what it takes, whatever it is sent;
* `ClientOp.Same`, `ClientOp.Carried`, **`request_codec`**: which requests of a client it takes as they have been asked.
-/

namespace Kfs

open Lib

def Wire.MAX_REPLICAS_PER_FILE : Int16 := 64

/-- What a request asks for, without the results that its handling fills in. -/
inductive MetaRequest
  | lookup (dir : Int64) (name : Str)
  | lookupPath (root : Int64) (path : Str)
  | create (dir : Int64) (name : Str) (numReplicas : Int16) (exclusive : Bool)
  | remove (dir : Int64) (name : Str)
  | mkdir (dir : Int64) (name : Str)
  | rmdir (dir : Int64) (name : Str)
  | readdir (dir : Int64)
  | readdirPlus (dir : Int64)
  | getalloc (fid offset : Int64)
  | getlayout (fid : Int64)
  | allocate (fid offset : Int64) (clientHost : Str)
  | truncate (fid offset : Int64)
  | rename (dir : Int64) (oldname newname : Str) (overwrite : Bool)
  | changeFileReplication (fid : Int64) (numReplicas : Int16)
  | leaseAcquire (chunkId : Int64)
  | leaseRenew (leaseType : LeaseType) (chunkId leaseId : Int64)
deriving DecidableEq

/-! ## The handlers -/

section Handlers

variable (prop : Properties)

/-- A C string; without the property it is `NULL`. -/
def Properties.getName (key : Str) : Option Str := (prop key).map cString

def opSeqno : Int64 := prop.getLong "Cseq".toList (-1)

/-- A file with a name. -/
def parseName (dirKey nameKey : Str) (request : Int64 → Str → MetaRequest) : Option (Int64 × MetaRequest) :=
  let dir := prop.getLong dirKey (-1)
  if dir < 0 then none else (prop.getName nameKey).map fun name => (opSeqno prop, request dir name)

def parseHandlerLookup := parseName prop "Parent File-handle".toList "Filename".toList .lookup
def parseHandlerLookupPath := parseName prop "Root File-handle".toList "Pathname".toList .lookupPath
def parseHandlerRemove := parseName prop "Parent File-handle".toList "Filename".toList .remove
def parseHandlerMkdir := parseName prop "Parent File-handle".toList "Directory".toList .mkdir
def parseHandlerRmdir := parseName prop "Parent File-handle".toList "Directory".toList .rmdir

/-- A file without a name. -/
def parseFid (key : Str) (request : Int64 → MetaRequest) : Option (Int64 × MetaRequest) :=
  let fid := prop.getLong key (-1)
  if fid < 0 then none else some (opSeqno prop, request fid)

def parseHandlerReaddir := parseFid prop "Directory File-handle".toList .readdir
def parseHandlerReaddirPlus := parseFid prop "Directory File-handle".toList .readdirPlus
def parseHandlerGetlayout := parseFid prop "File-handle".toList .getlayout

/-- A place in a file. -/
def parseOffset (offsetKey : Str) (request : Int64 → Int64 → MetaRequest) : Option (Int64 × MetaRequest) :=
  let fid := prop.getLong "File-handle".toList (-1)
  let offset := prop.getLong offsetKey (-1)
  if fid < 0 ∨ offset < 0 then none else some (opSeqno prop, request fid offset)

def parseHandlerGetalloc := parseOffset prop "Chunk-offset".toList .getalloc
def parseHandlerTruncate := parseOffset prop "Offset".toList .truncate
def parseHandlerAllocate := parseOffset prop "Chunk-offset".toList fun fid offset =>
  .allocate fid offset (prop.getString "Client-host".toList [])

/-- The cap on replication. -/
def capReplicas (numReplicas : Int32) : Int16 := min numReplicas.toInt16 Wire.MAX_REPLICAS_PER_FILE

def parseHandlerCreate : Option (Int64 × MetaRequest) :=
  let dir := prop.getLong "Parent File-handle".toList (-1)
  if dir < 0 then none
  else
    match prop.getName "Filename".toList with
    | none => none
    | some name =>
      let numReplicas := capReplicas (prop.getInt "Num-replicas".toList 1)
      let exclusive := decide (prop.getInt "Exclusive".toList 1 = 1)
      if numReplicas ≤ 0 then none else some (opSeqno prop, .create dir name numReplicas exclusive)

def parseHandlerRename : Option (Int64 × MetaRequest) :=
  let fid := prop.getLong "Parent File-handle".toList (-1)
  let overwrite := decide (prop.getInt "Overwrite".toList 0 = 1)
  match prop.getName "Old-name".toList, prop.getName "New-path".toList with
  | some oldname, some newpath => if fid < 0 then none else some (opSeqno prop, .rename fid oldname newpath overwrite)
  | _, _ => none

def parseHandlerChangeFileReplication : Option (Int64 × MetaRequest) :=
  let fid := prop.getLong "File-handle".toList (-1)
  let numReplicas := capReplicas (prop.getInt "Num-replicas".toList 1)
  if numReplicas ≤ 0 then none else some (opSeqno prop, .changeFileReplication fid numReplicas)

def parseHandlerLeaseAcquire : Option (Int64 × MetaRequest) :=
  some (opSeqno prop, .leaseAcquire (prop.getLong "Chunk-handle".toList (-1)))

def parseHandlerLeaseRenew : Option (Int64 × MetaRequest) :=
  let leaseType : LeaseType :=
    if prop.getString "Lease-type".toList "READ_LEASE".toList = "WRITE_LEASE".toList then .write else .read
  some (opSeqno prop,
    .leaseRenew leaseType (prop.getLong "Chunk-handle".toList (-1)) (prop.getLong "Lease-id".toList (-1)))

end Handlers

/-- The handlers of the requests that a client sends. -/
def gParseHandlers : List (Str × (Properties → Option (Int64 × MetaRequest))) :=
  [("LOOKUP".toList, parseHandlerLookup), ("LOOKUP_PATH".toList, parseHandlerLookupPath),
    ("CREATE".toList, parseHandlerCreate), ("MKDIR".toList, parseHandlerMkdir),
    ("REMOVE".toList, parseHandlerRemove), ("RMDIR".toList, parseHandlerRmdir),
    ("READDIR".toList, parseHandlerReaddir), ("READDIRPLUS".toList, parseHandlerReaddirPlus),
    ("GETALLOC".toList, parseHandlerGetalloc), ("GETLAYOUT".toList, parseHandlerGetlayout),
    ("ALLOCATE".toList, parseHandlerAllocate), ("TRUNCATE".toList, parseHandlerTruncate),
    ("RENAME".toList, parseHandlerRename),
    ("CHANGE_FILE_REPLICATION".toList, parseHandlerChangeFileReplication),
    ("LEASE_ACQUIRE".toList, parseHandlerLeaseAcquire), ("LEASE_RENEW".toList, parseHandlerLeaseRenew)]

def ParseCommand (cmdBuf : Str) : Option (Int64 × MetaRequest) :=
  (gParseHandlers.lookup (parseHeader cmdBuf).1).bind fun handler => handler (parseHeader cmdBuf).2

/-! ## What the metaserver should take -/

/-- A name that stays in its line, without blanks around it. -/
structure Legible (s : Str) : Prop where
  clean : Clean s
  trim : removeLTSpaces s = s

theorem legible_nil : Legible [] := ⟨⟨List.not_mem_nil, List.not_mem_nil⟩, rfl⟩

namespace MetaRequest

def names : MetaRequest → List Str
  | lookup _ name | lookupPath _ name | create _ name _ _ | remove _ name | mkdir _ name | rmdir _ name => [name]
  | allocate _ _ clientHost => [clientHost]
  | rename _ oldname newname _ => [oldname, newname]
  | _ => []

/-- What the handlers look at. -/
def InBounds : MetaRequest → Prop
  | lookup dir _ | lookupPath dir _ | remove dir _ | mkdir dir _ | rmdir dir _ | rename dir _ _ _ => 0 ≤ dir
  | readdir fid | readdirPlus fid | getlayout fid => 0 ≤ fid
  | create dir _ numReplicas _ => 0 ≤ dir ∧ 0 < numReplicas ∧ numReplicas ≤ Wire.MAX_REPLICAS_PER_FILE
  | getalloc fid offset | allocate fid offset _ | truncate fid offset => 0 ≤ fid ∧ 0 ≤ offset
  | changeFileReplication _ numReplicas => 0 < numReplicas ∧ numReplicas ≤ Wire.MAX_REPLICAS_PER_FILE
  | leaseAcquire _ | leaseRenew _ _ _ => True

structure WellFormed (r : MetaRequest) : Prop where
  names : ∀ s ∈ r.names, Legible s
  bounds : r.InBounds

end MetaRequest

namespace ClientOp

/-- The request of the metaserver has the operation and the values of the client's. The replicas of a CREATE are an
`int` here and an `int16_t` there. -/
def Same : ClientOp → MetaRequest → Prop
  | create parentFid filename numReplicas exclusive, r =>
    ∃ n : Int16, n.toInt = numReplicas.toInt ∧ r = .create parentFid filename n exclusive
  | mkdir parentFid dirname, r => r = .mkdir parentFid dirname
  | rmdir parentFid dirname, r => r = .rmdir parentFid dirname
  | rename parentFid oldname newpath overwrite, r => r = .rename parentFid oldname newpath overwrite
  | readdir fid, r => r = .readdir fid
  | readdirPlus fid, r => r = .readdirPlus fid
  | remove parentFid filename, r => r = .remove parentFid filename
  | lookup parentFid filename, r => r = .lookup parentFid filename
  | lookupPath rootFid filename, r => r = .lookupPath rootFid filename
  | getAlloc fid fileOffset, r => r = .getalloc fid fileOffset
  | getLayout fid, r => r = .getlayout fid
  | allocate fid fileOffset hostname, r => r = .allocate fid fileOffset hostname
  | truncate fid fileOffset, r => r = .truncate fid fileOffset
  | leaseAcquire chunkId, r => r = .leaseAcquire chunkId
  | leaseRenew chunkId leaseId, r => r = .leaseRenew .read chunkId leaseId
  | changeFileReplication fid numReplicas, r => r = .changeFileReplication fid numReplicas

/-- Handles and offsets that are not negative, and from one to 64 replicas. -/
def InBounds : ClientOp → Prop
  | create parentFid _ numReplicas _ => 0 ≤ parentFid ∧ 0 < numReplicas ∧ numReplicas ≤ 64
  | mkdir fid _ | rmdir fid _ | rename fid _ _ _ | remove fid _ | lookup fid _ | lookupPath fid _ => 0 ≤ fid
  | readdir fid | readdirPlus fid | getLayout fid => 0 ≤ fid
  | getAlloc fid fileOffset | allocate fid fileOffset _ | truncate fid fileOffset => 0 ≤ fid ∧ 0 ≤ fileOffset
  | leaseAcquire _ | leaseRenew _ _ => True
  | changeFileReplication _ numReplicas => 0 < numReplicas ∧ numReplicas ≤ 64

/-- What the format can tell and the metaserver takes. -/
structure Carried (op : ClientOp) : Prop where
  names : ∀ s ∈ op.names, Legible s
  bounds : op.InBounds

end ClientOp

/-! ## Reading the values back -/

section Values

variable {prop : Properties} {key : Str}

theorem getName_eq {name : Str} (h : prop key = some (removeLTSpaces (' ' :: name))) (hn : Legible name) :
    prop.getName key = some name := by
  rw [Properties.getName, h, removeLTSpaces_cons rfl, hn.trim]
  exact congrArg some (cString_of_not_mem hn.clean.2)

theorem getInt_flag {b : Bool} (h : prop key = some (removeLTSpaces (' ' :: flag b))) (d : Int32) :
    decide (prop.getInt key d = 1) = b := by
  rw [Properties.getInt, h]
  cases b <;> rfl

theorem parseName_eq {p : Properties} {k l n : Str} {s d : Int64}
    (hseq : p "Cseq".toList = some (removeLTSpaces (' ' :: printInt s.toInt)))
    (hdir : p k = some (removeLTSpaces (' ' :: printInt d.toInt)))
    (hname : p l = some (removeLTSpaces (' ' :: n))) (hn : Legible n) (hd : 0 ≤ d)
    (request : Int64 → Str → MetaRequest) : parseName p k l request = some (s, request d n) := by
  simp only [parseName, opSeqno, Properties.getLong_eq hseq, Properties.getLong_eq hdir, getName_eq hname hn,
    Option.map_some, if_neg (Int64.not_lt.mpr hd)]

theorem parseFid_eq {p : Properties} {k : Str} {s f : Int64}
    (hseq : p "Cseq".toList = some (removeLTSpaces (' ' :: printInt s.toInt)))
    (hfid : p k = some (removeLTSpaces (' ' :: printInt f.toInt))) (hf : 0 ≤ f) (request : Int64 → MetaRequest) :
    parseFid p k request = some (s, request f) := by
  simp only [parseFid, opSeqno, Properties.getLong_eq hseq, Properties.getLong_eq hfid,
    if_neg (Int64.not_lt.mpr hf)]

theorem parseOffset_eq {p : Properties} {k : Str} {s f o : Int64}
    (hseq : p "Cseq".toList = some (removeLTSpaces (' ' :: printInt s.toInt)))
    (hfid : p "File-handle".toList = some (removeLTSpaces (' ' :: printInt f.toInt)))
    (hoff : p k = some (removeLTSpaces (' ' :: printInt o.toInt))) (h : 0 ≤ f ∧ 0 ≤ o)
    (request : Int64 → Int64 → MetaRequest) : parseOffset p k request = some (s, request f o) := by
  have hneg : ¬ (f < 0 ∨ o < 0) := not_or.mpr ⟨Int64.not_lt.mpr h.1, Int64.not_lt.mpr h.2⟩
  simp only [parseOffset, opSeqno, Properties.getLong_eq hseq, Properties.getLong_eq hfid, Properties.getLong_eq hoff,
    if_neg hneg]

end Values

/-! ### The replicas -/

theorem capReplicas_def (n : Int32) : capReplicas n =
    if n.toInt16 ≤ Wire.MAX_REPLICAS_PER_FILE then n.toInt16 else Wire.MAX_REPLICAS_PER_FILE := rfl

/-- Up to the cap the number of replicas is taken as it is. -/
theorem capReplicas_eq {n : Int32} (h₀ : 0 < n) (h₆₄ : n ≤ 64) :
    (capReplicas n).toInt = n.toInt ∧ ¬ capReplicas n ≤ 0 := by
  have h₀ : 0 < n.toInt := Int32.lt_iff_toInt_lt.mp h₀
  have h₆₄ : n.toInt ≤ 64 := Int32.le_iff_toInt_le.mp h₆₄
  have hcut : n.toInt16.toInt = n.toInt := by
    rw [Int32.toInt_toInt16, Int.bmod_eq_of_le (by omega) (by omega)]
  have hcap : capReplicas n = n.toInt16 := by
    rw [capReplicas_def, if_pos]
    refine Int16.le_iff_toInt_le.mpr ?_
    rw [hcut]
    exact h₆₄
  rw [hcap]
  refine ⟨hcut, fun h => ?_⟩
  have h : n.toInt16.toInt ≤ 0 := Int16.le_iff_toInt_le.mp h
  omega

theorem capReplicas_le (n : Int32) : capReplicas n ≤ Wire.MAX_REPLICAS_PER_FILE := by
  rw [capReplicas_def]
  split_ifs with h
  · exact h
  · exact Int16.le_refl _

/-! ## What the metaserver takes -/

section Taken

/-- What `parseHeader` finds as a value is legible. -/
theorem parseHeader_legible {text key v : Str} (h : (parseHeader text).2 key = some v) : Legible v := by
  obtain ⟨line, hline, u, hu, rfl⟩ := loadProperties_value h
  refine ⟨⟨loadProperties_line h, fun h₀ => ?_⟩, removeLTSpaces_idem u⟩
  have hmem : '\x00' ∈ (commandName text).2 := subset_of_mem_splitOn hline (hu (removeLTSpaces_subset u h₀))
  have htext : '\x00' ∈ cString text := (List.dropWhile_suffix _).subset ((List.dropWhile_suffix _).subset hmem)
  exact absurd (List.mem_takeWhile_imp htext) (by decide)

variable {prop : Properties} {key dirKey nameKey : Str} {seq : Int64} {r : MetaRequest}

theorem getName_legible (hprop : ∀ k v, prop k = some v → Legible v) {name : Str}
    (h : prop.getName key = some name) : Legible name := by
  obtain ⟨v, hv, rfl⟩ := Option.map_eq_some_iff.mp h
  rw [cString_of_not_mem (hprop key v hv).clean.2]
  exact hprop key v hv

theorem getString_legible (hprop : ∀ k v, prop k = some v → Legible v) : Legible (prop.getString key []) := by
  change Legible ((prop.getName key).getD [])
  rcases h : prop.getName key with - | name
  · exact legible_nil
  · exact getName_legible hprop h

theorem parseName_wellFormed (hprop : ∀ k v, prop k = some v → Legible v) {request : Int64 → Str → MetaRequest}
    (h : parseName prop dirKey nameKey request = some (seq, r))
    (hreq : ∀ d n, Legible n → 0 ≤ d → (request d n).WellFormed) : r.WellFormed := by
  unfold parseName at h
  dsimp only at h
  split_ifs at h with hd
  obtain ⟨name, hname, heq⟩ := Option.map_eq_some_iff.mp h
  rw [← (Prod.mk.inj heq).2]
  exact hreq _ name (getName_legible hprop hname) (Int64.not_lt.mp hd)

theorem parseFid_wellFormed {request : Int64 → MetaRequest} (h : parseFid prop key request = some (seq, r))
    (hreq : ∀ f, 0 ≤ f → (request f).WellFormed) : r.WellFormed := by
  unfold parseFid at h
  dsimp only at h
  split_ifs at h with hf
  rw [← (Prod.mk.inj (Option.some.inj h)).2]
  exact hreq _ (Int64.not_lt.mp hf)

theorem parseOffset_wellFormed {request : Int64 → Int64 → MetaRequest}
    (h : parseOffset prop key request = some (seq, r))
    (hreq : ∀ f o, 0 ≤ f ∧ 0 ≤ o → (request f o).WellFormed) : r.WellFormed := by
  unfold parseOffset at h
  dsimp only at h
  split_ifs at h with hneg
  rw [← (Prod.mk.inj (Option.some.inj h)).2]
  exact hreq _ _ ((not_or.mp hneg).imp Int64.not_lt.mp Int64.not_lt.mp)

theorem parseHandlerCreate_wellFormed (hprop : ∀ k v, prop k = some v → Legible v)
    (h : parseHandlerCreate prop = some (seq, r)) : r.WellFormed := by
  rcases hname : prop.getName "Filename".toList with - | name
  · rw [parseHandlerCreate, hname] at h
    exact absurd h (by simp only [ite_self, reduceCtorEq, not_false_eq_true])
  rw [parseHandlerCreate, hname] at h
  dsimp only at h
  split_ifs at h with hd hn
  rw [← (Prod.mk.inj (Option.some.inj h)).2]
  refine ⟨fun s hs => ?_, Int64.not_lt.mp hd, Int16.not_le.mp hn, capReplicas_le _⟩
  rw [List.mem_singleton.mp hs]
  exact getName_legible hprop hname

theorem parseHandlerRename_wellFormed (hprop : ∀ k v, prop k = some v → Legible v)
    (h : parseHandlerRename prop = some (seq, r)) : r.WellFormed := by
  rcases hold : prop.getName "Old-name".toList with - | oldname
  · rw [parseHandlerRename, hold] at h
    exact absurd h (Option.some_ne_none _).symm
  rcases hnew : prop.getName "New-path".toList with - | newpath
  · rw [parseHandlerRename, hold, hnew] at h
    exact absurd h (Option.some_ne_none _).symm
  rw [parseHandlerRename, hold, hnew] at h
  dsimp only at h
  split_ifs at h with hd
  rw [← (Prod.mk.inj (Option.some.inj h)).2]
  refine ⟨fun s hs => ?_, Int64.not_lt.mp hd⟩
  rcases List.mem_cons.mp hs with rfl | hs
  · exact getName_legible hprop hold
  · rw [List.mem_singleton.mp hs]
    exact getName_legible hprop hnew

theorem parseHandlerChangeFileReplication_wellFormed (h : parseHandlerChangeFileReplication prop = some (seq, r)) :
    r.WellFormed := by
  unfold parseHandlerChangeFileReplication at h
  dsimp only at h
  split_ifs at h with hn
  rw [← (Prod.mk.inj (Option.some.inj h)).2]
  exact ⟨fun s hs => absurd hs List.not_mem_nil, Int16.not_le.mp hn, capReplicas_le _⟩

/-- **What the metaserver takes is well formed**, whatever bytes it is sent: every name is legible, handles and offsets
are not negative, and the replicas are between one and the cap. -/
theorem ParseCommand_wellFormed {text : Str} (h : ParseCommand text = some (seq, r)) : r.WellFormed := by
  obtain ⟨handler, hlookup, h⟩ := Option.bind_eq_some_iff.mp h
  have hprop : ∀ k v, (parseHeader text).2 k = some v → Legible v := fun k v => parseHeader_legible
  have hname : ∀ {d : Int64} {n : Str} {request : Int64 → Str → MetaRequest}, (request d n).names = [n] →
      ((request d n).InBounds ↔ 0 ≤ d) → Legible n → 0 ≤ d → (request d n).WellFormed := by
    intro d n request hnames hbounds hn hd
    refine ⟨fun s hs => ?_, hbounds.mpr hd⟩
    rw [hnames] at hs
    rw [List.mem_singleton.mp hs]
    exact hn
  obtain ⟨l₁, l₂, hsplit, -⟩ := List.lookup_eq_some_iff.mp hlookup
  have hmem : handler ∈ gParseHandlers.map Prod.snd := by
    rw [hsplit]
    simp
  simp only [gParseHandlers, List.map_cons, List.map_nil, List.mem_cons, List.not_mem_nil, or_false] at hmem
  rcases hmem with rfl | rfl | rfl | rfl | rfl | rfl | rfl | rfl | rfl | rfl | rfl | rfl | rfl | rfl | rfl | rfl
  · exact parseName_wellFormed hprop h fun d n => hname rfl Iff.rfl
  · exact parseName_wellFormed hprop h fun d n => hname rfl Iff.rfl
  · exact parseHandlerCreate_wellFormed hprop h
  · exact parseName_wellFormed hprop h fun d n => hname rfl Iff.rfl
  · exact parseName_wellFormed hprop h fun d n => hname rfl Iff.rfl
  · exact parseName_wellFormed hprop h fun d n => hname rfl Iff.rfl
  · exact parseFid_wellFormed h fun f hf => ⟨fun s hs => absurd hs List.not_mem_nil, hf⟩
  · exact parseFid_wellFormed h fun f hf => ⟨fun s hs => absurd hs List.not_mem_nil, hf⟩
  · exact parseOffset_wellFormed h fun f o hfo => ⟨fun s hs => absurd hs List.not_mem_nil, hfo⟩
  · exact parseFid_wellFormed h fun f hf => ⟨fun s hs => absurd hs List.not_mem_nil, hf⟩
  · refine parseOffset_wellFormed h fun f o hfo => ⟨fun s hs => ?_, hfo⟩
    rw [List.mem_singleton.mp hs]
    exact getString_legible hprop
  · exact parseOffset_wellFormed h fun f o hfo => ⟨fun s hs => absurd hs List.not_mem_nil, hfo⟩
  · exact parseHandlerRename_wellFormed hprop h
  · exact parseHandlerChangeFileReplication_wellFormed h
  · rw [← (Prod.mk.inj (Option.some.inj h)).2]
    exact ⟨fun s hs => absurd hs List.not_mem_nil, trivial⟩
  · rw [← (Prod.mk.inj (Option.some.inj h)).2]
    exact ⟨fun s hs => absurd hs List.not_mem_nil, trivial⟩

end Taken

/-! ## A client's requests -/

namespace ClientOp

variable {seq : Int64} {op : ClientOp} {r : MetaRequest}

theorem sound (seq : Int64) (h : ∀ s ∈ op.names, Clean s) : (op.Request seq).Sound op.word where
  regular := op.regular seq
  values := List.forall_iff_forall_mem.mpr fun f hf => (value_cases hf).elim (h f.value) id

theorem ParseCommand_eq (h : ∀ s ∈ op.names, Clean s)
    {f : Properties → Option (Int64 × MetaRequest)} (hw : gParseHandlers.lookup op.word = some f) :
    ParseCommand (op.Request seq).text = f (op.Request seq).props := by
  rw [ParseCommand, (sound seq h).parse, hw, Option.bind_some]

theorem parse_create {parentFid : Int64} {filename : Str} {numReplicas : Int32} {exclusive : Bool}
    (hn : Legible filename) (hd : 0 ≤ parentFid) (hr : ¬ capReplicas numReplicas ≤ 0) :
    parseHandlerCreate ((create parentFid filename numReplicas exclusive).Request seq).props =
      some (seq, .create parentFid filename (capReplicas numReplicas) exclusive) := by
  generalize hprop : ((create parentFid filename numReplicas exclusive).Request seq).props = prop
  have hseq : opSeqno prop = seq := hprop ▸ Properties.getLong_eq rfl _
  have hdir : prop.getLong "Parent File-handle".toList (-1) = parentFid := hprop ▸ Properties.getLong_eq rfl _
  have hname : prop.getName "Filename".toList = some filename := hprop ▸ getName_eq rfl hn
  have hnum : prop.getInt "Num-replicas".toList 1 = numReplicas := hprop ▸ Properties.getInt_eq rfl _
  have hexcl : decide (prop.getInt "Exclusive".toList 1 = 1) = exclusive := hprop ▸ getInt_flag rfl _
  rw [parseHandlerCreate, hseq, hdir, hname, hnum, hexcl]
  exact (if_neg (Int64.not_lt.mpr hd)).trans (if_neg hr)

theorem parse_rename {parentFid : Int64} {oldname newpath : Str} {overwrite : Bool} (ho : Legible oldname)
    (hn : Legible newpath) (hd : 0 ≤ parentFid) :
    parseHandlerRename ((rename parentFid oldname newpath overwrite).Request seq).props =
      some (seq, .rename parentFid oldname newpath overwrite) := by
  generalize hprop : ((rename parentFid oldname newpath overwrite).Request seq).props = prop
  have hseq : opSeqno prop = seq := hprop ▸ Properties.getLong_eq rfl _
  have hdir : prop.getLong "Parent File-handle".toList (-1) = parentFid := hprop ▸ Properties.getLong_eq rfl _
  have hold : prop.getName "Old-name".toList = some oldname := hprop ▸ getName_eq rfl ho
  have hnew : prop.getName "New-path".toList = some newpath := hprop ▸ getName_eq rfl hn
  have hover : decide (prop.getInt "Overwrite".toList 0 = 1) = overwrite := hprop ▸ getInt_flag rfl _
  rw [parseHandlerRename, hseq, hdir, hold, hnew, hover]
  exact if_neg (Int64.not_lt.mpr hd)

theorem parse_allocate {fid fileOffset : Int64} {hostname : Str} (hn : Legible hostname)
    (h : 0 ≤ fid ∧ 0 ≤ fileOffset) : parseHandlerAllocate ((allocate fid fileOffset hostname).Request seq).props =
      some (seq, .allocate fid fileOffset hostname) := by
  generalize hprop : ((allocate fid fileOffset hostname).Request seq).props = prop
  have hseq : opSeqno prop = seq := hprop ▸ Properties.getLong_eq rfl _
  have hfid : prop.getLong "File-handle".toList (-1) = fid := hprop ▸ Properties.getLong_eq rfl _
  have hoff : prop.getLong "Chunk-offset".toList (-1) = fileOffset := hprop ▸ Properties.getLong_eq rfl _
  have hname : prop.getName "Client-host".toList = some hostname := hprop ▸ getName_eq rfl hn
  have hhost : prop.getString "Client-host".toList [] = hostname :=
    congrArg (fun o : Option Str => o.getD []) hname
  rw [parseHandlerAllocate, parseOffset, hseq, hfid, hoff, hhost]
  exact if_neg (not_or.mpr ⟨Int64.not_lt.mpr h.1, Int64.not_lt.mpr h.2⟩)

theorem parse_changeFileReplication {fid : Int64} {numReplicas : Int16} (h : 0 < numReplicas ∧ numReplicas ≤ 64) :
    parseHandlerChangeFileReplication ((changeFileReplication fid numReplicas).Request seq).props =
      some (seq, .changeFileReplication fid numReplicas) := by
  generalize hprop : ((changeFileReplication fid numReplicas).Request seq).props = prop
  have hseq : opSeqno prop = seq := hprop ▸ Properties.getLong_eq rfl _
  have hfid : prop.getLong "File-handle".toList (-1) = fid := hprop ▸ Properties.getLong_eq rfl _
  have hnum : prop.getInt "Num-replicas".toList 1 = numReplicas.toInt32 := by
    refine Properties.getInt_eq ?_ _
    rw [← hprop, Int16.toInt_toInt32]
    rfl
  have hcap : capReplicas numReplicas.toInt32 = numReplicas := by
    rw [capReplicas_def, Int16.toInt16_toInt32]
    exact if_pos h.2
  rw [parseHandlerChangeFileReplication, hseq, hfid, hnum, hcap]
  exact if_neg (Int16.not_le.mpr h.1)

theorem parse_leaseRenew {chunkId leaseId : Int64} :
    parseHandlerLeaseRenew ((leaseRenew chunkId leaseId).Request seq).props =
      some (seq, .leaseRenew .read chunkId leaseId) := by
  generalize hprop : ((leaseRenew chunkId leaseId).Request seq).props = prop
  have hseq : opSeqno prop = seq := hprop ▸ Properties.getLong_eq rfl _
  have hchunk : prop.getLong "Chunk-handle".toList (-1) = chunkId := hprop ▸ Properties.getLong_eq rfl _
  have hlease : prop.getLong "Lease-id".toList (-1) = leaseId := hprop ▸ Properties.getLong_eq rfl _
  have htype : prop.getString "Lease-type".toList "READ_LEASE".toList = "READ_LEASE".toList := hprop ▸ rfl
  have hne : "READ_LEASE".toList ≠ "WRITE_LEASE".toList := by decide
  rw [parseHandlerLeaseRenew, hseq, hchunk, hlease, htype, if_neg hne]

theorem parse_leaseAcquire {chunkId : Int64} :
    parseHandlerLeaseAcquire ((leaseAcquire chunkId).Request seq).props = some (seq, .leaseAcquire chunkId) := by
  generalize hprop : ((leaseAcquire chunkId).Request seq).props = prop
  have hseq : opSeqno prop = seq := hprop ▸ Properties.getLong_eq rfl _
  have hchunk : prop.getLong "Chunk-handle".toList (-1) = chunkId := hprop ▸ Properties.getLong_eq rfl _
  rw [parseHandlerLeaseAcquire, hseq, hchunk]

/-- What can be told is taken as it is. -/
theorem Carried.taken (h : op.Carried) (seq : Int64) :
    ∃ r, ParseCommand (op.Request seq).text = some (seq, r) ∧ op.Same r := by
  have hc : ∀ s ∈ op.names, Clean s := fun s hs => (h.names s hs).clean
  have hl := h.names
  have hb := h.bounds
  cases op with
  | create parentFid filename numReplicas exclusive =>
    obtain ⟨hcut, hpos⟩ := capReplicas_eq hb.2.1 hb.2.2
    exact ⟨_, (ParseCommand_eq hc rfl).trans (parse_create (hl _ (.head _)) hb.1 hpos), _, hcut, rfl⟩
  | rename =>
    exact ⟨_, (ParseCommand_eq hc rfl).trans (parse_rename (hl _ (.head _)) (hl _ (.tail _ (.head _))) hb), rfl⟩
  | allocate => exact ⟨_, (ParseCommand_eq hc rfl).trans (parse_allocate (hl _ (.head _)) hb), rfl⟩
  | changeFileReplication => exact ⟨_, (ParseCommand_eq hc rfl).trans (parse_changeFileReplication hb), rfl⟩
  | leaseRenew => exact ⟨_, (ParseCommand_eq hc rfl).trans parse_leaseRenew, rfl⟩
  | leaseAcquire => exact ⟨_, (ParseCommand_eq hc rfl).trans parse_leaseAcquire, rfl⟩
  | mkdir parentFid dirname =>
    refine ⟨_, (ParseCommand_eq hc (f := parseHandlerMkdir) rfl).trans ?_, rfl⟩
    exact parseName_eq (p := ((mkdir parentFid dirname).Request seq).props) rfl rfl rfl (hl _ (.head _)) hb _
  | rmdir parentFid dirname =>
    refine ⟨_, (ParseCommand_eq hc (f := parseHandlerRmdir) rfl).trans ?_, rfl⟩
    exact parseName_eq (p := ((rmdir parentFid dirname).Request seq).props) rfl rfl rfl (hl _ (.head _)) hb _
  | remove parentFid filename =>
    refine ⟨_, (ParseCommand_eq hc (f := parseHandlerRemove) rfl).trans ?_, rfl⟩
    exact parseName_eq (p := ((remove parentFid filename).Request seq).props) rfl rfl rfl (hl _ (.head _)) hb _
  | lookup parentFid filename =>
    refine ⟨_, (ParseCommand_eq hc (f := parseHandlerLookup) rfl).trans ?_, rfl⟩
    exact parseName_eq (p := ((lookup parentFid filename).Request seq).props) rfl rfl rfl (hl _ (.head _)) hb _
  | lookupPath rootFid filename =>
    refine ⟨_, (ParseCommand_eq hc (f := parseHandlerLookupPath) rfl).trans ?_, rfl⟩
    exact parseName_eq (p := ((lookupPath rootFid filename).Request seq).props) rfl rfl rfl (hl _ (.head _)) hb _
  | readdir fid =>
    refine ⟨_, (ParseCommand_eq hc (f := parseHandlerReaddir) rfl).trans ?_, rfl⟩
    exact parseFid_eq (p := ((readdir fid).Request seq).props) rfl rfl hb _
  | readdirPlus fid =>
    refine ⟨_, (ParseCommand_eq hc (f := parseHandlerReaddirPlus) rfl).trans ?_, rfl⟩
    exact parseFid_eq (p := ((readdirPlus fid).Request seq).props) rfl rfl hb _
  | getLayout fid =>
    refine ⟨_, (ParseCommand_eq hc (f := parseHandlerGetlayout) rfl).trans ?_, rfl⟩
    exact parseFid_eq (p := ((getLayout fid).Request seq).props) rfl rfl hb _
  | getAlloc fid fileOffset =>
    refine ⟨_, (ParseCommand_eq hc (f := parseHandlerGetalloc) rfl).trans ?_, rfl⟩
    exact parseOffset_eq (p := ((getAlloc fid fileOffset).Request seq).props) rfl rfl rfl hb _
  | truncate fid fileOffset =>
    refine ⟨_, (ParseCommand_eq hc (f := parseHandlerTruncate) rfl).trans ?_, rfl⟩
    exact parseOffset_eq (p := ((truncate fid fileOffset).Request seq).props) rfl rfl rfl hb _

/-- What is the same as a well-formed request can be told. -/
theorem Same.carried (hs : op.Same r) (h : r.WellFormed) : op.Carried := by
  cases op with
  | create parentFid filename numReplicas exclusive =>
    obtain ⟨n, hn, rfl⟩ := hs
    obtain ⟨hd, h₀, h₆₄⟩ := h.bounds
    have h₀ : 0 < n.toInt := Int16.lt_iff_toInt_lt.mp h₀
    have h₆₄ : n.toInt ≤ 64 := Int16.le_iff_toInt_le.mp h₆₄
    refine ⟨h.names, hd, Int32.lt_iff_toInt_lt.mpr ?_, Int32.le_iff_toInt_le.mpr ?_⟩
    · exact hn ▸ h₀
    · exact hn ▸ h₆₄
  | _ =>
    obtain rfl := hs
    exact ⟨h.names, h.bounds⟩

/-- **A request of a client is taken with its operation and all its values** exactly when its names stay in their lines
and have no blanks around them, no handle or offset is negative, and it asks for one to 64 replicas. -/
theorem request_codec (seq : Int64) (op : ClientOp) :
    (∃ r, ParseCommand (op.Request seq).text = some (seq, r) ∧ op.Same r) ↔ op.Carried := by
  constructor
  · rintro ⟨r, hparse, hsame⟩
    exact hsame.carried (ParseCommand_wellFormed hparse)
  · exact fun h => h.taken seq

/-- A name that `legalname` accepts is taken for a name and another line, which is another parent. -/
theorem request_altered : legalname "f\nParent File-handle: 9".toList = true ∧
    ParseCommand ((create 2 "f\nParent File-handle: 9".toList 3 true).Request 1).text =
      some (1, .create 9 "f".toList 3 true) ∧
    ¬ ∃ r, ParseCommand ((create 2 "f\nParent File-handle: 9".toList 3 true).Request 1).text = some (1, r) ∧
      (create 2 "f\nParent File-handle: 9".toList 3 true).Same r := by
  have hparse : ParseCommand ((create 2 "f\nParent File-handle: 9".toList 3 true).Request 1).text =
      some (1, .create 9 "f".toList 3 true) := by decide +kernel
  refine ⟨by decide +kernel, hparse, ?_⟩
  rintro ⟨r, hr, n, -, rfl⟩
  have heq := (Prod.mk.inj (Option.some.inj (hparse.symm.trans hr))).2
  exact absurd (MetaRequest.create.inj heq).1 (by decide)

end ClientOp

end Kfs
