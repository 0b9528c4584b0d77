import Mathlib.Data.List.Perm.Basic
import Kfs.Chunk.Client

/-!
# The account of what has been started

What has been started is either owed by a disk request that will call it back, or has completed: a ledger that is kept
through every handler, with the operations that the handler has in its hands.

* `DiskRequest.owes`, `Cs.owed`, `Ledger`: the account;
* `Calm`: nothing happens that the account knows of;
* `Settles`: the client takes an operation back; the handlers of writes and metadata keep the account for any client
  that does.
-/

namespace Kfs.Chunk

open ChunkManager

/-! ## The account -/

def Signal.id : Signal → ℕ
  | .op id => id
  | .write id => id
  | .readBlock id => id
  | .other id => id

def Signal.counted : Signal → Bool
  | .other _ => false
  | _ => true

/-- What a disk request calls back: its operation, with the write that the operation owns and the read that the
write owns. -/
def DiskRequest.owes (r : DiskRequest) : List Signal :=
  match r.cmd with
  | .readMeta _ waiters => r.clnt.signal :: waiters.map KfsOp.signal
  | .read _ _ => [r.clnt.signal]
  | .readBlock _ _ => [.readBlock r.clnt.id, .write r.clnt.id, r.clnt.signal]
  | .write _ => [.write r.clnt.id, r.clnt.signal]
  | .writeMeta => [r.clnt.signal]

def Cs.owed (st : Cs) : List Signal := st.disk.flatMap DiskRequest.owes

def Cmd.isAlloc : Cmd → Bool
  | .allocChunk _ _ _ => true
  | _ => false

/-- The operations that write chunk metadata at their end. -/
def Cmd.commits : Cmd → Bool
  | .allocChunk _ _ _ => true
  | .truncateChunk _ _ => true
  | .changeChunkVers _ _ => true
  | .writeSync _ => true
  | _ => false

/-- The prepare that owns the write has been forwarded if it waits for that. -/
def WriteOp.Forwarded (w : WriteOp) : Prop := ∀ p, w.wpop = some p → p.writeFwdOp = true → 1 ≤ p.numDone

/-- The operations of a request are of a kind that its handler knows. -/
def DiskRequest.Fits (r : DiskRequest) : Prop :=
  match r.cmd with
  | .readMeta _ waiters => ∀ op ∈ r.clnt :: waiters, op.cmd.loads = true
  | .read _ _ => True
  | .readBlock w rop => rop.status = 0 ∧ w.Forwarded
  | .write w => w.Forwarded
  | .writeMeta => r.clnt.cmd.commits = true

/-- `hand` is what the running handler has to complete. -/
structure Ledger (hand : List Signal) (st : Cs) : Prop where
  balanced : ∀ s, s.counted = true →
    (st.signals.map Prod.fst).count s + st.owed.count s + hand.count s = st.issued.count s
  once : ∀ s, s.counted = true → st.issued.count s ≤ 1
  fresh : ∀ s ∈ st.issued, s.id < st.nextOp
  fits : ∀ r ∈ st.disk, r.Fits
  registered : ∀ c cih id, st.mChunkTable c = some cih → cih.readChunkMetaOp = some id →
    ∃ r ∈ st.disk, r.clnt.id = id ∧ ∃ waiters, r.cmd = .readMeta c waiters
  pending : ∀ q ∈ st.mPendingOps, q.2.id < st.nextOp ∧ q.2.cmd.isSync = true

/-- Nothing happens that the account knows of. -/
structure Calm (st st' : Cs) : Prop where
  disk : st'.disk = st.disk
  issued : st'.issued = st.issued
  signals : st'.signals = st.signals
  nextOp : st'.nextOp = st.nextOp
  pending : st'.mPendingOps = st.mPendingOps
  reading : ∀ c cih id, st'.mChunkTable c = some cih → cih.readChunkMetaOp = some id →
    ∃ cih', st.mChunkTable c = some cih' ∧ cih'.readChunkMetaOp = some id

variable {st st' st₁ : Cs} {hand hand' : List Signal} {s : Signal} {r : DiskRequest} {env : Env} {op : KfsOp} {c : ℕ}
  {res status : ℤ} {w w' : WriteOp} {p : WritePrepareOp}

theorem Calm.refl : Calm st st := ⟨rfl, rfl, rfl, rfl, rfl, fun _ cih _ h hid => ⟨cih, h, hid⟩⟩

theorem Calm.trans (h : Calm st st₁) (h' : Calm st₁ st') : Calm st st' where
  disk := h'.disk.trans h.disk
  issued := h'.issued.trans h.issued
  signals := h'.signals.trans h.signals
  nextOp := h'.nextOp.trans h.nextOp
  pending := h'.pending.trans h.pending
  reading c cih id hc hid := by
    obtain ⟨cih', hc', hid'⟩ := h'.reading c cih id hc hid
    exact h.reading c cih' id hc' hid'

theorem mark_calm {m : Mark} : Calm st (mark st m) := ⟨rfl, rfl, rfl, rfl, rfl, Calm.refl.reading⟩

/-- An entry is set without a metadata read of its own. -/
theorem Calm.setEntry {e : Option ChunkInfoHandle} (h : ∀ cih id, e = some cih → cih.readChunkMetaOp = some id →
    ∃ cih', st.mChunkTable c = some cih' ∧ cih'.readChunkMetaOp = some id) : Calm st (setEntry st c e) := by
  refine ⟨rfl, rfl, rfl, rfl, rfl, fun c' cih id hc hid => ?_⟩
  change Function.update st.mChunkTable c e c' = some cih at hc
  by_cases he : c' = c
  · subst he
    rw [Function.update_self] at hc
    exact h cih id hc hid
  · rw [Function.update_of_ne he] at hc
    exact ⟨cih, hc, hid⟩

/-- An entry is changed elsewhere. -/
theorem Calm.entry {cih e : ChunkInfoHandle} (hc : st.mChunkTable c = some cih)
    (he : e.readChunkMetaOp = cih.readChunkMetaOp) : Calm st (ChunkManager.setEntry st c (some e)) :=
  Calm.setEntry fun cih' id he' hid => ⟨cih, hc, by
    rw [← he, Option.some.inj he']
    exact hid⟩

theorem ChangeChunkVers_calm {v : ℤ} : Calm st (ChangeChunkVers st c v).1 := by
  unfold ChangeChunkVers
  cases hc : st.mChunkTable c with
  | none => exact .refl
  | some cih => exact Calm.entry hc rfl

theorem AllocChunk_calm {v : ℤ} : Calm st (AllocChunk env st c v).1 := by
  unfold AllocChunk
  cases hc : st.mChunkTable c with
  | some cih => exact ChangeChunkVers_calm
  | none =>
    dsimp only
    split_ifs
    · have h : Calm st (setEntry st c (some ⟨v, 0, some fun _ => 0, none, st.nextFile⟩)) :=
        Calm.setEntry fun cih id he hid => by
          rw [← Option.some.inj he] at hid
          cases hid
      exact ⟨h.disk, h.issued, h.signals, h.nextOp, h.pending, h.reading⟩
    · exact .refl

theorem removeChunk_calm : Calm st (removeChunk st c) := by
  unfold removeChunk
  cases hc : st.mChunkTable c with
  | none => exact .refl
  | some cih =>
    have h : Calm st (setEntry st c none) := Calm.setEntry fun cih id he => by cases he
    exact ⟨h.disk, h.issued, h.signals, h.nextOp, h.pending, h.reading⟩

theorem releaseChunk_calm : Calm st (releaseChunk st c) := by
  unfold releaseChunk
  cases hc : st.mChunkTable c with
  | none => exact .refl
  | some cih => exact Calm.entry hc rfl

theorem ReadChunkMetadataDone_calm : Calm st (ReadChunkMetadataDone st c) := by
  unfold ReadChunkMetadataDone
  cases hc : st.mChunkTable c with
  | none => exact .refl
  | some cih =>
    refine Calm.setEntry fun cih' id he hid => ?_
    rw [← Option.some.inj he] at hid
    cases hid

theorem SetChunkMetadata_calm {checksums : ℕ → UInt32} : Calm st (SetChunkMetadata st c checksums).1 := by
  unfold SetChunkMetadata
  cases hc : st.mChunkTable c with
  | none => exact .refl
  | some cih => exact Calm.entry hc rfl

theorem TruncateChunk_calm {size : ℕ} (h : TruncateChunk env st c size = some (st', res)) : Calm st st' := by
  unfold TruncateChunk at h
  by_cases hsize : size > CHUNKSIZE
  · simp only [hsize, if_true, Option.some.injEq, Prod.mk.injEq] at h
    exact h.1 ▸ .refl
  rw [if_neg hsize] at h
  cases hc : st.mChunkTable c with
  | none =>
    simp only [hc, Option.some.injEq, Prod.mk.injEq] at h
    exact h.1 ▸ .refl
  | some cih =>
    simp only [hc] at h
    cases ht : env.truncate with
    | some errno =>
      simp only [ht, Option.some.injEq, Prod.mk.injEq] at h
      exact h.1 ▸ .refl
    | none =>
      simp only [ht] at h
      cases hk : cih.chunkBlockChecksum with
      | none => simp [hk] at h
      | some checksums =>
        simp only [hk] at h
        split_ifs at h
        simp only [Option.some.injEq, Prod.mk.injEq] at h
        obtain ⟨rfl, -⟩ := h
        refine ⟨rfl, rfl, rfl, rfl, rfl, (Calm.entry hc ?_).reading⟩
        rfl

theorem UpdateChecksums_calm {cih : ChunkInfoHandle} {checksums : ℕ → UInt32} (hc : st.mChunkTable c = some cih)
    (h : UpdateChecksums st cih checksums c w = some st') : Calm st st' := by
  unfold UpdateChecksums at h
  dsimp only at h
  split_ifs at h
  all_goals
    obtain rfl := Option.some.inj h
    refine ⟨rfl, rfl, rfl, rfl, rfl, (Calm.entry hc ?_).reading⟩
    rfl

theorem checkRead_calm {rop rop' : ReadOp} (h : checkRead st c rop = some (st', rop')) : Calm st st' := by
  unfold checkRead at h
  cases hc : st.mChunkTable c with
  | none =>
    simp only [hc] at h
    obtain ⟨_, -, he⟩ := Option.map_eq_some_iff.mp h
    exact (Prod.mk.inj he).1 ▸ .refl
  | some cih =>
    simp only [hc] at h
    by_cases hv : rop.chunkVersion ≠ cih.chunkVersion
    · rw [if_pos hv] at h
      obtain ⟨_, -, he⟩ := Option.map_eq_some_iff.mp h
      exact (Prod.mk.inj he).1 ▸ .refl
    rw [if_neg hv] at h
    cases hk : cih.chunkBlockChecksum with
    | none => simp [hk] at h
    | some checksums =>
      simp only [hk] at h
      obtain ⟨rop₁, -, he⟩ := Option.map_eq_some_iff.mp h
      obtain ⟨rfl, -⟩ := Prod.mk.inj he
      split_ifs
      · exact removeChunk_calm
      · exact .refl

/-! ## Entries of the account -/

theorem Ledger.calm (h : Ledger hand st) (hc : Calm st st') : Ledger hand st' where
  balanced s hs := by
    have hb := h.balanced s hs
    unfold Cs.owed at hb ⊢
    rw [hc.signals, hc.issued, hc.disk]
    exact hb
  once s hs := hc.issued ▸ h.once s hs
  fresh s hs := by
    rw [hc.issued] at hs
    rw [hc.nextOp]
    exact h.fresh s hs
  fits r hr := h.fits r (hc.disk ▸ hr)
  registered c cih id hcih hid := by
    obtain ⟨cih', hcih', hid'⟩ := hc.reading c cih id hcih hid
    rw [hc.disk]
    exact h.registered c cih' id hcih' hid'
  pending q hq := by
    rw [hc.pending] at hq
    rw [hc.nextOp]
    exact h.pending q hq

/-- Only the counts of what is in hand matter. -/
theorem Ledger.recount (h : Ledger hand st) (hh : ∀ s : Signal, s.counted = true → hand'.count s = hand.count s) :
    Ledger hand' st :=
  { h with balanced := fun s hs => by rw [hh s hs]; exact h.balanced s hs }

theorem Ledger.complete (h : Ledger (s :: hand) st) : Ledger hand (signal st s status) where
  balanced s' hs' := by
    have hb := h.balanced s' hs'
    change ((s :: st.signals.map Prod.fst).count s') + st.owed.count s' + hand.count s' = st.issued.count s'
    rw [List.count_cons] at hb ⊢
    omega
  once := h.once
  fresh := h.fresh
  fits := h.fits
  registered := h.registered
  pending := h.pending

theorem Ledger.start (h : Ledger hand st) (hs : s.counted = true → s ∉ st.issued) (hid : s.id < st.nextOp) :
    Ledger (s :: hand) (issue st s) where
  balanced s' hs' := by
    have hb := h.balanced s' hs'
    change (st.signals.map Prod.fst).count s' + st.owed.count s' + (s :: hand).count s' = (s :: st.issued).count s'
    rw [List.count_cons, List.count_cons]
    omega
  once s' hs' := by
    change (s :: st.issued).count s' ≤ 1
    by_cases he : s = s'
    · subst he
      rw [List.count_cons_self, List.count_eq_zero_of_not_mem (hs hs')]
    · rw [List.count_cons_of_ne he]
      exact h.once s' hs'
  fresh s' hs' := by
    rcases List.mem_cons.mp hs' with rfl | hs'
    · exact hid
    · exact h.fresh s' hs'
  fits := h.fits
  registered := h.registered
  pending := h.pending

theorem Ledger.enqueue (h : Ledger (r.owes ++ hand) st) (hf : r.Fits) : Ledger hand (queue st r) where
  balanced s hs := by
    have hb := h.balanced s hs
    have ho : (queue st r).owed = st.owed ++ r.owes := by
      simp [Cs.owed, ChunkManager.queue]
    change (st.signals.map Prod.fst).count s + (queue st r).owed.count s + hand.count s = st.issued.count s
    rw [ho, List.count_append]
    rw [List.count_append] at hb
    omega
  once := h.once
  fresh := h.fresh
  fits r' hr' := by
    rcases List.mem_append.mp hr' with hr' | hr'
    · exact h.fits r' hr'
    · rw [List.mem_singleton.mp hr']
      exact hf
  registered c cih id hc hid := by
    obtain ⟨r', hr', hrest⟩ := h.registered c cih id hc hid
    exact ⟨r', List.mem_append_left _ hr', hrest⟩
  pending := h.pending

/-! ## The handlers, for any client -/

/-- Nothing of the disk request of the operation is left out when its first piece is scheduled. -/
def Env.whole (env : Env) (id : ℕ) : Bool :=
  match env.aio id with
  | some (_ + 1) => false
  | _ => true

theorem Env.not_dropped (h : env.whole op.id = true) {i : ℕ} : env.aio op.id ≠ some (i + 1) := by
  intro he
  simp [Env.whole, he] at h

theorem scheduleRead_ledger {rop : ReadOp} {cmd : ReadOp → DiskCmd} (ha : env.whole op.id = true)
    (hl : Ledger (op.signal :: hand) st) (hcmd : ∀ rop, cmd rop = .read c rop)
    (h : scheduleRead env st c op rop cmd = some (st', res)) :
    (res < 0 ∧ st' = st) ∨ (0 ≤ res ∧ Ledger hand st') := by
  rcases scheduleRead_cases h with herr | ⟨⟨i, hi⟩, -⟩ | ⟨cih, checksums, offset, n, rop', -, -, -, rfl, rfl⟩
  · exact .inl herr
  · exact absurd hi (Env.not_dropped ha)
  · refine .inr ⟨le_rfl, Ledger.enqueue ?_ ?_⟩
    · simpa [DiskRequest.owes, hcmd] using hl
    · simp [DiskRequest.Fits, hcmd]

/-- A write either fails, and is still in hand, or the disk owes it. -/
theorem WriteChunk_ledger (ha : env.whole op.id = true) (hl : Ledger (.write op.id :: op.signal :: hand) st)
    (hw : w.Forwarded) (hr : ∀ rop, w.rop = some rop → 0 ≤ rop.status ∨ st.mChunkTable w.chunkId = none)
    (hfresh : w.rop = none → Signal.readBlock op.id ∉ st.issued) (hid : op.id < st.nextOp)
    (h : WriteChunk env st op w = some (st', res)) : (res < 0 ∧ st' = st) ∨ (0 ≤ res ∧ Ledger hand st') := by
  cases WriteChunk_cases h with
  | error hneg => exact .inl ⟨hneg, rfl⟩
  | dropped hd _ => exact absurd hd (Env.not_dropped ha)
  | queued hc hk h0 hi hstatus hu =>
    obtain ⟨dataBuf, checksums, rfl⟩ := writeImage_same hi
    refine .inr ⟨Int.natCast_nonneg _, Ledger.calm ?_ (UpdateChecksums_calm ?_ hu)⟩
    rotate_left
    · exact hc
    refine Ledger.enqueue hl ?_
    rintro p hp hf
    obtain ⟨p', hp', rfl⟩ := Option.map_eq_some_iff.mp hp
    exact hw p' hp' hf
  | reading hc hk h0 hi hread =>
    have hrop : (sized w).rop = none := writeImage_rop.2 hi
    refine .inr ⟨le_rfl, Ledger.enqueue (Ledger.start hl (fun _ => hfresh hrop) hid) ⟨?_, hw⟩⟩
    obtain ⟨-, -, -, -, -, m, rfl⟩ := ReadChunk_spec hread
    rfl
  | failed hc hk hi =>
    obtain ⟨rop, hrop, hneg⟩ : ∃ rop, (sized w).rop = some rop ∧ rop.status < 0 := writeImage_rop.1 hi
    rcases hr rop hrop with hpos | hnone
    · exact absurd hpos (not_le.mpr hneg)
    · simp [hnone] at hc

/-- The client takes an operation out of the hands of a handler. -/
def Settles (Submit : Submitter) : Prop := ∀ {hand st op status st'}, Ledger (KfsOp.signal op :: hand) st →
  Submit st op status = some st' → Ledger hand st'

variable {Submit : Submitter} (hS : Settles Submit)

include hS

theorem WritePrepareOp.HandleDone_ledger (hl : Ledger (op.signal :: hand) st) (hp : p.writeFwdOp = true → 1 ≤ p.numDone)
    (h : WritePrepareOp.HandleDone Submit st op p status = some st') : Ledger hand st' := by
  unfold WritePrepareOp.HandleDone at h
  dsimp only at h
  rw [if_pos] at h
  · exact hS hl h
  · by_cases hf : p.writeFwdOp = true
    · have := hp hf
      exact .inr (by omega)
    · exact .inl (by simpa using hf)

/-- The end of a handler that gives the operation back if something has failed. -/
theorem giveBack_ledger (hres : (res < 0 ∧ st₁ = st) ∨ (0 ≤ res ∧ Ledger hand st₁)) (hl : Ledger (op.signal :: hand) st)
    (h : (if res < 0 then Submit st₁ op res else some st₁) = some st') : Ledger hand st' := by
  rcases hres with ⟨hneg, rfl⟩ | ⟨hpos, hl'⟩
  · rw [if_pos hneg] at h
    exact hS hl h
  · rw [if_neg (not_lt.mpr hpos)] at h
    exact Option.some.inj h ▸ hl'

theorem WriteOp.Execute_ledger (ha : env.whole op.id = true) (hl : Ledger (.write op.id :: op.signal :: hand) st)
    (hw : w.Forwarded) (hr : ∃ rop, w.rop = some rop ∧ (0 ≤ rop.status ∨ st.mChunkTable w.chunkId = none))
    (hid : op.id < st.nextOp)
    (h : WriteOp.Execute Submit env st op w = some st') : Ledger hand st' := by
  obtain ⟨rop, hrop, hstat⟩ := hr
  unfold WriteOp.Execute at h
  cases hc : WriteChunk env st op w with
  | none => simp [hc] at h
  | some r =>
    obtain ⟨st₁, res⟩ := r
    simp only [hc] at h
    have hres := WriteChunk_ledger ha hl hw (fun rop' h' => by
      rw [hrop] at h'
      exact Option.some.inj h' ▸ hstat) (fun h' => by simp [hrop] at h') hid hc
    rcases hres with ⟨hneg, rfl⟩ | ⟨hpos, hl'⟩
    · rw [if_pos hneg] at h
      cases hp : w.wpop with
      | none => simp [hp] at h
      | some p =>
        simp only [hp] at h
        exact WritePrepareOp.HandleDone_ledger hS hl.complete (hw p hp) h
    · rw [if_neg (not_lt.mpr hpos)] at h
      exact Option.some.inj h ▸ hl'

theorem WriteOp.HandleWriteDone_ledger {n : Option ℕ} (hl : Ledger (.write op.id :: op.signal :: hand) st)
    (hw : w.Forwarded) (h : WriteOp.HandleWriteDone Submit st op w n = some st') : Ledger hand st' := by
  unfold WriteOp.HandleWriteDone at h
  cases hp : w.wpop with
  | none =>
    cases n with
    | none => simp [hp] at h
    | some n =>
      simp only [hp] at h
      exact hS hl.complete h
  | some p =>
    cases n with
    | none =>
      simp only [hp] at h
      exact WritePrepareOp.HandleDone_ledger hS hl.complete (hw p hp) h
    | some n =>
      simp only [hp] at h
      have hcalm : Calm st (if n = w.numBytesIO then { st with written := op.id :: st.written } else st) := by
        split_ifs
        · exact ⟨rfl, rfl, rfl, rfl, rfl, Calm.refl.reading⟩
        · exact .refl
      exact WritePrepareOp.HandleDone_ledger hS (hl.calm hcalm).complete (hw p hp) h

omit hS in
theorem SetWriteStatus_calm {writeId : ℤ} : Calm st (SetWriteStatus st writeId status) :=
  ⟨rfl, rfl, rfl, rfl, rfl, Calm.refl.reading⟩

theorem WritePrepareOp.startWrite_ledger {writeId : ℤ} (ha : env.whole op.id = true)
    (hl : Ledger (op.signal :: hand) st)
    (hp : p.writeFwdOp = true → 1 ≤ p.numDone)
    (hfresh : Signal.write op.id ∉ st.issued ∧ Signal.readBlock op.id ∉ st.issued)
    (hid : op.id < st.nextOp) (h : WritePrepareOp.startWrite Submit env st op p writeId = some st') :
    Ledger hand st' := by
  unfold WritePrepareOp.startWrite at h
  cases hclone : CloneWriteOp st writeId with
  | none => simp [hclone] at h
  | some w =>
    simp only [hclone] at h
    have hrop : w.rop = none := by
      unfold CloneWriteOp at hclone
      split at hclone
      · cases hclone
      · split_ifs at hclone
        exact Option.some.inj hclone ▸ rfl
    split at h
    · cases h
    · rename_i st₁ res hc
      have hl' : Ledger (.write op.id :: op.signal :: hand) (issue st (.write op.id)) :=
        hl.start (fun _ => hfresh.1) hid
      have hres := WriteChunk_ledger ha hl' (by
          intro p' hp'
          obtain rfl := Option.some.inj hp'
          exact hp) (fun rop hr => by simp [hrop] at hr) (fun _ hm => by
          rcases List.mem_cons.mp hm with he | hm
          · cases he
          · exact hfresh.2 hm) hid hc
      rcases hres with ⟨hneg, rfl⟩ | ⟨hpos, hl₁⟩
      · rw [if_pos hneg] at h
        exact hS hl'.complete h
      · rw [if_neg (not_lt.mpr hpos)] at h
        exact Option.some.inj h ▸ hl₁

theorem WritePrepareOp.Execute_ledger (ha : env.whole op.id = true) (hl : Ledger (op.signal :: hand) st)
    (hp : p.writeFwdOp = false) (hfresh : Signal.write op.id ∉ st.issued ∧ Signal.readBlock op.id ∉ st.issued)
    (hid : op.id < st.nextOp) (h : WritePrepareOp.Execute Submit env st op p = some st') : Ledger hand st' := by
  unfold WritePrepareOp.Execute at h
  dsimp only at h
  split at h
  · cases h
  · split_ifs at h
    · exact hS hl h
    · exact hS hl h
    · exact hS hl h
    · exact hS (hl.calm SetWriteStatus_calm) h
    · exact hS (hl.calm SetWriteStatus_calm) h
    · exact startWrite_ledger hS ha hl (fun _ => Nat.le_add_left 1 _) hfresh hid h
    · exact startWrite_ledger hS ha hl (fun hf => by simp [hp] at hf) hfresh hid h

theorem Replicator.HandleReadDone_ledger (ha : env.whole op.id = true) (hl : Ledger (op.signal :: hand) st)
    (hfresh : Signal.write op.id ∉ st.issued ∧ Signal.readBlock op.id ∉ st.issued)
    (hid : op.id < st.nextOp) (h : Replicator.HandleReadDone Submit env st op w = some st') : Ledger hand st' := by
  unfold Replicator.HandleReadDone at h
  split at h
  · cases h
  · rename_i st₁ res hc
    have hl' : Ledger (.write op.id :: op.signal :: hand) (issue st (.write op.id)) := hl.start (fun _ => hfresh.1) hid
    have hres := WriteChunk_ledger ha hl' (fun p' hp' => by cases hp') (fun rop hr => by cases hr) (fun _ hm => by
      rcases List.mem_cons.mp hm with he | hm
      · cases he
      · exact hfresh.2 hm) hid hc
    rcases hres with ⟨hneg, rfl⟩ | ⟨hpos, hl₁⟩
    · rw [if_pos hneg] at h
      exact hS hl'.complete h
    · rw [if_neg (not_lt.mpr hpos)] at h
      exact Option.some.inj h ▸ hl₁

/-! ### Metadata -/

omit hS in
/-- Metadata is written for an operation, or not at all. -/
theorem WriteChunkMetadata_ledger (hl : Ledger (op.signal :: hand) st) (hop : op.cmd.commits = true)
    (h : WriteChunkMetadata env st c op = some (st', res)) :
    (res < 0 ∧ st' = st) ∨ (0 ≤ res ∧ Ledger hand st') := by
  unfold WriteChunkMetadata at h
  split at h
  · simp only [Option.some.injEq, Prod.mk.injEq] at h
    exact .inl ⟨by rw [← h.2]; decide, h.1.symm⟩
  · split_ifs at h
    · simp only [Option.some.injEq, Prod.mk.injEq] at h
      exact .inl ⟨by rw [← h.2]; decide, h.1.symm⟩
    · simp only [Option.some.injEq, Prod.mk.injEq] at h
      exact .inl ⟨by rw [← h.2]; decide, h.1.symm⟩
    · simp only [Option.some.injEq, Prod.mk.injEq] at h
      obtain ⟨rfl, rfl⟩ := h
      refine .inr ⟨le_rfl, Ledger.enqueue ?_ hop⟩
      exact hl

theorem writeMetadata_ledger (hl : Ledger (op.signal :: hand) st) (hop : op.cmd.commits = true)
    (h : writeMetadata Submit env st op c = some st') : Ledger hand st' := by
  unfold writeMetadata at h
  split at h
  · cases h
  · rename_i st₁ res hw
    exact giveBack_ledger hS (WriteChunkMetadata_ledger hl hop hw) hl h

/-- Every operation goes on after the metadata read; an allocation that has to create the chunk must be able to. -/
theorem HandleChunkMetaReadDone_ledger (ha : env.whole op.id = true)
    (hcreate : op.cmd.isAlloc = true → env.create = true)
    (hop : op.cmd.loads = true) (hl : Ledger (op.signal :: hand) st)
    (h : HandleChunkMetaReadDone Submit env st op res = some st') : Ledger hand st' := by
  unfold HandleChunkMetaReadDone at h
  cases hcmd : op.cmd with
  | allocChunk c v leaseId =>
    simp only [hcmd] at h
    have halloc : ∀ {st}, (AllocChunk env st c v).2 = 0 := by
      intro st
      unfold AllocChunk
      split
      · rfl
      · rw [if_pos (hcreate (by simp [Cmd.isAlloc, hcmd]))]
    unfold AllocChunkOp.HandleChunkMetaReadDone at h
    dsimp only at h
    rw [halloc, if_neg (lt_irrefl 0)] at h
    dsimp only at h
    have hcalm : ∀ {st : Cs}, Calm st (if leaseId ≥ 0 then RegisterLease env st c else st) := by
      intro st
      split_ifs
      · exact ⟨rfl, rfl, rfl, rfl, rfl, Calm.refl.reading⟩
      · exact .refl
    exact writeMetadata_ledger hS ((hl.calm AllocChunk_calm).calm hcalm) (by simp [Cmd.commits, hcmd]) h
  | read c rop =>
    simp only [hcmd] at h
    split_ifs at h
    · exact hS hl h
    · unfold ReadOp.HandleChunkMetaReadDone at h
      split at h
      · cases h
      · rename_i st₁ res₁ hs
        exact giveBack_ledger hS (scheduleRead_ledger ha hl (fun _ => rfl) hs) hl h
  | getChunkMetadata c =>
    simp only [hcmd] at h
    unfold GetChunkMetadataOp.HandleChunkMetaReadDone at h
    split_ifs at h
    · exact hS hl h
    · split at h <;> exact hS hl h
  | truncateChunk c size =>
    simp only [hcmd] at h
    split_ifs at h with hneg
    · exact hS hl h
    · unfold TruncateChunkOp.HandleChunkMetaReadDone at h
      split at h
      · cases h
      · rename_i st₁ res₁ ht
        have hl₁ := hl.calm (TruncateChunk_calm ht)
        split_ifs at h
        · exact hS hl₁ h
        · exact writeMetadata_ledger hS hl₁ (by simp [Cmd.commits, hcmd]) h
  | changeChunkVers c v =>
    simp only [hcmd] at h
    split_ifs at h with hneg
    · exact hS hl h
    · unfold ChangeChunkVersOp.HandleChunkMetaReadDone at h
      have hl₁ := hl.calm (ChangeChunkVers_calm (c := c) (v := v))
      dsimp only at h
      split_ifs at h
      · exact hS hl₁ h
      · exact writeMetadata_ledger hS hl₁ (by simp [Cmd.commits, hcmd]) h
  | writePrepare p => simp [Cmd.loads, hcmd] at hop
  | writeSync s => simp [Cmd.loads, hcmd] at hop
  | replicate w => simp [Cmd.loads, hcmd] at hop
  | other => simp [Cmd.loads, hcmd] at hop

omit hS in
theorem isReadMeta_iff {id : ℕ} : DiskRequest.isReadMeta id r = true ↔
    r.clnt.id = id ∧ ∃ c waiters, r.cmd = .readMeta c waiters := by
  unfold DiskRequest.isReadMeta
  cases r.cmd <;> simp

omit hS in
theorem signal_of_loads (h : op.cmd.loads = true) : op.signal = .op op.id := by
  unfold KfsOp.signal
  cases hc : op.cmd <;> simp [hc, Cmd.loads] at h ⊢

omit hS in
/-- A metadata read for operation `id` owes that operation. -/
theorem countP_readMeta_le (id : ℕ) : ∀ {l : List DiskRequest}, (∀ r ∈ l, r.Fits) →
    l.countP (DiskRequest.isReadMeta id) ≤ (l.flatMap DiskRequest.owes).count (.op id)
  | [], _ => le_rfl
  | r :: l, hf => by
    have ih := countP_readMeta_le id fun r' hr' => hf r' (List.mem_cons_of_mem _ hr')
    rw [List.countP_cons, List.flatMap_cons, List.count_append]
    by_cases hr : DiskRequest.isReadMeta id r = true
    · obtain ⟨rfl, c, waiters, hcmd⟩ := isReadMeta_iff.mp hr
      have hfit := hf r List.mem_cons_self
      unfold DiskRequest.Fits at hfit
      rw [hcmd] at hfit
      have hone : 1 ≤ r.owes.count (.op r.clnt.id) := by
        rw [List.one_le_count_iff]
        unfold DiskRequest.owes
        rw [hcmd, ← signal_of_loads (hfit r.clnt List.mem_cons_self)]
        exact List.mem_cons_self
      rw [if_pos hr]
      omega
    · rw [if_neg hr]
      omega

omit hS in
/-- Each metadata read for operation `id` owes one operation more. -/
theorem count_addWaiter (id : ℕ) (cb : KfsOp) : ∀ l : List DiskRequest,
    ((l.map fun r => if DiskRequest.isReadMeta id r then DiskRequest.addWaiter cb r else r).flatMap
        DiskRequest.owes).count s =
      (l.flatMap DiskRequest.owes).count s + l.countP (DiskRequest.isReadMeta id) * [cb.signal].count s
  | [] => by simp
  | r :: l => by
    have ih := count_addWaiter id cb l
    rw [List.map_cons, List.flatMap_cons, List.flatMap_cons, List.count_append, List.count_append, List.countP_cons, ih]
    by_cases hr : DiskRequest.isReadMeta id r = true
    · obtain ⟨-, c, waiters, hcmd⟩ := isReadMeta_iff.mp hr
      have howes : (DiskRequest.addWaiter cb r).owes = r.owes ++ [cb.signal] := by
        simp [DiskRequest.addWaiter, DiskRequest.owes, hcmd]
      rw [if_pos hr, if_pos hr, howes, List.count_append, Nat.succ_mul]
      omega
    · rw [if_neg hr, if_neg hr, Nat.add_zero]
      omega

omit hS in
theorem AddWaiter_ledger {cih : ChunkInfoHandle} {id : ℕ} (hc : st.mChunkTable c = some cih)
    (hid : cih.readChunkMetaOp = some id) (hop : op.cmd.loads = true) (hl : Ledger (op.signal :: hand) st) :
    Ledger hand (AddWaiter st id op) := by
  obtain ⟨r, hr, hrid, waiters, hcmd⟩ := hl.registered c cih id hc hid
  have hmem : ∀ r' ∈ (AddWaiter st id op).disk, ∃ r ∈ st.disk,
      r' = if DiskRequest.isReadMeta id r then DiskRequest.addWaiter op r else r := by
    intro r' hr'
    obtain ⟨r, hr, rfl⟩ := List.mem_map.mp hr'
    exact ⟨r, hr, rfl⟩
  -- there is exactly one such read
  have hone : st.disk.countP (DiskRequest.isReadMeta id) = 1 := by
    have hle := countP_readMeta_le id hl.fits
    have hb := hl.balanced (.op id) rfl
    have ho := hl.once (.op id) rfl
    have hpos : 0 < st.disk.countP (DiskRequest.isReadMeta id) :=
      List.countP_pos_iff.mpr ⟨r, hr, isReadMeta_iff.mpr ⟨hrid, c, waiters, hcmd⟩⟩
    unfold Cs.owed at hb
    omega
  refine ⟨fun s hs => ?_, hl.once, hl.fresh, fun r' hr' => ?_, fun c' cih' id' hc' hid' => ?_, hl.pending⟩
  · have hb := hl.balanced s hs
    have ho : (AddWaiter st id op).owed.count s = st.owed.count s + [op.signal].count s := by
      unfold Cs.owed AddWaiter
      rw [count_addWaiter, hone, Nat.one_mul]
    change (st.signals.map Prod.fst).count s + (AddWaiter st id op).owed.count s + hand.count s = st.issued.count s
    rw [List.count_cons] at hb
    rw [ho, List.count_singleton]
    omega
  · obtain ⟨r, hr, rfl⟩ := hmem r' hr'
    split_ifs with hm
    · obtain ⟨-, c, waiters, hcmd⟩ := isReadMeta_iff.mp hm
      have hfit := hl.fits r hr
      simp only [DiskRequest.Fits, DiskRequest.addWaiter, hcmd] at hfit ⊢
      intro op' hop'
      rw [← List.cons_append, List.mem_append, List.mem_singleton] at hop'
      rcases hop' with h | rfl
      · exact hfit op' h
      · exact hop
    · exact hl.fits r hr
  · obtain ⟨r, hr, hrid, waiters, hcmd⟩ := hl.registered c' cih' id' hc' hid'
    refine ⟨_, List.mem_map_of_mem hr, ?_⟩
    split_ifs
    · simp only [DiskRequest.addWaiter, hcmd]
      exact ⟨hrid, _, rfl⟩
    · exact ⟨hrid, waiters, hcmd⟩

omit hS in
/-- A metadata read is queued and registered. -/
theorem registerRead_ledger {cih : ChunkInfoHandle} {n : ℕ} (hop : op.cmd.loads = true)
    (hl : Ledger (op.signal :: hand) st) :
    Ledger hand (queue (setEntry st c (some { cih with readChunkMetaOp := some op.id }))
      ⟨op, .readMeta c [], cih.file, 0, n, none⟩) := by
  have hq : Ledger hand (queue st ⟨op, .readMeta c [], cih.file, 0, n, none⟩) := by
    refine Ledger.enqueue hl ?_
    intro op' hop'
    rw [List.mem_singleton.mp hop']
    exact hop
  refine ⟨hq.balanced, hq.once, hq.fresh, hq.fits, fun c' cih' id' hc' hid' => ?_, hq.pending⟩
  change Function.update st.mChunkTable c _ c' = some cih' at hc'
  by_cases he : c' = c
  · subst he
    rw [Function.update_self] at hc'
    rw [← Option.some.inj hc'] at hid'
    exact ⟨_, List.mem_append_right _ List.mem_cons_self, Option.some.inj hid', [], rfl⟩
  · rw [Function.update_of_ne he] at hc'
    exact hq.registered c' cih' id' hc' hid'

/-- The metadata of the chunk is there, is being read, or its read can be scheduled when the file can be opened. -/
def Cs.readable (env : Env) (st : Cs) (id c : ℕ) : Bool :=
  match st.mChunkTable c with
  | none => true
  | some cih => AreChecksumsLoaded cih || cih.readChunkMetaOp.isSome || !env.connect id || env.aio id ≠ some 0

theorem loadMetadata_ledger (ha : env.whole op.id = true) (hcreate : op.cmd.isAlloc = true → env.create = true)
    (hop : op.cmd.loads = true)
    (hread : Cs.readable env st op.id c = true) (hl : Ledger (op.signal :: hand) st)
    (h : loadMetadata Submit env st op c = some st') : Ledger hand st' := by
  have hneg : ¬ (0 : ℤ) < 0 := lt_irrefl 0
  unfold loadMetadata ReadChunkMetadata at h
  unfold Cs.readable at hread
  cases hc : st.mChunkTable c with
  | none =>
    simp only [hc] at h
    exact hS hl h
  | some cih =>
    simp only [hc] at h hread
    by_cases hload : AreChecksumsLoaded cih = true
    · rw [if_pos hload] at h
      cases hh : HandleChunkMetaReadDone Submit env st op 0 with
      | none => simp [hh] at h
      | some st₁ =>
        simp only [hh, Option.map_some, hneg, if_false] at h
        exact Option.some.inj h ▸ HandleChunkMetaReadDone_ledger hS ha hcreate hop hl hh
    rw [if_neg hload] at h
    cases hm : cih.readChunkMetaOp with
    | some id =>
      simp only [hm, hneg, if_false] at h
      exact Option.some.inj h ▸ AddWaiter_ledger hc hm hop hl
    | none =>
      simp only [hm] at h
      by_cases hconn : (!env.connect op.id) = true
      · simp only [hconn, if_true] at h
        exact hS hl h
      · rw [if_neg hconn] at h
        have haio : env.aio op.id ≠ some 0 := by simpa [hload, hm, hconn] using hread
        simp only [haio, if_false, hneg] at h
        exact Option.some.inj h ▸ registerRead_ledger hop hl

end Kfs.Chunk
