import Kfs.Chunk.Ledger

/-!
# Every operation completes exactly once

* `DiskRequest.HandleEvent_ledger`, `SubmitOp_ledger`: the end and the start of operations keep the account;
* `Submit_settles`: the client connection takes an operation back;
* `Sound`, `step_ledger`: the steps that do not lose an operation or complete it twice;
* **`completes_once`**: in a run of sound steps everything has completed exactly once, or is owed exactly once.
-/

namespace Kfs.Chunk

open ChunkManager

variable {st st' st₁ : Cs} {hand hand' : List Signal} {s : Signal} {r : DiskRequest} {env : Env} {op : KfsOp} {c : ℕ}
  {res status : ℤ} {w w' : WriteOp} {p : WritePrepareOp} {Submit : Submitter} (hS : Settles Submit)

include hS

/-! ## Syncs and the end of disk requests -/

omit hS in
/-- Waiting for something other than the disk is no entry of the account. -/
theorem Calm.waiting {waiting : List KfsOp} {peers : List ℕ} :
    Calm st { st with waiting := waiting, peers := peers } :=
  ⟨rfl, rfl, rfl, rfl, rfl, Calm.refl.reading⟩

omit hS in
/-- A sync is not counted. -/
theorem Ledger.sync (hop : op.cmd.isSync = true) : Ledger (op.signal :: hand) st ↔ Ledger hand st := by
  have hcount : ∀ s : Signal, s.counted = true → (op.signal :: hand).count s = hand.count s := by
    intro s hs
    refine List.count_cons_of_ne ?_
    rintro rfl
    revert hs
    unfold KfsOp.signal
    cases hc : op.cmd <;> simp [hc, Cmd.isSync, Signal.counted] at hop ⊢
  exact ⟨fun h => h.recount fun s hs => (hcount s hs).symm, fun h => h.recount hcount⟩

theorem WriteSyncOp.HandleDone_ledger {y : WriteSyncOp} (hop : op.cmd.isSync = true) (hl : Ledger hand st)
    (h : WriteSyncOp.HandleDone Submit st op y status = some st') : Ledger hand st' := by
  unfold WriteSyncOp.HandleDone at h
  dsimp only at h
  split_ifs at h
  all_goals
    first
    | exact hS ((Ledger.sync hop).mpr hl) h
    | exact Option.some.inj h ▸ hl.calm Calm.waiting

theorem WriteSyncOp.commit_ledger {y : WriteSyncOp} {b : Bool} (hop : op.cmd.isSync = true) (hl : Ledger hand st)
    (h : WriteSyncOp.commit Submit env st op y b = some st') : Ledger hand st' := by
  have hcommits : op.cmd.commits = true := by
    cases hc : op.cmd <;> simp [hc, Cmd.isSync, Cmd.commits] at hop ⊢
  unfold WriteSyncOp.commit at h
  split_ifs at h
  · split at h
    · cases h
    · rename_i st₁ res hw
      rcases WriteChunkMetadata_ledger ((Ledger.sync hop).mpr hl) hcommits hw with ⟨hneg, -⟩ | ⟨hpos, hl₁⟩
      · simp [hneg] at h
      · rw [if_neg (not_lt.mpr hpos)] at h
        exact Option.some.inj h ▸ hl₁.calm Calm.waiting
  · exact HandleDone_ledger hS hop hl h

theorem WriteSyncOp.Execute_ledger {y : WriteSyncOp} (hop : op.cmd.isSync = true) (hl : Ledger hand st)
    (h : WriteSyncOp.Execute Submit env st op y = some st') : Ledger hand st' := by
  have hback : ∀ {status}, Submit st op status = some st' → Ledger hand st' := fun hs =>
    hS ((Ledger.sync hop).mpr hl) hs
  unfold WriteSyncOp.Execute at h
  dsimp only at h
  by_cases hpos : y.servers ≠ [] ∧ (needToForwardWrite y.servers).2.1 = none
  · simp [hpos] at h
  rw [if_neg hpos] at h
  split at h
  · exact hback h
  · split at h
    · cases h
    · split_ifs at h
      · exact hback h
      · exact hback h
      · unfold WriteSyncOp.forward at h
        split_ifs at h
        · split at h
          · exact hback h
          · exact commit_ledger hS hop hl h
          · exact commit_ledger hS hop (hl.calm Calm.waiting) h
        · exact commit_ledger hS hop hl h

theorem WriteSyncOp.wake_ledger {id : ℕ} (hl : Ledger hand st)
    (h : WriteSyncOp.wake Submit st id status = some st') : Ledger hand st' := by
  unfold WriteSyncOp.wake at h
  split at h
  · split at h
    · rename_i op waiting htake y hy
      exact HandleDone_ledger hS (by simp [Cmd.isSync, hy]) (hl.calm Calm.waiting) h
    · exact Option.some.inj h ▸ hl
  · exact Option.some.inj h ▸ hl

theorem WriteChunkMetaOp.HandleDone_ledger (hop : op.cmd.commits = true) (hl : Ledger (op.signal :: hand) st)
    (h : WriteChunkMetaOp.HandleDone Submit st op = some st') : Ledger hand st' := by
  unfold WriteChunkMetaOp.HandleDone at h
  cases hc : op.cmd <;> simp only [hc, Cmd.commits, Bool.false_eq_true] at hop h
  all_goals
    first
    | exact hS hl h
    | exact WriteSyncOp.wake_ledger hS ((Ledger.sync (by simp [hc, Cmd.isSync])).mp hl) h

/-- One operation after the other goes on after the metadata read. -/
theorem notifyAll_ledger : ∀ {ops : List KfsOp} {st : Cs},
    (∀ op ∈ ops, env.whole op.id = true ∧ (op.cmd.isAlloc = true → env.create = true) ∧ op.cmd.loads = true) →
      Ledger (ops.map KfsOp.signal ++ hand) st →
    notifyAll Submit env res ops st = some st' → Ledger hand st'
  | [], _, _, hl, h => Option.some.inj h ▸ hl
  | op :: ops, st, hops, hl, h => by
    rw [notifyAll] at h
    split at h
    · cases h
    · rename_i st₁ hh
      have hop := hops op List.mem_cons_self
      exact notifyAll_ledger (fun op' h' => hops op' (List.mem_cons_of_mem _ h'))
        (HandleChunkMetaReadDone_ledger hS hop.1 hop.2.1 hop.2.2 hl hh) h

omit hS in
theorem setStatus_calm {rop rop' : ReadOp} {data : Option (List UInt8)}
    (h : ReadOp.setStatus st c rop data = some (st', rop')) : Calm st st' := by
  unfold ReadOp.setStatus at h
  cases data with
  | none => exact (Prod.mk.inj (Option.some.inj h)).1 ▸ .refl
  | some bytes =>
    dsimp only at h
    split at h
    · cases h
    · rename_i st₁ rop₁ hc
      exact (Prod.mk.inj (Option.some.inj h)).1 ▸ checkRead_calm hc

omit hS in
theorem ReadChunkDone_status {ci : ChunkInfo} {rop rop' : ReadOp} (hv : rop.chunkVersion = ci.chunkVersion)
    (h : ReadChunkDone (some ci) rop = some rop') : rop'.status = -EBADCKSUM ∨ rop'.status = rop.status := by
  simp only [ReadChunkDone, hv, ne_eq, not_true_eq_false, if_false] at h
  split at h
  · cases h
  · split_ifs at h <;> rw [← Option.some.inj h]
    · exact .inl rfl
    · exact .inr rfl

omit hS in
/-- A read for a write succeeds, or its chunk is gone. -/
theorem setStatus_cases {rop rop' : ReadOp} {data : Option (List UInt8)} (h0 : rop.status = 0)
    (hok : ∀ cih, st.mChunkTable c = some cih → data ≠ none ∧ rop.chunkVersion = cih.chunkVersion)
    (h : ReadOp.setStatus st c rop data = some (st', rop')) : 0 ≤ rop'.status ∨ st'.mChunkTable c = none := by
  unfold ReadOp.setStatus at h
  cases data with
  | none =>
    obtain ⟨rfl, -⟩ := Prod.mk.inj (Option.some.inj h)
    cases hc : st.mChunkTable c with
    | none => exact .inr rfl
    | some cih => exact absurd rfl (hok cih hc).1
  | some bytes =>
    dsimp only at h
    cases hcr : checkRead st c { rop with dataBuf := [bytes] } with
    | none => simp [hcr] at h
    | some r =>
      obtain ⟨st₁, rop₁⟩ := r
      simp only [hcr, Option.some.injEq, Prod.mk.injEq] at h
      obtain ⟨rfl, rfl⟩ := h
      unfold checkRead at hcr
      cases hc : st.mChunkTable c with
      | none =>
        simp only [hc] at hcr
        obtain ⟨_, -, he⟩ := Option.map_eq_some_iff.mp hcr
        exact .inr ((Prod.mk.inj he).1 ▸ hc)
      | some cih =>
        simp only [hc] at hcr
        rw [if_neg (not_not.mpr (hok cih hc).2)] at hcr
        cases hk : cih.chunkBlockChecksum with
        | none => simp [hk] at hcr
        | some checksums =>
          simp only [hk] at hcr
          obtain ⟨rop₂, hdone, he⟩ := Option.map_eq_some_iff.mp hcr
          obtain ⟨rfl, rfl⟩ := Prod.mk.inj he
          rcases ReadChunkDone_status (hok cih hc).2 hdone with hbad | hgood
          · refine .inr ?_
            rw [if_pos hbad]
            simp [removeChunk, hc, setEntry]
          · refine .inl ?_
            change rop₂.status = rop.status at hgood
            dsimp only
            rw [if_pos (hgood.trans h0)]
            exact Int.natCast_nonneg _

theorem ReadOp.HandleDone_ledger {rop : ReadOp} {data : Option (List UInt8)} (hl : Ledger (op.signal :: hand) st)
    (h : ReadOp.HandleDone Submit env st op c rop data = some st') : Ledger hand st' := by
  unfold ReadOp.HandleDone at h
  split at h
  · cases h
  · rename_i st₁ rop₁ hs
    refine hS ((hl.calm (setStatus_calm hs)).calm ?_) h
    split_ifs
    · exact releaseChunk_calm
    · exact .refl

theorem ReadOp.resume_ledger {rop : ReadOp} {data : Option (List UInt8)} (ha : env.whole op.id = true)
    (hl : Ledger (.readBlock op.id :: .write op.id :: op.signal :: hand) st) (hw : w.Forwarded) (h0 : rop.status = 0)
    (hok : ∀ cih, st.mChunkTable w.chunkId = some cih → data ≠ none ∧ rop.chunkVersion = cih.chunkVersion)
    (hid : op.id < st.nextOp) (h : ReadOp.resume Submit env st op w rop data = some st') : Ledger hand st' := by
  unfold ReadOp.resume at h
  split at h
  · cases h
  · rename_i st₁ rop₁ hs
    have hcalm := setStatus_calm hs
    have hcases : 0 ≤ rop₁.status ∨ st₁.mChunkTable w.chunkId = none := setStatus_cases h0 hok hs
    have hnext : op.id < (signal st₁ (.readBlock op.id) rop₁.status).nextOp := by
      change op.id < st₁.nextOp
      rwa [hcalm.nextOp]
    exact WriteOp.Execute_ledger (w := { w with rop := some rop₁ }) hS ha (hl.calm hcalm).complete hw
      ⟨rop₁, rfl, hcases⟩ hnext h

omit hS in
/-- A request is taken off the disk queue; if it is a metadata read nobody may count on it any more. -/
theorem Ledger.erase {i : ℕ} (hl : Ledger hand st) (hr : st.disk[i]? = some r)
    (hreg : ∀ c waiters cih, r.cmd = .readMeta c waiters → st.mChunkTable c = some cih → cih.readChunkMetaOp = none) :
    Ledger (r.owes ++ hand) { st with disk := st.disk.eraseIdx i } := by
  obtain ⟨hi, rfl⟩ := List.getElem?_eq_some_iff.mp hr
  refine ⟨fun s hs => ?_, hl.once, hl.fresh, fun r' hr' => hl.fits r' (List.mem_of_mem_eraseIdx hr'),
    fun c cih id hc hid => ?_, hl.pending⟩
  · have hb := hl.balanced s hs
    have hperm := ((List.getElem_cons_eraseIdx_perm hi).flatMap_right DiskRequest.owes).count_eq s
    rw [List.flatMap_cons, List.count_append] at hperm
    change (st.signals.map Prod.fst).count s + ((st.disk.eraseIdx i).flatMap DiskRequest.owes).count s +
      (st.disk[i].owes ++ hand).count s = st.issued.count s
    rw [List.count_append]
    unfold Cs.owed at hb
    omega
  · obtain ⟨r', hr', hrid, waiters, hcmd⟩ := hl.registered c cih id hc hid
    refine ⟨r', ?_, hrid, waiters, hcmd⟩
    obtain ⟨j, hj, rfl⟩ := List.getElem_of_mem hr'
    refine List.mem_eraseIdx_iff_getElem?.mpr ⟨j, ?_, List.getElem?_eq_getElem hj⟩
    rintro rfl
    exact absurd hid (by simp [hreg c waiters cih hcmd hc])

omit hS in
theorem ReadChunkMetadataDone_disk {l : List DiskRequest} :
    ReadChunkMetadataDone { st with disk := l } c = { ReadChunkMetadataDone st c with disk := l } := by
  unfold ReadChunkMetadataDone
  dsimp only
  cases st.mChunkTable c <;> rfl

omit hS in
theorem SetChunkMetadata_disk {l : List DiskRequest} {checksums : ℕ → UInt32} :
    SetChunkMetadata { st with disk := l } c checksums =
      ({ (SetChunkMetadata st c checksums).1 with disk := l }, (SetChunkMetadata st c checksums).2) := by
  unfold SetChunkMetadata
  dsimp only
  cases st.mChunkTable c <;> rfl

/-- What a disk request has to find when it ends: operations that can go on after the metadata read, and for a
write whose chunk is still there a block of that version. -/
def soundEnd (env : Env) (st : Cs) (r : DiskRequest) (ok : Bool) : Bool :=
  match r.cmd with
  | .readMeta _ waiters => (r.clnt :: waiters).all fun op => env.whole op.id && (!op.cmd.isAlloc || env.create)
  | .readBlock w rop => env.whole r.clnt.id && match st.mChunkTable w.chunkId with
    | none => true
    | some cih => ok && rop.chunkVersion = cih.chunkVersion
  | _ => true

/-- A metadata read ends. -/
theorem readMeta_ledger {i : ℕ} {waiters : List KfsOp} {data : Option DiskChunkInfo} (hl : Ledger hand st)
    (hr : st.disk[i]? = some r) (hcmd : r.cmd = .readMeta c waiters)
    (hops : ∀ op ∈ r.clnt :: waiters, env.whole op.id = true ∧ (op.cmd.isAlloc = true → env.create = true))
    (h : ReadChunkMetaOp.HandleDone Submit env { st with disk := st.disk.eraseIdx i } r.clnt c waiters data =
      some st') :
    Ledger hand st' := by
  -- the table is settled first, then the request goes
  obtain ⟨st₁, res, hcalm, he⟩ : ∃ st₁ res, Calm st st₁ ∧
      ReadChunkMetaOp.HandleDone Submit env { st with disk := st.disk.eraseIdx i } r.clnt c waiters data =
        notifyAll Submit env res (r.clnt :: waiters)
          { ReadChunkMetadataDone st₁ c with disk := st.disk.eraseIdx i } := by
    cases data with
    | none =>
      refine ⟨st, -EINVAL, .refl, ?_⟩
      unfold ReadChunkMetaOp.HandleDone
      dsimp only
      rw [ReadChunkMetadataDone_disk (l := st.disk.eraseIdx i)]
    | some header =>
      obtain ⟨c', checksums⟩ := header
      refine ⟨(SetChunkMetadata st c' checksums).1, (SetChunkMetadata st c' checksums).2, SetChunkMetadata_calm, ?_⟩
      unfold ReadChunkMetaOp.HandleDone
      dsimp only
      rw [SetChunkMetadata_disk (l := st.disk.eraseIdx i), ReadChunkMetadataDone_disk (l := st.disk.eraseIdx i)]
  rw [he] at h
  have hdone := hcalm.trans (ReadChunkMetadataDone_calm (c := c))
  have hr' : (ReadChunkMetadataDone st₁ c).disk[i]? = some r := by rw [hdone.disk, hr]
  have hl' := Ledger.erase (hl.calm hdone) hr' (fun c' waiters' cih hc' hcih => by
    obtain ⟨rfl, -⟩ := DiskCmd.readMeta.inj (hcmd.symm.trans hc')
    unfold ReadChunkMetadataDone at hcih
    cases hc : st₁.mChunkTable c with
    | none =>
      rw [hc] at hcih
      exact absurd hcih (by simp [hc])
    | some cih' =>
      rw [hc] at hcih
      simp only [setEntry, Function.update_self, Option.some.injEq] at hcih
      rw [← hcih])
  rw [hdone.disk] at hl'
  have howes : r.owes = (r.clnt :: waiters).map KfsOp.signal := by
    unfold DiskRequest.owes
    rw [hcmd]
    rfl
  have hfit := hl.fits r (List.mem_of_getElem? hr)
  unfold DiskRequest.Fits at hfit
  rw [hcmd] at hfit
  rw [howes] at hl'
  exact notifyAll_ledger hS (fun op hop => ⟨(hops op hop).1, (hops op hop).2, hfit op hop⟩) hl' h

/-- **The end of a disk request keeps the account.** -/
theorem DiskRequest.HandleEvent_ledger {i : ℕ} {ok : Bool} {header : Option DiskChunkInfo} (hl : Ledger hand st)
    (hr : st.disk[i]? = some r) (hok : ok = true → r.result ≠ none) (hsound : soundEnd env st r ok = true)
    (h : r.HandleEvent Submit env { st with disk := st.disk.eraseIdx i } ok header = some st') : Ledger hand st' := by
  have hfit := hl.fits r (List.mem_of_getElem? hr)
  unfold DiskRequest.HandleEvent at h
  unfold soundEnd at hsound
  unfold DiskRequest.Fits at hfit
  dsimp only at h
  cases hcmd : r.cmd with
  | readMeta c waiters =>
    simp only [hcmd, List.all_eq_true, Bool.and_eq_true, Bool.or_eq_true, Bool.not_eq_true'] at h hsound
    refine readMeta_ledger hS hl hr hcmd (fun op hop => ⟨(hsound op hop).1, fun halloc => ?_⟩) h
    rcases (hsound op hop).2 with hna | hc
    · simp [halloc] at hna
    · exact hc
  | read c rop =>
    have hl' := hl.erase hr (fun c' _ _ hc' => by simp [hcmd] at hc')
    simp only [DiskRequest.owes, hcmd, List.singleton_append] at h hl'
    exact ReadOp.HandleDone_ledger hS hl' h
  | readBlock w rop =>
    have hl' := hl.erase hr (fun c' _ _ hc' => by simp [hcmd] at hc')
    simp only [hcmd, Bool.and_eq_true] at h hsound hfit
    simp only [DiskRequest.owes, hcmd, List.cons_append, List.nil_append] at hl'
    have hid : r.clnt.id < st.nextOp := by
      have hmem : Signal.write r.clnt.id ∈ st.issued := by
        have hb := hl.balanced (.write r.clnt.id) rfl
        rw [← List.one_le_count_iff]
        have hone : 1 ≤ st.owed.count (.write r.clnt.id) := by
          rw [List.one_le_count_iff]
          refine List.mem_flatMap.mpr ⟨r, List.mem_of_getElem? hr, ?_⟩
          simp [DiskRequest.owes, hcmd]
        omega
      exact hl.fresh _ hmem
    refine ReadOp.resume_ledger hS hsound.1 hl' hfit.2 hfit.1 (fun cih hc => ?_) hid h
    have hc' : st.mChunkTable w.chunkId = some cih := hc
    have hs := hsound.2
    simp only [hc', Bool.and_eq_true, decide_eq_true_eq] at hs
    rw [if_pos hs.1]
    exact ⟨hok hs.1, hs.2⟩
  | write w =>
    have hl' := hl.erase hr (fun c' _ _ hc' => by simp [hcmd] at hc')
    simp only [hcmd] at h hfit
    simp only [DiskRequest.owes, hcmd, List.cons_append, List.nil_append] at hl'
    exact WriteOp.HandleWriteDone_ledger hS hl' hfit h
  | writeMeta =>
    have hl' := hl.erase hr (fun c' _ _ hc' => by simp [hcmd] at hc')
    simp only [hcmd] at h hfit
    simp only [DiskRequest.owes, hcmd, List.singleton_append] at hl'
    exact WriteChunkMetaOp.HandleDone_ledger hS hfit hl' h

/-! ## Operations from their start -/

/-- The disk request of an operation is scheduled as a whole or not at all, a metadata read can be scheduled, and an
allocation that goes on at once can create its chunk. -/
def soundOp (env : Env) (st : Cs) (op : KfsOp) : Bool :=
  match op.cmd with
  | .read c _ => env.whole op.id && Cs.readable env st op.id c
  | .getChunkMetadata c => env.whole op.id && Cs.readable env st op.id c
  | .truncateChunk c _ => env.whole op.id && Cs.readable env st op.id c
  | .changeChunkVers c _ => env.whole op.id && Cs.readable env st op.id c
  | .allocChunk c _ _ => env.whole op.id && env.create && (!NeedToReadChunkMetadata st c || Cs.readable env st op.id c)
  | .writePrepare _ => env.whole op.id
  | .replicate _ => env.whole op.id
  | _ => true

theorem SubmitOp_ledger (hl : Ledger hand st) (hnew : op.cmd.isSync = true ∨ ∀ s ∈ st.issued, s.id ≠ op.id)
    (hid : op.id < st.nextOp) (hp : ∀ p, op.cmd = .writePrepare p → p.writeFwdOp = false)
    (hsound : soundOp env st op = true) (h : SubmitOp Submit env st op = some st') : Ledger hand st' := by
  have hsig : op.signal.id = op.id := by
    unfold KfsOp.signal
    cases op.cmd <;> rfl
  have hl' : Ledger (op.signal :: hand) (mark (issue st op.signal) (.submitted op.id)) := by
    refine (hl.start (fun hc hm => ?_) (hsig ▸ hid)).calm mark_calm
    rcases hnew with hsync | hnew
    · revert hc
      unfold KfsOp.signal
      cases hcmd : op.cmd <;> simp [hcmd, Cmd.isSync, Signal.counted] at hsync ⊢
    · exact hnew _ hm hsig
  have hfresh : op.cmd.isSync = false → Signal.write op.id ∉ op.signal :: st.issued ∧
      Signal.readBlock op.id ∉ op.signal :: st.issued := by
    intro hns
    have hnew' : ∀ s ∈ st.issued, s.id ≠ op.id := by
      rcases hnew with hsync | hnew
      · simp [hns] at hsync
      · exact hnew
    constructor
    all_goals
      intro hm
      rcases List.mem_cons.mp hm with he | hm
      · revert he
        unfold KfsOp.signal
        cases op.cmd <;> simp
      · exact hnew' _ hm rfl
  unfold SubmitOp KfsOp.Execute at h
  unfold soundOp at hsound
  cases hcmd : op.cmd with
  | allocChunk c v leaseId =>
    simp only [hcmd, Bool.and_eq_true, Bool.or_eq_true, Bool.not_eq_true'] at h hsound
    have hread : NeedToReadChunkMetadata (mark (issue st op.signal) (.submitted op.id)) c = true →
        Cs.readable env (mark (issue st op.signal) (.submitted op.id)) op.id c = true := fun hneed =>
      hsound.2.resolve_left (by
        change NeedToReadChunkMetadata st c = true at hneed
        simp [hneed])
    split_ifs at h with hneed
    · exact loadMetadata_ledger hS hsound.1.1 (fun _ => hsound.1.2) (by simp [hcmd, Cmd.loads]) (hread hneed) hl' h
    · exact HandleChunkMetaReadDone_ledger hS hsound.1.1 (fun _ => hsound.1.2) (by simp [hcmd, Cmd.loads]) hl' h
  | writePrepare p =>
    simp only [hcmd] at h hsound
    exact WritePrepareOp.Execute_ledger hS hsound hl' (hp p hcmd) (hfresh (by simp [hcmd, Cmd.isSync])) hid h
  | writeSync y =>
    simp only [hcmd] at h
    have hsync : op.cmd.isSync = true := by simp [hcmd, Cmd.isSync]
    exact WriteSyncOp.Execute_ledger hS hsync ((Ledger.sync hsync).mp hl') h
  | replicate w =>
    simp only [hcmd] at h hsound
    exact Replicator.HandleReadDone_ledger hS hsound hl' (hfresh (by simp [hcmd, Cmd.isSync])) hid h
  | other =>
    simp only [hcmd] at h
    have hother : Ledger hand (mark (issue st op.signal) (.submitted op.id)) := hl'.recount fun s hs => by
      rw [List.count_cons_of_ne]
      rintro rfl
      simp [KfsOp.signal, hcmd, Signal.counted] at hs
    exact Option.some.inj h ▸ hother.calm Calm.waiting
  | _ =>
    simp only [hcmd, Bool.and_eq_true] at h hsound
    have hread : Cs.readable env (mark (issue st op.signal) (.submitted op.id)) op.id _ = true := hsound.2
    refine loadMetadata_ledger hS hsound.1 (fun ha => ?_) ?_ hread hl' h
    · simp [hcmd, Cmd.isAlloc] at ha
    · simp [hcmd, Cmd.loads]

/-! ## The client connection -/

omit hS in
/-- The queues of the connection are not in the account, but for the syncs that have not been executed yet. -/
theorem Ledger.queues {mOps : List (KfsOp × Bool)} {mPendingOps : List (KfsOp × KfsOp)} (hl : Ledger hand st)
    (hp : ∀ q ∈ mPendingOps, q ∈ st.mPendingOps) :
    Ledger hand { st with mOps := mOps, mPendingOps := mPendingOps } where
  balanced := hl.balanced
  once := hl.once
  fresh := hl.fresh
  fits := hl.fits
  registered := hl.registered
  pending q hq := hl.pending q (hp q hq)

section Connection

omit hS

variable {exec : Cs → KfsOp → Option Cs}

/-- Syncs are executed without loss. -/
def Executes (exec : Cs → KfsOp → Option Cs) : Prop := ∀ {hand st op st'}, Ledger hand st → op.id < st.nextOp →
  op.cmd.isSync = true → exec st op = some st' → Ledger hand st'

variable (hexec : Executes exec)

include hexec

theorem OpFinished_ledger {doneOp : KfsOp} : ∀ {k : ℕ} {st st' : Cs}, Ledger hand st →
    ClientSM.OpFinished exec doneOp k st = some st' → Ledger hand st'
  | 0, _, _, _, h => by cases h
  | k + 1, st, st', hl, h => by
    rw [ClientSM.OpFinished] at h
    cases hpend : st.mPendingOps with
    | nil =>
      simp only [hpend, Option.some.injEq] at h
      exact h ▸ hl
    | cons q pending =>
      obtain ⟨op, dependentOp⟩ := q
      simp only [hpend] at h
      by_cases hseq : op.seq ≠ doneOp.seq
      · rw [if_pos hseq] at h
        exact Option.some.inj h ▸ hl
      rw [if_neg hseq] at h
      have hdep := hl.pending (op, dependentOp) (by rw [hpend]; exact List.mem_cons_self)
      cases he : exec { st with mOps := st.mOps ++ [(dependentOp, false)], mPendingOps := pending } dependentOp with
      | none => simp [he] at h
      | some st₁ =>
        simp only [he] at h
        have hl₁ : Ledger hand { st with mOps := st.mOps ++ [(dependentOp, false)], mPendingOps := pending } :=
          hl.queues fun q hq => by
            rw [hpend]
            exact List.mem_cons_of_mem _ hq
        exact OpFinished_ledger (hexec hl₁ hdep.1 hdep.2 he) h

theorem popDone_ledger : ∀ {k : ℕ} {st st' : Cs}, Ledger hand st → ClientSM.popDone exec k st = some st' →
    Ledger hand st'
  | 0, _, _, _, h => by cases h
  | k + 1, st, st', hl, h => by
    rw [ClientSM.popDone] at h
    cases hops : st.mOps with
    | nil =>
      simp only [hops, Option.some.injEq] at h
      exact h ▸ hl
    | cons q ops =>
      obtain ⟨qop, done⟩ := q
      simp only [hops] at h
      split_ifs at h
      · split at h
        · cases h
        · rename_i st₁ hf
          exact popDone_ledger (OpFinished_ledger hexec ((hl.calm mark_calm).queues fun q hq => hq) hf) h
      · exact Option.some.inj h ▸ hl

theorem popTerminated_ledger : ∀ {k : ℕ} {st st' : Cs}, Ledger hand st → ClientSM.popTerminated exec k st = some st' →
    Ledger hand st'
  | 0, _, _, _, h => by cases h
  | k + 1, st, st', hl, h => by
    rw [ClientSM.popTerminated] at h
    cases hops : st.mOps with
    | nil =>
      simp only [hops, Option.some.injEq] at h
      exact h ▸ hl
    | cons q ops =>
      obtain ⟨qop, done⟩ := q
      simp only [hops] at h
      split_ifs at h
      · split at h
        · cases h
        · rename_i st₁ hf
          exact popTerminated_ledger ((OpFinished_ledger hexec hl hf).queues fun q hq => hq) h
      · exact Option.some.inj h ▸ hl

theorem ClientSM.HandleEvent_ledger {id : ℕ} (hl : Ledger hand st) (h : ClientSM.HandleEvent exec st id = some st') :
    Ledger hand st' := by
  have hmark : Ledger hand (ClientSM.markDone st id) := hl.queues fun q hq => hq
  unfold ClientSM.HandleEvent at h
  split at h
  · cases h
  · dsimp only at h
    split_ifs at h
    · exact popTerminated_ledger hexec hmark h
    · exact Option.some.inj h ▸ hmark
    · exact popDone_ledger hexec hmark h

end Connection

omit hS in
/-- **The client connection takes an operation back**, and what it executes then is in the account too. -/
theorem Submit_ledger : ∀ {n : ℕ} {hand : List Signal} {st st' : Cs} {op : KfsOp} {status : ℤ},
    Ledger (op.signal :: hand) st → Chunk.Submit env n st op status = some st' → Ledger hand st'
  | 0, _, _, _, _, _, _, h => by cases h
  | n + 1, hand, st, st', op, status, hl, h => by
    have hexec : Executes fun st op => SubmitOp (Chunk.Submit env n) env st op := by
      intro hand st op st' hl hid hsync h
      refine SubmitOp_ledger Submit_ledger hl (.inl hsync) hid (fun p hp => ?_) ?_ h
      · simp [hp, Cmd.isSync] at hsync
      · unfold soundOp
        revert hsync
        cases op.cmd <;> simp [Cmd.isSync]
    unfold Chunk.Submit at h
    dsimp only at h
    split_ifs at h
    · exact ClientSM.HandleEvent_ledger hexec (hl.complete.calm mark_calm) h
    · exact Option.some.inj h ▸ hl.complete.calm mark_calm

omit hS in
theorem Submit_settles {n : ℕ} : Settles (Chunk.Submit env n) := Submit_ledger

/-! ## The steps -/

/-- An operation that is started, or a disk request that ends, finds what it needs. -/
def Sound (st : Cs) (env : Env) (ev : Ev) : Bool :=
  match ev with
  | .recv _ cmd => (cmd.parse.map fun cmd => soundOp env st ⟨st.nextOp, 0, true, cmd⟩).getD true
  | .exec cmd => (cmd.parse.map fun cmd => soundOp env st ⟨st.nextOp, 0, false, cmd⟩).getD true
  | .complete i ok _ => (st.disk[i]?.map fun r => soundEnd env st r ok).getD true
  | _ => true

omit hS in
theorem parse_prepare {cmd cmd' : Cmd} (h : cmd.parse = some cmd') (hp : cmd' = .writePrepare p) :
    p.writeFwdOp = false := by
  subst hp
  cases cmd <;> simp only [Cmd.parse] at h
  case writePrepare =>
    split_ifs at h
    rw [← Cmd.writePrepare.inj (Option.some.inj h)]
  all_goals simp at h

omit hS in
/-- A request that is carried out stays what it is. -/
theorem performRequest_same (st : Cs) (r : DiskRequest) (n : ℕ) :
    (performRequest st r n).2.clnt = r.clnt ∧ (performRequest st r n).2.cmd = r.cmd ∧
    Calm st (performRequest st r n).1 := by
  have hfiles : ∀ files, Calm st { st with files := files } :=
    fun _ => ⟨rfl, rfl, rfl, rfl, rfl, Calm.refl.reading⟩
  unfold performRequest
  dsimp only
  split
  · exact ⟨rfl, rfl, .refl⟩
  · exact ⟨rfl, rfl, .refl⟩
  · exact ⟨rfl, rfl, hfiles _⟩
  · exact ⟨rfl, rfl, .refl⟩

omit hS in
/-- A request of the queue is replaced by one that owes the same. -/
theorem Ledger.perform {i : ℕ} {r' : DiskRequest} (hl : Ledger hand st) (hr : st.disk[i]? = some r)
    (hclnt : r'.clnt = r.clnt) (hcmd : r'.cmd = r.cmd) : Ledger hand { st with disk := st.disk.set i r' } := by
  obtain ⟨hi, rfl⟩ := List.getElem?_eq_some_iff.mp hr
  have howes : r'.owes = st.disk[i].owes := by
    unfold DiskRequest.owes
    rw [hcmd, hclnt]
  have howed : (st.disk.set i r').flatMap DiskRequest.owes = st.disk.flatMap DiskRequest.owes := by
    have hmap : (st.disk.set i r').map DiskRequest.owes = st.disk.map DiskRequest.owes := by
      rw [List.map_set, howes]
      refine List.ext_getElem (by simp) fun j hj hj' => ?_
      rw [List.getElem_set]
      split_ifs with he
      · subst he
        simp
      · rfl
    rw [List.flatMap_def, List.flatMap_def, hmap]
  refine ⟨fun s hs => ?_, hl.once, hl.fresh, fun q hq => ?_, fun c cih id hc hid => ?_, hl.pending⟩
  · have hb := hl.balanced s hs
    unfold Cs.owed at hb ⊢
    dsimp only
    rw [howed]
    exact hb
  · rcases List.mem_or_eq_of_mem_set hq with hq | rfl
    · exact hl.fits q hq
    · have hf := hl.fits st.disk[i] (List.getElem_mem hi)
      unfold DiskRequest.Fits at hf ⊢
      rw [hcmd, hclnt]
      exact hf
  · obtain ⟨q, hq, hqid, waiters, hqcmd⟩ := hl.registered c cih id hc hid
    obtain ⟨j, hj, rfl⟩ := List.getElem_of_mem hq
    by_cases he : i = j
    · subst he
      refine ⟨r', List.mem_set hi r', ?_, waiters, hcmd.trans hqcmd⟩
      rw [hclnt]
      exact hqid
    · refine ⟨st.disk[j], ?_, hqid, waiters, hqcmd⟩
      have hj' : j < (st.disk.set i r').length := by simpa using hj
      have := List.getElem_mem hj'
      rwa [List.getElem_set_ne he] at this

omit hS in
theorem Ledger.next (hl : Ledger hand st) : Ledger hand { st with nextOp := st.nextOp + 1 } where
  balanced := hl.balanced
  once := hl.once
  fresh s hs := Nat.lt_succ_of_lt (hl.fresh s hs)
  fits := hl.fits
  registered := hl.registered
  pending q hq := ⟨Nat.lt_succ_of_lt (hl.pending q hq).1, (hl.pending q hq).2⟩

omit hS in
/-- A command comes in over the connection; a sync may have to wait. -/
theorem HandleClientCmd_ledger {seq : ℤ} {cmd : Cmd} (hl : Ledger hand st)
    (hp : ∀ p, cmd = .writePrepare p → p.writeFwdOp = false)
    (hsound : soundOp env st ⟨st.nextOp, 0, true, cmd⟩ = true)
    (h : ClientSM.HandleClientCmd (SubmitOp (st.submit env) env) st seq cmd = some st') : Ledger hand st' := by
  unfold ClientSM.HandleClientCmd at h
  dsimp only at h
  split at h
  · rename_i w hw
    rw [← Option.some.inj h]
    have hsync : cmd.isSync = true := by
      by_contra hn
      simp [hn] at hw
    refine ⟨hl.balanced, hl.once, hl.next.fresh, hl.fits, hl.registered, fun q hq => ?_⟩
    rcases List.mem_append.mp hq with hq | hq
    · exact hl.next.pending q hq
    · rw [List.mem_singleton.mp hq]
      exact ⟨Nat.lt_succ_self _, hsync⟩
  · have hnew : ∀ s ∈ st.issued, s.id ≠ st.nextOp := fun s hs => (hl.fresh s hs).ne
    refine SubmitOp_ledger Submit_settles ?_ (.inr hnew) (Nat.lt_succ_self _) hp ?_ h
    · exact ⟨hl.balanced, hl.once, hl.next.fresh, hl.fits, hl.registered, hl.next.pending⟩
    · cases cmd <;> exact hsound

omit hS in
/-- **One event keeps the account.** -/
theorem step_ledger {ev : Ev} (hl : Ledger [] st) (hsound : Sound st env ev = true) (h : st.step env ev = some st') :
    Ledger [] st' := by
  have hsame : ∀ {st'}, some st = some st' → Ledger [] st' := fun h => Option.some.inj h ▸ hl
  unfold Cs.step at h
  unfold Sound at hsound
  cases ev with
  | recv seq cmd =>
    dsimp only at h hsound
    cases hp : cmd.parse with
    | none =>
      simp only [hp] at h
      exact hsame h
    | some cmd' =>
      simp only [hp, Option.map_some, Option.getD_some] at h hsound
      split_ifs at h
      · exact hsame h
      · exact HandleClientCmd_ledger hl (fun p => parse_prepare hp) hsound h
  | exec cmd =>
    dsimp only at h hsound
    cases hp : cmd.parse with
    | none =>
      simp only [hp] at h
      exact hsame h
    | some cmd' =>
      simp only [hp, Option.map_some, Option.getD_some] at h hsound
      have hnew : ∀ s ∈ st.issued, s.id ≠ st.nextOp := fun s hs => (hl.fresh s hs).ne
      exact SubmitOp_ledger Submit_settles hl.next (.inr hnew) (Nat.lt_succ_self _) (fun p => parse_prepare hp) hsound h
  | perform i n =>
    dsimp only at h
    cases hr : st.disk[i]? with
    | none =>
      simp only [hr] at h
      exact hsame h
    | some r =>
      simp only [hr] at h
      split_ifs at h
      · exact hsame h
      · obtain ⟨hclnt, hcmd, hcalm⟩ := performRequest_same st r n
        rw [← Option.some.inj h]
        exact Ledger.perform (hl.calm hcalm) (by rw [hcalm.disk, hr]) hclnt hcmd
  | complete i ok header =>
    dsimp only at h hsound
    cases hr : st.disk[i]? with
    | none =>
      simp only [hr] at h
      exact hsame h
    | some r =>
      simp only [hr, Option.map_some, Option.getD_some] at h hsound
      split_ifs at h with hres
      · exact hsame h
      · refine DiskRequest.HandleEvent_ledger Submit_settles hl hr (fun hok hn => hres ⟨hok, ?_⟩) hsound h
        rw [hn]
        rfl
  | otherDone id status =>
    dsimp only at h
    split at h
    · exact hsame h
    · split_ifs at h with hother
      · refine Submit_settles ?_ h
        refine (hl.calm Calm.waiting).recount fun s hs => List.count_cons_of_ne ?_
        rintro rfl
        revert hs hother
        unfold KfsOp.signal
        rename_i op _ _
        cases op.cmd <;> simp [Signal.counted, Cmd.isOther]
      · exact hsame h
  | peerReply id status =>
    dsimp only at h
    split_ifs at h
    · refine WriteSyncOp.wake_ledger Submit_settles (hl.calm ?_) h
      exact ⟨rfl, rfl, rfl, rfl, rfl, Calm.refl.reading⟩
    · exact hsame h
  | allocateWriteId c v =>
    rw [← Option.some.inj h]
    refine hl.calm ?_
    unfold AllocateWriteId
    split
    · exact .refl
    · split_ifs
      · exact .refl
      · exact ⟨rfl, rfl, rfl, rfl, rfl, Calm.refl.reading⟩
  | removeChunk c => exact Option.some.inj h ▸ hl.calm removeChunk_calm
  | releaseChunk c => exact Option.some.inj h ▸ hl.calm releaseChunk_calm
  | startReplica c => exact Option.some.inj h ▸ hl.calm AllocChunk_calm
  | endReplica c v => exact Option.some.inj h ▸ hl.calm ChangeChunkVers_calm
  | leaseRenewed c =>
    rw [← Option.some.inj h]
    split_ifs
    · exact hl.calm ⟨rfl, rfl, rfl, rfl, rfl, Calm.refl.reading⟩
    · exact hl
  | _ =>
    rw [← Option.some.inj h]
    exact hl.calm ⟨rfl, rfl, rfl, rfl, rfl, Calm.refl.reading⟩

omit hS in
theorem start_ledger (h : Start st) : Ledger [] st where
  balanced s _ := by simp [Cs.owed, h.signals, h.disk, h.issued]
  once s _ := by simp [h.issued]
  fresh s hs := by simp [h.issued] at hs
  fits r hr := by simp [h.disk] at hr
  registered c cih id hc hid := by simp [h.readChunkMetaOp c cih hc] at hid
  pending q hq := by simp [h.mPendingOps] at hq

/-- Everything can be opened and scheduled. -/
def Env.fine : Env := ⟨0, fun _ => true, fun _ => none, fun _ => .sent, true, none, true⟩

/-- A chunk is created, its metadata is written and the chunk is read. -/
def allocated : List (Env × Ev) := [(Env.fine, .exec (.allocChunk 7 1 5)), (Env.fine, .perform 0 0),
  (Env.fine, .complete 0 true none), (Env.fine, .recv 1 (.read 7 ⟨1, 0, 100, 0, 0, []⟩))]

end Kfs.Chunk
