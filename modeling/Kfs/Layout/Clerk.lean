import Kfs.Layout.Leases

/-!
# Leases on both sides

A chunk server keeps the write leases that it has been granted and renews them; the metaserver keeps the record. The
messages between them may be delayed, get lost or come more than once.

* `LeaseClerk.RegisterLease`, `LeaseClerk.HandleReply`, `LeaseClerk.LeaseRenewer`, ...: the chunk server;
* `LeaseMsg`, `LeaseSystem`, `LeaseSystem.step`: the system, under a clock that does not go back;
* `Agreed`, **`lease_agreement`**: a lease that is valid on a chunk server is valid at the metaserver, as long as
  messages arrive in the second in which they were sent.
-/

namespace Kfs

/-- `LeaseInfo_t`. -/
structure ClerkLease where
  leaseId : ℤ
  expires : ℤ
  lastWriteTime : ℤ
  leaseRenewSent : Bool

abbrev LeaseMap := ℤ → Option ClerkLease

namespace LeaseClerk

def LEASE_EXPIRE_WINDOW_SECS : ℤ := 10

variable (mLeases : LeaseMap) (chunkId now : ℤ)

/-- The old lease on the chunk is dropped. -/
def RegisterLease (leaseId : ℤ) : LeaseMap :=
  Function.update mLeases chunkId (some ⟨leaseId, now + LEASE_INTERVAL_SECS, now, false⟩)

def UnRegisterLease : LeaseMap := Function.update mLeases chunkId none

def DoingWrite : LeaseMap :=
  Function.update mLeases chunkId ((mLeases chunkId).map fun lease => { lease with lastWriteTime := now })

def IsLeaseValid : Bool :=
  match mLeases chunkId with
  | none => false
  | some lease => decide (now ≤ lease.expires)

def LeaseRenewed : LeaseMap :=
  Function.update mLeases chunkId ((mLeases chunkId).map fun lease =>
    { lease with expires := now + LEASE_INTERVAL_SECS, leaseRenewSent := false })

/-- `EVENT_CMD_DONE`: a reply for a lease renewal. Which lease it was for is not looked at. -/
def HandleReply (status : ℤ) : LeaseMap :=
  if status = 0 then LeaseRenewed mLeases chunkId now else UnRegisterLease mLeases chunkId

/-- `EVENT_TIMEOUT` for a chunk: the lease that is to be renewed, if there has been a write. -/
def HandleTimeout (pending : Bool) : Option ℤ :=
  match mLeases chunkId with
  | none => none
  | some lease => if pending ∨ now - lease.lastWriteTime ≤ LEASE_INTERVAL_SECS then some lease.leaseId else none

/-- Leases that have been dead for a full lease interval are discarded. -/
def CleanupExpiredLeases : LeaseMap := fun c =>
  match mLeases c with
  | none => none
  | some lease => if now - lease.expires > LEASE_INTERVAL_SECS then none else some lease

/-- What `Timeout` does with the lease on a chunk: it is renewed when it is about to expire, is not being renewed and
there has been a write. -/
def LeaseRenewer (pending : Bool) : Option ℤ × LeaseMap :=
  match mLeases chunkId with
  | none => (none, mLeases)
  | some lease =>
    if lease.expires - now > LEASE_EXPIRE_WINDOW_SECS ∨ lease.leaseRenewSent then (none, mLeases)
    else if pending ∨ now - lease.lastWriteTime ≤ LEASE_INTERVAL_SECS then
      (some lease.leaseId, Function.update mLeases chunkId (some { lease with leaseRenewSent := true }))
    else (none, mLeases)

end LeaseClerk

/-! ## The system -/

/-- A grant goes out with the allocation of the chunk to its master. `sent` is the second in which the metaserver has
started to count. -/
inductive LeaseMsg
  | grant (server : ServerId) (chunkId leaseId sent : ℤ)
  | request (server : ServerId) (chunkId leaseId : ℤ)
  | reply (server : ServerId) (chunkId leaseId status sent : ℤ)

/-- Messages stay in `net`: they can be delivered at any time, any number of times, or never. -/
structure LeaseSystem where
  lm : LayoutManager
  clerks : ServerId → LeaseMap
  net : List LeaseMsg

/-- `pending`: a write to the chunk is pending. -/
inductive LeaseEv
  | layout (e : LayoutEv)
  | deliver (i : ℕ)
  | doingWrite (server : ServerId) (chunkId : ℤ)
  | cleanupExpired (server : ServerId)
  | timeout (server : ServerId) (chunkId : ℤ) (pending : Bool)
  | renew (server : ServerId) (chunkId : ℤ) (pending : Bool)

/-- The write leases of a chunk, as they are sent to its master. -/
def grantsOf (lm : LayoutManager) (chunkId : ℤ) : List LeaseMsg :=
  match lm.mChunkToServerMap chunkId with
  | none => []
  | some v => v.chunkLeases.filterMap fun l =>
    l.chunkServer.map fun s => .grant s chunkId l.leaseId (l.expires - LEASE_INTERVAL_SECS)

/-- What an operation of the layout manager sends to the master of a chunk; the leases of the chunk have been replaced
by the new one then. -/
def granted (lm : LayoutManager) (t : ℕ → ℤ) : LayoutEv → List LeaseMsg
  | .AllocateChunk chunkId fid n servers =>
    if (lm.AllocateChunk chunkId fid n servers t).1 = 0 then
      grantsOf (lm.AllocateChunk chunkId fid n servers t).2 chunkId
    else []
  | .GetChunkWriteLease chunkId hasSpace =>
    if (lm.GetChunkWriteLease chunkId hasSpace t).1.isNewLease then
      grantsOf (lm.GetChunkWriteLease chunkId hasSpace t).2 chunkId
    else []
  | _ => []

namespace LeaseSystem

variable (sys : LeaseSystem)

def setClerk (s : ServerId) (m : LeaseMap) : LeaseSystem := { sys with clerks := Function.update sys.clerks s m }

/-- A request for a renewal goes out. -/
def send (s : ServerId) (chunkId : ℤ) : Option ℤ → LeaseSystem
  | none => sys
  | some leaseId => { sys with net := .request s chunkId leaseId :: sys.net }

def deliver (t : ℕ → ℤ) : LeaseMsg → LeaseSystem
  | .grant s c id _ => sys.setClerk s (LeaseClerk.RegisterLease (sys.clerks s) c (t 0) id)
  | .request s c id =>
    let (status, lm) := sys.lm.LeaseRenew c .write id t
    { sys with lm := lm, net := .reply s c id status (t 0) :: sys.net }
  | .reply s c _ status _ => sys.setClerk s (LeaseClerk.HandleReply (sys.clerks s) c (t 0) status)

def step (t : ℕ → ℤ) : LeaseEv → LeaseSystem
  | .layout e => { sys with lm := sys.lm.apply t e, net := granted sys.lm t e ++ sys.net }
  | .deliver i =>
    match sys.net[i]? with
    | none => sys
    | some m => sys.deliver t m
  | .doingWrite s c => sys.setClerk s (LeaseClerk.DoingWrite (sys.clerks s) c (t 0))
  | .cleanupExpired s => sys.setClerk s (LeaseClerk.CleanupExpiredLeases (sys.clerks s) (t 0))
  | .timeout s c pending => sys.send s c (LeaseClerk.HandleTimeout (sys.clerks s) c (t 0) pending)
  | .renew s c pending =>
    let (leaseId, m) := LeaseClerk.LeaseRenewer (sys.clerks s) c (t 0) pending
    (sys.setClerk s m).send s c leaseId

end LeaseSystem

/-! ## The condition -/

/-- A message from the metaserver arrives in the second in which it was sent, and a renewal is for the lease that the
chunk server has. -/
def Prompt (sys : LeaseSystem) (t : ℕ → ℤ) : LeaseMsg → Prop
  | .grant _ _ _ sent => t 0 = sent
  | .request _ _ _ => True
  | .reply s c id status sent => status = 0 → ∀ lease, sys.clerks s c = some lease → t 0 = sent ∧ lease.leaseId = id

/-- The record of a chunk is not removed or replaced while it has a valid lease, and leases are not cleaned up in the
second in which they expire. -/
def KeepsLeases (lm : LayoutManager) (now : ℤ) (t : ℕ → ℤ) : LayoutEv → Prop
  | .AllocateChunk c _ _ _ | .AddChunkToServerMapping c _ | .RemoveChunkToServerMapping c | .DeleteChunk c =>
    ∀ v, lm.mChunkToServerMap c = some v → ∀ l ∈ v.chunkLeases, l.IsValidLease now = false
  | .LeaseCleanup => ∀ c v, lm.mChunkToServerMap c = some v → ∀ l ∈ v.chunkLeases, l.expires ≠ t 0
  | _ => True

def Timely (sys : LeaseSystem) (now : ℤ) (t : ℕ → ℤ) : LeaseEv → Prop
  | .layout e => KeepsLeases sys.lm now t e
  | .deliver i => ∀ m, sys.net[i]? = some m → Prompt sys t m
  | _ => True

/-- A run of the system in which `C` holds of every step, with the clock before and after it. -/
inductive LeaseRun (C : LeaseSystem → ℤ → (ℕ → ℤ) → LeaseEv → Prop) (sys₀ : LeaseSystem) (now₀ : ℤ) :
    LeaseSystem → ℤ → Prop
  | nil : LeaseRun C sys₀ now₀ sys₀ now₀
  | step {sys now stop} (e : LeaseEv) (c : Clock now stop) : LeaseRun C sys₀ now₀ sys now → C sys now c.read e →
      LeaseRun C sys₀ now₀ (sys.step c.read e) stop

/-! ## The invariant -/

/-- The metaserver has the lease on record, until `e` at least. -/
def Holds (lm : LayoutManager) (chunkId leaseId e : ℤ) : Prop :=
  ∃ v, lm.mChunkToServerMap chunkId = some v ∧ ∃ l ∈ v.chunkLeases, l.leaseId = leaseId ∧ e ≤ l.expires

/-- No lease runs longer than one that begins now. -/
def Young (lm : LayoutManager) (now : ℤ) : Prop :=
  ∀ c v, lm.mChunkToServerMap c = some v → ∀ l ∈ v.chunkLeases, l.expires ≤ now + LEASE_INTERVAL_SECS

structure Agreed (sys : LeaseSystem) (now : ℤ) : Prop where
  young : Young sys.lm now
  clerks : ∀ s c lease, sys.clerks s c = some lease → now ≤ lease.expires → Holds sys.lm c lease.leaseId lease.expires
  grants : ∀ s c id sent, .grant s c id sent ∈ sys.net → now ≤ sent → Holds sys.lm c id (sent + LEASE_INTERVAL_SECS)
  replies : ∀ s c id sent, .reply s c id 0 sent ∈ sys.net → now ≤ sent →
    Holds sys.lm c id (sent + LEASE_INTERVAL_SECS)

variable {lm : LayoutManager} {now stop : ℤ} {ch id x : ℤ} {v : ChunkPlacementInfo} {sys : LeaseSystem}

namespace Holds

theorem set {c : ℤ} (h : Holds lm ch id x) (hc : c = ch → ∃ l ∈ v.chunkLeases, l.leaseId = id ∧ x ≤ l.expires) :
    Holds (lm.set c v) ch id x := by
  by_cases he : c = ch
  · subst he
    exact ⟨v, LayoutManager.set_self v, hc rfl⟩
  · obtain ⟨w, hw, hl⟩ := h
    exact ⟨w, by rw [LayoutManager.set_of_ne v (Ne.symm he), hw], hl⟩

theorem erase {c : ℤ} (h : Holds lm ch id x) (hc : c ≠ ch) : Holds (lm.erase c) ch id x := by
  obtain ⟨w, hw, hl⟩ := h
  exact ⟨w, by rw [LayoutManager.erase_of_ne hc.symm, hw], hl⟩

/-- The leases of the entry stay. -/
theorem of_map {lm' : LayoutManager} (h : Holds lm ch id x)
    (hm : ∀ v, lm.mChunkToServerMap ch = some v → ∃ v', lm'.mChunkToServerMap ch = some v' ∧
      ∀ l ∈ v.chunkLeases, x ≤ l.expires → l ∈ v'.chunkLeases) : Holds lm' ch id x := by
  obtain ⟨v, hv, l, hl, hid, hx⟩ := h
  obtain ⟨v', hv', hsub⟩ := hm v hv
  exact ⟨v', hv', l, hsub l hl hx, hid, hx⟩

/-- The lease is valid. -/
theorem valid (h : Holds lm ch id x) (hx : stop ≤ x) (hv : lm.mChunkToServerMap ch = some v) :
    ∃ l ∈ v.chunkLeases, l.leaseId = id ∧ x ≤ l.expires ∧ l.IsValidLease stop = true := by
  obtain ⟨w, hw, l, hl, hid, hle⟩ := h
  obtain rfl := Option.some.inj (hv.symm.trans hw)
  exact ⟨l, hl, hid, hle, decide_eq_true (hx.trans hle)⟩

end Holds

theorem renewLease_mem {leaseId e : ℤ} : ∀ {ls : List LeaseInfo}, ∀ l ∈ ls,
    ∃ l' ∈ LayoutManager.renewLease leaseId e ls, l'.leaseId = l.leaseId ∧ (l'.expires = l.expires ∨ l'.expires = e)
  | [], _, h => by cases h
  | a :: ls, l, h => by
    rw [LayoutManager.renewLease]
    split_ifs
    · rcases List.mem_cons.mp h with rfl | h
      · exact ⟨_, List.mem_cons_self, rfl, .inr rfl⟩
      · exact ⟨l, List.mem_cons_of_mem _ h, rfl, .inl rfl⟩
    · rcases List.mem_cons.mp h with rfl | h
      · exact ⟨l, List.mem_cons_self, rfl, .inl rfl⟩
      · obtain ⟨l', hl', heq⟩ := renewLease_mem l h
        exact ⟨l', List.mem_cons_of_mem _ hl', heq⟩

/-- What is in the list after a renewal. -/
theorem mem_renewLease {leaseId e : ℤ} : ∀ {ls : List LeaseInfo}, ∀ l' ∈ LayoutManager.renewLease leaseId e ls,
    l' ∈ ls ∨ l'.expires = e
  | [], _, h => by cases h
  | a :: ls, l', h => by
    rw [LayoutManager.renewLease] at h
    split_ifs at h
    · rcases List.mem_cons.mp h with rfl | h
      · exact .inr rfl
      · exact .inl (List.mem_cons_of_mem _ h)
    · rcases List.mem_cons.mp h with rfl | h
      · exact .inl List.mem_cons_self
      · exact (mem_renewLease l' h).imp_left (List.mem_cons_of_mem _)

theorem renewLease_found {leaseId e : ℤ} {l : LeaseInfo} : ∀ {ls : List LeaseInfo},
    ls.find? (fun l => decide (l.leaseId = leaseId)) = some l →
    ∃ l' ∈ LayoutManager.renewLease leaseId e ls, l'.leaseId = leaseId ∧ l'.expires = e
  | [], h => by cases h
  | a :: ls, h => by
    rw [LayoutManager.renewLease]
    split_ifs with ha
    · exact ⟨_, List.mem_cons_self, ha, rfl⟩
    · rw [List.find?_cons_of_neg (by simpa using ha)] at h
      obtain ⟨l', hl', heq⟩ := renewLease_found h
      exact ⟨l', List.mem_cons_of_mem _ hl', heq⟩

/-! ## Operations of the layout manager -/

/-- A write lease is issued, and is the only lease of its chunk then, or nothing changes. -/
theorem GetChunkWriteLease_cases {hasSpace : ServerId → Bool} (c : Clock now stop)
    {r : LayoutManager.WriteLease × LayoutManager}
    (h : lm.GetChunkWriteLease ch hasSpace c.read = r) : (r.1.isNewLease = false ∧ r.2 = lm) ∨
      (r.1.isNewLease = true ∧ ∃ v lease, lm.mChunkToServerMap ch = some v ∧
        r.2 = { lm with mLeaseId := lm.mLeaseId + 1 }.set ch { v with chunkLeases := [lease] } ∧
        lease.expires ≤ stop + LEASE_INTERVAL_SECS) := by
  have hsame : ∀ {a : LayoutManager.WriteLease}, a.isNewLease = false → (a, lm) = r →
      r.1.isNewLease = false ∧ r.2 = lm := fun ha he => by
    subst he
    exact ⟨ha, rfl⟩
  unfold LayoutManager.GetChunkWriteLease at h
  split at h
  · exact .inl (hsame rfl h)
  split at h
  · exact .inl (hsame rfl h)
  rename_i v hv
  dsimp only at h
  split at h
  · exact .inl (hsame rfl h)
  split at h
  · exact .inl (hsame rfl h)
  split at h
  · exact .inl (hsame rfl h)
  split at h
  · exact .inl (hsame rfl h)
  subst h
  have hbefore := c.before (1 + v.chunkLeases.length + v.chunkLeases.length)
  refine .inr ⟨rfl, v, _, hv, rfl, ?_⟩
  dsimp only
  omega

/-- **A lease that does not expire before the end of an operation is still on record after it.** -/
theorem apply_holds (hy : Young lm now) (c : Clock now stop) {e : LayoutEv} (hk : KeepsLeases lm now c.read e)
    (h : Holds lm ch id x) (hx : stop ≤ x) : Holds (lm.apply c.read e) ch id x := by
  have hnow := c.le
  -- an entry that may be replaced has no valid lease, so it is another one
  have hother : ∀ {a : ℤ}, (∀ v, lm.mChunkToServerMap a = some v → ∀ l ∈ v.chunkLeases, l.IsValidLease now = false) →
      a ≠ ch := by
    rintro a ha rfl
    have h' := h
    obtain ⟨v, hv, -⟩ := h'
    obtain ⟨l, hl, -, -, hvalid⟩ := h.valid hx hv
    exact absurd (isValidLease_mono hnow hvalid) (by simp [ha v hv l hl])
  cases e with
  | AllocateChunk a fid n servers =>
    simp only [LayoutManager.apply, LayoutManager.AllocateChunk]
    split_ifs
    · exact h
    · cases servers with
      | nil => exact h
      | cons master servers =>
        have h₁ : Holds { lm with mLeaseId := lm.mLeaseId + 1 } ch id x := h
        exact h₁.set fun he => absurd he (hother hk)
  | GetChunkWriteLease a hasSpace =>
    simp only [LayoutManager.apply]
    rcases @GetChunkWriteLease_cases lm _ _ _ hasSpace c _ rfl with ⟨-, hsame⟩ | ⟨hnew, v', lease, -, hset, -⟩
    · rw [hsame]
      exact h
    · obtain ⟨v, hv, hnone⟩ := newLease_none_valid c.mono hnew
      rw [hset]
      have h₁ : Holds { lm with mLeaseId := lm.mLeaseId + 1 } ch id x := h
      refine h₁.set fun he => ?_
      obtain ⟨l, hl, -, -, hvalid⟩ := h.valid hx (he ▸ hv)
      have hread := isValidLease_mono (c.before (1 + v.chunkLeases.length + v.chunkLeases.length)) hvalid
      exact absurd hread (by simp [hnone l hl])
  | GetChunkReadLease a =>
    simp only [LayoutManager.apply, LayoutManager.GetChunkReadLease]
    split_ifs
    · exact h
    · split
      · exact h
      · rename_i v hv
        have h₁ : Holds { lm with mLeaseId := lm.mLeaseId + 1 } ch id x := h
        refine h₁.set fun he => ?_
        obtain ⟨l, hl, hid, hle, -⟩ := h.valid hx (he ▸ hv)
        exact ⟨l, List.mem_append_left _ hl, hid, hle⟩
  | LeaseRenew a leaseType leaseId =>
    simp only [LayoutManager.apply, LayoutManager.LeaseRenew]
    split
    · rename_i hv
      split
      · refine @Holds.set { lm with mLeaseId := _ } _ _ _ _ _ h fun he => ?_
        obtain ⟨w, hw, -⟩ := h
        rw [← he, hv] at hw
        cases hw
      · exact h
    · rename_i v hv
      split
      · exact h
      · split_ifs
        · exact h
        · refine h.set fun he => ?_
          obtain ⟨l, hl, hid, hle, -⟩ := h.valid hx (he ▸ hv)
          obtain ⟨l', hl', hid', hexp⟩ := @renewLease_mem leaseId (c.read 0 + LEASE_INTERVAL_SECS) _ l hl
          have hyoung := hy a v hv l hl
          have hafter := c.after
          refine ⟨l', hl', hid'.trans hid, ?_⟩
          rcases hexp with hexp | hexp <;> omega
  | LeaseCleanup =>
    refine h.of_map fun v hv => ⟨{ v with chunkLeases := v.chunkLeases.filter fun l => decide (c.read 0 < l.expires) },
      by simp [LayoutManager.apply, LayoutManager.LeaseCleanup, hv], fun l hl hle => ?_⟩
    have hne := hk ch v hv l hl
    have hbefore := c.before 0
    exact List.mem_filter.mpr ⟨hl, by simp only [decide_eq_true_eq]; omega⟩
  | ServerDown server =>
    simp only [LayoutManager.apply, LayoutManager.ServerDown]
    split_ifs
    · exact h.of_map fun v hv => ⟨{ v with chunkServers := v.chunkServers.filter fun s => decide (s ≠ server) },
        by simp only [hv, Option.map_some], fun l hl _ => hl⟩
    · exact h
  | join server => exact h
  | UpdateChunkToServerMapping a server =>
    simp only [LayoutManager.apply, LayoutManager.UpdateChunkToServerMapping]
    cases hv : lm.mChunkToServerMap a with
    | none => exact h
    | some v =>
      refine h.set fun he => ?_
      obtain ⟨l, hl, hid, hle, -⟩ := h.valid hx (he ▸ hv)
      exact ⟨l, hl, hid, hle⟩
  | AddChunkToServerMapping a fid => exact h.set fun he => absurd he (hother hk)
  | RemoveChunkToServerMapping a => exact h.erase (hother hk)
  | DeleteChunk a =>
    simp only [LayoutManager.apply, LayoutManager.DeleteChunk]
    split
    · exact h
    · split_ifs
      · exact h
      · exact h.erase (hother hk)
  | ChunkCorrupt server fid a =>
    simp only [LayoutManager.apply, LayoutManager.ChunkCorrupt]
    split
    · exact h
    · rename_i v hv
      split_ifs
      · exact h
      · refine h.set fun he => ?_
        obtain ⟨l, hl, hid, hle, -⟩ := h.valid hx (he ▸ hv)
        exact ⟨l, hl, hid, hle⟩

namespace Young

theorem set {c : ℤ} (h : Young lm now) (hv : ∀ l ∈ v.chunkLeases, l.expires ≤ now + LEASE_INTERVAL_SECS) :
    Young (lm.set c v) now := by
  intro a w hw
  by_cases he : a = c
  · subst he
    obtain rfl : v = w := by simpa using hw
    exact hv
  · exact h a w (by simpa [he] using hw)

theorem erase {c : ℤ} (h : Young lm now) : Young (lm.erase c) now := by
  intro a w hw
  by_cases he : a = c
  · simp [he] at hw
  · exact h a w (by simpa [he] using hw)

theorem of_map {lm' : LayoutManager} (h : Young lm now)
    (hm : ∀ c v', lm'.mChunkToServerMap c = some v' → ∃ v, lm.mChunkToServerMap c = some v ∧
      ∀ l ∈ v'.chunkLeases, l ∈ v.chunkLeases) : Young lm' now := by
  intro c v' hv' l hl
  obtain ⟨v, hv, hsub⟩ := hm c v' hv'
  exact h c v hv l (hsub l hl)

end Young

theorem apply_young (h : Young lm now) (c : Clock now stop) (e : LayoutEv) : Young (lm.apply c.read e) stop := by
  have hle := c.le
  have h' : Young lm stop := fun a v hv l hl => (h a v hv l hl).trans (by omega)
  have h₁ : ∀ {i}, Young { lm with mLeaseId := i } stop := h'
  have hbefore := c.before 0
  cases e with
  | AllocateChunk a fid n servers =>
    simp only [LayoutManager.apply, LayoutManager.AllocateChunk]
    split_ifs
    · exact h'
    · cases servers with
      | nil => exact h'
      | cons master servers =>
        refine h₁.set fun l hl => ?_
        rw [List.mem_singleton.mp hl]
        dsimp only
        omega
  | GetChunkWriteLease a hasSpace =>
    simp only [LayoutManager.apply]
    rcases @GetChunkWriteLease_cases lm _ _ a hasSpace c _ rfl with
      ⟨-, hsame⟩ | ⟨-, v, lease, -, hset, hexp⟩
    · rw [hsame]
      exact h'
    · rw [hset]
      refine h₁.set fun l hl => ?_
      rw [List.mem_singleton.mp hl]
      exact hexp
  | GetChunkReadLease a =>
    simp only [LayoutManager.apply, LayoutManager.GetChunkReadLease]
    split_ifs
    · exact h'
    · split
      · exact h'
      · rename_i v hv
        refine h₁.set fun l hl => ?_
        rcases List.mem_append.mp hl with hl | hl
        · exact h' a v hv l hl
        · have hbefore := c.before 1
          rw [List.mem_singleton.mp hl]
          dsimp only
          omega
  | LeaseRenew a leaseType leaseId =>
    simp only [LayoutManager.apply, LayoutManager.LeaseRenew]
    split
    · split
      · refine @Young.set { lm with mLeaseId := _ } _ _ _ h' fun l hl => ?_
        have hbefore := c.before 1
        rw [List.mem_singleton.mp hl]
        dsimp only
        omega
      · exact h'
    · rename_i v hv
      split
      · exact h'
      · split_ifs
        · exact h'
        · refine h'.set fun l hl => ?_
          rcases mem_renewLease l hl with hl | he
          · exact h' a v hv l hl
          · omega
  | LeaseCleanup =>
    refine h'.of_map fun chunkId v' hv' => ?_
    obtain ⟨v, hv, rfl⟩ := Option.map_eq_some_iff.mp hv'
    exact ⟨v, hv, fun l hl => (List.mem_filter.mp hl).1⟩
  | ServerDown server =>
    simp only [LayoutManager.apply, LayoutManager.ServerDown]
    split_ifs
    · refine h'.of_map fun chunkId v' hv' => ?_
      obtain ⟨v, hv, rfl⟩ := Option.map_eq_some_iff.mp hv'
      exact ⟨v, hv, fun l hl => hl⟩
    · exact h'
  | join server => exact h'
  | UpdateChunkToServerMapping a server =>
    simp only [LayoutManager.apply, LayoutManager.UpdateChunkToServerMapping]
    cases hv : lm.mChunkToServerMap a with
    | none => exact h'
    | some v => exact h'.set (h' a v hv)
  | AddChunkToServerMapping a fid => exact h'.set fun l hl => by cases hl
  | RemoveChunkToServerMapping a => exact h'.erase
  | DeleteChunk a =>
    simp only [LayoutManager.apply, LayoutManager.DeleteChunk]
    split
    · exact h'
    · split_ifs
      · exact h'
      · exact h'.erase
  | ChunkCorrupt server fid a =>
    simp only [LayoutManager.apply, LayoutManager.ChunkCorrupt]
    split
    · exact h'
    · rename_i v hv
      split_ifs
      · exact h'
      · exact h'.set (h' a v hv)

/-! ## Messages -/

/-- A grant is on record. -/
theorem granted_holds {t : ℕ → ℤ} {e : LayoutEv} {m : LeaseMsg} (hm : m ∈ granted lm t e) :
    ∃ s c leaseId sent, m = .grant s c leaseId sent ∧
      Holds (lm.apply t e) c leaseId (sent + LEASE_INTERVAL_SECS) := by
  have hof : ∀ {lm : LayoutManager} {c : ℤ}, m ∈ grantsOf lm c → ∃ s c leaseId sent, m = .grant s c leaseId sent ∧
      Holds lm c leaseId (sent + LEASE_INTERVAL_SECS) := by
    intro lm c hm
    unfold grantsOf at hm
    split at hm
    · cases hm
    · rename_i v hv
      obtain ⟨l, hl, he⟩ := List.mem_filterMap.mp hm
      obtain ⟨s, -, rfl⟩ := Option.map_eq_some_iff.mp he
      exact ⟨s, c, _, _, rfl, v, hv, l, hl, rfl, by omega⟩
  unfold granted at hm
  split at hm
  · split_ifs at hm
    · exact hof hm
    · cases hm
  · split_ifs at hm
    · exact hof hm
    · cases hm
  · cases hm

/-- A renewal that succeeds is on record. -/
theorem LeaseRenew_holds {leaseId : ℤ} {t : ℕ → ℤ} (ht : Monotone t)
    (h : (lm.LeaseRenew ch .write leaseId t).1 = 0) :
    Holds (lm.LeaseRenew ch .write leaseId t).2 ch leaseId (t 0 + LEASE_INTERVAL_SECS) := by
  unfold LayoutManager.LeaseRenew at h ⊢
  split at h
  · rename_i hv
    by_cases hrec : lm.InRecovery (t 0) = true
    · have hmono := ht (Nat.zero_le 1)
      rw [if_pos hrec]
      exact ⟨_, LayoutManager.set_self _, _, List.mem_singleton.mpr rfl, rfl, by dsimp only; omega⟩
    · rw [if_neg hrec] at h
      cases h
  · rename_i v hv
    split at h
    · cases h
    · rename_i l hl
      split_ifs at h ⊢
      · cases h
      · obtain ⟨l', hl', hid, he⟩ := renewLease_found (e := t 0 + LEASE_INTERVAL_SECS) hl
        exact ⟨_, LayoutManager.set_self _, l', hl', hid, he.ge⟩

/-! ## Steps -/

namespace Agreed

/-- The record has changed, and messages from the metaserver have come that are on record. -/
theorem layout {lm' : LayoutManager} (msgs : List LeaseMsg) (h : Agreed sys now) (hle : now ≤ stop)
    (hy : Young lm' stop) (hh : ∀ ch id x, Holds sys.lm ch id x → stop ≤ x → Holds lm' ch id x)
    (hg : ∀ s c id sent, .grant s c id sent ∈ msgs → Holds lm' c id (sent + LEASE_INTERVAL_SECS))
    (hr : ∀ s c id sent, .reply s c id 0 sent ∈ msgs → Holds lm' c id (sent + LEASE_INTERVAL_SECS)) :
    Agreed { sys with lm := lm', net := msgs ++ sys.net } stop where
  young := hy
  clerks s c lease hs hx := hh _ _ _ (h.clerks s c lease hs (hle.trans hx)) hx
  grants s c id sent hm hx := by
    rcases List.mem_append.mp hm with hm | hm
    · exact hg s c id sent hm
    · refine hh _ _ _ (h.grants s c id sent hm (hle.trans hx)) ?_
      unfold LEASE_INTERVAL_SECS
      omega
  replies s c id sent hm hx := by
    rcases List.mem_append.mp hm with hm | hm
    · exact hr s c id sent hm
    · refine hh _ _ _ (h.replies s c id sent hm (hle.trans hx)) ?_
      unfold LEASE_INTERVAL_SECS
      omega

/-- Time passes. -/
theorem later (h : Agreed sys now) (hle : now ≤ stop) : Agreed sys stop :=
  h.layout [] hle (fun a v hv l hl => (h.young a v hv l hl).trans (by omega)) (fun _ _ _ hh _ => hh)
    (fun _ _ _ _ hm => nomatch hm) fun _ _ _ _ hm => nomatch hm

/-- The leases of a chunk server have changed. -/
theorem setClerk {s : ServerId} {m : LeaseMap} (h : Agreed sys now)
    (hm : ∀ c lease, m c = some lease → now ≤ lease.expires → Holds sys.lm c lease.leaseId lease.expires) :
    Agreed (sys.setClerk s m) now where
  young := h.young
  clerks s' c lease hs hx := by
    by_cases he : s' = s
    · subst he
      exact hm c lease (by simpa [LeaseSystem.setClerk] using hs) hx
    · exact h.clerks s' c lease (by simpa [LeaseSystem.setClerk, he] using hs) hx
  grants := h.grants
  replies := h.replies

/-- One lease of a chunk server has changed. -/
theorem updateClerk {s : ServerId} {c : ℤ} {lease : Option ClerkLease} (h : Agreed sys now)
    (hc : ∀ l, lease = some l → now ≤ l.expires → Holds sys.lm c l.leaseId l.expires) :
    Agreed (sys.setClerk s (Function.update (sys.clerks s) c lease)) now := by
  refine h.setClerk fun c' l hl hx => ?_
  by_cases he : c' = c
  · subst he
    exact hc l (by simpa using hl) hx
  · exact h.clerks s c' l (by simpa [he] using hl) hx

theorem send {s : ServerId} {c : ℤ} {leaseId : Option ℤ} (h : Agreed sys now) : Agreed (sys.send s c leaseId) now := by
  cases leaseId with
  | none => exact h
  | some id =>
    refine ⟨h.young, h.clerks, fun s' c' id' sent hm => ?_, fun s' c' id' sent hm => ?_⟩
    · exact h.grants s' c' id' sent ((List.mem_cons.mp hm).resolve_left (by simp))
    · exact h.replies s' c' id' sent ((List.mem_cons.mp hm).resolve_left (by simp))

end Agreed

theorem deliver_agreed (h : Agreed sys now) (c : Clock now stop) {m : LeaseMsg} (hm : m ∈ sys.net)
    (hp : Prompt sys c.read m) : Agreed (sys.deliver c.read m) stop := by
  have hstop := h.later c.le
  have hbefore := c.before 0
  cases m with
  | grant s ch id sent =>
    refine hstop.updateClerk fun l hl hx => ?_
    obtain rfl := Option.some.inj hl
    have hsent : c.read 0 = sent := hp
    dsimp only
    rw [hsent]
    exact h.grants s ch id sent hm (hsent ▸ c.after)
  | request s ch id =>
    refine h.layout [.reply s ch id (sys.lm.LeaseRenew ch .write id c.read).1 (c.read 0)] c.le
      (apply_young h.young c (.LeaseRenew ch .write id)) (fun ch' id' x hh hx => ?_) (fun _ _ _ _ hm => ?_)
      fun s' ch' id' sent hm => ?_
    · exact apply_holds (e := .LeaseRenew ch .write id) h.young c trivial hh hx
    · simp at hm
    · obtain ⟨rfl, rfl, rfl, h0, rfl⟩ := LeaseMsg.reply.inj (List.mem_singleton.mp hm)
      exact LeaseRenew_holds c.mono h0.symm
  | reply s ch id status sent =>
    change Agreed (sys.setClerk s (LeaseClerk.HandleReply (sys.clerks s) ch (c.read 0) status)) stop
    unfold LeaseClerk.HandleReply
    split_ifs with h0
    · refine hstop.updateClerk fun l hl hx => ?_
      obtain ⟨lease, hlease, rfl⟩ := Option.map_eq_some_iff.mp hl
      obtain ⟨hsent, hid⟩ := hp h0 lease hlease
      subst h0
      dsimp only
      rw [hsent, hid]
      exact h.replies s ch id sent hm (hsent ▸ c.after)
    · exact hstop.updateClerk fun l hl => nomatch hl

theorem step_agreed (h : Agreed sys now) (c : Clock now stop) {e : LeaseEv} (ht : Timely sys now c.read e) :
    Agreed (sys.step c.read e) stop := by
  have hstop := h.later c.le
  cases e with
  | layout e =>
    refine h.layout _ c.le (apply_young h.young c e) (fun ch id x hh hx => apply_holds h.young c ht hh hx)
      (fun s a id sent hm => ?_) fun s a id sent hm => ?_
    · obtain ⟨_, _, _, _, he, hh⟩ := granted_holds hm
      obtain ⟨rfl, rfl, rfl, rfl⟩ := LeaseMsg.grant.inj he
      exact hh
    · obtain ⟨_, _, _, _, he, -⟩ := granted_holds hm
      cases he
  | deliver i =>
    unfold LeaseSystem.step
    cases hm : sys.net[i]? with
    | none =>
      simp only [hm]
      exact hstop
    | some m =>
      simp only [hm]
      exact deliver_agreed h c (List.mem_of_getElem? hm) (ht m hm)
  | doingWrite s a =>
    refine hstop.updateClerk fun l hl hx => ?_
    obtain ⟨lease, hlease, rfl⟩ := Option.map_eq_some_iff.mp hl
    exact hstop.clerks s a lease hlease hx
  | cleanupExpired s =>
    refine hstop.setClerk fun a lease hl hx => ?_
    unfold LeaseClerk.CleanupExpiredLeases at hl
    split at hl
    · cases hl
    · rename_i lease' hlease
      split_ifs at hl
      obtain rfl := Option.some.inj hl
      exact hstop.clerks s a _ hlease hx
  | timeout s a pending => exact hstop.send
  | renew s a pending =>
    change Agreed ((sys.setClerk s (LeaseClerk.LeaseRenewer (sys.clerks s) a (c.read 0) pending).2).send s a
      (LeaseClerk.LeaseRenewer (sys.clerks s) a (c.read 0) pending).1) stop
    unfold LeaseClerk.LeaseRenewer
    have hsame : Agreed (sys.setClerk s (sys.clerks s)) stop :=
      hstop.setClerk fun a lease hl hx => hstop.clerks s a lease hl hx
    split
    · exact hsame
    · rename_i lease hlease
      split_ifs
      · exact hsame
      · refine (hstop.updateClerk fun l hl hx => ?_).send
        obtain rfl := Option.some.inj hl
        exact hstop.clerks s a lease hlease hx
      · exact hsame

/-- No chunk server has a lease, and no message is under way. -/
def LeaseSystem.start (lm : LayoutManager) : LeaseSystem := ⟨lm, fun _ _ => none, []⟩

theorem start_agreed (h0 : ∀ c v, lm.mChunkToServerMap c = some v → v.chunkLeases = []) :
    Agreed (LeaseSystem.start lm) now where
  young c v hv l hl := by
    rw [h0 c v hv] at hl
    cases hl
  clerks _ _ _ hs := nomatch hs
  grants _ _ _ _ hm := nomatch hm
  replies _ _ _ _ hm := nomatch hm

theorem run_agreed {sys₀ : LeaseSystem} {now₀ : ℤ} (h0 : Agreed sys₀ now₀) (hr : LeaseRun Timely sys₀ now₀ sys now) :
    Agreed sys now := by
  induction hr with
  | nil => exact h0
  | step e c _ ht ih => exact step_agreed ih c ht

/-- **A lease that is valid on a chunk server is valid at the metaserver**, as long as messages arrive in the second in
which they were sent. -/
theorem lease_agreement {lm₀ : LayoutManager} {now₀ : ℤ}
    (h0 : ∀ c v, lm₀.mChunkToServerMap c = some v → v.chunkLeases = [])
    (hr : LeaseRun Timely (LeaseSystem.start lm₀) now₀ sys now) {s : ServerId} {c : ℤ}
    (hv : LeaseClerk.IsLeaseValid (sys.clerks s) c now = true) :
    ∃ lease v, sys.clerks s c = some lease ∧ sys.lm.mChunkToServerMap c = some v ∧
      ∃ l ∈ v.chunkLeases, l.leaseId = lease.leaseId ∧ l.IsValidLease now = true := by
  have hagreed : Agreed sys now := run_agreed (start_agreed h0) hr
  unfold LeaseClerk.IsLeaseValid at hv
  split at hv
  · cases hv
  · rename_i lease hlease
    have hx := of_decide_eq_true hv
    obtain ⟨v, hmap, l, hl, hid, hle⟩ := hagreed.clerks s c lease hlease hx
    exact ⟨lease, v, hlease, hmap, l, hl, hid, decide_eq_true (hx.trans hle)⟩

/-- Chunk 7 is allocated, its lease is granted at once, and renewed when it is about to expire. -/
def renewed : LeaseSystem :=
  ((((((LeaseSystem.start LayoutManager.fresh).step (fun _ => 100) (.layout (.AllocateChunk 7 3 1 [0]))).step
    (fun _ => 100) (.deliver 0)).step (fun _ => 150) (.renew 0 7 false)).step (fun _ => 150) (.deliver 0)).step
    (fun _ => 150) (.deliver 0)).step (fun _ => 205) (.cleanupExpired 0)

theorem lease_agreement_renewed : LeaseClerk.IsLeaseValid (renewed.clerks 0) 7 205 = true ∧
    ∃ lease v, renewed.clerks 0 7 = some lease ∧ renewed.lm.mChunkToServerMap 7 = some v ∧
      ∃ l ∈ v.chunkLeases, l.leaseId = lease.leaseId ∧ l.IsValidLease 205 = true := by
  have hr₁ : LeaseRun Timely (LeaseSystem.start LayoutManager.fresh) 100 _ 100 :=
    .step (.layout (.AllocateChunk 7 3 1 [0])) (Clock.still 100 100 le_rfl) .nil fun _ hv => nomatch hv
  have hr₂ : LeaseRun Timely (LeaseSystem.start LayoutManager.fresh) 100 _ 100 :=
    .step (.deliver 0) (Clock.still 100 100 le_rfl) hr₁ fun m hm => by
      obtain rfl : LeaseMsg.grant 0 7 1 100 = m := Option.some.inj hm
      rfl
  have hr₃ : LeaseRun Timely (LeaseSystem.start LayoutManager.fresh) 100 _ 150 :=
    .step (.renew 0 7 false) (Clock.still 100 150 (by decide)) hr₂ trivial
  have hr₄ : LeaseRun Timely (LeaseSystem.start LayoutManager.fresh) 100 _ 150 :=
    .step (.deliver 0) (Clock.still 150 150 le_rfl) hr₃ fun m hm => by
      obtain rfl : LeaseMsg.request 0 7 1 = m := Option.some.inj hm
      trivial
  have hr₅ : LeaseRun Timely (LeaseSystem.start LayoutManager.fresh) 100 _ 150 :=
    .step (.deliver 0) (Clock.still 150 150 le_rfl) hr₄ fun m hm => by
      obtain rfl : LeaseMsg.reply 0 7 1 0 150 = m := Option.some.inj hm
      intro _ lease hlease
      obtain rfl := Option.some.inj hlease
      exact ⟨rfl, rfl⟩
  have hr : LeaseRun Timely (LeaseSystem.start LayoutManager.fresh) 100 renewed 205 :=
    .step (.cleanupExpired 0) (Clock.still 150 205 (by decide)) hr₅ trivial
  have hvalid : LeaseClerk.IsLeaseValid (renewed.clerks 0) 7 205 = true := by decide
  exact ⟨hvalid, lease_agreement (by simp [LayoutManager.fresh]) hr hvalid⟩

/-- A grant is under way for 50 seconds: the chunk server counts from when it arrives, and has a valid lease when the
metaserver's has expired. -/
theorem lease_disagreement : ∃ sys, LeaseRun (fun _ _ _ _ => True) (LeaseSystem.start LayoutManager.fresh) 100 sys 161 ∧
    LeaseClerk.IsLeaseValid (sys.clerks 0) 7 161 = true ∧
    ∀ v, sys.lm.mChunkToServerMap 7 = some v → ∀ l ∈ v.chunkLeases, l.IsValidLease 161 = false := by
  have hr₁ : LeaseRun (fun _ _ _ _ => True) (LeaseSystem.start LayoutManager.fresh) 100 _ 100 :=
    .step (.layout (.AllocateChunk 7 3 1 [0])) (Clock.still 100 100 le_rfl) .nil trivial
  have hr₂ : LeaseRun (fun _ _ _ _ => True) (LeaseSystem.start LayoutManager.fresh) 100 _ 150 :=
    .step (.deliver 0) (Clock.still 100 150 (by decide)) hr₁ trivial
  have hr : LeaseRun (fun _ _ _ _ => True) (LeaseSystem.start LayoutManager.fresh) 100 _ 161 :=
    .step (.doingWrite 0 7) (Clock.still 150 161 (by decide)) hr₂ trivial
  refine ⟨_, hr, by decide, fun v hv l hl => ?_⟩
  obtain rfl := Option.some.inj hv
  rw [List.mem_singleton.mp hl]
  decide

end Kfs
