import Mathlib.Algebra.BigOperators.Group.List.Basic
import Mathlib.Algebra.Order.Group.Int
import Kfs.Layout.LeaseIds

/-!
# The writes of a server

`mNumChunkWrites` of a chunk server: it goes up with every allocation that is sent to the server, and down for a
write lease that runs out. `DecChunkWriteCount` is run on what `remove_if` leaves behind the leases that stay,
and on the leases of a copy that `GetChunkWriteLease` may drop.

* `Load`: the layout manager, the chunks of its map, and the counters;
* `LoadEv`, `Load.step`: allocations, lease grants, renewals and clean-ups;
* `Load.recorded`: the write leases that are recorded on the chunks of a server;
* **`writes_recorded`**: the counters are right along every run in which no clean-up finds an expired write lease
  beside one that stays, and no lease is refused for lack of space after an expired write lease was given up.
-/

namespace Kfs

/-- The layout manager with the chunks of `mChunkToServerMap` and `mNumChunkWrites` of each server. -/
structure Load where
  lm : LayoutManager
  keys : List ℤ
  writes : ServerId → ℤ

/-! ## Counting -/

/-- `UpdateNumChunkWrites`. -/
def UpdateNumChunkWrites (amount : ℤ) (w : ServerId → ℤ) (s : ServerId) : ServerId → ℤ :=
  Function.update w s (if w s + amount < 0 then 0 else w s + amount)

/-- `UpdateNumChunkWrites` of each of the servers. -/
def updateAll (amount : ℤ) (servers : List ServerId) (w : ServerId → ℤ) : ServerId → ℤ :=
  servers.foldl (UpdateNumChunkWrites amount) w

/-- `DecChunkWriteCount` on a lease of a chunk that is on `servers`. -/
def DecChunkWriteCount (servers : List ServerId) (w : ServerId → ℤ) (l : LeaseInfo) : ServerId → ℤ :=
  if l.leaseType ≠ .write then w else updateAll (-1) servers w

/-- `remove_if`: the elements that stay move to the front, and the places behind them keep what they had. The
result is the two parts. -/
def removeIf (p : LeaseInfo → Bool) (ls : List LeaseInfo) : List LeaseInfo × List LeaseInfo :=
  let kept := ls.filter fun l => !p l
  (kept, ls.drop kept.length)

/-- `LeaseExpired`. -/
def LeaseExpired (now : ℤ) (l : LeaseInfo) : Bool := decide (now ≥ l.expires)

namespace Load

/-- `LeaseExpirer` on the entry of a chunk. -/
def LeaseExpirer (now : ℤ) (st : Load) (chunkId : ℤ) : Load :=
  match st.lm.mChunkToServerMap chunkId with
  | none => st
  | some v =>
    let (kept, i) := removeIf (LeaseExpired now) v.chunkLeases
    { st with
      lm := st.lm.set chunkId { v with chunkLeases := kept }
      writes := i.foldl (DecChunkWriteCount v.chunkServers) st.writes }

/-- `LeaseCleanup()`. -/
def LeaseCleanup (st : Load) (t : ℕ → ℤ) : Load := st.keys.foldl (LeaseExpirer (t 0)) st

/-- The counters after `LeaseCleanup(chunkId, v)`. -/
def cleaned (st : Load) (chunkId : ℤ) : ServerId → ℤ :=
  match st.lm.mChunkToServerMap chunkId with
  | none => st.writes
  | some v => v.chunkLeases.foldl (DecChunkWriteCount v.chunkServers) st.writes

/-- The chunk is in the map from now on. -/
def addKey (keys : List ℤ) (chunkId : ℤ) : List ℤ := if chunkId ∈ keys then keys else chunkId :: keys

/-- `AllocateChunk`, with `ChunkServer::AllocateChunk` of each server. -/
def AllocateChunk (st : Load) (chunkId fid numReplicas : ℤ) (servers : List ServerId) (t : ℕ → ℤ) : Load :=
  let (status, lm) := st.lm.AllocateChunk chunkId fid numReplicas servers t
  if status = 0 then ⟨lm, addKey st.keys chunkId, updateAll 1 servers st.writes⟩ else st

/-- `GetChunkWriteLease`: it cleans up the leases of the chunk before it looks for space. -/
def GetChunkWriteLease (st : Load) (chunkId : ℤ) (hasSpace : ServerId → Bool) (t : ℕ → ℤ) : Load :=
  let (r, lm) := st.lm.GetChunkWriteLease chunkId hasSpace t
  if r.isNewLease then { st with lm := lm, writes := updateAll 1 r.servers (st.cleaned chunkId) }
  else if r.status = -ENOSPC then { st with writes := st.cleaned chunkId }
  else st

end Load

/-- The operations on leases; `allocFailed` is the end of a first allocation that the chunk servers refused. -/
inductive LoadEv
  | AllocateChunk (chunkId fid numReplicas : ℤ) (servers : List ServerId)
  | allocFailed (chunkId : ℤ)
  | GetChunkWriteLease (chunkId : ℤ) (hasSpace : ServerId → Bool)
  | GetChunkReadLease (chunkId : ℤ)
  | LeaseRenew (chunkId : ℤ) (leaseType : LeaseType) (leaseId : ℤ)
  | LeaseCleanup

namespace Load

def step (st : Load) (t : ℕ → ℤ) : LoadEv → Load
  | .AllocateChunk chunkId fid n servers => st.AllocateChunk chunkId fid n servers t
  | .allocFailed chunkId =>
    { st with lm := st.lm.RemoveChunkToServerMapping chunkId, keys := st.keys.erase chunkId }
  | .GetChunkWriteLease chunkId hasSpace => st.GetChunkWriteLease chunkId hasSpace t
  | .GetChunkReadLease chunkId => { st with lm := (st.lm.GetChunkReadLease chunkId t).2.2 }
  | .LeaseRenew chunkId leaseType leaseId =>
    let (status, lm) := st.lm.LeaseRenew chunkId leaseType leaseId t
    if status = 0 then { st with lm := lm, keys := addKey st.keys chunkId } else st
  | .LeaseCleanup => st.LeaseCleanup t

end Load

def LeaseInfo.isWrite (l : LeaseInfo) : Bool := decide (l.leaseType = .write)

/-- The write leases recorded on a chunk, if the server hosts it. -/
def ChunkPlacementInfo.writesOn (v : ChunkPlacementInfo) (s : ServerId) : ℤ :=
  if s ∈ v.chunkServers then v.chunkLeases.countP LeaseInfo.isWrite else 0

namespace Load

/-- The share of a chunk in the writes of a server. -/
def share (st : Load) (s : ServerId) (chunkId : ℤ) : ℤ :=
  ((st.lm.mChunkToServerMap chunkId).map fun v => v.writesOn s).getD 0

/-- The write leases recorded in the map on chunks that the server hosts. -/
def recorded (st : Load) (s : ServerId) : ℤ := (st.keys.map (st.share s)).sum

/-- `keys` are the chunks in the map. -/
structure Keyed (st : Load) : Prop where
  nodup : st.keys.Nodup
  mem : ∀ c, c ∈ st.keys ↔ (st.lm.mChunkToServerMap c).isSome = true

/-- No lease is recorded and no write is counted, and no chunk is on a server twice. -/
structure Start (st : Load) : Prop where
  keyed : st.Keyed
  leases : ∀ c v, st.lm.mChunkToServerMap c = some v → v.chunkLeases = []
  servers : ∀ c v, st.lm.mChunkToServerMap c = some v → v.chunkServers.Nodup
  writes : ∀ s, st.writes s = 0

/-- The steps after which the counters are still right. -/
def Fair (st : Load) (t : ℕ → ℤ) : LoadEv → Prop
  /- the chunk id is new, and no server is chosen twice -/
  | .AllocateChunk chunkId _ _ servers => st.lm.mChunkToServerMap chunkId = none ∧ servers.Nodup
  /- no write lease goes with the entry -/
  | .allocFailed chunkId => ∀ v, st.lm.mChunkToServerMap chunkId = some v → v.chunkServers ≠ [] →
      ∀ l ∈ v.chunkLeases, l.leaseType = .read
  /- when all leases have run out and there is no space for a new one, none of them is a write lease -/
  | .GetChunkWriteLease chunkId hasSpace => ∀ v, st.lm.mChunkToServerMap chunkId = some v →
      st.lm.InRecovery (t 0) = false → findLease LeaseInfo.IsValidWriteLease t 1 v.chunkLeases = none →
      findLease LeaseInfo.IsValidLease t (1 + v.chunkLeases.length) v.chunkLeases = none →
      v.chunkServers.all hasSpace = false → ∀ l ∈ v.chunkLeases, l.leaseType = .read
  /- a write lease that runs out is the last lease of its chunk to do so -/
  | .LeaseCleanup => ∀ c v, st.lm.mChunkToServerMap c = some v → v.chunkServers ≠ [] →
      ∀ l ∈ v.chunkLeases, l.leaseType = .write → LeaseExpired (t 0) l = true →
        ∀ l' ∈ v.chunkLeases, LeaseExpired (t 0) l' = true
  | _ => True

end Load

/-- A run of operations that all meet a condition, under a clock that does not go back. -/
inductive LoadRun (C : Load → (ℕ → ℤ) → LoadEv → Prop) (st₀ : Load) (now₀ : ℤ) : Load → ℤ → Prop
  | nil : LoadRun C st₀ now₀ st₀ now₀
  | step {st now stop} (e : LoadEv) (c : Clock now stop) : LoadRun C st₀ now₀ st now → C st c.read e →
      LoadRun C st₀ now₀ (st.step c.read e) stop

/-! ## Counters -/

variable {servers : List ServerId} {w : ServerId → ℤ} {s : ServerId}

theorem updateAll_apply {a : ℤ} (hn : servers.Nodup) (h : ∀ s ∈ servers, 0 ≤ w s + a) :
    updateAll a servers w s = w s + if s ∈ servers then a else 0 := by
  induction servers generalizing w with
  | nil => simp [updateAll]
  | cons x xs ih =>
    obtain ⟨hx, hxs⟩ := List.nodup_cons.mp hn
    have h₀ : UpdateNumChunkWrites a w x = Function.update w x (w x + a) := by
      rw [UpdateNumChunkWrites, if_neg (not_lt.mpr (h x List.mem_cons_self))]
    change updateAll a xs (UpdateNumChunkWrites a w x) s = _
    rw [h₀, ih hxs]
    · by_cases hs : s = x
      · subst hs
        simp [hx]
      · simp [hs]
    · intro y hy
      have hne : y ≠ x := fun he => hx (he ▸ hy)
      rw [Function.update_of_ne hne]
      exact h y (List.mem_cons_of_mem x hy)

/-- `DecChunkWriteCount` of a list of leases takes off the write leases among them. -/
theorem foldl_dec_apply {ls : List LeaseInfo} (hn : servers.Nodup)
    (h : ∀ s ∈ servers, (ls.countP LeaseInfo.isWrite : ℤ) ≤ w s) :
    ls.foldl (DecChunkWriteCount servers) w s =
      w s - if s ∈ servers then (ls.countP LeaseInfo.isWrite : ℤ) else 0 := by
  induction ls generalizing w with
  | nil => simp
  | cons l ls ih =>
    rw [List.foldl_cons]
    by_cases hl : l.leaseType = .write
    · have hc : (((l :: ls).countP LeaseInfo.isWrite : ℕ) : ℤ) = ls.countP LeaseInfo.isWrite + 1 := by
        simp [LeaseInfo.isWrite, hl]
      simp only [hc] at h ⊢
      have hdec : ∀ s, DecChunkWriteCount servers w l s = w s + if s ∈ servers then -1 else 0 := by
        intro s
        rw [DecChunkWriteCount, if_neg (not_not.mpr hl)]
        refine updateAll_apply hn fun s hs => ?_
        have := h s hs
        omega
      rw [ih, hdec]
      · split_ifs <;> omega
      · intro s hs
        have := h s hs
        rw [hdec, if_pos hs]
        omega
    · have hc : (l :: ls).countP LeaseInfo.isWrite = ls.countP LeaseInfo.isWrite := by
        simp [LeaseInfo.isWrite, hl]
      rw [hc] at h ⊢
      have hdec : DecChunkWriteCount servers w l = w := if_pos hl
      rw [hdec]
      exact ih h

/-! ## Sums over the map -/

/-- A sum over distinct elements when one term changes. -/
theorem sum_map_change {f g : ℤ → ℤ} {c : ℤ} : ∀ {l : List ℤ}, l.Nodup → c ∈ l → (∀ x ∈ l, x ≠ c → g x = f x) →
    (l.map g).sum = (l.map f).sum - f c + g c
  | [], _, hc, _ => absurd hc List.not_mem_nil
  | x :: l, hn, hc, h => by
    obtain ⟨hx, hn⟩ := List.nodup_cons.mp hn
    simp only [List.map_cons, List.sum_cons]
    by_cases he : x = c
    · subst he
      have hrest : l.map g = l.map f := List.map_congr_left fun y hy =>
        h y (List.mem_cons_of_mem x hy) fun he => hx (he ▸ hy)
      rw [hrest]
      omega
    · have hc' : c ∈ l := (List.mem_cons.mp hc).resolve_left (Ne.symm he)
      have ih := sum_map_change hn hc' fun y hy => h y (List.mem_cons_of_mem x hy)
      rw [ih, h x List.mem_cons_self he]
      omega

variable {st : Load} {c : ℤ} {v v' : ChunkPlacementInfo} {t : ℕ → ℤ}

theorem ChunkPlacementInfo.writesOn_nonneg : 0 ≤ v.writesOn s := by
  unfold ChunkPlacementInfo.writesOn
  split_ifs <;> omega

namespace Load

theorem share_eq (h : st.lm.mChunkToServerMap c = some v) : st.share s c = v.writesOn s := by
  simp [share, h]

theorem share_nonneg : 0 ≤ st.share s c := by
  unfold share
  cases st.lm.mChunkToServerMap c with
  | none => exact le_rfl
  | some v => exact ChunkPlacementInfo.writesOn_nonneg

theorem share_le (h : c ∈ st.keys) : st.share s c ≤ st.recorded s := by
  refine List.single_le_sum ?_ _ (List.mem_map_of_mem h)
  intro x hx
  obtain ⟨c', -, rfl⟩ := List.mem_map.mp hx
  exact share_nonneg

/-- The counters are right, and each chunk has at most one write lease, the first of its leases. -/
structure Counted (st : Load) : Prop where
  keyed : st.Keyed
  servers : ∀ c v, st.lm.mChunkToServerMap c = some v → v.chunkServers.Nodup
  head : ∀ c v, st.lm.mChunkToServerMap c = some v → ∀ l ∈ v.chunkLeases.tail, l.leaseType = .read
  writes : ∀ s, st.writes s = st.recorded s

namespace Counted

theorem mem (h : st.Counted) (hv : st.lm.mChunkToServerMap c = some v) : c ∈ st.keys :=
  (h.keyed.mem c).mpr (by simp [hv])

/-- The write leases of a chunk are counted at each of its servers. -/
theorem count_le (h : st.Counted) (hv : st.lm.mChunkToServerMap c = some v) (hs : s ∈ v.chunkServers) :
    (v.chunkLeases.countP LeaseInfo.isWrite : ℤ) ≤ st.writes s := by
  have hle : st.share s c ≤ st.recorded s := share_le (h.mem hv)
  rw [share_eq hv, ChunkPlacementInfo.writesOn, if_pos hs] at hle
  rwa [h.writes s]

/-- **The entry of a chunk is changed**, and the counters of its servers by the difference. -/
theorem set (h : st.Counted) (hv : st.lm.mChunkToServerMap c = some v) (hs : v'.chunkServers = v.chunkServers)
    (hh : ∀ l ∈ v'.chunkLeases.tail, l.leaseType = .read) {lm : LayoutManager}
    (hlm : lm.mChunkToServerMap = st.lm.mChunkToServerMap)
    (hw : ∀ s, w s = st.writes s - v.writesOn s + v'.writesOn s) :
    Counted ⟨lm.set c v', st.keys, w⟩ := by
  have hmap : ∀ c', c' ≠ c → (lm.set c v').mChunkToServerMap c' = st.lm.mChunkToServerMap c' := by
    intro c' hc
    rw [LayoutManager.set_of_ne v' hc, hlm]
  have hcases : ∀ c' u, (lm.set c v').mChunkToServerMap c' = some u →
      (c' = c ∧ u = v') ∨ st.lm.mChunkToServerMap c' = some u := by
    intro c' u hu
    by_cases hc : c' = c
    · subst hc
      exact Or.inl ⟨rfl, by simpa using hu.symm⟩
    · exact Or.inr (hmap c' hc ▸ hu)
  refine ⟨⟨h.keyed.nodup, fun c' => ?_⟩, fun c' u hu => ?_, fun c' u hu => ?_, fun s => ?_⟩
  · by_cases hc : c' = c
    · subst hc
      simpa using h.mem hv
    · rw [hmap c' hc]
      exact h.keyed.mem c'
  · rcases hcases c' u hu with ⟨-, rfl⟩ | hu
    · rw [hs]
      exact h.servers c v hv
    · exact h.servers c' u hu
  · rcases hcases c' u hu with ⟨-, rfl⟩ | hu
    · exact hh
    · exact h.head c' u hu
  · have hsum : (⟨lm.set c v', st.keys, w⟩ : Load).recorded s =
        st.recorded s - st.share s c + (⟨lm.set c v', st.keys, w⟩ : Load).share s c :=
      sum_map_change h.keyed.nodup (h.mem hv) fun x _ hx => by simp [share, hmap x hx]
    rw [hsum, share_eq hv, share_eq (v := v') (LayoutManager.set_self v'), ← h.writes s]
    exact hw s

/-- A new chunk comes into the map. -/
theorem add (h : st.Counted) (hv : st.lm.mChunkToServerMap c = none) (hs : v'.chunkServers.Nodup)
    (hh : ∀ l ∈ v'.chunkLeases.tail, l.leaseType = .read) {lm : LayoutManager}
    (hlm : lm.mChunkToServerMap = st.lm.mChunkToServerMap) (hw : ∀ s, w s = st.writes s + v'.writesOn s) :
    Counted ⟨lm.set c v', addKey st.keys c, w⟩ := by
  have hc : c ∉ st.keys := by simp [h.keyed.mem, hv]
  have hmap : ∀ c', c' ≠ c → (lm.set c v').mChunkToServerMap c' = st.lm.mChunkToServerMap c' := by
    intro c' hc
    rw [LayoutManager.set_of_ne v' hc, hlm]
  have hcases : ∀ c' u, (lm.set c v').mChunkToServerMap c' = some u →
      (c' = c ∧ u = v') ∨ st.lm.mChunkToServerMap c' = some u := by
    intro c' u hu
    by_cases hc : c' = c
    · subst hc
      exact Or.inl ⟨rfl, by simpa using hu.symm⟩
    · exact Or.inr (hmap c' hc ▸ hu)
  rw [addKey, if_neg hc]
  refine ⟨⟨List.nodup_cons.mpr ⟨hc, h.keyed.nodup⟩, fun c' => ?_⟩, fun c' u hu => ?_, fun c' u hu => ?_, fun s => ?_⟩
  · by_cases hc : c' = c
    · subst hc
      simp
    · rw [hmap c' hc, List.mem_cons, ← h.keyed.mem c']
      exact or_iff_right hc
  · rcases hcases c' u hu with ⟨-, rfl⟩ | hu
    · exact hs
    · exact h.servers c' u hu
  · rcases hcases c' u hu with ⟨-, rfl⟩ | hu
    · exact hh
    · exact h.head c' u hu
  · have hrest : st.keys.map ((⟨lm.set c v', c :: st.keys, w⟩ : Load).share s) = st.keys.map (st.share s) :=
      List.map_congr_left fun x hx => by simp [share, hmap x fun he => hc (he ▸ hx)]
    rw [recorded, List.map_cons, List.sum_cons, hrest, share_eq (v := v') (LayoutManager.set_self v')]
    have h₀ := h.writes s
    rw [recorded] at h₀
    have h₁ := hw s
    change w s = _
    omega

/-- A chunk that counts at no server leaves the map. -/
theorem erase (h : st.Counted) (hv : ∀ v, st.lm.mChunkToServerMap c = some v → ∀ s, v.writesOn s = 0) :
    Counted ⟨st.lm.erase c, st.keys.erase c, st.writes⟩ := by
  have hmap : ∀ c' u, (st.lm.erase c).mChunkToServerMap c' = some u → st.lm.mChunkToServerMap c' = some u := by
    intro c' u hu
    by_cases hc : c' = c
    · simp [hc] at hu
    · simpa [hc] using hu
  refine ⟨⟨h.keyed.nodup.erase c, fun c' => ?_⟩, fun c' u hu => h.servers c' u (hmap c' u hu),
    fun c' u hu => h.head c' u (hmap c' u hu), fun s => ?_⟩
  · rw [h.keyed.nodup.mem_erase_iff]
    by_cases hc : c' = c
    · simp [hc]
    · simpa [hc] using h.keyed.mem c'
  · have hzero : st.share s c = 0 := by
      cases hc : st.lm.mChunkToServerMap c with
      | none => simp [share, hc]
      | some v => rw [share_eq hc, hv v hc s]
    have hrest : (st.keys.erase c).map ((⟨st.lm.erase c, st.keys.erase c, st.writes⟩ : Load).share s) =
        (st.keys.erase c).map (st.share s) := by
      refine List.map_congr_left fun x hx => ?_
      have hne : x ≠ c := (h.keyed.nodup.mem_erase_iff.mp hx).1
      simp [share, hne]
    rw [recorded, hrest]
    by_cases hc : c ∈ st.keys
    · have hperm := ((List.perm_cons_erase hc).map (st.share s)).sum_eq
      rw [List.map_cons, List.sum_cons, hzero, zero_add] at hperm
      rw [← hperm]
      exact h.writes s
    · rw [List.erase_of_not_mem hc]
      exact h.writes s

/-- The counters after `DecChunkWriteCount` of some leases of a chunk. -/
theorem dec (h : st.Counted) (hv : st.lm.mChunkToServerMap c = some v) {ls : List LeaseInfo}
    (hle : ls.countP LeaseInfo.isWrite ≤ v.chunkLeases.countP LeaseInfo.isWrite) (s : ServerId) :
    ls.foldl (DecChunkWriteCount v.chunkServers) st.writes s =
      st.writes s - if s ∈ v.chunkServers then (ls.countP LeaseInfo.isWrite : ℤ) else 0 := by
  refine foldl_dec_apply (h.servers c v hv) fun s hs => ?_
  have := h.count_le hv hs
  omega

/-- All leases of a chunk are given up. -/
theorem cleaned_apply (h : st.Counted) (hv : st.lm.mChunkToServerMap c = some v) (s : ServerId) :
    st.cleaned c s = st.writes s - v.writesOn s := by
  rw [cleaned, hv]
  exact h.dec hv le_rfl s

/-! ## Clean-up -/

/-- Where a write lease runs out, all leases of the chunk do. -/
def Ripe (now : ℤ) (st : Load) : Prop := ∀ c v, st.lm.mChunkToServerMap c = some v → v.chunkServers ≠ [] →
  ∀ l ∈ v.chunkLeases, l.leaseType = .write → LeaseExpired now l = true →
    ∀ l' ∈ v.chunkLeases, LeaseExpired now l' = true

end Counted

theorem countP_isWrite_eq_zero {ls : List LeaseInfo} (h : ∀ l ∈ ls, l.leaseType = .read) :
    ls.countP LeaseInfo.isWrite = 0 := by
  rw [List.countP_eq_zero]
  intro l hl
  simp [LeaseInfo.isWrite, h l hl]

/-- What `remove_if` leaves behind has the write leases that have run out, when the only write lease is the
first lease and the others run out with it. -/
theorem removeIf_countP {p : LeaseInfo → Bool} {ls : List LeaseInfo}
    (hh : ∀ l ∈ ls.tail, l.leaseType = .read)
    (hp : ∀ l ∈ ls, l.leaseType = .write → p l = true → ∀ l' ∈ ls, p l' = true) :
    (removeIf p ls).2.countP LeaseInfo.isWrite + (removeIf p ls).1.countP LeaseInfo.isWrite =
      ls.countP LeaseInfo.isWrite := by
  rcases ls with - | ⟨l, ls⟩
  · rfl
  have hrest : ∀ k : List LeaseInfo, k.Sublist ls → k.countP LeaseInfo.isWrite = 0 := fun k hk =>
    countP_isWrite_eq_zero fun x hx => hh x (hk.subset hx)
  by_cases hl : l.leaseType = .write
  · by_cases hpl : p l = true
    · -- everything has run out
      have hall := hp l List.mem_cons_self hl hpl
      have hkept : (removeIf p (l :: ls)).1 = [] := by
        rw [removeIf, List.filter_eq_nil_iff]
        intro x hx
        simp [hall x hx]
      have htail : (removeIf p (l :: ls)).2 = l :: ls := by
        change (l :: ls).drop (removeIf p (l :: ls)).1.length = _
        rw [hkept]
        rfl
      rw [hkept, htail]
      rfl
    · -- the write lease stays in front
      have hkept : (removeIf p (l :: ls)).1 = l :: ls.filter fun x => !p x := by
        simp [removeIf, hpl]
      have htail : (removeIf p (l :: ls)).2 = ls.drop (ls.filter fun x => !p x).length := by
        change (l :: ls).drop (removeIf p (l :: ls)).1.length = _
        rw [hkept]
        rfl
      rw [hkept, htail, hrest _ (List.drop_sublist _ _), List.countP_cons, List.countP_cons,
        hrest _ List.filter_sublist, hrest _ (List.Sublist.refl ls), zero_add]
  · have hread : ∀ x ∈ l :: ls, x.leaseType = .read := by
      intro x hx
      rcases List.mem_cons.mp hx with rfl | hx
      · cases ht : x.leaseType with
        | read => rfl
        | write => exact absurd ht hl
      · exact hh x hx
    have hzero : ∀ k : List LeaseInfo, k.Sublist (l :: ls) → k.countP LeaseInfo.isWrite = 0 := fun k hk =>
      countP_isWrite_eq_zero fun x hx => hread x (hk.subset hx)
    rw [hzero (removeIf p (l :: ls)).2 (List.drop_sublist _ _), hzero (removeIf p (l :: ls)).1 List.filter_sublist,
      hzero (l :: ls) (List.Sublist.refl _)]

namespace Counted

theorem expire {now : ℤ} (h : st.Counted) (hr : Ripe now st) (c : ℤ) :
    (st.LeaseExpirer now c).Counted ∧ Ripe now (st.LeaseExpirer now c) ∧
      (st.LeaseExpirer now c).keys = st.keys := by
  unfold LeaseExpirer
  rcases hv : st.lm.mChunkToServerMap c with - | v
  · exact ⟨h, hr, rfl⟩
  dsimp only
  set kept := (removeIf (LeaseExpired now) v.chunkLeases).1 with hkept
  refine ⟨@Counted.set _ st c v { v with chunkLeases := kept } h hv rfl ?_ _ rfl ?_, ?_, rfl⟩
  · intro l hl
    have htail : kept.tail.Sublist v.chunkLeases.tail := (List.filter_sublist).tail
    exact h.head c v hv l (htail.subset hl)
  · intro s
    by_cases hs : v.chunkServers = []
    · have h₀ : ∀ (ls : List LeaseInfo), ls.foldl (DecChunkWriteCount []) st.writes = st.writes := by
        intro ls
        induction ls with
        | nil => rfl
        | cons l ls ih =>
          have hdec : DecChunkWriteCount [] st.writes l = st.writes := by
            unfold DecChunkWriteCount updateAll
            split_ifs <;> rfl
          rw [List.foldl_cons, hdec, ih]
      simp [hs, h₀, ChunkPlacementInfo.writesOn]
    · have hcount := removeIf_countP (h.head c v hv) (hr c v hv hs)
      rw [← hkept] at hcount
      rw [h.dec hv (by omega) s]
      simp only [ChunkPlacementInfo.writesOn]
      split_ifs <;> omega
  · intro c' u hu hs l hl hw he
    by_cases hc : c' = c
    · subst hc
      obtain rfl : { v with chunkLeases := kept } = u := by simpa using hu
      have : LeaseExpired now l = false := by simpa using (List.mem_filter.mp hl).2
      rw [this] at he
      cases he
    · exact hr c' u (by simpa [hc] using hu) hs l hl hw he

theorem cleanup (h : st.Counted) (hr : Ripe (t 0) st) : (st.LeaseCleanup t).Counted := by
  unfold LeaseCleanup
  suffices hall : ∀ (ks : List ℤ) (st : Load), st.Counted → Ripe (t 0) st →
      (ks.foldl (LeaseExpirer (t 0)) st).Counted from hall st.keys st h hr
  intro ks
  induction ks with
  | nil => exact fun st h _ => h
  | cons k ks ih =>
    intro st h hr
    obtain ⟨h', hr', -⟩ := h.expire hr k
    exact ih _ h' hr'

/-! ## Steps -/

/-- A renewal changes no type of a lease. -/
theorem renewLease_types {leaseId e : ℤ} : ∀ ls : List LeaseInfo,
    (LayoutManager.renewLease leaseId e ls).map LeaseInfo.leaseType = ls.map LeaseInfo.leaseType
  | [] => rfl
  | l :: ls => by
    rw [LayoutManager.renewLease]
    split_ifs
    · rfl
    · rw [List.map_cons, List.map_cons, renewLease_types ls]

theorem renew (h : st.Counted) (hv : st.lm.mChunkToServerMap c = some v) (leaseId e : ℤ) :
    Counted ⟨st.lm.set c { v with chunkLeases := LayoutManager.renewLease leaseId e v.chunkLeases }, st.keys,
      st.writes⟩ := by
  have htypes := @renewLease_types leaseId e v.chunkLeases
  refine @Counted.set _ st c v { v with chunkLeases := LayoutManager.renewLease leaseId e v.chunkLeases } h hv rfl ?_
    _ rfl ?_
  · intro l hl
    have hm : l.leaseType ∈ (v.chunkLeases.map LeaseInfo.leaseType).tail := by
      rw [← htypes, ← List.map_tail]
      exact List.mem_map_of_mem hl
    rw [← List.map_tail] at hm
    obtain ⟨l', hl', he⟩ := List.mem_map.mp hm
    rw [← he]
    exact h.head c v hv l' hl'
  · intro s
    have hcount : (LayoutManager.renewLease leaseId e v.chunkLeases).countP LeaseInfo.isWrite =
        v.chunkLeases.countP LeaseInfo.isWrite := by
      have hmap : ∀ ls : List LeaseInfo, ls.countP LeaseInfo.isWrite =
          (ls.map LeaseInfo.leaseType).countP (fun x => decide (x = .write)) := by
        intro ls
        rw [List.countP_map]
        rfl
      rw [hmap, hmap, htypes]
    simp only [ChunkPlacementInfo.writesOn, hcount]
    omega

theorem allocate (h : st.Counted) {chunkId fid n : ℤ} (hv : st.lm.mChunkToServerMap chunkId = none)
    (hn : servers.Nodup) : (st.AllocateChunk chunkId fid n servers t).Counted := by
  unfold AllocateChunk
  rcases AllocateChunk_spec st.lm chunkId fid n servers t with ⟨status, hst, he⟩ | ⟨master, rest, -, he⟩
  · rw [he]
    dsimp only
    rw [if_neg hst.ne]
    exact h
  · rw [he]
    dsimp only
    rw [if_pos rfl]
    refine h.add hv hn (by simp) rfl fun s => ?_
    rw [updateAll_apply hn]
    · simp [ChunkPlacementInfo.writesOn, LeaseInfo.isWrite]
    · intro s _
      have h₀ : 0 ≤ st.recorded s := List.sum_nonneg fun x hx => by
        obtain ⟨c', -, rfl⟩ := List.mem_map.mp hx
        exact share_nonneg
      rw [h.writes s]
      omega

theorem writeLease (h : st.Counted) {chunkId : ℤ} {hasSpace : ServerId → Bool}
    (hf : st.Fair t (.GetChunkWriteLease chunkId hasSpace)) :
    (st.GetChunkWriteLease chunkId hasSpace t).Counted := by
  unfold GetChunkWriteLease
  rcases GetChunkWriteLease_spec st.lm chunkId hasSpace t with
    ⟨r, hn, hst, he⟩ | ⟨v, master, rest, hv, hs, hr, hw, hl, ⟨hsp, he⟩ | ⟨k, he⟩⟩
  · rw [he]
    dsimp only
    rw [hn, if_neg Bool.false_ne_true, if_neg hst]
    exact h
  · -- the copy is dropped, and the write leases given up in it are none
    rw [he]
    dsimp only
    rw [if_neg Bool.false_ne_true, if_pos rfl]
    have hzero : v.chunkLeases.countP LeaseInfo.isWrite = 0 :=
      countP_isWrite_eq_zero (hf v hv hr hw hl hsp)
    have hwrites : st.cleaned chunkId = st.writes := by
      funext s
      rw [h.cleaned_apply hv s, ChunkPlacementInfo.writesOn, hzero]
      simp
    rw [hwrites]
    exact h
  · rw [he]
    dsimp only
    rw [if_pos rfl]
    refine @Counted.set _ st chunkId v { v with chunkLeases := [_] } h hv rfl (by simp) _ rfl fun s => ?_
    rw [updateAll_apply (h.servers chunkId v hv), h.cleaned_apply hv s]
    · simp [ChunkPlacementInfo.writesOn, LeaseInfo.isWrite]
    · intro s hs
      have := h.count_le hv hs
      rw [h.cleaned_apply hv s, ChunkPlacementInfo.writesOn, if_pos hs]
      omega

/-- **A step keeps the counters right.** -/
theorem step {e : LoadEv} (h : st.Counted) (hf : st.Fair t e) : (st.step t e).Counted := by
  cases e with
  | AllocateChunk chunkId fid n servers => exact h.allocate hf.1 hf.2
  | allocFailed chunkId =>
    refine h.erase fun v hv s => ?_
    unfold ChunkPlacementInfo.writesOn
    split_ifs with hs
    · have hread := hf v hv (List.ne_nil_of_mem hs)
      rw [countP_isWrite_eq_zero hread]
      rfl
    · rfl
  | GetChunkWriteLease chunkId hasSpace => exact h.writeLease hf
  | GetChunkReadLease chunkId =>
    simp only [Load.step]
    rcases GetChunkReadLease_spec st.lm chunkId t with ⟨status, -, he⟩ | ⟨v, hv, he⟩
    · rw [he]
      exact h
    · rw [he]
      refine @Counted.set _ st chunkId v { v with chunkLeases := v.chunkLeases ++ [_] } h hv rfl ?_ _ rfl fun s => ?_
      · -- a read lease behind the others
        intro l hl
        have hm : l ∈ v.chunkLeases.tail ∨ l.leaseType = .read := by
          rcases hls : v.chunkLeases with - | ⟨x, xs⟩
          · simp [hls] at hl
          · rw [hls, List.cons_append, List.tail_cons, List.mem_append] at hl
            refine hl.imp_right fun hl => ?_
            rw [List.mem_singleton.mp hl]
        exact hm.elim (h.head chunkId v hv l) id
      · simp [ChunkPlacementInfo.writesOn, LeaseInfo.isWrite, List.countP_append]
  | LeaseRenew chunkId leaseType leaseId =>
    simp only [Load.step]
    rcases LeaseRenew_spec st.lm chunkId leaseType leaseId t with
      ⟨hv, -, he⟩ | ⟨-, ⟨status, hst, he⟩ | ⟨v, l, hv, -, -, he⟩⟩
    · rw [he]
      dsimp only
      rw [if_pos rfl]
      refine h.add hv List.nodup_nil (by simp) rfl fun s => ?_
      simp [ChunkPlacementInfo.writesOn, ChunkPlacementInfo.new]
    · rw [he]
      dsimp only
      rw [if_neg hst.ne]
      exact h
    · rw [he]
      dsimp only
      rw [if_pos rfl, addKey, if_pos (h.mem hv)]
      exact h.renew hv _ _
  | LeaseCleanup => exact h.cleanup hf

end Counted

end Load

/-- **The writes counted at a server are the write leases recorded on its chunks**, along every run of fair
steps. -/
theorem writes_recorded {st₀ : Load} {now₀ now : ℤ} (h₀ : st₀.Start) (hr : LoadRun Load.Fair st₀ now₀ st now) :
    ∀ s, st.writes s = st.recorded s := by
  suffices h : st.Counted from h.writes
  induction hr with
  | nil =>
    refine ⟨h₀.keyed, h₀.servers, fun c v hv => by simp [h₀.leases c v hv], fun s => ?_⟩
    rw [h₀.writes s, Load.recorded, eq_comm]
    refine List.sum_eq_zero fun x hx => ?_
    obtain ⟨c, -, rfl⟩ := List.mem_map.mp hx
    unfold Load.share
    rcases hv : st₀.lm.mChunkToServerMap c with - | v
    · rfl
    · simp [ChunkPlacementInfo.writesOn, h₀.leases c v hv]
  | step e c _ hf ih => exact ih.step hf

/-- Nothing is in the map. -/
def Load.fresh : Load := ⟨LayoutManager.fresh, [], fun _ => 0⟩

theorem Load.fresh_start : Load.fresh.Start :=
  ⟨⟨List.nodup_nil, fun c => by simp [Load.fresh, LayoutManager.fresh]⟩, by simp [Load.fresh, LayoutManager.fresh],
    by simp [Load.fresh, LayoutManager.fresh], fun _ => rfl⟩

/-- A chunk is written to on two servers; its lease runs out, and it is written to again. -/
def rewriteLoad : Load :=
  ((Load.fresh.step (fun _ => 100) (.AllocateChunk 7 3 2 [0, 1])).step (fun _ => 161) .LeaseCleanup).step
    (fun _ => 170) (.GetChunkWriteLease 7 fun _ => true)

theorem rewriteLoad_recorded : rewriteLoad.writes 0 = 1 ∧ rewriteLoad.writes 0 = rewriteLoad.recorded 0 := by
  have hr₁ : LoadRun Load.Fair Load.fresh 100 _ 100 :=
    .step (.AllocateChunk 7 3 2 [0, 1]) (Clock.still 100 100 le_rfl) .nil ⟨rfl, by decide⟩
  have hr₂ : LoadRun Load.Fair Load.fresh 100 _ 161 :=
    .step .LeaseCleanup (Clock.still 100 161 (by decide)) hr₁ fun c v hv _ l hl _ _ l' hl' => by
      by_cases hc : c = 7
      · subst hc
        obtain rfl := Option.some.inj hv
        obtain rfl := List.mem_singleton.mp hl'
        decide
      · rw [Load.step, Load.AllocateChunk] at hv
        simp [LayoutManager.AllocateChunk, Load.fresh, LayoutManager.fresh, LayoutManager.set, hc] at hv
  have hr : LoadRun Load.Fair Load.fresh 100 rewriteLoad 170 :=
    .step (.GetChunkWriteLease 7 fun _ => true) (Clock.still 161 170 (by decide)) hr₂ fun v _ _ _ _ hsp => by
      simp at hsp
  exact ⟨by decide +kernel, writes_recorded Load.fresh_start hr 0⟩

/-- The write lease of a chunk runs out while a client reads the chunk. -/
def readLoad : Load :=
  ((Load.fresh.step (fun _ => 100) (.AllocateChunk 7 3 1 [0])).step (fun _ => 130) (.GetChunkReadLease 7)).step
    (fun _ => 170) .LeaseCleanup

/-- The clean-up finds the read lease behind the leases that stay, and the write is counted forever. -/
theorem readLoad_not_recorded : Load.fresh.Start ∧ LoadRun (fun _ _ _ => True) Load.fresh 100 readLoad 170 ∧
    readLoad.writes 0 = 1 ∧ readLoad.recorded 0 = 0 := by
  refine ⟨Load.fresh_start, ?_, by decide +kernel, by decide +kernel⟩
  exact .step .LeaseCleanup (Clock.still 130 170 (by decide))
    (.step (.GetChunkReadLease 7) (Clock.still 100 130 (by decide))
      (.step (.AllocateChunk 7 3 1 [0]) (Clock.still 100 100 le_rfl) .nil trivial) trivial) trivial

end Kfs
