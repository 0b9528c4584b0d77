import Kfs.Fs.Order
import Kfs.Fs.Succeed
import Kfs.Server.Namespace

/-!
# Numbers that are given out

The parse handlers of `request.cc` let only some requests through; the numbers of the states that the server
reaches with these are in range.

* `Req.Parsed`: what the parse handlers check, and what the text of a request can hold;
* `Served`: the states reached with such requests;
* `Numbered`: the items are ordered, each chunk has its own place, and chunk ids and versions are positive and
  not above the seed;
* `Served.numbered`.
-/

namespace Kfs

variable {env : Env} {fs fs' : Fs} {s : Sys} {o : Out}

/-! ## Requests as they are parsed -/

def MAX_REPLICAS_PER_FILE : ℤ := 64

/-- A name in the text of a request: one line of a C string. -/
def TextName (name : Str) : Prop := '\n' ∉ name ∧ '\x00' ∉ name

instance (name : Str) : Decidable (TextName name) := by unfold TextName; infer_instance

/-- The requests that the parse handlers construct. -/
def Req.Parsed : Req → Prop
  | .create dir name n _ => 0 ≤ dir ∧ TextName name ∧ 0 < n ∧ n ≤ MAX_REPLICAS_PER_FILE
  | .mkdir dir name | .remove dir name | .rmdir dir name => 0 ≤ dir ∧ TextName name
  | .rename dir oldname newname _ => 0 ≤ dir ∧ TextName oldname ∧ TextName newname
  | .allocate fid offset _ _ | .truncate fid offset _ _ => 0 ≤ fid ∧ 0 ≤ offset
  | .changeFileReplication _ n => 0 < n ∧ n ≤ MAX_REPLICAS_PER_FILE
  | _ => True

instance (r : Req) : Decidable r.Parsed := by cases r <;> unfold Req.Parsed <;> infer_instance

/-- The states that the server reaches from a new tree with requests that have been parsed. -/
def Served (s : Sys) : Prop :=
  ∃ env fs es log, newTree env = some fs ∧ Run (fun _ e => e.req.Parsed) ⟨fs, []⟩ es s log

/-! ## The invariant -/

/-- The numbers of a waiting allocation. -/
structure Alloc.Sound (chunkID : ℤ) (a : Alloc) : Prop where
  fid : 0 ≤ a.fid
  offset : 0 ≤ a.offset
  aligned : a.offset.tmod CHUNKSIZE = 0
  pos : 0 < a.chunkId
  le : a.chunkId ≤ chunkID
  version : 0 ≤ a.chunkVersion

/-- Chunk ids and versions are in range, and no two chunks are at one place. -/
structure Numbered (s : Sys) : Prop where
  tidy : Tidy s.fs
  ordered : Ordered (s.fs.leaves.map Meta.key)
  places : ((chunks s.fs.leaves).map MetaChunkInfo.place).Nodup
  seed : 0 ≤ s.fs.chunkID
  inc : 0 ≤ s.fs.chunkVersionInc
  chunk : ∀ c, .chunkinfo c ∈ s.fs.leaves → 0 < c.chunkId ∧ c.chunkId ≤ s.fs.chunkID ∧ 0 ≤ c.chunkVersion
  pending : ∀ a ∈ s.pending, a.Sound s.fs.chunkID

namespace Numbered

theorem plain (h : Numbered s) : ∀ x ∈ s.fs.leaves, x.key.Plain := fun x hx =>
  h.ordered.2 x.key (List.mem_map_of_mem hx)

/-- Operations that write no chunk keep the invariant. -/
theorem edits (h : Numbered s) (ht : Tidy fs') (he : NameEdits s.fs fs') : Numbered { s with fs := fs' } where
  tidy := ht
  ordered := he.edits.ordered (fun _ hm => hm.plain) h.ordered
  places := h.places.sublist (he.edits.chunks_sublist.map _)
  seed := he.chunkID ▸ h.seed
  inc := he.inc ▸ h.inc
  chunk c hc := by
    change 0 < c.chunkId ∧ c.chunkId ≤ fs'.chunkID ∧ 0 ≤ c.chunkVersion
    rw [he.chunkID]
    exact h.chunk c (he.edits.chunk hc)
  pending a ha := by
    change a.Sound fs'.chunkID
    rw [he.chunkID]
    exact h.pending a ha

theorem wait (h : Numbered s) {a : Alloc} (ha : a.Sound s.fs.chunkID) :
    Numbered { s with pending := s.pending ++ [a] } where
  tidy := h.tidy
  ordered := h.ordered
  places := h.places
  seed := h.seed
  inc := h.inc
  chunk := h.chunk
  pending b hb := by
    rcases List.mem_append.mp hb with hb | hb
    · exact h.pending b hb
    · rwa [List.mem_singleton.mp hb]

theorem erase (h : Numbered s) (i : ℕ) : Numbered { s with pending := s.pending.eraseIdx i } where
  tidy := h.tidy
  ordered := h.ordered
  places := h.places
  seed := h.seed
  inc := h.inc
  chunk := h.chunk
  pending a ha := h.pending a (List.mem_of_mem_eraseIdx ha)

theorem nextChunk (h : Numbered s) : Numbered { s with fs := s.fs.nextChunk } where
  tidy := h.tidy.nextChunk
  ordered := h.ordered
  places := h.places
  seed := by have := h.seed; change 0 ≤ s.fs.chunkID + 1; omega
  inc := h.inc
  chunk c hc := by
    obtain ⟨h₁, h₂, h₃⟩ := h.chunk c hc
    refine ⟨h₁, ?_, h₃⟩
    change c.chunkId ≤ s.fs.chunkID + 1
    omega
  pending a ha := by
    have := h.pending a ha
    refine { this with le := ?_ }
    change a.chunkId ≤ s.fs.chunkID + 1
    have := this.le
    omega

end Numbered

/-! ## Steps -/

theorem chunkStartOffset_of_tmod {offset : ℤ} (h : offset.tmod CHUNKSIZE = 0) :
    chunkStartOffset offset = offset := by
  unfold chunkStartOffset
  rw [mul_comm]
  have := Int.mul_tdiv_add_tmod offset CHUNKSIZE
  omega

theorem chunkStartOffset_nonneg {offset : ℤ} (h : 0 ≤ offset) : 0 ≤ chunkStartOffset offset := by
  unfold chunkStartOffset CHUNKSIZE
  have := Int.tdiv_nonneg h (show (0 : ℤ) ≤ 67108864 by decide)
  omega

theorem startAllocate_numbered {fid offset : ℤ} {reply : LeaseReply} {placed : Bool} (h : Numbered s)
    (hf : 0 ≤ fid) (ho : 0 ≤ offset) (ha : startAllocate s fid offset reply placed = some o) :
    Numbered o.sys := by
  rcases startAllocate_spec ha with
    ⟨-, rfl⟩ | ⟨fa, -, -, hal, ⟨c, hc, ⟨st, -, rfl⟩ | ⟨-, rfl⟩ | ⟨-, rfl⟩⟩ | ⟨-, ⟨-, rfl⟩ | ⟨-, rfl⟩⟩⟩
  · exact h
  · exact h
  · exact h
  · obtain ⟨hm, -, -⟩ := getChunk_spec h.plain (chunkStartOffset_ne offset) hc
    obtain ⟨h₁, h₂, h₃⟩ := h.chunk c hm
    have := h.inc
    exact h.wait ⟨hf, ho, hal, h₁, h₂, by simp only; omega⟩
  · have := h.seed
    exact h.nextChunk.wait ⟨hf, ho, hal, by simp only; omega, le_rfl, h.inc⟩
  · exact h.nextChunk

theorem places_update {k : Key} {g : Meta → Meta} :
    ∀ {l : List Meta}, (∀ x ∈ l, x.key.eqv k = true →
      (g x).chunkinfo?.map MetaChunkInfo.place = x.chunkinfo?.map MetaChunkInfo.place) →
    (chunks (Leaves.update l k g)).map MetaChunkInfo.place = (chunks l).map MetaChunkInfo.place
  | [], _ => rfl
  | x :: l, h => by
    have hcons : ∀ (y : Meta) (l : List Meta), (chunks (y :: l)).map MetaChunkInfo.place =
        (y.chunkinfo?.map MetaChunkInfo.place).toList ++ (chunks l).map MetaChunkInfo.place := by
      intro y l
      cases y <;> rfl
    rw [Leaves.update]
    split_ifs with hk
    · rw [hcons, hcons, h x List.mem_cons_self hk]
    · rw [hcons, hcons, places_update fun y hy => h y (List.mem_cons_of_mem _ hy)]

/-- `assignChunkId` changes a chunk where it is, or puts a chunk to a place that is free. -/
theorem assignChunkId_places {fid offset chunkId v st : ℤ} (hp : ∀ x ∈ fs.leaves, x.key.Plain)
    (hal : offset.tmod CHUNKSIZE = 0) (hn : ((chunks fs.leaves).map MetaChunkInfo.place).Nodup)
    (h : assignChunkId env fs fid offset chunkId v = (st, fs')) :
    ((chunks fs'.leaves).map MetaChunkInfo.place).Nodup := by
  rcases assignChunkId_spec h with
    ⟨-, -, rfl⟩ | ⟨fa, -, ⟨c, -, -, -, rfl⟩ | ⟨c, hc, -, -, rfl⟩ | ⟨hc, -, rfl⟩⟩
  · exact hn
  · exact hn
  · obtain ⟨-, hid, hoff⟩ := getChunk_spec hp (chunkStartOffset_ne offset) hc
    rw [setChunk, places_update fun x hx hk => ?_]
    · exact hn
    · obtain ⟨c', rfl, hid', hoff'⟩ := (eqv_chunk x fid _).mp hk
      have hne : c'.offset ≠ -1 := hp _ hx
      have hs := chunkStartOffset_ne offset
      simp only [Meta.chunkinfo?, Option.map_some, MetaChunkInfo.place, hid, hid', hoff, Option.some.injEq,
        Prod.mk.injEq, true_and]
      omega
  · have hins : chunks (linkChunk env fs.leaves ⟨fid, offset, chunkId, v⟩) =
        chunks (Leaves.insert fs.leaves (.chunkinfo ⟨fid, offset, chunkId, v⟩)) := by
      refine chunks_update fun x _ hk => ?_
      obtain ⟨f, rfl, -⟩ := (eqv_fattr x _).mp hk
      exact ⟨rfl, trivial⟩
    have hperm := ((Leaves.insert_perm fs.leaves (.chunkinfo ⟨fid, offset, chunkId, v⟩)).filterMap
      Meta.chunkinfo?).map MetaChunkInfo.place
    rw [hins]
    refine hperm.nodup_iff.mpr (List.nodup_cons.mpr ⟨fun hm => ?_, hn⟩)
    -- the place is free
    obtain ⟨c, hcm, he⟩ := List.mem_map.mp hm
    simp only [MetaChunkInfo.place, Prod.mk.injEq] at he
    rw [getChunk_eq, List.find?_eq_none] at hc
    refine hc c hcm (decide_eq_true ⟨he.1, Or.inl ?_⟩)
    rw [he.2, chunkStartOffset_of_tmod hal]

theorem assignChunkId_numbered (h : Numbered s) {a : Alloc} {st : ℤ} (ha : a.Sound s.fs.chunkID)
    (hs : assignChunkId env s.fs a.fid a.offset a.chunkId a.chunkVersion = (st, fs')) :
    Numbered { s with fs := fs' } := by
  have he := assignChunkId_edits h.plain hs
  have hseed : fs'.chunkID = s.fs.chunkID ∧ fs'.chunkVersionInc = s.fs.chunkVersionInc := by
    rcases assignChunkId_spec hs with
      ⟨-, -, rfl⟩ | ⟨fa, -, ⟨c, -, -, -, rfl⟩ | ⟨c, -, -, -, rfl⟩ | ⟨-, -, rfl⟩⟩ <;> exact ⟨rfl, rfl⟩
  refine ⟨assignChunkId_tidy h.tidy hs, he.ordered ?_ h.ordered,
    assignChunkId_places h.plain ha.aligned h.places hs, hseed.1 ▸ h.seed, hseed.2 ▸ h.inc,
    fun c hc => ?_, fun b hb => ?_⟩
  · rintro m (hm | ⟨c, hc, rfl⟩ | rfl)
    · exact hm.plain
    · have : (Meta.chunkinfo c).key.Plain := h.plain _ hc
      exact this
    · have := ha.offset
      simp only [Meta.key, Key.Plain, Key.matchAny]
      omega
  · change 0 < c.chunkId ∧ c.chunkId ≤ fs'.chunkID ∧ 0 ≤ c.chunkVersion
    rw [hseed.1]
    rcases he.mem hc with hc | hc | ⟨c', hc', he'⟩ | he'
    · exact h.chunk c hc
    · exact hc.elim
    · obtain rfl := Meta.chunkinfo.inj he'
      obtain ⟨h₁, h₂, -⟩ := h.chunk c' hc'
      exact ⟨h₁, h₂, ha.version⟩
    · obtain rfl := Meta.chunkinfo.inj he'
      exact ⟨ha.pos, ha.le, ha.version⟩
  · change b.Sound fs'.chunkID
    rw [hseed.1]
    exact h.pending b hb

/-- `ChangeIncarnationNumber` leaves a positive number. -/
theorem changeIncarnationNumber_eq (h : 0 ≤ s.fs.chunkVersionInc) : ∃ n, 1 ≤ n ∧
    changeIncarnationNumber s = done s 0 { s.fs with chunkVersionInc := n } (.chunkVersionInc n) := by
  unfold changeIncarnationNumber
  by_cases hi : s.fs.chunkVersionInc < 1
  · exact ⟨s.fs.chunkVersionInc + 1, by omega, by simp [hi]⟩
  · exact ⟨s.fs.chunkVersionInc, by omega, by simp [hi]⟩

theorem changeIncarnationNumber_numbered (h : Numbered s) : Numbered (changeIncarnationNumber s).sys := by
  have ht := changeIncarnationNumber_tidy h.tidy
  unfold changeIncarnationNumber at ht ⊢
  dsimp only at ht ⊢
  split_ifs at ht ⊢ with hi
  · exact ⟨ht, h.ordered, h.places, h.seed, by have := h.inc; change 0 ≤ s.fs.chunkVersionInc + 1; omega, h.chunk,
      h.pending⟩
  · exact h

theorem handle_numbered {req : Req} (h : Numbered s) (hp : req.Parsed) (ho : Handled env s req o) :
    Numbered o.sys := by
  have ht := handle_tidy h.tidy ho
  cases ho with
  | refused => exact h
  | create hd hc => exact h.edits ht (create_edits hc)
  | mkdir hd hm => exact h.edits ht (mkdir_edits hm)
  | remove hr => exact h.edits ht (removeF_edits env 2 hr)
  | rmdir hr => exact h.edits ht (rmdir_edits hr)
  | rename hr => exact h.edits ht (renameWith_edits (removeF_edits env 2) hr)
  | allocate ha => exact startAllocate_numbered h hp.1 hp.2 ha
  | assigned hi ha =>
    exact assignChunkId_numbered (h.erase _) (h.pending _ (List.mem_of_getElem? hi)) ha
  | layoutFailed hi => exact changeIncarnationNumber_numbered (h.erase _)
  | truncate hc => exact h.edits ht (truncate_edits hc)
  | truncateAlloc hc hst ha =>
    have h₁ := h.edits (truncate_tidy h.tidy hc) (truncate_edits hc)
    rcases truncate_spec hc with ⟨hlt, -⟩ | ⟨fa, -, -, -, ⟨-, -, rfl, -⟩ | ⟨-, h0, -⟩⟩
    · omega
    · have := startAllocate_numbered h₁ hp.1 (chunkStartOffset_nonneg hp.2) ha
      exact this
    · omega
  | changeFileReplication hc => exact h.edits ht (changeFileReplication_edits hc)
  | changeIncarnationNumber => exact changeIncarnationNumber_numbered h
  | cleanupDumpster hc => exact h.edits ht (cleanupDumpster_edits hc)
  | emptyDumpsterDir hc => exact h.edits ht (emptyDumpsterDir_edits hc)

theorem newTree_numbered (h : newTree env = some fs) : Numbered ⟨fs, []⟩ := by
  have ht := newTree_tidy h
  rw [newTree_eq] at h
  obtain rfl := Option.some.inj h
  refine ⟨ht, ?_, List.nodup_nil, show (0 : ℤ) ≤ ROOTFID by decide, le_rfl, fun c hc => ?_,
    fun a ha => absurd ha List.not_mem_nil⟩
  · simp only [rootLeaves, List.map_cons, List.map_nil, Meta.key, MetaFattr.new]
    decide
  · simp [rootLeaves] at hc

/-- A run of parsed requests keeps the numbers in range. -/
theorem Run.numbered {C : Sys → Event → Prop} {s₀ : Sys} {es : List Event} {log : List LogRec}
    (hC : ∀ s e, C s e → e.req.Parsed) (hr : Run C s₀ es s log) (h : Numbered s₀) : Numbered s :=
  hr.invariant h fun s e _ hn hc ho => handle_numbered hn (hC s e hc) (handle_cases ho)

theorem Served.numbered (h : Served s) : Numbered s := by
  obtain ⟨env, fs, es, log, hn, hr⟩ := h
  exact hr.numbered (fun _ _ hc => hc) (newTree_numbered hn)

end Kfs
