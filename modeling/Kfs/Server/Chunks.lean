import Kfs.Fs.ChunkTable
import Kfs.Server.Namespace

/-!
# The chunk table over runs of requests

* `ChunkInv`: the chunk table agrees with the attributes, and a chunk id belongs to one place of one file,
  also in the allocations that wait for their chunk servers;
* `assignChunkId_inv`, `truncate_inv`, `startAllocate_inv`, `handle_chunks`: the steps keep it when no chunk
  is allocated for a directory;
* `ChunksOK`, **`run_chunksOK`**.
-/

namespace Kfs

variable {env : Env} {fs fs' : Fs} {s : Sys} {o : Out} {dir fid st : ℤ} {name : Str}

/-! ## Offsets -/

theorem aligned_iff {offset : ℤ} : offset.tmod CHUNKSIZE = 0 ↔ CHUNKSIZE ∣ offset :=
  (Int.dvd_iff_tmod_eq_zero).symm

theorem chunkStartOffset_of_aligned {offset : ℤ} (h : CHUNKSIZE ∣ offset) :
    chunkStartOffset offset = offset :=
  Int.tdiv_mul_cancel h

theorem aligned_chunkStartOffset (offset : ℤ) : CHUNKSIZE ∣ chunkStartOffset offset :=
  Dvd.intro_left _ rfl

theorem ne_matchAny {offset : ℤ} (h : CHUNKSIZE ∣ offset) : offset ≠ -1 := by
  rintro rfl
  exact absurd h (by decide)

theorem getChunk_mem (h : fs.ChunkTable) {offset : ℤ} (ho : CHUNKSIZE ∣ offset) {c : MetaChunkInfo}
    (hc : getChunk fs.leaves fid offset = some c) :
    c ∈ chunks fs.leaves ∧ c.id = fid ∧ c.offset = offset := by
  rw [getChunk_eq] at hc
  have hm := List.mem_of_find?_eq_some hc
  have hp := List.find?_some hc
  rw [decide_eq_true_eq] at hp
  obtain ⟨hi, hoff⟩ := hp
  rcases hoff with he | he | he
  · exact ⟨hm, hi, he⟩
  · exact absurd he (ne_matchAny (h.aligned c hm))
  · exact absurd he (ne_matchAny ho)

theorem getChunk_free {offset : ℤ} (hc : getChunk fs.leaves fid offset = none) :
    ∀ c ∈ chunks fs.leaves, c.id = fid → c.offset ≠ offset := by
  rw [getChunk_eq, List.find?_eq_none] at hc
  intro c hcm hi he
  exact hc c hcm (decide_eq_true ⟨hi, Or.inl he⟩)

/-! ## The invariant -/

def MetaChunkInfo.alloc (c : MetaChunkInfo) : Alloc := ⟨c.id, c.offset, c.chunkId, c.chunkVersion⟩

/-- The chunks that are linked and those that wait for their chunk servers. -/
def Sys.allocs (s : Sys) : List Alloc := (chunks s.fs.leaves).map MetaChunkInfo.alloc ++ s.pending

structure ChunkInv (s : Sys) : Prop where
  tidy : Tidy s.fs
  table : s.fs.ChunkTable
  tied : ∀ a ∈ s.allocs, ∀ b ∈ s.allocs, a.chunkId = b.chunkId → a.fid = b.fid ∧ a.offset = b.offset
  bound : ∀ a ∈ s.allocs, a.chunkId ≤ s.fs.chunkID
  aligned : ∀ a ∈ s.pending, CHUNKSIZE ∣ a.offset
  old : ∀ a ∈ s.pending, a.fid ≤ s.fs.fileID
  file : ∀ a ∈ s.pending, ∀ f ∈ fattrs s.fs.leaves, f.id = a.fid → f.type = .file

theorem Sys.mem_allocs {a : Alloc} : a ∈ s.allocs ↔
    (∃ c ∈ chunks s.fs.leaves, c.alloc = a) ∨ a ∈ s.pending := by
  rw [Sys.allocs, List.mem_append, List.mem_map]

/-- A change of the tree that links no new chunk. -/
theorem ChunkInv.kept (h : ChunkInv s) (htidy : Tidy fs') (hk : KeptChunks s.fs fs') :
    ChunkInv { s with fs := fs' } := by
  have hsub : ∀ a ∈ Sys.allocs { s with fs := fs' }, a ∈ s.allocs := by
    intro a ha
    rcases Sys.mem_allocs.mp ha with ⟨c, hc, rfl⟩ | ha
    · exact Sys.mem_allocs.mpr (Or.inl ⟨c, hk.sub c hc, rfl⟩)
    · exact Sys.mem_allocs.mpr (Or.inr ha)
  refine ⟨htidy, hk.table, fun a ha b hb => h.tied a (hsub a ha) b (hsub b hb), fun a ha => ?_,
    h.aligned, fun a ha => (h.old a ha).trans hk.le, fun a ha f hf he => ?_⟩
  · change a.chunkId ≤ fs'.chunkID
    rw [hk.seed]
    exact h.bound a (hsub a ha)
  · rcases hk.attr f hf with hlt | ⟨g, hg, hgi, hgt⟩
    · have := h.old a ha
      omega
    · rw [← hgt]
      exact h.file a ha g hg (hgi.trans he)

/-- An allocation that waits no longer. -/
theorem ChunkInv.erase (h : ChunkInv s) (i : ℕ) : ChunkInv { s with pending := s.pending.eraseIdx i } := by
  have hsub : ∀ a ∈ s.pending.eraseIdx i, a ∈ s.pending := fun a ha => List.mem_of_mem_eraseIdx ha
  have hsub' : ∀ a ∈ Sys.allocs { s with pending := s.pending.eraseIdx i }, a ∈ s.allocs := by
    intro a ha
    rcases Sys.mem_allocs.mp ha with ha | ha
    · exact Sys.mem_allocs.mpr (Or.inl ha)
    · exact Sys.mem_allocs.mpr (Or.inr (hsub a ha))
  exact ⟨h.tidy, h.table, fun a ha b hb => h.tied a (hsub' a ha) b (hsub' b hb),
    fun a ha => h.bound a (hsub' a ha), fun a ha => h.aligned a (hsub a ha),
    fun a ha => h.old a (hsub a ha), fun a ha => h.file a (hsub a ha)⟩

/-- One more allocation that waits. -/
theorem ChunkInv.wait (h : ChunkInv s) {a : Alloc} (hal : CHUNKSIZE ∣ a.offset)
    (hold : a.fid ≤ s.fs.fileID) (hfile : ∀ f ∈ fattrs s.fs.leaves, f.id = a.fid → f.type = .file)
    (hb : a.chunkId ≤ s.fs.chunkID)
    (htie : ∀ b ∈ s.allocs, b.chunkId = a.chunkId → b.fid = a.fid ∧ b.offset = a.offset) :
    ChunkInv { s with pending := s.pending ++ [a] } := by
  have hmem : ∀ b ∈ Sys.allocs { s with pending := s.pending ++ [a] }, b ∈ s.allocs ∨ b = a := by
    intro b hb
    rw [Sys.allocs, ← List.append_assoc] at hb
    rcases List.mem_append.mp hb with hb | hb
    · exact Or.inl hb
    · exact Or.inr (List.mem_singleton.mp hb)
  have hpend : ∀ b ∈ s.pending ++ [a], b ∈ s.pending ∨ b = a := fun b hb => by
    simpa using hb
  refine ⟨h.tidy, h.table, fun b hb c hc he => ?_, fun b hb' => ?_, fun b hb => ?_, fun b hb => ?_,
    fun b hb => ?_⟩
  · rcases hmem b hb with hb' | rfl <;> rcases hmem c hc with hc' | rfl
    · exact h.tied b hb' c hc' he
    · exact htie b hb' he
    · obtain ⟨h₁, h₂⟩ := htie c hc' he.symm
      exact ⟨h₁.symm, h₂.symm⟩
    · exact ⟨rfl, rfl⟩
  · rcases hmem b hb' with hb' | rfl
    · exact h.bound b hb'
    · exact hb
  · rcases hpend b hb with hb | rfl
    · exact h.aligned b hb
    · exact hal
  · rcases hpend b hb with hb | rfl
    · exact h.old b hb
    · exact hold
  · rcases hpend b hb with hb | rfl
    · exact h.file b hb
    · exact hfile

theorem ChunkInv.nextChunk (h : ChunkInv s) : ChunkInv { s with fs := s.fs.nextChunk } := by
  refine ⟨h.tidy.nextChunk, h.table, h.tied, fun a ha => ?_, h.aligned, h.old, h.file⟩
  have := h.bound a ha
  change a.chunkId ≤ s.fs.chunkID + 1
  omega

/-- **The first part of an allocation** for a file. -/
theorem startAllocate_inv {offset : ℤ} {reply : LeaseReply} {placed : Bool} (h : ChunkInv s)
    (hfile : ∀ f, getFattr s.fs.leaves fid = some f → f.type = .file)
    (ho : startAllocate s fid offset reply placed = some o) : ChunkInv o.sys := by
  rcases startAllocate_spec ho with
    ⟨-, rfl⟩ | ⟨fa, hf, -, hoff, hcase⟩
  · exact h
  have hal := aligned_iff.mp hoff
  obtain ⟨hfm, hfi⟩ := getFattr_some hf
  have hold : fid ≤ s.fs.fileID := h.tidy.getFattr_le hf
  have hfile' : ∀ f ∈ fattrs s.fs.leaves, f.id = fid → f.type = .file := by
    intro f hfm' he
    rw [h.table.type_eq f hfm' fa (mem_fattrs.mpr hfm) (he.trans hfi.symm)]
    exact hfile fa hf
  rcases hcase with ⟨c, hc, ⟨st, -, rfl⟩ | ⟨-, rfl⟩ | ⟨-, rfl⟩⟩ | ⟨hc, ⟨-, rfl⟩ | ⟨-, rfl⟩⟩
  · exact h
  · exact h
  · -- the chunk is there: the waiting allocation has its id and its place
    rw [chunkStartOffset_of_aligned hal] at hc
    obtain ⟨hcm, rfl, rfl⟩ := getChunk_mem h.table hal hc
    have hca : c.alloc ∈ s.allocs := Sys.mem_allocs.mpr (Or.inl ⟨c, hcm, rfl⟩)
    exact h.wait hal hold hfile' (h.bound c.alloc hca) fun b hb he => h.tied b hb c.alloc hca he
  · -- the id is new
    refine h.nextChunk.wait hal hold hfile' le_rfl fun b hb he => ?_
    have := h.bound b hb
    change b.chunkId = s.fs.chunkID + 1 at he
    omega
  · exact h.nextChunk

/-! ## Linking chunks -/

theorem ChunkTable.setChunk {F : List MetaFattr} {C : List MetaChunkInfo} {c e : MetaChunkInfo}
    (h : ChunkTable F (c :: C)) (hid : e.id = c.id) (hoff : e.offset = c.offset) :
    ChunkTable F (e :: C) where
  count f hf := by
    rw [h.count f hf, List.countP_cons, List.countP_cons, hid]
  place := by
    have := h.place
    rw [List.map_cons] at this ⊢
    rwa [hid, hoff]
  aligned x he := by
    rcases List.mem_cons.mp he with rfl | he
    · rw [hoff]
      exact h.aligned c List.mem_cons_self
    · exact h.aligned x (List.mem_cons_of_mem _ he)
  owner x he := by
    rcases List.mem_cons.mp he with rfl | he
    · rw [hid]
      exact h.owner c List.mem_cons_self
    · exact h.owner x (List.mem_cons_of_mem _ he)
  one := h.one
  type_eq := h.type_eq

/-- A new version of a chunk. -/
theorem setChunk_perm (h : fs.ChunkTable) {c e : MetaChunkInfo} (hc : c ∈ chunks fs.leaves) :
    ∃ R, List.Perm (chunks fs.leaves) (c :: R) ∧
      List.Perm (chunks (setChunk fs.leaves c.id c.offset e)) (e :: R) ∧
      List.Perm (fattrs fs.leaves) (fattrs (setChunk fs.leaves c.id c.offset e)) := by
  obtain ⟨z, r, hz, hp, hp'⟩ := update_perm (k := ⟨.chunkinfo, c.id, c.offset⟩)
    (g := fun _ => .chunkinfo e)
    ⟨.chunkinfo c, mem_chunks.mp hc, (eqv_chunk _ _ _).mpr ⟨c, rfl, rfl, Or.inl rfl⟩⟩
  obtain ⟨x, rfl, hei, heo⟩ := (eqv_chunk z _ _).mp hz
  have hem : x ∈ chunks fs.leaves := mem_chunks.mpr (hp.mem_iff.mpr List.mem_cons_self)
  have heo : x.offset = c.offset := by
    rcases heo with he | he | he
    · exact he
    · exact absurd he (ne_matchAny (h.aligned x hem))
    · exact absurd he (ne_matchAny (h.aligned c hc))
  obtain rfl : x = c := List.inj_on_of_nodup_map h.place hem hc (by rw [hei, heo])
  exact ⟨chunks r, hp.filterMap _, hp'.filterMap _,
    (hp.filterMap Meta.fattr?).trans (hp'.filterMap Meta.fattr?).symm⟩

/-- A change of the chunks of one place, or of none. -/
theorem ChunkInv.relinked (h : ChunkInv s) (htidy : Tidy fs') (htable : fs'.ChunkTable)
    (hC : ∀ c ∈ chunks fs'.leaves, ∃ a ∈ s.allocs, a.chunkId = c.chunkId ∧ a.fid = c.id ∧ a.offset = c.offset)
    (hF : ∀ f ∈ fattrs fs'.leaves, ∃ g ∈ fattrs s.fs.leaves, g.id = f.id ∧ g.type = f.type)
    (hid : fs'.fileID = s.fs.fileID) (hcid : fs'.chunkID = s.fs.chunkID) :
    ChunkInv { s with fs := fs' } := by
  have hmem : ∀ b ∈ Sys.allocs { s with fs := fs' },
      ∃ a ∈ s.allocs, a.chunkId = b.chunkId ∧ a.fid = b.fid ∧ a.offset = b.offset := by
    intro b hb
    rcases Sys.mem_allocs.mp hb with ⟨c, hc, rfl⟩ | hb
    · exact hC c hc
    · exact ⟨b, Sys.mem_allocs.mpr (Or.inr hb), rfl, rfl, rfl⟩
  refine ⟨htidy, htable, fun b hb c hc he => ?_, fun b hb => ?_, h.aligned, fun a ha => ?_,
    fun a ha f hf he => ?_⟩
  · obtain ⟨b', hb', h₁, h₂, h₃⟩ := hmem b hb
    obtain ⟨c', hc', h₄, h₅, h₆⟩ := hmem c hc
    rw [← h₂, ← h₃, ← h₅, ← h₆]
    exact h.tied b' hb' c' hc' (by rw [h₁, h₄, he])
  · obtain ⟨b', hb', h₁, -⟩ := hmem b hb
    change b.chunkId ≤ fs'.chunkID
    rw [hcid, ← h₁]
    exact h.bound b' hb'
  · change a.fid ≤ fs'.fileID
    rw [hid]
    exact h.old a ha
  · obtain ⟨g, hg, hgi, hgt⟩ := hF f hf
    rw [← hgt]
    exact h.file a ha g hg (hgi.trans he)

theorem Sys.alloc_self {c : MetaChunkInfo} (hc : c ∈ chunks s.fs.leaves) :
    ∃ a ∈ s.allocs, a.chunkId = c.chunkId ∧ a.fid = c.id ∧ a.offset = c.offset :=
  ⟨c.alloc, Sys.mem_allocs.mpr (Or.inl ⟨c, hc, rfl⟩), rfl, rfl, rfl⟩

/-- **The end of an allocation.** -/
theorem assignChunkId_inv (h : ChunkInv s) {a : Alloc} (ha : a ∈ s.pending)
    (hx : assignChunkId env s.fs a.fid a.offset a.chunkId a.chunkVersion = (st, fs')) :
    ChunkInv { s with fs := fs' } := by
  have htidy := assignChunkId_tidy h.tidy hx
  have hal := h.aligned a ha
  rcases assignChunkId_spec hx with ⟨-, -, rfl⟩ | ⟨fa, hf, hcase⟩
  · exact h
  obtain ⟨hfm, hfi⟩ := getFattr_some hf
  rw [chunkStartOffset_of_aligned hal] at hcase
  rcases hcase with ⟨c, -, -, -, rfl⟩ | ⟨c, hc, -, -, rfl⟩ | ⟨hc, -, rfl⟩
  · exact h
  · obtain ⟨hcm, hci, hco⟩ := getChunk_mem h.table hal hc
    rw [← hci, ← hco] at htidy ⊢
    obtain ⟨R, hp, hp', hF⟩ := setChunk_perm (e := { c with chunkVersion := a.chunkVersion }) h.table hcm
    refine h.relinked htidy ?_ (fun e he => ?_) (fun f hf => ⟨f, hF.mem_iff.mpr hf, rfl, rfl⟩) rfl rfl
    · have ht := ChunkTable.setChunk (e := { c with chunkVersion := a.chunkVersion })
        (ChunkTable.perm h.table hF hp) rfl rfl
      exact ChunkTable.perm ht (.refl _) hp'.symm
    · rcases List.mem_cons.mp (hp'.mem_iff.mp he) with rfl | he
      · exact Sys.alloc_self (c := c) hcm
      · exact Sys.alloc_self (hp.mem_iff.mpr (List.mem_cons_of_mem _ he))
  · have hfree := getChunk_free hc
    obtain ⟨f, f', R, hfi', hf', hF, hF', hC⟩ := update_fattr (l := Leaves.insert s.fs.leaves
      (.chunkinfo ⟨a.fid, a.offset, a.chunkId, a.chunkVersion⟩)) (g := Meta.addChunk env)
      ⟨fa, mem_fattrs.mpr (Leaves.mem_insert.mpr (Or.inr hfm)), hfi⟩ fun f => ⟨_, rfl⟩
    obtain rfl : f.addChunk env = f' := Meta.fattr.inj hf'
    have hF₀ : List.Perm (fattrs s.fs.leaves) (f :: R) := by
      rwa [fattrs, filterMap_insert _ rfl] at hF
    have hC₀ : List.Perm (chunks (linkChunk env s.fs.leaves ⟨a.fid, a.offset, a.chunkId, a.chunkVersion⟩))
        (⟨a.fid, a.offset, a.chunkId, a.chunkVersion⟩ :: chunks s.fs.leaves) :=
      hC.symm.trans ((Leaves.insert_perm _ _).filterMap _)
    have hft : f.type = .file :=
      h.file a ha f (hF₀.mem_iff.mpr List.mem_cons_self) hfi'
    have ht := ChunkTable.perm h.table hF₀ (.refl _)
    refine h.relinked htidy ?_ (fun e he => ?_) (fun g hg => ?_) rfl rfl
    · refine ChunkTable.perm (ht.setFile hft (y := f.addChunk env)
        (D := ⟨a.fid, a.offset, a.chunkId, a.chunkVersion⟩ :: chunks s.fs.leaves) rfl hft ?_ ?_ ?_ ?_ ?_)
        hF'.symm hC₀.symm
      · rw [List.countP_cons, if_pos (decide_eq_true hfi'.symm), Nat.cast_add,
          ← ht.count f List.mem_cons_self]
        rfl
      · intro id hid
        rw [List.countP_cons, if_neg, add_zero]
        rw [decide_eq_true_eq]
        exact fun he => hid (he.symm.trans hfi'.symm)
      · rw [List.map_cons, List.nodup_cons]
        refine ⟨fun hm => ?_, h.table.place⟩
        obtain ⟨e, he, heq⟩ := List.mem_map.mp hm
        rw [Prod.mk.injEq] at heq
        exact hfree e he heq.1 heq.2
      · intro e he
        rcases List.mem_cons.mp he with rfl | he
        · exact hal
        · exact h.table.aligned e he
      · intro e he
        rcases List.mem_cons.mp he with rfl | he
        · exact Or.inl hfi'.symm
        · exact Or.inr he
    · rcases List.mem_cons.mp (hC₀.mem_iff.mp he) with rfl | he
      · exact ⟨a, Sys.mem_allocs.mpr (Or.inr ha), rfl, rfl, rfl⟩
      · exact Sys.alloc_self he
    · rcases List.mem_cons.mp (hF'.mem_iff.mp hg) with rfl | hg
      · exact ⟨f, hF₀.mem_iff.mpr List.mem_cons_self, rfl, rfl⟩
      · exact ⟨g, hF₀.mem_iff.mpr (List.mem_cons_of_mem _ hg), rfl, rfl⟩

/-! ## Truncation and replication -/

theorem setFattr_perm {l : List Meta} {f g : MetaFattr} (hf : f ∈ fattrs l) (hfi : f.id = fid) :
    ∃ f₁ R, f₁.id = fid ∧ List.Perm (fattrs l) (f₁ :: R) ∧
      List.Perm (fattrs (setFattr l fid g)) (g :: R) ∧ List.Perm (chunks l) (chunks (setFattr l fid g)) := by
  obtain ⟨f₁, f', R, hfi', hf', hF, hF', hC⟩ :=
    update_fattr (g := fun _ => .fattr g) ⟨f, hf, hfi⟩ fun f => ⟨g, rfl⟩
  obtain rfl : g = f' := Meta.fattr.inj hf'
  exact ⟨f₁, R, hfi', hF, hF', hC⟩

/-- Overwriting attributes other than the number of chunks. -/
theorem ChunkInv.setAttr (h : ChunkInv s) {f g : MetaFattr} (hf : getFattr s.fs.leaves fid = some f)
    (hid : g.id = f.id) (ht : g.type = f.type) (hc : g.chunkcount = f.chunkcount) :
    ChunkInv { s with fs := { s.fs with leaves := setFattr s.fs.leaves fid g } } := by
  obtain ⟨hfm, hfi⟩ := getFattr_some hf
  have hfm' := mem_fattrs.mpr hfm
  have htidy := h.tidy.setFattr hfm hfi (fun _ hm => hm) hid ht
  obtain ⟨f₁, R, hfi₁, hF, hF', hC⟩ := setFattr_perm (g := g) hfm' hfi
  have hf₁ : f₁ ∈ fattrs s.fs.leaves := hF.mem_iff.mpr List.mem_cons_self
  have hty : f₁.type = f.type := h.table.type_eq f₁ hf₁ f hfm' (hfi₁.trans hfi.symm)
  refine h.relinked htidy ?_ (fun c hc => Sys.alloc_self (hC.mem_iff.mpr hc)) (fun e he => ?_) rfl rfl
  · refine ChunkTable.perm (ChunkTable.setAttr (y := g) (ChunkTable.perm h.table hF hC) ?_ ?_ ?_) hF'.symm
      (.refl _)
    · rw [hid, hfi, hfi₁]
    · rw [ht, hty]
    · rw [hc, h.table.count f hfm', h.table.count f₁ hf₁, hfi, hfi₁]
  · rcases List.mem_cons.mp (hF'.mem_iff.mp he) with rfl | he
    · exact ⟨f, hfm', hid.symm, ht.symm⟩
    · exact ⟨e, hF.mem_iff.mpr (List.mem_cons_of_mem _ he), rfl, rfl⟩

theorem deadChunks_sublist (offset : ℤ) (cs : List MetaChunkInfo) :
    List.Sublist (deadChunks offset cs) cs := by
  unfold deadChunks
  have hs := List.drop_sublist
    (Lib.lowerBound (fun c : MetaChunkInfo => decide (c.offset < chunkStartOffset offset)) cs) cs
  generalize cs.drop _ = d at hs ⊢
  cases d with
  | nil => exact List.nil_sublist _
  | cons m ms =>
    dsimp only
    split_ifs
    · exact (List.sublist_cons_self m ms).trans hs
    · exact hs

/-- **`truncate`** removes chunks and counts them. -/
theorem truncate_inv (h : ChunkInv s) {offset a : ℤ}
    (ht : truncate env s.fs fid offset = some (st, a, fs')) : ChunkInv { s with fs := fs' } := by
  have htidy := truncate_tidy h.tidy ht
  rcases truncate_spec ht with ⟨-, rfl⟩ | ⟨fa, hf, hty, hcc, ⟨-, -, -, rfl⟩ | ⟨-, -, l₁, hl, rfl⟩⟩
  · exact h
  · exact h.setAttr hf rfl rfl rfl
  obtain ⟨hfm, hfi⟩ := getFattr_some hf
  have hsub := deadChunks_sublist offset (getalloc s.fs.leaves fa.id)
  generalize hd : deadChunks offset (getalloc s.fs.leaves fa.id) = dead at hsub hl htidy
  rw [getalloc_eq] at hsub
  have hDid : ∀ c ∈ dead, c.id = fa.id := fun c hc => by
    simpa using (List.mem_filter.mp (hsub.subset hc)).2
  have hsub' := hsub.trans List.filter_sublist
  obtain ⟨hF₁, hC₁⟩ := deleteChunks_perm (h.table.place.of_map.sublist hsub') hsub'.subset h.table.place
    h.table.aligned hl
  obtain ⟨g, hg, hgi, hgt, hgc⟩ : ∃ g : MetaFattr,
      g = { fa with filesize := -1, mtime := env.now, chunkcount := fa.chunkcount - dead.length } ∧
      g.id = fa.id ∧ g.type = fa.type ∧ g.chunkcount = fa.chunkcount - dead.length :=
    ⟨_, rfl, rfl, rfl, rfl⟩
  rw [← hg] at htidy ⊢
  obtain ⟨f₁, R, hfi₁, hF, hF', hC⟩ := setFattr_perm (l := l₁) (g := g)
    (hF₁.mem_iff.mp (mem_fattrs.mpr hfm)) hfi
  have hFF := hF₁.trans hF
  have hCC := hC₁.trans (hC.append_left dead)
  have hft : f₁.type = .file := by
    rw [h.table.type_eq f₁ (hFF.mem_iff.mpr List.mem_cons_self) fa (mem_fattrs.mpr hfm)
      (hfi₁.trans hfi.symm), hty]
  have htab := ChunkTable.perm h.table hFF (.refl _)
  have hplace := (hCC.map fun c => (c.id, c.offset)).nodup_iff.mp h.table.place
  rw [List.map_append] at hplace
  refine h.relinked htidy ?_ (fun c hc => Sys.alloc_self (hCC.mem_iff.mpr (List.mem_append_right _ hc)))
    (fun e he => ?_) rfl rfl
  · refine ChunkTable.perm (htab.setFile hft (y := g) (D := chunks (setFattr l₁ fid g))
      (hgi.trans (hfi.trans hfi₁.symm)) (hgt.trans hty) ?_ (fun id hid => ?_)
      (List.nodup_append.mp hplace).2.1
      (fun c hc => h.table.aligned c (hCC.mem_iff.mpr (List.mem_append_right _ hc)))
      fun c hc => Or.inr (hCC.mem_iff.mpr (List.mem_append_right _ hc))) hF'.symm (.refl _)
    · have hcount := h.table.count fa (mem_fattrs.mpr hfm)
      have hall : dead.countP (fun c => decide (c.id = fa.id)) = dead.length :=
        List.countP_eq_length.mpr fun c hc => decide_eq_true (hDid c hc)
      rw [hCC.countP_eq, List.countP_append, hall] at hcount
      rw [hfi₁.trans hfi.symm, hgc]
      omega
    · have hnone : dead.countP (fun c => decide (c.id = id)) = 0 :=
        List.countP_eq_zero.mpr fun c hc he =>
          hid ((of_decide_eq_true he).symm.trans ((hDid c hc).trans (hfi.trans hfi₁.symm)))
      rw [hCC.countP_eq, List.countP_append, hnone, zero_add]
  · rcases List.mem_cons.mp (hF'.mem_iff.mp he) with rfl | he
    · exact ⟨fa, mem_fattrs.mpr hfm, hgi.symm, hgt.symm⟩
    · exact ⟨e, hFF.mem_iff.mpr (List.mem_cons_of_mem _ he), rfl, rfl⟩

/-- A truncation that needs a chunk is one of a file. -/
theorem truncate_file (htidy : Tidy fs) {offset a : ℤ} (ht : truncate env fs fid offset = some (st, a, fs'))
    (hst : 0 < st) {f : MetaFattr} (hf : getFattr fs'.leaves fid = some f) : f.type = .file := by
  rcases truncate_spec ht with ⟨h0, -⟩ | ⟨fa, hfa, hty, -, ⟨-, -, -, rfl⟩ | ⟨-, h0, -⟩⟩
  · omega
  · obtain ⟨hfm, hfi⟩ := getFattr_some hf
    obtain ⟨hfam, hfai⟩ := getFattr_some hfa
    rcases Leaves.mem_update hfm with hm | ⟨y, -, -, he⟩
    · rw [htidy.type_eq f fa hm hfam (hfi.trans hfai.symm), hty]
    · rw [Meta.fattr.inj he]
      exact hty
  · omega

/-! ## Runs -/

theorem cleanupDumpster_inv (h : ChunkInv s) (hc : cleanupDumpster env s.fs = some fs') :
    ChunkInv { s with fs := fs' } := by
  refine cleanupDumpster_induct (P := fun fs => ChunkInv { s with fs := fs }) ?_ h hc
  intro fs dir name st fs' hi hr
  exact hi.kept (removeF_tidy env 2 hi.tidy hr).1 (removeF_chunks env 2 hi.tidy hi.table hr)

theorem emptyDumpsterDir_inv (h : ChunkInv s) (he : emptyDumpsterDir env s.fs = some fs') :
    ChunkInv { s with fs := fs' } := by
  unfold emptyDumpsterDir makeDumpsterDir at he
  simp only [Option.bind_eq_some_iff, Option.map_eq_some_iff, Prod.exists] at he
  obtain ⟨_, ⟨st, id, fs₁, hm, rfl⟩, hc⟩ := he
  have htidy := mkdir_tidy h.tidy h.tidy.root (fun hs => absurd hs (by decide)) hm
  have hk : KeptChunks s.fs fs₁ := by
    rcases mkdir_spec hm with ⟨-, rfl⟩ | ⟨-, -, -, ⟨-, -, rfl, rfl⟩ | ⟨-, hs, -⟩ | ⟨h0, -⟩⟩
    · exact .refl h.table
    · exact mkdirAt_new_chunks h.tidy h.table
    · exact absurd hs (by decide)
    · exact absurd rfl h0
  exact cleanupDumpster_inv (s := { s with fs := fs₁ }) (h.kept htidy hk) hc

theorem changeIncarnationNumber_inv (h : ChunkInv s) : ChunkInv (changeIncarnationNumber s).sys := by
  unfold changeIncarnationNumber done
  dsimp only
  split_ifs
  · exact h.kept (h.tidy.of_imp le_rfl (fun _ hm => hm) fun f hf => ⟨f, hf, rfl, rfl⟩)
      ⟨h.table, fun _ hc => hc, fun f hf => Or.inr ⟨f, hf, rfl, rfl⟩, rfl, le_rfl⟩
  · exact h

theorem changeFileReplication_inv (h : ChunkInv s) {n : ℤ}
    (hc : changeFileReplication s.fs fid n = (st, fs')) : ChunkInv { s with fs := fs' } := by
  unfold changeFileReplication at hc
  rcases hf : getFattr s.fs.leaves fid with - | fa
  · obtain ⟨-, rfl⟩ : -ENOENT = st ∧ s.fs = fs' := by simpa [hf] using hc
    exact h
  · simp only [hf, Prod.mk.injEq] at hc
    obtain ⟨-, rfl⟩ := hc
    exact h.setAttr (g := { fa with numReplicas := n }) hf rfl rfl rfl

/-- An ALLOCATE for something that is not a file. -/
def allocatesNonFile (l : List Meta) : Req → Bool
  | .allocate fid _ _ _ => (getFattr l fid).any fun f => decide (f.type ≠ .file)
  | _ => false

/-- **One step keeps the chunk table** when it allocates a chunk only for a file. -/
theorem handle_chunks {req : Req} (h : ChunkInv s) (hs : allocatesNonFile s.fs.leaves req = false)
    (ho : Handled env s req o) : ChunkInv o.sys := by
  have htidy := handle_tidy h.tidy ho
  cases ho with
  | refused _ => exact h
  | create hd hc => exact h.kept htidy (create_chunks h.tidy h.table hc)
  | mkdir hd hm =>
    obtain ⟨f, hf, hft⟩ := is_dir_iff.mp hd
    obtain ⟨hfm, hfi⟩ := getFattr_some hf
    exact h.kept htidy (mkdir_chunks h.tidy h.table (mem_fattrs.mpr hfm) hfi hft hm)
  | remove hr => exact h.kept htidy (removeF_chunks env 2 h.tidy h.table hr)
  | rmdir hr => exact h.kept htidy (rmdir_chunks h.table hr)
  | rename hr => exact h.kept htidy (renameWith_chunks (removeF_chunks env 2) h.tidy h.table hr)
  | allocate ha =>
    exact startAllocate_inv h (fun f hf => by simpa [allocatesNonFile, hf] using hs) ha
  | assigned hp ha => exact (assignChunkId_inv h (List.mem_of_getElem? hp) ha).erase _
  | layoutFailed hp => exact changeIncarnationNumber_inv (h.erase _)
  | truncate htr _ => exact truncate_inv h htr
  | truncateAlloc htr hst ha =>
    have := startAllocate_inv (truncate_inv h htr) (fun f hf => truncate_file h.tidy htr hst hf) ha
    exact ⟨this.tidy, this.table, this.tied, this.bound, this.aligned, this.old, this.file⟩
  | changeFileReplication hc => exact changeFileReplication_inv h hc
  | changeIncarnationNumber => exact changeIncarnationNumber_inv h
  | cleanupDumpster hc => exact cleanupDumpster_inv h hc
  | emptyDumpsterDir hc => exact emptyDumpsterDir_inv h hc

/-- The chunk table is right: the counts, one chunk for each place, one place for each chunk id, and a file
for each chunk. -/
structure ChunksOK (l : List Meta) : Prop where
  count : ∀ f ∈ fattrs l, f.chunkcount = (chunks l).countP fun c => decide (c.id = f.id)
  place : ((chunks l).map fun c => (c.id, c.offset)).Nodup
  aligned : ∀ c ∈ chunks l, CHUNKSIZE ∣ c.offset
  ids : ((chunks l).map MetaChunkInfo.chunkId).Nodup
  owner : ∀ c ∈ chunks l, ∃ f ∈ fattrs l, f.id = c.id ∧ f.type = .file

theorem ChunkInv.chunksOK (h : ChunkInv s) : ChunksOK s.fs.leaves where
  count := h.table.count
  place := h.table.place
  aligned := h.table.aligned
  ids := by
    refine List.Nodup.map_on (fun c hc e he heq => ?_) h.table.place.of_map
    obtain ⟨h₁, h₂⟩ := h.tied c.alloc (Sys.mem_allocs.mpr (Or.inl ⟨c, hc, rfl⟩)) e.alloc
      (Sys.mem_allocs.mpr (Or.inl ⟨e, he, rfl⟩)) heq
    exact List.inj_on_of_nodup_map h.table.place hc he (Prod.ext h₁ h₂)
  owner := h.table.owner

theorem newTree_chunks (h : newTree env = some fs) : ChunkInv ⟨fs, []⟩ := by
  have htidy := newTree_tidy h
  rw [newTree_eq] at h
  obtain rfl := Option.some.inj h
  have hF : fattrs (rootLeaves env) = [MetaFattr.new env .dir ROOTFID 1] := rfl
  have hC : chunks (rootLeaves env) = [] := rfl
  refine ⟨htidy, ?_, by simp [Sys.allocs, hC], by simp [Sys.allocs, hC], by simp, by simp, by simp⟩
  refine ⟨?_, ?_, ?_, ?_, ?_, ?_⟩
  all_goals simp [hF, hC, MetaFattr.new]

/-- **The chunk table stays right**: in every run from the tree of `new_tree`, of any requests and events,
in which no chunk is allocated for anything but a file. -/
theorem run_chunksOK {es : List Event} {log : List LogRec} (h₀ : newTree env = some fs)
    (hr : Run (fun s e => allocatesNonFile s.fs.leaves e.req = false) ⟨fs, []⟩ es s log) :
    ChunksOK s.fs.leaves :=
  (hr.invariant (newTree_chunks h₀) fun _ _ _ h hs ho => handle_chunks h hs (handle_cases ho)).chunksOK

/-- A file with one chunk is truncated, grows again and is overwritten. -/
def growRun : List Event :=
  [idle (.create ROOTFID ['f'] 1 false), idle (.allocate 3 0 .valid true), idle (.layoutDone 0 true),
    idle (.truncate 3 CHUNKSIZE .valid true), idle (.layoutDone 0 true),
    idle (.truncate 3 5 .valid true)]

theorem grow_chunksOK : ∃ s log, exec (fun s e => allocatesNonFile s.fs.leaves e.req = false) rootSys
    growRun = some (s, log) ∧ (chunks s.fs.leaves).length = 1 ∧ ChunksOK s.fs.leaves := by
  have hx : ((exec (fun s e => allocatesNonFile s.fs.leaves e.req = false) rootSys growRun).map
      fun r => (chunks r.1.fs.leaves).length) = some 1 := by decide +kernel
  obtain ⟨⟨s, log⟩, hx, hlen⟩ := Option.map_eq_some_iff.mp hx
  exact ⟨s, log, hx, hlen, run_chunksOK (newTree_eq idleEnv) (Run.of_exec hx)⟩

/-- A chunk for a directory that is then removed. -/
def dirChunkRun : List Event :=
  [idle (.mkdir ROOTFID ['d']), idle (.allocate 3 0 .valid true), idle (.layoutDone 0 true),
    idle (.rmdir ROOTFID ['d'])]

/-- The chunk of a directory stays behind without any attributes. -/
theorem dirChunk_not_chunksOK : ∃ s log, exec (fun _ _ => True) rootSys dirChunkRun = some (s, log) ∧
    ¬ ChunksOK s.fs.leaves := by
  have hx : ((exec (fun _ _ => True) rootSys dirChunkRun).map fun r =>
      decide (∀ c ∈ chunks r.1.fs.leaves, ∃ f ∈ fattrs r.1.fs.leaves, f.id = c.id ∧ f.type = .file)) =
      some false := by decide +kernel
  obtain ⟨⟨s, log⟩, hx, hn⟩ := Option.map_eq_some_iff.mp hx
  exact ⟨s, log, hx, fun h => of_decide_eq_false hn h.owner⟩

end Kfs
