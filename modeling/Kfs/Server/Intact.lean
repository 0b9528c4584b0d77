import Kfs.Server.Chunks
import Kfs.Fs.Order

/-!
# The tree over runs of all requests and events

* `Hierarchy.update`, `Hierarchy.linkChunk`: the changes of attributes and chunks keep the directory tree;
* `Intact`: the directory tree is well formed; `Regular`: the steps that keep it; `handle_intact`.
-/

namespace Kfs

open Lib Relation

variable {env : Env} {fs fs' : Fs} {s : Sys} {o : Out} {l l' : List Meta} {dir fid st : ℤ} {name : Str}

/-! ## Attributes and chunks -/

/-- The directory tree does not depend on the chunks, nor on other attributes than the type. -/
theorem Hierarchy.of_same (h : Hierarchy l) (hu : Uniq l') (hd : ∀ e, .dentry e ∈ l' ↔ .dentry e ∈ l)
    (hf : ∀ f, .fattr f ∈ l' → ∃ g, .fattr g ∈ l ∧ g.id = f.id ∧ g.type = f.type)
    (hf' : ∀ g, .fattr g ∈ l → ∃ f, .fattr f ∈ l' ∧ f.id = g.id ∧ f.type = g.type) : Hierarchy l' := by
  have hup : ∀ x p, up l' x p ↔ up l x p := fun x p => hd _
  refine
    { uniq := hu
      in_dir := fun d hdm => ?_
      has_attr := fun d hdm => ?_
      type := fun f hfm => ?_
      dot := fun f hfm ht => ?_
      home := fun f hfm => ?_
      home_eq := fun d e hdm hem => h.home_eq d e ((hd d).mp hdm) ((hd e).mp hem)
      root := (hd _).mpr h.root
      climb := fun f hfm ht => ?_ }
  · obtain ⟨g, hg, hgi, hgt⟩ := h.in_dir d ((hd d).mp hdm)
    obtain ⟨f, hfm, hfi, hft⟩ := hf' g hg
    exact ⟨f, hfm, hfi.trans hgi, hft.trans hgt⟩
  · obtain ⟨g, hg, hgi⟩ := h.has_attr d ((hd d).mp hdm)
    obtain ⟨f, hfm, hfi, -⟩ := hf' g hg
    exact ⟨f, hfm, hfi.trans hgi⟩
  · obtain ⟨g, hg, -, hgt⟩ := hf f hfm
    rw [← hgt]
    exact h.type g hg
  · obtain ⟨g, hg, hgi, hgt⟩ := hf f hfm
    rw [hd, ← hgi]
    exact h.dot g hg (hgt.trans ht)
  · obtain ⟨g, hg, hgi, hgt⟩ := hf f hfm
    obtain ⟨d, hdm, hn, hi, hu⟩ := h.home g hg
    refine ⟨d, (hd d).mpr hdm, hn, hi.trans hgi, fun ht => ?_⟩
    rw [hup, ← hgi]
    exact hu (hgt.trans ht)
  · obtain ⟨g, hg, hgi, hgt⟩ := hf f hfm
    rw [← hgi]
    exact ReflTransGen.mono (fun x p => (hup x p).mpr) _ _ (h.climb g hg (hgt.trans ht))

theorem update_of_miss {k : Key} {g : Meta → Meta} (h : ∀ z ∈ l, z.key.eqv k = false) :
    Leaves.update l k g = l := by
  induction l with
  | nil => rfl
  | cons y l ih =>
    rw [Leaves.update, if_neg (by simp [h y List.mem_cons_self]), ih fun z hz => h z (List.mem_cons_of_mem _ hz)]

/-- The overwriting of one item by another of the same kind, in the same slot and of the same type. -/
def Meta.Similar : Meta → Meta → Prop
  | .fattr f, .fattr f' => f'.id = f.id ∧ f'.type = f.type
  | .chunkinfo c, .chunkinfo c' => c'.id = c.id ∧ c'.offset = c.offset
  | _, _ => False

theorem Meta.Similar.slot {x y : Meta} (h : x.Similar y) : y.slot = x.slot := by
  cases x <;> cases y <;> simp_all [Meta.Similar, Meta.slot]

theorem Meta.Similar.key {x y : Meta} (h : x.Similar y) : y.key = x.key := by
  cases x <;> cases y <;> simp_all [Meta.Similar, Meta.key]

theorem Uniq.update (h : Uniq l) {k : Key} {g : Meta → Meta}
    (hg : ∀ z ∈ l, z.key.eqv k = true → z.Similar (g z)) : Uniq (Leaves.update l k g) := by
  by_cases hk : ∃ z ∈ l, z.key.eqv k = true
  swap
  · push Not at hk
    rw [update_of_miss fun z hz => Bool.eq_false_iff.mpr (hk z hz)]
    exact h
  obtain ⟨z, r, hz, hp, hp'⟩ := update_perm (g := g) hk
  have hs := hg z (hp.mem_iff.mpr List.mem_cons_self) hz
  constructor
  · rw [(hp'.map _).nodup_iff, List.map_cons, hs.slot, ← List.map_cons (f := Meta.slot) (a := z),
      ← (hp.map _).nodup_iff]
    exact h.nodup
  · intro x hx
    rcases List.mem_cons.mp (hp'.mem_iff.mp hx) with rfl | hx
    · rw [hs.key]
      exact h.plain z (hp.mem_iff.mpr List.mem_cons_self)
    · exact h.plain x (hp.mem_iff.mpr (List.mem_cons_of_mem _ hx))

/-- Attributes are overwritten by attributes of the same type, or chunks by chunks. -/
theorem Hierarchy.update (h : Hierarchy l) {k : Key} {g : Meta → Meta}
    (hg : ∀ z ∈ l, z.key.eqv k = true → z.Similar (g z)) : Hierarchy (Leaves.update l k g) := by
  by_cases hk : ∃ z ∈ l, z.key.eqv k = true
  swap
  · push Not at hk
    rw [update_of_miss fun z hz => Bool.eq_false_iff.mpr (hk z hz)]
    exact h
  obtain ⟨z, r, hz, hp, hp'⟩ := update_perm (g := g) hk
  have hs := hg z (hp.mem_iff.mpr List.mem_cons_self) hz
  refine h.of_same (h.uniq.update hg) (fun e => ?_) (fun f hf => ?_) fun f hf => ?_
  · rw [hp'.mem_iff, hp.mem_iff, List.mem_cons, List.mem_cons]
    refine or_congr_left (iff_of_false (fun hc => ?_) fun hc => ?_)
    · rw [← hc] at hs
      cases z <;> exact hs
    · rw [← hc] at hs
      exact hs
  · rcases List.mem_cons.mp (hp'.mem_iff.mp hf) with he | hf
    · rw [← he] at hs
      cases z with
      | fattr f₀ => exact ⟨f₀, hp.mem_iff.mpr List.mem_cons_self, hs.1.symm, hs.2.symm⟩
      | dentry d => exact hs.elim
      | chunkinfo c => exact hs.elim
    · exact ⟨f, hp.mem_iff.mpr (List.mem_cons_of_mem _ hf), rfl, rfl⟩
  · rcases List.mem_cons.mp (hp.mem_iff.mp hf) with rfl | hf
    · cases hgz : g (.fattr f) with
      | fattr f' =>
        rw [hgz] at hs hp'
        exact ⟨f', hp'.mem_iff.mpr List.mem_cons_self, hs⟩
      | dentry d => rw [hgz] at hs; exact hs.elim
      | chunkinfo c => rw [hgz] at hs; exact hs.elim
    · exact ⟨f, hp'.mem_iff.mpr (List.mem_cons_of_mem _ hf), rfl, rfl⟩

/-- The attributes of a file are overwritten by others of the same type. -/
theorem similar_setFattr (h : Hierarchy l) {f g : MetaFattr} (hf : getFattr l fid = some f)
    (hid : g.id = f.id) (ht : g.type = f.type) :
    ∀ z ∈ l, z.key.eqv ⟨.fattr, fid, 0⟩ = true → z.Similar (.fattr g) := by
  intro z hz hk
  obtain ⟨hfm, hfi⟩ := getFattr_some hf
  obtain ⟨f', rfl, hfi'⟩ := (eqv_fattr z fid).mp hk
  obtain rfl := h.uniq.eq_of_id hz hfm (hfi'.trans hfi.symm)
  exact ⟨hid, ht⟩

theorem Hierarchy.setFattr (h : Hierarchy l) {f g : MetaFattr} (hf : getFattr l fid = some f)
    (hid : g.id = f.id) (ht : g.type = f.type) : Hierarchy (setFattr l fid g) :=
  h.update (similar_setFattr h hf hid ht)

/-- A chunk is overwritten by another version of it. -/
theorem similar_setChunk (hp : ∀ x ∈ l, x.key.Plain) {offset : ℤ} {c c' : MetaChunkInfo}
    (hc : getChunk l fid (chunkStartOffset offset) = some c) (hid : c'.id = c.id) (hoff : c'.offset = c.offset) :
    ∀ z ∈ l, z.key.eqv ⟨.chunkinfo, fid, chunkStartOffset offset⟩ = true → z.Similar (.chunkinfo c') := by
  intro z hz hk
  obtain ⟨-, hci, hco⟩ := getChunk_spec hp (chunkStartOffset_ne offset) hc
  obtain ⟨e, rfl, hei, heo⟩ := (eqv_chunk z fid _).mp hk
  have hne : e.offset ≠ -1 := hp _ hz
  have heo : e.offset = chunkStartOffset offset := by
    rcases heo with he | he | he
    · exact he
    · exact absurd he hne
    · exact absurd he (chunkStartOffset_ne offset)
  exact ⟨(hid.trans hci).trans hei.symm, (hoff.trans hco).trans heo.symm⟩

theorem similar_addChunk (env : Env) (l : List Meta) :
    ∀ z ∈ l, z.key.eqv ⟨.fattr, fid, 0⟩ = true → z.Similar (z.addChunk env) := by
  intro z _ hk
  obtain ⟨f, rfl, -⟩ := (eqv_fattr z fid).mp hk
  exact ⟨rfl, rfl⟩

theorem Hierarchy.deleteChunks (h : Hierarchy l) {cs : List MetaChunkInfo}
    (hd : deleteChunks l cs = some l') : Hierarchy l' := by
  obtain ⟨hs, hm⟩ := deleteChunks_mem hd
  refine h.of_same (h.uniq.sublist hs) (fun e => hm _ (by simp))
    (fun f hf => ⟨f, (hm _ (by simp)).mp hf, rfl, rfl⟩) fun g hg => ⟨g, (hm _ (by simp)).mpr hg, rfl, rfl⟩

/-- A chunk goes to a place that is free. -/
theorem Hierarchy.insertChunk (h : Hierarchy l) {c : MetaChunkInfo} (hne : c.offset ≠ -1)
    (hfree : ∀ e ∈ chunks l, e.id = c.id → e.offset ≠ c.offset) :
    Hierarchy (Leaves.insert l (.chunkinfo c)) := by
  refine h.of_same (h.uniq.insert hne fun x hx => ?_) (fun e => by simp [Leaves.mem_insert])
    (fun f hf => ⟨f, by simpa [Leaves.mem_insert] using hf, rfl, rfl⟩)
    fun g hg => ⟨g, by simpa [Leaves.mem_insert] using hg, rfl, rfl⟩
  cases x with
  | dentry d => simp [Meta.slot]
  | fattr f => simp [Meta.slot]
  | chunkinfo e => simpa [Meta.slot] using hfree e (mem_chunks.mpr hx)

theorem Hierarchy.linkChunk (h : Hierarchy l) {c : MetaChunkInfo} (hne : c.offset ≠ -1)
    (hfree : ∀ e ∈ chunks l, e.id = c.id → e.offset ≠ c.offset) : Hierarchy (linkChunk env l c) := by
  refine (h.insertChunk hne hfree).update fun z _ hk => ?_
  obtain ⟨f, rfl, -⟩ := (eqv_fattr z c.id).mp hk
  exact ⟨rfl, rfl⟩

/-! ## The operations on files -/

theorem assignChunkId_hier (h : Hierarchy fs.leaves) {offset chunkId v : ℤ} (ho : CHUNKSIZE ∣ offset)
    (ha : assignChunkId env fs fid offset chunkId v = (st, fs')) : Hierarchy fs'.leaves := by
  rcases assignChunkId_spec ha with
    ⟨-, -, rfl⟩ | ⟨fa, -, ⟨c, -, -, -, rfl⟩ | ⟨c, hc, -, -, rfl⟩ | ⟨hc, -, rfl⟩⟩
  · exact h
  · exact h
  · exact h.update (similar_setChunk h.uniq.plain hc rfl rfl)
  · rw [chunkStartOffset_of_aligned ho] at hc
    exact h.linkChunk (ne_matchAny ho) (getChunk_free hc)

theorem truncate_hier (h : Hierarchy fs.leaves) {offset a : ℤ}
    (ht : truncate env fs fid offset = some (st, a, fs')) : Hierarchy fs'.leaves := by
  rcases truncate_spec ht with ⟨-, rfl⟩ | ⟨fa, hf, -, -, ⟨-, -, -, rfl⟩ | ⟨-, -, l₁, hd, rfl⟩⟩
  · exact h
  · exact h.setFattr hf rfl rfl
  · obtain ⟨hfm, hfi⟩ := getFattr_some hf
    have h₁ := h.deleteChunks hd
    refine h₁.setFattr (f := fa) (h₁.uniq.getFattr_iff.mpr ⟨?_, hfi⟩) rfl rfl
    exact ((deleteChunks_mem hd).2 _ (by simp)).mpr hfm

theorem changeFileReplication_cases {n : ℤ} (hc : changeFileReplication fs fid n = (st, fs')) : fs' = fs ∨
    ∃ fa, getFattr fs.leaves fid = some fa ∧
      fs' = { fs with leaves := setFattr fs.leaves fid { fa with numReplicas := n } } := by
  unfold changeFileReplication at hc
  rcases hf : getFattr fs.leaves fid with - | fa
  · obtain ⟨-, rfl⟩ : -ENOENT = st ∧ fs = fs' := by simpa [hf] using hc
    exact Or.inl rfl
  · simp only [hf, Prod.mk.injEq] at hc
    exact Or.inr ⟨fa, rfl, hc.2.symm⟩

theorem changeFileReplication_hier (h : Hierarchy fs.leaves) {n : ℤ}
    (hc : changeFileReplication fs fid n = (st, fs')) : Hierarchy fs'.leaves := by
  rcases changeFileReplication_cases hc with rfl | ⟨fa, hf, rfl⟩
  · exact h
  · exact h.setFattr hf rfl rfl

theorem cleanupDumpster_hier (htidy : Tidy fs) (h : Hierarchy fs.leaves)
    (hc : cleanupDumpster env fs = some fs') : Hierarchy fs'.leaves := by
  have := cleanupDumpster_induct (P := fun fs => Tidy fs ∧ Hierarchy fs.leaves)
    (fun _ _ _ _ _ hi hr => ⟨(removeF_tidy env 2 hi.1 hr).1, remove_hier hi.1 hi.2 hr⟩) ⟨htidy, h⟩ hc
  exact this.2

/-- `emptyDumpsterDir` is a `mkdir` and a clean-up. -/
theorem emptyDumpsterDir_cases (htidy : Tidy fs) (h : Hierarchy fs.leaves)
    (he : emptyDumpsterDir env fs = some fs') : ∃ st id fs₁,
    mkdir env fs ROOTFID DUMPSTERDIR 0 = some (st, id, fs₁) ∧ Tidy fs₁ ∧ Hierarchy fs₁.leaves ∧
      cleanupDumpster env fs₁ = some fs' := by
  unfold emptyDumpsterDir makeDumpsterDir at he
  simp only [Option.bind_eq_some_iff, Option.map_eq_some_iff, Prod.exists] at he
  obtain ⟨_, ⟨st, id, fs₁, hm, rfl⟩, hc⟩ := he
  have hs : ¬ DUMPSTERDIR = ['/'] := by decide
  obtain ⟨f, hf, hfi, hft⟩ := h.root_dir
  exact ⟨st, id, fs₁, hm, mkdir_tidy htidy htidy.root (fun hc => absurd hc hs) hm,
    mkdir_hier h htidy hf hfi hft (fun hc => absurd hc hs) hm, hc⟩

theorem emptyDumpsterDir_hier (htidy : Tidy fs) (h : Hierarchy fs.leaves)
    (he : emptyDumpsterDir env fs = some fs') : Hierarchy fs'.leaves := by
  obtain ⟨_, _, fs₁, -, htidy₁, h₁, hc⟩ := emptyDumpsterDir_cases htidy h he
  exact cleanupDumpster_hier htidy₁ h₁ hc

/-! ## The invariant -/

/-- The work of the dumpster cleaner, which no client asks for. -/
def Req.isCleanup : Req → Bool
  | .cleanupDumpster | .emptyDumpsterDir => true
  | _ => false

/-- The directory tree is well formed, and chunks wait for offsets at which a chunk starts. -/
structure Intact (s : Sys) : Prop where
  hier : Hierarchy s.fs.leaves
  tidy : Tidy s.fs
  aligned : ∀ a ∈ s.pending, CHUNKSIZE ∣ a.offset

/-- The steps that keep the directory tree: no MKDIR of the root's name in another directory and no RENAME of
a dot entry. -/
structure Regular (s : Sys) (e : Event) : Prop where
  root : misplacedRoot s.fs.leaves e.req = false
  dots : movesDot e.worm s.fs.leaves e.req = false

theorem regular_iff {e : Event} : Regular s e ↔ misplacedRoot s.fs.leaves e.req = false ∧
    movesDot e.worm s.fs.leaves e.req = false :=
  ⟨fun h => ⟨h.root, h.dots⟩, fun h => ⟨h.1, h.2⟩⟩

instance (s : Sys) (e : Event) : Decidable (Regular s e) := decidable_of_iff _ regular_iff.symm

theorem newTree_intact (h : newTree env = some fs) : Intact ⟨fs, []⟩ :=
  ⟨newTree_hier h, newTree_tidy h, by simp⟩

theorem changeIncarnationNumber_leaves (s : Sys) :
    (changeIncarnationNumber s).sys.fs.leaves = s.fs.leaves := by
  unfold changeIncarnationNumber done
  dsimp only
  split_ifs
  · rfl
  · rfl

theorem startAllocate_leaves {offset : ℤ} {reply : LeaseReply} {placed : Bool}
    (h : startAllocate s fid offset reply placed = some o) : o.sys.fs.leaves = s.fs.leaves := by
  rcases startAllocate_fs h with he | he
  · rw [he]
  · rw [he]
    rfl

theorem startAllocate_aligned {offset : ℤ} {reply : LeaseReply} {placed : Bool}
    (h : startAllocate s fid offset reply placed = some o) {a : Alloc} (ha : a ∈ o.sys.pending) :
    a ∈ s.pending ∨ CHUNKSIZE ∣ a.offset := by
  rcases startAllocate_spec h with
    ⟨-, rfl⟩ | ⟨fa, -, -, ho, ⟨c, -, ⟨st, -, rfl⟩ | ⟨-, rfl⟩ | ⟨-, rfl⟩⟩ | ⟨-, ⟨-, rfl⟩ | ⟨-, rfl⟩⟩⟩
  · exact Or.inl ha
  · exact Or.inl ha
  · exact Or.inl ha
  · refine (List.mem_append.mp ha).imp id fun he => ?_
    rw [List.mem_singleton.mp he]
    exact aligned_iff.mp ho
  · refine (List.mem_append.mp ha).imp id fun he => ?_
    rw [List.mem_singleton.mp he]
    exact aligned_iff.mp ho
  · exact Or.inl ha

/-- Allocations wait only for offsets at which a chunk starts. -/
theorem handle_aligned {req : Req} (h : ∀ a ∈ s.pending, CHUNKSIZE ∣ a.offset) (ho : Handled env s req o) :
    ∀ a ∈ o.sys.pending, CHUNKSIZE ∣ a.offset := by
  have herase : ∀ i, ∀ a ∈ s.pending.eraseIdx i, CHUNKSIZE ∣ a.offset :=
    fun i a ha => h a (List.mem_of_mem_eraseIdx ha)
  intro a ha
  cases ho with
  | refused _ => exact h a ha
  | create _ _ => exact h a ha
  | mkdir _ _ => exact h a ha
  | remove _ => exact h a ha
  | rmdir _ => exact h a ha
  | rename _ => exact h a ha
  | allocate hs =>
    rcases startAllocate_aligned hs ha with ha | ha
    · exact h a ha
    · exact ha
  | assigned _ _ => exact herase _ a ha
  | layoutFailed _ => exact herase _ a ha
  | truncate _ _ => exact h a ha
  | truncateAlloc _ _ hs =>
    rcases startAllocate_aligned hs ha with ha | ha
    · exact h a ha
    · exact ha
  | changeFileReplication _ => exact h a ha
  | changeIncarnationNumber => exact h a ha
  | cleanupDumpster _ => exact h a ha
  | emptyDumpsterDir _ => exact h a ha

/-- **One step keeps the directory tree.** -/
theorem handle_intact {e : Event} (h : Intact s) (hr : Regular s e)
    (ho : handle e.worm e.env s e.req = some o) : Intact o.sys := by
  have hcases := handle_cases ho
  refine ⟨?_, handle_tidy h.tidy hcases, handle_aligned h.aligned hcases⟩
  by_cases hns : e.req.isNamespace = true
  · exact handle_hier h.tidy h.hier ⟨hns, hr.root, hr.dots⟩ ho
  obtain ⟨worm, env, req⟩ := e
  cases hcases with
  | refused _ => exact h.hier
  | create _ _ => exact absurd rfl hns
  | mkdir _ _ => exact absurd rfl hns
  | remove _ => exact absurd rfl hns
  | rmdir _ => exact absurd rfl hns
  | rename _ => exact absurd rfl hns
  | allocate ha =>
    rw [startAllocate_leaves ha]
    exact h.hier
  | assigned hp ha => exact assignChunkId_hier h.hier (h.aligned _ (List.mem_of_getElem? hp)) ha
  | layoutFailed hp =>
    rw [changeIncarnationNumber_leaves]
    exact h.hier
  | truncate ht _ => exact truncate_hier h.hier ht
  | truncateAlloc ht _ ha =>
    have := startAllocate_leaves ha
    change Hierarchy _
    rw [this]
    exact truncate_hier h.hier ht
  | changeFileReplication hc => exact changeFileReplication_hier h.hier hc
  | changeIncarnationNumber =>
    rw [changeIncarnationNumber_leaves]
    exact h.hier
  | cleanupDumpster hc => exact cleanupDumpster_hier h.tidy h.hier hc
  | emptyDumpsterDir hc => exact emptyDumpsterDir_hier h.tidy h.hier hc

end Kfs
