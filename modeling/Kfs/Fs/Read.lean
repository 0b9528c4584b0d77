import Kfs.Fs.Model

/-!
# Reading the leaf items

The lookups of `kfsops.cc` in terms of the three kinds of items.

* `dentries`, `fattrs`, `chunks`: the items of a kind; `dents`: the entries of a directory;
* `readdir_eq`, `getDentry_some`, `getFattr_eq`, `getalloc_eq`, `getChunk_eq`: the lookups;
* `lookup_some`, `lookup_none`; `Leaves.delOk_subset`, `Leaves.mem_update`: what the updates of the
  sequence do to its members.
-/

namespace Kfs

variable {l l' : List Meta} {m x : Meta} {dir fid : ℤ} {name : Str}

/-! ## The items of a kind -/

def dentries (l : List Meta) : List MetaDentry := l.filterMap Meta.dentry?

def fattrs (l : List Meta) : List MetaFattr := l.filterMap Meta.fattr?

def chunks (l : List Meta) : List MetaChunkInfo := l.filterMap Meta.chunkinfo?

/-- The entries of directory `dir`. -/
def dents (l : List Meta) (dir : ℤ) : List MetaDentry :=
  (dentries l).filter fun d => decide (d.dir = dir)

@[simp] theorem mem_dentries {d : MetaDentry} : d ∈ dentries l ↔ .dentry d ∈ l := by
  rw [dentries, List.mem_filterMap]
  constructor
  · rintro ⟨x, hx, he⟩
    cases x <;> simp [Meta.dentry?] at he
    rwa [← he]
  · exact fun h => ⟨_, h, rfl⟩

@[simp] theorem mem_fattrs {f : MetaFattr} : f ∈ fattrs l ↔ .fattr f ∈ l := by
  rw [fattrs, List.mem_filterMap]
  constructor
  · rintro ⟨x, hx, he⟩
    cases x <;> simp [Meta.fattr?] at he
    rwa [← he]
  · exact fun h => ⟨_, h, rfl⟩

@[simp] theorem mem_chunks {c : MetaChunkInfo} : c ∈ chunks l ↔ .chunkinfo c ∈ l := by
  rw [chunks, List.mem_filterMap]
  constructor
  · rintro ⟨x, hx, he⟩
    cases x <;> simp [Meta.chunkinfo?] at he
    rwa [← he]
  · exact fun h => ⟨_, h, rfl⟩

@[simp] theorem mem_dents {d : MetaDentry} : d ∈ dents l dir ↔ .dentry d ∈ l ∧ d.dir = dir := by
  simp [dents]

/-! ## The lookups -/

theorem eqv_dentry (x : Meta) (dir : ℤ) :
    x.key.eqv ⟨.dentry, dir, 0⟩ = true ↔ ∃ d, x = .dentry d ∧ d.dir = dir := by
  rw [Key.eqv_iff]
  cases x <;> simp [Meta.key, MetaType.val]

theorem eqv_fattr (x : Meta) (fid : ℤ) :
    x.key.eqv ⟨.fattr, fid, 0⟩ = true ↔ ∃ f, x = .fattr f ∧ f.id = fid := by
  rw [Key.eqv_iff]
  cases x <;> simp [Meta.key, MetaType.val]

theorem eqv_chunk (x : Meta) (file b : ℤ) :
    x.key.eqv ⟨.chunkinfo, file, b⟩ = true ↔
      ∃ c, x = .chunkinfo c ∧ c.id = file ∧ (c.offset = b ∨ c.offset = -1 ∨ b = -1) := by
  rw [Key.eqv_iff]
  cases x <;> simp [Meta.key, MetaType.val]

/-- Selecting the items with a property that only items of one kind have. -/
theorem filterMap_filter_kind {α : Type} (sel : Meta → Option α) (p : Meta → Bool) (q : α → Bool)
    (h : ∀ x, p x = (sel x).any q) (l : List Meta) :
    (l.filter p).filterMap sel = (l.filterMap sel).filter q ∧
      (l.filter p).length = ((l.filterMap sel).filter q).length := by
  induction l with
  | nil => exact ⟨rfl, rfl⟩
  | cons x l ih =>
    have hx := h x
    rw [List.filter_cons, List.filterMap_cons]
    cases hs : sel x with
    | none =>
      rw [hs] at hx
      simp only [hx, Option.any_none, Bool.false_eq_true, if_false]
      exact ih
    | some a =>
      rw [hs] at hx
      simp only [hx, Option.any_some, List.filter_cons]
      split_ifs with hq
      · rw [List.filterMap_cons, hs]
        exact ⟨by rw [ih.1], by rw [List.length_cons, List.length_cons, ih.2]⟩
      · exact ih

/-- A selection from a list without repetitions that one element meets. -/
theorem filter_eq_singleton {α : Type} {l : List α} {p : α → Bool} {a : α} (hl : l.Nodup) (ha : a ∈ l)
    (hp : p a = true) (h : ∀ b ∈ l, p b = true → b = a) : l.filter p = [a] := by
  have hperm : List.Perm (l.filter p) [a] := by
    rw [List.perm_ext_iff_of_nodup (hl.filter _) (by simp)]
    intro b
    rw [List.mem_filter, List.mem_singleton]
    constructor
    · exact fun hb => h b hb.1 hb.2
    · rintro rfl
      exact ⟨ha, hp⟩
  exact List.perm_singleton.mp hperm

theorem find_dentry (l : List Meta) (dir : ℤ) :
    (Leaves.find l ⟨.dentry, dir, 0⟩).filterMap Meta.dentry? = dents l dir ∧
      (Leaves.find l ⟨.dentry, dir, 0⟩).length = (dents l dir).length := by
  refine filterMap_filter_kind _ _ _ (fun x => ?_) l
  rw [Bool.eq_iff_iff, eqv_dentry]
  cases x <;> simp [Meta.dentry?]

theorem readdir_eq (l : List Meta) (dir : ℤ) : readdir l dir =
    if dents l dir = [] then some none
    else if 2 ≤ (dents l dir).length then some (some (dents l dir)) else none := by
  obtain ⟨h₁, h₂⟩ := find_dentry l dir
  unfold readdir
  cases hf : Leaves.find l ⟨.dentry, dir, 0⟩ with
  | nil =>
    rw [hf] at h₁
    rw [if_pos (show dents l dir = [] from h₁.symm)]
  | cons x v =>
    rw [hf] at h₁ h₂
    have hne : dents l dir ≠ [] := by
      intro he
      rw [he] at h₂
      simp at h₂
    simp only [hne, if_false, h₂, h₁]

theorem getDentry_eq {o : Option MetaDentry} (h : getDentry l dir name = some o) :
    o = (dents l dir).find? fun d => decide (d.name = name) := by
  unfold getDentry at h
  rw [readdir_eq] at h
  split_ifs at h with h₁ h₂
  · rw [h₁]
    simpa using h.symm
  · simpa using h.symm
  · simp at h

theorem getDentry_some {d : MetaDentry} (h : getDentry l dir name = some (some d)) :
    .dentry d ∈ l ∧ d.dir = dir ∧ d.name = name := by
  have he := (getDentry_eq h).symm
  have hm := List.mem_of_find?_eq_some he
  have hn := List.find?_some he
  rw [mem_dents] at hm
  exact ⟨hm.1, hm.2, by simpa using hn⟩

theorem getDentry_none (h : getDentry l dir name = some none) :
    ∀ d, .dentry d ∈ l → d.dir = dir → d.name ≠ name := by
  have he := (getDentry_eq h).symm
  rw [List.find?_eq_none] at he
  intro d hd hdir hn
  exact he d (by simp [hd, hdir]) (by simp [hn])

theorem head?_filter {α : Type} (p : α → Bool) (l : List α) : (l.filter p).head? = l.find? p := by
  induction l with
  | nil => rfl
  | cons a l ih =>
    rw [List.filter_cons, List.find?_cons]
    cases p a <;> simp [ih]

/-- The first item with a property that only items of one kind have. -/
theorem find?_kind {α : Type} (sel : Meta → Option α) (p : Meta → Bool) (q : α → Bool)
    (h : ∀ x, p x = (sel x).any q) (l : List Meta) :
    (l.filter p).head?.bind sel = (l.filterMap sel).find? q := by
  rw [← head?_filter, ← (filterMap_filter_kind sel p q h l).1]
  cases hf : l.filter p with
  | nil => rfl
  | cons x v =>
    have hx : p x = true := (List.mem_filter.mp (hf ▸ List.mem_cons_self)).2
    rw [h x] at hx
    cases hs : sel x with
    | none => rw [hs] at hx; simp at hx
    | some a => simp [hs]

theorem getFattr_eq (l : List Meta) (fid : ℤ) :
    getFattr l fid = (fattrs l).find? fun f => decide (f.id = fid) := by
  refine find?_kind _ _ _ (fun x => ?_) l
  rw [Bool.eq_iff_iff, eqv_fattr]
  cases x <;> simp [Meta.fattr?]

theorem getFattr_some {f : MetaFattr} (h : getFattr l fid = some f) :
    .fattr f ∈ l ∧ f.id = fid := by
  rw [getFattr_eq] at h
  exact ⟨mem_fattrs.mp (List.mem_of_find?_eq_some h), by simpa using List.find?_some h⟩

theorem getFattr_none (h : getFattr l fid = none) : ∀ f, .fattr f ∈ l → f.id ≠ fid := by
  rw [getFattr_eq, List.find?_eq_none] at h
  intro f hf he
  exact h f (mem_fattrs.mpr hf) (by simp [he])

theorem getalloc_eq (l : List Meta) (file : ℤ) :
    getalloc l file = (chunks l).filter fun c => decide (c.id = file) := by
  refine (filterMap_filter_kind _ _ _ (fun x => ?_) l).1
  rw [Bool.eq_iff_iff, eqv_chunk]
  cases x <;> simp [Meta.chunkinfo?, Key.matchAny]

theorem getChunk_eq (l : List Meta) (file b : ℤ) : getChunk l file b =
    (chunks l).find? fun c => decide (c.id = file ∧ (c.offset = b ∨ c.offset = -1 ∨ b = -1)) := by
  refine find?_kind _ _ _ (fun x => ?_) l
  rw [Bool.eq_iff_iff, eqv_chunk]
  cases x <;> simp [Meta.chunkinfo?]

theorem lookup_some {f : MetaFattr} (h : lookup l dir name = some (some f)) :
    ∃ d, getDentry l dir name = some (some d) ∧ getFattr l d.id = some f := by
  unfold lookup at h
  rcases hd : getDentry l dir name with - | - | d
  · simp [hd] at h
  · simp [hd] at h
  · simp only [hd] at h
    rcases hf : getFattr l d.id with - | f'
    · simp [hf] at h
    · simp only [hf, Option.some.injEq] at h
      exact ⟨d, rfl, by rw [hf, h]⟩

theorem lookup_none (h : lookup l dir name = some none) : getDentry l dir name = some none := by
  unfold lookup at h
  rcases hd : getDentry l dir name with - | - | d
  · simp [hd] at h
  · rfl
  · simp only [hd] at h
    cases hf : getFattr l d.id <;> simp [hf] at h

theorem lookup_mem {f : MetaFattr} (h : lookup l dir name = some (some f)) : .fattr f ∈ l := by
  obtain ⟨d, -, hf⟩ := lookup_some h
  exact (getFattr_some hf).1

theorem lookupComponents_mem {f : MetaFattr} : ∀ {cs : List Str} {dir : ℤ},
    lookupComponents l dir cs = some (some f) → .fattr f ∈ l
  | [], dir, h => by simp [lookupComponents] at h
  | [c], dir, h => lookup_mem h
  | c :: c' :: cs, dir, h => by
    rw [lookupComponents] at h
    · rcases hl : lookup l dir c with - | - | fa
      · simp [hl] at h
      · simp [hl] at h
      · simp only [hl] at h
        exact lookupComponents_mem h
    · simp

theorem lookupPath_mem {f : MetaFattr} {path : Str} (h : lookupPath l dir path = some (some f)) :
    .fattr f ∈ l := by
  unfold lookupPath at h
  dsimp only at h
  generalize (if path.head? = some '/' then path.tail else path) = rest at h
  split_ifs at h
  all_goals first | exact lookup_mem h | exact lookupComponents_mem h

theorem renameTarget_dir {parent ddir : ℤ} {newname dname : Str}
    (h : renameTarget l parent newname = some (.ok (ddir, dname))) :
    ddir = parent ∨ ∃ f, .fattr f ∈ l ∧ f.id = ddir ∧ f.type = .dir := by
  unfold renameTarget at h
  split_ifs at h
  · rcases hl : lookupPath l parent (splitPath newname).1 with - | - | f
    · simp [hl] at h
    · simp [hl] at h
    · by_cases ht : f.type = .dir
      · simp only [hl, ht, ne_eq, not_true_eq_false, if_false, Option.some.injEq, Except.ok.injEq,
          Prod.mk.injEq] at h
        exact Or.inr ⟨f, lookupPath_mem hl, h.1, ht⟩
      · simp [hl, ht] at h
  · simp only [Option.some.injEq, Except.ok.injEq, Prod.mk.injEq] at h
    exact Or.inl h.1.symm

/-! ## Updates -/

theorem Leaves.delOk_subset (h : Leaves.delOk l m = some l') : l' ⊆ l := by
  unfold Leaves.delOk at h
  split_ifs at h
  rw [← Option.some.inj h]
  exact List.eraseP_subset

theorem Leaves.mem_update {k : Key} {g : Meta → Meta} (h : x ∈ Leaves.update l k g) :
    x ∈ l ∨ ∃ y ∈ l, y.key.eqv k = true ∧ x = g y := by
  induction l with
  | nil => exact Or.inl h
  | cons y l ih =>
    rw [Leaves.update] at h
    split_ifs at h with hk
    · rcases List.mem_cons.mp h with rfl | h
      · exact Or.inr ⟨y, List.mem_cons_self, hk, rfl⟩
      · exact Or.inl (List.mem_cons_of_mem _ h)
    · rcases List.mem_cons.mp h with rfl | h
      · exact Or.inl List.mem_cons_self
      · rcases ih h with h | ⟨z, hz, hk', rfl⟩
        · exact Or.inl (List.mem_cons_of_mem _ h)
        · exact Or.inr ⟨z, List.mem_cons_of_mem _ hz, hk', rfl⟩

/-- Inserting an item that a selection passes over. -/
theorem filterMap_insert {α : Type} (sel : Meta → Option α) (h : sel m = none) (l : List Meta) :
    (Leaves.insert l m).filterMap sel = l.filterMap sel := by
  rw [Leaves.insert, List.filterMap_append, List.filterMap_cons, h, ← List.filterMap_append,
    List.takeWhile_append_dropWhile]

@[simp] theorem fattrs_insert_dentry (l : List Meta) (d : MetaDentry) :
    fattrs (Leaves.insert l (.dentry d)) = fattrs l :=
  filterMap_insert _ rfl l

@[simp] theorem dents_insert_fattr (l : List Meta) (f : MetaFattr) (dir : ℤ) :
    dents (Leaves.insert l (.fattr f)) dir = dents l dir :=
  congrArg _ (filterMap_insert _ rfl l)

@[simp] theorem getFattr_insert_dentry (l : List Meta) (d : MetaDentry) (fid : ℤ) :
    getFattr (Leaves.insert l (.dentry d)) fid = getFattr l fid := by
  rw [getFattr_eq, getFattr_eq, fattrs_insert_dentry]

/-- An insertion puts one item between two parts of the list. -/
theorem filterMap_insert_split {α : Type} (sel : Meta → Option α) {a : α} (h : sel m = some a)
    (l : List Meta) : ∃ u v, l.filterMap sel = u ++ v ∧
      (Leaves.insert l m).filterMap sel = u ++ a :: v := by
  refine ⟨(l.takeWhile fun x => x.key.lt m.key).filterMap sel,
    (l.dropWhile fun x => x.key.lt m.key).filterMap sel, ?_, ?_⟩
  · rw [← List.filterMap_append, List.takeWhile_append_dropWhile]
  · rw [Leaves.insert, List.filterMap_append, List.filterMap_cons, h]

theorem getFattr_insert_of_ne {f : MetaFattr} (h : f.id ≠ fid) (l : List Meta) :
    getFattr (Leaves.insert l (.fattr f)) fid = getFattr l fid := by
  obtain ⟨u, v, h₁, h₂⟩ := filterMap_insert_split (m := .fattr f) Meta.fattr? rfl l
  rw [getFattr_eq, getFattr_eq, fattrs, h₂, fattrs, h₁, List.find?_append, List.find?_append,
    List.find?_cons_of_neg (by simpa using h)]

theorem dents_insert_split (l : List Meta) (d : MetaDentry) : ∃ u v, dents l d.dir = u ++ v ∧
    dents (Leaves.insert l (.dentry d)) d.dir = u ++ d :: v := by
  obtain ⟨u, v, h₁, h₂⟩ := filterMap_insert_split (m := .dentry d) Meta.dentry? rfl l
  exact ⟨_, _, by rw [dents, dentries, h₁, List.filter_append],
    by rw [dents, dentries, h₂, List.filter_append, List.filter_cons_of_pos (by simp)]⟩

theorem dents_insert_of_ne {d : MetaDentry} (h : d.dir ≠ dir) (l : List Meta) :
    dents (Leaves.insert l (.dentry d)) dir = dents l dir := by
  obtain ⟨u, v, h₁, h₂⟩ := filterMap_insert_split (m := .dentry d) Meta.dentry? rfl l
  rw [dents, dents, dentries, dentries, h₁, h₂, List.filter_append, List.filter_append,
    List.filter_cons_of_neg (by simpa using h)]

/-- A directory can be read when it has at least two entries. -/
theorem getDentry_of_two (h : 2 ≤ (dents l dir).length) (name : Str) : getDentry l dir name =
    some ((dents l dir).find? fun d => decide (d.name = name)) := by
  have hne : dents l dir ≠ [] := by
    intro he
    rw [he] at h
    simp at h
  rw [getDentry, readdir_eq, if_neg hne, if_pos h]
  rfl

theorem two_le_dents {d : MetaDentry} (h : getDentry l dir name = some (some d)) :
    2 ≤ (dents l dir).length := by
  have hd := getDentry_some h
  unfold getDentry at h
  rw [readdir_eq] at h
  split_ifs at h with h₁ h₂
  · simp at h
  · exact h₂
  · simp at h

/-- A new entry does not hide an entry of another name or directory. -/
theorem getDentry_insert {d e : MetaDentry} (hg : getDentry l dir name = some (some d))
    (h : e.dir = dir → e.name ≠ name) :
    getDentry (Leaves.insert l (.dentry e)) dir name = some (some d) := by
  have h₂ := two_le_dents hg
  have hd := (getDentry_eq hg).symm
  by_cases he : e.dir = dir
  · subst he
    obtain ⟨u, v, h₃, h₄⟩ := dents_insert_split l e
    have hlen : 2 ≤ (dents (Leaves.insert l (.dentry e)) e.dir).length := by
      rw [h₃, List.length_append] at h₂
      rw [h₄, List.length_append, List.length_cons]
      omega
    rw [h₃, List.find?_append] at hd
    rw [getDentry_of_two hlen, h₄, List.find?_append,
      List.find?_cons_of_neg (by simpa using h rfl), hd]
  · have := dents_insert_of_ne (Ne.intro he) l
    rw [getDentry_of_two (by rwa [this]), this, hd]

@[simp] theorem getDentry_insert_fattr (l : List Meta) (f : MetaFattr) (dir : ℤ) (name : Str) :
    getDentry (Leaves.insert l (.fattr f)) dir name = getDentry l dir name := by
  rw [getDentry, getDentry, readdir_eq, readdir_eq, dents_insert_fattr]

theorem lookup_eq {d : MetaDentry} {f : MetaFattr} (hd : getDentry l dir name = some (some d))
    (hf : getFattr l d.id = some f) : lookup l dir name = some (some f) := by
  simp [lookup, hd, hf]

theorem lookup_eq_none (hd : getDentry l dir name = some none) : lookup l dir name = some none := by
  simp [lookup, hd]

end Kfs
