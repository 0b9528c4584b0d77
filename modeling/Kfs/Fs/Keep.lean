import Kfs.Fs.Hierarchy
import Kfs.Fs.Atomic

/-!
# The operations keep the directory tree

* `mkdir_hier`, `rmdir_hier`, `create_hier`;
* `Moved`: what a removal or renaming of a file does to the directories; `removeF_hier`;
* `renameWith_hier`: a renaming keeps the tree when its source is not one of the dot entries.
-/

namespace Kfs

open Lib Relation

variable {env : Env} {fs fs' : Fs} {l l' : List Meta} {dir fid st : ℤ} {name : Str}

/-! ## Making directories -/

theorem Hierarchy.not_dot (h : Hierarchy l) {f : MetaFattr} (hf : .fattr f ∈ l) (ht : f.type = .dir)
    (hfree : ∀ e, .dentry e ∈ l → e.dir = f.id → e.name ≠ name) : ¬ isDot name := by
  rintro (rfl | rfl)
  · exact hfree _ (h.dot f hf ht) rfl rfl
  · obtain ⟨d, -, -, -, hup⟩ := h.home f hf
    exact hfree _ (hup ht) rfl rfl

theorem Uniq.mkdirAt (h : Hierarchy fs.leaves) {dname : Str} {id : ℤ}
    (hfree : ∀ e, .dentry e ∈ fs.leaves → e.dir = dir → e.name ≠ dname)
    (hnew : ∀ g, .fattr g ∈ fs.leaves → g.id ≠ id) (hdir : dir ≠ id) :
    Uniq (Fs.mkdirAt env fs dir dname id).leaves := by
  have hd : ∀ {e}, .dentry e ∈ fs.leaves → e.dir ≠ id := fun he => (h.ne_new hnew he).1
  have h₁ := h.uniq.insert_dentry (d := ⟨dir, dname, id⟩) hfree
  have h₂ := h₁.insert_fattr (f := MetaFattr.new env .dir id 1) fun g hg =>
    hnew g (by simpa [Leaves.mem_insert] using hg)
  have h₃ := h₂.insert_dentry (d := ⟨id, ['.'], id⟩) fun e he hd' => by
    simp only [Leaves.mem_insert, Meta.dentry.injEq, reduceCtorEq, false_or] at he
    rcases he with rfl | he
    · exact absurd hd' hdir
    · exact absurd hd' (hd he)
  refine h₃.insert_dentry (d := ⟨id, ['.', '.'], dir⟩) fun e he hd' => ?_
  simp only [Leaves.mem_insert, Meta.dentry.injEq, reduceCtorEq, false_or] at he
  rcases he with rfl | rfl | he
  · simp
  · exact absurd hd' hdir
  · exact absurd hd' (hd he)

theorem Hierarchy.mkdirAt (h : Hierarchy fs.leaves) {dname : Str} {id : ℤ} {f : MetaFattr}
    (hf : .fattr f ∈ fs.leaves) (hfi : f.id = dir) (ht : f.type = .dir)
    (hfree : ∀ e, .dentry e ∈ fs.leaves → e.dir = dir → e.name ≠ dname)
    (hnew : ∀ g, .fattr g ∈ fs.leaves → g.id ≠ id) :
    Hierarchy (Fs.mkdirAt env fs dir dname id).leaves :=
  h.addDir (d := ⟨dir, dname, id⟩) (f := MetaFattr.new env .dir id 1)
    (Uniq.mkdirAt h hfree hnew (hfi ▸ hnew f hf)) ⟨f, hf, hfi, ht⟩
    (h.not_dot hf ht (hfi ▸ hfree)) rfl rfl hnew (fun _ => mem_dentry_mkdirAt)
    fun _ => mem_fattr_mkdirAt

/-- `mkdir` keeps the tree, unless it makes a directory of the root's name somewhere else. -/
theorem mkdir_hier (h : Hierarchy fs.leaves) (htidy : Tidy fs) {dname : Str} {id : ℤ} {f : MetaFattr}
    (hf : .fattr f ∈ fs.leaves) (hfi : f.id = dir) (ht : f.type = .dir)
    (hs : dname = ['/'] → dir = ROOTFID) (hm : mkdir env fs dir dname 0 = some (st, id, fs')) :
    Hierarchy fs'.leaves := by
  rcases mkdir_spec hm with ⟨-, rfl⟩ | ⟨-, hl, -, ⟨-, -, rfl, rfl⟩ | ⟨-, rfl, rfl, rfl⟩ | ⟨h0, -⟩⟩
  · exact h
  · refine Hierarchy.mkdirAt h hf hfi ht (getDentry_none (lookup_none hl)) fun g hg => ?_
    have := htidy.attr_le g hg
    omega
  · obtain rfl := hs rfl
    exact absurd rfl (getDentry_none (lookup_none hl) _ h.root rfl)
  · exact absurd rfl h0

/-! ## Removing directories -/

theorem RmdirDone.mem (hu : Uniq fs.leaves) {dname : Str} {fa : MetaFattr}
    (hr : RmdirDone fs dir dname fa l') (x : Meta) :
    x ∈ l' ↔ x ∈ fs.leaves ∧ x.slot ≠ .dent fa.id ['.'] ∧ x.slot ≠ .dent fa.id ['.', '.'] ∧
      x.slot ≠ .dent dir dname ∧ x.slot ≠ .attr fa.id := by
  obtain ⟨l₁, l₂, l₃, h₁, h₂, h₃, h₄⟩ := hr.done
  have u₁ := hu.delOk h₁
  have u₂ := u₁.delOk h₂
  have u₃ := u₂.delOk h₃
  rw [u₃.mem_delOk (plain_fattr _) h₄, u₂.mem_delOk (plain_dentry _) h₃,
    u₁.mem_delOk (plain_dentry _) h₂, hu.mem_delOk (plain_dentry _) h₁]
  simp only [Meta.slot, and_assoc]

theorem RmdirDone.uniq (hu : Uniq fs.leaves) {dname : Str} {fa : MetaFattr}
    (hr : RmdirDone fs dir dname fa l') : Uniq l' := by
  obtain ⟨l₁, l₂, l₃, h₁, h₂, h₃, h₄⟩ := hr.done
  exact (((hu.delOk h₁).delOk h₂).delOk h₃).delOk h₄

section

variable {dname : Str} {fa : MetaFattr}

theorem RmdirDone.found_mem (h : Hierarchy fs.leaves) (hr : RmdirDone fs dir dname fa l') :
    .dentry ⟨dir, dname, fa.id⟩ ∈ fs.leaves ∧ .fattr fa ∈ fs.leaves :=
  h.lookup_iff.mp hr.found

/-- After `rmdir` of an empty directory, its entries and its own entry are gone. -/
theorem RmdirDone.mem_dentry (h : Hierarchy fs.leaves) (hr : RmdirDone fs dir dname fa l')
    (e : MetaDentry) : .dentry e ∈ l' ↔ .dentry e ∈ fs.leaves ∧ e.dir ≠ fa.id ∧ e ≠ ⟨dir, dname, fa.id⟩ := by
  obtain ⟨hdm, hfm⟩ := hr.found_mem h
  rw [hr.mem h.uniq]
  simp only [Meta.slot, ne_eq, Slot.dent.injEq, reduceCtorEq, not_false_eq_true, and_true]
  constructor
  · rintro ⟨hm, h₁, h₂, h₃⟩
    refine ⟨hm, fun hc => ?_, fun hc => h₃ ?_⟩
    · rcases h.empty_dot hfm hr.type hr.empty hm hc with hn | hn
      · exact h₁ ⟨hc, hn⟩
      · exact h₂ ⟨hc, hn⟩
    · rw [hc]
      exact ⟨rfl, rfl⟩
  · rintro ⟨hm, hne, hned⟩
    exact ⟨hm, fun hc => hne hc.1, fun hc => hne hc.1, fun hc => hned (h.uniq.eq_of_name hm hdm hc.1 hc.2)⟩

theorem RmdirDone.mem_fattr (h : Hierarchy fs.leaves) (hr : RmdirDone fs dir dname fa l')
    (g : MetaFattr) : .fattr g ∈ l' ↔ .fattr g ∈ fs.leaves ∧ g.id ≠ fa.id := by
  rw [hr.mem h.uniq]
  simp [Meta.slot]

theorem RmdirDone.hier (h : Hierarchy fs.leaves) (hr : RmdirDone fs dir dname fa l') : Hierarchy l' := by
  obtain ⟨hdm, hfm⟩ := hr.found_mem h
  exact h.dropDir (hr.uniq h.uniq) hdm (not_or.mpr hr.not_dot) rfl
    (fun e he hd => h.empty_dot hfm hr.type hr.empty he hd) (hr.mem_dentry h) (hr.mem_fattr h)

/-- A climb from another directory does not use the directory that `rmdir` removes. -/
theorem RmdirDone.avoids (h : Hierarchy fs.leaves) (hr : RmdirDone fs dir dname fa l') {a x : ℤ}
    (hx : x ≠ fa.id) (hav : Avoids (up fs.leaves) a x ROOTFID) : Avoids (up l') a x ROOTFID := by
  obtain ⟨hdm, hfm⟩ := hr.found_mem h
  refine climb_of_leaf hav hx (fun u hu => ?_) fun u v huv hne => ⟨?_, huv.2⟩
  · obtain ⟨e, he, hen, -, hed⟩ := h.up_dir hu.1
    exact absurd (h.empty_dot hfm hr.type hr.empty he hed) hen
  · refine (hr.mem_dentry h _).mpr ⟨huv.1, hne, fun hc => hr.not_dot.2 ?_⟩
    exact (congrArg MetaDentry.name hc).symm

theorem rmdir_hier (h : Hierarchy fs.leaves) (hr : rmdir fs dir dname = some (st, fs')) :
    Hierarchy fs'.leaves := by
  rcases rmdir_spec hr with ⟨-, rfl⟩ | ⟨-, fa, l', hd, rfl⟩
  · exact h
  · exact hd.hier h

end

/-! ## Moving and removing files -/

theorem delOk_sublist {m : Meta} (h : Leaves.delOk l m = some l') : List.Sublist l' l := by
  unfold Leaves.delOk at h
  split_ifs at h
  rw [← Option.some.inj h]
  exact List.eraseP_sublist

/-- Items that a removal does not look for stay. -/
theorem mem_delOk_of_miss {m x : Meta} (h : Leaves.delOk l m = some l') (hx : Leaves.hits m x = false) :
    x ∈ l' ↔ x ∈ l := by
  unfold Leaves.delOk at h
  split_ifs at h
  rw [← Option.some.inj h]
  exact List.mem_eraseP_of_neg (by simp [hx])

theorem hits_chunkinfo {c : MetaChunkInfo} {x : Meta} (hx : ∀ c', x ≠ .chunkinfo c') :
    Leaves.hits (.chunkinfo c) x = false := by
  rw [Leaves.hits, Bool.and_eq_false_iff, ← Bool.not_eq_true, Key.eqv_iff]
  left
  cases x with
  | dentry d => simp [Meta.key, MetaType.val]
  | fattr f => simp [Meta.key, MetaType.val]
  | chunkinfo c' => exact absurd rfl (hx c')

/-- `deleteChunks` removes nothing but chunks. -/
theorem deleteChunks_mem : ∀ {cs : List MetaChunkInfo} {l l' : List Meta},
    deleteChunks l cs = some l' → List.Sublist l' l ∧ ∀ x, (∀ c, x ≠ .chunkinfo c) → (x ∈ l' ↔ x ∈ l)
  | [], l, l', h => by
    obtain rfl : l = l' := by simpa [deleteChunks] using h
    exact ⟨.refl _, fun _ _ => Iff.rfl⟩
  | c :: cs, l, l', h => by
    simp only [deleteChunks, List.foldlM_cons, Option.bind_eq_bind, Option.bind_eq_some_iff] at h
    obtain ⟨l₁, h₁, h₂⟩ := h
    obtain ⟨hs, hm⟩ := deleteChunks_mem h₂
    exact ⟨hs.trans (delOk_sublist h₁),
      fun x hx => (hm x hx).trans (mem_delOk_of_miss h₁ (hits_chunkinfo hx))⟩

theorem dropChunks_mem {fa : MetaFattr} {cs : List MetaChunkInfo} (h : dropChunks l fa cs = some l') :
    List.Sublist l' l ∧ ∀ x, (∀ c, x ≠ .chunkinfo c) → (x ∈ l' ↔ x ∈ l) := by
  unfold dropChunks at h
  split_ifs at h
  · exact deleteChunks_mem h
  · obtain rfl := Option.some.inj h
    exact ⟨.refl _, fun _ _ => Iff.rfl⟩

/-- What the removal or renaming of the file `name` in `dir` does to the tree: the name is free, every
directory is kept, and the only new attributes are those of a new dumpster. -/
structure Moved (fs fs' : Fs) (dir : ℤ) (name : Str) : Prop where
  hier : Hierarchy fs'.leaves
  dirs : ∀ g, .fattr g ∈ fs.leaves → g.type = .dir → .fattr g ∈ fs'.leaves
  attrs : ∀ g, .fattr g ∈ fs'.leaves → .fattr g ∈ fs.leaves ∨ fs.fileID < g.id
  free : ∀ e, .dentry e ∈ fs'.leaves → e.dir = dir → e.name ≠ name

/-- A removal of the entry and the attributes of a file. -/
theorem mem_unlink {fa : MetaFattr} (hu : Uniq l) (h : unlink l dir name fa false = some l') {x : Meta} :
    x ∈ l' ↔ x ∈ l ∧ x.slot ≠ .dent dir name ∧ x.slot ≠ .attr fa.id := by
  obtain ⟨l₂, h₂, h₃⟩ := unlink_iff.mp h
  rw [(hu.delOk h₂).mem_delOk (plain_fattr _) h₃, hu.mem_delOk (plain_dentry _) h₂, and_assoc]
  simp only [Meta.slot]

theorem removed_moved (h : Hierarchy fs.leaves) {fa : MetaFattr} {cs : List MetaChunkInfo}
    {l₁ : List Meta} (hl : lookup fs.leaves dir name = some (some fa)) (ht : fa.type = .file)
    (h₁ : dropChunks fs.leaves fa cs = some l₁) (h₂ : unlink l₁ dir name fa false = some l') :
    Moved fs { fs with leaves := l' } dir name := by
  obtain ⟨hdm, hfm⟩ := h.lookup_iff.mp hl
  obtain ⟨hs, hm⟩ := dropChunks_mem h₁
  have u₁ := h.uniq.sublist hs
  have hmem : ∀ x, (∀ c, x ≠ .chunkinfo c) →
      (x ∈ l' ↔ x ∈ fs.leaves ∧ x.slot ≠ .dent dir name ∧ x.slot ≠ .attr fa.id) := by
    intro x hx
    rw [mem_unlink u₁ h₂, hm x hx]
  obtain ⟨l₂, h₂, h₃⟩ := unlink_iff.mp h₂
  have u₂ := u₁.delOk h₂
  have hd : ∀ e, .dentry e ∈ l' ↔ .dentry e ∈ fs.leaves ∧ e ≠ ⟨dir, name, fa.id⟩ := by
    intro e
    rw [hmem _ (by simp)]
    simp only [Meta.slot, ne_eq, Slot.dent.injEq, reduceCtorEq, not_false_eq_true, and_true]
    refine and_congr_right fun he => not_congr ⟨fun hc => h.uniq.eq_of_name he hdm hc.1 hc.2, ?_⟩
    rintro rfl
    exact ⟨rfl, rfl⟩
  have hf : ∀ g, .fattr g ∈ l' ↔ .fattr g ∈ fs.leaves ∧ g.id ≠ fa.id := by
    intro g
    rw [hmem _ (by simp)]
    simp [Meta.slot]
  refine ⟨h.dropFile (u₂.delOk h₃) hdm hfm rfl ht hd hf, fun g hg hgt => ?_, fun g hg => ?_,
    fun e he hed hen => ?_⟩
  · refine (hf g).mpr ⟨hg, fun hc => ?_⟩
    rw [h.uniq.eq_of_id hg hfm hc, ht] at hgt
    exact absurd hgt (by decide)
  · exact Or.inl ((hf g).mp hg).1
  · obtain ⟨hem, hne⟩ := (hd e).mp he
    exact hne (h.uniq.eq_of_name hem hdm hed hen)

/-- What is left of the target of a renaming when it has been cleared. -/
structure Cleared (fs fs₁ : Fs) (p : RenamePlan) : Prop where
  hier : Hierarchy fs₁.leaves
  ddir : ∃ g, .fattr g ∈ fs₁.leaves ∧ g.id = p.ddir ∧ g.type = .dir
  free : ∀ e, .dentry e ∈ fs₁.leaves → e.dir = p.ddir → e.name ≠ p.dname
  attr : ∀ g, .fattr g ∈ fs₁.leaves → g.id = p.src.id → g = p.sfattr
  avoids : p.sfattr.type = .dir →
    Avoids (up fs₁.leaves) p.sfattr.id p.ddir ROOTFID ∧ p.sfattr.id ≠ ROOTFID
  dirs : p.sfattr.type = .file → ∀ g, .fattr g ∈ fs.leaves → g.type = .dir → .fattr g ∈ fs₁.leaves
  attrs : ∀ g, .fattr g ∈ fs₁.leaves → .fattr g ∈ fs.leaves ∨ fs.fileID < g.id

/-- The removals that `rename` is run with: they change nothing, or remove or move the file. -/
def Moves (rm : Fs → ℤ → Str → Option (ℤ × Fs)) : Prop :=
  ∀ ⦃fs dir name fs'⦄, Tidy fs → Hierarchy fs.leaves → rm fs dir name = some (0, fs') →
    Moved fs fs' dir name

section

variable {rm : Fs → ℤ → Str → Option (ℤ × Fs)} {p : RenamePlan} {parent : ℤ} {oldname newname : Str}
  {overwrite : Bool}

theorem RenamePlan.Checked.mem (h : Hierarchy l) (hp : p.Checked l parent oldname newname overwrite) :
    .dentry p.src ∈ l ∧ p.src.dir = parent ∧ p.src.name = oldname ∧ .fattr p.sfattr ∈ l ∧
      p.src.id = p.sfattr.id := by
  obtain ⟨hdm, hdd, hdn⟩ := h.getDentry_iff.mp hp.src
  obtain ⟨hd, hfm⟩ := h.lookup_iff.mp hp.found
  have he : p.src = ⟨parent, oldname, p.sfattr.id⟩ := h.uniq.eq_of_name hdm hd hdd hdn
  exact ⟨hdm, hdd, hdn, hfm, by rw [he]⟩

theorem RenamePlan.Checked.ddir_dir (h : Hierarchy l)
    (hp : p.Checked l parent oldname newname overwrite) :
    ∃ g, .fattr g ∈ l ∧ g.id = p.ddir ∧ g.type = .dir := by
  rcases renameTarget_dir hp.target with he | hg
  · obtain ⟨hdm, hdd, -⟩ := hp.mem h
    rw [he, ← hdd]
    exact h.in_dir _ hdm
  · exact hg

theorem clearTarget_cleared (hrm : Moves rm) (htidy : Tidy fs) (h : Hierarchy fs.leaves)
    (hp : p.Checked fs.leaves parent oldname newname overwrite) {fs₁ : Fs}
    (hc : clearTarget rm fs p = some (0, fs₁)) : Cleared fs fs₁ p := by
  obtain ⟨hsm, -, -, hfm, hsi⟩ := hp.mem h
  obtain ⟨dfattr, hd, hex, hds⟩ := hp.dst
  have hddir := hp.ddir_dir h
  have hav : p.sfattr.type = .dir → Avoids (up fs.leaves) p.sfattr.id p.ddir ROOTFID ∧
      p.sfattr.id ≠ ROOTFID := fun ht => isDescendant_avoids (hp.loop ht)
  have hattr : ∀ g, .fattr g ∈ fs.leaves → g.id = p.src.id → g = p.sfattr :=
    fun g hg hgi => h.uniq.eq_of_id hg hfm (hgi.trans hsi)
  unfold clearTarget at hc
  rcases dfattr with - | d
  · rw [hex, Option.isSome_none, if_neg (by decide)] at hc
    obtain ⟨-, rfl⟩ : 0 = (0 : ℤ) ∧ fs = fs₁ := by simpa using hc
    exact ⟨h, hddir, getDentry_none (lookup_none hd), hattr, hav, fun _ g hg _ => hg,
      fun g hg => Or.inl hg⟩
  · obtain ⟨-, hty, hempty⟩ := hds d rfl
    rw [hex, Option.isSome_some, if_pos rfl] at hc
    by_cases ht : p.sfattr.type = .dir
    · rw [if_pos ht] at hc
      rcases rmdir_spec hc with ⟨h0, -⟩ | ⟨-, fa, l', hr, rfl⟩
      · exact absurd h0 (by decide)
      obtain ⟨hdm, hfam⟩ := hr.found_mem h
      -- the target is not its own directory: the root is the only such one, and it is not empty
      have hne : p.ddir ≠ fa.id := by
        intro he
        have := h.empty_dot hfam hr.type hr.empty hdm he
        exact not_or.mpr hr.not_dot this
      refine ⟨hr.hier h, ?_, fun e he hed hen => ?_, fun g hg => hattr g ((hr.mem_fattr h g).mp hg).1,
        fun _ => ⟨hr.avoids h hne (hav ht).1, (hav ht).2⟩, fun hf => ?_,
        fun g hg => Or.inl ((hr.mem_fattr h g).mp hg).1⟩
      · obtain ⟨g, hg, hgi, hgt⟩ := hddir
        exact ⟨g, (hr.mem_fattr h g).mpr ⟨hg, hgi ▸ hne⟩, hgi, hgt⟩
      · obtain ⟨hem, -, hned⟩ := (hr.mem_dentry h e).mp he
        exact hned (h.uniq.eq_of_name hem hdm hed hen)
      · rw [ht] at hf
        exact absurd hf (by decide)
    · rw [if_neg ht] at hc
      have hm := hrm htidy h hc
      obtain ⟨g, hg, hgi, hgt⟩ := hddir
      refine ⟨hm.hier, ⟨g, hm.dirs g hg hgt, hgi, hgt⟩, hm.free, fun g' hg' hgi' => ?_,
        fun hc => absurd hc ht, fun _ => hm.dirs, hm.attrs⟩
      rcases hm.attrs g' hg' with hg' | hlt
      · exact hattr g' hg' hgi'
      · have := htidy.id_le _ hsm
        omega

/-- The items after the end of `rename`. -/
theorem relink_mem {l₁ : List Meta} (hu : Uniq l₁) (hid : p.src.id = p.sfattr.id)
    (hfree : ∀ e, .dentry e ∈ l₁ → e.dir = p.ddir → e.name ≠ p.dname) (hnew : ¬ isDot p.dname)
    (hr : relink env l₁ p = some l') : Uniq l' ∧
      (∀ e, .dentry e ∈ l' ↔ e = ⟨p.ddir, p.dname, p.src.id⟩ ∨
        (p.sfattr.type = .dir ∧ e = ⟨p.sfattr.id, ['.', '.'], p.ddir⟩) ∨ (.dentry e ∈ l₁ ∧ e ≠ p.src ∧
          ¬ (p.sfattr.type = .dir ∧ e.dir = p.sfattr.id ∧ e.name = ['.', '.']))) ∧
      ∀ g, .fattr g ∈ l' ↔ .fattr g ∈ l₁ := by
  obtain ⟨hsm, hr⟩ := relink_spec hr
  have hslot : ∀ e, .dentry e ∈ l₁ → ((Meta.dentry e).slot ≠ (Meta.dentry p.src).slot ↔ e ≠ p.src) := by
    refine fun e he => not_congr ⟨fun hc => Meta.dentry.inj (hu.eq_of_slot he hsm hc), ?_⟩
    rintro rfl
    rfl
  split_ifs at hr with ht
  · obtain ⟨-, l₂, l₃, h₂, h₃, rfl⟩ := hr
    have u₂ := hu.delOk h₂
    have hm : ∀ x, x ∈ l₃ ↔ x ∈ l₁ ∧ x.slot ≠ .dent p.src.id ['.', '.'] ∧ x.slot ≠ (Meta.dentry p.src).slot := by
      intro x
      rw [u₂.mem_delOk (plain_dentry _) h₃, hu.mem_delOk (plain_dentry _) h₂, and_assoc]
      simp only [Meta.slot]
    refine ⟨?_, fun e => ?_, fun g => ?_⟩
    · have u₃ := (u₂.delOk h₃).insert_dentry (d := ⟨p.ddir, p.dname, p.src.id⟩)
        fun e he => hfree e ((hm _).mp he).1
      refine u₃.insert_dentry (d := ⟨p.src.id, ['.', '.'], p.ddir⟩) fun e he hed hen => ?_
      rcases Leaves.mem_insert.mp he with he | he
      · obtain rfl := Meta.dentry.inj he
        exact hnew (Or.inr hen)
      · refine ((hm _).mp he).2.1 ?_
        simp only [Meta.slot, Slot.dent.injEq]
        exact ⟨hed, hen⟩
    · simp only [Leaves.mem_insert, Meta.dentry.injEq, hm, ht, true_and, hid]
      rw [or_left_comm]
      refine or_congr_right (or_congr_right (and_congr_right fun he => ?_))
      rw [hslot e he, and_comm]
      simp only [Meta.slot, ne_eq, Slot.dent.injEq]
    · simp [Leaves.mem_insert, hm, Meta.slot]
  · obtain ⟨l₂, h₂, rfl⟩ := hr
    have hm : ∀ x, x ∈ l₂ ↔ x ∈ l₁ ∧ x.slot ≠ (Meta.dentry p.src).slot :=
      fun x => hu.mem_delOk (plain_dentry _) h₂
    refine ⟨?_, fun e => ?_, fun g => ?_⟩
    · exact (hu.delOk h₂).insert_dentry (d := ⟨p.ddir, p.dname, p.src.id⟩)
        fun e he => hfree e ((hm _).mp he).1
    · simp only [Leaves.mem_insert, Meta.dentry.injEq, hm, ht, false_and, false_or, not_false_eq_true,
        and_true]
      exact or_congr_right (and_congr_right fun he => hslot e he)
    · simp [Leaves.mem_insert, hm, Meta.slot]

theorem relink_hier {fs₁ : Fs} (hc : Cleared fs fs₁ p) (hnd : ¬ isDot p.src.name)
    (hid : p.src.id = p.sfattr.id) (hne : ¬ (p.ddir = p.src.dir ∧ p.dname = p.src.name))
    (hr : relink env fs₁.leaves p = some l') : Hierarchy l' ∧
      (∀ g, .fattr g ∈ l' ↔ .fattr g ∈ fs₁.leaves) ∧
      ∀ e, .dentry e ∈ l' → e.dir = p.src.dir → e.name ≠ p.src.name := by
  have h := hc.hier
  obtain ⟨hsm, -⟩ := relink_spec hr
  obtain ⟨g, hg, hgi, hgt⟩ := hc.ddir
  have hnew : ¬ isDot p.dname := h.not_dot hg hgt fun e he hed => hc.free e he (hed.trans hgi)
  obtain ⟨hu, hd, hf⟩ := relink_mem h.uniq hid hc.free hnew hr
  have hfm : .fattr p.sfattr ∈ fs₁.leaves := by
    obtain ⟨f, hfm, hfi⟩ := h.has_attr _ hsm
    exact hc.attr f hfm hfi ▸ hfm
  refine ⟨h.move hu (n := ⟨p.ddir, p.dname, p.src.id⟩) hsm hnd hfm hid ⟨g, hg, hgi, hgt⟩ hnew rfl
    hc.avoids hd hf, hf, fun e he hed hen => ?_⟩
  rcases (hd e).mp he with rfl | ⟨-, rfl⟩ | ⟨hem, hne', -⟩
  · exact hne ⟨hed, hen⟩
  · exact hnd (Or.inr hen.symm)
  · exact hne' (h.uniq.eq_of_name hem hsm hed hen)

/-- **`rename` keeps the tree** when its source is not one of the dot entries. -/
theorem renameWith_hier (hrm : Moves rm) (hat : RmAtomic rm) (htidy : Tidy fs) (h : Hierarchy fs.leaves)
    (hdot : isDot oldname → ∀ p : RenamePlan, ¬ p.Checked fs.leaves parent oldname newname overwrite)
    (hr : renameWith rm env fs parent oldname newname overwrite = some (st, fs')) :
    Hierarchy fs'.leaves := by
  by_cases hst : st = 0
  swap
  · rw [renameWith_atomic hat htidy hr hst]
    exact h
  rcases renameWith_spec hr with ⟨-, rfl⟩ | ⟨p, hp, ⟨h0, -⟩ | ⟨-, fs₁, l', hc, hl, rfl⟩⟩
  · exact h
  · exact absurd hst h0
  · obtain ⟨-, hsd, hsn, -, hsi⟩ := hp.mem h
    refine (relink_hier (clearTarget_cleared hrm htidy h hp hc) (fun hn => hdot (hsn ▸ hn) p hp) hsi ?_
      hl).1
    rw [hsd, hsn]
    exact hp.ne

/-- A renaming of a file moves it. -/
theorem renameWith_moved (hrm : Moves rm) (htidy : Tidy fs) (h : Hierarchy fs.leaves)
    {fa : MetaFattr} (hl : lookup fs.leaves parent oldname = some (some fa)) (ht : fa.type = .file)
    (hne : renameCheck fs.leaves parent oldname newname overwrite ≠ some (.error 0))
    (hr : renameWith rm env fs parent oldname newname overwrite = some (0, fs')) :
    Moved fs fs' parent oldname := by
  rcases renameWith_spec hr with ⟨hc, -⟩ | ⟨p, hp, ⟨h0, -⟩ | ⟨-, fs₁, l', hc, hrl, rfl⟩⟩
  · exact absurd hc hne
  · exact absurd rfl h0
  obtain ⟨hsm, hsd, hsn, hfm, hsi⟩ := hp.mem h
  obtain rfl : p.sfattr = fa := by simpa using hp.found.symm.trans hl
  have hnd : ¬ isDot p.src.name := by
    intro hn
    obtain ⟨g, hg, hgi, hgt⟩ := h.dot_dir hsm hn
    rw [h.uniq.eq_of_id hg hfm (hgi.trans hsi), ht] at hgt
    exact absurd hgt (by decide)
  have hcl := clearTarget_cleared hrm htidy h hp hc
  obtain ⟨hh, hf, hfree⟩ := relink_hier hcl hnd hsi (by rw [hsd, hsn]; exact hp.ne) hrl
  exact ⟨hh, fun g hg hgt => (hf g).mpr (hcl.dirs ht g hg hgt), fun g hg => hcl.attrs g ((hf g).mp hg),
    by rwa [hsd, hsn] at hfree⟩

end

theorem tempname_target (hn : legalname name = true) {fa : MetaFattr} {n : ℕ} {ddir : ℤ} {dname : Str}
    (hd : lookup l ROOTFID DUMPSTERDIR = some (some fa))
    (ht : renameTarget l dir (tempname name n) = some (.ok (ddir, dname))) : ddir = fa.id := by
  unfold renameTarget at ht
  rw [if_pos (by simp [tempname]), splitPath_tempname hn, lookupPath_dumpster, hd] at ht
  dsimp only at ht
  split_ifs at ht
  · simp at ht
  · simp only [Option.some.injEq, Except.ok.injEq, Prod.mk.injEq] at ht
    exact ht.1.symm

theorem Tidy.legal_of_file (h : Tidy fs) {fa : MetaFattr}
    (hl : lookup fs.leaves dir name = some (some fa)) (ht : fa.type = .file) : legalname name = true := by
  obtain ⟨x, hx, hf⟩ := lookup_some hl
  obtain ⟨hxm, -, hxn⟩ := getDentry_some hx
  obtain ⟨hfm, hfi⟩ := getFattr_some hf
  rcases h.legal x fa hxm hfm hfi with hc | hc
  · rw [ht] at hc
    exact absurd hc (by decide)
  · exact hxn ▸ hc

/-- The dumpster is made like any other directory. -/
theorem getDumpster_hier (htidy : Tidy fs) (h : Hierarchy fs.leaves) {fa : MetaFattr}
    (hg : getDumpster env fs = some (fa, fs')) : Hierarchy fs'.leaves ∧
      lookup fs'.leaves ROOTFID DUMPSTERDIR = some (some fa) ∧
      (∀ x ∈ fs.leaves, x ∈ fs'.leaves) ∧
      ∀ g, .fattr g ∈ fs'.leaves → .fattr g ∈ fs.leaves ∨ fs.fileID < g.id := by
  rcases getDumpster_spec hg with ⟨hl, rfl⟩ | ⟨hl, rfl, hl'⟩
  · exact ⟨h, hl, fun _ hx => hx, fun g hg => Or.inl hg⟩
  · obtain ⟨f, hf, hfi, hft⟩ := h.root_dir
    refine ⟨Hierarchy.mkdirAt h hf hfi hft
      (getDentry_none (lookup_none hl)) fun g hg => ?_, hl', fun x hx => ?_, fun g hg => ?_⟩
    · have := htidy.attr_le g hg
      omega
    · simp only [Fs.mkdirAt, Leaves.mem_insert]
      simp [hx]
    · rcases mem_fattr_mkdirAt.mp hg with rfl | hg
      · right
        change fs.fileID < fs.fileID + 1
        omega
      · exact Or.inl hg

theorem moveToDumpsterWith_moved {rm : Fs → ℤ → Str → Option (ℤ × Fs)} (hrm : Moves rm)
    (htidy : Tidy fs) (h : Hierarchy fs.leaves) {fa : MetaFattr}
    (hl : lookup fs.leaves dir name = some (some fa)) (ht : fa.type = .file)
    (hm : moveToDumpsterWith rm env fs dir name = some (0, fs')) : Moved fs fs' dir name := by
  obtain ⟨f, fs₁, hg, ⟨-, h0, -⟩ | ⟨hne, hr⟩⟩ := moveToDumpsterWith_spec hm
  · exact absurd h0 (by decide)
  obtain ⟨h₁, hd, hsub, hattrs⟩ := getDumpster_hier htidy h hg
  obtain ⟨htidy₁, hle⟩ := getDumpster_tidy htidy hg
  obtain ⟨hdm, hfm⟩ := h.lookup_iff.mp hl
  have hl₁ : lookup fs₁.leaves dir name = some (some fa) :=
    h₁.lookup_iff.mpr ⟨hsub _ hdm, hsub _ hfm⟩
  have htidy₂ : Tidy { fs₁ with counter := fs₁.counter + 1 } :=
    htidy₁.of_imp le_rfl (fun _ hm => hm) fun g hg => ⟨g, hg, rfl, rfl⟩
  have hm := renameWith_moved hrm htidy₂ h₁ hl₁ ht (fun hc => hne ?_) hr
  · refine ⟨hm.hier, fun g hg hgt => hm.dirs g (hsub _ hg) hgt, fun g hg => ?_, hm.free⟩
    rcases hm.attrs g hg with hg | hlt
    · exact hattrs g hg
    · exact Or.inr (lt_of_le_of_lt hle hlt)
  · obtain ⟨-, htarget, -⟩ := renameCheck_zero_iff.mp hc
    exact (tempname_target (htidy.legal_of_file hl ht) hd htarget).symm

/-- **`remove` removes or moves the file**, by induction on the depth of its calls through
`moveToDumpster`. -/
theorem removeF_moves (env : Env) : ∀ fuel, Moves (removeF fuel env)
  | 0 => by
    intro fs dir name fs' _ _ hr
    simp [removeF] at hr
  | fuel + 1 => by
    intro fs dir name fs' htidy h hr
    rcases removeF_spec hr with ⟨h0, -⟩ | ⟨fa, hl, ht, -, ⟨-, -, hm⟩ | ⟨-, -, l₁, l', h₁, h₂, rfl⟩⟩
    · exact absurd h0 (by decide)
    · exact moveToDumpsterWith_moved (removeF_moves env fuel) htidy h hl ht hm
    · exact removed_moved h hl ht h₁ h₂

theorem remove_hier (htidy : Tidy fs) (h : Hierarchy fs.leaves)
    (hr : remove env fs dir name = some (st, fs')) : Hierarchy fs'.leaves := by
  by_cases hst : st = 0
  · subst hst
    exact (removeF_moves env 2 htidy h hr).hier
  · rw [removeF_atomic env 2 htidy hr hst]
    exact h

theorem create_hier (htidy : Tidy fs) (h : Hierarchy fs.leaves) {f : MetaFattr} {id n : ℤ}
    {exclusive : Bool} (hf : .fattr f ∈ fs.leaves) (hfi : f.id = dir) (ht : f.type = .dir)
    (hc : create env fs dir name 0 n exclusive = some (st, id, fs')) : Hierarchy fs'.leaves := by
  by_cases hst : st = 0
  swap
  · rw [create_atomic htidy hc hst]
    exact h
  rcases create_spec hc with
    ⟨h0, -⟩ | ⟨hn, -, fa, hl, -, st₁, fs₁, hr, ⟨h₁, h₂, -⟩ | ⟨rfl, -, rfl, l', hlk, rfl⟩⟩
  · omega
  · rw [hst, h₁] at h₂
    exact absurd h₂ (by decide)
  have hrem : Moved fs fs₁ dir name := by
    unfold removeOld at hr
    rcases fa with - | fa
    · obtain rfl : fs = fs₁ := by simpa using hr
      exact ⟨h, fun g hg _ => hg, fun g hg => Or.inl hg, getDentry_none (lookup_none hl)⟩
    · exact removeF_moves env 2 htidy h hr
  obtain ⟨htidy₁, -⟩ := removeOld_tidy htidy hr
  have hfm := hrem.dirs f hf ht
  have hnd : ¬ isDot name := hrem.hier.not_dot hfm ht (hfi ▸ hrem.free)
  have hnew : ∀ g, .fattr g ∈ fs₁.leaves → g.id ≠ fs₁.fileID + 1 := by
    intro g hg
    have := htidy₁.attr_le g hg
    omega
  obtain ⟨-, rfl⟩ := link_spec hlk
  simp only [if_true, not_or.mp hnd, ne_eq, not_false_eq_true, and_self]
  have u₁ := hrem.hier.uniq.insert_dentry (d := ⟨dir, name, fs₁.fileID + 1⟩) hrem.free
  refine hrem.hier.addFile (d := ⟨dir, name, fs₁.fileID + 1⟩)
    (f := MetaFattr.new env .file (fs₁.fileID + 1) n) ?_ ⟨f, hfm, hfi, ht⟩ hnd rfl rfl hnew ?_ ?_
  · exact u₁.insert_fattr fun g hg => hnew g (by simpa [Leaves.mem_insert] using hg)
  · intro e
    simp [Leaves.mem_insert]
  · intro g
    simp [Leaves.mem_insert]

end Kfs
