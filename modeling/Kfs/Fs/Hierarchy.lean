import Kfs.Fs.Slot
import Kfs.Lib.Climb

/-!
# The directory tree

* `Hierarchy`: the items form a tree of directories with its root at `ROOTFID`;
* `isDescendant_avoids`, `Hierarchy.is_descendant_isSome`: the walk of `is_descendant`;
* `Hierarchy.addDir`, `Hierarchy.addFile`, `Hierarchy.dropFile`, `Hierarchy.dropDir`, `Hierarchy.move`: the
  five changes that the operations of the name space make.
-/

namespace Kfs

open Lib Relation

variable {env : Env} {l l' : List Meta} {dir fid : ℤ} {name : Str}

/-- The names of the entries that every directory has. -/
def isDot (name : Str) : Prop := name = ['.'] ∨ name = ['.', '.']

instance (name : Str) : Decidable (isDot name) := by unfold isDot; infer_instance

/-- `p` is the parent that `x` names. -/
def up (l : List Meta) (x p : ℤ) : Prop := .dentry ⟨x, ['.', '.'], p⟩ ∈ l

/-- The items form a tree of directories. -/
structure Hierarchy (l : List Meta) : Prop where
  uniq : Uniq l
  in_dir : ∀ d, .dentry d ∈ l → ∃ f, .fattr f ∈ l ∧ f.id = d.dir ∧ f.type = .dir
  has_attr : ∀ d, .dentry d ∈ l → ∃ f, .fattr f ∈ l ∧ f.id = d.id
  type : ∀ f, .fattr f ∈ l → f.type = .file ∨ f.type = .dir
  dot : ∀ f, .fattr f ∈ l → f.type = .dir → .dentry ⟨f.id, ['.'], f.id⟩ ∈ l
  home : ∀ f, .fattr f ∈ l → ∃ d, .dentry d ∈ l ∧ ¬ isDot d.name ∧ d.id = f.id ∧
    (f.type = .dir → up l f.id d.dir)
  home_eq : ∀ d e, .dentry d ∈ l → .dentry e ∈ l → ¬ isDot d.name → ¬ isDot e.name → d.id = e.id → d = e
  root : .dentry ⟨ROOTFID, ['/'], ROOTFID⟩ ∈ l
  climb : ∀ f, .fattr f ∈ l → f.type = .dir → ReflTransGen (up l) f.id ROOTFID

namespace Hierarchy

theorem up_dir (h : Hierarchy l) {x p : ℤ} (hu : up l x p) :
    ∃ d, .dentry d ∈ l ∧ ¬ isDot d.name ∧ d.id = x ∧ d.dir = p := by
  obtain ⟨f, hf, rfl, ht⟩ := h.in_dir _ hu
  obtain ⟨d, hd, hn, hi, hd'⟩ := h.home f hf
  have := h.uniq.eq_of_name hu (hd' ht) rfl rfl
  exact ⟨d, hd, hn, hi, by simpa using (congrArg MetaDentry.id this).symm⟩

/-- `"."` names its directory. -/
theorem dot_self (h : Hierarchy l) {x id : ℤ} (he : .dentry ⟨x, ['.'], id⟩ ∈ l) : id = x := by
  obtain ⟨f, hf, rfl, ht⟩ := h.in_dir _ he
  have := h.uniq.eq_of_name he (h.dot f hf ht) rfl rfl
  simpa using congrArg MetaDentry.id this

/-- The dot entries name directories. -/
theorem dot_dir (h : Hierarchy l) {e : MetaDentry} (he : .dentry e ∈ l) (hn : isDot e.name) :
    ∃ f, .fattr f ∈ l ∧ f.id = e.id ∧ f.type = .dir := by
  obtain ⟨dir, name, id⟩ := e
  rcases hn with rfl | rfl
  · obtain rfl := h.dot_self he
    exact h.in_dir _ he
  · obtain ⟨d, hd, -, -, rfl⟩ := h.up_dir he
    exact h.in_dir d hd

/-- A directory has its two dot entries. -/
theorem two_le (h : Hierarchy l) {f : MetaFattr} (hf : .fattr f ∈ l) (ht : f.type = .dir) :
    2 ≤ (dents l f.id).length := by
  obtain ⟨d, -, -, -, hup⟩ := h.home f hf
  have hnd : (dents l f.id).Nodup := h.uniq.dentries_nodup.filter _
  have hsub : [⟨f.id, ['.'], f.id⟩, ⟨f.id, ['.', '.'], d.dir⟩] ⊆ dents l f.id := by
    intro e he
    rw [mem_dents]
    rcases List.mem_cons.mp he with rfl | he
    · exact ⟨h.dot f hf ht, rfl⟩
    · rw [List.mem_singleton] at he
      exact he ▸ ⟨hup ht, rfl⟩
  have := (List.subperm_of_subset (by simp) hsub).length_le
  simpa using this

theorem getDentry_iff (h : Hierarchy l) {d : MetaDentry} :
    getDentry l dir name = some (some d) ↔ .dentry d ∈ l ∧ d.dir = dir ∧ d.name = name := by
  refine ⟨getDentry_some, ?_⟩
  rintro ⟨hd, rfl, rfl⟩
  obtain ⟨f, hf, hi, ht⟩ := h.in_dir d hd
  exact h.uniq.getDentry_eq_some (hi ▸ h.two_le hf ht) hd

theorem lookup_iff (h : Hierarchy l) {f : MetaFattr} : lookup l dir name = some (some f) ↔
    .dentry ⟨dir, name, f.id⟩ ∈ l ∧ .fattr f ∈ l := by
  constructor
  · intro hl
    obtain ⟨d, hd, hf⟩ := lookup_some hl
    obtain ⟨hdm, rfl, rfl⟩ := getDentry_some hd
    obtain ⟨hfm, hfi⟩ := getFattr_some hf
    exact ⟨hfi ▸ hdm, hfm⟩
  · rintro ⟨hd, hf⟩
    exact lookup_eq (h.getDentry_iff.mpr ⟨hd, rfl, rfl⟩) (h.uniq.getFattr_iff.mpr ⟨hf, rfl⟩)

theorem root_dir (h : Hierarchy l) : ∃ f, .fattr f ∈ l ∧ f.id = ROOTFID ∧ f.type = .dir :=
  h.in_dir _ h.root

/-- An empty directory has only dot entries. -/
theorem empty_dot (h : Hierarchy l) {f : MetaFattr} (hf : .fattr f ∈ l) (ht : f.type = .dir)
    (he : emptydir l f.id = some true) {e : MetaDentry} (hm : .dentry e ∈ l) (hd : e.dir = f.id) :
    isDot e.name := by
  by_contra hn
  obtain ⟨d, -, -, -, hup⟩ := h.home f hf
  have hlen : (dents l f.id).length = 2 := by
    unfold emptydir at he
    rw [readdir_eq] at he
    have := h.two_le hf ht
    split_ifs at he with h₁
    · rw [h₁] at this
      simp at this
    · simpa using he
  have hnd : [e, ⟨f.id, ['.'], f.id⟩, ⟨f.id, ['.', '.'], d.dir⟩].Nodup := by
    refine List.nodup_cons.mpr ⟨fun hc => hn ?_, by simp⟩
    rcases List.mem_cons.mp hc with rfl | hc
    · exact Or.inl rfl
    · rw [List.mem_singleton] at hc
      exact hc ▸ Or.inr rfl
  have hsub : [e, ⟨f.id, ['.'], f.id⟩, ⟨f.id, ['.', '.'], d.dir⟩] ⊆ dents l f.id := by
    intro x hx
    simp only [List.mem_cons, List.not_mem_nil, or_false] at hx
    rw [mem_dents]
    rcases hx with rfl | rfl | rfl
    · exact ⟨hm, hd⟩
    · exact ⟨h.dot f hf ht, rfl⟩
    · exact ⟨hup ht, rfl⟩
  have := (List.subperm_of_subset hnd hsub).length_le
  rw [hlen] at this
  simp at this

end Hierarchy

/-! ## Descendants -/

/-- When `is_descendant` says no, the climb from `dst` passes the root and not `src`. -/
theorem isDescendant_avoids {src : ℤ} : ∀ {fuel : ℕ} {dst : ℤ},
    isDescendantLoop l src fuel dst = some false → Avoids (up l) src dst ROOTFID ∧ src ≠ ROOTFID
  | 0, dst, h => by simp [isDescendantLoop] at h
  | fuel + 1, dst, h => by
    rw [isDescendantLoop] at h
    by_cases hc : src ≠ dst ∧ dst ≠ ROOTFID
    · rw [if_pos hc] at h
      rcases hl : lookup l dst ['.', '.'] with - | - | f
      · simp [hl] at h
      · simp [hl] at h
      · simp only [hl] at h
        obtain ⟨ha, hr⟩ := isDescendant_avoids h
        obtain ⟨d, hd, hf⟩ := lookup_some hl
        obtain ⟨hdm, hdd, hdn⟩ := getDentry_some hd
        obtain ⟨-, hfi⟩ := getFattr_some hf
        refine ⟨.head ⟨?_, Ne.symm hc.1⟩ ha, hr⟩
        rw [up, hfi, ← hdd, ← hdn]
        exact hdm
    · rw [if_neg hc] at h
      have hne : src ≠ dst := by simpa using h
      obtain rfl : dst = ROOTFID := by
        by_contra hd
        exact hc ⟨hne, hd⟩
      exact ⟨.refl, hne⟩

/-- A climb over the nodes of `S` takes at most as many steps as `S` has nodes. -/
theorem Hierarchy.loop_isSome (h : Hierarchy l) (src : ℤ) : ∀ (n : ℕ) (S : Finset ℤ) (dst : ℤ),
    S.card ≤ n → ReflTransGen (fun x p => up l x p ∧ x ∈ S) dst ROOTFID →
      (isDescendantLoop l src (n + 1) dst).isSome := by
  intro n
  induction n with
  | zero =>
    intro S dst hS hr
    obtain rfl : S = ∅ := by simpa using hS
    rcases hr.cases_head with rfl | ⟨p, hp, -⟩
    · simp [isDescendantLoop]
    · simp at hp
  | succ n ih =>
    intro S dst hS hr
    rw [isDescendantLoop]
    split_ifs with hc
    · rcases climb_erase (a := dst) hr with hav | ⟨p, ⟨hup, hmem⟩, hav⟩
      · rcases hav.cases_head with rfl | ⟨p, hp, -⟩
        · exact absurd rfl hc.2
        · exact absurd rfl hp.2
      · obtain ⟨f, hf, hfi⟩ := h.has_attr _ hup
        have hl : lookup l dst ['.', '.'] = some (some f) :=
          h.lookup_iff.mpr ⟨by rw [hfi]; exact hup, hf⟩
        rw [hl]
        refine ih (S.erase dst) f.id ?_ ?_
        · rw [Finset.card_erase_of_mem hmem]
          omega
        · rw [hfi]
          exact ReflTransGen.mono (fun u v hs => ⟨hs.1.1, Finset.mem_erase.mpr ⟨hs.2, hs.1.2⟩⟩) _ _ hav
    · simp

/-- **`is_descendant` terminates.** -/
theorem Hierarchy.is_descendant_isSome (h : Hierarchy l) (src : ℤ) {f : MetaFattr}
    (hf : .fattr f ∈ l) (ht : f.type = .dir) : (is_descendant l src f.id).isSome := by
  refine h.loop_isSome src l.length ((l.map Meta.key).map Key.kdata1).toFinset f.id ?_ ?_
  · refine (List.toFinset_card_le _).trans ?_
    simp
  · refine ReflTransGen.mono (fun u v hs => ⟨hs, ?_⟩) _ _ (h.climb f hf ht)
    rw [List.mem_toFinset, List.map_map]
    exact List.mem_map.mpr ⟨_, hs, rfl⟩

/-! ## The changes -/

namespace Hierarchy

/-- Ids that no attributes have are not used by any entry. -/
theorem ne_new (h : Hierarchy l) {id : ℤ} (hnew : ∀ g, .fattr g ∈ l → g.id ≠ id) {e : MetaDentry}
    (he : .dentry e ∈ l) : e.dir ≠ id ∧ e.id ≠ id := by
  obtain ⟨f, hf, hfi, -⟩ := h.in_dir e he
  obtain ⟨g, hg, hgi⟩ := h.has_attr e he
  exact ⟨hfi ▸ hnew f hf, hgi ▸ hnew g hg⟩

section

variable {f : MetaFattr} {d : MetaDentry}

/-- A new file. -/
theorem addFile (h : Hierarchy l) (hu : Uniq l') (hdir : ∃ g, .fattr g ∈ l ∧ g.id = d.dir ∧ g.type = .dir)
    (hname : ¬ isDot d.name) (hid : d.id = f.id) (ht : f.type = .file)
    (hnew : ∀ g, .fattr g ∈ l → g.id ≠ f.id)
    (hd : ∀ e, .dentry e ∈ l' ↔ e = d ∨ .dentry e ∈ l)
    (hf : ∀ g, .fattr g ∈ l' ↔ g = f ∨ .fattr g ∈ l) : Hierarchy l' where
  uniq := hu
  in_dir e he := by
    rcases (hd e).mp he with rfl | he
    · obtain ⟨g, hg, hgd⟩ := hdir
      exact ⟨g, (hf g).mpr (Or.inr hg), hgd⟩
    · obtain ⟨g, hg, hgd⟩ := h.in_dir e he
      exact ⟨g, (hf g).mpr (Or.inr hg), hgd⟩
  has_attr e he := by
    rcases (hd e).mp he with rfl | he
    · exact ⟨f, (hf f).mpr (Or.inl rfl), hid.symm⟩
    · obtain ⟨g, hg, hgi⟩ := h.has_attr e he
      exact ⟨g, (hf g).mpr (Or.inr hg), hgi⟩
  type g hg := by
    rcases (hf g).mp hg with rfl | hg
    · exact Or.inl ht
    · exact h.type g hg
  dot g hg htd := by
    rcases (hf g).mp hg with rfl | hg
    · rw [ht] at htd
      exact absurd htd (by decide)
    · exact (hd _).mpr (Or.inr (h.dot g hg htd))
  home g hg := by
    rcases (hf g).mp hg with rfl | hg
    · refine ⟨d, (hd d).mpr (Or.inl rfl), hname, hid, fun htd => ?_⟩
      rw [ht] at htd
      exact absurd htd (by decide)
    · obtain ⟨e, he, hen, hei, hup⟩ := h.home g hg
      exact ⟨e, (hd e).mpr (Or.inr he), hen, hei, fun htd => (hd _).mpr (Or.inr (hup htd))⟩
  home_eq e e' he he' hn hn' heq := by
    rcases (hd e).mp he with rfl | hm <;> rcases (hd e').mp he' with rfl | hm'
    · rfl
    · exact absurd (heq.symm.trans hid) (h.ne_new hnew hm').2
    · exact absurd (heq.trans hid) (h.ne_new hnew hm).2
    · exact h.home_eq e e' hm hm' hn hn' heq
  root := (hd _).mpr (Or.inr h.root)
  climb g hg htd := by
    rcases (hf g).mp hg with rfl | hg
    · rw [ht] at htd
      exact absurd htd (by decide)
    · exact ReflTransGen.mono (fun x p hxp => (hd _).mpr (Or.inr hxp)) _ _ (h.climb g hg htd)

/-- A new directory. -/
theorem addDir (h : Hierarchy l) (hu : Uniq l') (hdir : ∃ g, .fattr g ∈ l ∧ g.id = d.dir ∧ g.type = .dir)
    (hname : ¬ isDot d.name) (hid : d.id = f.id) (ht : f.type = .dir)
    (hnew : ∀ g, .fattr g ∈ l → g.id ≠ f.id)
    (hd : ∀ e, .dentry e ∈ l' ↔ e = ⟨f.id, ['.', '.'], d.dir⟩ ∨ e = ⟨f.id, ['.'], f.id⟩ ∨ e = d ∨
      .dentry e ∈ l)
    (hf : ∀ g, .fattr g ∈ l' ↔ g = f ∨ .fattr g ∈ l) : Hierarchy l' where
  uniq := hu
  in_dir e he := by
    rcases (hd e).mp he with rfl | rfl | rfl | he
    · exact ⟨f, (hf f).mpr (Or.inl rfl), rfl, ht⟩
    · exact ⟨f, (hf f).mpr (Or.inl rfl), rfl, ht⟩
    · obtain ⟨g, hg, hgd⟩ := hdir
      exact ⟨g, (hf g).mpr (Or.inr hg), hgd⟩
    · obtain ⟨g, hg, hgd⟩ := h.in_dir e he
      exact ⟨g, (hf g).mpr (Or.inr hg), hgd⟩
  has_attr e he := by
    rcases (hd e).mp he with rfl | rfl | rfl | he
    · obtain ⟨g, hg, hgd, -⟩ := hdir
      exact ⟨g, (hf g).mpr (Or.inr hg), hgd⟩
    · exact ⟨f, (hf f).mpr (Or.inl rfl), rfl⟩
    · exact ⟨f, (hf f).mpr (Or.inl rfl), hid.symm⟩
    · obtain ⟨g, hg, hgi⟩ := h.has_attr e he
      exact ⟨g, (hf g).mpr (Or.inr hg), hgi⟩
  type g hg := by
    rcases (hf g).mp hg with rfl | hg
    · exact Or.inr ht
    · exact h.type g hg
  dot g hg htd := by
    rcases (hf g).mp hg with rfl | hg
    · exact (hd _).mpr (Or.inr (Or.inl rfl))
    · exact (hd _).mpr (Or.inr (Or.inr (Or.inr (h.dot g hg htd))))
  home g hg := by
    rcases (hf g).mp hg with rfl | hg
    · exact ⟨d, (hd d).mpr (by simp), hname, hid, fun _ => (hd _).mpr (Or.inl rfl)⟩
    · obtain ⟨e, he, hen, hei, hup⟩ := h.home g hg
      exact ⟨e, (hd e).mpr (by simp [he]), hen, hei,
        fun htd => (hd _).mpr (Or.inr (Or.inr (Or.inr (hup htd))))⟩
  home_eq e e' he he' hn hn' heq := by
    rcases (hd e).mp he with rfl | rfl | rfl | hm <;>
      rcases (hd e').mp he' with rfl | rfl | rfl | hm'
    all_goals first
      | exact absurd (Or.inr rfl) hn
      | exact absurd (Or.inl rfl) hn
      | exact absurd (Or.inr rfl) hn'
      | exact absurd (Or.inl rfl) hn'
      | skip
    · rfl
    · exact absurd (heq.symm.trans hid) (h.ne_new hnew hm').2
    · exact absurd (heq.trans hid) (h.ne_new hnew hm).2
    · exact h.home_eq e e' hm hm' hn hn' heq
  root := (hd _).mpr (Or.inr (Or.inr (Or.inr h.root)))
  climb g hg htd := by
    have hmono : ∀ x p, up l x p → up l' x p :=
      fun x p hxp => (hd _).mpr (Or.inr (Or.inr (Or.inr hxp)))
    rcases (hf g).mp hg with rfl | hg
    · obtain ⟨g', hg', hgi, hgt⟩ := hdir
      refine .head ((hd _).mpr (Or.inl rfl)) ?_
      rw [← hgi]
      exact ReflTransGen.mono hmono _ _ (h.climb g' hg' hgt)
    · exact ReflTransGen.mono hmono _ _ (h.climb g hg htd)

/-- The end of a file. -/
theorem dropFile (h : Hierarchy l) (hu : Uniq l') (hdm : .dentry d ∈ l) (hfm : .fattr f ∈ l)
    (hid : d.id = f.id) (ht : f.type = .file)
    (hd : ∀ e, .dentry e ∈ l' ↔ .dentry e ∈ l ∧ e ≠ d)
    (hf : ∀ g, .fattr g ∈ l' ↔ .fattr g ∈ l ∧ g.id ≠ f.id) : Hierarchy l' := by
  have hdir : ∀ g, .fattr g ∈ l → g.type = .dir → g.id ≠ f.id := by
    intro g hg hgt he
    rw [h.uniq.eq_of_id hg hfm he, ht] at hgt
    exact absurd hgt (by decide)
  have hnd : ¬ isDot d.name := by
    intro hc
    obtain ⟨g, hg, hgi, hgt⟩ := h.dot_dir hdm hc
    exact hdir g hg hgt (hgi.trans hid)
  have hdot : ∀ e, .dentry e ∈ l → isDot e.name → .dentry e ∈ l' :=
    fun e he hn => (hd e).mpr ⟨he, fun hc => hnd (hc ▸ hn)⟩
  have hdirs : ∀ g, .fattr g ∈ l → g.type = .dir → .fattr g ∈ l' :=
    fun g hg hgt => (hf g).mpr ⟨hg, hdir g hg hgt⟩
  refine
    { uniq := hu
      in_dir := fun e he => ?_
      has_attr := fun e he => ?_
      type := fun g hg => h.type g ((hf g).mp hg).1
      dot := fun g hg htd => hdot _ (h.dot g ((hf g).mp hg).1 htd) (Or.inl rfl)
      home := fun g hg => ?_
      home_eq := fun e e' he he' => h.home_eq e e' ((hd e).mp he).1 ((hd e').mp he').1
      root := (hd _).mpr ⟨h.root, fun hc => ?_⟩
      climb := fun g hg htd => ReflTransGen.mono (fun x p hxp => hdot _ hxp (Or.inr rfl)) _ _
        (h.climb g ((hf g).mp hg).1 htd) }
  · obtain ⟨g, hg, hgd, hgt⟩ := h.in_dir e ((hd e).mp he).1
    exact ⟨g, hdirs g hg hgt, hgd, hgt⟩
  · obtain ⟨hem, hne⟩ := (hd e).mp he
    by_cases hn : isDot e.name
    · obtain ⟨g, hg, hgi, hgt⟩ := h.dot_dir hem hn
      exact ⟨g, hdirs g hg hgt, hgi⟩
    · obtain ⟨g, hg, hgi⟩ := h.has_attr e hem
      refine ⟨g, (hf g).mpr ⟨hg, fun hc => hne ?_⟩, hgi⟩
      exact h.home_eq e d hem hdm hn hnd (by rw [← hgi, hc, hid])
  · obtain ⟨hgm, hne⟩ := (hf g).mp hg
    obtain ⟨e, he, hen, hei, hup⟩ := h.home g hgm
    refine ⟨e, (hd e).mpr ⟨he, fun hc => hne ?_⟩, hen, hei, fun htd => hdot _ (hup htd) (Or.inr rfl)⟩
    rw [← hei, hc, hid]
  · obtain ⟨g, hg, hgi, hgt⟩ := h.root_dir
    exact hdir g hg hgt (by rw [hgi, ← hid, ← hc])

/-- The end of an empty directory. -/
theorem dropDir (h : Hierarchy l) (hu : Uniq l') (hdm : .dentry d ∈ l) (hnd : ¬ isDot d.name)
    (hid : d.id = f.id) (hempty : ∀ e, .dentry e ∈ l → e.dir = f.id → isDot e.name)
    (hd : ∀ e, .dentry e ∈ l' ↔ .dentry e ∈ l ∧ e.dir ≠ f.id ∧ e ≠ d)
    (hf : ∀ g, .fattr g ∈ l' ↔ .fattr g ∈ l ∧ g.id ≠ f.id) : Hierarchy l' := by
  -- nothing but the directory itself has it as its parent
  have hto : ∀ x, ¬ up l x f.id := by
    intro x hx
    obtain ⟨e, he, hen, -, hed⟩ := h.up_dir hx
    exact hen (hempty e he hed)
  have hdot : ∀ e, .dentry e ∈ l → isDot e.name → e.dir ≠ f.id → .dentry e ∈ l' :=
    fun e he hn hne => (hd e).mpr ⟨he, hne, fun hc => hnd (hc ▸ hn)⟩
  refine
    { uniq := hu
      in_dir := fun e he => ?_
      has_attr := fun e he => ?_
      type := fun g hg => h.type g ((hf g).mp hg).1
      dot := fun g hg htd => hdot _ (h.dot g ((hf g).mp hg).1 htd) (Or.inl rfl) ((hf g).mp hg).2
      home := fun g hg => ?_
      home_eq := fun e e' he he' => h.home_eq e e' ((hd e).mp he).1 ((hd e').mp he').1
      root := ?_
      climb := fun g hg htd => ?_ }
  · obtain ⟨hem, hne, -⟩ := (hd e).mp he
    obtain ⟨g, hg, hgd, hgt⟩ := h.in_dir e hem
    exact ⟨g, (hf g).mpr ⟨hg, hgd ▸ hne⟩, hgd, hgt⟩
  · obtain ⟨hem, hne, hned⟩ := (hd e).mp he
    obtain ⟨g, hg, hgi⟩ := h.has_attr e hem
    refine ⟨g, (hf g).mpr ⟨hg, fun hc => ?_⟩, hgi⟩
    have hei : e.id = f.id := by rw [← hgi, hc]
    by_cases hn : isDot e.name
    · obtain ⟨x, name, id⟩ := e
      rcases hn with rfl | rfl
      · exact hne ((h.dot_self hem).symm.trans hei)
      · exact hto x (hei ▸ hem)
    · exact hned (h.home_eq e d hem hdm hn hnd (by rw [hei, hid]))
  · obtain ⟨hgm, hne⟩ := (hf g).mp hg
    obtain ⟨e, he, hen, hei, hup⟩ := h.home g hgm
    refine ⟨e, (hd e).mpr ⟨he, fun hc => hen (hempty e he hc), fun hc => hne ?_⟩, hen, hei,
      fun htd => hdot _ (hup htd) (Or.inr rfl) hne⟩
    rw [← hei, hc, hid]
  · have hr : ROOTFID ≠ f.id := by
      intro hc
      exact absurd (hempty _ h.root hc) (by decide)
    refine (hd _).mpr ⟨h.root, hr, fun hc => hr ?_⟩
    rw [← hid, ← hc]
  · obtain ⟨hgm, hne⟩ := (hf g).mp hg
    exact climb_of_leaf (h.climb g hgm htd) hne (fun u hu => absurd hu (hto u))
      fun u v huv hne => hdot _ huv (Or.inr rfl) hne

/-- A file or directory gets another name, and a directory another parent that is not below it. -/
theorem move (h : Hierarchy l) (hu : Uniq l') {n : MetaDentry} (hdm : .dentry d ∈ l)
    (hnd : ¬ isDot d.name) (hfm : .fattr f ∈ l) (hid : d.id = f.id)
    (hdir : ∃ g, .fattr g ∈ l ∧ g.id = n.dir ∧ g.type = .dir) (hnew : ¬ isDot n.name)
    (hnid : n.id = d.id)
    (hav : f.type = .dir → Avoids (up l) f.id n.dir ROOTFID ∧ f.id ≠ ROOTFID)
    (hd : ∀ e, .dentry e ∈ l' ↔ e = n ∨ (f.type = .dir ∧ e = ⟨f.id, ['.', '.'], n.dir⟩) ∨
      (.dentry e ∈ l ∧ e ≠ d ∧ ¬ (f.type = .dir ∧ e.dir = f.id ∧ e.name = ['.', '.'])))
    (hf : ∀ g, .fattr g ∈ l' ↔ .fattr g ∈ l) : Hierarchy l' := by
  have hroot : f.id ≠ ROOTFID := by
    by_cases ht : f.type = .dir
    · exact (hav ht).2
    · obtain ⟨g, hg, hgi, hgt⟩ := h.root_dir
      intro hc
      rw [h.uniq.eq_of_id hfm hg (hc.trans hgi.symm)] at ht
      exact ht hgt
  have hdot : ∀ e, .dentry e ∈ l → isDot e.name → ¬ (e.dir = f.id ∧ e.name = ['.', '.']) →
      .dentry e ∈ l' :=
    fun e he hn hne => (hd e).mpr (Or.inr (Or.inr ⟨he, fun hc => hnd (hc ▸ hn), fun hc => hne hc.2⟩))
  have hup : ∀ x p, up l x p → x ≠ f.id → up l' x p :=
    fun x p hxp hne => hdot _ hxp (Or.inr rfl) fun hc => hne hc.1
  refine
    { uniq := hu
      in_dir := fun e he => ?_
      has_attr := fun e he => ?_
      type := fun g hg => h.type g ((hf g).mp hg)
      dot := fun g hg htd => hdot _ (h.dot g ((hf g).mp hg) htd) (Or.inl rfl)
        fun hc => absurd hc.2 (show ¬ ['.'] = ['.', '.'] by decide)
      home := fun g hg => ?_
      home_eq := fun e e' he he' hn hn' heq => ?_
      root := (hd _).mpr (Or.inr (Or.inr ⟨h.root, fun hc => hroot ?_, fun hc => absurd hc.2.2 (by decide)⟩))
      climb := fun g hg htd => ?_ }
  · rcases (hd e).mp he with rfl | ⟨htd, rfl⟩ | ⟨hem, -⟩
    · obtain ⟨g, hg, hgd⟩ := hdir
      exact ⟨g, (hf g).mpr hg, hgd⟩
    · exact ⟨f, (hf f).mpr hfm, rfl, htd⟩
    · obtain ⟨g, hg, hgd⟩ := h.in_dir e hem
      exact ⟨g, (hf g).mpr hg, hgd⟩
  · rcases (hd e).mp he with rfl | ⟨-, rfl⟩ | ⟨hem, -⟩
    · exact ⟨f, (hf f).mpr hfm, by rw [hnid, hid]⟩
    · obtain ⟨g, hg, hgd, -⟩ := hdir
      exact ⟨g, (hf g).mpr hg, hgd⟩
    · obtain ⟨g, hg, hgi⟩ := h.has_attr e hem
      exact ⟨g, (hf g).mpr hg, hgi⟩
  · have hgm := (hf g).mp hg
    by_cases hgf : g.id = f.id
    · obtain rfl := h.uniq.eq_of_id hgm hfm hgf
      exact ⟨n, (hd n).mpr (Or.inl rfl), hnew, by rw [hnid, hid],
        fun htd => (hd _).mpr (Or.inr (Or.inl ⟨htd, rfl⟩))⟩
    · obtain ⟨e, he, hen, hei, hgu⟩ := h.home g hgm
      refine ⟨e, (hd e).mpr (Or.inr (Or.inr ⟨he, fun hc => hgf ?_, fun hc => hen (Or.inr hc.2.2)⟩)),
        hen, hei, fun htd => hup _ _ (hgu htd) hgf⟩
      rw [← hei, hc, hid]
  · rcases (hd e).mp he with rfl | ⟨-, rfl⟩ | ⟨hem, hne, -⟩
    · rcases (hd e').mp he' with rfl | ⟨-, rfl⟩ | ⟨hem', hne', -⟩
      · rfl
      · exact absurd (Or.inr rfl) hn'
      · exact absurd (h.home_eq e' d hem' hdm hn' hnd (by rw [← heq, hnid])) hne'
    · exact absurd (Or.inr rfl) hn
    · rcases (hd e').mp he' with rfl | ⟨-, rfl⟩ | ⟨hem', hne', -⟩
      · exact absurd (h.home_eq e d hem hdm hn hnd (by rw [heq, hnid])) hne
      · exact absurd (Or.inr rfl) hn'
      · exact h.home_eq e e' hem hem' hn hn' heq
  · rw [← hid, ← hc]
  · have hgm := (hf g).mp hg
    by_cases ht : f.type = .dir
    · exact (hav ht).1.reparent ((hd _).mpr (Or.inr (Or.inl ⟨ht, rfl⟩))) hup (h.climb g hgm htd)
    · refine ReflTransGen.mono (fun x p hxp => ?_) _ _ (h.climb g hgm htd)
      refine (hd _).mpr (Or.inr (Or.inr ⟨hxp, fun hc => hnd ?_, fun hc => ht hc.1⟩))
      exact hc ▸ Or.inr rfl

end

end Hierarchy

end Kfs
