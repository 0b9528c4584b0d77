import Kfs.Replay.Redo
import Kfs.Fs.ChunkTable
import Kfs.Fs.Keep

/-!
# Looking up and renaming again

The lookups of a path and of the ancestors of a directory go through several places; when all of them are
shown, they find the same.

* `pathPlaces`, `lookupPath_shown`, `renameTarget_shown`;
* `climbPlaces`, `isDescendantLoop_shown`;
* `RenamePlan.Checked.twin`: a renaming passes its checks again.
-/

namespace Kfs

variable {rep : Bool} {O H : Finset ℤ} {l l' : List Meta} {env env' : Env} {dir fid : ℤ} {name : Str}

/-- The places that `lookupComponents` looks at. -/
def componentPlaces (l : List Meta) : ℤ → List Str → List (ℤ × Str)
  | _, [] => []
  | dir, [c] => [(dir, c)]
  | dir, c :: cs =>
    (dir, c) ::
      match lookup l dir c with
      | some (some fa) => componentPlaces l fa.id cs
      | _ => []

/-- The places that `lookupPath` looks at. -/
def pathPlaces (l : List Meta) (rootdir : ℤ) (path : Str) : List (ℤ × Str) :=
  let isabs := decide (path.head? = some '/')
  let dir := if rootdir = 0 ∨ isabs then ROOTFID else rootdir
  let rest := if isabs then path.tail else path
  if rest = [] then [(dir, ['/'])] else componentPlaces l dir (rest.splitOn '/')

theorem lookupComponents_shown (h : Twin rep O H l l') {fa : MetaFattr} : ∀ {cs : List Str} {dir : ℤ},
    (∀ q ∈ componentPlaces l dir cs, Shown O H l l' q.1 q.2) → lookupComponents l dir cs = some (some fa) →
    fa.id ∉ H ∧ ∃ fa', lookupComponents l' dir cs = some (some fa') ∧ fa'.core rep = fa.core rep
  | [], dir, _, hl => by simp [lookupComponents] at hl
  | [c], dir, hs, hl => lookup_shown h (hs (dir, c) (by simp [componentPlaces])) hl
  | c :: c' :: cs, dir, hs, hl => by
    rw [lookupComponents] at hl
    · rcases hc : lookup l dir c with - | - | f
      · simp [hc] at hl
      · simp [hc] at hl
      · have hpl : componentPlaces l dir (c :: c' :: cs) = (dir, c) :: componentPlaces l f.id (c' :: cs) := by
          rw [componentPlaces]
          · rw [hc]
          · simp
        rw [hpl] at hs
        simp only [hc] at hl
        obtain ⟨-, f', hf', he⟩ := lookup_shown h (hs (dir, c) List.mem_cons_self) hc
        obtain ⟨hH, fa', hl', hcore⟩ := lookupComponents_shown h
          (fun q hq => hs q (List.mem_cons_of_mem _ hq)) hl
        refine ⟨hH, fa', ?_, hcore⟩
        rw [lookupComponents]
        · simp only [hf', (core_fields he).1]
          exact hl'
        · simp
    · simp

theorem lookupPath_shown (h : Twin rep O H l l') {path : Str} {fa : MetaFattr}
    (hs : ∀ q ∈ pathPlaces l dir path, Shown O H l l' q.1 q.2)
    (hl : lookupPath l dir path = some (some fa)) :
    fa.id ∉ H ∧ ∃ fa', lookupPath l' dir path = some (some fa') ∧ fa'.core rep = fa.core rep := by
  unfold lookupPath at hl ⊢
  unfold pathPlaces at hs
  dsimp only at hl hs ⊢
  split_ifs at hl hs ⊢
  all_goals first
    | exact lookup_shown h (hs _ List.mem_cons_self) hl
    | exact lookupComponents_shown h hs hl

/-- The places that the destination of a renaming is looked up at. -/
def targetPlaces (l : List Meta) (parent : ℤ) (newname : Str) : List (ℤ × Str) :=
  if newname.contains '/' then pathPlaces l parent (splitPath newname).1 else []

theorem renameTarget_shown (h : Twin rep O H l l') {parent ddir : ℤ} {newname dname : Str}
    (hs : ∀ q ∈ targetPlaces l parent newname, Shown O H l l' q.1 q.2)
    (ht : renameTarget l parent newname = some (.ok (ddir, dname))) :
    renameTarget l' parent newname = some (.ok (ddir, dname)) := by
  unfold renameTarget at ht ⊢
  unfold targetPlaces at hs
  split_ifs at ht hs ⊢
  · rcases hl : lookupPath l parent (splitPath newname).1 with - | - | f
    · simp [hl] at ht
    · simp [hl] at ht
    · obtain ⟨-, f', hf', he⟩ := lookupPath_shown h hs hl
      obtain ⟨hid, hty, -⟩ := core_fields he
      simp only [hl] at ht
      simp only [hf', hid, hty]
      exact ht
  · exact ht

/-- The places that `is_descendant` looks at. -/
def climbPlaces (l : List Meta) (src : ℤ) : ℕ → ℤ → List (ℤ × Str)
  | 0, _ => []
  | fuel + 1, dst =>
    if src ≠ dst ∧ dst ≠ ROOTFID then
      (dst, ['.', '.']) ::
        match lookup l dst ['.', '.'] with
        | some (some dotdot) => climbPlaces l src fuel dotdot.id
        | _ => []
    else []

theorem isDescendantLoop_shown (h : Twin rep O H l l') {src : ℤ} {b : Bool} : ∀ {fuel : ℕ} {dst : ℤ},
    (∀ q ∈ climbPlaces l src fuel dst, Shown O H l l' q.1 q.2) →
    isDescendantLoop l src fuel dst = some b → isDescendantLoop l' src fuel dst = some b
  | 0, dst, _, hl => by simp [isDescendantLoop] at hl
  | fuel + 1, dst, hs, hl => by
    rw [isDescendantLoop] at hl ⊢
    rw [climbPlaces] at hs
    split_ifs at hl hs ⊢
    · rcases hd : lookup l dst ['.', '.'] with - | - | f
      · simp [hd] at hl
      · simp [hd] at hl
      · simp only [hd] at hl hs
        obtain ⟨-, f', hf', he⟩ := lookup_shown h (hs _ List.mem_cons_self) hd
        simp only [hf', (core_fields he).1]
        exact isDescendantLoop_shown h (fun q hq => hs q (List.mem_cons_of_mem _ hq)) hl
    · exact hl

/-! ## Renaming -/

variable {parent : ℤ} {oldname newname : Str} {overwrite : Bool} {p : RenamePlan}

/-- **A renaming passes its checks again.** -/
theorem RenamePlan.Checked.twin (h : Twin rep O H l l') (hp : p.Checked l parent oldname newname overwrite)
    (hs : Shown O H l l' parent oldname) (ht : renameTarget l' parent newname = some (.ok (p.ddir, p.dname)))
    (hd : Shown O H l l' p.ddir p.dname)
    (hem : ∀ d, p.sfattr.type = .dir → lookup l p.ddir p.dname = some (some d) →
      emptydir l' d.id = emptydir l d.id)
    (hloop : p.sfattr.type = .dir → is_descendant l' p.sfattr.id p.ddir = some false) :
    ∃ p' : RenamePlan, p'.Checked l' parent oldname newname true ∧ p'.src = p.src ∧ p'.ddir = p.ddir ∧
      p'.dname = p.dname ∧ p'.dexists = p.dexists ∧ p'.sfattr.core rep = p.sfattr.core rep := by
  obtain ⟨-, sf', hsf', hcore⟩ := lookup_shown h hs hp.found
  obtain ⟨hid, hty, -⟩ := core_fields hcore
  obtain ⟨df, hdf, hex, hdst⟩ := hp.dst
  refine ⟨⟨p.src, sf', p.ddir, p.dname, p.dexists⟩,
    ⟨hs.eq.trans hp.src, ht, hp.legal, hp.ne, hsf', ?_, ?_⟩, rfl, rfl, rfl, rfl, hcore⟩
  · rcases df with - | d
    · exact ⟨none, lookup_shown_none hd hdf, hex, fun d hd => by simp at hd⟩
    · obtain ⟨-, d', hd', hdc⟩ := lookup_shown h hd hdf
      obtain ⟨hdid, hdty, -⟩ := core_fields hdc
      refine ⟨some d', hd', hex, fun e he => ?_⟩
      obtain rfl := Option.some.inj he
      obtain ⟨-, hte, hemp⟩ := hdst d rfl
      refine ⟨rfl, by rw [hdty, hte]; exact hty.symm, fun hdir => ?_⟩
      rw [hdid, hem d (hty ▸ hdir) hdf]
      exact hemp (hty ▸ hdir)
  · intro hdir
    rw [hid]
    exact hloop (hty ▸ hdir)

theorem dents_length_delOk {d : MetaDentry} (h : Leaves.delOk l (.dentry d) = some l') :
    (dents l d.dir).length = (dents l' d.dir).length + 1 := by
  obtain ⟨x, hx, hh, hperm⟩ := delOk_perm h
  rw [Leaves.hits, Bool.and_eq_true] at hh
  cases x with
  | dentry e =>
    have hk := hh.1
    rw [Key.eqv_comm] at hk
    obtain ⟨e', he', hdir⟩ := (eqv_dentry (.dentry e) d.dir).mp hk
    obtain rfl := Meta.dentry.inj he'
    have hp := (hperm.filterMap Meta.dentry?).filter fun x => decide (x.dir = d.dir)
    have hcons : ((Meta.dentry e :: l').filterMap Meta.dentry?).filter (fun x => decide (x.dir = d.dir)) =
        e :: dents l' d.dir := by
      simp [dents, dentries, Meta.dentry?, hdir]
    rw [hcons] at hp
    exact hp.length_eq
  | fattr f => exact absurd hh.2 (by simp [Meta.matchItem])
  | chunkinfo c => exact absurd hh.2 (by simp [Meta.matchItem])

/-- The entries of a directory that `rmdir` has removed are gone. -/
theorem RmdirDone.no_dents {fs : Fs} {dname : Str} {fa : MetaFattr}
    (h : RmdirDone fs dir dname fa l') : dents l' fa.id = [] := by
  obtain ⟨-, -, -, -, he, l₁, l₂, l₃, h₁, h₂, h₃, h₄⟩ := h
  have htwo : (dents fs.leaves fa.id).length = 2 := by
    unfold emptydir at he
    rw [readdir_eq] at he
    split_ifs at he with hn h2
    · simp at he
    · simpa using he
    · simp at he
  have hlen₁ : (dents fs.leaves fa.id).length = (dents l₁ fa.id).length + 1 := dents_length_delOk h₁
  have hlen₂ : (dents l₁ fa.id).length = (dents l₂ fa.id).length + 1 := dents_length_delOk h₂
  have hnil : dents l₂ fa.id = [] := List.length_eq_zero_iff.mp (by omega)
  have hsub : l' ⊆ l₂ := fun x hx => Leaves.delOk_subset h₃ (Leaves.delOk_subset h₄ hx)
  refine List.eq_nil_iff_forall_not_mem.mpr fun d hd => ?_
  have hd₂ : d ∈ dents l₂ fa.id := mem_dents.mpr ⟨hsub (mem_dents.mp hd).1, (mem_dents.mp hd).2⟩
  rw [hnil] at hd₂
  exact absurd hd₂ List.not_mem_nil

theorem RmdirDone.fattr_mem {fs : Fs} {dname : Str} {fa f : MetaFattr} (h : RmdirDone fs dir dname fa l')
    (hf : .fattr f ∈ fs.leaves) (hne : f.id ≠ fa.id) : .fattr f ∈ l' := by
  obtain ⟨-, -, -, -, -, l₁, l₂, l₃, h₁, h₂, h₃, h₄⟩ := h
  have hmiss : ∀ d : MetaDentry, Leaves.hits (.dentry d) (.fattr f) = false := fun d => by
    simp [Leaves.hits, Meta.matchItem]
  have hmiss' : Leaves.hits (.fattr fa) (.fattr f) = false := by
    simp [Leaves.hits, Meta.matchItem, Meta.id, hne.symm]
  rwa [mem_delOk_of_miss h₄ hmiss', mem_delOk_of_miss h₃ (hmiss _), mem_delOk_of_miss h₂ (hmiss _),
    mem_delOk_of_miss h₁ (hmiss _)]

/-- The target of the renaming of a directory is cleared again. -/
theorem clearDir_twin (rm' : Fs → ℤ → Str → Option (ℤ × Fs)) {L L₁ R : Fs}
    {rm : Fs → ℤ → Str → Option (ℤ × Fs)} {p' : RenamePlan} {l₁ : List Meta}
    (h : Twin rep O H L.leaves R.leaves) (hp : p.Checked L.leaves parent oldname newname overwrite)
    (hp' : p'.Checked R.leaves parent oldname newname true)
    (hddir : p'.ddir = p.ddir) (hdname : p'.dname = p.dname) (hex : p'.dexists = p.dexists)
    (hcore : p'.sfattr.core rep = p.sfattr.core rep) (hdir : p.sfattr.type = .dir)
    (hs : Shown O H L.leaves R.leaves p.ddir p.dname)
    (hc : ∀ d, lookup L.leaves p.ddir p.dname = some (some d) →
      emptydir R.leaves d.id = emptydir L.leaves d.id ∧ ∀ n, n = ['.'] ∨ n = ['.', '.'] →
        Clear O H L.leaves d.id n ∧ Clear O H R.leaves d.id n)
    (hcl : clearTarget rm L p = some (0, L₁)) (hr : relink env L₁.leaves p = some l₁) :
    ∃ l', clearTarget rm' R p' = some (0, { R with leaves := l' }) ∧ Twin rep O H L₁.leaves l' ∧
      .fattr p'.sfattr ∈ l' ∧ l' ⊆ R.leaves ∧ L₁.leaves ⊆ L.leaves ∧ L₁ = { L with leaves := L₁.leaves } := by
  obtain ⟨hid, hty, -⟩ := core_fields hcore
  have hmem : .fattr p'.sfattr ∈ R.leaves := lookup_mem hp'.found
  unfold clearTarget at hcl ⊢
  rw [hex, hty, if_pos hdir, hddir, hdname]
  rw [if_pos hdir] at hcl
  by_cases hdx : p.dexists = true
  · rw [if_pos hdx] at hcl ⊢
    rcases rmdir_spec hcl with ⟨h0, -⟩ | ⟨-, fa, l₀, hrd, rfl⟩
    · exact absurd h0 (lt_irrefl _)
    obtain ⟨hem, hcc⟩ := hc fa hrd.found
    obtain ⟨l', fa', hrd', hcore', ht⟩ := rmdir_twin h hs hcc hem hrd
    refine ⟨l', hrd'.run, ht, hrd'.fattr_mem hmem ?_, hrd'.subset, hrd.subset, rfl⟩
    rw [(core_fields hcore').1, hid]
    intro he
    -- the removed directory has no entries left, but the source still has one
    obtain ⟨d, hd, hf⟩ := lookup_some hp.found
    obtain rfl : p.src = d := by
      have := hp.src.symm.trans hd
      simpa using this
    have hsid : p.src.id = fa.id := by rw [← (getFattr_some hf).2, he]
    obtain ⟨-, hr⟩ := relink_spec hr
    rw [if_pos hdir] at hr
    obtain ⟨-, l₂, l₃, h₁, -⟩ := hr
    have hlen : (dents l₀ p.src.id).length = (dents l₂ p.src.id).length + 1 := dents_length_delOk h₁
    rw [hsid, hrd.no_dents] at hlen
    simp at hlen
  · rw [if_neg hdx] at hcl ⊢
    obtain ⟨-, rfl⟩ : (0 : ℤ) = 0 ∧ L = L₁ := by simpa using hcl
    exact ⟨R.leaves, rfl, h, hmem, fun _ hx => hx, fun _ hx => hx, rfl⟩

end Kfs
