import Kfs.Fs.Truncate
import Kfs.Replay.LeaseFree
import Kfs.Server.Intact

/-!
# Trees with the same items

The entries of a directory have one key, and a checkpoint brings them back in another order. The handlers of `replay.cc`
do the same to both trees.

* `Alike`: the same items, up to their cores, in any order; `Resembles`: with the same seeds;
* `Alike.lookup`, `Alike.getalloc`, …: reading; `Alike.insert`, `Alike.delOk`, `Alike.update`: updates of both;
* `mkdir_alike`, `removeF_alike`, `rename_alike`, …: the operations;
* **`redo_alike`**: a record that is accepted on one side is accepted on the other, and the trees stay alike.
-/

namespace Kfs

variable {env env' : Env} {l l' l₁ : List Meta} {m m' : Meta} {dir fid : ℤ} {name : Str} {R R' R₁ : Fs}

/-- The same items, up to the times, the size and the number of replicas. -/
structure Alike (l l' : List Meta) : Prop where
  perm : List.Perm (l.map (Meta.core false)) (l'.map (Meta.core false))
  ord : Ordered (l.map Meta.key)
  ord' : Ordered (l'.map Meta.key)

structure Resembles (R R' : Fs) : Prop where
  leaves : Alike R.leaves R'.leaves
  fileID : R'.fileID = R.fileID
  chunkID : R'.chunkID = R.chunkID
  chunkVersionInc : R'.chunkVersionInc = R.chunkVersionInc

@[simp] theorem Meta.core_slot (rep : Bool) (m : Meta) : (m.core rep).slot = m.slot := by cases m <;> rfl

/-- Lists with the same elements find the same one, when only one can be found. -/
theorem find?_eq_of_perm {α : Type} {p : α → Bool} {l l' : List α} (h : List.Perm l l')
    (hone : ∀ a ∈ l, ∀ b ∈ l, p a = true → p b = true → a = b) : l'.find? p = l.find? p := by
  cases hl : l.find? p with
  | none =>
    rw [List.find?_eq_none] at hl ⊢
    exact fun a ha => hl a (h.mem_iff.2 ha)
  | some a =>
    have hmem := List.mem_of_find?_eq_some hl
    have hp := List.find?_some hl
    cases hl' : l'.find? p with
    | none => exact absurd hp (List.find?_eq_none.1 hl' a (h.mem_iff.1 hmem))
    | some b =>
      exact congrArg some (hone b (h.mem_iff.2 (List.mem_of_find?_eq_some hl')) a hmem (List.find?_some hl') hp)

namespace Alike

theorem symm (h : Alike l l') : Alike l' l := ⟨h.perm.symm, h.ord', h.ord⟩

theorem trans {l'' : List Meta} (h : Alike l l') (h' : Alike l' l'') : Alike l l'' :=
  ⟨h.perm.trans h'.perm, h.ord, h'.ord'⟩

theorem uniq (h : Alike l l') (hu : Uniq l) : Uniq l' := by
  have hslot : ∀ l : List Meta, (l.map (Meta.core false)).map Meta.slot = l.map Meta.slot := fun l => by
    rw [List.map_map]
    exact List.map_congr_left fun m _ => Meta.core_slot false m
  refine ⟨?_, fun x hx => h.ord'.2 _ (List.mem_map_of_mem hx)⟩
  have hp := h.perm.map Meta.slot
  rw [hslot, hslot] at hp
  exact hp.nodup_iff.1 hu.nodup

theorem item (h : Alike l l') (hm : m ∈ l) : ∃ m' ∈ l', m'.core false = m.core false :=
  List.mem_map.1 (h.perm.subset (List.mem_map_of_mem hm))

theorem dentry (h : Alike l l') {d : MetaDentry} (hd : .dentry d ∈ l) : .dentry d ∈ l' := by
  obtain ⟨x, hx, he⟩ := h.item hd
  cases x with
  | dentry e =>
    obtain rfl := Meta.dentry.inj he
    exact hx
  | fattr f => cases he
  | chunkinfo c => cases he

theorem fattr (h : Alike l l') {f : MetaFattr} (hf : .fattr f ∈ l) :
    ∃ f', .fattr f' ∈ l' ∧ f'.core false = f.core false := by
  obtain ⟨x, hx, he⟩ := h.item hf
  cases x with
  | dentry e => cases he
  | fattr f' => exact ⟨f', hx, Meta.fattr.inj he⟩
  | chunkinfo c => cases he

theorem length (h : Alike l l') : l'.length = l.length := by
  have hlen := h.perm.length_eq
  rwa [List.length_map, List.length_map, eq_comm] at hlen

theorem dents (h : Alike l l') (dir : ℤ) : List.Perm (dents l dir) (Kfs.dents l' dir) := by
  have hp := (h.perm.filterMap Meta.dentry?).filter fun d => decide (d.dir = dir)
  change List.Perm ((Kfs.dentries (l.map (Meta.core false))).filter _)
    ((Kfs.dentries (l'.map (Meta.core false))).filter _) at hp
  rwa [dentries_core, dentries_core] at hp

theorem chunks (h : Alike l l') : List.Perm (chunks l) (Kfs.chunks l') := by
  have hp := h.perm.filterMap Meta.chunkinfo?
  change List.Perm (Kfs.chunks (l.map (Meta.core false))) (Kfs.chunks (l'.map (Meta.core false))) at hp
  rwa [chunks_core, chunks_core] at hp

/-! ## Reading -/

theorem getDentry (h : Alike l l') (hu : Uniq l) (dir : ℤ) (name : Str) :
    Kfs.getDentry l' dir name = Kfs.getDentry l dir name := by
  have hp := h.dents dir
  have hfind : (Kfs.dents l' dir).find? (fun d => decide (d.name = name)) =
      (Kfs.dents l dir).find? fun d => decide (d.name = name) := by
    refine find?_eq_of_perm hp fun a ha b hb hna hnb => ?_
    rw [mem_dents] at ha hb
    exact hu.eq_of_name ha.1 hb.1 (ha.2.trans hb.2.symm) ((of_decide_eq_true hna).trans (of_decide_eq_true hnb).symm)
  have hnil : Kfs.dents l' dir = [] ↔ Kfs.dents l dir = [] := by
    rw [← List.length_eq_zero_iff, ← List.length_eq_zero_iff, hp.length_eq]
  rw [Kfs.getDentry, Kfs.getDentry, readdir_eq, readdir_eq, if_congr hnil rfl rfl, ← hp.length_eq]
  split_ifs
  · rfl
  · exact congrArg some hfind
  · rfl

theorem getFattr (h : Alike l l') (hu : Uniq l) {f : MetaFattr} (hf : Kfs.getFattr l fid = some f) :
    ∃ f', Kfs.getFattr l' fid = some f' ∧ f'.core false = f.core false := by
  obtain ⟨hmem, hid⟩ := getFattr_some hf
  obtain ⟨f', hmem', he⟩ := h.fattr hmem
  exact ⟨f', (h.uniq hu).getFattr_iff.2 ⟨hmem', (core_fields he).1.trans hid⟩, he⟩

theorem getFattr_none (h : Alike l l') (hf : Kfs.getFattr l fid = none) : Kfs.getFattr l' fid = none := by
  rw [getFattr_eq, List.find?_eq_none]
  intro f hmem hid
  obtain ⟨f', hmem', he⟩ := h.symm.fattr (mem_fattrs.1 hmem)
  exact Kfs.getFattr_none hf f' hmem' ((core_fields he).1.trans (of_decide_eq_true hid))

theorem lookup_some (h : Alike l l') (hu : Uniq l) {f : MetaFattr} (hl : lookup l dir name = some (some f)) :
    ∃ f', lookup l' dir name = some (some f') ∧ f'.core false = f.core false := by
  obtain ⟨d, hd, hf⟩ := Kfs.lookup_some hl
  obtain ⟨f', hf', he⟩ := h.getFattr hu hf
  exact ⟨f', lookup_eq ((h.getDentry hu dir name).trans hd) hf', he⟩

theorem lookup_none (h : Alike l l') (hu : Uniq l) (hl : lookup l dir name = some none) :
    lookup l' dir name = some none :=
  lookup_eq_none ((h.getDentry hu dir name).trans (Kfs.lookup_none hl))

theorem emptydir (h : Alike l l') (dir : ℤ) : emptydir l' dir = Kfs.emptydir l dir := by
  have hp := h.dents dir
  have hnil : Kfs.dents l' dir = [] ↔ Kfs.dents l dir = [] := by
    rw [← List.length_eq_zero_iff, ← List.length_eq_zero_iff, hp.length_eq]
  rw [Kfs.emptydir, Kfs.emptydir, readdir_eq, readdir_eq, if_congr hnil rfl rfl, ← hp.length_eq]
  split_ifs
  · rfl
  · exact congrArg some (decide_eq_decide.2 (by rw [Option.getD_some, Option.getD_some, hp.length_eq]))
  · rfl

/-- The chunks of a file are in the order of their offsets. -/
theorem getalloc (h : Alike l l') (hu : Uniq l) (fid : ℤ) : getalloc l' fid = Kfs.getalloc l fid := by
  have hp : List.Perm (Kfs.getalloc l' fid) (Kfs.getalloc l fid) := by
    rw [getalloc_eq, getalloc_eq]
    exact h.chunks.symm.filter _
  refine hp.eq_of_pairwise ?_ (getalloc_sorted h.ord' fid) (getalloc_sorted h.ord fid)
  intro c d hc hd hcd hdc
  have hc' := hp.subset hc
  rw [getalloc_eq, List.mem_filter, mem_chunks] at hc' hd
  have hid : c.id = d.id := (of_decide_eq_true hc'.2).trans (of_decide_eq_true hd.2).symm
  exact Meta.chunkinfo.inj (hu.eq_of_slot hc'.1 hd.1 (by rw [Meta.slot, Meta.slot, hid, le_antisymm hcd hdc]))

theorem getChunk (h : Alike l l') (hu : Uniq l) {b : ℤ} (hb : b ≠ -1) : getChunk l' fid b = Kfs.getChunk l fid b := by
  rw [getChunk_eq, getChunk_eq]
  refine find?_eq_of_perm h.chunks fun c hc d hd hpc hpd => ?_
  rw [mem_chunks] at hc hd
  have hoff : ∀ c : MetaChunkInfo, .chunkinfo c ∈ l → c.id = fid ∧ (c.offset = b ∨ c.offset = -1 ∨ b = -1) →
      c.id = fid ∧ c.offset = b := by
    rintro c hc ⟨hid, hb' | hn | hn⟩
    · exact ⟨hid, hb'⟩
    · exact absurd hn (hu.plain _ hc)
    · exact absurd hn hb
  obtain ⟨hid, hc'⟩ := hoff c hc (of_decide_eq_true hpc)
  obtain ⟨hid', hd'⟩ := hoff d hd (of_decide_eq_true hpd)
  exact Meta.chunkinfo.inj (hu.eq_of_slot hc hd (by rw [Meta.slot, Meta.slot, hid, hid', hc', hd']))

theorem lookupComponents (h : Alike l l') (hu : Uniq l) : ∀ {cs : List Str} {dir : ℤ} {x : Option MetaFattr},
    lookupComponents l dir cs = some x →
    ∃ x', Kfs.lookupComponents l' dir cs = some x' ∧ x'.map (MetaFattr.core false) = x.map (MetaFattr.core false)
  | [], _, x, hl => ⟨x, hl, rfl⟩
  | [c], dir, none, hl => ⟨none, h.lookup_none hu hl, rfl⟩
  | [c], dir, some f, hl => by
    obtain ⟨f', hf', he⟩ := h.lookup_some hu hl
    exact ⟨some f', hf', congrArg some he⟩
  | c :: c' :: cs, dir, x, hl => by
    rw [Kfs.lookupComponents.eq_3 _ _ _ _ (by simp)] at hl ⊢
    cases hc : lookup l dir c with
    | none =>
      rw [hc] at hl
      cases hl
    | some fa =>
      rw [hc] at hl
      cases fa with
      | none =>
        rw [h.lookup_none hu hc]
        exact ⟨x, hl, rfl⟩
      | some f =>
        obtain ⟨f', hf', he⟩ := h.lookup_some hu hc
        rw [hf']
        dsimp only at hl ⊢
        rw [(core_fields he).1]
        exact lookupComponents h hu hl

theorem lookupPath (h : Alike l l') (hu : Uniq l) {path : Str} {x : Option MetaFattr}
    (hl : lookupPath l dir path = some x) :
    ∃ x', Kfs.lookupPath l' dir path = some x' ∧ x'.map (MetaFattr.core false) = x.map (MetaFattr.core false) := by
  have hone : ∀ {dir : ℤ} {c : Str} {x}, lookup l dir c = some x → ∃ x', lookup l' dir c = some x' ∧
      x'.map (MetaFattr.core false) = x.map (MetaFattr.core false) := fun {dir c x} hl =>
    h.lookupComponents hu (x := x) (show Kfs.lookupComponents l dir [c] = some x from hl)
  rw [Kfs.lookupPath] at hl ⊢
  split_ifs at hl ⊢
  all_goals first
    | exact hone hl
    | exact h.lookupComponents hu hl

theorem renameTarget (h : Alike l l') (hu : Uniq l) {newname : Str} {x : Except ℤ (ℤ × Str)}
    (ht : renameTarget l dir newname = some x) : Kfs.renameTarget l' dir newname = some x := by
  rw [Kfs.renameTarget] at ht ⊢
  split_ifs at ht ⊢
  · cases hl : Kfs.lookupPath l dir (splitPath newname).1 with
    | none =>
      rw [hl] at ht
      cases ht
    | some fa =>
      obtain ⟨fa', hl', he⟩ := h.lookupPath hu hl
      rw [hl] at ht
      rw [hl']
      cases fa with
      | none =>
        cases fa' with
        | none => exact ht
        | some f' => cases he
      | some f =>
        cases fa' with
        | none => cases he
        | some f' =>
          obtain ⟨hid, hty, -⟩ := core_fields (Option.some.inj he)
          dsimp only at ht ⊢
          rw [hid, hty]
          exact ht
  · exact ht

theorem isDescendantLoop (h : Alike l l') (hu : Uniq l) {src : ℤ} {b : Bool} : ∀ {fuel : ℕ} {dst : ℤ},
    isDescendantLoop l src fuel dst = some b → Kfs.isDescendantLoop l' src fuel dst = some b
  | 0, _, hl => hl
  | fuel + 1, dst, hl => by
    rw [Kfs.isDescendantLoop] at hl ⊢
    split_ifs at hl ⊢
    · cases hd : lookup l dst ['.', '.'] with
      | none =>
        rw [hd] at hl
        cases hl
      | some fa =>
        rw [hd] at hl
        cases fa with
        | none => cases hl
        | some f =>
          obtain ⟨f', hf', he⟩ := h.lookup_some hu hd
          rw [hf']
          dsimp only at hl ⊢
          rw [(core_fields he).1]
          exact isDescendantLoop h hu hl
    · exact hl

theorem is_descendant (h : Alike l l') (hu : Uniq l) {src dst : ℤ} {b : Bool} (hd : is_descendant l src dst = some b) :
    Kfs.is_descendant l' src dst = some b := by
  rw [Kfs.is_descendant] at hd ⊢
  rw [h.length]
  exact h.isDescendantLoop hu hd

end Alike

/-! ## Updates -/

namespace Alike

theorem insert (h : Alike l l') (hm : m.core false = m'.core false) (hp : m.key.Plain) :
    Alike (Leaves.insert l m) (Leaves.insert l' m') := by
  refine ⟨?_, Leaves.ordered_insert h.ord hp, Leaves.ordered_insert h.ord' ?_⟩
  · have hins : ∀ (l : List Meta) (m : Meta), List.Perm ((Leaves.insert l m).map (Meta.core false))
        (m.core false :: l.map (Meta.core false)) := fun l m => (Leaves.insert_perm l m).map _
    refine (hins l m).trans (((h.perm.cons _).trans ?_).trans (hins l' m').symm)
    rw [hm]
  · rwa [← @Meta.core_key false m', ← hm, Meta.core_key]

theorem insert_dentry (h : Alike l l') (d : MetaDentry) :
    Alike (Leaves.insert l (.dentry d)) (Leaves.insert l' (.dentry d)) :=
  h.insert rfl (plain_dentry d)

theorem insert_new (h : Alike l l') (t : FileType) (id n : ℤ) :
    Alike (Leaves.insert l (.fattr (MetaFattr.new env t id n)))
      (Leaves.insert l' (.fattr (MetaFattr.new env' t id n))) :=
  h.insert rfl (plain_fattr _)

/-- A removal takes items with one core on both sides. -/
theorem delOk (h : Alike l l') (hu : Uniq l) (hm : m.key.Plain) (hhits : ∀ x, Leaves.hits m x = Leaves.hits m' x)
    (hd : Leaves.delOk l m = some l₁) :
    ∃ l₁', Leaves.delOk l' m' = some l₁' ∧ Alike l₁ l₁' := by
  have hord : ∀ {l l₁ m}, Leaves.delOk l m = some l₁ → Ordered (l.map Meta.key) → Ordered (l₁.map Meta.key) := by
    intro l l₁ m hd ho
    exact (Edits.refl (I := Meta.NotChunk)).delOk hd |>.ordered (fun _ hm => hm.plain) ho
  obtain ⟨x, hx, hh, hp⟩ := delOk_perm hd
  obtain ⟨x', hx', he⟩ := h.item hx
  have hh' : Leaves.hits m' x' = true := by
    rw [← hhits, ← @hits_core_right false, he, hits_core_right, hh]
  have hd' : Leaves.delOk l' m' = some (Leaves.del l' m') := if_pos (List.any_eq_true.2 ⟨x', hx', hh'⟩)
  obtain ⟨y, hy, hhy, hp'⟩ := delOk_perm hd'
  have hu' := h.uniq hu
  have hy_eq : y = x' := by
    have hslots : ∀ z ∈ l', Leaves.hits m' z = true → z.slot = m.slot := by
      intro z hz hhz
      rw [← hhits] at hhz
      exact (hits_iff hm (hu'.plain z hz)).1 hhz
    exact hu'.eq_of_slot hy hx' ((hslots y hy hhy).trans (hslots x' hx' hh').symm)
  subst hy_eq
  refine ⟨_, hd', ?_, hord hd h.ord, hord hd' h.ord'⟩
  have hboth := ((hp.map (Meta.core false)).symm.trans h.perm).trans (hp'.map _)
  rw [List.map_cons, List.map_cons, he] at hboth
  exact hboth.cons_inv

theorem del_dentry (h : Alike l l') (hu : Uniq l) (d : MetaDentry)  (id' : ℤ)
    (hd : Leaves.delOk l (.dentry d) = some l₁) :
    ∃ l₁', Leaves.delOk l' (.dentry { d with id := id' }) = some l₁' ∧ Alike l₁ l₁' :=
  h.delOk hu (plain_dentry d) (fun x => by cases x <;> rfl) hd

theorem del_fattr (h : Alike l l') (hu : Uniq l) {f f' : MetaFattr} (he : f'.core false = f.core false)
    (hd : Leaves.delOk l (.fattr f) = some l₁) : ∃ l₁', Leaves.delOk l' (.fattr f') = some l₁' ∧ Alike l₁ l₁' := by
  refine h.delOk hu (plain_fattr f) (fun x => ?_) hd
  cases x <;> simp only [Leaves.hits, Meta.key, Meta.matchItem, Meta.id, (core_fields he).1] <;> rfl

/-- An overwriting of the one item with the key by items with one core. -/
theorem update {k : Key} {g g' : Meta → Meta} (h : Alike l l')
    (hone : ∀ x ∈ l', ∀ y ∈ l', x.key.eqv k = true → y.key.eqv k = true → x = y)
    (hk : ∀ x ∈ l, x.key.eqv k = true → (g x).key = x.key)
    (hk' : ∀ x ∈ l', x.key.eqv k = true → (g' x).key = x.key)
    (hg : ∀ x x' : Meta, x.key.eqv k = true → x.core false = x'.core false → (g x).core false = (g' x').core false) :
    Alike (Leaves.update l k g) (Leaves.update l' k g') := by
  refine ⟨?_, by rw [update_map_key hk]; exact h.ord, by rw [update_map_key hk']; exact h.ord'⟩
  have hcross : ∀ {l l' : List Meta} {x : Meta}, Alike l l' → x ∈ l → x.key.eqv k = true →
      ∃ x' ∈ l', x'.core false = x.core false ∧ x'.key.eqv k = true := by
    intro l l' x h hx hkx
    obtain ⟨x', hx', he⟩ := h.item hx
    refine ⟨x', hx', he, ?_⟩
    rw [← @Meta.core_key false, he, Meta.core_key]
    exact hkx
  by_cases hx : ∃ x ∈ l, x.key.eqv k = true
  · obtain ⟨x, rest, hkx, hp, hup⟩ := update_perm (g := g) hx
    obtain ⟨x', hx', he, hkx'⟩ := hcross h (hp.mem_iff.2 List.mem_cons_self) hkx
    obtain ⟨y, rest', hky, hp', hup'⟩ := update_perm (g := g') ⟨x', hx', hkx'⟩
    obtain rfl := hone x' hx' y (hp'.mem_iff.2 List.mem_cons_self) hkx' hky
    have hrest := ((hp.map (Meta.core false)).symm.trans h.perm).trans (hp'.map _)
    rw [List.map_cons, List.map_cons, he] at hrest
    refine (hup.map _).trans (List.Perm.trans ?_ (hup'.map _).symm)
    rw [List.map_cons, List.map_cons, hg x x' hkx he.symm]
    exact hrest.cons_inv.cons _
  · have hno : ∀ x ∈ l, x.key.eqv k = false := fun x hm => Bool.eq_false_iff.2 fun hk => hx ⟨x, hm, hk⟩
    have hno' : ∀ x ∈ l', x.key.eqv k = false := fun x' hm => Bool.eq_false_iff.2 fun hk => by
      obtain ⟨x, hm', -, hk'⟩ := hcross h.symm hm hk
      exact hx ⟨x, hm', hk'⟩
    rw [update_of_miss hno, update_of_miss hno']
    exact h.perm

/-- The attributes of one id. -/
theorem one_fattr (hu : Uniq l) : ∀ x ∈ l, ∀ y ∈ l, x.key.eqv ⟨.fattr, fid, 0⟩ = true →
    y.key.eqv ⟨.fattr, fid, 0⟩ = true → x = y := by
  intro x hx y hy hkx hky
  obtain ⟨f, rfl, hf⟩ := (eqv_fattr x fid).1 hkx
  obtain ⟨g, rfl, hg⟩ := (eqv_fattr y fid).1 hky
  exact congrArg _ (hu.eq_of_id hx hy (hf.trans hg.symm))

theorem setFattr (h : Alike l l') (hu : Uniq l) {f f' : MetaFattr} (hf : f.id = fid)
    (he : f'.core false = f.core false) : Alike (setFattr l fid f) (setFattr l' fid f') := by
  have hkey : ∀ f : MetaFattr, f.id = fid → ∀ x : Meta, x.key.eqv ⟨.fattr, fid, 0⟩ = true →
      (Meta.fattr f).key = x.key := by
    intro f hf x hx
    obtain ⟨g, rfl, hg⟩ := (eqv_fattr x fid).1 hx
    rw [Meta.key, Meta.key, hf, hg]
  exact h.update (one_fattr (h.uniq hu)) (fun x _ => hkey f hf x)
    (fun x _ => hkey f' ((core_fields he).1.trans hf) x) fun _ _ _ _ => congrArg Meta.fattr he.symm

theorem setChunk (h : Alike l l') (hu : Uniq l) {offset : ℤ} (ho : offset ≠ -1) {c : MetaChunkInfo}
    (hid : c.id = fid) (hc : c.offset = offset) : Alike (setChunk l fid offset c) (setChunk l' fid offset c) := by
  have hat : ∀ x : Meta, x.key.Plain → x.key.eqv ⟨.chunkinfo, fid, offset⟩ = true →
      x.slot = .chunk fid offset ∧ (Meta.chunkinfo c).key = x.key := by
    intro x hp hx
    obtain ⟨d, rfl, hd, hoff⟩ := (eqv_chunk x fid offset).1 hx
    have hoff' : d.offset = offset := hoff.resolve_right fun hn => hn.elim hp ho
    exact ⟨by rw [Meta.slot, hd, hoff'], by rw [Meta.key, Meta.key, hid, hd, hc, hoff']⟩
  have hu' := h.uniq hu
  refine h.update (fun x hx y hy hkx hky => ?_) (fun x hx hkx => (hat x (hu.plain x hx) hkx).2)
    (fun x hx hkx => (hat x (hu'.plain x hx) hkx).2) fun _ _ _ _ => rfl
  exact hu'.eq_of_slot hx hy ((hat x (hu'.plain x hx) hkx).1.trans (hat y (hu'.plain y hy) hky).1.symm)

theorem linkChunk (h : Alike l l') (hu : Uniq l) {c : MetaChunkInfo} (ho : c.offset ≠ -1) :
    Alike (linkChunk env l c) (linkChunk env' l' c) := by
  have hkey : ∀ (env : Env) (x : Meta), x.key.eqv ⟨.fattr, c.id, 0⟩ = true →
      (Meta.addChunk env x).key = x.key := by
    intro env x hx
    obtain ⟨f, rfl, -⟩ := (eqv_fattr x c.id).1 hx
    rfl
  have hins : Alike (Leaves.insert l (.chunkinfo c)) (Leaves.insert l' (.chunkinfo c)) := h.insert rfl ho
  refine hins.update (fun x hx y hy hkx hky => ?_) (fun x _ => hkey env x) (fun x _ => hkey env' x) fun x x' hx he => ?_
  · have hold : ∀ {x : Meta}, x ∈ Leaves.insert l' (.chunkinfo c) → x.key.eqv ⟨.fattr, c.id, 0⟩ = true → x ∈ l' := by
      intro x hx hkx
      rcases Leaves.mem_insert.1 hx with rfl | hx
      · obtain ⟨f, hf, -⟩ := (eqv_fattr _ c.id).1 hkx
        cases hf
      · exact hx
    exact one_fattr (h.uniq hu) x (hold hx hkx) y (hold hy hky) hkx hky
  · obtain ⟨f, rfl, -⟩ := (eqv_fattr x c.id).1 hx
    cases x' with
    | dentry d => cases he
    | chunkinfo d => cases he
    | fattr f' =>
      obtain ⟨hid, hty, hct⟩ := core_fields (Meta.fattr.inj he)
      have hcore : (f.addChunk env).core false = (f'.addChunk env').core false :=
        MetaFattr.core_eq_iff.2 ⟨hid, hty, fun hn => absurd hn (by decide), congrArg (· + 1) hct⟩
      exact congrArg Meta.fattr hcore

end Alike

/-! ## The name space -/

section

variable (hidle : ∀ c, env.leased c = false) (hidle' : ∀ c, env'.leased c = false)

theorem Uniq.of_deleteChunks (hu : Uniq l) {cs : List MetaChunkInfo} (hd : deleteChunks l cs = some l₁) : Uniq l₁ := by
  induction cs generalizing l with
  | nil =>
    cases hd
    exact hu
  | cons c cs ih =>
    obtain ⟨l₂, h₂, hd⟩ := Option.bind_eq_some_iff.1 hd
    exact ih (hu.delOk h₂) hd

theorem deleteChunks_alike : ∀ {cs : List MetaChunkInfo} {l l' : List Meta}, Alike l l' → Uniq l →
    (∀ c ∈ cs, c.offset ≠ -1) → deleteChunks l cs = some l₁ → ∃ l₁', deleteChunks l' cs = some l₁' ∧ Alike l₁ l₁'
  | [], l, l', h, _, _, hd => by
    cases hd
    exact ⟨l', rfl, h⟩
  | c :: cs, l, l', h, hu, hne, hd => by
    obtain ⟨l₂, h₂, hd⟩ := Option.bind_eq_some_iff.1 hd
    obtain ⟨l₂', h₂', h'⟩ := Alike.delOk h hu (m := .chunkinfo c) (hne c List.mem_cons_self)
      (fun _ => rfl) h₂
    obtain ⟨l₁', hd', h''⟩ := deleteChunks_alike h' (hu.delOk h₂) (fun d hd => hne d (List.mem_cons_of_mem _ hd)) hd
    exact ⟨l₁', Option.bind_eq_some_iff.2 ⟨l₂', h₂', hd'⟩, h''⟩

theorem getalloc_plain (hu : Uniq l) : ∀ c ∈ getalloc l fid, c.offset ≠ -1 := by
  intro c hc
  rw [getalloc_eq, List.mem_filter, mem_chunks] at hc
  exact hu.plain _ hc.1

theorem unlink_alike {fa fa' : MetaFattr} (h : Alike l l') (hu : Uniq l) (he : fa'.core false = fa.core false)
    (hd : unlink l dir name fa false = some l₁) : ∃ l₁', unlink l' dir name fa' false = some l₁' ∧ Alike l₁ l₁' := by
  obtain ⟨l₂, h₁, h₂⟩ := unlink_iff.1 hd
  obtain ⟨l₂', h₁', h'⟩ := h.del_dentry hu ⟨dir, name, fa.id⟩ fa'.id h₁
  obtain ⟨l₁', h₂', h''⟩ := h'.del_fattr (hu.delOk h₁) he h₂
  exact ⟨l₁', unlink_iff.2 ⟨l₂', h₁', h₂'⟩, h''⟩

/-- A tree in which only the items have changed, with its counterpart. -/
def Redone (R R' R₁ : Fs) (op : Fs → Option (ℤ × Fs)) : Prop :=
  R₁ = { R with leaves := R₁.leaves } ∧ Uniq R₁.leaves ∧
    ∃ l', op R' = some (0, { R' with leaves := l' }) ∧ Alike R₁.leaves l'

include hidle hidle' in
theorem removeF_alike {fuel : ℕ} (h : Alike R.leaves R'.leaves) (hu : Uniq R.leaves)
    (hr : removeF (fuel + 1) env R dir name = some (0, R₁)) :
    Redone R R' R₁ fun fs => removeF (fuel + 1) env' fs dir name := by
  rcases removeF_idle (fun _ _ c _ => hidle c.chunkId) hr with ⟨h0, -⟩ | ⟨-, fa, l₁, l, hl, ht, hcc, h₁, h₂, rfl⟩
  · exact absurd h0 (lt_irrefl _)
  obtain ⟨fa', hl', he⟩ := h.lookup_some hu hl
  obtain ⟨hid, hty, hct⟩ := core_fields he
  have hga : getalloc R'.leaves fa'.id = getalloc R.leaves fa.id := by rw [hid, h.getalloc hu]
  obtain ⟨l₁', h₁', halike, hu₁⟩ : ∃ l₁', dropChunks R'.leaves fa' (getalloc R'.leaves fa'.id) = some l₁' ∧
      Alike l₁ l₁' ∧ Uniq l₁ := by
    rw [hga]
    rw [dropChunks] at h₁ ⊢
    rw [hct]
    split_ifs at h₁ ⊢
    · obtain ⟨l₁', hd, hal⟩ := deleteChunks_alike h hu (getalloc_plain hu) h₁
      exact ⟨l₁', hd, hal, hu.of_deleteChunks h₁⟩
    · cases h₁
      exact ⟨_, rfl, h, hu⟩
  obtain ⟨l', h₂', halike'⟩ := unlink_alike halike hu₁ he h₂
  obtain ⟨l₂, hd₁, hd₂⟩ := unlink_iff.1 h₂
  exact ⟨rfl, (hu₁.delOk hd₁).delOk hd₂, l', removeF_run hl' (hty.trans ht) (by rw [hga, hct]; exact hcc)
    (fun c _ => hidle' c.chunkId) h₁' h₂', halike'⟩

theorem rmdir_alike (h : Alike R.leaves R'.leaves) (hu : Uniq R.leaves) (hr : rmdir R dir name = some (0, R₁)) :
    Redone R R' R₁ fun fs => rmdir fs dir name := by
  rcases rmdir_spec hr with ⟨h0, -⟩ | ⟨-, fa, l, ⟨hl, hty, hnd, hdot, hem, l₁, l₂, l₃, h₁, h₂, h₃, h₄⟩, rfl⟩
  · exact absurd h0 (lt_irrefl _)
  obtain ⟨fa', hl', he⟩ := h.lookup_some hu hl
  obtain ⟨hid, hty', -⟩ := core_fields he
  obtain ⟨l₁', h₁', a₁⟩ := h.del_dentry hu ⟨fa.id, ['.'], fa.id⟩ fa'.id h₁
  have u₁ := hu.delOk h₁
  obtain ⟨l₂', h₂', a₂⟩ := a₁.del_dentry u₁ ⟨fa.id, ['.', '.'], fa.id⟩ fa'.id h₂
  have u₂ := u₁.delOk h₂
  obtain ⟨l₃', h₃', a₃⟩ := a₂.del_dentry u₂ ⟨dir, name, fa.id⟩ fa'.id h₃
  have u₃ := u₂.delOk h₃
  obtain ⟨l', h₄', a₄⟩ := a₃.del_fattr u₃ he h₄
  have hem' : emptydir R'.leaves fa'.id = some true := by rw [hid, h.emptydir, hem]
  rw [← hid] at h₁' h₂'
  have hdone : RmdirDone R' dir name fa' l' :=
    ⟨hl', hty'.trans hty, hnd, hdot, hem', l₁', l₂', l₃', h₁', h₂', h₃', h₄'⟩
  exact ⟨rfl, u₃.delOk h₄, l', hdone.run, a₄⟩

theorem link_alike {id n : ℤ} {t : FileType} (h : Alike l l') (hk : link env l dir name t id n = some l₁) :
    ∃ l₁', link env' l' dir name t id n = some l₁' ∧ Alike l₁ l₁' := by
  obtain ⟨hn, rfl⟩ := link_spec hk
  rw [link, if_pos hn]
  dsimp only
  split_ifs
  · exact ⟨_, rfl, (h.insert_dentry ⟨dir, name, id⟩).insert_new t id n⟩
  · exact ⟨_, rfl, h.insert_dentry ⟨dir, name, id⟩⟩

theorem mkdirAt_alike (h : Alike R.leaves R'.leaves) (id : ℤ) :
    Alike (Fs.mkdirAt env R dir name id).leaves (Fs.mkdirAt env' R' dir name id).leaves :=
  (((h.insert_dentry ⟨dir, name, id⟩).insert_new .dir id 1).insert_dentry ⟨id, ['.'], id⟩).insert_dentry
    ⟨id, ['.', '.'], dir⟩

/-- A new file or directory, and its counterpart: the seeds are as they were, since the id is given. -/
def Made (R R' R₁ : Fs) (id newFid : ℤ) (op : Fs → Option (ℤ × ℤ × Fs)) : Prop :=
  id = newFid ∧ R₁ = { R with leaves := R₁.leaves } ∧
    ∃ l', op R' = some (0, id, { R' with leaves := l' }) ∧ Alike R₁.leaves l'

theorem mkdir_alike {id newFid : ℤ} (h : Alike R.leaves R'.leaves) (hu : Uniq R.leaves) (h0 : newFid ≠ 0)
    (hm : mkdir env R dir name newFid = some (0, id, R₁)) :
    Made R R' R₁ id newFid fun fs => mkdir env' fs dir name newFid := by
  rcases mkdir_spec hm with ⟨hst, -⟩ | ⟨-, hl, hname, ⟨hz, -⟩ | ⟨hz, -⟩ | ⟨-, rfl, rfl⟩⟩
  · exact absurd hst (lt_irrefl _)
  · exact absurd hz h0
  · exact absurd hz h0
  · exact ⟨rfl, rfl, _, mkdir_run hname (h.lookup_none hu hl) h0, mkdirAt_alike h id⟩

include hidle hidle' in
theorem create_alike {id newFid n : ℤ} (h : Alike R.leaves R'.leaves) (hu : Uniq R.leaves) (h0 : newFid ≠ 0)
    (hc : create env R dir name newFid n false = some (0, id, R₁)) :
    Made R R' R₁ id newFid fun fs => create env' fs dir name newFid n false := by
  rcases create_spec hc with
    ⟨hst, -⟩ | ⟨hn, hpos, fa, hl, hfa, st, fs₁, hr, ⟨h₁, hst, -⟩ | ⟨rfl, -, hid, l₂, hk, rfl⟩⟩
  · exact absurd hst (lt_irrefl _)
  · rw [h₁] at hst
    exact absurd hst (by decide)
  rw [if_neg h0] at hid
  subst hid
  obtain ⟨hfs, fa', l', hl', hfa', hr', ha⟩ : fs₁ = { R with leaves := fs₁.leaves } ∧ ∃ fa' l',
      lookup R'.leaves dir name = some fa' ∧ (∀ f, fa' = some f → f.type = .file ∧ false = false) ∧
      removeOld env' R' dir name fa' = some (0, { R' with leaves := l' }) ∧ Alike fs₁.leaves l' := by
    cases fa with
    | none =>
      cases hr
      exact ⟨rfl, none, R'.leaves, h.lookup_none hu hl, fun f hf => absurd hf (Option.some_ne_none f).symm, rfl, h⟩
    | some f =>
      obtain ⟨f', hf', he⟩ := h.lookup_some hu hl
      obtain ⟨hfs, -, l', hr', ha⟩ := removeF_alike hidle hidle' h hu hr
      refine ⟨hfs, some f', l', hf', fun g hg => ⟨?_, rfl⟩, hr', ha⟩
      obtain rfl := Option.some.inj hg
      exact (core_fields he).2.1.trans (hfa f rfl).1
  obtain ⟨l₂', hk', ha'⟩ := link_alike ha hk
  have hrun := create_run hn hpos hl' hfa' hr' h0 hk'
  refine ⟨rfl, ?_, l₂', hrun, ha'⟩
  rw [hfs]
  simp only [h0, if_false]

/-! ## Renaming -/

theorem RenamePlan.Checked.alike {oldname newname : Str} {overwrite : Bool} {p : RenamePlan} (h : Alike l l')
    (hu : Uniq l) (hp : p.Checked l dir oldname newname overwrite) :
    ∃ p' : RenamePlan, p'.Checked l' dir oldname newname overwrite ∧ p'.src = p.src ∧ p'.ddir = p.ddir ∧
      p'.dname = p.dname ∧ p'.dexists = p.dexists ∧ p'.sfattr.core false = p.sfattr.core false := by
  obtain ⟨sf', hsf', hcore⟩ := h.lookup_some hu hp.found
  obtain ⟨hid, hty, -⟩ := core_fields hcore
  obtain ⟨df, hdf, hex, hdst⟩ := hp.dst
  refine ⟨⟨p.src, sf', p.ddir, p.dname, p.dexists⟩, ⟨(h.getDentry hu dir oldname).trans hp.src,
    h.renameTarget hu hp.target, hp.legal, hp.ne, hsf', ?_, fun hdir => ?_⟩, rfl, rfl, rfl, rfl, hcore⟩
  · cases df with
    | none => exact ⟨none, h.lookup_none hu hdf, hex, fun d hd => absurd hd (Option.some_ne_none d).symm⟩
    | some d =>
      obtain ⟨d', hd', hdc⟩ := h.lookup_some hu hdf
      obtain ⟨hdid, hdty, -⟩ := core_fields hdc
      refine ⟨some d', hd', hex, fun e he => ?_⟩
      obtain rfl := Option.some.inj he
      obtain ⟨how, hte, hemp⟩ := hdst d rfl
      refine ⟨how, hdty.trans (hte.trans hty.symm), fun hdir => ?_⟩
      rw [hdid, h.emptydir]
      exact hemp (hty.symm.trans hdir)
  · rw [hid]
    exact h.is_descendant hu (hp.loop (hty.symm.trans hdir))

theorem relink_alike {p p' : RenamePlan} (h : Alike l l') (hu : Uniq l) (hsrc : p'.src = p.src)
    (hddir : p'.ddir = p.ddir) (hdname : p'.dname = p.dname) (hcore : p'.sfattr.core false = p.sfattr.core false)
    (hmem : p.sfattr.type = .dir → .fattr p'.sfattr ∈ l') (hr : relink env l p = some l₁) :
    ∃ l₁', relink env' l' p' = some l₁' ∧ Alike l₁ l₁' := by
  obtain ⟨hs, hr⟩ := relink_spec hr
  obtain ⟨-, hty, -⟩ := core_fields hcore
  have hs' : .dentry p'.src ∈ l' := hsrc ▸ h.dentry hs
  by_cases hdir : p.sfattr.type = .dir
  · rw [if_pos hdir] at hr
    obtain ⟨-, l₂, l₃, h₁, h₂, rfl⟩ := hr
    obtain ⟨l₂', h₁', a₁⟩ := h.del_dentry hu _ p'.sfattr.id h₁
    obtain ⟨l₃', h₂', a₂⟩ := a₁.del_dentry (hu.delOk h₁) p.src p.src.id h₂
    refine ⟨_, relink_run hs' ?_, (a₂.insert_dentry ⟨p.ddir, p.dname, p.src.id⟩).insert_dentry
      ⟨p.src.id, ['.', '.'], p.ddir⟩⟩
    rw [if_pos (hty.trans hdir), hsrc, hddir, hdname]
    exact ⟨hmem hdir, l₂', l₃', h₁', h₂', rfl⟩
  · rw [if_neg hdir] at hr
    obtain ⟨l₂, h₂, rfl⟩ := hr
    obtain ⟨l₂', h₂', a₂⟩ := h.del_dentry hu p.src p.src.id h₂
    refine ⟨_, relink_run hs' ?_, a₂.insert_dentry ⟨p.ddir, p.dname, p.src.id⟩⟩
    rw [if_neg (by rwa [hty]), hsrc, hddir, hdname]
    exact ⟨l₂', h₂', rfl⟩

include hidle hidle' in
theorem clearTarget_alike {p p' : RenamePlan} (h : Alike R.leaves R'.leaves) (hu : Uniq R.leaves)
    (hddir : p'.ddir = p.ddir) (hdname : p'.dname = p.dname) (hex : p'.dexists = p.dexists)
    (hty : p'.sfattr.type = p.sfattr.type) (hc : clearTarget (removeF 2 env) R p = some (0, R₁)) :
    Redone R R' R₁ fun fs => clearTarget (removeF 2 env') fs p' := by
  unfold clearTarget at hc
  unfold Redone clearTarget
  rw [hex, hty, hddir, hdname]
  split_ifs at hc ⊢
  · exact rmdir_alike h hu hc
  · exact removeF_alike hidle hidle' h hu hc
  · cases hc
    exact ⟨rfl, hu, R'.leaves, rfl, h⟩

/-- A directory in the place of another: the attributes of the source stay. -/
theorem clearTarget_subset {rm : Fs → ℤ → Str → Option (ℤ × Fs)} {p : RenamePlan}
    (hdir : p.sfattr.type = .dir) (hc : clearTarget rm R p = some (0, R₁)) : R₁.leaves ⊆ R.leaves := by
  unfold clearTarget at hc
  rw [if_pos hdir] at hc
  split_ifs at hc
  · rcases rmdir_spec hc with ⟨h0, -⟩ | ⟨-, fa, l, hdone, rfl⟩
    · exact absurd h0 (lt_irrefl _)
    · exact hdone.subset
  · cases hc
    exact fun _ hx => hx

include hidle hidle' in
theorem rename_alike {oldname newname : Str} {overwrite : Bool} (h : Alike R.leaves R'.leaves) (hu : Uniq R.leaves)
    (hr : rename env R dir oldname newname overwrite = some (0, R₁)) :
    R₁ = { R with leaves := R₁.leaves } ∧ ∃ l', rename env' R' dir oldname newname overwrite =
      some (0, { R' with leaves := l' }) ∧ Alike R₁.leaves l' := by
  rcases renameWith_spec hr with ⟨hz, rfl⟩ | ⟨p, hp, ⟨h0, -⟩ | ⟨-, R₂, l₁, hcl, hrl, rfl⟩⟩
  · -- the name stays as it is
    obtain ⟨⟨d, hd⟩, ht, hn⟩ := renameCheck_zero_iff.1 hz
    have hz' : renameCheck R'.leaves dir oldname newname overwrite = some (.error 0) :=
      renameCheck_zero_iff.2 ⟨⟨d, (h.getDentry hu dir oldname).trans hd⟩, h.renameTarget hu ht, hn⟩
    refine ⟨rfl, R'.leaves, ?_, h⟩
    rw [rename, renameWith, hz']
  · exact absurd rfl h0
  · obtain ⟨p', hp', hsrc, hddir, hdname, hex, hcore⟩ := hp.alike h hu
    obtain ⟨hid, hty, -⟩ := core_fields hcore
    obtain ⟨hfs, hu₂, l₂', hcl', a⟩ := clearTarget_alike hidle hidle' h hu hddir hdname hex hty hcl
    have hmem : p.sfattr.type = .dir → .fattr p'.sfattr ∈ l₂' := by
      intro hdir
      obtain ⟨-, hrl⟩ := relink_spec hrl
      rw [if_pos hdir] at hrl
      obtain ⟨f', hf', he⟩ := a.fattr hrl.1
      have hsub : l₂' ⊆ R'.leaves := clearTarget_subset (hty.trans hdir) hcl'
      obtain rfl := (h.uniq hu).eq_of_id (lookup_mem hp'.found) (hsub hf') (hid.trans (core_fields he).1.symm)
      exact hf'
    obtain ⟨l₁', hrl', a'⟩ := relink_alike a hu₂ hsrc hddir hdname hcore hmem hrl
    have hrun := renameWith_run hp' hcl' hrl'
    refine ⟨?_, l₁', hrun, a'⟩
    rw [hfs]

end

/-! ## Chunks -/

theorem allocateChunkId_alike {offset cid st c v : ℤ} (h : Resembles R R') (hu : Uniq R.leaves)
    (ha : allocateChunkId R fid offset cid false = some (st, c, v, R₁)) :
    R₁.leaves = R.leaves ∧ ∃ R₁', allocateChunkId R' fid offset cid false = some (st, c, v, R₁') ∧
      Resembles R₁ R₁' := by
  have hch : getChunk R'.leaves fid (chunkStartOffset offset) = getChunk R.leaves fid (chunkStartOffset offset) :=
    h.leaves.getChunk hu (chunkStartOffset_ne offset)
  rw [allocateChunkId] at ha ⊢
  rw [hch, h.chunkID, h.chunkVersionInc]
  cases hf : getFattr R.leaves fid with
  | none =>
    rw [hf] at ha
    cases ha
    rw [h.leaves.getFattr_none hf]
    exact ⟨rfl, R', rfl, h⟩
  | some f =>
    obtain ⟨f', hf', -⟩ := h.leaves.getFattr hu hf
    rw [hf] at ha
    rw [hf']
    simp only [Bool.false_eq_true, false_and, if_false] at ha ⊢
    by_cases hal : offset.tmod CHUNKSIZE ≠ 0
    · rw [if_pos hal] at ha
      cases ha
    rw [if_neg hal] at ha ⊢
    cases hc : getChunk R.leaves fid (chunkStartOffset offset) with
    | some c =>
      rw [hc] at ha
      cases ha
      exact ⟨rfl, R', rfl, h⟩
    | none =>
      rw [hc] at ha
      dsimp only at ha ⊢
      split_ifs at ha ⊢
      · cases ha
        exact ⟨rfl, _, rfl, h.leaves, h.fileID, rfl, rfl⟩
      · cases ha
        exact ⟨rfl, R', rfl, h⟩

theorem assignChunkId_alike {offset cid v st : ℤ} (h : Resembles R R') (hu : Uniq R.leaves) (ho : offset ≠ -1)
    (ha : assignChunkId env R fid offset cid v = (st, R₁)) :
    R₁ = { R with leaves := R₁.leaves } ∧
      ∃ R₁', assignChunkId env' R' fid offset cid v = (st, R₁') ∧ Resembles R₁ R₁' := by
  have hch : getChunk R'.leaves fid (chunkStartOffset offset) = getChunk R.leaves fid (chunkStartOffset offset) :=
    h.leaves.getChunk hu (chunkStartOffset_ne offset)
  rw [assignChunkId, hch]
  rcases assignChunkId_spec ha with
    ⟨hf, rfl, rfl⟩ | ⟨fa, hf, ⟨c, hc, hv, rfl, rfl⟩ | ⟨c, hc, hv, rfl, rfl⟩ | ⟨hc, rfl, rfl⟩⟩
  · rw [h.leaves.getFattr_none hf]
    exact ⟨rfl, R', rfl, h⟩
  · obtain ⟨f', hf', -⟩ := h.leaves.getFattr hu hf
    rw [hf', hc]
    dsimp only
    rw [if_pos hv]
    exact ⟨rfl, R', rfl, h⟩
  · obtain ⟨f', hf', -⟩ := h.leaves.getFattr hu hf
    obtain ⟨-, hid, hoff⟩ := getChunk_spec hu.plain (chunkStartOffset_ne offset) hc
    rw [hf', hc]
    dsimp only
    rw [if_neg hv]
    exact ⟨rfl, _, rfl, h.leaves.setChunk hu (chunkStartOffset_ne offset) hid hoff, h.fileID, h.chunkID,
      h.chunkVersionInc⟩
  · obtain ⟨f', hf', -⟩ := h.leaves.getFattr hu hf
    rw [hf', hc]
    exact ⟨rfl, _, rfl, h.leaves.linkChunk hu (c := ⟨fid, offset, cid, v⟩) ho, h.fileID, h.chunkID,
      h.chunkVersionInc⟩

theorem redoAssign_alike {offset cid v : ℤ} (h : Resembles R R') (hu : Uniq R.leaves) (ho : offset ≠ -1)
    (ha : redoAssign env R fid offset cid v = some (true, R₁)) :
    ∃ R₁', redoAssign env' R' fid offset cid v = some (true, R₁') ∧ Resembles R₁ R₁' := by
  rw [redoAssign] at ha ⊢
  cases hs : assignChunkId env R fid offset cid v with
  | mk st R₂ =>
    obtain ⟨-, R₂', hs', h'⟩ := assignChunkId_alike h hu ho hs
    rw [hs] at ha
    rw [hs']
    dsimp only at ha ⊢
    rw [h'.chunkID]
    split_ifs at ha ⊢
    · obtain ⟨seed, hseed, he⟩ := Option.map_eq_some_iff.1 ha
      obtain ⟨-, rfl⟩ := Prod.mk.inj he
      exact ⟨_, Option.map_eq_some_iff.2 ⟨seed, hseed, rfl⟩, h'.leaves, h'.fileID, rfl, h'.chunkVersionInc⟩
    · cases ha
      exact ⟨R₂', rfl, h'⟩
    · cases ha

theorem redoAllocate_alike {offset cid v : ℤ} (h : Resembles R R') (hu : Uniq R.leaves)
    (ha : redoAllocate env R fid offset cid v = some (true, R₁)) :
    ∃ R₁', redoAllocate env' R' fid offset cid v = some (true, R₁') ∧ Resembles R₁ R₁' := by
  rw [redoAllocate] at ha ⊢
  cases hf : getFattr R.leaves fid with
  | none =>
    rw [hf] at ha
    cases ha
    rw [h.leaves.getFattr_none hf]
    exact ⟨R', rfl, h⟩
  | some f =>
    obtain ⟨f', hf', -⟩ := h.leaves.getFattr hu hf
    rw [hf] at ha
    rw [hf']
    dsimp only at ha ⊢
    cases hs : allocateChunkId R fid offset cid false with
    | none =>
      rw [hs] at ha
      cases ha
    | some x =>
      obtain ⟨st, c, w, R₂⟩ := x
      obtain ⟨hl, R₂', hs', h'⟩ := allocateChunkId_alike h hu hs
      have ho : offset ≠ -1 := by
        rintro rfl
        rw [allocateChunkId, hf] at hs
        cases hs
      rw [hs] at ha
      rw [hs']
      dsimp only at ha ⊢
      split_ifs at ha ⊢
      · cases ha
        exact ⟨R₂', rfl, h'⟩
      · exact redoAssign_alike h' (hl ▸ hu) ho ha
      · cases ha

theorem truncate_run {fs : Fs} {fa : MetaFattr} {offset : ℤ} (hf : getFattr fs.leaves fid = some fa)
    (hty : fa.type = .file) (hcc : fa.chunkcount = (getalloc fs.leaves fa.id).length)
    (hat : hasChunkAt offset (getalloc fs.leaves fa.id) = true)
    (hl : deleteChunks fs.leaves (deadChunks offset (getalloc fs.leaves fa.id)) = some l₁) :
    truncate env fs fid offset = some (0, 0, { fs with leaves := Kfs.setFattr l₁ fid { fa with
      filesize := -1, mtime := env.now,
      chunkcount := fa.chunkcount - (deadChunks offset (getalloc fs.leaves fa.id)).length } }) := by
  unfold truncate
  unfold hasChunkAt at hat
  unfold deadChunks at hl ⊢
  simp only [hf, hty, hcc, ne_eq, not_true_eq_false, if_false]
  cases hd : (getalloc fs.leaves fa.id).drop (Lib.lowerBound
      (fun c => decide (c.offset < chunkStartOffset offset)) (getalloc fs.leaves fa.id)) with
  | nil =>
    rw [hd] at hat
    cases hat
  | cons m ms =>
    rw [hd] at hat hl
    dsimp only at hat hl ⊢
    rw [if_neg (not_not.2 (of_decide_eq_true hat)), hl]
    rfl

theorem deadChunks_subset {offset : ℤ} {cs : List MetaChunkInfo} : deadChunks offset cs ⊆ cs := by
  intro c hc
  unfold deadChunks at hc
  split at hc
  · exact absurd hc List.not_mem_nil
  · next m ms he =>
    have hmem : c ∈ m :: ms := by
      split_ifs at hc
      · exact List.mem_cons_of_mem _ hc
      · exact hc
    exact List.mem_of_mem_drop (he ▸ hmem)

theorem truncate_alike {offset a : ℤ} (h : Alike R.leaves R'.leaves) (hu : Uniq R.leaves)
    (ht : truncate env R fid offset = some (0, a, R₁)) :
    R₁ = { R with leaves := R₁.leaves } ∧
      ∃ l', truncate env' R' fid offset = some (0, 0, { R' with leaves := l' }) ∧ Alike R₁.leaves l' := by
  rcases truncate_spec ht with ⟨h0, -⟩ | ⟨fa, hf, hty, hcc, ⟨-, h0, -⟩ | ⟨hat, -, l₁, hl, rfl⟩⟩
  · exact absurd h0 (lt_irrefl _)
  · exact absurd h0 (by decide)
  obtain ⟨fa', hf', hcore⟩ := h.getFattr hu hf
  obtain ⟨hid, hty', hct⟩ := core_fields hcore
  have hfid : fa.id = fid := (getFattr_some hf).2
  have hga : getalloc R'.leaves fa'.id = getalloc R.leaves fa.id := by rw [hid, h.getalloc hu]
  obtain ⟨l₁', hl', a₁⟩ := deleteChunks_alike h hu (fun c hc => getalloc_plain hu c (deadChunks_subset hc)) hl
  have hrun := @truncate_run env' l₁' fid R' fa' offset hf' (hty'.trans hty) (by rw [hga, hct, hcc]) (by rw [hga, hat])
    (by rw [hga, hl'])
  refine ⟨rfl, _, hrun, a₁.setFattr (hu.of_deleteChunks hl) hfid ?_⟩
  exact MetaFattr.core_eq_iff.2 ⟨hid, hty', fun hn => absurd hn (by decide), by dsimp only; rw [hga, hct]⟩

/-! ## A record -/

/-- The id that a record brings. -/
def LogRec.newId : LogRec → Option ℤ
  | .create _ _ me _ => some me
  | .mkdir _ _ me => some me
  | _ => none

theorem redoNew_alike {x x' : Option (ℤ × ℤ × Fs)} (hx : redoNew x = some (true, R₁))
    (h : ∀ {id R₂}, x = some (0, id, R₂) →
      ∃ R₂', x' = some (0, id, R₂') ∧ Resembles R₂ R₂') : ∃ R₁', redoNew x' = some (true, R₁') ∧ Resembles R₁ R₁' := by
  cases x with
  | none => cases hx
  | some y =>
    obtain ⟨st, id, R₂⟩ := y
    rw [redoNew] at hx
    split_ifs at hx with hst
    · obtain ⟨seed, hseed, he⟩ := Option.map_eq_some_iff.1 hx
      obtain ⟨-, rfl⟩ := Prod.mk.inj he
      subst hst
      obtain ⟨R₂', rfl, h'⟩ := h rfl
      rw [redoNew, if_pos rfl, h'.fileID, hseed]
      exact ⟨_, rfl, h'.leaves, rfl, h'.chunkID, h'.chunkVersionInc⟩
    · cases hx

theorem redoStatus_true {x : Option (ℤ × Fs)} : redoStatus x = some (true, R₁) ↔ x = some (0, R₁) := by
  rw [redoStatus, Option.map_eq_some_iff]
  constructor
  · rintro ⟨⟨st, fs⟩, rfl, he⟩
    obtain ⟨hst, rfl⟩ := Prod.mk.inj he
    rw [of_decide_eq_true hst]
  · rintro rfl
    exact ⟨_, rfl, rfl⟩

/-- The seeds of both stay when only the items change. -/
theorem Resembles.items (h : Resembles R R') (hR : R₁ = { R with leaves := R₁.leaves }) (ha : Alike R₁.leaves l') :
    Resembles R₁ { R' with leaves := l' } := by
  rw [hR]
  exact ⟨ha, h.fileID, h.chunkID, h.chunkVersionInc⟩

/-- **Redoing a record on trees with the same items**. -/
theorem redo_alike {r : LogRec} (hidle : ∀ c, env.leased c = false)
    (hidle' : ∀ c, env'.leased c = false) (h : Resembles R R') (hu : Uniq R.leaves)
    (hid : ∀ me ∈ r.newId, me ≠ 0) (hr : redo env R r = some (true, R₁)) :
    ∃ R₁', redo env' R' r = some (true, R₁') ∧ Resembles R₁ R₁' := by
  cases r with
  | create parent myname me n =>
    refine redoNew_alike hr fun {id R₂} hc => ?_
    obtain ⟨-, hR, l', hc', ha⟩ := create_alike hidle hidle' h.leaves hu (hid me rfl) hc
    exact ⟨_, hc', h.items hR ha⟩
  | mkdir parent myname me =>
    refine redoNew_alike hr fun {id R₂} hc => ?_
    obtain ⟨-, hR, l', hc', ha⟩ := mkdir_alike h.leaves hu (hid me rfl) hc
    exact ⟨_, hc', h.items hR ha⟩
  | remove parent myname =>
    obtain ⟨hR, -, l', hc', ha⟩ := removeF_alike hidle hidle' h.leaves hu (redoStatus_true.1 hr)
    exact ⟨_, redoStatus_true.2 hc', h.items hR ha⟩
  | rmdir parent myname =>
    obtain ⟨hR, -, l', hc', ha⟩ := rmdir_alike h.leaves hu (redoStatus_true.1 hr)
    exact ⟨_, redoStatus_true.2 hc', h.items hR ha⟩
  | rename parent oldname newpath =>
    obtain ⟨hR, l', hc', ha⟩ := rename_alike hidle hidle' h.leaves hu (redoStatus_true.1 hr)
    exact ⟨_, redoStatus_true.2 hc', h.items hR ha⟩
  | allocate fid offset cid v => exact redoAllocate_alike h hu hr
  | truncate fid offset =>
    obtain ⟨⟨st, a, R₂⟩, hc, he⟩ := Option.map_eq_some_iff.1 hr
    obtain ⟨hst, rfl⟩ := Prod.mk.inj he
    obtain rfl := of_decide_eq_true hst
    obtain ⟨hR, l', hc', ha⟩ := truncate_alike h.leaves hu hc
    exact ⟨_, Option.map_eq_some_iff.2 ⟨_, hc', rfl⟩, h.items hR ha⟩
  | chunkVersionInc n =>
    obtain ⟨hst, rfl⟩ := Prod.mk.inj (Option.some.inj hr)
    exact ⟨_, congrArg some (congrArg (·, _) hst), h.leaves, h.fileID, h.chunkID, rfl⟩

end Kfs
