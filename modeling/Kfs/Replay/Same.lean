import Kfs.Fs.Order

/-!
# Trees that look the same

Replay runs with another clock and another lease state than the server did, so that its tree can differ from
the tree of the server: in the times, and in files that the server had moved to the dumpster.

* `Meta.core`: an item without its times and size;
* `visible O H`: the items outside the directories `O` that are not about the ids `H`;
* `Same`: the same visible items, up to their cores;
* `Same.insert`, `Same.delOk`, `Same.update`: the updates on both sides; `Same.insert_left`, …: updates that
  are not visible;
* `Same.getFattr`, `Same.getalloc`, `Same.getChunk`: reading.
-/

namespace Kfs

variable {rep : Bool} {O H : Finset ℤ} {l l' l₁ l₂ : List Meta} {m m' x : Meta} {fid : ℤ}

/-! ## Items -/

/-- The attributes without the times and the size, and without the number of replicas unless `rep`. -/
def MetaFattr.core (rep : Bool) (f : MetaFattr) : MetaFattr where
  id := f.id
  type := f.type
  numReplicas := if rep then f.numReplicas else 0
  mtime := ⟨0, 0⟩
  ctime := ⟨0, 0⟩
  crtime := ⟨0, 0⟩
  chunkcount := f.chunkcount
  filesize := 0

def Meta.core (rep : Bool) : Meta → Meta
  | .fattr f => .fattr (f.core rep)
  | m => m

theorem MetaFattr.core_eq_iff {f g : MetaFattr} : f.core rep = g.core rep ↔
    f.id = g.id ∧ f.type = g.type ∧ (rep = true → f.numReplicas = g.numReplicas) ∧
      f.chunkcount = g.chunkcount := by
  cases rep <;> simp [MetaFattr.core]

@[simp] theorem Meta.core_key (m : Meta) : (m.core rep).key = m.key := by cases m <;> rfl

@[simp] theorem hits_core_right (m x : Meta) : Leaves.hits m (x.core rep) = Leaves.hits m x := by
  cases m <;> cases x <;> rfl

@[simp] theorem hits_core_left (m x : Meta) : Leaves.hits (m.core rep) x = Leaves.hits m x := by
  cases m <;> cases x <;> rfl

/-- An item outside the directories `O` and not about the ids `H`. -/
def visible (O H : Finset ℤ) : Meta → Bool
  | .dentry d => decide (d.dir ∉ O ∧ d.id ∉ H)
  | .fattr f => decide (f.id ∉ H)
  | .chunkinfo c => decide (c.id ∉ H)

@[simp] theorem visible_core (m : Meta) : visible O H (m.core rep) = visible O H m := by
  cases m <;> rfl

@[simp] theorem visible_empty (m : Meta) : visible ∅ ∅ m = true := by cases m <;> simp [visible]

/-! ## The relation -/

/-- The same visible items, up to their cores. -/
def Same (rep : Bool) (O H : Finset ℤ) (l l' : List Meta) : Prop :=
  (l.filter (visible O H)).map (Meta.core rep) = (l'.filter (visible O H)).map (Meta.core rep)

/-! ## Updates -/

theorem takeWhile_eq_filter (ho : Ordered (l.map Meta.key)) (k : Key) :
    (l.takeWhile fun x => x.key.lt k) = l.filter fun x => x.key.lt k := by
  conv_rhs => rw [← List.takeWhile_append_dropWhile (p := fun x : Meta => x.key.lt k) (l := l)]
  rw [List.filter_append, List.filter_eq_self.mpr fun x hx =>
      List.mem_takeWhile_imp (p := fun x : Meta => x.key.lt k) hx,
    List.filter_eq_nil_iff.mpr fun x hx => by simp [ho.split k x hx], List.append_nil]

theorem dropWhile_eq_filter (ho : Ordered (l.map Meta.key)) (k : Key) :
    (l.dropWhile fun x => x.key.lt k) = l.filter fun x => !x.key.lt k := by
  conv_rhs => rw [← List.takeWhile_append_dropWhile (p := fun x : Meta => x.key.lt k) (l := l)]
  rw [List.filter_append, List.filter_eq_nil_iff.mpr fun x hx => by
      simpa using List.mem_takeWhile_imp (p := fun x : Meta => x.key.lt k) hx, List.nil_append,
    List.filter_eq_self.mpr fun x hx => by simp [ho.split k x hx]]

theorem Ordered.filter (ho : Ordered (l.map Meta.key)) (p : Meta → Bool) :
    Ordered ((l.filter p).map Meta.key) :=
  ho.sublist (List.filter_sublist.map _)

theorem filter_insert (ho : Ordered (l.map Meta.key)) (p : Meta → Bool) :
    (Leaves.insert l m).filter p = if p m then Leaves.insert (l.filter p) m else l.filter p := by
  have hof := ho.filter p
  have hc : ∀ q : Meta → Bool, (l.filter q).filter p = (l.filter p).filter q := fun q => by
    rw [List.filter_filter, List.filter_filter]
    exact List.filter_congr fun x _ => Bool.and_comm _ _
  have hl := List.takeWhile_append_dropWhile (p := fun x : Meta => x.key.lt m.key) (l := l.filter p)
  rw [takeWhile_eq_filter hof, dropWhile_eq_filter hof] at hl
  unfold Leaves.insert
  rw [takeWhile_eq_filter ho, dropWhile_eq_filter ho, takeWhile_eq_filter hof, dropWhile_eq_filter hof,
    List.filter_append, List.filter_cons, hc, hc]
  split_ifs
  · rfl
  · exact hl

theorem map_insert (l : List Meta) (m : Meta) :
    (Leaves.insert l m).map (Meta.core rep) = Leaves.insert (l.map (Meta.core rep)) (m.core rep) := by
  simp only [Leaves.insert, List.map_append, List.map_cons, List.takeWhile_map, List.dropWhile_map,
    Function.comp_def, Meta.core_key]

theorem filter_del {p : Meta → Bool} : ∀ {l : List Meta}, (∀ x ∈ l, Leaves.hits m x = true → p x = true) →
    (Leaves.del l m).filter p = Leaves.del (l.filter p) m
  | [], _ => rfl
  | x :: l, h => by
    have ih := filter_del (l := l) fun y hy => h y (List.mem_cons_of_mem _ hy)
    unfold Leaves.del at ih ⊢
    by_cases hx : Leaves.hits m x = true
    · rw [List.eraseP_cons_of_pos hx, List.filter_cons_of_pos (h x List.mem_cons_self hx),
        List.eraseP_cons_of_pos hx]
    · by_cases hp : p x = true
      · rw [List.eraseP_cons_of_neg hx, List.filter_cons_of_pos hp, List.filter_cons_of_pos hp,
          List.eraseP_cons_of_neg hx, ih]
      · rw [List.eraseP_cons_of_neg hx, List.filter_cons_of_neg hp, List.filter_cons_of_neg hp, ih]

theorem map_del (l : List Meta) (m : Meta) :
    (Leaves.del l m).map (Meta.core rep) = Leaves.del (l.map (Meta.core rep)) m := by
  unfold Leaves.del
  rw [List.eraseP_map]
  simp only [Function.comp_def, hits_core_right]

theorem filter_update {p : Meta → Bool} {k : Key} {g : Meta → Meta} :
    ∀ {l : List Meta}, (∀ x ∈ l, x.key.eqv k = true → p x = true ∧ p (g x) = true) →
      (Leaves.update l k g).filter p = Leaves.update (l.filter p) k g
  | [], _ => rfl
  | x :: l, h => by
    have ih := filter_update (l := l) fun y hy => h y (List.mem_cons_of_mem _ hy)
    rw [Leaves.update]
    split_ifs with hk
    · obtain ⟨hx, hg⟩ := h x List.mem_cons_self hk
      rw [List.filter_cons_of_pos hg, List.filter_cons_of_pos hx, Leaves.update, if_pos hk]
    · rw [List.filter_cons, List.filter_cons, ih]
      split_ifs
      · rw [Leaves.update, if_neg hk]
      · rfl

/-- Overwritings of items with equal cores by items with equal cores. -/
theorem map_update {k : Key} {g g' : Meta → Meta} : ∀ {l l' : List Meta},
    (∀ x x' : Meta, x.key.eqv k = true → x.core rep = x'.core rep → (g x).core rep = (g' x').core rep) →
    l.map (Meta.core rep) = l'.map (Meta.core rep) →
    (Leaves.update l k g).map (Meta.core rep) = (Leaves.update l' k g').map (Meta.core rep)
  | [], [], _, _ => rfl
  | [], x :: l', _, h => by simp at h
  | x :: l, [], _, h => by simp at h
  | x :: l, x' :: l', hg, h => by
    rw [List.map_cons, List.map_cons] at h
    obtain ⟨hx, ht⟩ := List.cons.inj h
    have hkey : x.key = x'.key := by rw [← @Meta.core_key rep x, hx, Meta.core_key]
    rw [Leaves.update, Leaves.update, ← hkey]
    split_ifs with hk
    · rw [List.map_cons, List.map_cons, hg x x' hk hx, ht]
    · rw [List.map_cons, List.map_cons, hx, map_update hg ht]

namespace Same

theorem insert (h : Same rep O H l l') (ho : Ordered (l.map Meta.key)) (ho' : Ordered (l'.map Meta.key))
    (hm : m.core rep = m'.core rep) : Same rep O H (Leaves.insert l m) (Leaves.insert l' m') := by
  have hv : visible O H m = visible O H m' := by
    rw [← @visible_core rep O H m, hm, visible_core]
  unfold Same at h ⊢
  rw [filter_insert ho, filter_insert ho', ← hv]
  split_ifs
  · rw [map_insert, map_insert, h, hm]
  · exact h

/-- A removal of visible items on both sides. -/
theorem delOk (h : Same rep O H l l') (hhits : ∀ x, Leaves.hits m x = Leaves.hits m' x)
    (hv : ∀ x ∈ l, Leaves.hits m x = true → visible O H x = true)
    (hv' : ∀ x ∈ l', Leaves.hits m x = true → visible O H x = true) (hd : Leaves.delOk l m = some l₁) :
    ∃ l₁', Leaves.delOk l' m' = some l₁' ∧ Same rep O H l₁ l₁' := by
  have hfun : Leaves.hits m' = Leaves.hits m := funext fun x => (hhits x).symm
  unfold Leaves.delOk at hd
  split_ifs at hd with hany
  obtain rfl := Option.some.inj hd
  have hany' : l'.any (Leaves.hits m') = true := by
    obtain ⟨x, hx, hh⟩ := List.any_eq_true.mp hany
    have hmem : x.core rep ∈ (l'.filter (visible O H)).map (Meta.core rep) := by
      rw [← h]
      exact List.mem_map_of_mem (List.mem_filter.mpr ⟨hx, hv x hx hh⟩)
    obtain ⟨y, hy, he⟩ := List.mem_map.mp hmem
    refine List.any_eq_true.mpr ⟨y, (List.mem_filter.mp hy).1, ?_⟩
    rw [hfun, ← @hits_core_right rep, he, hits_core_right, hh]
  refine ⟨Leaves.del l' m', if_pos hany', ?_⟩
  have hdel : ∀ l : List Meta, Leaves.del l m' = Leaves.del l m := fun l => by
    unfold Leaves.del
    rw [hfun]
  unfold Same at h ⊢
  rw [hdel, filter_del hv, filter_del hv', map_del, map_del, h]

theorem update {k : Key} {g g' : Meta → Meta} (h : Same rep O H l l')
    (hv : ∀ x ∈ l, x.key.eqv k = true → visible O H x = true ∧ visible O H (g x) = true)
    (hv' : ∀ x ∈ l', x.key.eqv k = true → visible O H x = true ∧ visible O H (g' x) = true)
    (hg : ∀ x x' : Meta, x.key.eqv k = true → x.core rep = x'.core rep → (g x).core rep = (g' x').core rep) :
    Same rep O H (Leaves.update l k g) (Leaves.update l' k g') := by
  unfold Same
  rw [filter_update hv, filter_update hv']
  exact map_update hg h

end Same

/-! ## Reading -/

theorem dentries_core (l : List Meta) : dentries (l.map (Meta.core rep)) = dentries l := by
  unfold dentries
  rw [List.filterMap_map]
  exact List.filterMap_congr fun x _ => by cases x <;> rfl

theorem chunks_core (l : List Meta) : chunks (l.map (Meta.core rep)) = chunks l := by
  unfold chunks
  rw [List.filterMap_map]
  exact List.filterMap_congr fun x _ => by cases x <;> rfl

theorem fattrs_core (l : List Meta) : fattrs (l.map (Meta.core rep)) = (fattrs l).map (MetaFattr.core rep) := by
  unfold fattrs
  rw [List.filterMap_map, List.map_filterMap]
  exact List.filterMap_congr fun x _ => by cases x <;> rfl

theorem dentries_filter (l : List Meta) : dentries (l.filter (visible O H)) =
    (dentries l).filter fun d => decide (d.dir ∉ O ∧ d.id ∉ H) := by
  unfold dentries
  rw [List.filterMap_filter, List.filter_filterMap]
  exact List.filterMap_congr fun x _ => by cases x <;> simp [visible, Meta.dentry?, Option.filter]

theorem fattrs_filter (l : List Meta) : fattrs (l.filter (visible O H)) =
    (fattrs l).filter fun f => decide (f.id ∉ H) := by
  unfold fattrs
  rw [List.filterMap_filter, List.filter_filterMap]
  exact List.filterMap_congr fun x _ => by cases x <;> simp [visible, Meta.fattr?, Option.filter]

theorem chunks_filter (l : List Meta) : chunks (l.filter (visible O H)) =
    (chunks l).filter fun c => decide (c.id ∉ H) := by
  unfold chunks
  rw [List.filterMap_filter, List.filter_filterMap]
  exact List.filterMap_congr fun x _ => by cases x <;> simp [visible, Meta.chunkinfo?, Option.filter]

namespace Same

variable (h : Same rep O H l l')

include h

theorem dentries : ((dentries l).filter fun d => decide (d.dir ∉ O ∧ d.id ∉ H)) =
    (Kfs.dentries l').filter fun d => decide (d.dir ∉ O ∧ d.id ∉ H) := by
  rw [← dentries_filter, ← dentries_filter, ← @dentries_core rep, h, dentries_core]

theorem fattrs : ((fattrs l).filter fun f => decide (f.id ∉ H)).map (MetaFattr.core rep) =
    ((Kfs.fattrs l').filter fun f => decide (f.id ∉ H)).map (MetaFattr.core rep) := by
  rw [← fattrs_filter (O := O), ← fattrs_filter (O := O), ← fattrs_core, h, fattrs_core]

theorem chunks : ((chunks l).filter fun c => decide (c.id ∉ H)) =
    (Kfs.chunks l').filter fun c => decide (c.id ∉ H) := by
  rw [← chunks_filter (O := O), ← chunks_filter (O := O), ← @chunks_core rep, h, chunks_core]

/-- The entries of a directory that is compared. -/
theorem dents {dir : ℤ} (hd : dir ∉ O) : ((dents l dir).filter fun d => decide (d.id ∉ H)) =
    (Kfs.dents l' dir).filter fun d => decide (d.id ∉ H) := by
  have hf : ∀ l : List Meta, ((Kfs.dents l dir).filter fun d => decide (d.id ∉ H)) =
      ((Kfs.dentries l).filter fun d => decide (d.dir ∉ O ∧ d.id ∉ H)).filter fun d =>
        decide (d.dir = dir) := by
    intro l
    rw [Kfs.dents, List.filter_filter, List.filter_filter]
    refine List.filter_congr fun d _ => ?_
    by_cases he : d.dir = dir
    · simp [he, hd]
    · simp [he]
  rw [hf, hf, h.dentries]

theorem getFattr (hi : fid ∉ H) :
    (getFattr l fid).map (MetaFattr.core rep) = (Kfs.getFattr l' fid).map (MetaFattr.core rep) := by
  have hf : ∀ l : List Meta, (Kfs.getFattr l fid).map (MetaFattr.core rep) =
      (((Kfs.fattrs l).filter fun f => decide (f.id ∉ H)).map (MetaFattr.core rep)).find?
        fun f => decide (f.id = fid) := by
    intro l
    rw [getFattr_eq, List.find?_map, List.find?_filter]
    congr 1
    congr 1
    funext f
    by_cases he : f.id = fid
    · simp [he, hi, MetaFattr.core]
    · simp [he, MetaFattr.core]
  rw [hf, hf, h.fattrs]

theorem getalloc (hi : fid ∉ H) : getalloc l fid = Kfs.getalloc l' fid := by
  have hf : ∀ l : List Meta, Kfs.getalloc l fid =
      ((Kfs.chunks l).filter fun c => decide (c.id ∉ H)).filter fun c => decide (c.id = fid) := by
    intro l
    rw [getalloc_eq, List.filter_filter]
    refine List.filter_congr fun c _ => ?_
    by_cases he : c.id = fid
    · simp [he, hi]
    · simp [he]
  rw [hf, hf, h.chunks]

theorem getChunk (hi : fid ∉ H) (b : ℤ) : getChunk l fid b = Kfs.getChunk l' fid b := by
  have hf : ∀ l : List Meta, Kfs.getChunk l fid b =
      ((Kfs.chunks l).filter fun c => decide (c.id ∉ H)).find? fun c =>
        decide (c.id = fid ∧ (c.offset = b ∨ c.offset = -1 ∨ b = -1)) := by
    intro l
    rw [getChunk_eq, List.find?_filter]
    congr 1
    funext c
    by_cases he : c.id = fid
    · simp [he, hi]
    · simp [he]
  rw [hf, hf, h.chunks]

/-- The attributes of an id that is compared are there on both sides, with the same core. -/
theorem getFattr_some (hi : fid ∉ H) {f : MetaFattr} (hf : Kfs.getFattr l fid = some f) :
    ∃ f', Kfs.getFattr l' fid = some f' ∧ f'.core rep = f.core rep := by
  have := h.getFattr hi
  rw [hf, Option.map_some] at this
  obtain ⟨f', hf', he⟩ := Option.map_eq_some_iff.mp this.symm
  exact ⟨f', hf', he⟩

end Same

end Kfs
