import Kfs.Tree.Levels
import Kfs.Leaves

/-!
# Searching the tree

* **`Shape.ordered`**: when the items are ordered, every level is;
* `Place h k l n p`: in the level `l`, the search key `k` belongs at position `p` of node `n`;
* `Place.root`, **`Place.descend`**: a descent by `findplace` keeps to the place of the key;
-/

namespace Kfs

open Lib

variable {h : NodeId → Node} {k : Key} {t : Tree} {lv : ℕ → List NodeId} {items : List Meta}
  {i : ℕ} {n c : NodeId} {p : ℕ} {l A B : List NodeId}

/-! ## Order -/

theorem map_key_leafEntries (items : List Meta) :
    (leafEntries items).map Entry.key = items.map Meta.key ++ [Key.sentinel] := by
  simp [leafEntries, Function.comp_def]

theorem ordered_leafEntries (ho : Ordered (items.map Meta.key)) :
    Ordered ((leafEntries items).map Entry.key) := by
  rw [map_key_leafEntries]
  constructor
  · refine List.pairwise_append.mpr ⟨ho.1, List.pairwise_singleton _ _, fun a ha b hb => ?_⟩
    obtain ⟨m, -, rfl⟩ := List.mem_map.mp ha
    rw [List.mem_singleton.mp hb]
    exact Key.le_of_lt m.key_lt_sentinel
  · intro k hk
    rcases List.mem_append.mp hk with hk | hk
    · exact ho.2 k hk
    · rw [List.mem_singleton.mp hk]
      exact Meta.plain_sentinel

/-- **Every level is ordered.** -/
theorem Shape.ordered (hs : Shape t t.keyOf lv items)
    (ho : Ordered (items.map Meta.key)) : ∀ i < t.hgt,
    Ordered ((ents t.heap (lv i)).map Entry.key)
  | 0, hi => by
    rw [hs.entry 0 hi]
    exact ordered_leafEntries ho
  | i + 1, hi => by
    have hk := keys_sublist (hs.entry_ne_nil (i := i) (by omega))
    rw [hs.entry (i + 1) hi, below, nodeEntries, List.map_map]
    exact (hs.ordered ho i (by omega)).sublist hk

theorem Ordered.le_getLast {es : List Entry} (ho : Ordered (es.map Entry.key)) (hne : es ≠ [])
    {e : Entry} (he : e ∈ es) :
    e.key.Plain ∧ (es.getLast hne).key.Plain ∧ (es.getLast hne).key.lt e.key = false := by
  refine ⟨ho.2 _ (List.mem_map_of_mem he), ho.2 _ (List.mem_map_of_mem (List.getLast_mem hne)), ?_⟩
  have hpw := ho.1
  rw [← List.dropLast_append_getLast hne] at he hpw
  rcases List.mem_append.mp he with he | he
  · rw [List.map_append, List.pairwise_append] at hpw
    exact hpw.2.2 _ (List.mem_map_of_mem he) _ (by simp)
  · rw [List.mem_singleton.mp he]
    exact Key.lt_irrefl _

theorem Shape.ordered_node (hs : Shape t t.keyOf lv items)
    (ho : Ordered (items.map Meta.key)) (hi : i < t.hgt) :
    ∀ n ∈ lv i, Ordered ((t.heap n).entry.map Entry.key) := by
  intro n hn
  obtain ⟨A, B, hl⟩ := List.append_of_mem hn
  refine (hs.ordered ho i hi).sublist (List.Sublist.map _ ?_)
  rw [hl, ents_append, ents_cons]
  exact List.sublist_append_of_sublist_right (List.sublist_append_left _ _)

/-- The last entry of every level has the key of the sentinel. -/
theorem Shape.getLast?_key (hs : Shape t t.keyOf lv items) : ∀ i < t.hgt,
    (ents t.heap (lv i)).getLast?.map Entry.key = some Key.sentinel
  | 0, hi => by
    rw [hs.entry 0 hi, below, leafEntries]
    simp
  | i + 1, hi => by
    rw [hs.entry (i + 1) hi, below]
    exact (getLast?_nodeEntries (hs.entry_ne_nil (by omega))).trans
      (hs.getLast?_key i (by omega))

/-! ## The place of a key -/

/-- Position `p` of node `n` is where `k` belongs in the level `l`. -/
def Place (h : NodeId → Node) (k : Key) (l : List NodeId) (n : NodeId) (p : ℕ) : Prop :=
  ∃ A B, l = A ++ n :: B ∧ p ≤ (h n).count ∧
    (∀ e ∈ ents h A ++ (h n).entry.take p, e.key.lt k = true) ∧
    ∀ e ∈ (h n).entry.drop p ++ ents h B, e.key.lt k = false

theorem Place.mem (hp : Place h k l n p) : n ∈ l := by
  obtain ⟨A, B, rfl, -⟩ := hp
  simp

/-- Between nodes that hold only smaller keys and nodes that hold none, `findplace` finds the
place. -/
theorem place_findplace (ho : Ordered ((ents h (A ++ n :: B)).map Entry.key))
    (hA : ∀ e ∈ ents h A, e.key.lt k = true) (hB : ∀ e ∈ ents h B, e.key.lt k = false) :
    Place h k (A ++ n :: B) n ((h n).findplace k) := by
  have hn : Ordered ((h n).entry.map Entry.key) := by
    refine ho.sublist (List.Sublist.map _ ?_)
    rw [ents_append, ents_cons]
    exact List.sublist_append_of_sublist_right (List.sublist_append_left _ _)
  have hsp := hn.split k
  refine ⟨A, B, rfl, lowerBound_le _ _, fun e he => ?_, fun e he => ?_⟩
  · rcases List.mem_append.mp he with he | he
    · exact hA e he
    · rw [Node.findplace, take_lowerBound hsp] at he
      exact List.mem_takeWhile_imp (p := fun e : Entry => e.key.lt k) he
  · rcases List.mem_append.mp he with he | he
    · rw [Node.findplace, drop_lowerBound hsp] at he
      exact hsp e he
    · exact hB e he

theorem Place.lt_count (hp : Place h k l n p) (hl : (h n).entry ≠ [])
    (hk : ((h n).entry.getLast hl).key.lt k = false) : p < (h n).count := by
  obtain ⟨A, B, -, hle, hlt, -⟩ := hp
  refine lt_of_le_of_ne hle fun he => ?_
  have := hlt ((h n).entry.getLast hl) ?_
  · rw [hk] at this
    exact Bool.false_ne_true this
  · rw [he, Node.count, List.take_length]
    exact List.mem_append_right _ (List.getLast_mem hl)

theorem Node.key_eq_getLast {nd : Node} (hl : nd.entry ≠ []) : nd.key = (nd.entry.getLast hl).key := by
  rw [Node.key, List.getLast?_eq_getLast_of_ne_nil hl]
  rfl

/-- A descent starts at the place of the key in the root. -/
theorem Place.root (hs : Shape t t.keyOf lv items)
    (ho : Ordered (items.map Meta.key)) (hk : Key.sentinel.lt k = false) :
    Place t.heap k (lv (t.hgt - 1)) t.root ((t.heap t.root).findplace k) ∧
      (t.heap t.root).findplace k < (t.heap t.root).count := by
  have hi : t.hgt - 1 < t.hgt := Nat.sub_lt hs.hgt_pos one_pos
  have hpl : Place t.heap k ([] ++ t.root :: []) t.root ((t.heap t.root).findplace k) := by
    refine place_findplace ?_ (by simp) (by simp)
    have := hs.ordered ho _ hi
    rwa [hs.root] at this
  have hne := hs.entry_ne_nil hi t.root (by simp [hs.root])
  rw [hs.root]
  refine ⟨hpl, hpl.lt_count hne ?_⟩
  have hlast := hs.getLast?_key _ hi
  rw [hs.root, ents_cons, ents_nil, List.append_nil,
    List.getLast?_eq_getLast_of_ne_nil hne, Option.map_some, Option.some_inj] at hlast
  rwa [hlast]

/-- **One step of a descent.** The child at the place of the key has the place of the key in the
level below. -/
theorem Place.descend (hs : Shape t t.keyOf lv items)
    (ho : Ordered (items.map Meta.key)) (hi : i + 1 < t.hgt)
    (hp : Place t.heap k (lv (i + 1)) n p) (hlt : p < (t.heap n).count) :
    ∃ c, (t.heap n).child p = some c ∧ Place t.heap k (lv i) c ((t.heap c).findplace k) ∧
      (t.heap c).findplace k < (t.heap c).count := by
  obtain ⟨P, Q, hup, -, hsm, hge⟩ := hp
  obtain ⟨lP, K, lQ, hlo, hP, hK, hQ⟩ := hs.father hi hup
  have hpK : p < K.length := by rwa [Node.count, hK, length_nodeEntries] at hlt
  obtain ⟨K₁, c, K₂, hKc, hK₁⟩ : ∃ K₁ c K₂, K = K₁ ++ c :: K₂ ∧ K₁.length = p :=
    ⟨K.take p, K[p], K.drop (p + 1), by simp, by simp; omega⟩
  have hlo' : lv i = (lP ++ K₁) ++ c :: (K₂ ++ lQ) := by simp [hlo, hKc]
  have ho' := hs.ordered ho i (by omega)
  have hcne := hs.entry_ne_nil (i := i) (by omega) c (by simp [hlo'])
  rw [hlo'] at ho'
  rw [hK, hKc, nodeEntries_append, ← hK₁] at hsm hge
  rw [List.take_left' (length_nodeEntries K₁), hP, ← nodeEntries_append] at hsm
  rw [List.drop_left' (length_nodeEntries K₁)] at hge
  have hck : ((t.heap c).entry.getLast hcne).key.lt k = false := by
    rw [← Node.key_eq_getLast hcne]
    exact hge ⟨t.keyOf c, .node c⟩ (by simp)
  have hpl : Place t.heap k (lv i) c ((t.heap c).findplace k) := by
    rw [hlo']
    refine place_findplace ho' (fun e he => ?_) (fun e he => ?_)
    · -- left of `c`: the keys of the nodes are below `k`
      obtain ⟨a, ha, hea⟩ := List.mem_flatMap.mp he
      have ham : a ∈ lv i := hlo' ▸ List.mem_append_left _ ha
      have hane := hs.entry_ne_nil (i := i) (by omega) a ham
      have hak : (t.heap a).key.lt k = true :=
        hsm ⟨t.keyOf a, .node a⟩ (mem_nodeEntries ha)
      obtain ⟨hpl₁, hpl₂, hle⟩ :=
        (hs.ordered_node (i := i) ho (by omega) a ham).le_getLast hane hea
      rw [Node.key_eq_getLast hane] at hak
      exact Key.lt_of_le_of_lt hpl₁ hpl₂ hle hak
    · -- right of `c`: not before the last key of `c`
      rw [ents_append, ents_cons, List.map_append, List.map_append] at ho'
      have h₁ := (List.pairwise_append.mp (List.pairwise_append.mp ho'.1).2.1).2.2
        _ (List.mem_map_of_mem (List.getLast_mem hcne)) _ (List.mem_map_of_mem he)
      by_contra hek
      rw [Bool.not_eq_false] at hek
      have := Key.lt_of_le_of_lt (ho'.2 _ ?_) (ho'.2 _ ?_) h₁ hek
      · rw [hck] at this
        exact Bool.false_ne_true this
      · simp only [List.mem_append]
        exact Or.inr (Or.inl (List.mem_map_of_mem (List.getLast_mem hcne)))
      · simp only [List.mem_append]
        exact Or.inr (Or.inr (List.mem_map_of_mem he))
  refine ⟨c, ?_, hpl, hpl.lt_count hcne hck⟩
  rw [Node.child_of_entry hK, hKc, ← hK₁]
  simp

/-- The entries of the leaf level on both sides of the place of a key. -/
theorem leafEntries_split {X Y : List Entry} (ho : Ordered (items.map Meta.key))
    (hk : Key.sentinel.lt k = false) (he : X ++ Y = leafEntries items)
    (hX : ∀ e ∈ X, e.key.lt k = true) (hY : ∀ e ∈ Y, e.key.lt k = false) :
    X = (items.takeWhile fun x => x.key.lt k).map (fun m => ⟨m.key, .leaf (some m)⟩) ∧
      Y = leafEntries (items.dropWhile fun x => x.key.lt k) := by
  let g : Meta → Entry := fun x => ⟨x.key, .leaf (some x)⟩
  let q : Entry → Bool := fun e => e.key.lt k
  have hsp := ho.split k
  set I₁ := items.takeWhile fun x => x.key.lt k with hI₁
  set I₂ := items.dropWhile fun x => x.key.lt k with hI₂
  have hitems : leafEntries items = I₁.map g ++ leafEntries I₂ := by
    rw [leafEntries, leafEntries, ← List.append_assoc, ← List.map_append, hI₁, hI₂,
      List.takeWhile_append_dropWhile]
  have h₁ : ∀ e ∈ I₁.map g, q e = true := by
    intro e he
    obtain ⟨x, hx, rfl⟩ := List.mem_map.mp he
    exact List.mem_takeWhile_imp (p := fun x : Meta => x.key.lt k) hx
  have h₂ : ∀ e ∈ leafEntries I₂, q e = false := by
    intro e he
    rcases List.mem_append.mp he with he | he
    · obtain ⟨x, hx, rfl⟩ := List.mem_map.mp he
      exact hsp x hx
    · rw [List.mem_singleton.mp he]
      exact hk
  constructor
  · rw [← takeWhile_append_of_split (p := q) hX hY, he, hitems, takeWhile_append_of_split h₁ h₂]
  · rw [← dropWhile_append_of_split (p := q) hX hY, he, hitems, dropWhile_append_of_split h₁ h₂]

end Kfs
