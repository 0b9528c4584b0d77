import Kfs.Tree.Lookup
import Kfs.Tree.Run

/-!
# Lookup and deletion on every reachable tree

* `Tree.find`: `findLeaf` and the scan of `extractAll`, as the callers put them together;
* `find_run`, `del_run`: what they do on the tree of a run, in terms of the items it holds;
* **`find_del_exact`**: lookup returns the items with the key in leaf order, and deletion takes
  exactly one item that its argument hits.
-/

namespace Kfs

variable {t : Tree} {lv : ℕ → List NodeId} {items : List Meta}

/-- `findLeaf`, and `extractAll` from the node it returns; no items where it returns NULL. -/
def Tree.find (t : Tree) (k : Key) : Option (List Meta) := do
  match ← t.findLeaf k with
  | none => return []
  | some n => t.extractAll n k

/-- **Lookup** returns the items with the key, and `findLeaf` is NULL exactly when there is none. -/
theorem find_run (hs : Shape t t.keyOf lv items) (ho : Ordered (items.map Meta.key)) {k : Key}
    (hk : k.lt Key.sentinel = true) :
    t.find k = some (items.filter fun x => x.key.eqv k) ∧ (t.findLeaf k).isSome = true ∧
      (t.findLeaf k = some none ↔ ∀ x ∈ items, x.key.eqv k = false) := by
  have hnil : Leaves.find items k = [] ↔ ∀ x ∈ items, x.key.eqv k = false := by
    simp only [Leaves.find, List.filter_eq_nil_iff, Bool.not_eq_true]
  rcases findLeaf_spec hs ho hk with ⟨hl, hf⟩ | ⟨n, hl, hx, hne⟩
  · have hfind : t.find k = some [] := by
      rw [Tree.find, hl]
      rfl
    refine ⟨?_, ?_, ?_⟩
    · rw [hfind, ← hf]
      rfl
    · rw [hl]
      rfl
    · exact iff_of_true hl (hnil.mp hf)
  · have hfind : t.find k = t.extractAll n k := by
      rw [Tree.find, hl]
      rfl
    refine ⟨?_, ?_, ?_⟩
    · rw [hfind, hx]
      rfl
    · rw [hl]
      rfl
    · refine iff_of_false ?_ fun h => hne (hnil.mpr h)
      rw [hl]
      simp

/-- **Deletion.** It takes one item that `m` hits, or reports that there is none, or stops at the
assertion of `closeHole` because the item is the only child of its level-one node. -/
theorem del_run (hs : Shape t t.keyOf lv items) (ho : Ordered (items.map Meta.key)) (m : Meta) :
    ((∀ x ∈ items, Leaves.hits m x = false) ∧ t.del m = some (t, -1)) ∨
    ∃ x ∈ items, Leaves.hits m x = true ∧
      ((∃ t', t.del m = some (t', 0) ∧ t'.leafItems = (items.eraseP (Leaves.hits m)).map some ++ [none] ∧
          List.Perm items (x :: items.eraseP (Leaves.hits m))) ∨
        (t.del m = none ∧ ∃ n ∈ t.level (t.hgt - 1), ∃ y, Leaves.hits m y = true ∧
          (t.heap n).entry = [⟨y.key, .leaf (some y)⟩])) := by
  have hpos := hs.hgt_pos
  rcases del_spec hs ho m with ⟨hd, hno⟩ | ⟨y, n, pos, path, A, B, hfh, hcase⟩
  · exact Or.inl ⟨hno, hd⟩
  · right
    have hhits := hfh.hits
    have hex : ∃ x ∈ items, Leaves.hits m x = true ∧ List.Perm items (x :: Leaves.del items m) := by
      rcases Leaves.del_perm items m with hp | ⟨hno, -⟩
      · exact hp
      · rw [hno y (hfh.mem hs)] at hhits
        exact absurd hhits Bool.false_ne_true
    obtain ⟨x, hx, hhit, hperm⟩ := hex
    refine ⟨x, hx, hhit, ?_⟩
    rcases hcase with ⟨hc, hd⟩ | ⟨t', lv', hd, hs'⟩
    · refine Or.inr ⟨hd, n, ?_, y, hfh.hits, hfh.entry_eq hc⟩
      rw [hs.level_eq _ (by omega), Nat.sub_self, hfh.level]
      simp
    · exact Or.inl ⟨t', hd, hs'.leafItems_eq, hperm⟩

/-- **Lookup and deletion are exact.** On the tree of any run of insertions of items without the
wildcard and of deletions, `findLeaf` and `extractAll` return the items with the key, all of them
and in leaf order, and `Tree.del` takes exactly one item with the key of its argument that its
argument matches. -/
theorem find_del_exact (ops : List TreeOp) (hp : ∀ m, TreeOp.insert m ∈ ops → m.key.Plain) (t : Tree)
    (h : Tree.run ops = some t) :
    let items := Leaves.run ops
    t.leafItems = items.map some ++ [none] ∧ Ordered (items.map Meta.key) ∧
      (∀ k : Key, k.lt Key.sentinel = true →
        t.find k = some (items.filter fun x => x.key.eqv k) ∧ (t.findLeaf k).isSome = true ∧
          (t.findLeaf k = some none ↔ ∀ x ∈ items, x.key.eqv k = false)) ∧
      ∀ m : Meta,
        ((∀ x ∈ items, Leaves.hits m x = false) ∧ t.del m = some (t, -1)) ∨
        ∃ x ∈ items, Leaves.hits m x = true ∧
          ((∃ t', t.del m = some (t', 0) ∧
              t'.leafItems = (items.eraseP (Leaves.hits m)).map some ++ [none] ∧
              List.Perm items (x :: items.eraseP (Leaves.hits m))) ∨
            (t.del m = none ∧ ∃ n ∈ t.level (t.hgt - 1), ∃ y, Leaves.hits m y = true ∧
              (t.heap n).entry = [⟨y.key, .leaf (some y)⟩])) := by
  obtain ⟨lv, hs⟩ := run_spec hp h
  have ho := Leaves.ordered_run hp
  exact ⟨hs.leafItems_eq, ho, fun k hk => find_run hs ho hk, fun m => del_run hs ho m⟩

/-- Two chunks of a file and one of another, found with the wildcard; a deletion of a third. -/
theorem find_del_chunks :
    let ops : List TreeOp := [.insert (chunkAt 3), .insert (chunkAt 1),
      .insert (.chunkinfo ⟨6, 0, 9, 1⟩)]
    ∃ t, Tree.run ops = some t ∧ t.find ⟨.chunkinfo, 5, Key.matchAny⟩ = some [chunkAt 1, chunkAt 3] ∧
      t.del (chunkAt 2) = some (t, -1) := by
  intro ops
  have hsome : (Tree.run ops).isSome = true := by decide +kernel
  obtain ⟨t, ht⟩ := Option.isSome_iff_exists.mp hsome
  obtain ⟨-, -, hfind, hdel⟩ := find_del_exact ops (by simp [ops, chunkAt, Meta.key]; decide) t ht
  refine ⟨t, ht, ?_, ?_⟩
  · rw [(hfind ⟨.chunkinfo, 5, Key.matchAny⟩ (by decide)).1]
    decide +kernel
  · have hno : ∀ x ∈ Leaves.run ops, Leaves.hits (chunkAt 2) x = false := by decide +kernel
    rcases hdel (chunkAt 2) with ⟨-, hd⟩ | ⟨x, hx, hhit, -⟩
    · exact hd
    · rw [hno x hx] at hhit
      exact absurd hhit Bool.false_ne_true

/-- With the wildcard among the inserted keys, an item of the tree is neither found nor deleted. -/
theorem wildcard_hides :
    let ops : List TreeOp := [.insert (chunkAt 3), .insert (chunkAt (-1)), .insert (chunkAt 2),
      .insert (chunkAt 1), .insert (chunkAt 9)]
    ∃ t, Tree.run ops = some t ∧ some (chunkAt 3) ∈ t.leafItems ∧
      t.findLeaf (chunkAt 3).key = some none ∧ (t.del (chunkAt 3)).map Prod.snd = some (-1) := by
  intro ops
  have hrun : (Tree.run ops).map (fun t => decide (some (chunkAt 3) ∈ t.leafItems ∧
      t.findLeaf (chunkAt 3).key = some none ∧ (t.del (chunkAt 3)).map Prod.snd = some (-1))) =
      some true := by
    decide +kernel
  obtain ⟨t, ht, hd⟩ := Option.map_eq_some_iff.mp hrun
  exact ⟨t, ht, of_decide_eq_true hd⟩

end Kfs
