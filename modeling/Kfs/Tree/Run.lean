import Kfs.Tree.Del
import Mathlib.Data.Multiset.Basic

/-!
# Runs of insertions and deletions

* `Tree.WF t items`: the representation invariant, in terms of the nodes at each depth below the
  root (`Tree.level`) and of the items read along the leaf level (`Tree.leafItems`);
* `Tree.run`, `Leaves.run`: sequences of operations on the tree and on the sequence of items;
  `Bag`: the items inserted and not yet deleted;
* **`run_wf`**: after every operation the invariant holds of the items that the operations left.
-/

namespace Kfs

open Lib

variable {t : Tree} {lv : ℕ → List NodeId} {items : List Meta}

/-! ## The representation invariant -/

/-- The children of a node that are nodes. -/
def Node.kids (nd : Node) : List NodeId := nd.entry.filterMap fun e => e.child.node?

/-- The item a child pointer denotes. -/
def Child.leaf? : Child → Option (Option Meta)
  | .leaf m => some m
  | .node _ => none

/-- The items of a node. -/
def Node.leaves (nd : Node) : List (Option Meta) := nd.entry.filterMap fun e => e.child.leaf?

/-- The nodes at depth `d` below the root, from left to right. -/
def Tree.level (t : Tree) : ℕ → List NodeId
  | 0 => [t.root]
  | d + 1 => (t.level d).flatMap fun n => (t.heap n).kids

/-- The items at the leaf level, read from `first` along the peer pointers. -/
def Tree.leafItems (t : Tree) : List (Option Meta) :=
  (Lib.walk (fun n => (t.heap n).next) t.fresh t.first).flatMap fun n => (t.heap n).leaves

/-- The representation invariant: `t` holds `items`. -/
structure Tree.WF (t : Tree) (items : List Meta) : Prop where
  /-- the nodes with leaf items are those at depth `hgt - 1` -/
  depth : 0 < t.hgt ∧ ∀ d < t.hgt, ∀ n ∈ t.level d, ((t.heap n).level1 = true ↔ d + 1 = t.hgt) ∧
    ∀ e ∈ (t.heap n).entry, e.child.node? = none ↔ (t.heap n).level1 = true
  sorted : ∀ d < t.hgt, ∀ n ∈ t.level d,
    ((t.heap n).entry.map Entry.key).Pairwise fun a b => a.compare b ≤ 0
  keys : ∀ d < t.hgt, ∀ n ∈ t.level d, ∀ e ∈ (t.heap n).entry, ∀ c, e.child = .node c →
    e.key = (t.heap c).key
  count : ∀ d < t.hgt, ∀ n ∈ t.level d, 1 ≤ (t.heap n).count ∧ (t.heap n).count ≤ NKEY
  /-- each level is one chain of distinct nodes, and the levels share none -/
  links : ∀ d < t.hgt, Linked (fun n => (t.heap n).next) (t.level d) none ∧ (t.level d).Nodup ∧
    ∀ d' < t.hgt, d ≠ d' → ∀ n ∈ t.level d, n ∉ t.level d'
  leaves : t.leafItems = items.map some ++ [none]

theorem Key.compare_nonpos {a b : Key} (h : b.lt a = false) : a.compare b ≤ 0 := by
  rw [Key.lt_false_iff] at h
  unfold Key.compare Key.matchAny
  dsimp only
  split_ifs <;> omega

theorem Shape.level_eq (hs : Shape t t.keyOf lv items) : ∀ d < t.hgt,
    t.level d = lv (t.hgt - 1 - d)
  | 0, _ => by rw [Tree.level, Nat.sub_zero, hs.root]
  | d + 1, hd => by
    have he := hs.entry (t.hgt - 1 - d) (by omega)
    have hj : t.hgt - 1 - d = t.hgt - 1 - (d + 1) + 1 := by omega
    rw [Tree.level, hs.level_eq d (by omega)]
    have hk : (lv (t.hgt - 1 - d)).flatMap (fun n => (t.heap n).kids) =
        (ents t.heap (lv (t.hgt - 1 - d))).filterMap fun e => e.child.node? := by
      rw [ents, List.filterMap_flatMap]
      rfl
    rw [hk, he, hj, below, nodeEntries, List.filterMap_map]
    have : ((fun e : Entry => e.child.node?) ∘ fun c => (⟨t.keyOf c, .node c⟩ : Entry)) = some := rfl
    rw [this, List.filterMap_some]

theorem Shape.leafItems_eq (hs : Shape t t.keyOf lv items) :
    t.leafItems = items.map some ++ [none] := by
  have hlink := hs.link 0 hs.hgt_pos
  have hfirst := hs.first
  have hlen : (lv 0).length ≤ t.fresh := hs.length_level_le
  cases hl : lv 0 with
  | nil => rw [hl] at hfirst; simp at hfirst
  | cons a l =>
    have he := hs.entry 0 hs.hgt_pos
    rw [hl] at hfirst hlink hlen
    obtain rfl : a = t.first := by simpa using hfirst
    rw [Tree.leafItems, walk_eq _ hlink hlen, ← hl]
    have hk : (lv 0).flatMap (fun n => (t.heap n).leaves) =
        (ents t.heap (lv 0)).filterMap fun e => e.child.leaf? := by
      rw [ents, List.filterMap_flatMap]
      rfl
    rw [hk, he, below, leafEntries, List.filterMap_append, List.filterMap_map]
    have : ((fun e : Entry => e.child.leaf?) ∘ fun m : Meta => ⟨m.key, .leaf (some m)⟩) =
        some ∘ some := rfl
    rw [this, List.filterMap_eq_map]
    rfl

theorem Shape.mem_below (hs : Shape t t.keyOf lv items) {j : ℕ} (hj : j < t.hgt) {n : NodeId}
    (hn : n ∈ lv j) {e : Entry} (he : e ∈ (t.heap n).entry) : e ∈ below t.keyOf lv items j := by
  rw [← hs.entry j hj]
  exact List.mem_flatMap.mpr ⟨n, hn, he⟩

/-- **A tree with ordered levels satisfies the representation invariant.** -/
theorem Shape.wf (hs : Shape t t.keyOf lv items) (ho : Ordered (items.map Meta.key)) :
    t.WF items := by
  have hpos := hs.hgt_pos
  have hlt : ∀ d < t.hgt, t.hgt - 1 - d < t.hgt := fun d hd => by omega
  refine ⟨⟨hpos, fun d hd n hn => ?_⟩, fun d hd n hn => ?_, fun d hd n hn e he c hc => ?_,
    fun d hd n hn => ?_, fun d hd => ⟨?_, ?_, fun d' hd' hne n hn => ?_⟩, hs.leafItems_eq⟩
  all_goals rw [hs.level_eq d hd] at *
  · have hl1 := hs.level1 _ (hlt d hd) n hn
    have hbot : t.hgt - 1 - d = 0 ↔ d + 1 = t.hgt := by omega
    refine ⟨by rw [hl1, decide_eq_true_iff, hbot], fun e he => ?_⟩
    have hm := hs.mem_below (hlt d hd) hn he
    rw [hl1]
    cases hj : t.hgt - 1 - d with
    | zero =>
      rw [hj, below, mem_leafEntries] at hm
      rcases hm with ⟨x, -, rfl⟩ | rfl <;> simp [Child.node?]
    | succ j =>
      rw [hj, below] at hm
      obtain ⟨c, -, rfl⟩ := List.mem_map.mp hm
      simp [Child.node?]
  · exact (hs.ordered_node ho (hlt d hd) n hn).1.imp fun h => Key.compare_nonpos h
  · have hm := hs.mem_below (hlt d hd) hn he
    cases hj : t.hgt - 1 - d with
    | zero =>
      rw [hj, below, mem_leafEntries] at hm
      rcases hm with ⟨x, -, rfl⟩ | rfl <;> simp at hc
    | succ j =>
      rw [hj, below] at hm
      obtain ⟨c', -, rfl⟩ := List.mem_map.mp hm
      obtain rfl : c' = c := by simpa using hc
      rfl
  · exact hs.count _ (hlt d hd) n hn
  · exact hs.link _ (hlt d hd)
  · exact hs.nodup _ (hlt d hd)
  · rw [hs.level_eq d' hd']
    exact hs.disjoint _ (hlt d hd) _ (hlt d' hd') (by omega) n hn

/-! ## Runs -/

/-- An operation on the tree. -/
inductive TreeOp
  | insert (m : Meta)
  | del (m : Meta)
  deriving DecidableEq

/-- One operation; `none` is a failed assertion. -/
def Tree.step (t : Tree) : TreeOp → Option Tree
  | .insert m => t.insert m
  | .del m => (t.del m).map Prod.fst

/-- A sequence of operations on the tree of the constructor. -/
def Tree.run (ops : List TreeOp) : Option Tree := ops.foldlM Tree.step Tree.init

/-- One operation on the sequence of items. -/
def Leaves.step (l : List Meta) : TreeOp → List Meta
  | .insert m => Leaves.insert l m
  | .del m => Leaves.del l m

/-- A sequence of operations on the empty sequence of items. -/
def Leaves.run (ops : List TreeOp) : List Meta := ops.foldl Leaves.step []

/-- `s` are the items inserted and not yet deleted. A deletion takes one item with the key of its
argument that its argument matches, if there is one. -/
inductive Bag : List TreeOp → Multiset Meta → Prop
  | nil : Bag [] 0
  | insert {ops s} (m : Meta) : Bag ops s → Bag (ops ++ [.insert m]) (m ::ₘ s)
  | del {ops s} (m x : Meta) : Bag ops (x ::ₘ s) → Leaves.hits m x = true → Bag (ops ++ [.del m]) s
  | miss {ops s} (m : Meta) : Bag ops s → (∀ x ∈ s, Leaves.hits m x = false) →
      Bag (ops ++ [.del m]) s

theorem Leaves.run_concat (ops : List TreeOp) (op : TreeOp) :
    Leaves.run (ops ++ [op]) = Leaves.step (Leaves.run ops) op := by
  simp [Leaves.run]

theorem Tree.run_concat (ops : List TreeOp) (op : TreeOp) :
    Tree.run (ops ++ [op]) = (Tree.run ops).bind fun t => t.step op := by
  simp [Tree.run, List.foldlM_append]

theorem Leaves.bag_run (ops : List TreeOp) : Bag ops (Leaves.run ops) := by
  induction ops using List.reverseRecOn with
  | nil => exact Bag.nil
  | append_singleton ops op ih =>
    rw [Leaves.run_concat]
    cases op with
    | insert m =>
      rw [Leaves.step, Multiset.coe_eq_coe.mpr (Leaves.insert_perm _ m)]
      exact Bag.insert m ih
    | del m =>
      rcases Leaves.del_perm (Leaves.run ops) m with ⟨x, -, hx, hp⟩ | ⟨hno, he⟩
      · rw [Multiset.coe_eq_coe.mpr hp] at ih
        exact Bag.del m x ih hx
      · rw [Leaves.step, he]
        exact Bag.miss m ih hno

/-- **Every insertion keeps the order**, when only items without the wildcard are inserted. -/
theorem Leaves.ordered_run {ops : List TreeOp} (hp : ∀ m, TreeOp.insert m ∈ ops → m.key.Plain) :
    Ordered ((Leaves.run ops).map Meta.key) := by
  induction ops using List.reverseRecOn with
  | nil => exact ⟨List.Pairwise.nil, by simp [Leaves.run]⟩
  | append_singleton ops op ih =>
    have ho := ih fun m hm => hp m (List.mem_append_left _ hm)
    rw [Leaves.run_concat]
    cases op with
    | insert m => exact Leaves.ordered_insert ho (hp m (by simp))
    | del m => exact Leaves.ordered_del ho

/-- The tree of the constructor. -/
theorem shape_init : Shape Tree.init Tree.init.keyOf (fun _ => [0]) [] := by
  have h0 : ∀ i < Tree.init.hgt, i = 0 := fun i hi => Nat.lt_one_iff.mp hi
  refine ⟨Nat.one_pos, rfl, rfl, fun i hi => ?_, fun i hi n _ => ?_, fun i hi n _ => ?_,
    fun i hi => ?_, fun i hi => by simp, fun i hi j hj hij => ?_, fun i hi n hn => ?_⟩
  · rw [h0 i hi]
    rfl
  · rw [h0 i hi]
    rfl
  · exact ⟨le_rfl, show 1 ≤ 32 by decide⟩
  · exact ⟨rfl, trivial⟩
  · exact absurd ((h0 i hi).trans (h0 j hj).symm) hij
  · rw [List.mem_singleton.mp hn]
    exact Nat.one_pos

/-- One step on a tree and on the items it holds. -/
theorem step_spec (hs : Shape t t.keyOf lv items) (ho : Ordered (items.map Meta.key)) {op : TreeOp}
    {t' : Tree} (h : t.step op = some t') :
    ∃ lv', Shape t' t'.keyOf lv' (Leaves.step items op) := by
  cases op with
  | insert m =>
    obtain ⟨t'', lv', hi, hs'⟩ := insert_spec hs ho m
    obtain rfl : t'' = t' := Option.some.inj (hi.symm.trans h)
    exact ⟨lv', hs'⟩
  | del m =>
    rw [Tree.step] at h
    rcases del_spec hs ho m with ⟨hd, hno⟩ | ⟨x, n, pos, path, A, B, -, ⟨-, hd⟩ | ⟨t'', lv', hd, hs'⟩⟩
    · rw [hd] at h
      obtain rfl : t = t' := by simpa using h
      refine ⟨lv, ?_⟩
      rw [Leaves.step, Leaves.del, List.eraseP_of_forall_not fun x hx => by simp [hno x hx]]
      exact hs
    · rw [hd] at h
      simp at h
    · rw [hd] at h
      obtain rfl : t'' = t' := by simpa using h
      exact ⟨lv', hs'⟩

/-- **Refinement.** A run on the tree that completes holds the items of the run on the sequence. -/
theorem run_spec {ops : List TreeOp} (hp : ∀ m, TreeOp.insert m ∈ ops → m.key.Plain)
    (h : Tree.run ops = some t) : ∃ lv, Shape t t.keyOf lv (Leaves.run ops) := by
  induction ops using List.reverseRecOn generalizing t with
  | nil =>
    obtain rfl : Tree.init = t := by simpa [Tree.run] using h
    exact ⟨_, shape_init⟩
  | append_singleton ops op ih =>
    have hp' : ∀ m, TreeOp.insert m ∈ ops → m.key.Plain := fun m hm =>
      hp m (List.mem_append_left _ hm)
    rw [Tree.run_concat, Option.bind_eq_some_iff] at h
    obtain ⟨t₀, h₀, h₁⟩ := h
    obtain ⟨lv, hs⟩ := ih hp' h₀
    rw [Leaves.run_concat]
    exact step_spec hs (Leaves.ordered_run hp') h₁

/-- **The representation invariant.** After any sequence of insertions of items without the
wildcard and of deletions, the tree is well formed and holds the items inserted and not yet
deleted. Insertions always complete; a deletion completes unless the item it finds is the only one
of its level-one node. -/
theorem run_wf (ops : List TreeOp) (hp : ∀ m, TreeOp.insert m ∈ ops → m.key.Plain) (t : Tree)
    (h : Tree.run ops = some t) :
    t.WF (Leaves.run ops) ∧ Bag ops (Leaves.run ops) ∧ (∀ m, (t.insert m).isSome = true) ∧
      ∀ m, t.del m = none → ∃ n ∈ t.level (t.hgt - 1), ∃ x,
        (t.heap n).entry = [⟨x.key, .leaf (some x)⟩] ∧ Leaves.hits m x = true := by
  obtain ⟨lv, hs⟩ := run_spec hp h
  have ho := Leaves.ordered_run hp
  have hpos := hs.hgt_pos
  refine ⟨hs.wf ho, Leaves.bag_run ops, fun m => ?_, fun m hm => ?_⟩
  · obtain ⟨t', lv', hi, -⟩ := insert_spec hs ho m
    rw [hi]
    rfl
  · rcases del_spec hs ho m with ⟨hd, -⟩ | ⟨x, n, pos, path, A, B, hfh, ⟨hc, -⟩ | ⟨t', lv', hd, -⟩⟩
    · rw [hd] at hm
      exact absurd hm (by simp)
    · refine ⟨n, ?_, x, hfh.entry_eq hc, hfh.hits⟩
      rw [hs.level_eq _ (by omega), Nat.sub_self, hfh.level]
      simp
    · rw [hd] at hm
      exact absurd hm (by simp)

/-- A file, its attributes and the removal of its directory entry. -/
theorem run_wf_unlink :
    let zero : Timeval := ⟨0, 0⟩
    let ops : List TreeOp :=
      [.insert (.dentry ⟨2, ['f'], 3⟩), .insert (.fattr ⟨3, .file, 3, zero, zero, zero, 0, 0⟩),
        .insert (.chunkinfo ⟨3, 0, 5, 1⟩), .del (.dentry ⟨2, ['f'], 0⟩)]
    Leaves.run ops = [.fattr ⟨3, .file, 3, zero, zero, zero, 0, 0⟩, .chunkinfo ⟨3, 0, 5, 1⟩] ∧
      ∃ t, Tree.run ops = some t ∧ t.WF (Leaves.run ops) := by
  intro zero ops
  have hsome : (Tree.run ops).isSome = true := by decide +kernel
  obtain ⟨t, ht⟩ := Option.isSome_iff_exists.mp hsome
  exact ⟨by decide +kernel, t, ht, (run_wf ops (by simp [ops, Meta.key]; decide) t ht).1⟩

/-- The chunk at `offset` of file 5. -/
def chunkAt (offset : ℤ) : Meta := .chunkinfo ⟨5, offset, 7, 1⟩

/-- Insertions at the offset that is the wildcard, and a deletion that takes the wildcard item. -/
def wildcardOps : List TreeOp :=
  [.insert (chunkAt 3), .insert (chunkAt (-1)), .insert (chunkAt 2), .insert (chunkAt 1),
    .insert (chunkAt 9), .del (chunkAt 10)]

/-- With the wildcard among the inserted keys, the root ends up out of order. -/
theorem wildcardOps_not_wf : ∃ t, Tree.run wildcardOps = some t ∧ ∀ items, ¬ t.WF items := by
  have hsome : (Tree.run wildcardOps).isSome = true := by decide +kernel
  obtain ⟨t, ht⟩ := Option.isSome_iff_exists.mp hsome
  have hkeys : (Tree.run wildcardOps).map (fun t => decide
      (((t.heap t.root).entry.map Entry.key).Pairwise fun a b => a.compare b ≤ 0)) = some false := by
    decide +kernel
  refine ⟨t, ht, fun items hw => ?_⟩
  rw [ht, Option.map_some, Option.some_inj, decide_eq_false_iff_not] at hkeys
  exact hkeys (hw.sorted 0 hw.depth.1 t.root (by simp [Tree.level]))

end Kfs
