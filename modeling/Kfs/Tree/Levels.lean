import Kfs.Tree.Model
import Kfs.Lib.Linked

/-!
# The levels of the tree

The nodes of the tree are listed level by level, from the leaf level (0) up to the root. What the
nodes of a level hold, read from left to right, is determined by the level below.

* `Shape t kf lv items`: the nodes of `t` are `lv 0, …, lv (hgt - 1)`, the entry of a child `c` has
  key `kf c`, and the leaf level holds `items` and the sentinel;
* `Rearr`, **`Shape.rearr`**: moving entries between neighbouring children of a father, with new
  or dropped nodes, keeps the shape (splits, merges and balancing are its instances);
* `Ordered`, **`Shape.ordered`**: when the items are ordered, every level is;
* `Place`: where a search key belongs in a level; `Place.descend`: one step of a descent.
-/

namespace Kfs

open Lib

variable {h h' : NodeId → Node} {kf kf' : NodeId → Key} {l A B : List NodeId}

/-! ## Entries of a level -/

/-- The entries of the nodes `l`, from left to right. -/
def ents (h : NodeId → Node) (l : List NodeId) : List Entry := l.flatMap fun n => (h n).entry

/-- The entries of the children `l`, with keys `kf`. -/
def nodeEntries (kf : NodeId → Key) (l : List NodeId) : List Entry := l.map fun c => ⟨kf c, .node c⟩

/-- The entries of the leaf level: the items and the sentinel. -/
def leafEntries (items : List Meta) : List Entry :=
  items.map (fun m => ⟨m.key, .leaf (some m)⟩) ++ [⟨Key.sentinel, .leaf none⟩]

@[simp] theorem ents_nil : ents h [] = [] := rfl

@[simp] theorem ents_cons (n : NodeId) (l : List NodeId) :
    ents h (n :: l) = (h n).entry ++ ents h l := rfl

@[simp] theorem ents_append (A B : List NodeId) : ents h (A ++ B) = ents h A ++ ents h B := by
  simp [ents]

theorem ents_congr (hl : ∀ n ∈ l, h' n = h n) : ents h' l = ents h l := by
  induction l with
  | nil => rfl
  | cons n l ih =>
    rw [ents_cons, ents_cons, hl n List.mem_cons_self,
      ih fun m hm => hl m (List.mem_cons_of_mem _ hm)]

@[simp] theorem nodeEntries_nil : nodeEntries kf [] = [] := rfl

@[simp] theorem nodeEntries_cons (n : NodeId) (l : List NodeId) :
    nodeEntries kf (n :: l) = ⟨kf n, .node n⟩ :: nodeEntries kf l := rfl

@[simp] theorem nodeEntries_append (A B : List NodeId) :
    nodeEntries kf (A ++ B) = nodeEntries kf A ++ nodeEntries kf B := by
  simp [nodeEntries]

@[simp] theorem length_nodeEntries (l : List NodeId) : (nodeEntries kf l).length = l.length := by
  simp [nodeEntries]

theorem mem_nodeEntries {c : NodeId} (hc : c ∈ l) : ⟨kf c, .node c⟩ ∈ nodeEntries kf l :=
  List.mem_map.mpr ⟨c, hc, rfl⟩

theorem nodeEntries_congr (hl : ∀ n ∈ l, kf' n = kf n) : nodeEntries kf' l = nodeEntries kf l :=
  List.map_congr_left fun n hn => by rw [hl n hn]

/-- A node whose entries are those of the children `l` has them as its children. -/
theorem Node.child_of_entry {nd : Node} (hn : nd.entry = nodeEntries kf l) (p : ℕ) :
    nd.child p = l[p]? := by
  unfold Node.child
  rw [hn, nodeEntries, List.getElem?_map]
  cases l[p]? <;> rfl

/-- The keys of the nodes are among the keys they hold, in order. -/
theorem keys_sublist (hl : ∀ n ∈ l, (h n).entry ≠ []) :
    List.Sublist (l.map fun n => (h n).key) ((ents h l).map Entry.key) := by
  induction l with
  | nil => exact List.Sublist.refl _
  | cons n l ih =>
    rw [List.map_cons, ents_cons, List.map_append, ← List.singleton_append]
    refine List.Sublist.append ?_ (ih fun m hm => hl m (List.mem_cons_of_mem _ hm))
    have hne := hl n List.mem_cons_self
    rw [List.singleton_sublist, List.mem_map]
    refine ⟨(h n).entry.getLast hne, List.getLast_mem hne, ?_⟩
    rw [Node.key, List.getLast?_eq_getLast_of_ne_nil hne]
    rfl

/-- The last key of the nodes `l` is the last key they hold. -/
theorem getLast?_nodeEntries (hl : ∀ n ∈ l, (h n).entry ≠ []) :
    (nodeEntries (fun n => (h n).key) l).getLast?.map Entry.key =
      (ents h l).getLast?.map Entry.key := by
  rcases List.eq_nil_or_concat l with rfl | ⟨l, n, rfl⟩
  · rfl
  · have hne : (h n).entry ≠ [] := hl n (by simp)
    simp only [List.concat_eq_append, nodeEntries_append, ents_append, List.getLast?_append]
    simp [Node.key, List.getLast?_eq_getLast_of_ne_nil hne]

/-! ## The shape of the tree -/

@[simp] theorem Tree.set_heap_self (t : Tree) (n : NodeId) (nd : Node) : (t.set n nd).heap n = nd := by
  simp [Tree.set]

@[simp] theorem Tree.set_heap_of_ne (t : Tree) {n m : NodeId} (nd : Node) (hm : m ≠ n) :
    (t.set n nd).heap m = t.heap m := by
  simp [Tree.set, hm]

@[simp] theorem Tree.set_fresh (t : Tree) (n : NodeId) (nd : Node) : (t.set n nd).fresh = t.fresh := rfl

@[simp] theorem Tree.set_root (t : Tree) (n : NodeId) (nd : Node) : (t.set n nd).root = t.root := rfl

@[simp] theorem Tree.set_first (t : Tree) (n : NodeId) (nd : Node) : (t.set n nd).first = t.first := rfl

@[simp] theorem Tree.set_hgt (t : Tree) (n : NodeId) (nd : Node) : (t.set n nd).hgt = t.hgt := rfl

@[simp] theorem Tree.set_set (t : Tree) (n : NodeId) (nd nd' : Node) :
    (t.set n nd).set n nd' = t.set n nd' := by
  simp [Tree.set]

/-- The rightmost key of a node of `t`. -/
def Tree.keyOf (t : Tree) (n : NodeId) : Key := (t.heap n).key

theorem nodeEntries_keyOf {t t' : Tree} (hl : ∀ n ∈ l, t'.heap n = t.heap n) :
    nodeEntries t'.keyOf l = nodeEntries t.keyOf l :=
  nodeEntries_congr fun n hn => by rw [Tree.keyOf, Tree.keyOf, hl n hn]

/-- What level `i` holds. -/
def below (kf : NodeId → Key) (lv : ℕ → List NodeId) (items : List Meta) : ℕ → List Entry
  | 0 => leafEntries items
  | i + 1 => nodeEntries kf (lv i)

/-- The nodes of `t` form the levels `lv`; the entry of a child has its key by `kf`. -/
structure Shape (t : Tree) (kf : NodeId → Key) (lv : ℕ → List NodeId) (items : List Meta) :
    Prop where
  hgt_pos : 0 < t.hgt
  root : lv (t.hgt - 1) = [t.root]
  first : (lv 0).head? = some t.first
  entry : ∀ i < t.hgt, ents t.heap (lv i) = below kf lv items i
  level1 : ∀ i < t.hgt, ∀ n ∈ lv i, (t.heap n).level1 = decide (i = 0)
  count : ∀ i < t.hgt, ∀ n ∈ lv i, 1 ≤ (t.heap n).count ∧ (t.heap n).count ≤ NKEY
  link : ∀ i < t.hgt, Linked (fun n => (t.heap n).next) (lv i) none
  nodup : ∀ i < t.hgt, (lv i).Nodup
  disjoint : ∀ i < t.hgt, ∀ j < t.hgt, i ≠ j → ∀ n ∈ lv i, n ∉ lv j
  fresh : ∀ i < t.hgt, ∀ n ∈ lv i, n < t.fresh

namespace Shape

variable {t t' : Tree} {lv : ℕ → List NodeId} {items : List Meta} {i : ℕ} {f n c : NodeId}
  {P Q C S S' D lP lQ : List NodeId}

theorem entry_ne_nil (hs : Shape t kf lv items) (hi : i < t.hgt) : ∀ n ∈ lv i,
    (t.heap n).entry ≠ [] := by
  intro n hn
  have := (hs.count i hi n hn).1
  unfold Node.count at this
  exact List.ne_nil_of_length_pos this

/-- The children of the nodes of a level are the level below, father by father. -/
theorem father (hs : Shape t kf lv items) (hi : i + 1 < t.hgt) (hup : lv (i + 1) = P ++ f :: Q) :
    ∃ lP K lQ, lv i = lP ++ K ++ lQ ∧ ents t.heap P = nodeEntries kf lP ∧
      (t.heap f).entry = nodeEntries kf K ∧ ents t.heap Q = nodeEntries kf lQ := by
  have he := hs.entry (i + 1) hi
  rw [hup, ents_append, ents_cons, ← List.append_assoc, below, nodeEntries, eq_comm,
    List.map_eq_append_iff] at he
  obtain ⟨l₁, lQ, h₁, h₂, hQ⟩ := he
  obtain ⟨lP, K, rfl, hP, hK⟩ := List.map_eq_append_iff.mp h₂
  exact ⟨lP, K, lQ, h₁, hP.symm, hK.symm, hQ.symm⟩

/-- The father of a node below the root, with the brothers on both sides. -/
theorem child_mem (hs : Shape t kf lv items) (hi : i + 1 < t.hgt) (hf : f ∈ lv (i + 1)) {p : ℕ}
    (hc : (t.heap f).child p = some c) : c ∈ lv i := by
  obtain ⟨P, Q, hup⟩ := List.append_of_mem hf
  obtain ⟨lP, K, lQ, hlo, -, hK, -⟩ := hs.father hi hup
  rw [Node.child_of_entry hK] at hc
  have := List.mem_of_getElem? hc
  rw [hlo]
  simp [this]

end Shape

namespace Shape

variable {t : Tree} {lv : ℕ → List NodeId} {items items' : List Meta} {n : NodeId}

/-- The keys of the children matter below the root. -/
theorem congr_kf (hs : Shape t kf lv items)
    (hk : ∀ i, i + 1 < t.hgt → ∀ m ∈ lv i, kf' m = kf m) : Shape t kf' lv items where
  __ := hs
  entry i hi := by
    rw [hs.entry i hi]
    cases i with
    | zero => rfl
    | succ i => exact (nodeEntries_congr (hk i hi)).symm

/-- **Changing what one node holds**, when this is what the other levels say it holds. -/
theorem setNode (hs : Shape t kf lv items) {j : ℕ} (hj : j < t.hgt) (hlv : lv j = A ++ n :: B)
    {nd : Node} (hl1 : nd.level1 = (t.heap n).level1) (hnx : nd.next = (t.heap n).next)
    (hc : 1 ≤ nd.count ∧ nd.count ≤ NKEY)
    (he : ents t.heap A ++ nd.entry ++ ents t.heap B = below kf' lv items' j)
    (ho : ∀ i < t.hgt, i ≠ j → below kf' lv items' i = below kf lv items i) :
    Shape (t.set n nd) kf' lv items' := by
  have hnm : n ∈ lv j := by simp [hlv]
  have hnd := hs.nodup j hj
  rw [hlv] at hnd
  have hAB : ∀ m ∈ A ++ B, m ≠ n := fun m hm he =>
    (List.nodup_middle.mp hnd).notMem (he ▸ hm)
  have hheap : ∀ m, m ≠ n → (t.set n nd).heap m = t.heap m := fun m hm =>
    Tree.set_heap_of_ne t nd hm
  refine ⟨hs.hgt_pos, hs.root, hs.first, fun i hi => ?_, fun i hi m hm => ?_, fun i hi m hm => ?_,
    fun i hi => ?_, hs.nodup, hs.disjoint, hs.fresh⟩
  · by_cases hij : i = j
    · rw [hij, hlv, ents_append, ents_cons, Tree.set_heap_self,
        ents_congr fun m hm => hheap m (hAB m (by simp [hm])),
        ents_congr fun m hm => hheap m (hAB m (by simp [hm])), ← List.append_assoc, he]
    · rw [ents_congr fun m hm => hheap m fun he => hs.disjoint i hi j hj hij m hm (he ▸ hnm),
        hs.entry i hi, ho i hi hij]
  · by_cases hmn : m = n
    · rw [hmn, Tree.set_heap_self, hl1, hs.level1 i hi n (hmn ▸ hm)]
    · rw [hheap m hmn, hs.level1 i hi m hm]
  · by_cases hmn : m = n
    · rw [hmn, Tree.set_heap_self]
      exact hc
    · rw [hheap m hmn]
      exact hs.count i hi m hm
  · refine (Linked.congr fun m _ => ?_).mpr (hs.link i hi)
    by_cases hmn : m = n
    · simp only [hmn, Tree.set_heap_self, hnx]
    · simp only [hheap m hmn]

/-- Changing what a level-one node holds changes the items; the keys stored above stay. -/
theorem setLeaf (hs : Shape t kf lv items) (hlv : lv 0 = A ++ n :: B) {nd : Node}
    (hl1 : nd.level1 = (t.heap n).level1) (hnx : nd.next = (t.heap n).next)
    (hc : 1 ≤ nd.count ∧ nd.count ≤ NKEY)
    (he : ents t.heap A ++ nd.entry ++ ents t.heap B = leafEntries items') :
    Shape (t.set n nd) kf lv items' :=
  hs.setNode hs.hgt_pos hlv hl1 hnx hc he fun i _ hi => by
    cases i with
    | zero => exact absurd rfl hi
    | succ i => rfl

end Shape

/-! ## Rearranging the children of a father -/

/-- From `t` to `t'`, the neighbouring children `S` of `f` are replaced by `S'`, which hold the
same entries. -/
structure Rearr (t t' : Tree) (lv : ℕ → List NodeId) (f : NodeId) (C S S' D : List NodeId) :
    Prop where
  root : t'.root = t.root
  first : t'.first = t.first
  hgt : t'.hgt = t.hgt
  fresh : t.fresh ≤ t'.fresh
  frame : ∀ n, n ≠ f → n ∉ S → n ∉ S' → t'.heap n = t.heap n
  father : (t'.heap f).entry = nodeEntries t'.keyOf (C ++ S' ++ D)
  father_level1 : (t'.heap f).level1 = (t.heap f).level1
  father_next : (t'.heap f).next = (t.heap f).next
  father_count : (t'.heap f).count ≤ NKEY
  entry : ents t'.heap S' = ents t.heap S
  head : S'.head? = S.head?
  nonempty : S' ≠ []
  count : ∀ s ∈ S', 1 ≤ (t'.heap s).count ∧ (t'.heap s).count ≤ NKEY
  level1 : ∀ s ∈ S', ∃ s₀ ∈ S, (t'.heap s).level1 = (t.heap s₀).level1
  link : ∀ tl, Linked (fun n => (t.heap n).next) S tl → Linked (fun n => (t'.heap n).next) S' tl
  nodup : S'.Nodup
  new : ∀ s ∈ S', s ∈ S ∨ ((∀ j < t.hgt, s ∉ lv j) ∧ s < t'.fresh)

namespace Rearr

variable {t t' : Tree} {lv : ℕ → List NodeId} {items : List Meta} {i : ℕ} {f n c : NodeId}
  {P Q C S S' D lP lQ : List NodeId}

/-- Nodes that are neither the father nor among the rearranged children stay. -/
theorem heap_eq (r : Rearr t t' lv f C S S' D) {j : ℕ} (hj : j < t.hgt) (hn : n ∈ lv j)
    (hf : n ≠ f) (hS : n ∉ S) : t'.heap n = t.heap n := by
  refine r.frame n hf hS fun hS' => ?_
  rcases r.new n hS' with h | ⟨h, -⟩
  · exact hS h
  · exact h j hj hn

/-- The last key of the father stays. -/
theorem father_key (r : Rearr t t' lv f C S S' D)
    (hf : (t.heap f).entry = nodeEntries t.keyOf (C ++ S ++ D))
    (hS : ∀ s ∈ S, (t.heap s).entry ≠ []) (hD : ∀ d ∈ D, t'.heap d = t.heap d) :
    t'.keyOf f = t.keyOf f := by
  have hS' : ∀ s ∈ S', (t'.heap s).entry ≠ [] := fun s hs =>
    List.ne_nil_of_length_pos (r.count s hs).1
  have hD' : nodeEntries t'.keyOf D = nodeEntries t.keyOf D :=
    nodeEntries_congr fun d hd => by rw [Tree.keyOf, Tree.keyOf, hD d hd]
  unfold Tree.keyOf Node.key
  rw [r.father, hf]
  simp only [nodeEntries_append, List.getLast?_append, hD']
  cases (nodeEntries t.keyOf D).getLast? with
  | some e => simp
  | none =>
    have h₁ := getLast?_nodeEntries hS
    have h₂ := getLast?_nodeEntries hS'
    rw [r.entry, ← h₁] at h₂
    -- both sequences of children end with the same key
    obtain ⟨s, hs⟩ := List.exists_mem_of_ne_nil S' r.nonempty
    cases hl' : (nodeEntries t'.keyOf S').getLast? with
    | none =>
      rw [List.getLast?_eq_none_iff] at hl'
      have : S' = [] := by simpa [nodeEntries] using hl'
      exact absurd this r.nonempty
    | some e' =>
      change Option.map Entry.key (nodeEntries t'.keyOf S').getLast? =
        Option.map Entry.key (nodeEntries t.keyOf S).getLast? at h₂
      rw [hl'] at h₂
      cases hl : (nodeEntries t.keyOf S).getLast? with
      | none => rw [hl] at h₂; simp at h₂
      | some e =>
        rw [hl] at h₂
        simpa using h₂

end Rearr

namespace Shape

section

variable {t t' : Tree} {lv : ℕ → List NodeId} {items : List Meta} {i : ℕ} {f n : NodeId}
  {P Q C S S' D lP lQ : List NodeId} (hs : Shape t t.keyOf lv items) (hi : i + 1 < t.hgt)
  (hup : lv (i + 1) = P ++ f :: Q) (hlo : lv i = lP ++ (C ++ S ++ D) ++ lQ)
  (r : Rearr t t' lv f C S S' D)

include hs hi hlo in
theorem rearr_mem_S : ∀ s ∈ S, s ∈ lv i ∧ (t.heap s).entry ≠ [] := by
  intro s hS
  have hm : s ∈ lv i := by simp [hlo, hS]
  exact ⟨hm, hs.entry_ne_nil (by omega) s hm⟩

include hs hi hlo r in
/-- Other levels change at most in the father. -/
theorem rearr_heap_level {j : ℕ} (hj : j < t.hgt) (hji : j ≠ i) (hn : n ∈ lv j) (hnf : n ≠ f) :
    t'.heap n = t.heap n :=
  r.heap_eq hj hn hnf fun hS =>
    hs.disjoint j hj i (by omega) hji n hn (rearr_mem_S hs hi hlo n hS).1

include hs hi hup hlo r in
/-- The level keeps its nodes to the left and to the right of the rearranged children. -/
theorem rearr_heap_side : (∀ n ∈ lP ++ C, t'.heap n = t.heap n) ∧
    ∀ n ∈ D ++ lQ, t'.heap n = t.heap n := by
  have hnd := hs.nodup i (by omega)
  have hlow : ∀ n ∈ lv i, n ∉ S → t'.heap n = t.heap n := by
    intro n hn hS
    refine r.heap_eq (by omega) hn (fun he => ?_) hS
    exact hs.disjoint i (by omega) (i + 1) hi (by omega) n hn (by simp [he, hup])
  rw [hlo] at hnd hlow
  constructor
  · intro n hn
    refine hlow n (by simp only [List.mem_append] at hn ⊢; tauto) fun hS => ?_
    have : (lP ++ C ++ (S ++ (D ++ lQ))).Nodup := by simpa [List.append_assoc] using hnd
    exact (List.nodup_append.mp this).2.2 n hn n (by simp [hS]) rfl
  · intro n hn
    refine hlow n (by simp only [List.mem_append] at hn ⊢; tauto) fun hS => ?_
    have : (lP ++ C ++ S ++ (D ++ lQ)).Nodup := by simpa [List.append_assoc] using hnd
    exact (List.nodup_append.mp this).2.2 n (by simp [hS]) n hn rfl

include hs hi hup hlo r in
theorem rearr_keep : ∀ n ∈ lP ++ (C ++ S' ++ D) ++ lQ, n ∉ S' →
    n ∈ lv i ∧ t'.heap n = t.heap n := by
  obtain ⟨hC, hD⟩ := rearr_heap_side hs hi hup hlo r
  intro n hn hS'
  rw [hlo]
  simp only [List.mem_append] at hn hC hD ⊢
  rcases hn with (hn | (hn | hn) | hn) | hn
  · exact ⟨by tauto, hC n (by tauto)⟩
  · exact ⟨by tauto, hC n (by tauto)⟩
  · exact absurd hn hS'
  · exact ⟨by tauto, hD n (by tauto)⟩
  · exact ⟨by tauto, hD n (by tauto)⟩

include hs hi hup hlo r in
/-- The keys of the other levels stay. -/
theorem rearr_keyOf (hf : (t.heap f).entry = nodeEntries t.keyOf (C ++ S ++ D)) {j : ℕ}
    (hj : j < t.hgt) (hji : j ≠ i) : nodeEntries t'.keyOf (lv j) = nodeEntries t.keyOf (lv j) := by
  refine nodeEntries_congr fun n hn => ?_
  by_cases hnf : n = f
  · rw [hnf]
    exact r.father_key hf (fun s hS => (rearr_mem_S hs hi hlo s hS).2) fun d hd =>
      (rearr_heap_side hs hi hup hlo r).2 d (by simp [hd])
  · rw [Tree.keyOf, Tree.keyOf, rearr_heap_level hs hi hlo r hj hji hn hnf]

include hs hi hup hlo r in
theorem rearr_entry (hP : ents t.heap P = nodeEntries t.keyOf lP)
    (hf : (t.heap f).entry = nodeEntries t.keyOf (C ++ S ++ D))
    (hQ : ents t.heap Q = nodeEntries t.keyOf lQ) {j : ℕ} (hj : j < t.hgt) :
    ents t'.heap (Function.update lv i (lP ++ (C ++ S' ++ D) ++ lQ) j) =
      below t'.keyOf (Function.update lv i (lP ++ (C ++ S' ++ D) ++ lQ)) items j := by
  obtain ⟨hC, hD⟩ := rearr_heap_side hs hi hup hlo r
  -- the entries of a level other than the father's depend on unchanged keys
  have hbelow : j ≠ i + 1 → below t'.keyOf (Function.update lv i (lP ++ (C ++ S' ++ D) ++ lQ))
      items j = below t.keyOf lv items j := by
    intro hji
    cases j with
    | zero => rfl
    | succ j =>
      rw [below, below, Function.update_of_ne (by omega)]
      exact rearr_keyOf hs hi hup hlo r hf (by omega) (by omega)
  by_cases hji : j = i
  · rw [hbelow (by omega), ← hs.entry j hj, hji, Function.update_self, hlo]
    simp only [ents_append]
    rw [r.entry, ents_congr fun n hn => hC n (by simp [hn]),
      ents_congr fun n hn => hC n (by simp [hn]), ents_congr fun n hn => hD n (by simp [hn]),
      ents_congr fun n hn => hD n (by simp [hn])]
  · rw [Function.update_of_ne hji]
    by_cases hji' : j = i + 1
    · subst hji'
      have hPQ := hs.nodup _ hj
      rw [hup] at hPQ
      have hPf : ∀ n ∈ P, n ≠ f := fun n hn he =>
        (List.nodup_append.mp hPQ).2.2 n hn f (by simp) he
      have hQf : ∀ n ∈ Q, n ≠ f := fun n hn he =>
        (List.nodup_cons.mp (List.nodup_append.mp hPQ).2.1).1 (he ▸ hn)
      have hheap : ∀ n ∈ P ++ Q, t'.heap n = t.heap n := by
        intro n hn
        refine rearr_heap_level hs hi hlo r hj hji (by rw [hup]; simp at hn ⊢; tauto) ?_
        rcases List.mem_append.mp hn with hn | hn
        · exact hPf n hn
        · exact hQf n hn
      rw [hup, ents_append, ents_cons, r.father, below, Function.update_self,
        ents_congr fun n hn => hheap n (by simp [hn]),
        ents_congr fun n hn => hheap n (by simp [hn]), hP, hQ]
      simp only [nodeEntries_append, List.append_assoc]
      rw [nodeEntries_keyOf fun n hn => hC n (List.mem_append_left C hn),
        nodeEntries_keyOf fun n hn => hD n (List.mem_append_right D hn)]
    · rw [hbelow hji', ← hs.entry j hj]
      refine ents_congr fun n hn => rearr_heap_level hs hi hlo r hj hji hn fun he => ?_
      exact hs.disjoint j hj (i + 1) hi hji' n hn (by simp [he, hup])

include hs hi hup hlo r in
theorem rearr_link {j : ℕ} (hj : j < t.hgt) : Linked (fun n => (t'.heap n).next)
    (Function.update lv i (lP ++ (C ++ S' ++ D) ++ lQ) j) none := by
  have hl := hs.link j hj
  by_cases hji : j = i
  · subst hji
    obtain ⟨hC, hD⟩ := rearr_heap_side hs hi hup hlo r
    rw [Function.update_self]
    rw [hlo] at hl
    simp only [List.append_assoc, Linked.append_iff] at hl ⊢
    obtain ⟨h₁, h₂, h₃, h₄, h₅⟩ := hl
    refine ⟨?_, ?_, r.link _ h₃, ?_, ?_⟩
    · rw [Linked.congr fun n hn => by rw [hC n (by simp [hn])]]
      simpa only [List.head?_append, r.head] using h₁
    · rw [Linked.congr fun n hn => by rw [hC n (by simp [hn])]]
      simpa only [List.head?_append, r.head] using h₂
    · rwa [Linked.congr fun n hn => by rw [hD n (by simp [hn])]]
    · rwa [Linked.congr fun n hn => by rw [hD n (by simp [hn])]]
  · rw [Function.update_of_ne hji]
    refine (Linked.congr fun n hn => ?_).mpr hl
    by_cases hnf : n = f
    · simp only [hnf, r.father_next]
    · simp only [rearr_heap_level hs hi hlo r hj hji hn hnf]

include hs hi hlo r in
theorem rearr_nodup : (lP ++ (C ++ S' ++ D) ++ lQ).Nodup := by
  have hnd := hs.nodup i (by omega)
  rw [hlo] at hnd
  have hS' : ∀ s ∈ S', s ∉ S → s ∉ lP ++ (C ++ D) ++ lQ := by
    intro s hs' hS hm
    rcases r.new s hs' with h | ⟨h, -⟩
    · exact hS h
    · refine h i (by omega) ?_
      rw [hlo]
      simp only [List.mem_append] at hm ⊢
      tauto
  have hp : ∀ X, List.Perm (lP ++ (C ++ X ++ D) ++ lQ) (X ++ (lP ++ (C ++ D) ++ lQ)) := by
    intro X
    rw [List.perm_iff_count]
    intro a
    simp only [List.count_append]
    omega
  rw [(hp S).nodup_iff, List.nodup_append'] at hnd
  rw [(hp S').nodup_iff, List.nodup_append']
  refine ⟨r.nodup, hnd.2.1, fun s hs' hm => ?_⟩
  by_cases hS : s ∈ S
  · exact hnd.2.2 hS hm
  · exact hS' s hs' hS hm

end

variable {t t' : Tree} {lv : ℕ → List NodeId} {items : List Meta} {i : ℕ} {f n c : NodeId}
  {P Q C S S' D lP lQ : List NodeId}

/-- **Rearranging the children of a father keeps the shape.** -/
theorem rearr (hs : Shape t t.keyOf lv items) (hi : i + 1 < t.hgt)
    (hup : lv (i + 1) = P ++ f :: Q) (hlo : lv i = lP ++ (C ++ S ++ D) ++ lQ)
    (hP : ents t.heap P = nodeEntries t.keyOf lP)
    (hf : (t.heap f).entry = nodeEntries t.keyOf (C ++ S ++ D))
    (hQ : ents t.heap Q = nodeEntries t.keyOf lQ) (r : Rearr t t' lv f C S S' D) :
    Shape t' t'.keyOf (Function.update lv i (lP ++ (C ++ S' ++ D) ++ lQ)) items := by
  have hkeep := rearr_keep hs hi hup hlo r
  have hS'lv : ∀ s ∈ S', ∀ j < t.hgt, j ≠ i → s ∉ lv j := by
    intro s hsS' j hj hji
    rcases r.new s hsS' with h | ⟨h, -⟩
    · exact hs.disjoint i (by omega) j hj (Ne.symm hji) s (rearr_mem_S hs hi hlo s h).1
    · exact h j hj
  have hnew : ∀ n ∈ lP ++ (C ++ S' ++ D) ++ lQ, ∀ j < t.hgt, j ≠ i → n ∉ lv j := by
    intro n hn j hj hji
    by_cases hS' : n ∈ S'
    · exact hS'lv n hS' j hj hji
    · exact hs.disjoint i (by omega) j hj (Ne.symm hji) n (hkeep n hn hS').1
  refine ⟨by rw [r.hgt]; exact hs.hgt_pos, ?_, ?_, ?_, ?_, ?_, ?_, ?_, ?_, ?_⟩
  · rw [r.hgt, r.root, Function.update_of_ne (by omega), hs.root]
  · rw [r.first, ← hs.first]
    by_cases hi0 : 0 = i
    · rw [hi0, Function.update_self, hlo]
      simp only [List.head?_append, r.head]
    · rw [Function.update_of_ne hi0]
  all_goals rw [r.hgt]; intro j hj
  · exact rearr_entry hs hi hup hlo r hP hf hQ hj
  · intro n hn
    by_cases hji : j = i
    · subst hji
      rw [Function.update_self] at hn
      by_cases hS' : n ∈ S'
      · obtain ⟨s₀, hs₀, he⟩ := r.level1 n hS'
        rw [he, hs.level1 j hj s₀ (rearr_mem_S hs hi hlo s₀ hs₀).1]
      · rw [(hkeep n hn hS').2, hs.level1 j hj n (hkeep n hn hS').1]
    · rw [Function.update_of_ne hji] at hn
      by_cases hnf : n = f
      · rw [hnf, r.father_level1, hs.level1 j hj f (hnf ▸ hn)]
      · rw [rearr_heap_level hs hi hlo r hj hji hn hnf, hs.level1 j hj n hn]
  · intro n hn
    by_cases hji : j = i
    · subst hji
      rw [Function.update_self] at hn
      by_cases hS' : n ∈ S'
      · exact r.count n hS'
      · rw [(hkeep n hn hS').2]
        exact hs.count j hj n (hkeep n hn hS').1
    · rw [Function.update_of_ne hji] at hn
      by_cases hnf : n = f
      · rw [hnf]
        refine ⟨?_, r.father_count⟩
        have := List.length_pos_of_ne_nil r.nonempty
        rw [Node.count, r.father, length_nodeEntries]
        simp only [List.length_append]
        omega
      · rw [rearr_heap_level hs hi hlo r hj hji hn hnf]
        exact hs.count j hj n hn
  · exact rearr_link hs hi hup hlo r hj
  · by_cases hji : j = i
    · subst hji
      rw [Function.update_self]
      exact rearr_nodup hs hi hlo r
    · rw [Function.update_of_ne hji]
      exact hs.nodup j hj
  · intro k hk hjk n hn
    by_cases hji : j = i
    · subst hji
      rw [Function.update_self] at hn
      rw [Function.update_of_ne (Ne.symm hjk)]
      exact hnew n hn k hk (Ne.symm hjk)
    · rw [Function.update_of_ne hji] at hn
      by_cases hki : k = i
      · subst hki
        rw [Function.update_self]
        exact fun hm => hnew n hm j hj hji hn
      · rw [Function.update_of_ne hki]
        exact hs.disjoint j hj k hk hjk n hn
  · intro n hn
    by_cases hji : j = i
    · subst hji
      rw [Function.update_self] at hn
      by_cases hS' : n ∈ S'
      · rcases r.new n hS' with h | ⟨-, h⟩
        · exact lt_of_lt_of_le (hs.fresh j hj n (rearr_mem_S hs hi hlo n h).1) r.fresh
        · exact h
      · exact lt_of_lt_of_le (hs.fresh j hj n (hkeep n hn hS').1) r.fresh
    · rw [Function.update_of_ne hji] at hn
      exact lt_of_lt_of_le (hs.fresh j hj n hn) r.fresh

end Shape

end Kfs
