import Kfs.Tree.Insert

/-!
# The remembered descent path

* `PathOK t lv i c path`: the links of `path` lead from node `c` of level `i` up to the root;
* `delDescend_spec`: the descent of `Tree.del` remembers such a path;
* **`shift_path_spec`**: `Tree.shift_path` moves it to the next node of the level;
* **`delScan_spec`**: the scan over equal keys finds the first item that matches, with its path.
-/

namespace Kfs

open Lib

variable {k : Key} {t t' : Tree} {lv lv' : ℕ → List NodeId} {items : List Meta} {i : ℕ}
  {n b f c c' : NodeId} {p pos : ℕ} {kf : NodeId → Key} {path : List Pathlink}

/-- Each link of the path is the father of the node below and its position there. -/
def PathOK (t : Tree) (lv : ℕ → List NodeId) : ℕ → NodeId → List Pathlink → Prop
  | i, _, [] => i + 1 = t.hgt
  | i, c, (n, p) :: path =>
    i + 1 < t.hgt ∧ n ∈ lv (i + 1) ∧ (t.heap n).child p = some c ∧ PathOK t lv (i + 1) n path

/-- The position of a child in its level, from its position below its father. -/
theorem Shape.child_split (hs : Shape t kf lv items) (hi : i + 1 < t.hgt) (hf : f ∈ lv (i + 1))
    (hc : (t.heap f).child pos = some c) :
    ∃ P Q lP C D lQ, lv (i + 1) = P ++ f :: Q ∧ lv i = (lP ++ C) ++ c :: (D ++ lQ) ∧
      ents t.heap P = nodeEntries kf lP ∧ (t.heap f).entry = nodeEntries kf (C ++ c :: D) ∧
      ents t.heap Q = nodeEntries kf lQ ∧ C.length = pos := by
  obtain ⟨P, Q, hup⟩ := List.append_of_mem hf
  obtain ⟨lP, K, lQ, hlo, hP, hK, hQ⟩ := hs.father hi hup
  rw [Node.child_of_entry hK] at hc
  obtain ⟨C, D, rfl, rfl⟩ : ∃ C D, K = C ++ c :: D ∧ C.length = pos := by
    obtain ⟨hlt, he⟩ := List.getElem?_eq_some_iff.mp hc
    exact ⟨K.take pos, K.drop (pos + 1), by rw [← he]; simp, by simp; omega⟩
  exact ⟨P, Q, lP, C, D, lQ, hup, by rw [hlo]; simp, hP, hK, hQ, rfl⟩

theorem delDescend_spec (hs : Shape t t.keyOf lv items) (ho : Ordered (items.map Meta.key)) :
    ∀ (i : ℕ) {n : NodeId} {path : List Pathlink}, i < t.hgt →
    Place t.heap k (lv i) n ((t.heap n).findplace k) →
    (t.heap n).findplace k < (t.heap n).count → PathOK t lv i n path →
    ∃ path' n', t.delDescend k (i + 1) n path = some (path', n', (t.heap n').findplace k) ∧
      Place t.heap k (lv 0) n' ((t.heap n').findplace k) ∧
      (t.heap n').findplace k < (t.heap n').count ∧ PathOK t lv 0 n' path'
  | 0, n, path, hi, hp, hlt, hpath => by
    have hl1 : (t.heap n).level1 = true := by rw [hs.level1 0 hi n hp.mem]; rfl
    refine ⟨path, n, ?_, hp, hlt, hpath⟩
    simp only [Tree.delDescend, hl1, if_true]
  | i + 1, n, path, hi, hp, hlt, hpath => by
    have hl1 : (t.heap n).level1 = false := by
      rw [hs.level1 (i + 1) hi n hp.mem, decide_eq_false (Nat.succ_ne_zero i)]
    obtain ⟨c, hc, hpc, hltc⟩ := hp.descend hs ho hi hlt
    rw [Tree.delDescend]
    simp only [hl1, Bool.false_eq_true, if_false, hlt.ne, hc]
    exact delDescend_spec hs ho i (by omega) hpc hltc ⟨hi, hp.mem, hc, hpath⟩

/-- **`shift_path` moves the path to the next node of the level.** -/
theorem shift_path_spec (hs : Shape t kf lv items) : ∀ (path : List Pathlink) {i : ℕ}
    {c c' : NodeId} {A B : List NodeId}, lv i = A ++ c :: c' :: B → PathOK t lv i c path →
    ∃ path', t.shift_path path = some path' ∧ PathOK t lv i c' path'
  | [], i, c, c', A, B, hlv, hpath => by
    -- the root has no next node
    have : i = t.hgt - 1 := by change i + 1 = t.hgt at hpath; omega
    rw [this, hs.root] at hlv
    have := congrArg List.length hlv
    simp only [List.length_append, List.length_cons, List.length_nil] at this
    omega
  | (n, pos) :: path, i, c, c', A, B, hlv, ⟨hi, hn, hc, hpath⟩ => by
    obtain ⟨P, Q, lP, C, D, lQ, hup, hlo, hP, hK, hQ, hpos⟩ := hs.child_split hi hn hc
    have hnd := hs.nodup i (by omega)
    have hsplit : A = lP ++ C ∧ c' :: B = D ++ lQ := by
      rw [hlo] at hnd
      have hnA : c ∉ lP ++ C := fun h => (List.nodup_append.mp hnd).2.2 c h c (by simp) rfl
      have hnB : c ∉ D ++ lQ := (List.nodup_cons.mp (List.nodup_append.mp hnd).2.1).1
      rw [hlo] at hlv
      obtain ⟨h₁, -, h₂⟩ := (List.append_cons_inj_of_notMem hnA hnB).mp hlv
      exact ⟨h₁.symm, h₂.symm⟩
    have hcount : (t.heap n).count = pos + 1 + D.length := by
      rw [Node.count, hK, length_nodeEntries]
      simp only [List.length_append, List.length_cons, hpos]
      omega
    rw [Tree.shift_path]
    cases D with
    | cons d D =>
      obtain ⟨rfl, -⟩ := List.cons.inj hsplit.2
      rw [if_pos (by rw [hcount, List.length_cons]; omega)]
      refine ⟨_, rfl, hi, hn, ?_, hpath⟩
      rw [Node.child_of_entry hK, List.getElem?_append_right (by omega)]
      simp [← hpos]
    | nil =>
      rw [if_neg (by rw [hcount]; simp)]
      -- the next father exists and has `c'` first
      rw [List.nil_append] at hsplit
      cases Q with
      | nil =>
        rw [← hsplit.2] at hQ
        simp at hQ
      | cons n' Q =>
        have hne : (t.heap n').entry ≠ [] := hs.entry_ne_nil hi n' (by simp [hup])
        obtain ⟨path', hsp, hpath'⟩ := shift_path_spec hs path hup hpath
        have hnext : (t.heap n).next = some n' := by
          have hl := hs.link (i + 1) hi
          rw [hup] at hl
          simpa using hl.next_eq
        simp only [hnext, hsp]
        refine ⟨_, rfl, hi, by simp [hup], ?_, hpath'⟩
        rw [Node.child]
        cases hen : (t.heap n').entry with
        | nil => exact absurd hen hne
        | cons e es =>
          rw [← hsplit.2, ents_cons, hen, nodeEntries_cons, List.cons_append] at hQ
          rw [(List.cons.inj hQ).1]
          rfl

/-! ## The scan over equal keys -/

/-- No item among the entries is hit by `m`. -/
def NoHit (m : Meta) (es : List Entry) : Prop :=
  ∀ x, ⟨x.key, .leaf (some x)⟩ ∈ es → Leaves.hits m x = false

/-- A leaf entry holds an item, or it is the sentinel. -/
theorem mem_leafEntries {e : Entry} : e ∈ leafEntries items ↔
    (∃ x ∈ items, e = ⟨x.key, .leaf (some x)⟩) ∨ e = ⟨Key.sentinel, .leaf none⟩ := by
  simp only [leafEntries, List.mem_append, List.mem_map, List.mem_singleton, eq_comm]

theorem noHit_leafEntries {m : Meta} (h : NoHit m (leafEntries items)) :
    ∀ x ∈ items, Leaves.hits m x = false :=
  fun x hx => h x (mem_leafEntries.mpr (Or.inl ⟨x, hx, rfl⟩))

theorem not_eqv_sentinel (m : Meta) : m.key.eqv Key.sentinel = false := by
  by_contra h
  rw [Bool.not_eq_false] at h
  have := m.key_lt_sentinel
  rw [Key.eqv_not_lt h] at this
  exact Bool.false_ne_true this

/-- The scan stops at a key that is not the searched one: no later item has it. -/
theorem noHit_of_stop {m : Meta} {e : Entry} {Y : List Entry}
    (ho : Ordered ((e :: Y).map Entry.key)) (hlt : e.key.lt m.key = false)
    (he : m.key.eqv e.key = false) : NoHit m (e :: Y) := by
  intro x hx
  have hxe : m.key.eqv x.key = false := by
    rcases List.mem_cons.mp hx with rfl | hx
    · exact he
    · by_contra hxm
      rw [Bool.not_eq_false, Key.eqv_comm] at hxm
      have hle : x.key.lt e.key = false :=
        (List.pairwise_cons.mp ho.1).1 x.key (List.mem_map.mpr ⟨_, hx, rfl⟩)
      have := Key.eqv_of_le (ho.2 x.key (List.mem_cons_of_mem _ (List.mem_map.mpr ⟨_, hx, rfl⟩)))
        hle hlt hxm
      rw [Key.eqv_comm, he] at this
      exact Bool.false_ne_true this
  rw [Leaves.hits, hxe, Bool.false_and]

/-- Position `pos` of node `n` holds the first item that `m` hits. -/
structure FirstHit (t : Tree) (lv : ℕ → List NodeId) (m x : Meta) (n : NodeId) (pos : ℕ)
    (path : List Pathlink) (A B : List NodeId) : Prop where
  level : lv 0 = A ++ n :: B
  path : PathOK t lv 0 n path
  entry : (t.heap n).entry[pos]? = some ⟨x.key, .leaf (some x)⟩
  hits : Leaves.hits m x = true
  before : NoHit m (ents t.heap A ++ (t.heap n).entry.take pos)

/-- The found item is one of the tree's. -/
theorem FirstHit.mem {m x : Meta} {n : NodeId} {pos : ℕ} {path : List Pathlink} {A B : List NodeId}
    (hs : Shape t t.keyOf lv items) (hfh : FirstHit t lv m x n pos path A B) : x ∈ items := by
  have hent := hs.entry 0 hs.hgt_pos
  have hm : (⟨x.key, .leaf (some x)⟩ : Entry) ∈ ents t.heap (lv 0) :=
    List.mem_flatMap.mpr ⟨n, by simp [hfh.level], List.mem_of_getElem? hfh.entry⟩
  rw [hent, below, mem_leafEntries] at hm
  rcases hm with ⟨y, hy, he⟩ | he
  · obtain rfl : x = y := by simpa using congrArg Entry.child he
    exact hy
  · simp at he

/-- An item found in a node with one entry is that entry. -/
theorem FirstHit.entry_eq {m x : Meta} {n : NodeId} {pos : ℕ} {path : List Pathlink}
    {A B : List NodeId} (hfh : FirstHit t lv m x n pos path A B) (hc : (t.heap n).count = 1) :
    (t.heap n).entry = [⟨x.key, .leaf (some x)⟩] := by
  obtain ⟨e, he⟩ := List.length_eq_one_iff.mp hc
  have hx := hfh.entry
  rw [he, List.getElem?_singleton] at hx
  split_ifs at hx
  rw [he, Option.some.inj hx]

/-- **The scan** finds the first item that `m` hits, or there is none. -/
theorem delScan_spec (hs : Shape t t.keyOf lv items) (ho : Ordered (items.map Meta.key))
    (m : Meta) : ∀ (fuel : ℕ) {n : NodeId} {pos : ℕ} {path : List Pathlink} {A B : List NodeId},
    lv 0 = A ++ n :: B → pos < (t.heap n).count → PathOK t lv 0 n path →
    NoHit m (ents t.heap A ++ (t.heap n).entry.take pos) →
    (∀ e ∈ (t.heap n).entry.drop pos ++ ents t.heap B, e.key.lt m.key = false) →
    ((t.heap n).entry.drop pos ++ ents t.heap B).length ≤ fuel →
    (t.delScan m fuel n pos path = some none ∧ ∀ x ∈ items, Leaves.hits m x = false) ∨
      ∃ x n' pos' path' A' B', t.delScan m fuel n pos path = some (some (n', pos', path')) ∧
        FirstHit t lv m x n' pos' path' A' B'
  | 0, n, pos, path, A, B, _, hpos, _, _, _, hf => by
    rw [List.length_append, List.length_drop] at hf
    unfold Node.count at hpos
    omega
  | fuel + 1, n, pos, path, A, B, hlv, hpos, hpath, hX, hY, hf => by
    have hent := hs.entry 0 hs.hgt_pos
    rw [hlv, ents_append, ents_cons, below] at hent
    unfold Node.count at hpos
    set e := (t.heap n).entry[pos] with he
    have hdrop : (t.heap n).entry.drop pos = e :: (t.heap n).entry.drop (pos + 1) :=
      List.drop_eq_getElem_cons hpos
    have htake : (t.heap n).entry.take (pos + 1) = (t.heap n).entry.take pos ++ [e] := by
      rw [List.take_add_one, List.getElem?_eq_getElem hpos]
      rfl
    have hsplit : leafEntries items = (ents t.heap A ++ (t.heap n).entry.take pos) ++
        e :: ((t.heap n).entry.drop (pos + 1) ++ ents t.heap B) := by
      rw [← hent, ← List.cons_append, ← hdrop, List.append_assoc, ← List.append_assoc (List.take _ _),
        List.take_append_drop]
    rw [hdrop, List.cons_append] at hY hf
    rw [Tree.delScan, List.getElem?_eq_getElem hpos]
    by_cases heq : m.key.eqv e.key = true
    · -- an item with the key
      obtain ⟨x, hx, hex⟩ : ∃ x ∈ items, e = ⟨x.key, .leaf (some x)⟩ := by
        rcases mem_leafEntries.mp (show e ∈ leafEntries items by rw [hsplit]; simp) with h | h
        · exact h
        · rw [h, not_eqv_sentinel] at heq
          exact absurd heq Bool.false_ne_true
      rw [← he]
      have hxm : m.key.eqv x.key = true := by rwa [hex] at heq
      simp only [hex, hxm, if_true]
      by_cases hm : m.matchItem x = true
      · right
        refine ⟨x, n, pos, path, A, B, by simp [hm], hlv, hpath, ?_, ?_, hX⟩
        · rw [List.getElem?_eq_getElem hpos, ← he, hex]
        · rw [Leaves.hits, hxm, hm]; rfl
      · rw [Bool.not_eq_true] at hm
        have hX' : NoHit m (ents t.heap A ++ (t.heap n).entry.take (pos + 1)) := by
          intro y hy
          rw [htake, ← List.append_assoc] at hy
          rcases List.mem_append.mp hy with hy | hy
          · exact hX y hy
          · rw [List.mem_singleton, hex] at hy
            obtain ⟨-, rfl⟩ : y.key = x.key ∧ y = x := by simpa using hy
            rw [Leaves.hits, hm, Bool.and_false]
        simp only [hm, Bool.false_eq_true, if_false]
        by_cases hlast : pos + 1 = (t.heap n).count
        · -- on to the next node, which exists: the last entry of the level is the sentinel
          have hnil : (t.heap n).entry.drop (pos + 1) = [] :=
            List.drop_eq_nil_of_le (by unfold Node.count at hlast; omega)
          cases B with
          | nil =>
            rw [hnil, ents_nil, List.append_nil] at hsplit
            have := congrArg List.getLast? hsplit
            rw [leafEntries, List.getLast?_append, List.getLast?_append, hex] at this
            simp at this
          | cons n' B =>
            obtain ⟨path', hsp, hpath'⟩ := shift_path_spec hs path hlv hpath
            have hnext : (t.heap n).next = some n' := by
              have hl := hs.link 0 hs.hgt_pos
              rw [hlv] at hl
              simpa using hl.next_eq
            have hlv' : lv 0 = (A ++ [n]) ++ n' :: B := by simp [hlv]
            rw [hnil, List.nil_append] at hY hf
            rw [List.take_of_length_le (by unfold Node.count at hlast; omega)] at hX'
            simp only [hlast, if_true, hnext, hsp]
            refine delScan_spec hs ho m fuel hlv' (hs.count 0 hs.hgt_pos n' (by simp [hlv'])).1
              hpath' ?_ ?_ ?_
            · simpa using hX'
            · intro e' he'
              exact hY e' (List.mem_cons_of_mem _ (by simpa using he'))
            · simpa using hf
        · simp only [hlast, if_false]
          refine delScan_spec hs ho m fuel hlv (by unfold Node.count at hlast ⊢; omega) hpath hX'
            (fun e' he' => hY e' (List.mem_cons_of_mem _ he')) ?_
          simpa using hf
    · rw [Bool.not_eq_true] at heq
      left
      simp only [← he, heq, Bool.false_eq_true, if_false]
      refine ⟨trivial, noHit_leafEntries fun x hx => ?_⟩
      rw [hsplit] at hx
      rcases List.mem_append.mp hx with hx | hx
      · exact hX x hx
      · have hol := ordered_leafEntries ho
        rw [hsplit, List.map_append] at hol
        exact noHit_of_stop (hol.sublist (List.sublist_append_right _ _))
          (hY e List.mem_cons_self) heq x hx

end Kfs
