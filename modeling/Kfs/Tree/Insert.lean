import Kfs.Tree.Search

/-!
# Insertion refines insertion into the sequence of items

* `Tree.split`: an instance of `Shape.rearr`, under a father (`split_father`) or under a new root
  (`Shape.push`, `split_root`);
* `insertTurn_spec`, `insertLoop_spec`: the descent keeps the place of the key and the items;
* **`insert_spec`**: `Tree.insert` always completes and inserts before the first item that is not
  smaller.
-/

namespace Kfs

open Lib

variable {k : Key} {t t' : Tree} {lv lv' : ℕ → List NodeId} {items : List Meta} {i : ℕ}
  {n b f c : NodeId} {p pos : ℕ}

theorem modify_append_cons {α : Type} (A : List α) (x : α) (B : List α) (g : α → α) :
    (A ++ x :: B).modify A.length g = A ++ g x :: B := by
  induction A with
  | nil => simp
  | cons a A ih => simp [ih]

theorem Node.setKey_eq {nd : Node} {A B : List Entry} {e : Entry} (he : nd.entry = A ++ e :: B)
    (k : Key) : nd.setKey A.length k = { nd with entry := A ++ ⟨k, e.child⟩ :: B } := by
  rw [Node.setKey, he, modify_append_cons]

/-- `resetKey` of the child behind the entries `A`. -/
theorem Tree.resetKey_eq {A B : List Entry} {k₀ : Key}
    (he : (t.heap f).entry = A ++ ⟨k₀, .node n⟩ :: B) : t.resetKey f A.length =
      some (t.set f { t.heap f with entry := A ++ ⟨t.keyOf n, .node n⟩ :: B }) := by
  have hc : (t.heap f).child A.length = some n := by
    rw [Node.child, he, List.getElem?_append_right le_rfl]
    simp [Child.node?]
  rw [Tree.resetKey, hc, Option.bind_eq_bind, Option.bind_some, Node.setKey_eq he]
  rfl

/-- `addChild` behind the entries `A`. -/
theorem Node.addChild_eq {nd : Node} {A B : List Entry} {ch : Child} (he : nd.entry = A ++ B)
    (hc : nd.count < NKEY) (hp : pos = A.length) :
    nd.addChild k ch pos = some { nd with entry := A ++ ⟨k, ch⟩ :: B } := by
  rw [Node.addChild, Node.openHole, if_pos (by simpa using hc), he, hp]
  simp

/-! ## Splitting a full node -/

/-- What `split` does with the two halves. -/
structure Halves (t t' : Tree) (n b : NodeId) : Prop where
  left : (t'.heap n).entry = (t.heap n).entry.take NSPLIT
  right : (t'.heap b).entry = (t.heap n).entry.drop NSPLIT
  left_next : (t'.heap n).next = some b
  right_next : (t'.heap b).next = (t.heap n).next
  left_level1 : (t'.heap n).level1 = (t.heap n).level1
  right_level1 : (t'.heap b).level1 = (t.heap n).level1

theorem Halves.count (hh : Halves t t' n b) (hn : (t.heap n).isfull = true) :
    (t'.heap n).count = NSPLIT ∧ (t'.heap b).count = NSPLIT := by
  have hc : (t.heap n).entry.length = NKEY := of_decide_eq_true hn
  rw [Node.count, Node.count, hh.left, hh.right, List.length_take, List.length_drop, hc]
  decide

/-- The halves of a full node replace it below its father. -/
theorem Halves.rearr (hh : Halves t t' n b) (hn : (t.heap n).isfull = true)
    {C D : List NodeId} (hb : ∀ j < t.hgt, b ∉ lv j) (hnb : n ≠ b) (hbf : b < t'.fresh)
    (hroot : t'.root = t.root) (hfirst : t'.first = t.first) (hhgt : t'.hgt = t.hgt)
    (hfresh : t.fresh ≤ t'.fresh)
    (hframe : ∀ m, m ≠ f → m ≠ n → m ≠ b → t'.heap m = t.heap m)
    (hf : (t'.heap f).entry = nodeEntries t'.keyOf (C ++ [n, b] ++ D))
    (hf1 : (t'.heap f).level1 = (t.heap f).level1) (hfn : (t'.heap f).next = (t.heap f).next)
    (hfc : (t'.heap f).count ≤ NKEY) : Rearr t t' lv f C [n] [n, b] D where
  root := hroot
  first := hfirst
  hgt := hhgt
  fresh := hfresh
  frame m h₁ h₂ h₃ := hframe m h₁ (by simpa using h₂) (by simp at h₃; tauto)
  father := hf
  father_level1 := hf1
  father_next := hfn
  father_count := hfc
  entry := by simp [hh.left, hh.right]
  head := rfl
  nonempty := by simp
  count := by
    have := hh.count hn
    intro s hs
    rcases List.mem_pair.mp hs with rfl | rfl
    · rw [this.1]; decide
    · rw [this.2]; decide
  level1 := by
    intro s hs
    rcases List.mem_pair.mp hs with rfl | rfl
    · exact ⟨_, by simp, hh.left_level1⟩
    · exact ⟨n, by simp, hh.right_level1⟩
  link tl h := by
    have h1 : (t.heap n).next = tl := by simpa using h
    simp [hh.left_next, hh.right_next, h1]
  nodup := by simpa using hnb
  new := by
    intro s hs
    rcases List.mem_pair.mp hs with rfl | rfl
    · exact Or.inl (by simp)
    · exact Or.inr ⟨hb, hbf⟩

/-- The place of the key after the split of the node that had it. -/
theorem Halves.place (hh : Halves t t' n b) (hn : (t.heap n).isfull = true)
    (hs : Shape t' t'.keyOf lv' items) (ho : Ordered (items.map Meta.key)) (hi : i < t'.hgt)
    {A B : List NodeId} (hlv : lv i = A ++ n :: B) (hlv' : lv' i = A ++ n :: b :: B)
    (hnd : (lv i).Nodup) (hframe : ∀ m ∈ A ++ B, t'.heap m = t.heap m)
    (hp : Place t.heap k (lv i) n p) (hlt : p < (t.heap n).count) :
    if p ≥ (t'.heap n).count then
      Place t'.heap k (lv' i) b ((t'.heap b).findplace k) ∧
        (t'.heap b).findplace k < (t'.heap b).count
    else Place t'.heap k (lv' i) n p ∧ p < (t'.heap n).count := by
  obtain ⟨A', B', hl, -, hsm, hge⟩ := hp
  have hc := hh.count hn
  rw [hlv] at hl hnd
  have hnA : n ∉ A := fun h => (List.nodup_append.mp hnd).2.2 n h n (by simp) rfl
  have hnB : n ∉ B := (List.nodup_cons.mp (List.nodup_append.mp hnd).2.1).1
  obtain ⟨rfl, -, rfl⟩ := (List.append_cons_inj_of_notMem hnA hnB).mp hl
  have hA : ents t'.heap A = ents t.heap A := ents_congr fun m hm => hframe m (by simp [hm])
  have hB : ents t'.heap B = ents t.heap B := ents_congr fun m hm => hframe m (by simp [hm])
  split_ifs with hpc
  · -- the key belongs in the right half
    have ho' := hs.ordered ho i hi
    have hl' : lv' i = (A ++ [n]) ++ b :: B := by simp [hlv']
    rw [hl'] at ho' ⊢
    have hpl : Place t'.heap k ((A ++ [n]) ++ b :: B) b ((t'.heap b).findplace k) := by
      refine place_findplace ho' (fun e he => hsm e ?_) (fun e he => hge e ?_)
      · rw [ents_append, ents_cons, ents_nil, List.append_nil, hA, hh.left] at he
        rcases List.mem_append.mp he with he | he
        · exact List.mem_append_left _ he
        · exact List.mem_append_right _ (List.take_subset_take_left _ (hc.1 ▸ hpc) he)
      · exact List.mem_append_right _ (hB ▸ he)
    have hbne : (t'.heap b).entry ≠ [] := hs.entry_ne_nil hi b (by simp [hl'])
    refine ⟨hpl, hpl.lt_count hbne (hge _ (List.mem_append_left _ ?_))⟩
    have hne : (t.heap n).entry ≠ [] := List.ne_nil_of_length_pos (by unfold Node.count at hlt; omega)
    have hlast : (t'.heap b).entry.getLast hbne = (t.heap n).entry.getLast hne := by
      simp only [hh.right, List.getLast_drop]
    have hdrop : (t.heap n).entry.drop p ≠ [] := by
      rw [Ne, List.drop_eq_nil_iff, not_le]
      exact hlt
    rw [hlast, ← List.getLast_drop hdrop]
    exact List.getLast_mem hdrop
  · refine ⟨⟨A, b :: B, hlv', by omega, fun e he => hsm e ?_, fun e he => hge e ?_⟩, by omega⟩
    · rwa [hA, hh.left, List.take_take, min_eq_left (by omega)] at he
    · rw [ents_cons, hB, hh.left, hh.right, ← List.append_assoc, ← List.drop_append_of_le_length,
        List.take_append_drop] at he
      · exact he
      · rw [← hh.left]
        unfold Node.count at hpc
        omega

/-- The two halves of node `n`, the right one at address `b`. -/
def Tree.halve (t : Tree) (n : NodeId) : Tree :=
  ((({ t with fresh := t.fresh + 1 }).set t.fresh
    { t.heap n with entry := (t.heap n).entry.drop NSPLIT }).set n
    { t.heap n with entry := (t.heap n).entry.take NSPLIT, next := some t.fresh })

theorem Tree.halve_halves (hnb : n ≠ t.fresh) : Halves t (t.halve n) n t.fresh := by
  constructor <;> simp [Tree.halve, Ne.symm hnb]

theorem Tree.split_some (hn : (t.heap n).isfull = true) : t.split n (some f) pos =
    if ((t.halve n).heap f).isfull then none
    else if ((t.halve n).heap f).child pos ≠ some n then none
    else ((t.halve n).resetKey f pos).bind fun t' =>
      ((t'.heap f).addChild (t'.heap t.fresh).key (.node t.fresh) (1 + pos)).bind fun f' =>
        some (t'.set f f', t.fresh) := by
  have hc : (t.heap n).entry.length = NKEY := of_decide_eq_true hn
  have h₁ : (t.heap n).count - NSPLIT = NSPLIT := by rw [Node.count, hc]; decide
  have h₂ : ((t.heap n).entry.drop NSPLIT).take NSPLIT = (t.heap n).entry.drop NSPLIT :=
    List.take_of_length_le (by rw [List.length_drop, hc]; decide)
  simp only [Tree.split, h₁, h₂]
  rfl

/-- `split` of a full node under its father. -/
theorem split_father (hs : Shape t t.keyOf lv items) (hi : i + 1 < t.hgt) (hfm : f ∈ lv (i + 1))
    (hc : (t.heap f).child pos = some n) (hff : (t.heap f).isfull = false)
    (hn : (t.heap n).isfull = true) :
    ∃ t' A B, t.split n (some f) pos = some (t', t.fresh) ∧ t'.hgt = t.hgt ∧
      lv i = A ++ n :: B ∧ Halves t t' n t.fresh ∧ (∀ m ∈ A ++ B, t'.heap m = t.heap m) ∧
      Shape t' t'.keyOf (Function.update lv i (A ++ n :: t.fresh :: B)) items := by
  have hnm : n ∈ lv i := hs.child_mem hi hfm hc
  have hnfresh := hs.fresh i (by omega) n hnm
  have hffresh := hs.fresh (i + 1) hi f hfm
  have hfn : f ≠ n := fun he => hs.disjoint (i + 1) hi i (by omega) (by omega) f hfm (he ▸ hnm)
  have hnb : n ≠ t.fresh := hnfresh.ne
  have hfb : f ≠ t.fresh := hffresh.ne
  obtain ⟨P, Q, hup⟩ := List.append_of_mem hfm
  obtain ⟨lP, K, lQ, hlo, hP, hK, hQ⟩ := hs.father hi hup
  rw [Node.child_of_entry hK] at hc
  obtain ⟨C, D, rfl, rfl⟩ : ∃ C D, K = C ++ n :: D ∧ C.length = pos := by
    obtain ⟨hlt, he⟩ := List.getElem?_eq_some_iff.mp hc
    exact ⟨K.take pos, K.drop (pos + 1), by rw [← he]; simp, by simp; omega⟩
  have hnd := hs.nodup i (by omega)
  have hlo' : lv i = (lP ++ C) ++ n :: (D ++ lQ) := by rw [hlo]; simp
  rw [hlo'] at hnd
  -- the brothers of `n` are neither `n` nor the new node
  have hbro : ∀ m ∈ (lP ++ C) ++ (D ++ lQ), m ≠ n ∧ m ≠ t.fresh ∧ m ≠ f := by
    intro m hm
    have hml : m ∈ lv i := by rw [hlo']; simp only [List.mem_append, List.mem_cons] at hm ⊢; tauto
    refine ⟨fun he => ?_, (hs.fresh i (by omega) m hml).ne, fun he => ?_⟩
    · exact (List.nodup_middle.mp hnd).notMem (he ▸ hm)
    · exact hs.disjoint i (by omega) (i + 1) hi (by omega) m hml (he ▸ hfm)
  set t₂ := t.halve n with ht₂
  have hh₂ : ∀ m, m ≠ n → m ≠ t.fresh → t₂.heap m = t.heap m := by
    intro m h₁ h₂
    simp [ht₂, Tree.halve, h₁, h₂]
  have hkC : nodeEntries t₂.keyOf C = nodeEntries t.keyOf C := nodeEntries_keyOf fun m hm =>
    hh₂ m (hbro m (by simp [hm])).1 (hbro m (by simp [hm])).2.1
  have hkD : nodeEntries t₂.keyOf D = nodeEntries t.keyOf D := nodeEntries_keyOf fun m hm =>
    hh₂ m (hbro m (by simp [hm])).1 (hbro m (by simp [hm])).2.1
  have hhf : t₂.heap f = t.heap f := hh₂ f hfn hfb
  have hfc : (t.heap f).count < NKEY := by
    have h₁ := (hs.count (i + 1) hi f hfm).2
    have h₂ : (t.heap f).count ≠ NKEY := of_decide_eq_false hff
    omega
  set t' := t₂.set f { t.heap f with entry := nodeEntries t₂.keyOf (C ++ [n, t.fresh] ++ D) } with ht'
  have hsplit : t.split n (some f) C.length = some (t', t.fresh) := by
    rw [Tree.split_some hn, ← ht₂, hhf, hff, Node.child_of_entry hK]
    simp only [Bool.false_eq_true, if_false, ne_eq, hc, not_true_eq_false]
    have hf₂ : (t₂.heap f).entry = nodeEntries t.keyOf C ++ ⟨t.keyOf n, .node n⟩ ::
        nodeEntries t.keyOf D := by rw [hhf, hK]; simp
    have hr := Tree.resetKey_eq hf₂
    rw [length_nodeEntries] at hr
    rw [hr, Option.bind_some]
    rw [Tree.set_heap_self, Tree.set_heap_of_ne _ _ (Ne.symm hfb),
      Node.addChild_eq (A := nodeEntries t.keyOf C ++ [⟨t₂.keyOf n, .node n⟩])
        (B := nodeEntries t.keyOf D) (by simp) ?_ (by simp; omega)]
    · rw [Option.bind_some, Tree.set_set, ht', hhf]
      simp [hkC, hkD, Tree.keyOf]
    · rw [Node.count, hK, length_nodeEntries] at hfc
      simpa [Node.count] using hfc
  have hhalf : Halves t t' n t.fresh := by
    have := Tree.halve_halves hnb
    constructor <;> simp only [ht', Tree.set_heap_of_ne _ _ (Ne.symm hfn),
      Tree.set_heap_of_ne _ _ (Ne.symm hfb)]
    exacts [this.1, this.2, this.3, this.4, this.5, this.6]
  have hk' : ∀ m, m ≠ f → t'.keyOf m = t₂.keyOf m := fun m hm => by
    rw [Tree.keyOf, ht', Tree.set_heap_of_ne _ _ hm, ← Tree.keyOf]
  have hr : Rearr t t' lv f C [n] [n, t.fresh] D := by
    refine hhalf.rearr hn (fun j hj hm => (hs.fresh j hj _ hm).ne rfl) hnb ?_ rfl rfl rfl ?_ ?_ ?_
      ?_ ?_ ?_
    · simp [ht', ht₂, Tree.halve]
    · simp [ht', ht₂, Tree.halve]
    · intro m h₁ h₂ h₃
      rw [ht', Tree.set_heap_of_ne _ _ h₁, hh₂ m h₂ h₃]
    · rw [ht', Tree.set_heap_self]
      refine (nodeEntries_congr fun m hm => hk' m ?_).symm
      simp only [List.mem_append, List.mem_pair] at hm
      rcases hm with (hm | rfl | rfl) | hm
      · exact (hbro m (by simp [hm])).2.2
      · exact Ne.symm hfn
      · exact Ne.symm hfb
      · exact (hbro m (by simp [hm])).2.2
    · rw [ht', Tree.set_heap_self]
    · rw [ht', Tree.set_heap_self]
    · rw [ht', Tree.set_heap_self]
      rw [Node.count, hK, length_nodeEntries] at hfc
      simp only [Node.count, length_nodeEntries, List.length_append, List.length_cons,
        List.length_nil] at hfc ⊢
      omega
  refine ⟨t', lP ++ C, D ++ lQ, hsplit, rfl, hlo', hhalf, fun m hm => ?_, ?_⟩
  · have := hbro m hm
    rw [ht', Tree.set_heap_of_ne _ _ this.2.2, hh₂ m this.1 this.2.1]
  · have := hs.rearr hi hup (by rw [hlo]; simp) hP (by rw [hK]; simp) hQ hr
    simpa [List.append_assoc] using this

/-- A new root above the root. -/
def Tree.push (t : Tree) (r : NodeId) : Tree where
  heap := Function.update t.heap r
    { level1 := false, root := true, entry := [⟨t.keyOf t.root, .node t.root⟩], next := none }
  fresh := r + 1
  root := r
  first := t.first
  hgt := t.hgt + 1

/-- **A new root with the root as its only child keeps the shape.** -/
theorem Shape.push (hs : Shape t t.keyOf lv items) {r : NodeId} (hr : t.fresh ≤ r) :
    Shape (t.push r) (t.push r).keyOf (Function.update lv t.hgt [r]) items := by
  have hne : ∀ j < t.hgt, ∀ m ∈ lv j, m ≠ r := fun j hj m hm =>
    (lt_of_lt_of_le (hs.fresh j hj m hm) hr).ne
  have hheap : ∀ j < t.hgt, ∀ m ∈ lv j, (t.push r).heap m = t.heap m := fun j hj m hm => by
    simp [Tree.push, hne j hj m hm]
  have hhr : (t.push r).heap r =
      { level1 := false, root := true, entry := [⟨t.keyOf t.root, .node t.root⟩], next := none } := by
    simp [Tree.push]
  have hroot : t.root ∈ lv (t.hgt - 1) := by simp [hs.root]
  have hpos := hs.hgt_pos
  -- every level but the new one is an old level
  have hlv : ∀ j < (t.push r).hgt, j ≠ t.hgt →
      j < t.hgt ∧ Function.update lv t.hgt [r] j = lv j := fun j hj hjt =>
    ⟨by change j < t.hgt + 1 at hj; omega, Function.update_of_ne hjt _ _⟩
  have hkey : ∀ j < t.hgt, nodeEntries (t.push r).keyOf (lv j) = nodeEntries t.keyOf (lv j) :=
    fun j hj => nodeEntries_keyOf (hheap j hj)
  refine ⟨Nat.succ_pos _, ?_, ?_, ?_, ?_, ?_, ?_, ?_, ?_, ?_⟩
  · change Function.update lv t.hgt [r] (t.hgt + 1 - 1) = [r]
    simp
  · rw [Function.update_of_ne (by omega), hs.first]
    rfl
  all_goals intro j hj; by_cases hjt : j = t.hgt
  · rw [hjt, Function.update_self, ents_cons, ents_nil, List.append_nil, hhr]
    obtain ⟨j', hj'⟩ : ∃ j', t.hgt = j' + 1 := ⟨t.hgt - 1, by omega⟩
    rw [hj', below, Function.update_of_ne (by omega), show j' = t.hgt - 1 by omega,
      hkey _ (by omega), hs.root]
    rfl
  · obtain ⟨hj', he⟩ := hlv j hj hjt
    rw [he, ents_congr (hheap j hj'), hs.entry j hj']
    cases j with
    | zero => rfl
    | succ j =>
      rw [below, below, Function.update_of_ne (by omega), hkey j (by omega)]
  · rw [hjt, Function.update_self]
    simp [hhr, hpos.ne']
  · obtain ⟨hj', he⟩ := hlv j hj hjt
    intro m hm
    rw [he] at hm
    rw [hheap j hj' m hm, hs.level1 j hj' m hm]
  · rw [hjt, Function.update_self]
    simp [hhr, Node.count, NKEY]
  · obtain ⟨hj', he⟩ := hlv j hj hjt
    intro m hm
    rw [he] at hm
    rw [hheap j hj' m hm]
    exact hs.count j hj' m hm
  · rw [hjt, Function.update_self]
    simp [hhr]
  · obtain ⟨hj', he⟩ := hlv j hj hjt
    rw [he]
    exact (Linked.congr fun m hm => by rw [hheap j hj' m hm]).mpr (hs.link j hj')
  · rw [hjt, Function.update_self]
    simp
  · obtain ⟨hj', he⟩ := hlv j hj hjt
    rw [he]
    exact hs.nodup j hj'
  · intro k hk hjk m hm hm'
    obtain ⟨hk', he⟩ := hlv k hk (by omega)
    rw [hjt, Function.update_self, List.mem_singleton] at hm
    rw [he] at hm'
    exact hne k hk' m hm' hm
  · obtain ⟨hj', he⟩ := hlv j hj hjt
    intro k hk hjk m hm hm'
    rw [he] at hm
    by_cases hkt : k = t.hgt
    · rw [hkt, Function.update_self, List.mem_singleton] at hm'
      exact hne j hj' m hm hm'
    · obtain ⟨hk', he'⟩ := hlv k hk hkt
      rw [he'] at hm'
      exact hs.disjoint j hj' k hk' hjk m hm hm'
  · rw [hjt, Function.update_self]
    simp [Tree.push]
  · obtain ⟨hj', he⟩ := hlv j hj hjt
    intro m hm
    rw [he] at hm
    have := lt_of_lt_of_le (hs.fresh j hj' m hm) hr
    exact Nat.lt_succ_of_lt this

/-- `pushroot` written out. -/
theorem Tree.pushroot_eq (t : Tree) (hb : t.root ≠ b) : t.pushroot b =
    some { t with
      heap := Function.update
        ((t.set t.root { t.heap t.root with root := false }).set b
          { t.heap b with root := false }).heap t.fresh
        { level1 := false, root := true, next := none, entry := nodeEntries t.keyOf [t.root, b] }
      fresh := t.fresh + 1, root := t.fresh, hgt := t.hgt + 1 } := by
  simp only [Tree.pushroot, Tree.set_heap_of_ne _ _ (Ne.symm hb), Tree.set_heap_of_ne _ _ hb,
    Tree.set_heap_self, Node.addChild, Node.openHole, Node.count]
  rfl

/-- The halves of the root below a new root. -/
def Tree.splitRoot (t : Tree) : Tree :=
  let t₂ := t.halve t.root
  { t₂ with
    heap := Function.update
      ((t₂.set t.root { t₂.heap t.root with root := false }).set t.fresh
        { t₂.heap t.fresh with root := false }).heap (t.fresh + 1)
      { level1 := false, root := true, next := none,
        entry := nodeEntries t₂.keyOf [t.root, t.fresh] }
    fresh := t.fresh + 1 + 1, root := t.fresh + 1, hgt := t.hgt + 1 }

theorem Tree.split_none (hn : (t.heap t.root).isfull = true) (hnb : t.root ≠ t.fresh) :
    t.split t.root none pos = some (t.splitRoot, t.fresh) := by
  have hc : (t.heap t.root).entry.length = NKEY := of_decide_eq_true hn
  have h₁ : (t.heap t.root).count - NSPLIT = NSPLIT := by rw [Node.count, hc]; decide
  have h₂ : ((t.heap t.root).entry.drop NSPLIT).take NSPLIT = (t.heap t.root).entry.drop NSPLIT :=
    List.take_of_length_le (by rw [List.length_drop, hc]; decide)
  simp only [Tree.split, h₁, h₂, Tree.set_root, if_true]
  change ((t.halve t.root).pushroot t.fresh).bind (fun t' => some (t', t.fresh)) = _
  rw [Tree.pushroot_eq _ (show (t.halve t.root).root ≠ t.fresh from hnb)]
  rfl

/-- `split` of a full root. -/
theorem split_root (hs : Shape t t.keyOf lv items) (hn : (t.heap t.root).isfull = true) (pos : ℕ) :
    ∃ t', t.split t.root none pos = some (t', t.fresh) ∧ t'.hgt = t.hgt + 1 ∧
      Halves t t' t.root t.fresh ∧ Shape t' t'.keyOf
        (Function.update (Function.update lv t.hgt [t.fresh + 1]) (t.hgt - 1) [t.root, t.fresh])
        items := by
  have hpos := hs.hgt_pos
  have hrm : t.root ∈ lv (t.hgt - 1) := by simp [hs.root]
  have hrf : t.root < t.fresh := hs.fresh _ (by omega) _ hrm
  have hr1 : t.root ≠ t.fresh + 1 := (Nat.lt_succ_of_lt hrf).ne
  have hf1 : t.fresh ≠ t.fresh + 1 := (Nat.lt_succ_self _).ne
  have hpush := hs.push (Nat.le_succ t.fresh)
  have hh₂ : ∀ m, m ≠ t.root → m ≠ t.fresh → m ≠ t.fresh + 1 →
      t.splitRoot.heap m = t.heap m := by
    intro m h₁ h₂ h₃
    simp [Tree.splitRoot, Tree.halve, h₁, h₂, h₃]
  have hhalf : Halves t t.splitRoot t.root t.fresh := by
    have := Tree.halve_halves hrf.ne
    constructor <;> simp [Tree.splitRoot, hr1, hrf.ne, this.1, this.2, this.3, this.4,
      this.5, this.6]
  refine ⟨t.splitRoot, Tree.split_none hn hrf.ne, rfl, hhalf, ?_⟩
  have hpr : (t.push (t.fresh + 1)).heap t.root = t.heap t.root := by simp [Tree.push, hr1]
  have hhalf' : Halves (t.push (t.fresh + 1)) t.splitRoot t.root t.fresh := by
    constructor <;> simp only [hpr, hhalf.1, hhalf.2, hhalf.3, hhalf.4, hhalf.5, hhalf.6]
  have hr : Rearr (t.push (t.fresh + 1)) t.splitRoot (Function.update lv t.hgt [t.fresh + 1])
      (t.fresh + 1) [] [t.root] [t.root, t.fresh] [] := by
    refine hhalf'.rearr (by rw [hpr]; exact hn) (fun j hj hm => ?_) hrf.ne ?_ rfl rfl rfl ?_ ?_ ?_
      ?_ ?_ ?_
    · by_cases hjt : j = t.hgt
      · rw [hjt, Function.update_self, List.mem_singleton] at hm
        exact hf1 hm
      · rw [Function.update_of_ne hjt] at hm
        exact (hs.fresh j (by change j < t.hgt + 1 at hj; omega) _ hm).ne rfl
    · exact Nat.lt_succ_of_lt (Nat.lt_succ_self _)
    · exact le_rfl
    · intro m h₁ h₂ h₃
      rw [hh₂ m h₂ h₃ h₁]
      simp [Tree.push, h₁]
    · have hk : ∀ m ∈ [t.root, t.fresh], t.splitRoot.keyOf m = (t.halve t.root).keyOf m := by
        intro m hm
        rcases List.mem_pair.mp hm with rfl | rfl <;>
          simp [Tree.keyOf, Tree.splitRoot, hr1, hrf.ne, Node.key]
      rw [List.nil_append, List.append_nil, nodeEntries_congr hk]
      simp [Tree.splitRoot]
    · simp [Tree.splitRoot, Tree.push]
    · simp [Tree.splitRoot, Tree.push]
    · simp [Tree.splitRoot, Node.count, NKEY]
  have hup : Function.update lv t.hgt [t.fresh + 1] (t.hgt - 1 + 1) = [] ++ (t.fresh + 1) :: [] := by
    rw [show t.hgt - 1 + 1 = t.hgt by omega, Function.update_self]
    rfl
  have hlo : Function.update lv t.hgt [t.fresh + 1] (t.hgt - 1) =
      [] ++ ([] ++ [t.root] ++ []) ++ [] := by
    rw [Function.update_of_ne (by omega), hs.root]
    rfl
  have hsh := hpush.rearr (by change t.hgt - 1 + 1 < t.hgt + 1; omega) hup hlo rfl ?_ rfl hr
  · simpa using hsh
  · simp [Tree.push, Tree.keyOf, hr1]

/-! ## The descent -/

/-- `dad` and `dpos` are the father of `n` and its position there; `dad` has room. -/
def Dad (t : Tree) (lv : ℕ → List NodeId) (i : ℕ) (n : NodeId) (dad : Option NodeId) (dpos : ℕ) :
    Prop :=
  match dad with
  | none => i + 1 = t.hgt
  | some f => i + 1 < t.hgt ∧ f ∈ lv (i + 1) ∧ (t.heap f).child dpos = some n ∧
      (t.heap f).isfull = false

/-- `split` of a full node that is the root or whose father has room. -/
theorem split_spec (hs : Shape t t.keyOf lv items) (hi : i < t.hgt) (hnm : n ∈ lv i)
    (hn : (t.heap n).isfull = true) {dad : Option NodeId} {dpos : ℕ} (hd : Dad t lv i n dad dpos) :
    ∃ t' lv' A B, t.split n dad dpos = some (t', t.fresh) ∧ i < t'.hgt ∧
      lv i = A ++ n :: B ∧ lv' i = A ++ n :: t.fresh :: B ∧ Halves t t' n t.fresh ∧
      (∀ m ∈ A ++ B, t'.heap m = t.heap m) ∧ Shape t' t'.keyOf lv' items := by
  cases dad with
  | none =>
    have hd' : i = t.hgt - 1 := by change i + 1 = t.hgt at hd; omega
    have hlv : lv i = [t.root] := by rw [hd', hs.root]
    obtain rfl : n = t.root := by simpa [hlv] using hnm
    obtain ⟨t', hsp, hh, hhalf, hsh⟩ := split_root hs hn dpos
    refine ⟨t', _, [], [], hsp, by omega, hlv, ?_, hhalf, by simp, hsh⟩
    rw [← hd', Function.update_self]
    rfl
  | some f =>
    obtain ⟨hi', hf, hc, hff⟩ := hd
    obtain ⟨t', A, B, hsp, hh, hlv, hhalf, hfr, hsh⟩ := split_father hs hi' hf hc hff hn
    exact ⟨t', _, A, B, hsp, by omega, hlv, Function.update_self .., hhalf, hfr, hsh⟩

/-- **One turn of the descent** ends at a node with room, at the place of the key. -/
theorem insertTurn_spec (hs : Shape t t.keyOf lv items) (ho : Ordered (items.map Meta.key))
    (hi : i < t.hgt) (hp : Place t.heap k (lv i) n ((t.heap n).findplace k))
    (hlt : (t.heap n).findplace k < (t.heap n).count) {dad : Option NodeId} {dpos : ℕ}
    (hd : Dad t lv i n dad dpos) :
    ∃ t' n' p' lv', t.insertTurn k n dad dpos = some (t', n', p') ∧
      Shape t' t'.keyOf lv' items ∧ i < t'.hgt ∧ Place t'.heap k (lv' i) n' p' ∧
      p' < (t'.heap n').count ∧ (t'.heap n').isfull = false := by
  unfold Tree.insertTurn
  by_cases hn : (t.heap n).isfull = true
  · obtain ⟨t', lv', A, B, hsp, hi', hlv, hlv', hhalf, hfr, hsh⟩ :=
      split_spec hs hi hp.mem hn hd
    have hpl := hhalf.place hn hsh ho hi' hlv hlv' (hs.nodup i hi) hfr hp hlt
    have hc := hhalf.count hn
    have hnf : ∀ m, (t'.heap m).count = NSPLIT → (t'.heap m).isfull = false := by
      intro m hm
      rw [Node.isfull, hm]
      decide
    simp only [hn, if_true, hsp, Option.bind_eq_bind, Option.bind_some]
    split_ifs at hpl ⊢ with hpc
    · exact ⟨t', t.fresh, _, lv', rfl, hsh, hi', hpl.1, hpl.2, hnf _ hc.2⟩
    · exact ⟨t', n, _, lv', rfl, hsh, hi', hpl.1, hpl.2, hnf _ hc.1⟩
  · rw [Bool.not_eq_true] at hn
    simp only [hn, Bool.false_eq_true, if_false]
    exact ⟨t, n, _, lv, rfl, hs, hi, hp, hlt, hn⟩

/-- **The descent** ends at a level-one node with room, at the place of the key. -/
theorem insertLoop_spec (ho : Ordered (items.map Meta.key)) : ∀ (i : ℕ) {t : Tree}
    {lv : ℕ → List NodeId} {n : NodeId} {dad : Option NodeId} {dpos : ℕ},
    Shape t t.keyOf lv items → i < t.hgt → Place t.heap k (lv i) n ((t.heap n).findplace k) →
    (t.heap n).findplace k < (t.heap n).count → Dad t lv i n dad dpos →
    ∃ t' n' p' lv', t.insertLoop k (i + 1) n dad dpos = some (t', n', p') ∧
      Shape t' t'.keyOf lv' items ∧ Place t'.heap k (lv' 0) n' p' ∧ p' < (t'.heap n').count ∧
      (t'.heap n').isfull = false
  | i, t, lv, n, dad, dpos, hs, hi, hp, hlt, hd => by
    obtain ⟨t', n', p', lv', hturn, hs', hi', hp', hlt', hnf⟩ :=
      insertTurn_spec hs ho hi hp hlt hd
    have hl1 := hs'.level1 i hi' n' hp'.mem
    rw [Tree.insertLoop, hturn]
    cases i with
    | zero =>
      rw [decide_eq_true rfl] at hl1
      simp only [hl1, if_true]
      exact ⟨t', n', p', lv', rfl, hs', hp', hlt', hnf⟩
    | succ i =>
      rw [decide_eq_false (Nat.succ_ne_zero i)] at hl1
      obtain ⟨c, hc, hpc, hltc⟩ := hp'.descend hs' ho hi' hlt'
      simp only [hl1, Bool.false_eq_true, if_false, hc]
      exact insertLoop_spec ho i hs' (by omega) hpc hltc ⟨hi', hp'.mem, hc, hnf⟩

/-! ## Insertion -/

/-- Inserting an entry at the place of its key inserts the item. -/
theorem leafEntries_insert {m : Meta} {X Y : List Entry} (ho : Ordered (items.map Meta.key))
    (he : X ++ Y = leafEntries items) (hX : ∀ e ∈ X, e.key.lt m.key = true)
    (hY : ∀ e ∈ Y, e.key.lt m.key = false) :
    X ++ ⟨m.key, .leaf (some m)⟩ :: Y = leafEntries (Leaves.insert items m) := by
  obtain ⟨rfl, rfl⟩ := leafEntries_split ho (Key.le_of_lt m.key_lt_sentinel) he hX hY
  rw [leafEntries, leafEntries, Leaves.insert]
  simp only [List.map_append, List.map_cons, List.append_assoc, List.cons_append]

/-- **Insertion.** `Tree.insert` completes and inserts the item into the sequence of items. -/
theorem insert_spec (hs : Shape t t.keyOf lv items) (ho : Ordered (items.map Meta.key)) (m : Meta) :
    ∃ t' lv', t.insert m = some t' ∧ Shape t' t'.keyOf lv' (Leaves.insert items m) := by
  have hk : Key.sentinel.lt m.key = false := Key.le_of_lt m.key_lt_sentinel
  have hpos := hs.hgt_pos
  obtain ⟨hp₀, hlt₀⟩ := Place.root hs ho hk
  obtain ⟨t', n, p, lv', hloop, hs', hp, hlt, hnf⟩ :=
    insertLoop_spec ho (t.hgt - 1) hs (by omega) hp₀ hlt₀
      (show Dad t lv (t.hgt - 1) t.root none 0 from (by omega : t.hgt - 1 + 1 = t.hgt))
  rw [show t.hgt - 1 + 1 = t.hgt by omega] at hloop
  have hpos' := hs'.hgt_pos
  have hl1 : (t'.heap n).level1 = true := by rw [hs'.level1 0 hpos' n hp.mem]; rfl
  have hcn := hs'.count 0 hpos' n hp.mem
  have hcn' : (t'.heap n).count < NKEY := by
    have h₂ : (t'.heap n).count ≠ NKEY := of_decide_eq_false hnf
    omega
  obtain ⟨A, B, hlv, hle, hsm, hge⟩ := hp
  have hnd : (t'.heap n).insertData m.key (some m) p = some { t'.heap n with
      entry := (t'.heap n).entry.take p ++ ⟨m.key, .leaf (some m)⟩ :: (t'.heap n).entry.drop p } := by
    rw [Node.insertData, if_pos hl1]
    refine Node.addChild_eq (List.take_append_drop p _).symm hcn' ?_
    rw [List.length_take, ← Node.count, min_eq_left hle]
  set nd : Node := { t'.heap n with
      entry := (t'.heap n).entry.take p ++ ⟨m.key, .leaf (some m)⟩ :: (t'.heap n).entry.drop p }
    with hnd'
  have hkey : nd.key = (t'.heap n).key := by
    have hdrop : (t'.heap n).entry.drop p ≠ [] := by
      rw [Ne, List.drop_eq_nil_iff, not_le]
      exact hlt
    unfold Node.key
    conv_rhs => rw [← List.take_append_drop p (t'.heap n).entry]
    simp only [hnd', List.getLast?_append, List.getLast?_cons,
      List.getLast?_eq_getLast_of_ne_nil hdrop]
    rfl
  refine ⟨t'.set n nd, lv', ?_, ?_⟩
  · rw [Tree.insert]
    simp only [hloop, Option.bind_eq_bind, Option.bind_some, hnd]
    rfl
  · have hsh : Shape (t'.set n nd) t'.keyOf lv' (Leaves.insert items m) := by
      refine hs'.setLeaf hlv rfl rfl ?_ ?_
      · have : nd.count = (t'.heap n).count + 1 := by
          simp only [Node.count, hnd', List.length_append, List.length_cons, List.length_take,
            List.length_drop]
          unfold Node.count at hle
          omega
        omega
      · rw [← leafEntries_insert ho ?_ hsm hge]
        · simp [hnd']
        · have := hs'.entry 0 hpos'
          rw [hlv, ents_append, ents_cons, below] at this
          rw [← this, List.append_assoc, ← List.append_assoc (List.take p _),
            List.take_append_drop]
    refine hsh.congr_kf fun i hi m hm => ?_
    by_cases hmn : m = n
    · rw [hmn, Tree.keyOf, Tree.set_heap_self, hkey, Tree.keyOf]
    · rw [Tree.keyOf, Tree.set_heap_of_ne _ _ hmn, Tree.keyOf]

end Kfs
