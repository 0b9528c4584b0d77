import Kfs.Tree.Path

/-!
# Deletion refines removal from the sequence of items

* `Shape.setKey`, **`fixKeys_spec`**: the keys above a removed rightmost item are repaired;
* **`merge_pair`**, **`balance_pair`**: instances of `Shape.rearr`; `mergeNeighbor_spec`,
  `balanceNeighbor_spec`, `rebalance_spec`: the way back up the path;
* `Shape.pop`, `poproot_spec`;
* **`del_spec`**: `Tree.del` removes the first item that matches.
-/

namespace Kfs

open Lib

variable {k : Key} {t t' : Tree} {lv lv' : ℕ → List NodeId} {items : List Meta} {i : ℕ}
  {n b f c c' l r : NodeId} {p pos : ℕ} {kf : NodeId → Key} {path : List Pathlink}

/-! ## Repairing the keys -/

/-- Overwriting the key of a child in its father. -/
theorem Shape.setKey (hs : Shape t kf lv items) (hi : i + 1 < t.hgt) {P Q lP C D lQ : List NodeId}
    (hup : lv (i + 1) = P ++ f :: Q) (hlo : lv i = (lP ++ C) ++ c :: (D ++ lQ))
    (hP : ents t.heap P = nodeEntries kf lP) (hf : (t.heap f).entry = nodeEntries kf (C ++ c :: D))
    (hQ : ents t.heap Q = nodeEntries kf lQ) (k : Key) :
    Shape (t.set f { t.heap f with
      entry := nodeEntries kf C ++ ⟨k, .node c⟩ :: nodeEntries kf D }) (Function.update kf c k) lv
      items := by
  have hnd := hs.nodup i (by omega)
  rw [hlo] at hnd
  have hc : c ∈ lv i := by simp [hlo]
  have hk : ∀ L : List NodeId, c ∉ L → nodeEntries (Function.update kf c k) L = nodeEntries kf L :=
    fun L hL => nodeEntries_congr fun m hm => Function.update_of_ne (ne_of_mem_of_not_mem hm hL) _ _
  have hbro : c ∉ (lP ++ C) ++ (D ++ lQ) := (List.nodup_middle.mp hnd).notMem
  simp only [List.mem_append, not_or] at hbro
  refine hs.setNode hi hup rfl rfl ?_ ?_ fun j hj hji => ?_
  · have := hs.count (i + 1) hi f (by simp [hup])
    rw [Node.count, hf] at this
    simpa [Node.count] using this
  · rw [below, hlo, hP, hQ]
    simp only [nodeEntries_append, nodeEntries_cons, Function.update_self, hk lP hbro.1.1,
      hk C hbro.1.2, hk D hbro.2.1, hk lQ hbro.2.2, List.append_assoc, List.cons_append]
  · cases j with
    | zero => rfl
    | succ j => exact hk (lv j) fun hm => hs.disjoint i (by omega) j (by omega) (by omega) c hc hm

theorem Node.child_congr {nd nd' : Node}
    (h : nd.entry.map Entry.child = nd'.entry.map Entry.child) (p : ℕ) :
    nd.child p = nd'.child p := by
  have hp := congrArg (fun l => l[p]?) h
  simp only [List.getElem?_map] at hp
  unfold Node.child
  cases h₁ : nd.entry[p]? <;> cases h₂ : nd'.entry[p]? <;> simp_all

/-- The inner nodes of the levels have the same children in both trees. -/
def SameLinks (t t' : Tree) (lv : ℕ → List NodeId) : Prop :=
  t'.hgt = t.hgt ∧ ∀ j, j + 1 < t.hgt → ∀ m ∈ lv (j + 1), ∀ p,
    (t'.heap m).child p = (t.heap m).child p

theorem SameLinks.pathOK (hl : SameLinks t t' lv) : ∀ {path : List Pathlink} {i : ℕ} {c : NodeId},
    PathOK t lv i c path → PathOK t' lv i c path
  | [], i, c, h => by
    change i + 1 = t'.hgt
    rw [hl.1]
    exact h
  | (n, p) :: path, i, c, ⟨h₁, h₂, h₃, h₄⟩ =>
    ⟨by rw [hl.1]; exact h₁, h₂, by rw [hl.2 i h₁ n h₂]; exact h₃, hl.pathOK h₄⟩

/-- **Key repair.** When only the key stored for `c` is out of date, `fixKeys` along the path of
`c` brings all keys up to date. -/
theorem fixKeys_spec : ∀ (path : List Pathlink) {t : Tree} {kf : NodeId → Key} {i : ℕ} {c : NodeId},
    Shape t kf lv items → c ∈ lv i → PathOK t lv i c path →
    (∀ j < t.hgt, ∀ m ∈ lv j, m ≠ c → kf m = t.keyOf m) →
    ∃ t', t.fixKeys path = some t' ∧ Shape t' t'.keyOf lv items ∧ SameLinks t t' lv
  | [], t, kf, i, c, hs, hc, hpath, hk => by
    refine ⟨t, rfl, hs.congr_kf fun j hj m hm => (hk j (by omega) m hm fun he => ?_).symm, rfl,
      fun _ _ _ _ _ => rfl⟩
    -- no father stores a key for the root
    change i + 1 = t.hgt at hpath
    exact hs.disjoint j (by omega) i (by omega) (by omega) m hm (he ▸ hc)
  | (f, pos) :: path, t, kf, i, c, hs, hc, ⟨hi, hf, hch, hpath⟩, hk => by
    obtain ⟨P, Q, lP, C, D, lQ, hup, hlo, hP, hK, hQ, hpos⟩ := hs.child_split hi hf hch
    have hfc : f ≠ c := fun he =>
      hs.disjoint (i + 1) hi i (by omega) (by omega) f hf (he ▸ hc)
    have hsk := hs.setKey hi hup hlo hP hK hQ (t.keyOf c)
    have hK' : (t.heap f).entry = nodeEntries kf C ++ ⟨kf c, .node c⟩ :: nodeEntries kf D := by
      rw [hK]; simp
    have hr := Tree.resetKey_eq hK'
    rw [length_nodeEntries, hpos] at hr
    set t₁ := t.set f { t.heap f with
      entry := nodeEntries kf C ++ ⟨t.keyOf c, .node c⟩ :: nodeEntries kf D } with ht₁
    have hlinks : SameLinks t t₁ lv := by
      refine ⟨rfl, fun _ _ m _ p => ?_⟩
      by_cases hmf : m = f
      · rw [hmf, ht₁, Tree.set_heap_self]
        exact Node.child_congr (by simp [hK', List.map_append]) p
      · rw [ht₁, Tree.set_heap_of_ne _ _ hmf]
    have hk₁ : ∀ m, m ≠ f → t₁.keyOf m = t.keyOf m := fun m hm => by
      rw [Tree.keyOf, ht₁, Tree.set_heap_of_ne _ _ hm, Tree.keyOf]
    have hk' : ∀ j < t₁.hgt, ∀ m ∈ lv j, m ≠ f → Function.update kf c (t.keyOf c) m = t₁.keyOf m := by
      intro j hj m hm hmf
      rw [hk₁ m hmf]
      by_cases hmc : m = c
      · rw [hmc, Function.update_self]
      · rw [Function.update_of_ne hmc]
        exact hk j hj m hm hmc
    rw [Tree.fixKeys, hr]
    by_cases hlast : pos + 1 ≠ (t₁.heap f).count
    · -- the father keeps its last key
      refine ⟨t₁, by simp [hlast], hsk.congr_kf fun j hj m hm => ?_, hlinks⟩
      by_cases hmf : m = f
      · rw [hmf, Function.update_of_ne hfc, hk (i + 1) hi f hf hfc]
        have hD : D ≠ [] := by
          rintro rfl
          apply hlast
          rw [ht₁, Tree.set_heap_self, Node.count]
          simp [hpos]
        have hD' : nodeEntries kf D ≠ [] := by simpa [nodeEntries] using hD
        rw [Tree.keyOf, Tree.keyOf, ht₁, Tree.set_heap_self, Node.key, Node.key, hK']
        simp only [List.getLast?_append, List.getLast?_cons,
          List.getLast?_eq_getLast_of_ne_nil hD']
        rfl
      · exact (hk' j (by omega) m hm hmf).symm
    · simp only [hlast, if_false]
      obtain ⟨t', hfix, hs', hl'⟩ := fixKeys_spec path hsk hf (hlinks.pathOK hpath) hk'
      exact ⟨t', hfix, hs', hl'.1.trans hlinks.1, fun j hj m hm p =>
        (hl'.2 j hj m hm p).trans (hlinks.2 j hj m hm p)⟩

/-! ## Joining and balancing two neighbours -/

/-- Two neighbouring children `l`, `r` of `f` and `f` itself are overwritten. -/
def Tree.setPair (t : Tree) (f l r : NodeId) (F L R : Node) : Tree := ((t.set l L).set r R).set f F

/-- `l` and `r` are neighbouring children of `f`, behind the children `C`. -/
structure Pair (t : Tree) (lv : ℕ → List NodeId) (i : ℕ) (f l r : NodeId)
    (P Q lP C D lQ : List NodeId) : Prop where
  lt : i + 1 < t.hgt
  up : lv (i + 1) = P ++ f :: Q
  low : lv i = lP ++ (C ++ [l, r] ++ D) ++ lQ
  left : ents t.heap P = nodeEntries t.keyOf lP
  entry : (t.heap f).entry = nodeEntries t.keyOf (C ++ [l, r] ++ D)
  right : ents t.heap Q = nodeEntries t.keyOf lQ

theorem Shape.pair (hs : Shape t t.keyOf lv items) (hi : i + 1 < t.hgt) (hf : f ∈ lv (i + 1))
    (hl : (t.heap f).child pos = some l) (hr : (t.heap f).child (pos + 1) = some r) :
    ∃ P Q lP C D lQ, Pair t lv i f l r P Q lP C D lQ ∧ C.length = pos := by
  obtain ⟨P, Q, lP, C, D, lQ, hup, hlo, hP, hK, hQ, rfl⟩ := hs.child_split hi hf hl
  rw [Node.child_of_entry hK, List.getElem?_append_right (by omega)] at hr
  cases D with
  | nil => simp at hr
  | cons d D =>
    obtain rfl : d = r := by simpa using hr
    exact ⟨P, Q, lP, C, D, lQ, ⟨hi, hup, by rw [hlo]; simp, hP, by rw [hK]; simp, hQ⟩, rfl⟩

theorem take_append_drop_second {α : Type} (X Y : List α) (x y : α) :
    (X ++ x :: y :: Y).take (X.length + 1) ++ (X ++ x :: y :: Y).drop (X.length + 1 + 1) =
      X ++ x :: Y := by
  induction X with
  | nil => simp
  | cons a X ih =>
    simp only [List.cons_append, List.length_cons, List.take_succ_cons, List.drop_succ_cons, ih]

section

variable {P Q lP C D lQ : List NodeId} {F L R : Node}

theorem Pair.mem (hp : Pair t lv i f l r P Q lP C D lQ) :
    f ∈ lv (i + 1) ∧ l ∈ lv i ∧ r ∈ lv i := by
  simp [hp.up, hp.low]

variable (hs : Shape t t.keyOf lv items) (hp : Pair t lv i f l r P Q lP C D lQ)

include hs hp

theorem Pair.ne : l ≠ r ∧ l ≠ f ∧ r ≠ f := by
  obtain ⟨hf, hl, hr⟩ := hp.mem
  have hi := hp.lt
  have hnd := hs.nodup i (by omega)
  rw [hp.low] at hnd
  refine ⟨?_, fun he => ?_, fun he => ?_⟩
  · have : [l, r].Nodup := hnd.sublist (by
      simp only [List.append_assoc]
      exact List.sublist_append_of_sublist_right (List.sublist_append_of_sublist_right
        (List.sublist_append_left _ _)))
    simpa using this
  · exact hs.disjoint i (by omega) (i + 1) hi (by omega) l hl (he ▸ hf)
  · exact hs.disjoint i (by omega) (i + 1) hi (by omega) r hr (he ▸ hf)

theorem Pair.bro : ∀ m ∈ C ++ D, m ≠ l ∧ m ≠ r ∧ m ≠ f := by
  intro m hm
  have hi := hp.lt
  have hf := hp.mem.1
  have hml : m ∈ lv i := by
    rw [hp.low]
    simp only [List.mem_append] at hm ⊢
    tauto
  have hperm : List.Perm (lv i) ([l, r] ++ (C ++ D ++ (lP ++ lQ))) := by
    rw [hp.low, List.perm_iff_count]
    intro a
    simp only [List.count_append]
    omega
  have hnd := hperm.nodup_iff.mp (hs.nodup i (by omega))
  have h₁ : m ∉ [l, r] := fun h =>
    (List.nodup_append'.mp hnd).2.2 h (List.mem_append_left _ hm)
  simp only [List.mem_pair, not_or] at h₁
  exact ⟨h₁.1, h₁.2, fun he =>
    hs.disjoint i (by omega) (i + 1) hi (by omega) m hml (he ▸ hf)⟩

theorem Pair.heap : (t.setPair f l r F L R).heap f = F ∧ (t.setPair f l r F L R).heap l = L ∧
    (t.setPair f l r F L R).heap r = R := by
  obtain ⟨h₁, h₂, h₃⟩ := hp.ne hs
  refine ⟨?_, ?_, ?_⟩
  · simp [Tree.setPair]
  · simp [Tree.setPair, h₁, h₂]
  · simp [Tree.setPair, h₃]

theorem Pair.heap_bro : ∀ m ∈ C ++ D, (t.setPair f l r F L R).heap m = t.heap m := by
  intro m hm
  obtain ⟨h₁, h₂, h₃⟩ := hp.bro hs m hm
  simp [Tree.setPair, h₁, h₂, h₃]

/-- **Two neighbours joined into the left one.** -/
theorem Pair.merge (hL : L.entry = (t.heap l).entry ++ (t.heap r).entry)
    (hLn : L.next = (t.heap r).next) (hL1 : L.level1 = (t.heap l).level1) (hLc : L.count ≤ NKEY)
    (hF : F.entry = nodeEntries t.keyOf C ++ ⟨t.keyOf r, .node l⟩ :: nodeEntries t.keyOf D)
    (hFn : F.next = (t.heap f).next) (hF1 : F.level1 = (t.heap f).level1) :
    Shape (t.setPair f l r F L R) (t.setPair f l r F L R).keyOf
      (Function.update lv i (lP ++ (C ++ [l] ++ D) ++ lQ)) items := by
  obtain ⟨hhf, hhl, hhr⟩ := hp.heap hs (F := F) (L := L) (R := R)
  have hi := hp.lt
  have hrne := hs.entry_ne_nil (i := i) (by omega) r hp.mem.2.2
  have hcf := hs.count (i + 1) hi f hp.mem.1
  refine hs.rearr hi hp.up hp.low hp.left hp.entry hp.right ?_
  have hkl : (t.setPair f l r F L R).keyOf l = t.keyOf r := by
    rw [Tree.keyOf, hhl, Node.key, hL, List.getLast?_append,
      List.getLast?_eq_getLast_of_ne_nil hrne, Tree.keyOf, Node.key_eq_getLast hrne]
    rfl
  refine ⟨rfl, rfl, rfl, le_rfl, fun m h₁ h₂ _ => ?_, ?_, ?_, ?_, ?_, ?_, rfl, by simp, ?_, ?_,
    fun tl h => ?_, by simp, fun s hs => Or.inl (by simpa using Or.inl (List.mem_singleton.mp hs))⟩
  · simp only [List.mem_pair, not_or] at h₂
    simp [Tree.setPair, h₁, h₂.1, h₂.2]
  · rw [hhf, hF]
    simp only [nodeEntries_append, nodeEntries_cons, nodeEntries_nil, hkl]
    rw [nodeEntries_keyOf fun m hm => hp.heap_bro hs m (List.mem_append_left _ hm),
      nodeEntries_keyOf fun m hm => hp.heap_bro hs m (List.mem_append_right _ hm)]
    simp
  · rw [hhf, hF1]
  · rw [hhf, hFn]
  · rw [Node.count, hp.entry] at hcf
    rw [hhf, Node.count, hF]
    simp only [length_nodeEntries, List.length_append, List.length_cons, List.length_nil] at hcf ⊢
    omega
  · simp [hhl, hL]
  · intro s hs'
    rw [List.mem_singleton.mp hs', hhl]
    refine ⟨?_, hLc⟩
    rw [Node.count, hL, List.length_append]
    have := List.length_pos_of_ne_nil hrne
    omega
  · intro s hs'
    rw [List.mem_singleton.mp hs', hhl]
    exact ⟨l, by simp, hL1⟩
  · simp only [linked_cons, List.head?_cons, List.head?_nil, Option.none_or, linked_nil,
      and_true] at h ⊢
    rw [hhl, hLn, h.2]

/-- **Entries moved between two neighbours.** -/
theorem Pair.balance (hLR : L.entry ++ R.entry = (t.heap l).entry ++ (t.heap r).entry)
    (hLn : L.next = (t.heap l).next) (hL1 : L.level1 = (t.heap l).level1)
    (hRn : R.next = (t.heap r).next) (hR1 : R.level1 = (t.heap r).level1)
    (hLc : 1 ≤ L.count ∧ L.count ≤ NKEY) (hRc : 1 ≤ R.count ∧ R.count ≤ NKEY)
    (hF : F.entry = nodeEntries t.keyOf C ++ ⟨L.key, .node l⟩ :: ⟨t.keyOf r, .node r⟩ ::
      nodeEntries t.keyOf D)
    (hFn : F.next = (t.heap f).next) (hF1 : F.level1 = (t.heap f).level1) :
    Shape (t.setPair f l r F L R) (t.setPair f l r F L R).keyOf
      (Function.update lv i (lP ++ (C ++ [l, r] ++ D) ++ lQ)) items := by
  obtain ⟨hhf, hhl, hhr⟩ := hp.heap hs (F := F) (L := L) (R := R)
  have hi := hp.lt
  have hrne := hs.entry_ne_nil (i := i) (by omega) r hp.mem.2.2
  have hRne : R.entry ≠ [] := List.ne_nil_of_length_pos hRc.1
  have hcf := hs.count (i + 1) hi f hp.mem.1
  refine hs.rearr hi hp.up hp.low hp.left hp.entry hp.right ?_
  have hkr : (t.setPair f l r F L R).keyOf r = t.keyOf r := by
    have := congrArg List.getLast? hLR
    rw [List.getLast?_append, List.getLast?_append, List.getLast?_eq_getLast_of_ne_nil hrne,
      List.getLast?_eq_getLast_of_ne_nil hRne] at this
    rw [Tree.keyOf, hhr, Tree.keyOf, Node.key_eq_getLast hrne, Node.key_eq_getLast hRne]
    rw [Option.some_or, Option.some_or, Option.some_inj] at this
    rw [this]
  refine ⟨rfl, rfl, rfl, le_rfl, fun m h₁ h₂ _ => ?_, ?_, ?_, ?_, ?_, ?_, rfl, by simp, ?_, ?_,
    fun tl h => ?_, ?_, fun s hs => Or.inl hs⟩
  · simp only [List.mem_pair, not_or] at h₂
    simp [Tree.setPair, h₁, h₂.1, h₂.2]
  · rw [hhf, hF]
    simp only [nodeEntries_append, nodeEntries_cons, nodeEntries_nil, hkr]
    rw [nodeEntries_keyOf fun m hm => hp.heap_bro hs m (List.mem_append_left _ hm),
      nodeEntries_keyOf fun m hm => hp.heap_bro hs m (List.mem_append_right _ hm)]
    simp [Tree.keyOf, hhl]
  · rw [hhf, hF1]
  · rw [hhf, hFn]
  · rw [Node.count, hp.entry] at hcf
    rw [hhf, Node.count, hF]
    simp only [length_nodeEntries, List.length_append, List.length_cons, List.length_nil] at hcf ⊢
    omega
  · simp [hhl, hhr, hLR]
  · intro s hs'
    rcases List.mem_pair.mp hs' with rfl | rfl
    · rw [hhl]; exact hLc
    · rw [hhr]; exact hRc
  · intro s hs'
    rcases List.mem_pair.mp hs' with rfl | rfl
    · rw [hhl]; exact ⟨_, by simp, hL1⟩
    · rw [hhr]; exact ⟨_, by simp, hR1⟩
  · simp only [linked_cons, List.head?_cons, List.head?_nil, Option.none_or, linked_nil,
      and_true] at h ⊢
    rw [hhl, hhr, hLn, hRn]
    exact h
  · simpa using (hp.ne hs).1

/-- `absorb` and the end of `mergeNeighbor`. -/
theorem Pair.merge_spec (hc : (t.heap r).count + (t.heap l).count < NKEY) :
    ∃ t' lv', ((t.absorb r l).bind fun t => t.dropAbsorbed f C.length) = some t' ∧
      Shape t' t'.keyOf lv' items := by
  obtain ⟨hlr, hlf, hrf⟩ := hp.ne hs
  have he : (t.heap f).entry = nodeEntries t.keyOf C ++ ⟨t.keyOf l, .node l⟩ ::
      ⟨t.keyOf r, .node r⟩ :: nodeEntries t.keyOf D := by rw [hp.entry]; simp
  refine ⟨t.setPair f l r
    { t.heap f with entry := nodeEntries t.keyOf C ++ ⟨t.keyOf r, .node l⟩ :: nodeEntries t.keyOf D }
    { t.heap l with entry := (t.heap l).entry ++ (t.heap r).entry, next := (t.heap r).next }
    { t.heap r with entry := [] }, _, ?_, hp.merge hs rfl rfl rfl ?_ rfl rfl rfl⟩
  · rw [Tree.absorb, if_pos hc.le, Option.bind_some]
    have hf : (((t.set l { t.heap l with
          entry := (t.heap l).entry ++ (t.heap r).entry, next := (t.heap r).next }).set r
        { t.heap r with entry := [] }).heap f) = t.heap f := by simp [Ne.symm hlf, Ne.symm hrf]
    have h₁ : (t.heap f).entry[C.length + 1]? = some ⟨t.keyOf r, .node r⟩ := by
      rw [he, List.getElem?_append_right (by simp)]
      simp
    simp only [Tree.dropAbsorbed, Tree.set_heap_of_ne _ _ (Ne.symm hlr), hf, h₁,
      Option.bind_eq_bind, Option.bind_some]
    have h₂ := Node.setKey_eq he (t.keyOf r)
    rw [length_nodeEntries] at h₂
    rw [h₂, Node.closeHole, if_pos (by simp [Node.count]; omega)]
    simp only [Option.bind_some, Option.pure_def, Option.some.injEq]
    have h₃ := take_append_drop_second (nodeEntries t.keyOf C) (nodeEntries t.keyOf D)
      ⟨t.keyOf r, .node l⟩ ⟨t.keyOf r, .node r⟩
    rw [length_nodeEntries] at h₃
    rw [h₃]
    rfl
  · simp only [Node.count, List.length_append] at hc ⊢
    omega

/-- `shiftRight` from the left neighbour and the key repair of `balanceNeighbor`. -/
theorem Pair.shiftRight_spec {s : ℕ} (hs₁ : 1 ≤ s) (hs₂ : s < (t.heap l).count)
    (hc : s + (t.heap r).count ≤ NKEY) :
    ∃ t' lv', ((t.shiftRight l r s).bind fun t => t.resetKey f C.length) = some t' ∧
      Shape t' t'.keyOf lv' items := by
  obtain ⟨hlr, hlf, hrf⟩ := hp.ne hs
  have hi := hp.lt
  have hcl := hs.count i (by omega) l hp.mem.2.1
  have hcr := hs.count i (by omega) r hp.mem.2.2
  have he : (t.heap f).entry = nodeEntries t.keyOf C ++ ⟨t.keyOf l, .node l⟩ ::
      ⟨t.keyOf r, .node r⟩ :: nodeEntries t.keyOf D := by rw [hp.entry]; simp
  set L : Node := { t.heap l with entry := (t.heap l).entry.take ((t.heap l).count - s) } with hL
  set R : Node := { t.heap r with
    entry := (t.heap l).entry.drop ((t.heap l).count - s) ++ (t.heap r).entry } with hR
  have hsr : t.shiftRight l r s = some ((t.set r R).set l L) := by
    have hlen : ((t.heap l).entry.drop ((t.heap l).count - s)).length = s := by
      rw [List.length_drop]
      unfold Node.count at hs₂ ⊢
      omega
    rw [Tree.shiftRight, Node.openHole, if_pos (by rw [hlen]; omega)]
    simp [hL, hR]
  refine ⟨t.setPair f l r
    { t.heap f with entry := nodeEntries t.keyOf C ++ ⟨L.key, .node l⟩ ::
      ⟨t.keyOf r, .node r⟩ :: nodeEntries t.keyOf D } L R, _, ?_,
    hp.balance hs ?_ rfl rfl rfl rfl ?_ ?_ rfl rfl rfl⟩
  · rw [hsr, Option.bind_some]
    have hf : (((t.set r R).set l L).heap f) = t.heap f := by simp [Ne.symm hlf, Ne.symm hrf]
    have h₁ := Tree.resetKey_eq (t := (t.set r R).set l L) (f := f) (by rw [hf, he])
    rw [length_nodeEntries] at h₁
    rw [h₁, hf, Tree.keyOf, Tree.set_heap_self, Tree.setPair]
    congr 2
    simp [Tree.set, Function.update_comm hlr]
  · rw [hL, hR, ← List.append_assoc, List.take_append_drop]
  · simp only [hL, Node.count, List.length_take] at hcl hs₂ ⊢
    omega
  · simp only [hR, Node.count, List.length_append, List.length_drop] at hcl hs₂ hc hcr ⊢
    omega

/-- `shiftLeft` from the right neighbour and the key repair of `balanceNeighbor`. -/
theorem Pair.shiftLeft_spec {s : ℕ} (hs₁ : 1 ≤ s) (hs₂ : s < (t.heap r).count)
    (hc : s + (t.heap l).count ≤ NKEY) :
    ∃ t' lv', ((t.shiftLeft r l s).bind fun t => t.resetKey f C.length) = some t' ∧
      Shape t' t'.keyOf lv' items := by
  obtain ⟨hlr, hlf, hrf⟩ := hp.ne hs
  have hi := hp.lt
  have hcl := hs.count i (by omega) l hp.mem.2.1
  have hcr := hs.count i (by omega) r hp.mem.2.2
  have he : (t.heap f).entry = nodeEntries t.keyOf C ++ ⟨t.keyOf l, .node l⟩ ::
      ⟨t.keyOf r, .node r⟩ :: nodeEntries t.keyOf D := by rw [hp.entry]; simp
  set L : Node := { t.heap l with entry := (t.heap l).entry ++ (t.heap r).entry.take s } with hL
  set R : Node := { t.heap r with entry := (t.heap r).entry.drop s } with hR
  have hsl : t.shiftLeft r l s = some ((t.set l L).set r R) := by
    simp only [Tree.shiftLeft, Node.closeHole, if_pos hs₂]
    simp [hL, hR]
  refine ⟨t.setPair f l r
    { t.heap f with entry := nodeEntries t.keyOf C ++ ⟨L.key, .node l⟩ ::
      ⟨t.keyOf r, .node r⟩ :: nodeEntries t.keyOf D } L R, _, ?_,
    hp.balance hs ?_ rfl rfl rfl rfl ?_ ?_ rfl rfl rfl⟩
  · rw [hsl, Option.bind_some]
    have hf : (((t.set l L).set r R).heap f) = t.heap f := by simp [Ne.symm hlf, Ne.symm hrf]
    have h₁ := Tree.resetKey_eq (t := (t.set l L).set r R) (f := f) (by rw [hf, he])
    rw [length_nodeEntries] at h₁
    rw [h₁, hf, Tree.keyOf, Tree.set_heap_of_ne _ _ hlr, Tree.set_heap_self, Tree.setPair]
  · rw [hL, hR, List.append_assoc, List.take_append_drop]
  · simp only [hL, Node.count, List.length_append, List.length_take] at hcl hc hs₂ ⊢
    omega
  · simp only [hR, Node.count, List.length_drop] at hs₂ hcr ⊢
    omega

end

/-! ## The way back up -/

theorem Node.leftNeighbor_some {nd : Node} (h : nd.leftNeighbor pos = some l) :
    nd.child (pos - 1) = some l ∧ pos - 1 + 1 = pos := by
  unfold Node.leftNeighbor at h
  split_ifs at h with hp
  exact ⟨h, by omega⟩

theorem Node.rightNeighbor_some {nd : Node} (h : nd.rightNeighbor pos = some r) :
    nd.child (pos + 1) = some r := by
  unfold Node.rightNeighbor at h
  split_ifs at h with hp
  exact h

/-- `mergeNeighbor` of an inner node completes and keeps the items. -/
theorem mergeNeighbor_spec (hs : Shape t t.keyOf lv items) (hi : i + 1 < t.hgt)
    (hf : f ∈ lv (i + 1)) (hc : (t.heap f).child pos = some n) :
    ∃ t' ok lv', t.mergeNeighbor f pos = some (t', ok) ∧ Shape t' t'.keyOf lv' items ∧
      (ok = false → t' = t) := by
  have hl1 : (t.heap f).level1 = false := by
    rw [hs.level1 (i + 1) hi f hf, decide_eq_false (Nat.succ_ne_zero i)]
  have hstay : ∃ t' ok lv', some (t, false) = some (t', ok) ∧ Shape t' t'.keyOf lv' items ∧
      (ok = false → t' = t) := ⟨t, false, lv, rfl, hs, fun _ => rfl⟩
  -- joining two neighbours, in the order of the level
  have hmerge : ∀ {l r : NodeId} {p : ℕ}, (t.heap f).child p = some l →
      (t.heap f).child (p + 1) = some r → (t.heap r).count + (t.heap l).count < NKEY →
      ∃ t' ok lv', (do
        let t ← t.absorb r l
        let t ← t.dropAbsorbed f p
        return (t, true)) = some (t', ok) ∧ Shape t' t'.keyOf lv' items ∧ (ok = false → t' = t) := by
    intro l r p hl hr hlt
    obtain ⟨P, Q, lP, C, D, lQ, hp, rfl⟩ := hs.pair hi hf hl hr
    obtain ⟨t', lv', hm, hs'⟩ := hp.merge_spec hs hlt
    refine ⟨t', true, lv', ?_, hs', by simp⟩
    simp only [Option.bind_eq_bind, Option.pure_def]
    rw [← Option.bind_assoc, hm]
    rfl
  unfold Tree.mergeNeighbor
  simp only [hl1, Bool.false_eq_true, if_false, hc]
  rcases hl : (t.heap f).leftNeighbor pos with - | left
  · rcases hr : (t.heap f).rightNeighbor pos with - | right
    · exact hstay
    · simp only
      split_ifs with h₂
      · exact hmerge hc (Node.rightNeighbor_some hr) (by omega)
      · exact hstay
  · obtain ⟨hleft, hpos⟩ := Node.leftNeighbor_some hl
    simp only
    split_ifs with h₁
    · exact hmerge hleft (by rw [hpos]; exact hc) h₁
    · rcases hr : (t.heap f).rightNeighbor pos with - | right
      · exact hstay
      · simp only
        split_ifs with h₂
        · exact hmerge hc (Node.rightNeighbor_some hr) (by omega)
        · exact hstay

/-- `balanceNeighbor` for an underfull child completes and keeps the items. -/
theorem balanceNeighbor_spec (hs : Shape t t.keyOf lv items) (hi : i + 1 < t.hgt)
    (hf : f ∈ lv (i + 1)) (hc : (t.heap f).child pos = some n)
    (hn : (t.heap n).isdepleted = true) :
    ∃ t' ok lv', t.balanceNeighbor f pos = some (t', ok) ∧ Shape t' t'.keyOf lv' items ∧
      (ok = false → t' = t) := by
  have hl1 : (t.heap f).level1 = false := by
    rw [hs.level1 (i + 1) hi f hf, decide_eq_false (Nat.succ_ne_zero i)]
  have hstay : ∃ t' ok lv', some (t, false) = some (t', ok) ∧ Shape t' t'.keyOf lv' items ∧
      (ok = false → t' = t) := ⟨t, false, lv, rfl, hs, fun _ => rfl⟩
  have hnc : (t.heap n).count < NFEWEST := of_decide_eq_true hn
  have hcount : ∀ {c : NodeId} {p : ℕ}, (t.heap f).child p = some c → (t.heap c).count ≤ NKEY :=
    fun hc => (hs.count i (by omega) _ (hs.child_mem hi hf hc)).2
  have hN : NKEY = 32 ∧ NFEWEST = 16 := ⟨rfl, rfl⟩
  -- what the donor gives is at most half of what it holds above the fewest
  have hex : ∀ {c : NodeId} {p : ℕ}, (t.heap f).child p = some c → 0 < (t.heap c).excess →
      1 ≤ (t.heap c).excess.toNat ∧ (t.heap c).excess.toNat < (t.heap c).count ∧
      (t.heap c).excess.toNat + (t.heap n).count ≤ NKEY := by
    intro c p hc he
    have h₁ := hcount hc
    have h₂ : (t.heap c).excess = (((t.heap c).count : ℤ) - NFEWEST).tdiv 2 := rfl
    have h₃ : 0 ≤ ((t.heap c).count : ℤ) - NFEWEST := by
      by_contra hneg
      have h₄ := Int.tdiv_nonneg (a := (NFEWEST : ℤ) - (t.heap c).count) (b := 2) (by omega)
        (by decide)
      rw [← neg_sub, Int.neg_tdiv] at h₂
      omega
    rw [Int.tdiv_eq_ediv_of_nonneg h₃] at h₂
    omega
  have hright : ∀ {d : NodeId} {p : ℕ}, (t.heap f).child p = some d →
      (t.heap f).child (p + 1) = some n → 0 < (t.heap d).excess →
      ∃ t' ok lv', (do
        let t ← t.shiftRight d n (t.heap d).excess.toNat
        let t ← t.resetKey f p
        return (t, true)) = some (t', ok) ∧ Shape t' t'.keyOf lv' items ∧ (ok = false → t' = t) := by
    intro d p hd hn he
    obtain ⟨h₁, h₂, h₃⟩ := hex hd he
    obtain ⟨P, Q, lP, C, D, lQ, hp, rfl⟩ := hs.pair hi hf hd hn
    obtain ⟨t', lv', hm, hs'⟩ := hp.shiftRight_spec hs h₁ h₂ h₃
    refine ⟨t', true, lv', ?_, hs', by simp⟩
    simp only [Option.bind_eq_bind, Option.pure_def]
    rw [← Option.bind_assoc, hm]
    rfl
  have hleft : ∀ {d : NodeId}, (t.heap f).child (pos + 1) = some d → 0 < (t.heap d).excess →
      ∃ t' ok lv', (do
        let t ← t.shiftLeft d n (t.heap d).excess.toNat
        let t ← t.resetKey f pos
        return (t, true)) = some (t', ok) ∧ Shape t' t'.keyOf lv' items ∧ (ok = false → t' = t) := by
    intro d hd he
    obtain ⟨h₁, h₂, h₃⟩ := hex hd he
    obtain ⟨P, Q, lP, C, D, lQ, hp, hpos⟩ := hs.pair hi hf hc hd
    obtain ⟨t', lv', hm, hs'⟩ := hp.shiftLeft_spec hs h₁ h₂ h₃
    refine ⟨t', true, lv', ?_, hs', by simp⟩
    simp only [Option.bind_eq_bind, Option.pure_def]
    rw [← Option.bind_assoc, ← hpos, hm]
    rfl
  unfold Tree.balanceNeighbor
  simp only [hl1, Bool.false_eq_true, if_false, hc]
  rcases hl : (t.heap f).leftNeighbor pos with - | l <;>
    rcases hr : (t.heap f).rightNeighbor pos with - | r
  · exact hstay
  · -- only a right neighbour
    simp only [show ¬ ((-1 : ℤ) ≥ ((t.heap r).count : ℤ)) by omega, if_false, reduceCtorEq]
    split_ifs with h₁ h₂
    · exact hstay
    · exact hleft (Node.rightNeighbor_some hr) (by omega)
    · have := hex (Node.rightNeighbor_some hr) (by omega)
      omega
  · -- only a left neighbour
    obtain ⟨hl', hpos⟩ := Node.leftNeighbor_some hl
    simp only [show ((t.heap l).count : ℤ) ≥ -1 by omega, if_true]
    split_ifs with h₁ h₂
    · exact hstay
    · exact hright hl' (by rw [hpos]; exact hc) (by omega)
    · have := hex hl' (by omega)
      omega
  · obtain ⟨hl', hpos⟩ := Node.leftNeighbor_some hl
    have hr' := Node.rightNeighbor_some hr
    by_cases hlr : ((t.heap l).count : ℤ) ≥ (t.heap r).count
    · simp only [hlr, if_true]
      split_ifs with h₁ h₂
      · exact hstay
      · exact hright hl' (by rw [hpos]; exact hc) (by omega)
      · have := hex hl' (by omega)
        omega
    · have hne : r ≠ l := by
        rintro rfl
        exact hlr le_rfl
      simp only [hlr, if_false, Option.some.injEq, hne]
      split_ifs with h₁ h₂
      · exact hstay
      · exact hleft hr' (by omega)
      · have := hex hr' (by omega)
        omega

/-- **The way back up** completes and keeps the items. -/
theorem rebalance_spec (hs : Shape t t.keyOf lv items) : ∀ (path : List Pathlink) {i : ℕ}
    {n : NodeId}, PathOK t lv i n path →
    ∃ t' dad lv', t.rebalance n path = some (t', dad) ∧ Shape t' t'.keyOf lv' items
  | [], _, _, _ => ⟨t, none, lv, rfl, hs⟩
  | (f, pos) :: path, i, n, ⟨hi, hf, hc, hpath⟩ => by
    rw [Tree.rebalance]
    simp only [hc, ne_eq, not_true_eq_false, if_false]
    split_ifs with hn
    · obtain ⟨t₁, ok₁, lv₁, hm, hs₁, hstay₁⟩ := mergeNeighbor_spec hs hi hf hc
      rw [hm]
      cases ok₁ with
      | true => exact ⟨t₁, some f, lv₁, rfl, hs₁⟩
      | false =>
        rw [hstay₁ rfl]
        obtain ⟨t₂, ok₂, lv₂, hb, hs₂, hstay₂⟩ := balanceNeighbor_spec hs hi hf hc hn
        simp only [hb]
        cases ok₂ with
        | true => exact ⟨t₂, some f, lv₂, rfl, hs₂⟩
        | false =>
          rw [hstay₂ rfl]
          exact rebalance_spec hs path hpath
    · exact rebalance_spec hs path hpath

/-- **Dropping a root with one child keeps the shape.** -/
theorem Shape.pop (hs : Shape t t.keyOf lv items) (hl1 : (t.heap t.root).level1 = false)
    (hc : (t.heap t.root).count = 1) : ∃ c, (t.heap t.root).child 0 = some c ∧
    Shape { t with root := c, hgt := t.hgt - 1 } t.keyOf lv items := by
  have hpos := hs.hgt_pos
  have hrm : t.root ∈ lv (t.hgt - 1) := by simp [hs.root]
  have hge : 1 < t.hgt := by
    by_contra h
    have h₁ := hs.level1 (t.hgt - 1) (by omega) t.root hrm
    rw [hl1, show t.hgt - 1 = 0 by omega] at h₁
    exact absurd h₁ (by decide)
  have he := hs.entry (t.hgt - 1) (by omega)
  obtain ⟨j, hj⟩ : ∃ j, t.hgt - 1 = j + 1 := ⟨t.hgt - 2, by omega⟩
  rw [hs.root, ents_cons, ents_nil, List.append_nil, hj, below] at he
  rw [Node.count, he, length_nodeEntries] at hc
  obtain ⟨c, hlv⟩ := List.length_eq_one_iff.mp hc
  refine ⟨c, ?_, ?_⟩
  · rw [Node.child_of_entry he, hlv]
    rfl
  · have hlt : ∀ i < t.hgt - 1, i < t.hgt := fun i hi => by omega
    exact ⟨by change 0 < t.hgt - 1; omega, by change lv (t.hgt - 1 - 1) = [c]; rw [hj]; exact hlv,
      hs.first, fun i hi => hs.entry i (hlt i hi), fun i hi => hs.level1 i (hlt i hi),
      fun i hi => hs.count i (hlt i hi), fun i hi => hs.link i (hlt i hi),
      fun i hi => hs.nodup i (hlt i hi),
      fun i hi j hj => hs.disjoint i (hlt i hi) j (hlt j hj), fun i hi => hs.fresh i (hlt i hi)⟩

theorem poproot_spec (hs : Shape t t.keyOf lv items) :
    ∃ t', t.poproot = some t' ∧ Shape t' t'.keyOf lv items := by
  unfold Tree.poproot
  split_ifs with h
  · obtain ⟨hl1, hc⟩ := h
    rw [Bool.not_eq_true] at hl1
    obtain ⟨c, hch, hs'⟩ := hs.pop hl1 hc
    refine ⟨_, ?_, hs'⟩
    rw [hch]
    rfl
  · exact ⟨t, rfl, hs⟩

/-! ## Deletion -/

/-- Dropping the entry of the first item that `m` hits removes the item. -/
theorem leafEntries_del {m x : Meta} {X Y : List Entry}
    (he : leafEntries items = X ++ ⟨x.key, .leaf (some x)⟩ :: Y) (hX : NoHit m X)
    (hx : Leaves.hits m x = true) : X ++ Y = leafEntries (Leaves.del items m) := by
  let g : Meta → Entry := fun x => ⟨x.key, .leaf (some x)⟩
  have hg : ∀ {y : Meta}, g y = g x → y = x := fun h => by simpa [g] using congrArg Entry.child h
  have he' : items.map g ++ [⟨Key.sentinel, .leaf none⟩] = X ++ g x :: Y := he
  rcases List.append_eq_append_iff.mp he' with ⟨Z, hZ, hY⟩ | ⟨Z, hZ, hY⟩
  · cases Z with
    | nil => simp [g] at hY
    | cons z Z =>
      have := congrArg List.length hY
      simp at this
  · cases Z with
    | nil => simp [g] at hY
    | cons z Z =>
      rw [List.cons_append] at hY
      obtain ⟨rfl, rfl⟩ := List.cons.inj hY
      obtain ⟨I₁, I', rfl, rfl, hI'⟩ := List.map_eq_append_iff.mp hZ
      obtain ⟨y, I₂, rfl, hy, rfl⟩ := List.map_eq_cons_iff.mp hI'
      obtain rfl := hg hy
      have hno : ∀ y ∈ I₁, ¬ Leaves.hits m y = true := fun y hy => by
        rw [hX y (List.mem_map.mpr ⟨y, hy, rfl⟩)]
        exact Bool.false_ne_true
      rw [Leaves.del, List.eraseP_append_right _ hno, List.eraseP_cons_of_pos hx, leafEntries,
        List.map_append, List.append_assoc]

/-- **Removal of a found item**, unless it is the only one in its level-one node. -/
theorem delAt_spec (hs : Shape t t.keyOf lv items) {m x : Meta} {A B : List NodeId}
    (hfh : FirstHit t lv m x n pos path A B) (hc : 1 < (t.heap n).count) :
    ∃ t' lv', t.delAt n pos path = some t' ∧ Shape t' t'.keyOf lv' (Leaves.del items m) := by
  obtain ⟨hlv, hpath, hent, hx, hX⟩ := hfh
  obtain ⟨hpos, hxe⟩ := List.getElem?_eq_some_iff.mp hent
  have hnm : n ∈ lv 0 := by simp [hlv]
  set nd : Node := { t.heap n with
    entry := (t.heap n).entry.take pos ++ (t.heap n).entry.drop (pos + 1) } with hnd
  have hrem : (t.heap n).remove pos = some nd := by
    rw [Node.remove, Node.closeHole, if_pos hc, if_pos (show pos < (t.heap n).count from hpos)]
  have hcnt : nd.count + 1 = (t.heap n).count := by
    simp only [hnd, Node.count, List.length_append, List.length_take, List.length_drop]
    omega
  have hs₁ : Shape (t.set n nd) t.keyOf lv (Leaves.del items m) := by
    have hcn := hs.count 0 hs.hgt_pos n hnm
    refine hs.setLeaf hlv rfl rfl (by omega) ?_
    have he := hs.entry 0 hs.hgt_pos
    rw [hlv, ents_append, ents_cons, below, ← List.take_append_drop pos (t.heap n).entry,
      List.drop_eq_getElem_cons hpos, hxe] at he
    rw [← leafEntries_del (X := ents t.heap A ++ (t.heap n).entry.take pos)
      (Y := (t.heap n).entry.drop (pos + 1) ++ ents t.heap B) ?_ hX hx]
    · simp [hnd]
    · rw [← he]
      simp
  have hk₁ : ∀ i, i < t.hgt → ∀ c ∈ lv i, c ≠ n → t.keyOf c = (t.set n nd).keyOf c := by
    intro i hi c hc hcn
    rw [Tree.keyOf, Tree.keyOf, Tree.set_heap_of_ne _ _ hcn]
  have hl₁ : SameLinks t (t.set n nd) lv := by
    refine ⟨rfl, fun j hj c hcm p => ?_⟩
    rw [Tree.set_heap_of_ne]
    rintro rfl
    exact hs.disjoint (j + 1) hj 0 hs.hgt_pos (Nat.succ_ne_zero j) c hcm hnm
  -- the keys above are brought up to date
  obtain ⟨t₂, hfix, hs₂, hl₂⟩ : ∃ t₂, (if pos = ((t.set n nd).heap n).count then
      (t.set n nd).fixKeys path else some (t.set n nd)) = some t₂ ∧
      Shape t₂ t₂.keyOf lv (Leaves.del items m) ∧ SameLinks (t.set n nd) t₂ lv := by
    rw [Tree.set_heap_self]
    split_ifs with hlast
    · exact fixKeys_spec path hs₁ hnm (hl₁.pathOK hpath) hk₁
    · refine ⟨_, rfl, hs₁.congr_kf fun i hi c hc => ?_, rfl, fun _ _ _ _ _ => rfl⟩
      by_cases hcn : c = n
      · have hdrop : (t.heap n).entry.drop (pos + 1) ≠ [] := by
          rw [Ne, List.drop_eq_nil_iff, not_le]
          unfold Node.count at hcnt hlast
          omega
        rw [hcn, Tree.keyOf, Tree.set_heap_self, Tree.keyOf, Node.key, Node.key]
        conv_rhs => rw [← List.take_append_drop (pos + 1) (t.heap n).entry]
        simp only [hnd, List.getLast?_append, List.getLast?_eq_getLast_of_ne_nil hdrop]
        rfl
      · exact (hk₁ i (Nat.lt_of_succ_lt hi) c hc hcn).symm
  obtain ⟨t₃, dad, lv₃, hreb, hs₃⟩ := rebalance_spec hs₂ path (hl₂.pathOK (hl₁.pathOK hpath))
  have hdel : t.delAt n pos path = if dad = some t₃.root then t₃.poproot else some t₃ := by
    simp only [Tree.delAt, hrem, Option.bind_eq_bind, Option.bind_some]
    split_ifs at hfix with hlast
    · simp only [if_pos hlast, hfix, Option.bind_some, hreb]
    · obtain rfl := Option.some.inj hfix
      simp only [if_neg hlast, hreb, Option.bind_some]
  rw [hdel]
  split_ifs with hroot
  · obtain ⟨t₄, hpop, hs₄⟩ := poproot_spec hs₃
    exact ⟨t₄, lv₃, hpop, hs₄⟩
  · exact ⟨t₃, lv₃, rfl, hs₃⟩

theorem delAt_none {m x : Meta} {A B : List NodeId} (hfh : FirstHit t lv m x n pos path A B)
    (hc : (t.heap n).count = 1) : t.delAt n pos path = none := by
  obtain ⟨hpos, -⟩ := List.getElem?_eq_some_iff.mp hfh.entry
  have hrem : (t.heap n).remove pos = none := by
    rw [Node.remove, if_pos (show pos < (t.heap n).count from hpos), Node.closeHole,
      if_neg (by omega)]
  rw [Tree.delAt, hrem]
  rfl

theorem Shape.length_level_le (hs : Shape t kf lv items) : (lv 0).length ≤ t.fresh := by
  have hsub : (lv 0).Subperm (List.range t.fresh) :=
    (hs.nodup 0 hs.hgt_pos).subperm fun n hn => List.mem_range.mpr (hs.fresh 0 hs.hgt_pos n hn)
  simpa using hsub.length_le

/-- The leaf level has at most `NKEY` entries per address. -/
theorem Shape.length_ents_le (hs : Shape t kf lv items) :
    (ents t.heap (lv 0)).length ≤ (t.fresh + 1) * NKEY := by
  have hlen := hs.length_level_le
  have hle : ∀ l : List NodeId, (∀ n ∈ l, (t.heap n).count ≤ NKEY) →
      (ents t.heap l).length ≤ l.length * NKEY := by
    intro l hl
    induction l with
    | nil => simp
    | cons n l ih =>
      have h₁ := hl n List.mem_cons_self
      have h₂ := ih fun m hm => hl m (List.mem_cons_of_mem _ hm)
      unfold Node.count at h₁
      rw [ents_cons, List.length_append, List.length_cons, Nat.add_mul, Nat.one_mul]
      omega
  calc (ents t.heap (lv 0)).length ≤ (lv 0).length * NKEY :=
        hle _ fun n hn => (hs.count 0 hs.hgt_pos n hn).2
    _ ≤ (t.fresh + 1) * NKEY := Nat.mul_le_mul_right _ (by omega)

theorem del_eq {m : Meta} {n : NodeId} {path : List Pathlink}
    (h : t.delDescend m.key t.hgt t.root [] = some (path, n, (t.heap n).findplace m.key)) :
    t.del m = (t.delScan m ((t.fresh + 1) * NKEY) n ((t.heap n).findplace m.key) path).bind fun o => match o with
      | none => some (t, -1)
      | some (n, pos, path) => (t.delAt n pos path).bind fun t' => some (t', 0) := by
  rw [Tree.del, h]
  rfl

/-- **Deletion.** `Tree.del` reports that no item is hit, or it removes the first one that is; it
fails only when that item is alone in its level-one node. -/
theorem del_spec (hs : Shape t t.keyOf lv items) (ho : Ordered (items.map Meta.key)) (m : Meta) :
    (t.del m = some (t, -1) ∧ ∀ x ∈ items, Leaves.hits m x = false) ∨
    ∃ x n pos path A B, FirstHit t lv m x n pos path A B ∧
      (((t.heap n).count = 1 ∧ t.del m = none) ∨
        ∃ t' lv', t.del m = some (t', 0) ∧ Shape t' t'.keyOf lv' (Leaves.del items m)) := by
  have hk : Key.sentinel.lt m.key = false := Key.le_of_lt m.key_lt_sentinel
  have hpos := hs.hgt_pos
  obtain ⟨hp₀, hlt₀⟩ := Place.root hs ho hk
  obtain ⟨path, n, hdesc, hp, hlt, hpath⟩ := delDescend_spec hs ho (t.hgt - 1) (by omega) hp₀ hlt₀
    (show PathOK t lv (t.hgt - 1) t.root [] from (by omega : t.hgt - 1 + 1 = t.hgt))
  rw [show t.hgt - 1 + 1 = t.hgt by omega] at hdesc
  obtain ⟨A, B, hlv, -, hsm, hge⟩ := hp
  have hX : NoHit m (ents t.heap A ++ (t.heap n).entry.take ((t.heap n).findplace m.key)) := by
    intro x hx
    have hx' : x.key.lt m.key = true := hsm _ hx
    rw [Leaves.hits, Bool.and_eq_false_iff]
    left
    by_contra he
    rw [Bool.not_eq_false, Key.eqv_comm] at he
    rw [Key.eqv_not_lt he] at hx'
    exact Bool.false_ne_true hx'
  have hfuel : ((t.heap n).entry.drop ((t.heap n).findplace m.key) ++ ents t.heap B).length ≤
      (t.fresh + 1) * NKEY := by
    refine le_trans ?_ hs.length_ents_le
    rw [hlv, ents_append, ents_cons]
    simp only [List.length_append, List.length_drop]
    omega
  have hdel := del_eq hdesc
  rcases delScan_spec hs ho m _ hlv hlt hpath hX hge hfuel with ⟨hscan, hno⟩ |
    ⟨x, n', pos', path', A', B', hscan, hfh⟩
  · left
    rw [hdel, hscan]
    exact ⟨rfl, hno⟩
  · right
    refine ⟨x, n', pos', path', A', B', hfh, ?_⟩
    have hcn := (hs.count 0 hpos n' (by simp [hfh.level])).1
    rw [hdel, hscan]
    rcases Nat.lt_or_ge 1 (t.heap n').count with hc | hc
    · obtain ⟨t', lv', hat, hs'⟩ := delAt_spec hs hfh hc
      exact Or.inr ⟨t', lv', by simp only [Option.bind_some, hat], hs'⟩
    · have hc1 : (t.heap n').count = 1 := by omega
      exact Or.inl ⟨hc1, by simp only [Option.bind_some, delAt_none hfh hc1, Option.bind_none]⟩

end Kfs
