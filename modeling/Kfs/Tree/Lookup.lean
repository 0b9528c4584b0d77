import Kfs.Tree.Del

/-!
# Lookup refines selection from the sequence of items

* `findLeafLoop_spec`: the descent of `Tree.findLeaf` ends at the place of the key;
* `extractAllLoop_spec`: the scan collects the items with the key that come first;
* **`findLeaf_spec`**: `findLeaf` and `extractAll` give the items with the key, in order.
-/

namespace Kfs

open Lib

variable {k : Key} {t : Tree} {lv : ℕ → List NodeId} {items : List Meta}

theorem findLeafLoop_spec (hs : Shape t t.keyOf lv items) (ho : Ordered (items.map Meta.key)) :
    ∀ (i : ℕ) {n : NodeId}, i < t.hgt → Place t.heap k (lv i) n ((t.heap n).findplace k) →
    (t.heap n).findplace k < (t.heap n).count →
    ∃ n', t.findLeafLoop k (i + 1) n = some (n', (t.heap n').findplace k) ∧
      Place t.heap k (lv 0) n' ((t.heap n').findplace k) ∧
      (t.heap n').findplace k < (t.heap n').count
  | 0, n, hi, hp, hlt => by
    have hl1 : (t.heap n).level1 = true := by rw [hs.level1 0 hi n hp.mem]; rfl
    refine ⟨n, ?_, hp, hlt⟩
    simp [Tree.findLeafLoop, hl1]
  | i + 1, n, hi, hp, hlt => by
    have hl1 : (t.heap n).level1 = false := by
      rw [hs.level1 (i + 1) hi n hp.mem, decide_eq_false (Nat.succ_ne_zero i)]
    obtain ⟨c, hc, hpc, hltc⟩ := hp.descend hs ho hi hlt
    rw [Tree.findLeafLoop]
    simp only [hl1, Bool.false_eq_true, not_false_eq_true, ne_eq, hlt.ne, and_self, if_true, hc]
    exact findLeafLoop_spec hs ho i (by omega) hpc hltc

/-- **The scan of `extractAll`** over the entries of the items `J`. -/
theorem extractAllLoop_spec (hs : Shape t t.keyOf lv items) (hk : k.lt Key.sentinel = true) :
    ∀ (fuel : ℕ) {n : NodeId} {p : ℕ} {A B : List NodeId} {J : List Meta},
    lv 0 = A ++ n :: B → p < (t.heap n).count →
    (t.heap n).entry.drop p ++ ents t.heap B = leafEntries J → (leafEntries J).length ≤ fuel →
    t.extractAllLoop k fuel n p = some (J.takeWhile fun x => x.key.eqv k)
  | 0, n, p, A, B, J, _, _, _, hf => by simp [leafEntries] at hf
  | fuel + 1, n, p, A, B, J, hlv, hp, he, hf => by
    unfold Node.count at hp
    rw [List.drop_eq_getElem_cons hp, List.cons_append] at he
    rw [Tree.extractAllLoop, List.getElem?_eq_getElem hp]
    cases J with
    | nil =>
      -- the sentinel has another key
      obtain ⟨h₁, -⟩ := List.cons.inj he
      have hne : Key.sentinel.eqv k = false := by
        by_contra h
        rw [Bool.not_eq_false, Key.eqv_comm] at h
        rw [Key.eqv_not_lt h] at hk
        exact Bool.false_ne_true hk
      simp only [h₁, hne, Bool.false_eq_true, if_false, List.takeWhile_nil]
    | cons x J =>
      obtain ⟨h₁, h₂⟩ := List.cons.inj he
      simp only [h₁, List.takeWhile_cons]
      split_ifs with hx hlast
      · have hnil : (t.heap n).entry.drop (p + 1) = [] :=
          List.drop_eq_nil_of_le (by unfold Node.count at hlast; omega)
        rw [hnil, List.nil_append] at h₂
        cases B with
        | nil => simp at h₂
        | cons n' B =>
          have hnext : (t.heap n).next = some n' := by
            have hl := hs.link 0 hs.hgt_pos
            rw [hlv] at hl
            simpa using hl.next_eq
          have hlv' : lv 0 = (A ++ [n]) ++ n' :: B := by simp [hlv]
          simp only [hnext]
          rw [extractAllLoop_spec hs hk fuel hlv'
            (hs.count 0 hs.hgt_pos n' (by simp [hlv'])).1 (by simpa [leafEntries] using h₂)
            (by simpa [leafEntries] using hf)]
          rfl
      · rw [extractAllLoop_spec hs hk fuel hlv (by unfold Node.count at hlast ⊢; omega) h₂
          (by simpa [leafEntries] using hf)]
        rfl
      · rfl

/-- In an ordered list without smaller keys, the items with the key come first. -/
theorem takeWhile_eqv_eq_filter {J : List Meta} (ho : Ordered (J.map Meta.key))
    (hJ : ∀ x ∈ J, x.key.lt k = false) :
    (J.takeWhile fun x => x.key.eqv k) = J.filter fun x => x.key.eqv k := by
  induction J with
  | nil => rfl
  | cons x J ih =>
    have ih' := ih (ho.sublist (List.sublist_cons_self _ _)) fun y hy =>
      hJ y (List.mem_cons_of_mem _ hy)
    rw [List.takeWhile_cons, List.filter_cons]
    split_ifs with hx
    · rw [ih']
    · rw [eq_comm, List.filter_eq_nil_iff]
      intro y hy hye
      refine hx (Key.eqv_of_le (ho.2 y.key (by simp; exact Or.inr ⟨y, hy, rfl⟩)) ?_
        (hJ x List.mem_cons_self) hye)
      exact (List.pairwise_cons.mp ho.1).1 y.key (List.mem_map_of_mem hy)

/-- **Lookup.** `findLeaf` and `extractAll` give the items with the key. -/
theorem findLeaf_spec (hs : Shape t t.keyOf lv items) (ho : Ordered (items.map Meta.key))
    (hk : k.lt Key.sentinel = true) :
    (t.findLeaf k = some none ∧ Leaves.find items k = []) ∨
      ∃ n, t.findLeaf k = some (some n) ∧ t.extractAll n k = some (Leaves.find items k) ∧
        Leaves.find items k ≠ [] := by
  have hk' := Key.le_of_lt hk
  have hpos := hs.hgt_pos
  obtain ⟨hp₀, hlt₀⟩ := Place.root hs ho hk'
  obtain ⟨n, hloop, hp, hlt⟩ := findLeafLoop_spec hs ho (t.hgt - 1) (by omega) hp₀ hlt₀
  rw [show t.hgt - 1 + 1 = t.hgt by omega] at hloop
  obtain ⟨A, B, hlv, -, hsm, hge⟩ := hp
  have he := hs.entry 0 hpos
  rw [hlv, ents_append, ents_cons, below] at he
  obtain ⟨-, hY⟩ := leafEntries_split ho hk' (by
    rw [← he, List.append_assoc, ← List.append_assoc (List.take _ _), List.take_append_drop])
    hsm hge
  set J := items.dropWhile fun x => x.key.lt k with hJ
  have hfind : Leaves.find items k = J.takeWhile fun x => x.key.eqv k := by
    have hoJ : Ordered (J.map Meta.key) := ho.sublist ((List.dropWhile_sublist _).map _)
    rw [takeWhile_eqv_eq_filter hoJ (ho.split k), Leaves.find]
    conv_lhs => rw [← List.takeWhile_append_dropWhile (p := fun x : Meta => x.key.lt k) (l := items)]
    rw [List.filter_append, List.filter_eq_nil_iff.mpr, List.nil_append]
    intro x hx hxe
    have := List.mem_takeWhile_imp (p := fun x : Meta => x.key.lt k) hx
    rw [Key.eqv_not_lt hxe] at this
    exact Bool.false_ne_true this
  have hlen : (leafEntries J).length ≤ (t.fresh + 1) * NKEY := by
    refine le_trans ?_ hs.length_ents_le
    rw [← hY, hlv, ents_append, ents_cons]
    simp only [List.length_append, List.length_drop]
    omega
  have hext : t.extractAll n k = some (Leaves.find items k) := by
    rw [Tree.extractAll, extractAllLoop_spec hs hk _ hlv hlt hY hlen, hfind]
  unfold Node.count at hlt
  have hfl : t.findLeaf k = some (if ((t.heap n).entry[(t.heap n).findplace k]).key.eqv k then some n
      else none) := by
    rw [Tree.findLeaf, hloop]
    simp only [Option.bind_eq_bind, Option.bind_some, List.getElem?_eq_getElem hlt]
    rfl
  rw [hfl]
  split_ifs with hx
  · refine Or.inr ⟨n, rfl, hext, ?_⟩
    rw [List.drop_eq_getElem_cons hlt, List.cons_append] at hY
    cases hJ' : J with
    | nil =>
      -- the sentinel has another key
      rw [hJ'] at hY
      rw [(List.cons.inj hY).1, Key.eqv_comm] at hx
      rw [Key.eqv_not_lt hx] at hk
      exact absurd hk Bool.false_ne_true
    | cons y J' =>
      rw [hJ'] at hY
      rw [(List.cons.inj hY).1] at hx
      rw [hfind, hJ', List.takeWhile_cons, if_pos hx]
      exact List.cons_ne_nil _ _
  · left
    refine ⟨rfl, ?_⟩
    rw [List.drop_eq_getElem_cons hlt, List.cons_append] at hY
    rw [hfind]
    cases hJ' : J with
    | nil => rfl
    | cons y J' =>
      rw [hJ'] at hY
      have hy : ((t.heap n).entry[(t.heap n).findplace k]).key = y.key := by
        rw [(List.cons.inj hY).1]
      rw [hy] at hx
      rw [List.takeWhile_cons, if_neg hx]

end Kfs
