import Kfs.Base
import Kfs.Lib.LowerBound

/-!
# The sequence of leaf items

What the metadata tree is for: a sequence of items in the order of their keys. The tree of
`kfstree.cc` implements these operations; the operations on files are written over them.

* `Ordered`: non-decreasing keys without the wildcard; `Ordered.split`;
* `Leaves.insert`, `Leaves.del`, `Leaves.find`: insertion before the first item that is not
  smaller, removal of the first item that matches, all items with a key;
* `Leaves.ordered_insert`, `Leaves.ordered_del`; `Leaves.insert_perm`, `Leaves.del_perm`.
-/

namespace Kfs

open Lib

/-- Non-decreasing keys without the wildcard. -/
def Ordered (ks : List Key) : Prop :=
  ks.Pairwise (fun a b => b.lt a = false) ∧ ∀ k ∈ ks, k.Plain

instance (ks : List Key) : Decidable (Ordered ks) := by unfold Ordered; infer_instance

theorem Ordered.sublist {ks ks' : List Key} (ho : Ordered ks) (hl : List.Sublist ks' ks) :
    Ordered ks' :=
  ⟨ho.1.sublist hl, fun k hk => ho.2 k (hl.subset hk)⟩

/-- In an ordered list, the keys below a search key come first. -/
theorem Ordered.split {α : Type} {f : α → Key} {es : List α} (ho : Ordered (es.map f)) (k : Key) :
    Split (fun e => (f e).lt k) es := by
  intro e he
  cases hd : es.dropWhile (fun e => (f e).lt k) with
  | nil => rw [hd] at he; simp at he
  | cons d ds =>
    have hdk : (f d).lt k = false := by
      have := List.head?_dropWhile_not (fun e => (f e).lt k) es
      rw [hd] at this
      simpa using this
    have hod : Ordered ((d :: ds).map f) :=
      ho.sublist ((hd ▸ List.dropWhile_sublist _).map _)
    rw [hd] at he
    rcases List.mem_cons.mp he with rfl | he
    · exact hdk
    · have hde : (f e).lt (f d) = false :=
        (List.pairwise_cons.mp hod.1).1 (f e) (List.mem_map_of_mem he)
      by_contra hek
      rw [Bool.not_eq_false] at hek
      have := Key.lt_of_le_of_lt (hod.2 (f d) (by simp))
        (hod.2 (f e) (List.mem_cons_of_mem _ (List.mem_map_of_mem he))) hde hek
      rw [hdk] at this
      exact Bool.false_ne_true this

namespace Leaves

variable {l : List Meta} {m : Meta}

/-- Insert an item before the first one whose key is not smaller. -/
def insert (l : List Meta) (m : Meta) : List Meta :=
  l.takeWhile (fun x => x.key.lt m.key) ++ m :: l.dropWhile (fun x => x.key.lt m.key)

/-- `m` has the key of `x` and matches it. -/
def hits (m x : Meta) : Bool := m.key.eqv x.key && m.matchItem x

/-- Remove the first item that `m` hits. -/
def del (l : List Meta) (m : Meta) : List Meta := l.eraseP (hits m)

/-- All items with key `k`. -/
def find (l : List Meta) (k : Key) : List Meta := l.filter fun x => x.key.eqv k

theorem insert_perm (l : List Meta) (m : Meta) : List.Perm (insert l m) (m :: l) := by
  unfold insert
  refine List.perm_middle.trans ?_
  rw [List.takeWhile_append_dropWhile]

theorem mem_insert {x : Meta} : x ∈ insert l m ↔ x = m ∨ x ∈ l := by
  rw [(insert_perm l m).mem_iff, List.mem_cons]

/-- **Insertion keeps the order.** -/
theorem ordered_insert (ho : Ordered (l.map Meta.key)) (hm : m.key.Plain) :
    Ordered ((insert l m).map Meta.key) := by
  have hsp := ho.split m.key
  have hpw := ho.1
  rw [← List.takeWhile_append_dropWhile (p := fun x : Meta => x.key.lt m.key) (l := l),
    List.map_append, List.pairwise_append] at hpw
  obtain ⟨h₁, h₂, h₃⟩ := hpw
  constructor
  · rw [insert, List.map_append, List.map_cons, List.pairwise_append, List.pairwise_cons]
    refine ⟨h₁, ⟨fun k hk => ?_, h₂⟩, fun a ha b hb => ?_⟩
    · obtain ⟨x, hx, rfl⟩ := List.mem_map.mp hk
      exact hsp x hx
    · rcases List.mem_cons.mp hb with rfl | hb
      · obtain ⟨x, hx, rfl⟩ := List.mem_map.mp ha
        exact Key.le_of_lt (List.mem_takeWhile_imp (p := fun x : Meta => x.key.lt m.key) hx)
      · exact h₃ a ha b hb
  · intro k hk
    obtain ⟨x, hx, rfl⟩ := List.mem_map.mp hk
    rcases mem_insert.mp hx with rfl | hx
    · exact hm
    · exact ho.2 _ (List.mem_map_of_mem hx)

/-- **Removal keeps the order.** -/
theorem ordered_del (ho : Ordered (l.map Meta.key)) : Ordered ((del l m).map Meta.key) :=
  ho.sublist (List.eraseP_sublist.map _)

/-- A removal takes one item that `m` hits, or there is none. -/
theorem del_perm (l : List Meta) (m : Meta) :
    (∃ x ∈ l, hits m x = true ∧ List.Perm l (x :: del l m)) ∨
      ((∀ x ∈ l, hits m x = false) ∧ del l m = l) := by
  by_cases hex : ∃ x ∈ l, hits m x = true
  · obtain ⟨x, hx, hp⟩ := hex
    obtain ⟨y, l₁, l₂, -, hy, hl, he⟩ := List.exists_of_eraseP hx hp
    refine Or.inl ⟨y, by simp [hl], hy, ?_⟩
    rw [del, he, hl]
    exact List.perm_middle
  · push Not at hex
    have hno : ∀ x ∈ l, hits m x = false := fun x hx => Bool.eq_false_iff.mpr (hex x hx)
    exact Or.inr ⟨hno, List.eraseP_of_forall_not fun x hx => by simp [hno x hx]⟩

end Leaves

end Kfs
