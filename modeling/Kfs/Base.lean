import Mathlib.Tactic
import Mathlib.Data.Int.Notation

/-!
# Search keys and metadata items

`base.h`, `kfstypes.h` and the item classes of `meta.h`: the keys of the metadata tree, their
comparison with its wildcard, and the three kinds of leaf items.

* `Key.compare`, `Key.lt`, `Key.eqv`; `Key.matchAny` in the second component matches everything;
* `Key.Plain`: no wildcard; on plain keys the comparison is the lexicographic order;
* `Meta`, `Meta.key`, `Meta.matchItem`.
-/

namespace Kfs

/-- A `std::string`. -/
abbrev Str := List Char

/-- Kinds of metadata (`enum MetaType`). -/
inductive MetaType
  | uninit | internal | fattr | dentry | chunkinfo | sentinel
  deriving DecidableEq, Repr

/-- The value of the enumerator; the sentinel must be the largest. -/
def MetaType.val : MetaType → ℤ
  | .uninit => 0
  | .internal => 1
  | .fattr => 2
  | .dentry => 3
  | .chunkinfo => 4
  | .sentinel => 99999

theorem MetaType.val_injective {a b : MetaType} (h : a.val = b.val) : a = b := by
  cases a <;> cases b <;> first | rfl | (exfalso; revert h; decide)

/-- A search key. -/
structure Key where
  kind : MetaType
  kdata1 : ℤ
  kdata2 : ℤ := 0
  deriving DecidableEq, Repr

namespace Key

/-- The wildcard of the second component. -/
def matchAny : ℤ := -1

/-- The key of the sentinel item that closes the leaf level. -/
def sentinel : Key := ⟨.sentinel, 0, 0⟩

/-- `Key::compare`: negative, zero or positive. -/
def compare (k test : Key) : ℤ :=
  let kdiff := k.kind.val - test.kind.val
  if kdiff ≠ 0 then kdiff
  else if k.kdata1 ≠ test.kdata1 then (if k.kdata1 < test.kdata1 then -1 else 1)
  else if k.kdata2 ≠ test.kdata2 ∧ k.kdata2 ≠ matchAny ∧ test.kdata2 ≠ matchAny then
    (if k.kdata2 < test.kdata2 then -1 else 1)
  else 0

/-- `operator <`. -/
def lt (k test : Key) : Bool := decide (k.compare test < 0)

/-- `operator ==`. -/
def eqv (k test : Key) : Bool := decide (k.compare test = 0)

/-- A key without the wildcard. -/
def Plain (k : Key) : Prop := k.kdata2 ≠ matchAny

instance (k : Key) : Decidable k.Plain := by unfold Plain; infer_instance

theorem lt_iff (a b : Key) : a.lt b = true ↔ a.kind.val < b.kind.val ∨
    (a.kind.val = b.kind.val ∧ (a.kdata1 < b.kdata1 ∨
      (a.kdata1 = b.kdata1 ∧ a.kdata2 < b.kdata2 ∧ a.kdata2 ≠ -1 ∧ b.kdata2 ≠ -1))) := by
  unfold lt
  rw [decide_eq_true_iff]
  unfold compare matchAny
  dsimp only
  split_ifs <;> omega

theorem eqv_iff (a b : Key) : a.eqv b = true ↔ a.kind.val = b.kind.val ∧
    a.kdata1 = b.kdata1 ∧ (a.kdata2 = b.kdata2 ∨ a.kdata2 = -1 ∨ b.kdata2 = -1) := by
  unfold eqv
  rw [decide_eq_true_iff]
  unfold compare matchAny
  dsimp only
  by_cases h₁ : a.kind.val - b.kind.val ≠ 0
  · rw [if_pos h₁]; omega
  by_cases h₂ : a.kdata1 ≠ b.kdata1
  · rw [if_neg h₁, if_pos h₂]
    exact iff_of_false (by split_ifs <;> decide) (by omega)
  by_cases h₃ : a.kdata2 ≠ b.kdata2 ∧ a.kdata2 ≠ -1 ∧ b.kdata2 ≠ -1
  · rw [if_neg h₁, if_neg h₂, if_pos h₃]
    exact iff_of_false (by split_ifs <;> decide) (by omega)
  · rw [if_neg h₁, if_neg h₂, if_neg h₃]
    exact iff_of_true rfl (by omega)

theorem lt_false_iff (a b : Key) : a.lt b = false ↔ ¬ (a.kind.val < b.kind.val ∨
    (a.kind.val = b.kind.val ∧ (a.kdata1 < b.kdata1 ∨
      (a.kdata1 = b.kdata1 ∧ a.kdata2 < b.kdata2 ∧ a.kdata2 ≠ -1 ∧ b.kdata2 ≠ -1)))) := by
  rw [← lt_iff, Bool.not_eq_true]

theorem lt_irrefl (a : Key) : a.lt a = false := by
  rw [lt_false_iff]; omega

/-- On plain keys, equivalence is equality. -/
theorem eqv_eq {a b : Key} (ha : a.Plain) (hb : b.Plain) : a.eqv b = true ↔ a = b := by
  rw [eqv_iff]
  unfold Plain matchAny at ha hb
  constructor
  · rintro ⟨h₁, h₂, h₃⟩
    obtain ⟨k, d, e⟩ := a
    obtain ⟨k', d', e'⟩ := b
    simp only at h₁ h₂ h₃ ha hb
    obtain rfl := MetaType.val_injective h₁
    congr
    omega
  · rintro rfl
    exact ⟨rfl, rfl, Or.inl rfl⟩

/-- A plain key not above a plain key that is below `t` is itself below `t`. -/
theorem lt_of_le_of_lt {a b t : Key} (ha : a.Plain) (hb : b.Plain) (hab : b.lt a = false)
    (h : b.lt t = true) : a.lt t = true := by
  unfold Plain matchAny at ha hb
  rw [lt_false_iff] at hab
  rw [lt_iff] at h ⊢
  omega

theorem le_of_lt {a b : Key} (h : a.lt b = true) : b.lt a = false := by
  rw [lt_iff] at h
  rw [lt_false_iff]
  omega

/-- Among plain keys not below `t`, those equivalent to `t` come first. -/
theorem eqv_of_le {a b t : Key} (hb : b.Plain) (hab : b.lt a = false)
    (hat : a.lt t = false) (hbt : b.eqv t = true) : a.eqv t = true := by
  unfold Plain matchAny at hb
  rw [lt_false_iff] at hab hat
  rw [eqv_iff] at hbt ⊢
  omega

theorem eqv_comm (a b : Key) : a.eqv b = b.eqv a := by
  rw [Bool.eq_iff_iff, eqv_iff, eqv_iff]
  omega

theorem eqv_not_lt {a b : Key} (h : a.eqv b = true) : a.lt b = false := by
  rw [eqv_iff] at h
  rw [lt_false_iff]
  omega

end Key

/-- File types (`enum FileType`). -/
inductive FileType
  | none | file | dir
  deriving DecidableEq, Repr

/-- `struct timeval`. -/
structure Timeval where
  tv_sec : ℤ
  tv_usec : ℤ
  deriving DecidableEq, Repr

/-- Directory entry: `name` in directory `dir` denotes file `id`. -/
structure MetaDentry where
  dir : ℤ
  name : Str
  id : ℤ
  deriving DecidableEq, Repr

/-- File or directory attributes. -/
structure MetaFattr where
  id : ℤ
  type : FileType
  numReplicas : ℤ
  mtime : Timeval
  ctime : Timeval
  crtime : Timeval
  chunkcount : ℤ
  filesize : ℤ
  deriving DecidableEq, Repr

/-- The chunk at `offset` of file `id`. -/
structure MetaChunkInfo where
  id : ℤ
  offset : ℤ
  chunkId : ℤ
  chunkVersion : ℤ
  deriving DecidableEq, Repr

/-- A leaf item. -/
inductive Meta
  | dentry (d : MetaDentry)
  | fattr (f : MetaFattr)
  | chunkinfo (c : MetaChunkInfo)
  deriving DecidableEq, Repr

namespace Meta

/-- `Meta::id`. -/
def id : Meta → ℤ
  | .dentry d => d.id
  | .fattr f => f.id
  | .chunkinfo c => c.id

/-- The virtual `key()`. -/
def key : Meta → Key
  | .dentry d => ⟨.dentry, d.dir, 0⟩
  | .fattr f => ⟨.fattr, f.id, 0⟩
  | .chunkinfo c => ⟨.chunkinfo, c.id, c.offset⟩

/-- `m->match(test)`: dentries compare names, the other items compare ids. -/
def matchItem (m test : Meta) : Bool :=
  match m, test with
  | .dentry d, .dentry e => decide (e.name = d.name)
  | .dentry _, _ => false
  | m, test => decide (m.id = test.id)

theorem plain_sentinel : Key.sentinel.Plain := by decide

theorem key_lt_sentinel (m : Meta) : m.key.lt Key.sentinel = true := by
  rw [Key.lt_iff]
  cases m <;> simp [key, Key.sentinel, MetaType.val]

end Meta

end Kfs
