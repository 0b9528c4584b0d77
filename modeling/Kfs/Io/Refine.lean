import Kfs.Io.Buffer
import Mathlib.Data.List.Lattice
import Mathlib.Data.List.Nodup

/-!
# Buffers are lists of bytes

Every run of the operations on a family of buffers, whose blocks share memory, against lists of bytes.

* `World`, `World.step`: the buffers over one memory; `Spec`, `Spec.step`: the lists of bytes;
* `Owned`: the memory behind the producer of a block is seen in no other block;
* `step_refines`: what one operation preserves;
* **`run_refines`**: in every legal run the buffers show the lists of bytes.
-/

namespace Kfs.Io

open Kfs.Lib
open IOBuffer (Fresh view_congr)

structure World where
  mem : Memory
  bufs : ℕ → IOBuffer

/-- `Append` of a buffer to itself: the loop adds a block for each that it comes to, and never gets to the end unless
there is none. -/
def IOBuffer.AppendSelf (buf : IOBuffer) : Option IOBuffer := if buf.isEmpty then some [] else none

/-- `Move` of a buffer to itself: what is taken from the front goes to the end of what is left. -/
def IOBuffer.MoveSelf (buf : IOBuffer) (numBytes : ℤ) : Option IOBuffer :=
  if IOBuffer.BytesConsumable buf < numBytes then none
  else (IOBuffer.moveLoop numBytes 0 [] buf).map fun (moved, rest) => rest ++ moved

/-- The operations, with the numbers of their buffers. `block` appends a block of the caller, of which `old` has been
consumed, `bytes` can be consumed and `free` can be filled. -/
inductive Op
  | block (i : ℕ) (old bytes free : List UInt8)
  | append (i j : ℕ)
  | move (i j numBytes : ℕ)
  | zeroFill (i numBytes : ℕ)
  | copyIn (i : ℕ) (bytes : List UInt8)
  | copyOut (i numBytes : ℕ)
  | consume (i nbytes : ℕ)
  | trim (i nbytes : ℕ)
  | clone (i j : ℕ)

namespace World

def set (w : World) (i : ℕ) (buf : IOBuffer) : World := { w with bufs := Function.update w.bufs i buf }

/-- The block of `Op.block`. -/
def newBlock (m : Memory) (old bytes free : List UInt8) : IOBufferData × Memory :=
  (⟨m.next, old.length, old.length + bytes.length, (old ++ bytes ++ free).length, Nat.le_add_right _ _, by simp⟩,
    { m with next := m.next + 1 }.write m.next 0 (old ++ bytes ++ free))

/-- `none` when an assertion fails, or a call does not return. -/
def step (IOBUFSIZE : BlockSize) (w : World) : Op → Option World
  | .block i old bytes free =>
    let (data, m) := newBlock w.mem old bytes free
    some { w.set i (w.bufs i ++ [data]) with mem := m }
  | .append i j =>
    if i = j then (IOBuffer.AppendSelf (w.bufs i)).map (w.set i)
    else
      let (buf, other) := IOBuffer.Append (w.bufs i) (w.bufs j)
      some ((w.set i buf).set j other)
  | .move i j numBytes =>
    if i = j then (IOBuffer.MoveSelf (w.bufs i) numBytes).map (w.set i)
    else (IOBuffer.Move (w.bufs i) (w.bufs j) numBytes).map fun (buf, other) => (w.set i buf).set j other
  | .zeroFill i numBytes =>
    (IOBuffer.ZeroFill w.mem IOBUFSIZE (w.bufs i) numBytes).map fun (buf, m) => { w.set i buf with mem := m }
  | .copyIn i bytes =>
    (IOBuffer.CopyIn w.mem IOBUFSIZE (w.bufs i) bytes).map fun (buf, m) => { w.set i buf with mem := m }
  | .copyOut _ _ => some w
  | .consume i nbytes => (IOBuffer.Consume nbytes (w.bufs i)).map (w.set i)
  | .trim i nbytes => (IOBuffer.Trim (w.bufs i) nbytes).map (w.set i)
  | .clone i j => some (w.set j (IOBuffer.Clone (w.bufs i)))

def run (IOBUFSIZE : BlockSize) (w : World) : List Op → Option World
  | [] => some w
  | op :: ops => (w.step IOBUFSIZE op).bind fun w => w.run IOBUFSIZE ops

def view (w : World) (i : ℕ) : List UInt8 := IOBuffer.view w.mem (w.bufs i)

end World

/-! ## Lists of bytes -/

/-- The bytes of each buffer, and whether it has been trimmed or has taken over blocks of a trimmed one. -/
structure Spec where
  view : ℕ → List UInt8
  trimmed : ℕ → Bool

namespace Spec

def set (s : Spec) (i : ℕ) (bytes : List UInt8) (trimmed : Bool) : Spec :=
  ⟨Function.update s.view i bytes, Function.update s.trimmed i trimmed⟩

theorem set_view_self {s : Spec} {i : ℕ} {bytes : List UInt8} {b : Bool} : (s.set i bytes b).view i = bytes :=
  Function.update_self ..

theorem set_view_of_ne {s : Spec} {i k : ℕ} {bytes : List UInt8} {b : Bool} (h : k ≠ i) :
    (s.set i bytes b).view k = s.view k :=
  Function.update_of_ne h ..

def step (s : Spec) : Op → Spec
  | .block i _ bytes _ => s.set i (s.view i ++ bytes) (s.trimmed i)
  | .append i j => (s.set i (s.view i ++ s.view j) (s.trimmed i || s.trimmed j)).set j [] false
  | .move i j numBytes => (s.set i (s.view i ++ (s.view j).take numBytes) (s.trimmed i || s.trimmed j)).set j
      ((s.view j).drop numBytes) (s.trimmed j)
  | .zeroFill i numBytes => s.set i (s.view i ++ List.replicate numBytes 0) (s.trimmed i)
  | .copyIn i bytes => s.set i (s.view i ++ bytes) (s.trimmed i)
  | .copyOut _ _ => s
  | .consume i nbytes => s.set i ((s.view i).drop nbytes) (s.trimmed i)
  | .trim i nbytes => s.set i ((s.view i).take nbytes) true
  | .clone i j => s.set j (s.view i) false

def run (s : Spec) (ops : List Op) : Spec := ops.foldl step s

/-- A prefix that is named is there, a buffer is not its own other, and nothing is copied into a trimmed buffer. Counts
and sizes of blocks are `int`, and so is the length of a buffer that is trimmed or from which is moved. -/
def Legal (s : Spec) : Op → Prop
  | .block _ old bytes free => (old ++ bytes ++ free).length < 2 ^ 31
  | .append i j => i ≠ j
  | .move i j numBytes => i ≠ j ∧ 0 < numBytes ∧ numBytes ≤ (s.view j).length ∧ (s.view j).length < 2 ^ 31
  | .zeroFill _ numBytes => numBytes < 2 ^ 31
  | .copyIn i bytes => s.trimmed i = false ∧ bytes.length < 2 ^ 31
  | .copyOut i n | .consume i n => 0 < n ∧ n ≤ (s.view i).length ∧ n < 2 ^ 31
  | .trim i n => 0 < n ∧ n ≤ (s.view i).length ∧ (s.view i).length < 2 ^ 31
  | .clone _ _ => True

def LegalRun (s : Spec) : List Op → Prop
  | [] => True
  | op :: ops => s.Legal op ∧ (s.step op).LegalRun ops

end Spec

/-! ## Who may fill a block -/

/-- The memory of the blocks of a buffer that can still be filled. -/
def writers (buf : IOBuffer) : List ℕ := (buf.filter fun data => data.mProducer < data.mEnd).map IOBufferData.mData

@[simp] theorem writers_append (buf other : IOBuffer) : writers (buf ++ other) = writers buf ++ writers other := by
  simp [writers]

theorem mem_writers {buf : IOBuffer} {b : ℕ} :
    b ∈ writers buf ↔ ∃ data ∈ buf, data.mProducer < data.mEnd ∧ data.mData = b := by
  simp only [writers, List.mem_map, List.mem_filter, decide_eq_true_eq, and_assoc]

/-- Each number is in one of the lists at most, and there once. -/
structure Apart (W : ℕ → List ℕ) : Prop where
  nodup : ∀ i, (W i).Nodup
  disjoint : ∀ i k, i ≠ k → List.Disjoint (W i) (W k)

namespace Apart

variable {W W' : ℕ → List ℕ} {i j : ℕ}

/-- Two lists exchange numbers. -/
theorem transfer (h : Apart W) (hij : i ≠ j) (hsub : List.Sublist (W' i ++ W' j) (W i ++ W j))
    (hother : ∀ k, k ≠ i → k ≠ j → W' k = W k) : Apart W' := by
  have hboth : (W' i ++ W' j).Nodup := hsub.nodup (List.Nodup.append (h.nodup i) (h.nodup j) (h.disjoint i j hij))
  have hin : ∀ k, k = i ∨ k = j → ∀ b ∈ W' k, b ∈ W i ∨ b ∈ W j := by
    rintro k (rfl | rfl) b hb
    · exact List.mem_append.1 (hsub.subset (List.mem_append_left _ hb))
    · exact List.mem_append.1 (hsub.subset (List.mem_append_right _ hb))
  have hout : ∀ k l, k = i ∨ k = j → ¬ (l = i ∨ l = j) → List.Disjoint (W' k) (W' l) := by
    intro k l hk hl b hb hb'
    rw [not_or] at hl
    rw [hother l hl.1 hl.2] at hb'
    rcases hin k hk b hb with hb | hb
    · exact h.disjoint l i hl.1 hb' hb
    · exact h.disjoint l j hl.2 hb' hb
  refine ⟨fun k => ?_, fun k l hkl => ?_⟩
  · by_cases hk : k = i ∨ k = j
    · rcases hk with rfl | rfl
      · exact List.Nodup.of_append_left hboth
      · exact List.Nodup.of_append_right hboth
    · rw [not_or] at hk
      rw [hother k hk.1 hk.2]
      exact h.nodup k
  · by_cases hk : k = i ∨ k = j <;> by_cases hl : l = i ∨ l = j
    · have hd := List.disjoint_of_nodup_append hboth
      rcases hk with rfl | rfl <;> rcases hl with rfl | rfl
      · exact absurd rfl hkl
      · exact hd
      · exact List.Disjoint.symm hd
      · exact absurd rfl hkl
    · exact hout k l hk hl
    · exact List.Disjoint.symm (hout l k hl hk)
    · rw [not_or] at hk hl
      rw [hother k hk.1 hk.2, hother l hl.1 hl.2]
      exact h.disjoint k l hkl

/-- A list gets numbers that no other has. -/
theorem grow {fresh : List ℕ} (h : Apart W) (hfresh : fresh.Nodup) (hnew : ∀ b ∈ fresh, ∀ k, b ∉ W k)
    (hsub : List.Sublist (W' i) (W i ++ fresh)) (hother : ∀ k, k ≠ i → W' k = W k) : Apart W' := by
  have hdisj : ∀ k, k ≠ i → List.Disjoint (W' i) (W' k) := by
    intro k hk b hb hb'
    rw [hother k hk] at hb'
    rcases List.mem_append.1 (hsub.subset hb) with hb | hb
    · exact h.disjoint k i hk hb' hb
    · exact hnew b hb k hb'
  refine ⟨fun k => ?_, fun k l hkl => ?_⟩
  · rcases eq_or_ne k i with rfl | hk
    · exact hsub.nodup (List.Nodup.append (h.nodup k) hfresh fun b hb hb' => hnew b hb' k hb)
    · rw [hother k hk]
      exact h.nodup k
  · rcases eq_or_ne k i with rfl | hk
    · exact hdisj l hkl.symm
    rcases eq_or_ne l i with rfl | hl
    · exact List.Disjoint.symm (hdisj k hk)
    · rw [hother k hk, hother l hl]
      exact h.disjoint k l hkl

end Apart

/-- The memory of the blocks that a buffer may fill; a trimmed buffer fills none. -/
def World.fills (w : World) (trimmed : ℕ → Bool) (i : ℕ) : List ℕ := if trimmed i then [] else writers (w.bufs i)

/-- Nobody shares the memory of the last block of a buffer. -/
def World.LastAlone (w : World) (i : ℕ) : Prop :=
  ∀ pre data, w.bufs i = pre ++ [data] → (∀ d ∈ pre, d.mData ≠ data.mData) ∧
    ∀ k, k ≠ i → ∀ d ∈ w.bufs k, d.mData ≠ data.mData

/-- The memory behind the producer of a block that a buffer may fill is seen in no block. -/
structure Owned (trimmed : ℕ → Bool) (w : World) : Prop where
  allocated : ∀ i, ∀ data ∈ w.bufs i, data.mData < w.mem.next
  seen : ∀ i, trimmed i = false → ∀ data ∈ w.bufs i, data.mProducer < data.mEnd → ∀ k, ∀ d ∈ w.bufs k,
    d.mData = data.mData → d.mProducer ≤ data.mProducer
  apart : Apart (w.fills trimmed)

/-- The buffers show the lists of bytes. -/
structure Refines (s : Spec) (w : World) : Prop where
  owned : Owned s.trimmed w
  view : ∀ i, w.view i = s.view i

/-! ## Where blocks come from -/

/-- The memory of a block, its producer and its end. -/
def shapes (buf : IOBuffer) : List (ℕ × ℕ × ℕ) := buf.map fun data => (data.mData, data.mProducer, data.mEnd)

theorem mem_shapes {buf : IOBuffer} {x : ℕ × ℕ × ℕ} :
    x ∈ shapes buf ↔ ∃ data ∈ buf, (data.mData, data.mProducer, data.mEnd) = x := List.mem_map

theorem writers_eq (buf : IOBuffer) :
    writers buf = ((shapes buf).filter fun x => x.2.1 < x.2.2).map Prod.fst := by
  rw [writers, shapes, List.filter_map, List.map_map]
  rfl

theorem writers_shapes {buf buf' : IOBuffer} (h : List.Sublist (shapes buf') (shapes buf)) :
    List.Sublist (writers buf') (writers buf) := by
  rw [writers_eq, writers_eq]
  exact (h.filter _).map _

/-- A block of a sublist was there. -/
theorem of_shapes {buf buf' : IOBuffer} (h : List.Sublist (shapes buf') (shapes buf)) {d : IOBufferData}
    (hd : d ∈ buf') : ∃ data ∈ buf, data.mData = d.mData ∧ data.mProducer = d.mProducer ∧ data.mEnd = d.mEnd := by
  obtain ⟨data, hdata, heq⟩ := mem_shapes.1 (h.subset (mem_shapes.2 ⟨d, hd, rfl⟩))
  simp only [Prod.mk.injEq] at heq
  exact ⟨data, hdata, heq⟩

namespace IOBuffer

variable {buf buf' other other' : IOBuffer} {n : ℕ}

theorem consumeLoop_shapes (h : consumeLoop n buf = some buf') : List.Sublist (shapes buf') (shapes buf) := by
  induction buf generalizing n with
  | nil =>
    rw [consumeLoop] at h
    split_ifs at h
    cases h
    exact List.Sublist.refl _
  | cons data buf ih =>
    rw [consumeLoop_cons] at h
    split_ifs at h with hdone hempty
    · cases h
      exact List.sublist_cons_self _ _
    · cases h
      exact List.Sublist.refl _
    · exact (ih h).trans (List.sublist_cons_self _ _)

/-- What is moved: blocks as they are, and at the end a part of one. -/
theorem moveLoop_blocks {bytesMoved : ℕ} (hsmall : bytesMoved + size other < 2 ^ 31)
    (h : moveLoop (bytesMoved + n : ℕ) bytesMoved buf other = some (buf', other')) :
    ∃ moved copy, buf' = buf ++ moved ++ copy ∧ List.Sublist (shapes moved ++ shapes other') (shapes other) ∧
    ∀ d ∈ copy, ∃ data ∈ other, d.mData = data.mData ∧ d.mProducer ≤ data.mProducer ∧ d.mProducer = d.mEnd := by
  induction other generalizing n buf bytesMoved with
  | nil =>
    cases h
    exact ⟨[], [], by simp, by simp [shapes], by simp⟩
  | cons data other ih =>
    cases n with
    | zero =>
      rw [moveLoop, if_pos (by omega)] at h
      cases h
      exact ⟨[], [], by simp, List.Sublist.refl _, by simp⟩
    | succ n =>
      have hsum : size (data :: other) = data.BytesConsumable + size other := size_cons
      rw [moveLoop_cons hsmall] at h
      split_ifs at h with hlt
      · have hall : bytesMoved + (n + 1) = bytesMoved + data.BytesConsumable + (n + 1 - data.BytesConsumable) := by
          omega
        rw [hall] at h
        obtain ⟨moved, copy, hbuf, hsub, hcopy⟩ := ih (by omega) h
        refine ⟨data :: moved, copy, by simp [hbuf], hsub.cons_cons _, fun d hd => ?_⟩
        obtain ⟨e, he, hshare⟩ := hcopy d hd
        exact ⟨e, List.mem_cons_of_mem _ he, hshare⟩
      · obtain ⟨other₁, hconsume, heq⟩ := Option.map_eq_some_iff.1 h
        cases heq
        refine ⟨[], [data.share (n + 1)], by simp, consumeLoop_shapes hconsume, fun d hd => ?_⟩
        obtain rfl := List.mem_singleton.1 hd
        have hc := data.consumer_le
        rw [IOBufferData.BytesConsumable] at hlt
        refine ⟨data, List.mem_cons_self, rfl, ?_, rfl⟩
        show data.mConsumer + (n + 1) ≤ data.mProducer
        omega

theorem trimLoop_blocks {totBytes : ℕ} (hn : totBytes + n < 2 ^ 31) (hsmall : totBytes + size buf < 2 ^ 31)
    (h : trimLoop (totBytes + n : ℕ) totBytes buf = some buf') {d : IOBufferData} (hd : d ∈ buf') :
    ∃ data ∈ buf, d.mData = data.mData ∧ d.mProducer ≤ data.mProducer := by
  have hdrain : ∀ {l : IOBuffer}, d ∈ drain l → ∃ data ∈ l, d.mData = data.mData ∧ d.mProducer ≤ data.mProducer := by
    intro l hl
    obtain ⟨data, hdata, rfl⟩ := List.mem_map.1 hl
    exact ⟨data, hdata, rfl, le_rfl⟩
  induction buf generalizing n totBytes buf' with
  | nil =>
    cases h
    cases hd
  | cons data buf ih =>
    have hsum : size (data :: buf) = data.BytesConsumable + size buf := size_cons
    rw [trimLoop_cons hn hsmall] at h
    split_ifs at h with hle hzero
    · obtain ⟨buf₁, hloop, rfl⟩ := Option.map_eq_some_iff.1 h
      rcases List.mem_cons.1 hd with rfl | hd
      · exact ⟨d, List.mem_cons_self, rfl, le_rfl⟩
      · have hall : totBytes + n = totBytes + data.BytesConsumable + (n - data.BytesConsumable) := by omega
        rw [hall] at hloop
        obtain ⟨e, he, hshape⟩ := ih (by omega) (by omega) hloop hd
        exact ⟨e, List.mem_cons_of_mem _ he, hshape⟩
    · cases h
      exact hdrain hd
    · cases h
      rcases List.mem_cons.1 hd with rfl | hd
      · have hc := data.consumer_le
        refine ⟨data, List.mem_cons_self, rfl, ?_⟩
        show data.mConsumer + min n data.BytesConsumable ≤ data.mProducer
        rw [IOBufferData.BytesConsumable]
        omega
      · obtain ⟨e, he, hshape⟩ := hdrain hd
        exact ⟨e, List.mem_cons_of_mem _ he, hshape⟩

theorem Clone_writers : writers (Clone buf) = [] := by
  refine List.eq_nil_iff_forall_not_mem.2 fun b hb => ?_
  obtain ⟨d, hd, hlt, -⟩ := mem_writers.1 hb
  obtain ⟨data, -, rfl⟩ := List.mem_map.1 hd
  exact absurd hlt (lt_irrefl _)

end IOBuffer

/-! ## What one operation preserves -/

section Steps

variable {s : Spec} {w w' : World} {i j n : ℕ} {IOBUFSIZE : BlockSize} {trimmed trimmed' : ℕ → Bool}
  {buf moved copy other pre news : IOBuffer}

/-- Blocks are derived from the blocks that were there: they show no more, and one that may be filled was one. -/
structure Derived (trimmed trimmed' : ℕ → Bool) (w w' : World) : Prop where
  next : w.mem.next ≤ w'.mem.next
  block : ∀ k, ∀ d ∈ w'.bufs k, ∃ l, ∃ data ∈ w.bufs l, d.mData = data.mData ∧ d.mProducer ≤ data.mProducer ∧
    (trimmed' k = false → d.mProducer < d.mEnd → trimmed l = false ∧ data.mProducer = d.mProducer ∧ data.mEnd = d.mEnd)

theorem Owned.derive (h : Owned trimmed w) (hd : Derived trimmed trimmed' w w') (hapart : Apart (w'.fills trimmed')) :
    Owned trimmed' w' := by
  refine ⟨fun k d hdk => ?_, fun k hk data hdata hfree l d hdl heq => ?_, hapart⟩
  · obtain ⟨l, data, hdata, heq, -⟩ := hd.block k d hdk
    rw [heq]
    exact (h.allocated l data hdata).trans_le hd.next
  · obtain ⟨k', data', hdata', heq', hle', hwriter⟩ := hd.block k data hdata
    obtain ⟨hk', hprod, hend⟩ := hwriter hk hfree
    obtain ⟨l', d', hd', heqd, hled, -⟩ := hd.block l d hdl
    have hseen := h.seen k' hk' data' hdata' (by omega) l' d' hd' (by rw [← heqd, heq, heq'])
    omega

@[simp] theorem set_bufs_self : (w.set i buf).bufs i = buf := Function.update_self ..

theorem set_bufs_of_ne {k : ℕ} (h : k ≠ i) : (w.set i buf).bufs k = w.bufs k := Function.update_of_ne h ..

theorem fills_set_of_ne {k : ℕ} (h : k ≠ i) (ht : trimmed' k = trimmed k) :
    (w.set i buf).fills trimmed' k = w.fills trimmed k := by rw [World.fills, World.fills, set_bufs_of_ne h, ht]

theorem Apart.set (h : Apart (w.fills trimmed))
    (hsub : List.Sublist ((w.set i buf).fills trimmed' i) (w.fills trimmed i))
    (ht : ∀ k, k ≠ i → trimmed' k = trimmed k) : Apart ((w.set i buf).fills trimmed') :=
  h.grow List.nodup_nil (fun b hb => by cases hb) (by rwa [List.append_nil])
    fun k hk => fills_set_of_ne hk (ht k hk)

/-- A buffer loses blocks or bytes. -/
theorem Owned.shrink (h : Owned trimmed w) (hsub : List.Sublist (shapes buf) (shapes (w.bufs i))) :
    Owned trimmed (w.set i buf) := by
  refine h.derive ⟨le_rfl, fun k d hd => ?_⟩ (h.apart.set ?_ fun _ _ => rfl)
  · rcases eq_or_ne k i with rfl | hk
    · rw [set_bufs_self] at hd
      obtain ⟨data, hdata, hmem, hprod, hend⟩ := of_shapes hsub hd
      exact ⟨k, data, hdata, hmem.symm, hprod.ge, fun ht _ => ⟨ht, hprod, hend⟩⟩
    · rw [set_bufs_of_ne hk] at hd
      exact ⟨k, d, hd, rfl, le_rfl, fun ht _ => ⟨ht, rfl, rfl⟩⟩
  · rw [World.fills, World.fills, set_bufs_self]
    split_ifs
    · exact List.Sublist.refl _
    · exact writers_shapes hsub

/-- A trimmed buffer fills no block. -/
theorem Owned.trim (h : Owned trimmed w)
    (hbuf : ∀ d ∈ buf, ∃ data ∈ w.bufs i, d.mData = data.mData ∧ d.mProducer ≤ data.mProducer) :
    Owned (Function.update trimmed i true) (w.set i buf) := by
  refine h.derive ⟨le_rfl, fun k d hd => ?_⟩ (h.apart.set ?_ fun k hk => Function.update_of_ne hk ..)
  · rcases eq_or_ne k i with rfl | hk
    · rw [set_bufs_self] at hd
      obtain ⟨data, hdata, hmem, hprod⟩ := hbuf d hd
      refine ⟨k, data, hdata, hmem, hprod, fun ht => ?_⟩
      rw [Function.update_self] at ht
      cases ht
    · rw [set_bufs_of_ne hk] at hd
      rw [Function.update_of_ne hk]
      exact ⟨k, d, hd, rfl, le_rfl, fun ht _ => ⟨ht, rfl, rfl⟩⟩
  · rw [World.fills, Function.update_self, if_pos rfl]
    exact List.nil_sublist _

/-- The blocks of a clone are full. -/
theorem Owned.clone (h : Owned trimmed w) :
    Owned (Function.update trimmed j false) (w.set j (IOBuffer.Clone (w.bufs i))) := by
  refine h.derive ⟨le_rfl, fun k d hd => ?_⟩ (h.apart.set ?_ fun k hk => Function.update_of_ne hk ..)
  · rcases eq_or_ne k j with rfl | hk
    · rw [set_bufs_self] at hd
      obtain ⟨data, hdata, rfl⟩ := List.mem_map.1 hd
      have hc := data.consumer_le
      refine ⟨i, data, hdata, rfl, ?_, fun _ hlt => absurd hlt (lt_irrefl _)⟩
      show data.mConsumer + data.BytesConsumable ≤ data.mProducer
      rw [IOBufferData.BytesConsumable]
      omega
    · rw [set_bufs_of_ne hk] at hd
      rw [Function.update_of_ne hk]
      exact ⟨k, d, hd, rfl, le_rfl, fun ht _ => ⟨ht, rfl, rfl⟩⟩
  · rw [World.fills, set_bufs_self, IOBuffer.Clone_writers, ite_self]
    exact List.nil_sublist _

/-- Blocks change over, and at the end a part of one is shared. -/
theorem Owned.exchange {tj : Bool} (h : Owned trimmed w) (hij : i ≠ j)
    (hsub : List.Sublist (shapes moved ++ shapes other) (shapes (w.bufs j)))
    (hcopy : ∀ d ∈ copy, ∃ data ∈ w.bufs j, d.mData = data.mData ∧ d.mProducer ≤ data.mProducer ∧ d.mProducer = d.mEnd)
    (htj : tj = false → other = [] ∨ trimmed j = false) :
    Owned (Function.update (Function.update trimmed i (trimmed i || trimmed j)) j tj)
      ((w.set i (w.bufs i ++ moved ++ copy)).set j other) := by
  set trimmed' := Function.update (Function.update trimmed i (trimmed i || trimmed j)) j tj with htrimmed
  have hi : trimmed' i = (trimmed i || trimmed j) := by
    rw [htrimmed, Function.update_of_ne hij, Function.update_self]
  have hj : trimmed' j = tj := Function.update_self ..
  have hk : ∀ k, k ≠ i → k ≠ j → trimmed' k = trimmed k := by
    intro k hki hkj
    rw [htrimmed, Function.update_of_ne hkj, Function.update_of_ne hki]
  have hbufi : ((w.set i (w.bufs i ++ moved ++ copy)).set j other).bufs i = w.bufs i ++ moved ++ copy := by
    rw [set_bufs_of_ne hij, set_bufs_self]
  have hmoved := (List.sublist_append_left (shapes moved) (shapes other)).trans hsub
  have hrest := (List.sublist_append_right (shapes moved) (shapes other)).trans hsub
  have hfull : writers copy = [] := by
    refine List.eq_nil_iff_forall_not_mem.2 fun b hb => ?_
    obtain ⟨d, hd, hlt, -⟩ := mem_writers.1 hb
    obtain ⟨-, -, -, -, heq⟩ := hcopy d hd
    exact absurd heq hlt.ne
  refine h.derive ⟨le_rfl, fun k d hd => ?_⟩ (h.apart.transfer hij ?_ fun k hki hkj => ?_)
  · rcases eq_or_ne k j with rfl | hkj
    · rw [set_bufs_self] at hd
      obtain ⟨data, hdata, hmem, hprod, hend⟩ := of_shapes hrest hd
      refine ⟨k, data, hdata, hmem.symm, hprod.ge, fun ht _ => ⟨?_, hprod, hend⟩⟩
      rcases htj (hj.symm.trans ht) with rfl | ht
      · cases hd
      · exact ht
    rcases eq_or_ne k i with rfl | hki
    · rw [hbufi] at hd
      rw [hi, Bool.or_eq_false_iff]
      rcases List.mem_append.1 hd with hd | hd
      · rcases List.mem_append.1 hd with hd | hd
        · exact ⟨k, d, hd, rfl, le_rfl, fun ht _ => ⟨ht.1, rfl, rfl⟩⟩
        · obtain ⟨data, hdata, hmem, hprod, hend⟩ := of_shapes hmoved hd
          exact ⟨j, data, hdata, hmem.symm, hprod.ge, fun ht _ => ⟨ht.2, hprod, hend⟩⟩
      · obtain ⟨data, hdata, hmem, hprod, heq⟩ := hcopy d hd
        exact ⟨j, data, hdata, hmem, hprod, fun _ hlt => absurd heq hlt.ne⟩
    · rw [set_bufs_of_ne hkj, set_bufs_of_ne hki] at hd
      rw [hk k hki hkj]
      exact ⟨k, d, hd, rfl, le_rfl, fun ht _ => ⟨ht, rfl, rfl⟩⟩
  · have hrest' : List.Sublist (if tj then [] else writers other) (w.fills trimmed j) := by
      split_ifs with ht
      · exact List.nil_sublist _
      · rcases htj (Bool.not_eq_true _ ▸ ht) with rfl | ht
        · exact List.nil_sublist _
        · rw [World.fills, if_neg (by rw [ht]; decide)]
          exact writers_shapes hrest
    rw [World.fills, World.fills, hi, hj, hbufi, set_bufs_self]
    cases hor : (trimmed i || trimmed j)
    · obtain ⟨hti, htj'⟩ := Bool.or_eq_false_iff.1 hor
      have hboth : List.Sublist (writers moved ++ writers other) (writers (w.bufs j)) := by
        rw [← writers_append]
        refine writers_shapes ?_
        rw [shapes, List.map_append]
        exact hsub
      have hother : List.Sublist (if tj then [] else writers other) (writers other) := by
        split_ifs
        · exact List.nil_sublist _
        · exact List.Sublist.refl _
      rw [World.fills, World.fills, hti, htj', writers_append, writers_append, hfull, List.append_nil]
      simp only [Bool.false_eq_true, if_false]
      rw [List.append_assoc]
      exact (List.Sublist.refl _).append (((List.Sublist.refl _).append hother).trans hboth)
    · rw [if_pos rfl, List.nil_append]
      exact hrest'.trans (List.sublist_append_right _ _)
  · rw [World.fills, World.fills, set_bufs_of_ne hkj, set_bufs_of_ne hki, hk k hki hkj]

/-- The last block of an untrimmed buffer is filled. -/
theorem Owned.fill {data : IOBufferData} (h : Owned trimmed w) (hbuf : w.bufs i = pre ++ [data])
    (ht : trimmed i = false) : Owned trimmed (w.set i (pre ++ [data.Fill n])) := by
  rcases Nat.eq_zero_or_pos data.SpaceAvailable with hfull | hpos
  · have hsame : data.Fill n = data := by ext <;> simp [IOBufferData.Fill, hfull]
    rw [hsame, ← hbuf]
    exact h.shrink (List.Sublist.refl _)
  have hfree : data.mProducer < data.mEnd := Nat.lt_of_sub_pos hpos
  have hgrow : data.mProducer ≤ (data.Fill n).mProducer := Nat.le_add_right _ _
  have hin : data ∈ w.bufs i := by rw [hbuf]; exact List.mem_append_right _ List.mem_cons_self
  have hown := h.apart.nodup i
  rw [World.fills, ht, if_neg (by decide), hbuf, writers_append] at hown
  have hat : data.mData ∈ w.fills trimmed i := by
    rw [World.fills, ht, if_neg (by decide)]
    exact mem_writers.2 ⟨data, hin, hfree, rfl⟩
  have hold : ∀ k, ∀ d ∈ (w.set i (pre ++ [data.Fill n])).bufs k, d = data.Fill n ∧ k = i ∨
      d ∈ w.bufs k ∧ (k = i → d ∈ pre) := by
    intro k d hd
    rcases eq_or_ne k i with rfl | hk
    · rw [set_bufs_self] at hd
      rcases List.mem_append.1 hd with hd | hd
      · exact Or.inr ⟨by rw [hbuf]; exact List.mem_append_left _ hd, fun _ => hd⟩
      · exact Or.inl ⟨List.mem_singleton.1 hd, rfl⟩
    · rw [set_bufs_of_ne hk] at hd
      exact Or.inr ⟨hd, fun hk' => absurd hk' hk⟩
  refine ⟨fun k d hd => ?_, fun k hk e he hefree l d hd heq => ?_, h.apart.set ?_ fun _ _ => rfl⟩
  · rcases hold k d hd with ⟨rfl, -⟩ | ⟨hd, -⟩
    · exact h.allocated i data hin
    · exact h.allocated k d hd
  · rcases hold k e he with ⟨rfl, rfl⟩ | ⟨heold, hpre⟩
    · rcases hold l d hd with ⟨rfl, -⟩ | ⟨hd, -⟩
      · exact le_rfl
      · exact (h.seen k ht data hin hfree l d hd heq).trans hgrow
    · rcases hold l d hd with ⟨rfl, rfl⟩ | ⟨hd, -⟩
      · -- no other block may fill this memory
        have heq' : data.mData = e.mData := heq
        rcases eq_or_ne k l with rfl | hkl
        · exact (List.disjoint_of_nodup_append hown (mem_writers.2 ⟨e, hpre rfl, hefree, rfl⟩)
            (mem_writers.2 ⟨data, List.mem_singleton_self _, hfree, heq'⟩)).elim
        · refine (h.apart.disjoint l k hkl.symm hat ?_).elim
          rw [World.fills, hk, if_neg (by decide)]
          exact mem_writers.2 ⟨e, heold, hefree, heq'.symm⟩
      · exact h.seen k hk e heold hefree l d hd heq
  · rw [World.fills, World.fills, set_bufs_self, ht, if_neg (by decide), if_neg (by decide), hbuf, writers_append,
      writers_append]
    refine (List.Sublist.refl _).append ?_
    have hone : writers [data] = [data.mData] := by
      rw [writers, List.filter_cons, if_pos (decide_eq_true hfree)]
      rfl
    rw [hone, writers, List.filter_cons]
    split_ifs
    · exact List.Sublist.refl _
    · exact List.nil_sublist _

/-- The last block of a trimmed buffer is filled, and nobody shares its memory. -/
theorem Owned.fillAlone {data : IOBufferData} (h : Owned trimmed w) (hbuf : w.bufs i = pre ++ [data])
    (ht : trimmed i = true) (halone : w.LastAlone i) : Owned trimmed (w.set i (pre ++ [data.Fill n])) := by
  obtain ⟨-, hothers⟩ := halone pre data hbuf
  have hin : ∀ d, d ∈ pre → d ∈ w.bufs i := fun d hd => hbuf ▸ List.mem_append_left _ hd
  have hlast : data ∈ w.bufs i := hbuf ▸ List.mem_append_right _ List.mem_cons_self
  refine ⟨fun k d hd => ?_, fun k hk e he hefree l d hd heq => ?_, h.apart.set ?_ fun _ _ => rfl⟩
  · rcases eq_or_ne k i with rfl | hki
    · rw [set_bufs_self] at hd
      rcases List.mem_append.1 hd with hd | hd
      · exact h.allocated k d (hin d hd)
      · rw [List.mem_singleton.1 hd]
        exact h.allocated k data hlast
    · rw [set_bufs_of_ne hki] at hd
      exact h.allocated k d hd
  · have hki : k ≠ i := by
      rintro rfl
      rw [ht] at hk
      cases hk
    rw [set_bufs_of_ne hki] at he
    rcases eq_or_ne l i with rfl | hli
    · rw [set_bufs_self] at hd
      rcases List.mem_append.1 hd with hd | hd
      · exact h.seen k hk e he hefree l d (hin d hd) heq
      · rw [List.mem_singleton.1 hd] at heq
        exact absurd heq.symm (hothers k hki e he)
    · rw [set_bufs_of_ne hli] at hd
      exact h.seen k hk e he hefree l d hd heq
  · rw [World.fills, World.fills, ht]
    exact List.Sublist.refl _

/-- Blocks with memory of their own are added. -/
theorem Owned.extend {m' : Memory} (h : Owned trimmed w) (hfresh : Fresh w.mem m' news) :
    Owned trimmed { w.set i (w.bufs i ++ news) with mem := m' } := by
  have hrange : ∀ d ∈ news, w.mem.next ≤ d.mData ∧ d.mData < m'.next := by
    intro d hd
    have hmem : d.mData ∈ List.range' w.mem.next news.length := by
      rw [← hfresh.blocks]
      exact List.mem_map_of_mem hd
    rw [List.mem_range'_1] at hmem
    rw [hfresh.next]
    exact hmem
  have hnodup : (news.map IOBufferData.mData).Nodup := by
    rw [hfresh.blocks]
    exact List.nodup_range'
  have hnext : w.mem.next ≤ m'.next := by
    rw [hfresh.next]
    exact Nat.le_add_right _ _
  have hold : ∀ k, ∀ d ∈ (w.set i (w.bufs i ++ news)).bufs k, d ∈ news ∨ d ∈ w.bufs k := by
    intro k d hd
    rcases eq_or_ne k i with rfl | hk
    · rw [set_bufs_self] at hd
      exact (List.mem_append.1 hd).symm
    · rw [set_bufs_of_ne hk] at hd
      exact Or.inr hd
  refine ⟨fun k d hd => ?_, fun k hk e he hefree l d hd heq => ?_, ?_⟩
  · rcases hold k d hd with hd | hd
    · exact (hrange d hd).2
    · exact (h.allocated k d hd).trans_le hnext
  · rcases hold k e he with he | he <;> rcases hold l d hd with hd | hd
    · rw [List.inj_on_of_nodup_map hnodup hd he heq]
    · exact absurd (h.allocated l d hd) (by rw [heq]; exact (hrange e he).1.not_gt)
    · exact absurd (h.allocated k e he) (by rw [← heq]; exact (hrange d hd).1.not_gt)
    · exact h.seen k hk e he hefree l d hd heq
  · refine h.apart.grow hnodup (fun b hb k hbk => ?_) (i := i) ?_ fun k hk => ?_
    · obtain ⟨d, hd, rfl⟩ := List.mem_map.1 hb
      rw [World.fills] at hbk
      split_ifs at hbk
      · cases hbk
      · obtain ⟨e, he, -, heq⟩ := mem_writers.1 hbk
        exact absurd (h.allocated k e he) (by rw [heq]; exact (hrange d hd).1.not_gt)
    · show List.Sublist ((w.set i (w.bufs i ++ news)).fills trimmed i) _
      rw [World.fills, World.fills, set_bufs_self]
      split_ifs
      · exact List.nil_sublist _
      · rw [writers_append]
        exact (List.Sublist.refl _).append (List.filter_sublist.map _)
    · exact fills_set_of_ne hk rfl

theorem set_view_self : (w.set i buf).view i = IOBuffer.view w.mem buf := by
  rw [World.view, set_bufs_self]
  rfl

theorem set_view_of_ne {k : ℕ} (h : k ≠ i) : (w.set i buf).view k = w.view k := by
  rw [World.view, set_bufs_of_ne h]
  rfl

theorem Refines.length_view (h : Refines s w) : (s.view i).length = IOBuffer.size (w.bufs i) := by
  rw [← h.view, World.view, IOBuffer.length_view]

/-- Only the one buffer shows something else. -/
theorem Refines.set {b : Bool} {bytes : List UInt8} (h : Refines s w)
    (howned : Owned (Function.update s.trimmed i b) (w.set i buf)) (hview : IOBuffer.view w.mem buf = bytes) :
    Refines (s.set i bytes b) (w.set i buf) := by
  refine ⟨howned, fun k => ?_⟩
  rcases eq_or_ne k i with rfl | hk
  · rw [set_view_self, hview, Spec.set_view_self]
  · rw [set_view_of_ne hk, h.view k, Spec.set_view_of_ne hk]

/-- The blocks that are added show `bytes`, and what is seen of the others stays. -/
theorem Refines.extend {m' : Memory} {bytes : List UInt8} (h : Refines s w)
    (howned : Owned s.trimmed { w.set i buf with mem := m' }) (hview : IOBuffer.view m' buf = s.view i ++ bytes)
    (hframe : ∀ k, k ≠ i → IOBuffer.view m' (w.bufs k) = IOBuffer.view w.mem (w.bufs k)) :
    Refines (s.set i (s.view i ++ bytes) (s.trimmed i)) { w.set i buf with mem := m' } := by
  refine ⟨?_, fun k => ?_⟩
  · show Owned (Function.update s.trimmed i (s.trimmed i)) _
    rwa [Function.update_eq_self]
  · rcases eq_or_ne k i with rfl | hk
    · rw [Spec.set_view_self, ← hview]
      exact congrArg _ set_bufs_self
    · rw [Spec.set_view_of_ne hk, ← h.view k]
      exact (congrArg _ (set_bufs_of_ne hk)).trans (hframe k hk)

theorem block_refines {old bytes free : List UInt8} (h : Refines s w) :
    ∃ w', w.step IOBUFSIZE (.block i old bytes free) = some w' ∧ Refines (s.step (.block i old bytes free)) w' := by
  set data := (World.newBlock w.mem old bytes free).1 with hdata
  set m' := (World.newBlock w.mem old bytes free).2 with hm'
  have hfresh : Fresh w.mem m' [data] := ⟨rfl, rfl⟩
  have hseen : data.view m' = bytes := by
    rw [hdata, hm', World.newBlock, IOBufferData.view, IOBufferData.BytesConsumable]
    simp only [Memory.write, Function.update_self, Nat.add_sub_cancel_left]
    refine List.ext_getElem length_load fun p h₁ h₂ => ?_
    rw [getElem_load, store_of_mem (Nat.zero_le _) (by simp; omega)]
    simp [List.getElem_append_right, List.getElem_append_left, h₂]
  have hframe : ∀ k, ∀ d ∈ w.bufs k, d.view m' = d.view w.mem := fun k d hd =>
    IOBufferData.view_write fun heq => absurd heq (h.owned.allocated k d hd).ne
  have hview : IOBuffer.view m' (w.bufs i ++ [data]) = s.view i ++ bytes := by
    rw [IOBuffer.view_append, view_congr (hframe i), IOBuffer.view_cons, hseen, IOBuffer.view_nil, List.append_nil,
      ← h.view i]
    rfl
  exact ⟨_, rfl, h.extend (h.owned.extend hfresh) hview fun k _ => view_congr (hframe k)⟩

theorem zeroFill_refines (h : Refines s w) : ∃ w', w.step IOBUFSIZE (.zeroFill i n) = some w' ∧
    Refines (s.step (.zeroFill i n)) w' := by
  obtain ⟨news, m', hrun, hfresh, hview, hframe⟩ := @IOBuffer.ZeroFill_view w.mem (w.bufs i) IOBUFSIZE n
  rw [Int.toNat_natCast] at hview
  have hold : ∀ k, IOBuffer.view m' (w.bufs k) = IOBuffer.view w.mem (w.bufs k) := fun k =>
    view_congr fun d hd => hframe d (h.owned.allocated k d hd)
  refine ⟨_, by rw [World.step, hrun]; rfl, h.extend (h.owned.extend hfresh) ?_ fun k _ => hold k⟩
  rw [IOBuffer.view_append, hold, hview, ← h.view i]
  rfl

/-- The memory behind the producer of the last block is seen by nobody. -/
theorem copyIn_refines {bytes : List UInt8} (h : Refines s w) (hmay : s.trimmed i = false ∨ w.LastAlone i) :
    ∃ w', w.step IOBUFSIZE (.copyIn i bytes) = some w' ∧ Refines (s.step (.copyIn i bytes)) w' := by
  rcases List.eq_nil_or_concat' (w.bufs i) with hnil | ⟨pre, data, hbuf⟩
  · obtain ⟨news, m', hrun, hfresh, hview, hframe⟩ := @IOBuffer.CopyIn_empty w.mem IOBUFSIZE bytes
    have howned := h.owned.extend (i := i) hfresh
    have hempty : s.view i = [] := by rw [← h.view i, World.view, hnil, IOBuffer.view_nil]
    rw [hnil, List.nil_append] at howned
    refine ⟨_, by rw [World.step, hnil, hrun]; rfl, h.extend howned ?_ fun k _ => ?_⟩
    · rw [hview, hempty, List.nil_append]
    · exact view_congr fun d hd => hframe d (h.owned.allocated k d hd)
  · have hin : data ∈ w.bufs i := by rw [hbuf]; exact List.mem_append_right _ List.mem_cons_self
    obtain ⟨news, m', hrun, hfresh, hview, hframe⟩ :=
      @IOBuffer.CopyIn_last w.mem pre IOBUFSIZE data bytes (h.owned.allocated i data hin)
    have hseen : 0 < data.SpaceAvailable → ∀ k, ∀ d ∈ w.bufs k, d.mData = data.mData →
        d.mProducer ≤ data.mProducer := by
      intro hspace k d hd heq
      rcases hmay with ht | halone
      · exact h.owned.seen i ht data hin (Nat.lt_of_sub_pos hspace) k d hd heq
      · obtain ⟨hpre, hothers⟩ := halone pre data hbuf
        rcases eq_or_ne k i with rfl | hk
        · rw [hbuf] at hd
          rcases List.mem_append.1 hd with hd | hd
          · exact absurd heq (hpre d hd)
          · rw [List.mem_singleton.1 hd]
        · exact absurd heq (hothers k hk d hd)
    have hold : ∀ k, ∀ d ∈ w.bufs k, d.view m' = d.view w.mem := fun k d hd =>
      hframe d (h.owned.allocated k d hd) fun hspace heq => hseen hspace k d hd heq
    have hfill : Owned s.trimmed (w.set i (pre ++ [data.Fill bytes.length])) := by
      rcases hmay with ht | halone
      · exact h.owned.fill hbuf ht
      · cases ht : s.trimmed i with
        | false => exact h.owned.fill hbuf ht
        | true => exact h.owned.fillAlone hbuf ht halone
    have howned := hfill.extend (i := i) hfresh
    rw [set_bufs_self] at howned
    have hset : (w.set i (pre ++ [data.Fill bytes.length])).set i (pre ++ [data.Fill bytes.length] ++ news) =
        w.set i (pre ++ data.Fill bytes.length :: news) := by
      rw [World.set, World.set, World.set, Function.update_idem, List.append_assoc]
      rfl
    rw [hset] at howned
    refine ⟨_, by rw [World.step, hbuf, hrun]; rfl, h.extend howned ?_ fun k _ => view_congr (hold k)⟩
    have hpre : IOBuffer.view m' pre = IOBuffer.view w.mem pre :=
      view_congr fun d hd => hold i d (by rw [hbuf]; exact List.mem_append_left _ hd)
    rw [IOBuffer.view_append, IOBuffer.view_cons, hview, hpre, ← h.view i, World.view, hbuf, IOBuffer.view_append,
      IOBuffer.view_cons, IOBuffer.view_nil, List.append_nil, List.append_assoc]

/-- A part of the other buffer goes to the end of the one. -/
theorem Refines.exchange {b : Bool} (h : Refines s w) (hij : i ≠ j)
    (howned : Owned (Function.update (Function.update s.trimmed i (s.trimmed i || s.trimmed j)) j b)
      ((w.set i buf).set j other))
    (hbuf : IOBuffer.view w.mem buf = w.view i ++ (w.view j).take n)
    (hother : IOBuffer.view w.mem other = (w.view j).drop n) :
    Refines ((s.set i (s.view i ++ (s.view j).take n) (s.trimmed i || s.trimmed j)).set j ((s.view j).drop n) b)
      ((w.set i buf).set j other) := by
  refine ⟨howned, fun k => ?_⟩
  rcases eq_or_ne k j with rfl | hkj
  · rw [set_view_self, Spec.set_view_self, ← h.view k]
    exact hother
  rw [set_view_of_ne hkj, Spec.set_view_of_ne hkj]
  rcases eq_or_ne k i with rfl | hki
  · rw [set_view_self, Spec.set_view_self, ← h.view k, ← h.view j]
    exact hbuf
  · rw [set_view_of_ne hki, Spec.set_view_of_ne hki, h.view k]

theorem move_refines (h : Refines s w) (hij : i ≠ j) (hn : n ≤ (s.view j).length)
    (hsmall : (s.view j).length < 2 ^ 31) :
    ∃ w', w.step IOBUFSIZE (.move i j n) = some w' ∧ Refines (s.step (.move i j n)) w' := by
  rw [h.length_view] at hn hsmall
  obtain ⟨buf', other', hmove, hbuf, hother⟩ := @IOBuffer.Move_view w.mem (w.bufs i) (w.bufs j) n hn hsmall
  have hloop := hmove
  rw [IOBuffer.Move_eq hn hsmall] at hloop
  obtain ⟨moved, copy, rfl, hsub, hcopy⟩ := IOBuffer.moveLoop_blocks (by omega) hloop
  have hstep := h.exchange hij (h.owned.exchange hij hsub hcopy Or.inr) hbuf hother
  exact ⟨_, by rw [World.step, if_neg hij, hmove]; rfl, hstep⟩

theorem append_refines (h : Refines s w) (hij : i ≠ j) :
    ∃ w', w.step IOBUFSIZE (.append i j) = some w' ∧ Refines (s.step (.append i j)) w' := by
  have howned : Owned (Function.update (Function.update s.trimmed i (s.trimmed i || s.trimmed j)) j false)
      ((w.set i (w.bufs i ++ w.bufs j ++ [])).set j []) :=
    h.owned.exchange hij (by rw [shapes, shapes, List.map_nil, List.append_nil]) (fun d hd => by cases hd)
      fun _ => Or.inl rfl
  rw [List.append_nil] at howned
  have hall : (w.view j).take (w.view j).length = w.view j := List.take_length
  have hspec : s.step (.append i j) = (s.set i (s.view i ++ (s.view j).take (w.view j).length)
      (s.trimmed i || s.trimmed j)).set j ((s.view j).drop (w.view j).length) false := by
    rw [← h.view j, List.take_length, List.drop_length, h.view j]
    rfl
  refine ⟨_, if_neg hij, ?_⟩
  rw [hspec]
  refine h.exchange hij howned ?_ ?_
  · rw [IOBuffer.view_append, hall]
    rfl
  · rw [List.drop_length, IOBuffer.view_nil]

/-- What one operation preserves. -/
theorem step_refines {op : Op} (h : Refines s w) (hlegal : s.Legal op) :
    ∃ w', w.step IOBUFSIZE op = some w' ∧ Refines (s.step op) w' := by
  cases op with
  | block i old bytes free => exact block_refines h
  | append i j => exact append_refines h hlegal
  | move i j numBytes => exact move_refines h hlegal.1 hlegal.2.2.1 hlegal.2.2.2
  | zeroFill i numBytes => exact zeroFill_refines h
  | copyIn i bytes => exact copyIn_refines h (.inl hlegal.1)
  | copyOut i numBytes => exact ⟨w, rfl, h⟩
  | consume i nbytes =>
    have hle := hlegal.2.1
    rw [h.length_view] at hle
    obtain ⟨buf', hconsume, hview⟩ := @IOBuffer.Consume_view w.mem _ _ hle
    refine ⟨_, by rw [World.step, hconsume]; rfl, h.set ?_ ?_⟩
    · rw [Function.update_eq_self]
      rw [IOBuffer.Consume_natCast] at hconsume
      exact h.owned.shrink (IOBuffer.consumeLoop_shapes hconsume)
    · rw [hview, ← h.view i]
      rfl
  | trim i nbytes =>
    have hle := hlegal.2
    rw [h.length_view] at hle
    obtain ⟨buf', htrim, hloop, hview⟩ := @IOBuffer.Trim_view w.mem _ _ hlegal.1 hle.1 hle.2
    refine ⟨_, by rw [World.step, htrim]; rfl, h.set (h.owned.trim fun d hd => ?_) ?_⟩
    · exact IOBuffer.trimLoop_blocks (by omega) (by omega) hloop hd
    · rw [hview, ← h.view i]
      rfl
  | clone i j => exact ⟨_, rfl, h.set h.owned.clone (by rw [IOBuffer.Clone_view, ← h.view i]; rfl)⟩

end Steps

/-! ## Whole runs -/

namespace World

/-- Buffers without blocks. -/
def empty (mem : Memory) : World := ⟨mem, fun _ => []⟩

end World

def Spec.empty : Spec := ⟨fun _ => [], fun _ => false⟩

theorem Refines.empty {mem : Memory} : Refines .empty (.empty mem) := by
  have hnone : ∀ (i : ℕ) (d : IOBufferData), d ∉ (World.empty mem).bufs i := fun _ _ hd => by cases hd
  refine ⟨⟨fun i d hd => absurd hd (hnone i d), fun i _ d hd => absurd hd (hnone i d),
    ⟨fun _ => List.nodup_nil, ?_⟩⟩, fun _ => rfl⟩
  intro i k hik b hb
  cases hb

theorem run_keeps {IOBUFSIZE : BlockSize} {s : Spec} {w : World} {ops : List Op} (h : Refines s w)
    (hlegal : s.LegalRun ops) :
    ∃ w', w.run IOBUFSIZE ops = some w' ∧ Refines (s.run ops) w' := by
  induction ops generalizing s w with
  | nil => exact ⟨w, rfl, h⟩
  | cons op ops ih =>
    obtain ⟨w₁, hstep, h₁⟩ := @step_refines s w IOBUFSIZE op h hlegal.1
    obtain ⟨w', hrun, h'⟩ := ih h₁ hlegal.2
    refine ⟨w', ?_, h'⟩
    rw [World.run, hstep]
    exact hrun

/-- **In every legal run no assertion fails and every buffer is the list of bytes**, which are counted as long as there
are fewer than `2 ^ 31`. -/
theorem run_refines (IOBUFSIZE : BlockSize) (mem : Memory) (ops : List Op) (hlegal : Spec.empty.LegalRun ops) :
    ∃ w, (World.empty mem).run IOBUFSIZE ops = some w ∧ ∀ i, w.view i = (Spec.empty.run ops).view i ∧
      (((Spec.empty.run ops).view i).length < 2 ^ 31 →
        IOBuffer.BytesConsumable (w.bufs i) = ((Spec.empty.run ops).view i).length) ∧
      ∀ n, IOBuffer.CopyOut w.mem (w.bufs i) n = ((Spec.empty.run ops).view i).take n := by
  obtain ⟨w, hrun, h⟩ := @run_keeps IOBUFSIZE _ _ ops (@Refines.empty mem) hlegal
  refine ⟨w, hrun, fun i => ⟨h.view i, fun hsmall => ?_, fun n => ?_⟩⟩
  · rw [h.length_view] at hsmall ⊢
    exact IOBuffer.BytesConsumable_eq hsmall
  · rw [IOBuffer.CopyOut_eq, ← h.view i]
    rfl

/-- Blocks of two and of four bytes. -/
def twoBytes : BlockSize := ⟨2, by decide, by decide⟩
def fourBytes : BlockSize := ⟨4, by decide, by decide⟩

/-- Two bytes of three are cloned, and what follows is copied in behind them. -/
theorem run_refines_shared : ∃ w, (World.empty ⟨fun _ _ => 0, 0⟩).run twoBytes [.block 0 [7] [1, 2, 3] [0, 0],
    .move 1 0 2, .clone 1 2, .consume 1 1, .copyIn 1 [4, 5, 6], .trim 2 1, .append 2 1] = some w ∧
      w.view 2 = [1, 2, 4, 5, 6] := by
  obtain ⟨w, hrun, h⟩ := run_refines twoBytes ⟨fun _ _ => 0, 0⟩ [.block 0 [7] [1, 2, 3] [0, 0], .move 1 0 2,
    .clone 1 2, .consume 1 1, .copyIn 1 [4, 5, 6], .trim 2 1, .append 2 1]
    ⟨by simp only [Spec.Legal]; decide, ⟨by decide, by decide, by decide, by decide⟩, trivial,
      ⟨by decide, by decide, by decide⟩, ⟨rfl, by decide⟩, ⟨by decide, by decide, by decide⟩, Nat.succ_ne_self 1,
      trivial⟩
  exact ⟨w, hrun, (h 2).1⟩

/-- A buffer that has taken over the block of a trimmed one writes over a byte that a clone shows. -/
theorem copyIn_over_clone : ((World.empty ⟨fun _ _ => 0, 0⟩).run fourBytes [.block 0 [] [1, 2] [], .clone 0 1,
    .trim 0 1, .append 2 0, .copyIn 2 [9]]).map (fun w => w.view 1) = some [1, 9] := by
  decide +kernel

/-- `2 ^ 31` bytes are counted as fewer than none. -/
theorem zeroFill_overflow : ∃ w, (World.empty ⟨fun _ _ => 0, 0⟩).run fourBytes
    [.zeroFill 0 (2 ^ 31 - 1), .zeroFill 0 1] = some w ∧ IOBuffer.BytesConsumable (w.bufs 0) = -2 ^ 31 ∧
      w.step fourBytes (.move 1 0 1) = none := by
  obtain ⟨w, hrun, h⟩ := @run_keeps fourBytes _ _ [.zeroFill 0 (2 ^ 31 - 1), .zeroFill 0 1]
    (@Refines.empty ⟨fun _ _ => 0, 0⟩) ⟨by simp only [Spec.Legal]; omega, by simp only [Spec.Legal]; omega, trivial⟩
  have hview : (Spec.empty.run [.zeroFill 0 (2 ^ 31 - 1), .zeroFill 0 1]).view 0 =
      List.replicate (2 ^ 31 - 1) 0 ++ List.replicate 1 0 := rfl
  have hsize : IOBuffer.size (w.bufs 0) = 2 ^ 31 := by
    rw [← h.length_view, hview, List.length_append, List.length_replicate, List.length_replicate]
    rfl
  have hcount : IOBuffer.BytesConsumable (w.bufs 0) = -2 ^ 31 := by
    rw [IOBuffer.BytesConsumable_eq_int, hsize]
    rfl
  refine ⟨w, hrun, hcount, ?_⟩
  rw [World.step, if_neg (by decide), IOBuffer.Move, if_pos (by rw [hcount]; decide)]
  rfl

/-- What is copied in behind a trimmed block is seen in a clone, `2 ^ 31` bytes are counted as fewer than none, and a
buffer that is appended or moved to itself is neither twice as long nor short of what has been moved. -/
theorem not_byte_lists :
    (((World.empty ⟨fun _ _ => 0, 0⟩).run fourBytes [.block 0 [] [1, 2] [], .clone 0 1, .trim 0 1, .append 2 0,
        .copyIn 2 [9]]).map (fun w => w.view 1) = some [1, 9] ∧
      (Spec.empty.run [.block 0 [] [1, 2] [], .clone 0 1, .trim 0 1, .append 2 0, .copyIn 2 [9]]).view 1 = [1, 2]) ∧
    (∃ w, (World.empty ⟨fun _ _ => 0, 0⟩).run fourBytes [.zeroFill 0 (2 ^ 31 - 1), .zeroFill 0 1] = some w ∧
      IOBuffer.BytesConsumable (w.bufs 0) = -2 ^ 31 ∧ w.step fourBytes (.move 1 0 1) = none) ∧
    (World.empty ⟨fun _ _ => 0, 0⟩).run fourBytes [.block 0 [] [1] [], .append 0 0] = none ∧
    ((World.empty ⟨fun _ _ => 0, 0⟩).run fourBytes [.block 0 [] [1, 2] [], .move 0 0 1]).map (fun w => w.view 0) =
      some [2, 1] :=
  ⟨⟨copyIn_over_clone, rfl⟩, zeroFill_overflow, rfl, by decide +kernel⟩

end Kfs.Io
