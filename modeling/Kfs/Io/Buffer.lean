import Kfs.Lib.Memory
import Mathlib.Data.List.Basic
import Mathlib.Algebra.Order.Ring.Int

/-!
# Buffers

An `IOBuffer` is a list of blocks. A block is a window on a piece of memory, and the memory may be shared: a clone and a
part that is moved are windows on the memory of the blocks they come from.

* `int`: the sums and differences of `int`;
* `Memory`, `IOBufferData`: the memory and the blocks, with their consumer and their producer;
* `IOBuffer.Consume`, `Trim`, `CopyIn`, `CopyOut`, `ZeroFill`, `Move`, `Clone`: the operations, `none` for an assertion
  that fails;
* `view`: the bytes that can be consumed, and what each operation does to them.
-/

namespace Kfs.Io

open Kfs.Lib

/-! ## Counts -/

/-- A sum or a difference of `int`. -/
def int (n : ℤ) : ℤ := n.bmod (2 ^ 32)

theorem int_eq {n : ℤ} (h₀ : 0 ≤ n) (h : n < 2 ^ 31) : int n = n := by
  have h₁ : -((2 ^ 32 : ℕ) / 2 : ℤ) ≤ n := by norm_num; omega
  have h₂ : n < ((2 ^ 32 : ℕ) + 1 : ℤ) / 2 := by norm_num; omega
  exact Int.bmod_eq_of_le h₁ h₂

/-! ## Blocks -/

/-- The size of a block. Sizes and counts of blocks are `int`. -/
structure BlockSize where
  val : ℕ
  pos : 0 < val
  lt : val < 2 ^ 31

instance : CoeOut BlockSize ℕ := ⟨BlockSize.val⟩

/-- The pieces of memory by their numbers; those from `next` on have not been allocated. -/
structure Memory where
  bytes : ℕ → ℕ → UInt8
  next : ℕ

def Memory.write (m : Memory) (block p : ℕ) (d : List UInt8) : Memory :=
  { m with bytes := Function.update m.bytes block (store (m.bytes block) p d) }

@[simp] theorem Memory.write_nil {m : Memory} {block p : ℕ} : m.write block p [] = m := by
  rw [write, store_nil, Function.update_eq_self]

/-- A window on a piece of memory: the bytes from the consumer to the producer can be consumed, those from the producer
to the end can be filled. -/
@[ext]
structure IOBufferData where
  mData : ℕ
  mConsumer : ℕ
  mProducer : ℕ
  mEnd : ℕ
  consumer_le : mConsumer ≤ mProducer
  producer_le : mProducer ≤ mEnd

namespace IOBufferData

/-- A block of `bufsz` bytes of its own. -/
def new (m : Memory) (bufsz : BlockSize) : IOBufferData × Memory :=
  (⟨m.next, 0, 0, bufsz, le_rfl, Nat.zero_le _⟩, { m with next := m.next + 1 })

variable (m : Memory) (data : IOBufferData)

/-- The first `n` bytes of a block, in a block that shares its memory. -/
def share (n : ℕ) : IOBufferData :=
  ⟨data.mData, data.mConsumer, data.mConsumer + n, data.mConsumer + n, Nat.le_add_right _ _, le_rfl⟩

def BytesConsumable : ℕ := data.mProducer - data.mConsumer

def SpaceAvailable : ℕ := data.mEnd - data.mProducer

def IsEmpty : Bool := data.mProducer = data.mConsumer

/-- The producer goes on by `nbytes`, or to the end. -/
def Fill (nbytes : ℕ) : IOBufferData :=
  { data with
    mProducer := data.mProducer + min nbytes data.SpaceAvailable
    consumer_le := data.consumer_le.trans (Nat.le_add_right _ _)
    producer_le := by
      have := data.producer_le
      rw [SpaceAvailable]
      omega }

/-- How many bytes have been consumed, and the block. -/
def Consume (nbytes : ℕ) : ℕ × IOBufferData :=
  (min nbytes data.BytesConsumable,
    { data with
      mConsumer := data.mConsumer + min nbytes data.BytesConsumable
      consumer_le := by
        have := data.consumer_le
        rw [BytesConsumable]
        omega })

/-- A block can be cut and not be enlarged. -/
def Trim (nbytes : ℕ) : IOBufferData :=
  { data with
    mProducer := data.mConsumer + min nbytes data.BytesConsumable
    consumer_le := Nat.le_add_right _ _
    producer_le := by
      have h₁ := data.consumer_le
      have h₂ := data.producer_le
      rw [BytesConsumable]
      omega }

/-- How many bytes there was space for, and the block. -/
def CopyIn (buf : List UInt8) : ℕ × IOBufferData × Memory :=
  let n := min buf.length data.SpaceAvailable
  (n, data.Fill n, m.write data.mData data.mProducer (buf.take n))

def ZeroFill (nbytes : ℕ) : IOBufferData × Memory :=
  let n := min nbytes data.SpaceAvailable
  (data.Fill n, m.write data.mData data.mProducer (List.replicate n 0))

def CopyOut (numBytes : ℕ) : List UInt8 :=
  load (m.bytes data.mData) data.mConsumer (min numBytes data.BytesConsumable)

/-- The bytes that can be consumed. -/
def view : List UInt8 := load (m.bytes data.mData) data.mConsumer data.BytesConsumable

end IOBufferData

/-! ## Buffers -/

abbrev IOBuffer := List IOBufferData

namespace IOBuffer

variable (m : Memory) (IOBUFSIZE : BlockSize)

/-- The bytes that can be consumed, counted. -/
def size (buf : IOBuffer) : ℕ := (buf.map IOBufferData.BytesConsumable).sum

def BytesConsumable (buf : IOBuffer) : ℤ :=
  buf.foldl (fun numBytes data => int (numBytes + data.BytesConsumable)) 0

def Append (buf other : IOBuffer) : IOBuffer × IOBuffer := (buf ++ other, [])

/-- A block that has become empty is dropped; while bytes are left to be consumed it has. -/
def consumeLoop : ℕ → IOBuffer → Option IOBuffer
  | nbytes, [] => if nbytes = 0 then some [] else none
  | nbytes, data :: buf =>
    let (bytesConsumed, data) := data.Consume nbytes
    if nbytes - bytesConsumed = 0 then some (if data.IsEmpty then buf else data :: buf)
    else consumeLoop (nbytes - bytesConsumed) buf

def Consume (nbytes : ℤ) (buf : IOBuffer) : Option IOBuffer :=
  if nbytes < 0 then none else consumeLoop nbytes.toNat buf

/-- The loop of `Move`, with the number of bytes that have been moved. -/
def moveLoop (numBytes : ℤ) : ℤ → IOBuffer → IOBuffer → Option (IOBuffer × IOBuffer)
  | _, buf, [] => some (buf, [])
  | bytesMoved, buf, data :: other =>
    if numBytes ≤ bytesMoved then some (buf, data :: other)
    else if int (data.BytesConsumable + bytesMoved) < numBytes then
      moveLoop numBytes (int (bytesMoved + data.BytesConsumable)) (buf ++ [data]) other
    else
      let bytesToMove := int (numBytes - bytesMoved)
      (Consume bytesToMove (data :: other)).map fun other => (buf ++ [data.share bytesToMove.toNat], other)

def Move (buf other : IOBuffer) (numBytes : ℤ) : Option (IOBuffer × IOBuffer) :=
  if BytesConsumable other < numBytes then none else moveLoop numBytes 0 buf other

/-- The loop of `ZeroFill`: blocks of at most `IOBUFSIZE` bytes. -/
def zeroFillLoop : ℕ → ℕ → Memory → IOBuffer → Option (IOBuffer × Memory)
  | _, 0, m, buf => some (buf, m)
  | 0, _ + 1, _, _ => none
  | fuel + 1, n + 1, m, buf =>
    let zeroed := min (IOBUFSIZE : ℕ) (n + 1)
    let (data, m) := IOBufferData.new m IOBUFSIZE
    let (data, m) := data.ZeroFill m zeroed
    zeroFillLoop fuel (n + 1 - zeroed) m (buf ++ [data])

def ZeroFill (buf : IOBuffer) (numBytes : ℤ) : Option (IOBuffer × Memory) :=
  zeroFillLoop IOBUFSIZE numBytes.toNat numBytes.toNat m buf

/-- The loop of `CopyIn`: `data` is the last block. -/
def copyInLoop : ℕ → Memory → IOBuffer → IOBufferData → List UInt8 → Option (IOBuffer × Memory)
  | fuel, m, buf, data, bytes =>
    if bytes = [] then some (buf ++ [data], m)
    else
      let (bytesCopied, data, m) := data.CopyIn m bytes
      if bytes.length ≤ bytesCopied then some (buf ++ [data], m)
      else
        match fuel with
        | 0 => none
        | fuel + 1 =>
          let (next, m) := IOBufferData.new m IOBUFSIZE
          copyInLoop fuel m (buf ++ [data]) next (bytes.drop bytesCopied)

def CopyIn (buf : IOBuffer) (bytes : List UInt8) : Option (IOBuffer × Memory) :=
  match buf.getLast? with
  | none =>
    let (data, m) := IOBufferData.new m IOBUFSIZE
    copyInLoop IOBUFSIZE bytes.length m [] data bytes
  | some data => copyInLoop IOBUFSIZE bytes.length m buf.dropLast data bytes

def CopyOut : IOBuffer → ℕ → List UInt8
  | [], _ => []
  | data :: buf, numBytes =>
    let copied := data.CopyOut m numBytes
    if numBytes ≤ copied.length then copied else copied ++ CopyOut buf (numBytes - copied.length)

/-- The rest of a buffer that is trimmed. -/
def drain (buf : IOBuffer) : IOBuffer := buf.map fun data => (data.Consume data.BytesConsumable).2

/-- The loops of `Trim`, with the number of bytes that stay; `none` when the producer would leave its block. -/
def trimLoop (nbytes : ℤ) : ℤ → IOBuffer → Option IOBuffer
  | _, [] => some []
  | totBytes, data :: buf =>
    if int (data.BytesConsumable + totBytes) ≤ nbytes then
      (trimLoop nbytes (int (totBytes + data.BytesConsumable)) buf).map fun buf => data :: buf
    else if totBytes = nbytes then some (drain (data :: buf))
    else if int (nbytes - totBytes) < 0 then none
    else some (data.Trim (int (nbytes - totBytes)).toNat :: drain buf)

def Trim (buf : IOBuffer) (nbytes : ℤ) : Option IOBuffer :=
  if nbytes ≤ 0 then some buf
  else (trimLoop nbytes 0 buf).bind fun buf => if BytesConsumable buf = nbytes then some buf else none

def Clone (buf : IOBuffer) : IOBuffer := buf.map fun data => data.share data.BytesConsumable

def view (buf : IOBuffer) : List UInt8 := buf.flatMap fun data => data.view m

end IOBuffer

/-! ## What is seen of a block -/

section Load

variable {α : Type} {f : ℕ → α} {p n k : ℕ}

theorem take_load : (load f p n).take k = load f p (min k n) := by
  rcases le_total k n with h | h
  · obtain ⟨m, rfl⟩ := Nat.exists_eq_add_of_le h
    rw [load_append, min_eq_left h, List.take_left' length_load]
  · rw [min_eq_right h, List.take_of_length_le (by rw [length_load]; exact h)]

theorem drop_load : (load f p n).drop k = load f (p + k) (n - k) := by
  rcases le_total k n with h | h
  · obtain ⟨m, rfl⟩ := Nat.exists_eq_add_of_le h
    rw [load_append, List.drop_left' length_load, Nat.add_sub_cancel_left]
  · rw [Nat.sub_eq_zero_of_le h, List.drop_of_length_le (by rw [length_load]; exact h), load_zero]

theorem load_store (d : List α) : load (store f p d) p d.length = d := by
  refine List.ext_getElem length_load fun i h₁ h₂ => ?_
  rw [getElem_load, store_of_mem (Nat.le_add_right _ _) (by rwa [Nat.add_sub_cancel_left])]
  simp only [Nat.add_sub_cancel_left]

end Load

namespace IOBufferData

variable {m : Memory} {data : IOBufferData} {n : ℕ}

@[simp] theorem length_view : (data.view m).length = data.BytesConsumable := length_load

theorem drop_view (h : data.BytesConsumable ≤ n) : (data.view m).drop n = [] :=
  List.drop_of_length_le (by rwa [length_view])

theorem take_view (h : data.BytesConsumable ≤ n) : (data.view m).take n = data.view m :=
  List.take_of_length_le (by rwa [length_view])

theorem Consume_view : (data.Consume n).2.view m = (data.view m).drop n := by
  simp only [view, Consume, BytesConsumable, drop_load]
  rcases le_total n (data.mProducer - data.mConsumer) with h | h
  · rw [min_eq_left h, Nat.sub_sub]
  · have hnone : data.mProducer - (data.mConsumer + (data.mProducer - data.mConsumer)) = 0 := by omega
    rw [min_eq_right h, Nat.sub_eq_zero_of_le h, hnone, load_zero, load_zero]

theorem Trim_view : (data.Trim n).view m = (data.view m).take n := by
  simp only [view, Trim, BytesConsumable, take_load, Nat.add_sub_cancel_left]

theorem share_view (h : n ≤ data.BytesConsumable) : (data.share n).view m = (data.view m).take n := by
  rw [view, view, take_load, min_eq_left h]
  simp only [share, BytesConsumable, Nat.add_sub_cancel_left]

theorem CopyOut_eq : data.CopyOut m n = (data.view m).take n := by rw [CopyOut, view, take_load]

/-- What is written in other memory or behind the producer is not seen. -/
theorem view_write {block p : ℕ} {d : List UInt8} (h : data.mData = block → data.mProducer ≤ p) :
    data.view (m.write block p d) = data.view m := by
  refine load_congr fun i hi hlt => ?_
  simp only [Memory.write]
  rcases eq_or_ne data.mData block with rfl | hne
  · have hle := h rfl
    have hc := data.consumer_le
    rw [BytesConsumable] at hlt
    rw [Function.update_self, store_of_lt (by omega)]
  · rw [Function.update_of_ne hne]

/-- What is filled in is seen behind what was there. -/
theorem Fill_view {d : List UInt8} (h : d.length ≤ data.SpaceAvailable) :
    (data.Fill d.length).view (m.write data.mData data.mProducer d) = data.view m ++ d := by
  have hc := data.consumer_le
  have hlen : data.mProducer + min d.length data.SpaceAvailable - data.mConsumer =
      data.BytesConsumable + d.length := by
    rw [BytesConsumable, min_eq_left h]
    omega
  have hat : data.mConsumer + data.BytesConsumable = data.mProducer := by
    rw [BytesConsumable]
    omega
  have hold := @view_write m data data.mData data.mProducer d fun _ => le_rfl
  rw [view, view] at hold
  rw [view, BytesConsumable, Fill, hlen, load_append, hold, hat, ← view]
  congr 1
  rw [Memory.write]
  simp only [Function.update_self]
  exact load_store d

end IOBufferData

/-! ## What is seen of a buffer -/

namespace IOBuffer

variable {m : Memory} {buf other : IOBuffer} {n : ℕ} {IOBUFSIZE : BlockSize}

@[simp] theorem view_nil : view m [] = [] := rfl

@[simp] theorem view_cons {data : IOBufferData} : view m (data :: buf) = data.view m ++ view m buf := List.flatMap_cons

@[simp] theorem view_append : view m (buf ++ other) = view m buf ++ view m other := List.flatMap_append

theorem view_congr {m' : Memory} (h : ∀ data ∈ buf, data.view m' = data.view m) : view m' buf = view m buf :=
  List.flatMap_congr h

theorem size_cons {data : IOBufferData} : size (data :: buf) = data.BytesConsumable + size buf := rfl

@[simp] theorem length_view : (view m buf).length = size buf := by
  induction buf with
  | nil => rfl
  | cons data buf ih => rw [view_cons, List.length_append, ih, IOBufferData.length_view, size_cons]

/-- The bytes that can be consumed are counted as an `int`. -/
theorem BytesConsumable_eq_int : BytesConsumable buf = int (size buf) := by
  have hfold : ∀ (buf : IOBuffer) (n : ℤ),
      buf.foldl (fun numBytes data => int (numBytes + data.BytesConsumable)) (int n) = int (n + size buf) := by
    intro buf
    induction buf with
    | nil => exact fun n => by rw [List.foldl_nil, size, List.map_nil, List.sum_nil, Nat.cast_zero, add_zero]
    | cons data buf ih =>
      intro n
      have hsum : int (int n + data.BytesConsumable) = int (n + data.BytesConsumable) := Int.bmod_add_bmod
      rw [List.foldl_cons, hsum, ih, size_cons, Nat.cast_add, add_assoc]
  have hzero : int 0 = 0 := rfl
  rw [BytesConsumable, ← hzero, hfold, zero_add]

theorem BytesConsumable_eq (h : size buf < 2 ^ 31) : BytesConsumable buf = size buf := by
  rw [BytesConsumable_eq_int, int_eq (by omega) (by omega)]

theorem view_of_isEmpty {data : IOBufferData} (h : data.IsEmpty = true) : data.view m = [] := by
  have hempty : data.mProducer = data.mConsumer := of_decide_eq_true h
  rw [IOBufferData.view, IOBufferData.BytesConsumable, hempty, Nat.sub_self, load_zero]

theorem consumeLoop_cons {data : IOBufferData} : consumeLoop n (data :: buf) =
    if n - min n data.BytesConsumable = 0 then
      some (if (data.Consume n).2.IsEmpty then buf else (data.Consume n).2 :: buf)
    else consumeLoop (n - min n data.BytesConsumable) buf := rfl

/-- The first `n` bytes are dropped. -/
theorem consumeLoop_view (h : n ≤ size buf) :
    ∃ buf', consumeLoop n buf = some buf' ∧ view m buf' = (view m buf).drop n := by
  induction buf generalizing n with
  | nil =>
    obtain rfl : n = 0 := Nat.le_zero.1 h
    exact ⟨[], rfl, rfl⟩
  | cons data buf ih =>
    rw [size_cons] at h
    rcases Nat.lt_or_ge data.BytesConsumable n with hlt | hge
    · obtain ⟨buf', hrest, hview⟩ := @ih (n - data.BytesConsumable) (by omega)
      refine ⟨buf', ?_, ?_⟩
      · rw [consumeLoop_cons, min_eq_right hlt.le, if_neg (by omega)]
        exact hrest
      · rw [hview, view_cons, List.drop_append, IOBufferData.length_view, IOBufferData.drop_view hlt.le,
          List.nil_append]
    · have hview : view m (if (data.Consume n).2.IsEmpty then buf else (data.Consume n).2 :: buf) =
          (data.Consume n).2.view m ++ view m buf := by
        split_ifs with hempty
        · rw [view_of_isEmpty hempty, List.nil_append]
        · rw [view_cons]
      refine ⟨if (data.Consume n).2.IsEmpty then buf else (data.Consume n).2 :: buf, ?_, ?_⟩
      · rw [consumeLoop_cons, min_eq_left hge, if_pos (Nat.sub_self n)]
      · rw [hview, IOBufferData.Consume_view, view_cons,
          List.drop_append_of_le_length (by rw [IOBufferData.length_view]; exact hge)]

theorem Consume_natCast : Consume n buf = consumeLoop n buf := by
  rw [Consume, if_neg (Int.not_lt.mpr (Int.natCast_nonneg n)), Int.toNat_natCast]

theorem Consume_view (h : n ≤ size buf) : ∃ buf', Consume n buf = some buf' ∧ view m buf' = (view m buf).drop n := by
  rw [Consume_natCast]
  exact consumeLoop_view h

/-- The loop of `Move` while the counts are small: blocks go as they are, and at the end a part of one. -/
theorem moveLoop_cons {data : IOBufferData} {bytesMoved : ℕ} (hsmall : bytesMoved + size (data :: other) < 2 ^ 31) :
    moveLoop (bytesMoved + (n + 1) : ℕ) bytesMoved buf (data :: other) =
      if data.BytesConsumable < n + 1 then
        moveLoop (bytesMoved + (n + 1) : ℕ) (bytesMoved + data.BytesConsumable : ℕ) (buf ++ [data]) other
      else (consumeLoop (n + 1) (data :: other)).map fun other => (buf ++ [data.share (n + 1)], other) := by
  rw [size_cons] at hsmall
  have hsum : int (data.BytesConsumable + bytesMoved) = (data.BytesConsumable + bytesMoved : ℕ) := by
    rw [int_eq (by omega) (by omega), Nat.cast_add]
  have hsum' : int (bytesMoved + data.BytesConsumable) = (bytesMoved + data.BytesConsumable : ℕ) := by
    rw [int_eq (by omega) (by omega), Nat.cast_add]
  rw [moveLoop, if_neg (by omega), hsum, hsum']
  by_cases hlt : data.BytesConsumable < n + 1
  · rw [if_pos (by omega), if_pos hlt]
  · have hleft : int ((bytesMoved + (n + 1) : ℕ) - bytesMoved) = (n + 1 : ℕ) := by
      rw [int_eq (by omega) (by omega)]
      omega
    rw [if_neg (by omega), if_neg hlt, hleft]
    dsimp only
    rw [Consume_natCast, Int.toNat_natCast]

theorem moveLoop_view {bytesMoved : ℕ} (h : n ≤ size other) (hsmall : bytesMoved + size other < 2 ^ 31) :
    ∃ buf' other', moveLoop (bytesMoved + n : ℕ) bytesMoved buf other = some (buf', other') ∧
      view m buf' = view m buf ++ (view m other).take n ∧ view m other' = (view m other).drop n := by
  induction other generalizing n buf bytesMoved with
  | nil =>
    obtain rfl : n = 0 := Nat.le_zero.1 h
    exact ⟨buf, [], rfl, (List.append_nil _).symm, rfl⟩
  | cons data other ih =>
    cases n with
    | zero => exact ⟨buf, data :: other, by rw [moveLoop, if_pos (by omega)], (List.append_nil _).symm, rfl⟩
    | succ n =>
      have hsum : size (data :: other) = data.BytesConsumable + size other := size_cons
      rw [moveLoop_cons hsmall]
      rcases Nat.lt_or_ge data.BytesConsumable (n + 1) with hlt | hge
      · obtain ⟨buf', other', hloop, hbuf, hother⟩ :=
          @ih (buf ++ [data]) (n + 1 - data.BytesConsumable) (bytesMoved + data.BytesConsumable) (by omega) (by omega)
        have hall : bytesMoved + data.BytesConsumable + (n + 1 - data.BytesConsumable) = bytesMoved + (n + 1) := by
          omega
        rw [hall] at hloop
        rw [if_pos hlt]
        refine ⟨buf', other', hloop, ?_, ?_⟩
        · rw [hbuf, view_append, view_cons, view_nil, List.append_nil, view_cons, List.take_append,
            IOBufferData.length_view, IOBufferData.take_view hlt.le, List.append_assoc]
        · rw [hother, view_cons, List.drop_append, IOBufferData.length_view, IOBufferData.drop_view hlt.le,
            List.nil_append]
      · obtain ⟨other', hconsume, hother⟩ := @consumeLoop_view m (data :: other) (n + 1) h
        rw [if_neg (not_lt.2 hge), hconsume]
        refine ⟨_, other', rfl, ?_, hother⟩
        rw [view_append, view_cons, view_nil, List.append_nil, IOBufferData.share_view hge, view_cons,
          List.take_append_of_le_length (by rw [IOBufferData.length_view]; exact hge)]

theorem Move_eq (h : n ≤ size other) (hsmall : size other < 2 ^ 31) :
    Move buf other n = moveLoop (0 + n : ℕ) (0 : ℕ) buf other := by
  rw [Move, BytesConsumable_eq hsmall, if_neg (by omega), Nat.zero_add]
  rfl

/-- The first `n` bytes are moved and the others are left. -/
theorem Move_view (h : n ≤ size other) (hsmall : size other < 2 ^ 31) :
    ∃ buf' other', Move buf other n = some (buf', other') ∧
      view m buf' = view m buf ++ (view m other).take n ∧ view m other' = (view m other).drop n := by
  rw [Move_eq h hsmall]
  exact moveLoop_view h (by omega)

theorem CopyOut_eq : CopyOut m buf n = (view m buf).take n := by
  induction buf generalizing n with
  | nil => simp [CopyOut]
  | cons data buf ih =>
    rw [CopyOut, IOBufferData.CopyOut_eq, view_cons, List.take_append, IOBufferData.length_view, List.length_take,
      IOBufferData.length_view]
    rcases Nat.lt_or_ge data.BytesConsumable n with hlt | hge
    · rw [min_eq_right hlt.le, if_neg (by omega), ih]
    · rw [min_eq_left hge, if_pos le_rfl, Nat.sub_eq_zero_of_le hge, List.take_zero, List.append_nil]

theorem drain_view : view m (drain buf) = [] := by
  induction buf with
  | nil => rfl
  | cons data buf ih =>
    rw [drain, List.map_cons, view_cons, IOBufferData.Consume_view, IOBufferData.drop_view le_rfl, List.nil_append]
    exact ih

/-- The loops of `Trim` while the counts are small. -/
theorem trimLoop_cons {data : IOBufferData} {totBytes : ℕ} (hn : totBytes + n < 2 ^ 31)
    (hsmall : totBytes + size (data :: buf) < 2 ^ 31) : trimLoop (totBytes + n : ℕ) totBytes (data :: buf) =
      if data.BytesConsumable ≤ n then
        (trimLoop (totBytes + n : ℕ) (totBytes + data.BytesConsumable : ℕ) buf).map fun buf => data :: buf
      else if n = 0 then some (drain (data :: buf))
      else some (data.Trim n :: drain buf) := by
  rw [size_cons] at hsmall
  have hsum : int (data.BytesConsumable + totBytes) = (data.BytesConsumable + totBytes : ℕ) := by
    rw [int_eq (by omega) (by omega), Nat.cast_add]
  have hsum' : int (totBytes + data.BytesConsumable) = (totBytes + data.BytesConsumable : ℕ) := by
    rw [int_eq (by omega) (by omega), Nat.cast_add]
  have hleft : int ((totBytes + n : ℕ) - totBytes) = (n : ℕ) := by
    rw [int_eq (by omega) (by omega)]
    omega
  rw [trimLoop, hsum, hsum', hleft, Int.toNat_natCast]
  by_cases hle : data.BytesConsumable ≤ n
  · rw [if_pos (by omega), if_pos hle]
  · rw [if_neg (by omega), if_neg hle]
    by_cases hzero : n = 0
    · rw [if_pos (by omega), if_pos hzero]
    · rw [if_neg (by omega), if_neg hzero, if_neg (by omega)]

theorem trimLoop_view {totBytes : ℕ} (hn : totBytes + n < 2 ^ 31) (hsmall : totBytes + size buf < 2 ^ 31) :
    ∃ buf', trimLoop (totBytes + n : ℕ) totBytes buf = some buf' ∧ view m buf' = (view m buf).take n := by
  induction buf generalizing n totBytes with
  | nil => exact ⟨[], rfl, by rw [view_nil, List.take_nil]⟩
  | cons data buf ih =>
    have hsum : size (data :: buf) = data.BytesConsumable + size buf := size_cons
    rw [trimLoop_cons hn hsmall, view_cons, List.take_append, IOBufferData.length_view]
    split_ifs with hle hzero
    · obtain ⟨buf', hloop, hview⟩ :=
        @ih (n - data.BytesConsumable) (totBytes + data.BytesConsumable) (by omega) (by omega)
      have hall : totBytes + data.BytesConsumable + (n - data.BytesConsumable) = totBytes + n := by omega
      rw [hall] at hloop
      exact ⟨data :: buf', by rw [hloop]; rfl, by rw [view_cons, hview, IOBufferData.take_view hle]⟩
    · exact ⟨_, rfl, by rw [drain_view, hzero, List.take_zero, Nat.zero_sub, List.take_zero, List.append_nil]⟩
    · refine ⟨_, rfl, ?_⟩
      rw [view_cons, drain_view, IOBufferData.Trim_view, Nat.sub_eq_zero_of_le (le_of_not_ge hle), List.take_zero]

/-- All but the first `n` bytes are dropped. -/
theorem Trim_view (h₀ : 0 < n) (h : n ≤ size buf) (hsmall : size buf < 2 ^ 31) : ∃ buf', Trim buf n = some buf' ∧
    trimLoop (0 + n : ℕ) (0 : ℕ) buf = some buf' ∧ view m buf' = (view m buf).take n := by
  obtain ⟨buf', hloop, hview⟩ := @trimLoop_view m buf n 0 (by omega) (by omega)
  have hlen : size buf' = n := by
    rw [← @length_view m, hview, List.length_take, length_view, min_eq_left h]
  refine ⟨buf', ?_, hloop, hview⟩
  have hloop : trimLoop n 0 buf = some buf' := by
    rw [Nat.zero_add] at hloop
    exact hloop
  rw [Trim, if_neg (by omega), hloop, Option.bind_some, BytesConsumable_eq (by omega), if_pos (by rw [hlen])]

theorem Clone_view : view m (Clone buf) = view m buf := by
  induction buf with
  | nil => rfl
  | cons data buf ih =>
    rw [Clone, List.map_cons, view_cons, view_cons, IOBufferData.share_view le_rfl, IOBufferData.take_view le_rfl]
    exact congrArg _ ih

/-! ## Blocks that are added -/

/-- The blocks `news` have been added, each with memory of its own. -/
structure Fresh (m m' : Memory) (news : IOBuffer) : Prop where
  blocks : news.map IOBufferData.mData = List.range' m.next news.length
  next : m'.next = m.next + news.length

theorem Fresh.nil : Fresh m m [] := ⟨rfl, rfl⟩

theorem Fresh.cons {m₁ m' : Memory} {data : IOBufferData} {news : IOBuffer} (hdata : data.mData = m.next)
    (hnext : m₁.next = m.next + 1) (h : Fresh m₁ m' news) : Fresh m m' (data :: news) := by
  refine ⟨?_, ?_⟩
  · rw [List.map_cons, h.blocks, hdata, hnext, List.length_cons, List.range'_succ]
  · rw [h.next, hnext, List.length_cons]
    omega

theorem zeroFillLoop_view {fuel : ℕ} (hfuel : n ≤ fuel) : ∃ news m', zeroFillLoop IOBUFSIZE fuel n m buf =
    some (buf ++ news, m') ∧ Fresh m m' news ∧ view m' news = List.replicate n 0 ∧
      ∀ data : IOBufferData, data.mData < m.next → data.view m' = data.view m := by
  induction fuel generalizing n m buf with
  | zero =>
    obtain rfl := Nat.le_zero.1 hfuel
    exact ⟨[], m, by rw [zeroFillLoop, List.append_nil], Fresh.nil, rfl, fun _ _ => rfl⟩
  | succ fuel ih =>
    cases n with
    | zero => exact ⟨[], m, by rw [zeroFillLoop, List.append_nil], Fresh.nil, rfl, fun _ _ => rfl⟩
    | succ n =>
      have hsize := IOBUFSIZE.pos
      set zeroed := min (IOBUFSIZE : ℕ) (n + 1) with hz
      set new := (IOBufferData.new m IOBUFSIZE).1 with hnew
      set m₁ : Memory := { m with next := m.next + 1 } with hm₁
      have hspace : new.SpaceAvailable = IOBUFSIZE := Nat.sub_zero _
      have hzeroed : min zeroed new.SpaceAvailable = zeroed := by omega
      set m₂ := m₁.write new.mData new.mProducer (List.replicate zeroed 0) with hm₂
      have hfill : new.ZeroFill m₁ zeroed = (new.Fill zeroed, m₂) := by
        rw [IOBufferData.ZeroFill, hzeroed]
      obtain ⟨news, m', hloop, hfresh, hview, hframe⟩ :=
        @ih m₂ (buf ++ [new.Fill zeroed]) (n + 1 - zeroed) (by omega)
      have hfilled := @IOBufferData.Fill_view m₁ new (List.replicate zeroed 0)
        (by rw [List.length_replicate]; omega)
      rw [List.length_replicate] at hfilled
      have hempty : new.view m₁ = [] := rfl
      refine ⟨new.Fill zeroed :: news, m', ?_, .cons rfl rfl hfresh, ?_, fun data hdata => ?_⟩
      · rw [zeroFillLoop]
        show zeroFillLoop IOBUFSIZE fuel (n + 1 - zeroed) (new.ZeroFill m₁ zeroed).2
          (buf ++ [(new.ZeroFill m₁ zeroed).1]) = _
        rw [hfill, hloop, List.append_assoc]
        rfl
      · rw [view_cons, hview, hframe _ (Nat.lt_succ_self _), hfilled, hempty, List.nil_append,
          List.replicate_append_replicate]
        congr 1
        omega
      · exact (hframe _ (Nat.lt_succ_of_lt hdata)).trans (IOBufferData.view_write fun heq => absurd heq hdata.ne)

/-- The zeros are in new blocks. -/
theorem ZeroFill_view {numBytes : ℤ} : ∃ news m', ZeroFill m IOBUFSIZE buf numBytes = some (buf ++ news, m') ∧
    Fresh m m' news ∧ view m' news = List.replicate numBytes.toNat 0 ∧
      ∀ data : IOBufferData, data.mData < m.next → data.view m' = data.view m :=
  zeroFillLoop_view le_rfl

theorem Fill_zero {data : IOBufferData} : data.Fill 0 = data := by
  ext <;> simp [IOBufferData.Fill]

theorem Fill_min {data : IOBufferData} : data.Fill (min n data.SpaceAvailable) = data.Fill n := by
  ext <;> simp [IOBufferData.Fill]

theorem CopyIn_eq {data : IOBufferData} {bytes : List UInt8} : data.CopyIn m bytes =
    (min bytes.length data.SpaceAvailable, data.Fill bytes.length,
      m.write data.mData data.mProducer (bytes.take data.SpaceAvailable)) := by
  have htake : bytes.take (min bytes.length data.SpaceAvailable) = bytes.take data.SpaceAvailable := by
    rw [List.take_eq_take_iff]
    omega
  rw [IOBufferData.CopyIn]
  simp only [htake, Fill_min]

/-- What is seen of a block that bytes are copied to. -/
theorem CopyIn_view {data : IOBufferData} {bytes : List UInt8} : (data.Fill bytes.length).view
    (m.write data.mData data.mProducer (bytes.take data.SpaceAvailable)) =
      data.view m ++ bytes.take data.SpaceAvailable := by
  have htake : (bytes.take data.SpaceAvailable).length = min bytes.length data.SpaceAvailable := by
    rw [List.length_take, min_comm]
  have hfilled := @IOBufferData.Fill_view m data (bytes.take data.SpaceAvailable) (by omega)
  rwa [htake, Fill_min] at hfilled

theorem CopyIn_frame {data d : IOBufferData} {bytes : List UInt8}
    (h : 0 < data.SpaceAvailable → d.mData = data.mData → d.mProducer ≤ data.mProducer) :
    d.view (m.write data.mData data.mProducer (bytes.take data.SpaceAvailable)) = d.view m := by
  rcases Nat.eq_zero_or_pos data.SpaceAvailable with hfull | hpos
  · rw [hfull, List.take_zero, Memory.write_nil]
  · exact IOBufferData.view_write (h hpos)

theorem copyInLoop_fits {fuel : ℕ} {data : IOBufferData} {bytes : List UInt8}
    (h : bytes.length ≤ data.SpaceAvailable) :
    ∃ news m', copyInLoop IOBUFSIZE fuel m buf data bytes = some (buf ++ data.Fill bytes.length :: news, m') ∧
      Fresh m m' news ∧ (data.Fill bytes.length).view m' ++ view m' news = data.view m ++ bytes ∧
      ∀ d : IOBufferData, d.mData < m.next →
        (0 < data.SpaceAvailable → d.mData = data.mData → d.mProducer ≤ data.mProducer) → d.view m' = d.view m := by
  unfold copyInLoop
  split_ifs with hnil
  · refine ⟨[], m, ?_, Fresh.nil, ?_, fun _ _ _ => rfl⟩
    · rw [hnil, List.length_nil, Fill_zero]
    · rw [hnil, List.length_nil, Fill_zero]
      rfl
  · refine ⟨[], m.write data.mData data.mProducer (bytes.take data.SpaceAvailable), ?_, ⟨rfl, rfl⟩, ?_,
      fun d _ hd => CopyIn_frame hd⟩
    · rw [CopyIn_eq]
      exact if_pos (min_eq_left h).ge
    · rw [CopyIn_view, List.take_of_length_le h, view_nil, List.append_nil]

/-- The bytes go behind the last block, and those that there is no space for to new ones. -/
theorem copyInLoop_view {fuel : ℕ} {data : IOBufferData} {bytes : List UInt8}
    (hfuel : bytes.length ≤ fuel + min 1 data.SpaceAvailable) (hdata : data.mData < m.next) :
    ∃ news m', copyInLoop IOBUFSIZE fuel m buf data bytes = some (buf ++ data.Fill bytes.length :: news, m') ∧
      Fresh m m' news ∧ (data.Fill bytes.length).view m' ++ view m' news = data.view m ++ bytes ∧
      ∀ d : IOBufferData, d.mData < m.next →
        (0 < data.SpaceAvailable → d.mData = data.mData → d.mProducer ≤ data.mProducer) → d.view m' = d.view m := by
  induction fuel generalizing m buf data bytes with
  | zero => exact copyInLoop_fits (by omega)
  | succ fuel ih =>
    rcases le_or_gt bytes.length data.SpaceAvailable with hfits | hmore
    · exact copyInLoop_fits hfits
    set m₁ := m.write data.mData data.mProducer (bytes.take data.SpaceAvailable) with hm₁
    set m₂ : Memory := { m₁ with next := m.next + 1 } with hm₂
    set new := (IOBufferData.new m₁ IOBUFSIZE).1 with hnew
    have hsize := IOBUFSIZE.pos
    have hspace : new.SpaceAvailable = IOBUFSIZE := Nat.sub_zero _
    obtain ⟨news, m', hloop, hfresh, hview, hframe⟩ := @ih m₂ (buf ++ [data.Fill bytes.length]) new
      (bytes.drop data.SpaceAvailable) (by rw [List.length_drop]; omega) (Nat.lt_succ_self _)
    have hother : ∀ d : IOBufferData, d.mData < m.next → d.view m' = d.view m₁ := fun d hd =>
      hframe d (Nat.lt_succ_of_lt hd) fun _ heq => absurd heq hd.ne
    refine ⟨new.Fill (bytes.drop data.SpaceAvailable).length :: news, m', ?_, .cons rfl rfl hfresh, ?_,
      fun d hd hp => ?_⟩
    · rw [copyInLoop, if_neg (by rintro rfl; exact absurd hmore (Nat.not_lt_zero _)), CopyIn_eq]
      dsimp only
      rw [if_neg (by omega), min_eq_right hmore.le]
      show copyInLoop IOBUFSIZE fuel m₂ (buf ++ [data.Fill bytes.length]) new (bytes.drop data.SpaceAvailable) = _
      rw [hloop, List.append_assoc]
      rfl
    · have hempty : new.view m₂ = [] := rfl
      have hkeep : (data.Fill bytes.length).view m' = (data.Fill bytes.length).view m₁ := hother _ hdata
      rw [view_cons, hview, hempty, List.nil_append, hkeep, hm₁, CopyIn_view, List.append_assoc, List.take_append_drop]
    · rw [hother d hd]
      exact CopyIn_frame hp

/-- The bytes are appended. -/
theorem CopyIn_empty {bytes : List UInt8} : ∃ news m', CopyIn m IOBUFSIZE [] bytes = some (news, m') ∧
    Fresh m m' news ∧ view m' news = bytes ∧ ∀ d : IOBufferData, d.mData < m.next → d.view m' = d.view m := by
  have hsize := IOBUFSIZE.pos
  set m₁ : Memory := { m with next := m.next + 1 } with hm₁
  set new := (IOBufferData.new m IOBUFSIZE).1 with hnew
  obtain ⟨news, m', hloop, hfresh, hview, hframe⟩ := @copyInLoop_view m₁ [] IOBUFSIZE bytes.length new bytes
    (Nat.le_add_right _ _) (Nat.lt_succ_self _)
  refine ⟨new.Fill bytes.length :: news, m', hloop, .cons rfl rfl hfresh, ?_, fun d hd => ?_⟩
  · rw [view_cons, hview]
    rfl
  · exact hframe d (Nat.lt_succ_of_lt hd) fun _ heq => absurd heq hd.ne

theorem CopyIn_last {data : IOBufferData} {bytes : List UInt8} (hdata : data.mData < m.next) : ∃ news m',
    CopyIn m IOBUFSIZE (buf ++ [data]) bytes = some (buf ++ data.Fill bytes.length :: news, m') ∧ Fresh m m' news ∧
      (data.Fill bytes.length).view m' ++ view m' news = data.view m ++ bytes ∧
      ∀ d : IOBufferData, d.mData < m.next →
        (0 < data.SpaceAvailable → d.mData = data.mData → d.mProducer ≤ data.mProducer) → d.view m' = d.view m := by
  obtain ⟨news, m', hloop, h⟩ := @copyInLoop_view m buf IOBUFSIZE bytes.length data bytes (Nat.le_add_right _ _) hdata
  refine ⟨news, m', ?_, h⟩
  rw [CopyIn, List.getLast?_concat, List.dropLast_concat]
  exact hloop

end IOBuffer

end Kfs.Io
