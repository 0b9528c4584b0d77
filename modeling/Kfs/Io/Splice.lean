import Kfs.Io.Buffer

/-!
# Splicing

`IOBuffer.Splice` puts a buffer in the place of a range of bytes of another one.

* `findLoop`: the insertion point; the block that contains it is split;
* `dropLoop`: the bytes behind it are consumed;
* **`Splice_view`**: the bytes before the range, those of the other buffer, and the bytes behind the range;
* `Splice_overflow`: positions from `2 ^ 31` on.
-/

namespace Kfs.Io

open Kfs.Lib

/-- The first bytes of another block are copied. -/
def IOBufferData.CopyInFrom (m : Memory) (data other : IOBufferData) (numBytes : ℕ) : IOBufferData × Memory :=
  let n := min numBytes data.SpaceAvailable
  (data.Fill n, m.write data.mData data.mProducer (load (m.bytes other.mData) other.mConsumer n))

namespace IOBuffer

variable (m : Memory) (IOBUFSIZE : BlockSize)

/-- The loop that looks for the insertion point: the blocks before it, those from it on, and its position. -/
def findLoop (offset : ℤ) : ℕ → Memory → ℤ → IOBuffer → Option (IOBuffer × IOBuffer × ℤ × Memory)
  | _, m, startPos, [] => some ([], [], startPos, m)
  | fuel, m, startPos, data :: buf =>
    if offset ≤ startPos then some ([], data :: buf, startPos, m)
    else
      match fuel with
      | 0 => none
      | fuel + 1 =>
        if offset < int (data.BytesConsumable + startPos) then
          -- the head of the block goes to a block of its own, and the loop goes on with the rest
          let bytesToCopy := int (offset - startPos)
          if bytesToCopy < 0 then none
          else
            let (dataCopy, m) := IOBufferData.new m IOBUFSIZE
            let (dataCopy, m) := dataCopy.CopyInFrom m data bytesToCopy.toNat
            let rest := (data.Consume bytesToCopy.toNat).2 :: buf
            (findLoop offset fuel m (int (startPos + dataCopy.BytesConsumable)) rest).map
              fun (before, rest) => (dataCopy :: before, rest)
        else
          (findLoop offset fuel m (int (startPos + data.BytesConsumable)) buf).map
            fun (before, rest) => (data :: before, rest)

/-- The loop that consumes what lies before `stop`; the blocks stay. -/
def dropLoop (stop : ℤ) : ℤ → IOBuffer → Option IOBuffer
  | _, [] => some []
  | startPos, data :: buf =>
    if stop ≤ startPos then some (data :: buf)
    else
      let extra := if stop < int (startPos + data.BytesConsumable) then int (stop - startPos) else data.BytesConsumable
      if extra < 0 then none
      else (dropLoop stop (int (startPos + extra)) buf).map fun buf => (data.Consume extra.toNat).2 :: buf

/-- A buffer that is too short is extended as `ZeroFill` does it. -/
def Splice (buf other : IOBuffer) (offset numBytes : ℤ) : Option (IOBuffer × IOBuffer × Memory) :=
  (ZeroFill m IOBUFSIZE buf (int (offset - BytesConsumable buf))).bind fun (buf, m) =>
    if BytesConsumable buf < offset ∨ BytesConsumable other < numBytes then none
    else
      (findLoop IOBUFSIZE offset (offset.toNat + buf.length) m 0 buf).bind fun (before, rest, startPos, m) =>
        (dropLoop (int (offset + numBytes)) startPos rest).map fun rest => (before ++ other ++ rest, [], m)

/-! ## What is seen -/

variable {m : Memory} {IOBUFSIZE : BlockSize} {buf other : IOBuffer} {data : IOBufferData}
  {offset numBytes startPos stop : ℕ}

theorem findLoop_here {fuel : ℕ} {offset startPos : ℤ} (h : offset ≤ startPos) :
    findLoop IOBUFSIZE offset fuel m startPos buf = some ([], buf, startPos, m) := by
  cases buf with
  | nil => rw [findLoop]
  | cons data buf => cases fuel <;> rw [findLoop, if_pos h]

/-- The memory of the blocks that are there stays as it is. -/
def Keeps (m m' : Memory) : Prop := m.next ≤ m'.next ∧ ∀ d : IOBufferData, d.mData < m.next → d.view m' = d.view m

theorem Keeps.refl : Keeps m m := ⟨le_rfl, fun _ _ => rfl⟩

theorem Keeps.trans {m₁ m' : Memory} (h : Keeps m m₁) (h' : Keeps m₁ m') : Keeps m m' :=
  ⟨h.1.trans h'.1, fun d hd => (h'.2 d (hd.trans_le h.1)).trans (h.2 d hd)⟩

theorem Keeps.view {m' : Memory} (h : Keeps m m') (hbuf : ∀ d ∈ buf, d.mData < m.next) :
    IOBuffer.view m' buf = IOBuffer.view m buf :=
  view_congr fun d hd => h.2 d (hbuf d hd)

/-- The new block shows the first `n` bytes of the other one. -/
theorem new_CopyInFrom {n : ℕ} (hn : n ≤ data.BytesConsumable) (hsize : n ≤ IOBUFSIZE) :
    ∃ dataCopy m', (IOBufferData.new m IOBUFSIZE).1.CopyInFrom (IOBufferData.new m IOBUFSIZE).2 data n =
      (dataCopy, m') ∧ dataCopy.view m' = (data.view m).take n ∧ dataCopy.mData = m.next ∧ m'.next = m.next + 1 ∧
        Keeps m m' := by
  set new := (IOBufferData.new m IOBUFSIZE).1 with hnew
  set m₁ := (IOBufferData.new m IOBUFSIZE).2 with hm₁
  set d := load (m₁.bytes data.mData) data.mConsumer n with hd
  have hlen : d.length = n := length_load
  have hspace : new.SpaceAvailable = IOBUFSIZE := Nat.sub_zero _
  have hfit : min n new.SpaceAvailable = n := by omega
  have hfilled := @IOBufferData.Fill_view m₁ new d (by omega)
  have hempty : new.view m₁ = [] := rfl
  rw [hlen, hempty, List.nil_append] at hfilled
  refine ⟨new.Fill n, m₁.write new.mData new.mProducer d, by rw [IOBufferData.CopyInFrom, hfit], ?_, rfl, rfl,
    Nat.le_succ _, fun e he => IOBufferData.view_write fun heq => absurd heq he.ne⟩
  rw [hfilled, IOBufferData.view, take_load, min_eq_left hn]
  rfl

/-- The sum of a position and the bytes of a block, while both are small. -/
theorem int_position (h : startPos + data.BytesConsumable < 2 ^ 31) :
    int (startPos + data.BytesConsumable) = (startPos + data.BytesConsumable : ℕ) := by
  rw [int_eq (by omega) (by omega), Nat.cast_add]

/-- The difference of two positions. -/
theorem int_distance (hlt : startPos < stop) (h : stop < 2 ^ 31) : int (stop - startPos) = (stop - startPos : ℕ) := by
  rw [int_eq (by omega) (by omega), Nat.cast_sub hlt.le]

/-- The loop while the positions are small. -/
theorem findLoop_cons {fuel : ℕ} (hlt : startPos < offset) (hoffset : offset < 2 ^ 31)
    (hsmall : startPos + data.BytesConsumable < 2 ^ 31) :
    findLoop IOBUFSIZE offset (fuel + 1) m startPos (data :: buf) =
      if offset < startPos + data.BytesConsumable then
        let (dataCopy, m) := (IOBufferData.new m IOBUFSIZE).1.CopyInFrom (IOBufferData.new m IOBUFSIZE).2 data
          (offset - startPos)
        (findLoop IOBUFSIZE offset fuel m (int (startPos + dataCopy.BytesConsumable))
          ((data.Consume (offset - startPos)).2 :: buf)).map fun (before, rest) => (dataCopy :: before, rest)
      else
        (findLoop IOBUFSIZE offset fuel m (startPos + data.BytesConsumable : ℕ) buf).map
          fun (before, rest) => (data :: before, rest) := by
  have hnext := int_position hsmall
  have hnext' : int (data.BytesConsumable + startPos) = (startPos + data.BytesConsumable : ℕ) := by
    rw [add_comm, hnext]
  rw [findLoop, if_neg (Int.not_le.mpr (Int.ofNat_lt.mpr hlt)), hnext, hnext', int_distance hlt hoffset]
  by_cases hin : offset < startPos + data.BytesConsumable
  · rw [if_pos (Int.ofNat_lt.mpr hin), if_pos hin]
    dsimp only
    rw [if_neg (Int.not_lt.mpr (Int.natCast_nonneg _)), Int.toNat_natCast]
  · rw [if_neg (Int.not_lt.mpr (Int.ofNat_le.mpr (Nat.not_lt.mp hin))), if_neg hin]

theorem findLoop_view {fuel : ℕ} (hbuf : ∀ d ∈ buf, d.mData < m.next) (hle : startPos ≤ offset)
    (hlen : offset ≤ startPos + size buf) (hsmall : startPos + size buf < 2 ^ 31)
    (hsize : offset - startPos ≤ IOBUFSIZE)
    (hfuel : buf.length ≤ fuel) : ∃ before rest m', findLoop IOBUFSIZE offset fuel m startPos buf =
      some (before, rest, (offset : ℤ), m') ∧ Keeps m m' ∧ view m' before = (view m buf).take (offset - startPos) ∧
        view m' rest = (view m buf).drop (offset - startPos) := by
  induction buf generalizing fuel startPos with
  | nil =>
    have hhere : offset = startPos := le_antisymm hlen hle
    subst hhere
    exact ⟨[], [], m, findLoop_here le_rfl, Keeps.refl, by simp, by simp⟩
  | cons data buf ih =>
    rw [size_cons] at hlen hsmall
    rcases hle.eq_or_lt with rfl | hlt
    · refine ⟨[], data :: buf, m, findLoop_here le_rfl, Keeps.refl, ?_, ?_⟩
      · rw [Nat.sub_self, List.take_zero, view_nil]
      · rw [Nat.sub_self, List.drop_zero]
    obtain ⟨fuel, rfl⟩ : ∃ n, fuel = n + 1 := ⟨fuel - 1, by rw [List.length_cons] at hfuel; omega⟩
    have hrest : ∀ d ∈ buf, d.mData < m.next := fun d hd => hbuf d (List.mem_cons_of_mem _ hd)
    have hdata : data.mData < m.next := hbuf data List.mem_cons_self
    rw [findLoop_cons hlt (by omega) (by omega)]
    rcases Nat.lt_or_ge offset (startPos + data.BytesConsumable) with hin | hout
    · -- the block is split, and the rest of it is where the loop ends
      obtain ⟨dataCopy, m', hcopy, hview, -, -, hkeeps⟩ :=
        @new_CopyInFrom m IOBUFSIZE data (offset - startPos) (by omega) hsize
      have hlencopy : dataCopy.BytesConsumable = offset - startPos := by
        rw [← @IOBufferData.length_view m', hview, List.length_take, IOBufferData.length_view]
        omega
      have hsum : startPos + dataCopy.BytesConsumable = offset := by omega
      have hhere : int (startPos + dataCopy.BytesConsumable) = offset := by
        rw [int_position (by omega), hsum]
      refine ⟨[dataCopy], (data.Consume (offset - startPos)).2 :: buf, m', ?_, hkeeps, ?_, ?_⟩
      · rw [if_pos hin, hcopy]
        dsimp only
        rw [hhere, findLoop_here le_rfl]
        rfl
      · rw [view_cons, view_nil, List.append_nil, hview, view_cons,
          List.take_append_of_le_length (by rw [IOBufferData.length_view]; omega)]
      · rw [view_cons, IOBufferData.Consume_view, hkeeps.2 data hdata, hkeeps.view hrest, view_cons,
          List.drop_append_of_le_length (by rw [IOBufferData.length_view]; omega)]
    · obtain ⟨before, rest, m', hloop, hkeeps, hbefore, hafter⟩ := @ih (startPos + data.BytesConsumable) fuel hrest
        (by omega) (by omega) (by omega) (by omega) (by rw [List.length_cons] at hfuel; omega)
      have hcut : offset - startPos - data.BytesConsumable = offset - (startPos + data.BytesConsumable) :=
        Nat.sub_sub _ _ _
      refine ⟨data :: before, rest, m', ?_, hkeeps, ?_, ?_⟩
      · rw [if_neg hout.not_gt, hloop]
        rfl
      · rw [view_cons, hbefore, hkeeps.2 data hdata, view_cons, List.take_append, IOBufferData.length_view, hcut,
          IOBufferData.take_view (by omega)]
      · rw [hafter, view_cons, List.drop_append, IOBufferData.length_view, hcut, IOBufferData.drop_view (by omega),
          List.nil_append]

theorem dropLoop_view (hstop : stop < 2 ^ 31) (hsmall : startPos + size buf < 2 ^ 31) :
    ∃ buf', dropLoop stop startPos buf = some buf' ∧ view m buf' = (view m buf).drop (stop - startPos) := by
  induction buf generalizing startPos with
  | nil => exact ⟨[], rfl, by rw [view_nil, List.drop_nil]⟩
  | cons data buf ih =>
    rw [size_cons] at hsmall
    rcases Nat.lt_or_ge startPos stop with hlt | hge
    · set extra := min (stop - startPos) data.BytesConsumable with hextra
      have hsome : (if (stop : ℤ) < int (startPos + data.BytesConsumable) then int (stop - startPos)
          else data.BytesConsumable) = (extra : ℤ) := by
        rw [int_position (by omega), int_distance hlt hstop]
        split_ifs <;> omega
      have hnext : int (startPos + extra) = (startPos + extra : ℕ) := by
        rw [int_eq (by omega) (by omega), Nat.cast_add]
      obtain ⟨buf', hloop, hview⟩ := @ih (startPos + extra) (by omega)
      refine ⟨(data.Consume extra).2 :: buf', ?_, ?_⟩
      · rw [dropLoop, if_neg (by omega)]
        dsimp only
        rw [hsome, if_neg (by omega), hnext, hloop, Int.toNat_natCast]
        rfl
      · rw [view_cons, hview, IOBufferData.Consume_view, view_cons, List.drop_append, IOBufferData.length_view]
        rcases le_total (stop - startPos) data.BytesConsumable with hin | hout
        · have hnone : stop - (startPos + extra) = 0 := by omega
          have hnone' : stop - startPos - data.BytesConsumable = 0 := by omega
          rw [hnone, hnone', hextra, min_eq_left hin]
        · have hall : stop - (startPos + extra) = stop - startPos - data.BytesConsumable := by omega
          rw [hall, hextra, min_eq_right hout, IOBufferData.drop_view le_rfl, IOBufferData.drop_view hout]
    · exact ⟨data :: buf, by rw [dropLoop, if_pos (by omega)], by rw [Nat.sub_eq_zero_of_le hge, List.drop_zero]⟩

/-- A buffer that has been extended with zeros to `offset`. -/
theorem extended_take {bytes : List UInt8} :
    (bytes ++ List.replicate (offset - bytes.length) 0).take offset =
      bytes.take offset ++ List.replicate (offset - bytes.length) 0 := by
  rw [List.take_append, List.take_replicate, min_self]

theorem extended_drop {bytes : List UInt8} (h : offset ≤ stop) :
    (bytes ++ List.replicate (offset - bytes.length) 0).drop stop = bytes.drop stop := by
  rw [List.drop_append, List.drop_replicate, Nat.sub_eq_zero_of_le (by omega), List.replicate_zero, List.append_nil]

/-- **The bytes before `offset`, those of the other buffer, and those behind the range that they take the place of.** -/
theorem Splice_view (hoffset : offset ≤ IOBUFSIZE) (hsmall : size buf < 2 ^ 31) (hstop : offset + numBytes < 2 ^ 31)
    (hbuf : ∀ d ∈ buf, d.mData < m.next) (hother : ∀ d ∈ other, d.mData < m.next) (hlen : size other = numBytes) :
    ∃ buf' m', Splice m IOBUFSIZE buf other offset numBytes = some (buf', [], m') ∧ Keeps m m' ∧
      view m' buf' = (view m buf).take offset ++ List.replicate (offset - size buf) 0 ++ view m other ++
        (view m buf).drop (offset + numBytes) := by
  have hmissing : (int (offset - size buf)).toNat = offset - size buf := by
    have hin : int (offset - size buf) = offset - size buf :=
      Int.bmod_eq_of_le (by norm_num; omega) (by norm_num; omega)
    rw [hin]
    omega
  obtain ⟨news, m₁, hzero, hfresh, hzeros, hframe⟩ := @ZeroFill_view m buf IOBUFSIZE (int (offset - size buf))
  rw [hmissing] at hzeros
  have hkeeps₁ : Keeps m m₁ := ⟨by rw [hfresh.next]; exact Nat.le_add_right _ _, hframe⟩
  have hview : view m₁ (buf ++ news) = view m buf ++ List.replicate (offset - size buf) 0 := by
    rw [view_append, hzeros, hkeeps₁.view hbuf]
  have htotal : size (buf ++ news) = size buf + (offset - size buf) := by
    rw [← @length_view m₁, hview, List.length_append, length_view, List.length_replicate]
  have hblocks : ∀ d ∈ buf ++ news, d.mData < m₁.next := by
    intro d hd
    rcases List.mem_append.1 hd with hd | hd
    · exact (hbuf d hd).trans_le hkeeps₁.1
    · have hrange := List.mem_map_of_mem (f := IOBufferData.mData) hd
      rw [hfresh.blocks, List.mem_range'_1] at hrange
      rw [hfresh.next]
      exact hrange.2
  obtain ⟨before, rest, m', hloop, hkeeps, hbefore, hrest⟩ := @findLoop_view m₁ IOBUFSIZE (buf ++ news) offset 0
    (offset + (buf ++ news).length) hblocks (Nat.zero_le _) (by omega) (by omega) (by omega) (Nat.le_add_left _ _)
  have hleft : offset + size rest < 2 ^ 31 := by
    have hlen := congrArg List.length hrest
    rw [length_view, List.length_drop, length_view] at hlen
    omega
  obtain ⟨rest', hdrop, hdropped⟩ := @dropLoop_view m' rest offset (offset + numBytes) hstop hleft
  have hall := hkeeps₁.trans hkeeps
  have hint : int (offset + numBytes) = (offset + numBytes : ℕ) := by
    rw [int_eq (by omega) (by omega), Nat.cast_add]
  refine ⟨before ++ other ++ rest', m', ?_, hall, ?_⟩
  · rw [Splice, BytesConsumable_eq hsmall, hzero]
    dsimp only [Option.bind_some]
    rw [BytesConsumable_eq (by omega), BytesConsumable_eq (by omega), if_neg (by omega), Int.toNat_natCast, hint]
    have hloop : findLoop IOBUFSIZE offset (offset + (buf ++ news).length) m₁ 0 (buf ++ news) =
      some (before, rest, (offset : ℤ), m') := hloop
    rw [hloop, Option.bind_some, hdrop]
    rfl
  · have hcut : offset + numBytes - offset = numBytes := Nat.add_sub_cancel_left _ _
    rw [view_append, view_append, hbefore, hdropped, hrest, hall.view hother, hview, Nat.sub_zero, List.drop_drop,
      hcut, ← @length_view m, extended_take, extended_drop (Nat.le_add_right _ _)]

/-- Three bytes from the second one on, two of them behind the end. -/
theorem Splice_view_end : ∃ buf' m', Splice ⟨fun b p => 10 * b.toUInt8 + p.toUInt8, 3⟩ ⟨4, by decide, by decide⟩
    [⟨0, 1, 2, 4, by decide, by decide⟩, ⟨1, 3, 3, 3, by decide, by decide⟩, ⟨0, 2, 3, 3, by decide, by decide⟩]
    [⟨2, 5, 8, 9, by decide, by decide⟩] 1 3 = some (buf', [], m') ∧ view m' buf' = [1, 25, 26, 27] := by
  obtain ⟨buf', m', hsplice, -, hview⟩ := @Splice_view ⟨fun b p => 10 * b.toUInt8 + p.toUInt8, 3⟩
    ⟨4, by decide, by decide⟩
    [⟨0, 1, 2, 4, by decide, by decide⟩, ⟨1, 3, 3, 3, by decide, by decide⟩, ⟨0, 2, 3, 3, by decide, by decide⟩]
    [⟨2, 5, 8, 9, by decide, by decide⟩] 1 3 (by decide) (by decide) (by decide) (by decide) (by decide) (by decide)
  exact ⟨buf', m', hsplice, hview⟩

/-- A block of `n` zeros. -/
def zeros (block n : ℕ) : IOBufferData := ⟨block, 0, n, n, Nat.zero_le _, le_rfl⟩

/-- When the end of the range is beyond `int` the bytes behind `offset` stay, and a buffer with more bytes than `int`
has is taken for too short. -/
theorem Splice_overflow :
    (¬ ∃ buf' m', Splice ⟨fun _ _ => 0, 2⟩ ⟨4, by decide, by decide⟩ [zeros 0 2] [zeros 1 (2 ^ 31 - 1)] 1
        (2 ^ 31 - 1) = some (buf', [], m') ∧
      view m' buf' = (view ⟨fun _ _ => 0, 2⟩ [zeros 0 2]).take 1 ++
        view ⟨fun _ _ => 0, 2⟩ [zeros 1 (2 ^ 31 - 1)] ++
        (view ⟨fun _ _ => 0, 2⟩ [zeros 0 2]).drop (1 + (2 ^ 31 - 1))) ∧
      Splice ⟨fun _ _ => 0, 2⟩ ⟨4, by decide, by decide⟩ [zeros 0 (2 ^ 31 - 1), zeros 0 1] [zeros 1 1] 0 1 = none := by
  constructor
  · rintro ⟨buf', m', hsplice, hview⟩
    have hrun : (Splice ⟨fun _ _ => 0, 2⟩ ⟨4, by decide, by decide⟩ [zeros 0 2] [zeros 1 (2 ^ 31 - 1)] 1
        (2 ^ 31 - 1)).map (fun r => size r.1) = some (2 ^ 31 + 1) := by decide +kernel
    rw [hsplice] at hrun
    have hsize : size buf' = 2 ^ 31 + 1 := Option.some.inj hrun
    have hlen := congrArg List.length hview
    rw [List.length_append, List.length_append, List.length_take, List.length_drop, length_view, length_view,
      length_view, hsize] at hlen
    exact absurd hlen (by decide +kernel)
  · have hnone : (Splice ⟨fun _ _ => 0, 2⟩ ⟨4, by decide, by decide⟩ [zeros 0 (2 ^ 31 - 1), zeros 0 1] [zeros 1 1] 0
        1).map (fun r => size r.1) = none := by decide +kernel
    exact Option.map_eq_none_iff.1 hnone

end IOBuffer

end Kfs.Io
