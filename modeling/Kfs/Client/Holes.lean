import Mathlib.Algebra.BigOperators.Intervals
import Kfs.Client.Descriptor

/-!
# Holes

What `Read` returns for a file with missing and short chunks. `ZeroFillBuf` takes the number of zeros from the size of
the chunk and not from the position, so a read that begins behind the end of a chunk carries zeros over into the next
chunks; a read that comes to a missing chunk ends there.

* `carried`: how far the zeros of a read reach into a chunk;
* `readLoop_eq`: the bytes that a read returns, and whether it comes to its end;
* **`Read_exact`**: a read returns the bytes of the file exactly when it is `Clear`.
-/

namespace Kfs.Client

open Kfs.Lib

section Walk

variable (chunks : ℕ → Option Stored) (p : ℕ)

/-- The chunk in which the client looks for the bytes of the chunk number `j`. -/
def seen (j : ℕ) : Option Stored := chunkAt chunks (toInt32 j)

/-- How far the zeros of a read from `p` reach into the chunk `j`: the distance of `p` from the start of its chunk, less
the sizes of the chunks from there on. -/
def carried (j : ℕ) : ℕ :=
  p % Chunk.CHUNKSIZE - ∑ m ∈ Finset.Ico (p / Chunk.CHUNKSIZE) j, ((seen chunks m).map (·.size)).getD 0

/-- The byte that a read from `p` returns for the position `q`. -/
def delivered (q : ℕ) : UInt8 :=
  if q % Chunk.CHUNKSIZE < carried chunks p (q / Chunk.CHUNKSIZE) then 0 else content (seen chunks) q

/-- A read of `n` bytes from `p` finds every chunk that it comes to. -/
def Found (n : ℕ) : Prop :=
  ∀ j, p / Chunk.CHUNKSIZE ≤ j → j * Chunk.CHUNKSIZE + carried chunks p j < p + n → (seen chunks j).isSome

/-- A read of `n` bytes from `p` meets no hole that it gets wrong: it finds every chunk that it comes to, where it
carries zeros over the file has zeros, and behind the first 2 ^ 31 chunks the chunk that the client looks in agrees with
the one that it means. -/
structure Clear (n : ℕ) : Prop where
  found : Found chunks p n
  zeros : ∀ q, p ≤ q → q < p + n → q % Chunk.CHUNKSIZE < carried chunks p (q / Chunk.CHUNKSIZE) → content chunks q = 0
  named : ∀ q, p ≤ q → q < p + n → carried chunks p (q / Chunk.CHUNKSIZE) ≤ q % Chunk.CHUNKSIZE →
    q / Chunk.CHUNKSIZE < 2 ^ 31 ∨ content (seen chunks) q = content chunks q

variable {chunks p}

theorem seen_eq {j : ℕ} (h : j < 2 ^ 31) : seen chunks j = chunks j := by
  rw [seen, toInt32_of_lt h, chunkAt_eq (Int.natCast_nonneg j), Int.toNat_natCast]

@[simp] theorem carried_self : carried chunks p (p / Chunk.CHUNKSIZE) = p % Chunk.CHUNKSIZE := by simp [carried]

/-- In the chunk of `p` and behind it, nothing is carried over what is read. -/
theorem delivered_of_div_eq {q : ℕ} (hpq : p ≤ q) (hdiv : q / Chunk.CHUNKSIZE = p / Chunk.CHUNKSIZE) :
    delivered chunks p q = content (seen chunks) q := by
  have hmod : ¬ q % Chunk.CHUNKSIZE < p % Chunk.CHUNKSIZE := by
    simp only [Chunk.CHUNKSIZE] at hdiv ⊢
    omega
  rw [delivered, hdiv, carried_self, if_neg hmod]

/-- A read from `p` goes on as a read from `p'`, in the same chunk or in the next one. -/
structure Follows (chunks : ℕ → Option Stored) (p p' : ℕ) : Prop where
  le : p ≤ p'
  near : p' / Chunk.CHUNKSIZE ≤ p / Chunk.CHUNKSIZE + 1
  carried : ∀ j, p / Chunk.CHUNKSIZE < j → carried chunks p' j = carried chunks p j

section Chunk

variable {c : Stored} {m n p' : ℕ}

/-- Past a chunk, its size is taken off what is carried. -/
theorem carried_next (hc : seen chunks (p / Chunk.CHUNKSIZE) = some c) {j : ℕ}
    (hdiv : p' / Chunk.CHUNKSIZE = p / Chunk.CHUNKSIZE + 1)
    (hmod : p' % Chunk.CHUNKSIZE = p % Chunk.CHUNKSIZE - c.size) (hj : p / Chunk.CHUNKSIZE < j) :
    carried chunks p' j = carried chunks p j := by
  rw [carried, carried, hdiv, hmod, Finset.sum_eq_sum_Ico_succ_bot hj, hc, Nat.sub_sub]
  rfl

/-- Within the bytes of a chunk, nothing is carried. -/
theorem carried_within (hc : seen chunks (p / Chunk.CHUNKSIZE) = some c) {j : ℕ}
    (hdiv : p' / Chunk.CHUNKSIZE = p / Chunk.CHUNKSIZE)
    (hle : p' % Chunk.CHUNKSIZE ≤ c.size) (hpp : p ≤ p') (hj : p / Chunk.CHUNKSIZE < j) :
    carried chunks p' j = carried chunks p j := by
  have hmod : p % Chunk.CHUNKSIZE ≤ p' % Chunk.CHUNKSIZE := by
    simp only [Chunk.CHUNKSIZE] at hdiv ⊢
    omega
  have hzero : p % Chunk.CHUNKSIZE - c.size = 0 := by omega
  have hzero' : p' % Chunk.CHUNKSIZE - c.size = 0 := by omega
  rw [carried, carried, hdiv, Finset.sum_eq_sum_Ico_succ_bot hj, hc, Option.map_some, Option.getD_some, ← Nat.sub_sub,
    ← Nat.sub_sub, hzero, hzero']

/-- Bytes of the chunk have been read. -/
theorem follows_data (hc : seen chunks (p / Chunk.CHUNKSIZE) = some c) (hbound : c.size ≤ Chunk.CHUNKSIZE)
    (hm : p % Chunk.CHUNKSIZE + m ≤ c.size) : Follows chunks p (p + m) := by
  rcases eq_or_ne ((p + m) / Chunk.CHUNKSIZE) (p / Chunk.CHUNKSIZE) with hdiv | hdiv
  · refine ⟨Nat.le_add_right _ _, by omega, fun j hj => carried_within hc hdiv ?_ (Nat.le_add_right _ _) hj⟩
    simp only [Chunk.CHUNKSIZE] at hdiv hm ⊢
    omega
  · simp only [Chunk.CHUNKSIZE] at hdiv hm hbound
    refine ⟨Nat.le_add_right _ _, ?_, fun j hj => carried_next hc ?_ ?_ hj⟩ <;> simp only [Chunk.CHUNKSIZE] <;> omega

/-- The chunk has been filled up with zeros. -/
theorem follows_zeros (hc : seen chunks (p / Chunk.CHUNKSIZE) = some c) (hsize : c.size ≤ p % Chunk.CHUNKSIZE) :
    Follows chunks p (p + (Chunk.CHUNKSIZE - c.size)) := by
  simp only [Chunk.CHUNKSIZE] at hsize
  refine ⟨Nat.le_add_right _ _, ?_, fun j hj => carried_next hc ?_ ?_ hj⟩ <;> simp only [Chunk.CHUNKSIZE] <;> omega

theorem load_data (hc : seen chunks (p / Chunk.CHUNKSIZE) = some c) (hbound : c.size ≤ Chunk.CHUNKSIZE)
    (hm : p % Chunk.CHUNKSIZE + m ≤ c.size) : load c.data (p % Chunk.CHUNKSIZE) m = load (delivered chunks p) p m := by
  refine List.map_congr_left fun i hi => ?_
  have hi := List.mem_range.1 hi
  have hdiv : (p + i) / Chunk.CHUNKSIZE = p / Chunk.CHUNKSIZE := by
    simp only [Chunk.CHUNKSIZE] at hm hbound ⊢
    omega
  have hmod : (p + i) % Chunk.CHUNKSIZE = p % Chunk.CHUNKSIZE + i := by
    simp only [Chunk.CHUNKSIZE] at hm hbound ⊢
    omega
  rw [delivered_of_div_eq (Nat.le_add_right _ _) hdiv, content, hdiv, hc, hmod]
  rfl

theorem load_zeros (hc : seen chunks (p / Chunk.CHUNKSIZE) = some c) (hsize : c.size ≤ p % Chunk.CHUNKSIZE)
    (hm : m ≤ Chunk.CHUNKSIZE - c.size) : List.replicate m 0 = load (delivered chunks p) p m := by
  refine (List.eq_replicate_iff.2 ⟨length_load, fun b hb => ?_⟩).symm
  obtain ⟨i, hi, rfl⟩ := List.mem_map.1 hb
  have hi := List.mem_range.1 hi
  rcases eq_or_ne ((p + i) / Chunk.CHUNKSIZE) (p / Chunk.CHUNKSIZE) with hdiv | hdiv
  · rw [delivered_of_div_eq (Nat.le_add_right _ _) hdiv, content, hdiv, hc]
    refine c.zero _ (hsize.trans ?_)
    simp only [Chunk.CHUNKSIZE] at hdiv ⊢
    omega
  · -- carried over into the next chunk
    have hnext := (follows_zeros hc hsize).carried ((p + i) / Chunk.CHUNKSIZE) (by
      simp only [Chunk.CHUNKSIZE] at hdiv ⊢
      omega)
    have hin : (p + i) / Chunk.CHUNKSIZE = (p + (Chunk.CHUNKSIZE - c.size)) / Chunk.CHUNKSIZE := by
      simp only [Chunk.CHUNKSIZE] at hdiv hsize hm ⊢
      omega
    rw [delivered, ← hnext, hin, carried_self, if_pos]
    simp only [Chunk.CHUNKSIZE] at hdiv hsize hm hin ⊢
    omega

theorem Follows.delivered (h : Follows chunks p p') {q : ℕ} (hq : p' ≤ q) :
    delivered chunks p' q = delivered chunks p q := by
  have hle := h.le
  have hmono : p' / Chunk.CHUNKSIZE ≤ q / Chunk.CHUNKSIZE := Nat.div_le_div_right hq
  have hmono' : p / Chunk.CHUNKSIZE ≤ p' / Chunk.CHUNKSIZE := Nat.div_le_div_right hle
  rcases hmono.eq_or_lt' with hdiv | hlt
  · rcases hmono'.eq_or_lt' with hdiv' | hlt'
    · rw [delivered_of_div_eq hq hdiv, delivered_of_div_eq (hle.trans hq) (hdiv.trans hdiv')]
    · rw [Client.delivered, Client.delivered, h.carried _ (by omega)]
  · rw [Client.delivered, Client.delivered, h.carried _ (by omega)]

/-- What is not beyond the next round is found. -/
theorem Follows.found_of_le (h : Follows chunks p p') (hc : seen chunks (p / Chunk.CHUNKSIZE) = some c)
    (hn : p + n ≤ p') :
    Found chunks p n := by
  intro j hj hlt
  rcases hj.eq_or_lt with rfl | hj
  · exact Option.isSome_of_eq_some hc
  · rw [← h.carried j hj] at hlt
    have hle : p' / Chunk.CHUNKSIZE ≤ j := h.near.trans hj
    rcases hle.eq_or_lt with rfl | hle
    · rw [carried_self, Nat.div_add_mod'] at hlt
      omega
    · simp only [Chunk.CHUNKSIZE] at hle hlt
      omega

theorem Follows.found_iff (h : Follows chunks p (p + m)) (hc : seen chunks (p / Chunk.CHUNKSIZE) = some c)
    (hm : m ≤ n) :
    Found chunks p n ↔ Found chunks (p + m) (n - m) := by
  have hmono : p / Chunk.CHUNKSIZE ≤ (p + m) / Chunk.CHUNKSIZE := Nat.div_le_div_right h.le
  have hsum : p + m + (n - m) = p + n := by omega
  constructor
  · intro hf j hj hlt
    rcases (hmono.trans hj).eq_or_lt with rfl | hlt'
    · exact Option.isSome_of_eq_some hc
    · rw [h.carried j hlt', hsum] at hlt
      exact hf j hlt'.le hlt
  · intro hf j hj hlt
    rcases hj.eq_or_lt with rfl | hj
    · exact Option.isSome_of_eq_some hc
    · rw [← h.carried j hj, ← hsum] at hlt
      exact hf j (h.near.trans hj) hlt

end Chunk

end Walk

namespace Fd

variable {fd fd' : Fd} {c : Stored} {buf : ℕ → UInt8} {bytes : List UInt8} {n : ℕ}

/-- What a round of a read of `n` bytes has brought in, and how the read goes on. -/
structure Round (fd : Fd) (n : ℕ) (first : List UInt8) (p' : ℕ) : Prop where
  pos : 0 < first.length
  length_le : first.length ≤ n
  read : first = load (delivered fd.chunks fd.currPos.fileOffset) fd.currPos.fileOffset first.length
  follows : Follows fd.chunks fd.currPos.fileOffset p'
  le : fd.currPos.fileOffset + first.length ≤ p'
  stop : fd.currPos.fileOffset + first.length = p' ∨ first.length = n ∨
    fd.currPos.fileOffset + first.length = fd.fileSize

theorem ReadChunk_round (h : fd.Coherent) (hcached : fd.Cached) (hpref : fd.currPos.preferredServer = true)
    (hc : chunkAt fd.chunks fd.currPos.chunkNum = some c) (heof : fd.currPos.fileOffset < fd.fileSize)
    (buf : ℕ → UInt8) (hn : 0 < n) : ∃ first b p', fd.ReadChunk buf n = some (first, { fd with buffer := b }) ∧
      Cached { fd with buffer := b } ∧ fd.Round n first p' := by
  have hseen : seen fd.chunks (fd.currPos.fileOffset / Chunk.CHUNKSIZE) = some c := by rwa [seen, ← h.chunkNum]
  have hbound := h.bounded _ _ (chunkAt_nonneg hc).2
  obtain ⟨first, b, hread, hb, hne, hle, hround⟩ := ReadChunk_eq h hcached hpref hc heof buf hn
  rw [h.chunkOffset] at hround
  have hpos := List.length_pos_iff.2 hne
  rcases hround with ⟨hin, hdata⟩ | ⟨hout, hzeros⟩
  · refine ⟨first, b, fd.currPos.fileOffset + first.length, hread, hb, hpos, hle, ?_, follows_data hseen hbound hin,
      le_rfl, Or.inl rfl⟩
    rw [← load_data hseen hbound hin]
    exact hdata
  · have hlen : first.length = min (min (Chunk.CHUNKSIZE - c.size) (fd.fileSize - fd.currPos.fileOffset)) n := by
      rw [hzeros, List.length_replicate]
    refine ⟨first, b, fd.currPos.fileOffset + (Chunk.CHUNKSIZE - c.size), hread, hb, hpos, hle, ?_,
      follows_zeros hseen hout, by omega, by omega⟩
    rw [← load_zeros hseen hout (by omega), hlen]
    exact hzeros

/-- How a read of `n` bytes ends. -/
structure ReadEnd (fd : Fd) (n : ℕ) (bytes : List UInt8) (fd' : Fd) : Prop where
  coherent : fd'.Coherent
  cached : fd'.Cached
  chunks : fd'.chunks = fd.chunks
  fileSize : fd'.fileSize = fd.fileSize
  openMode : fd'.openMode = fd.openMode
  position : fd'.currPos.fileOffset = fd.currPos.fileOffset + bytes.length
  read : bytes = load (delivered fd.chunks fd.currPos.fileOffset) fd.currPos.fileOffset bytes.length
  length_le : bytes.length ≤ n
  eof : bytes ≠ [] → fd.currPos.fileOffset < fd.fileSize
  whole : fd.currPos.fileOffset + n ≤ fd.fileSize →
    (bytes.length = n ↔ Found fd.chunks fd.currPos.fileOffset n)

/-- A read that brings in nothing: no bytes are wanted, the file ends, or its chunk is missing. -/
theorem ReadEnd.nothing (h : fd'.Coherent) (hcached : fd'.Cached) (hchunks : fd'.chunks = fd.chunks)
    (hsize : fd'.fileSize = fd.fileSize) (hmode : fd'.openMode = fd.openMode)
    (hpos : fd'.currPos.fileOffset = fd.currPos.fileOffset)
    (hn : n = 0 ∨ fd.fileSize ≤ fd.currPos.fileOffset ∨
      seen fd.chunks (fd.currPos.fileOffset / Chunk.CHUNKSIZE) = none) : ReadEnd fd n [] fd' where
  coherent := h
  cached := hcached
  chunks := hchunks
  fileSize := hsize
  openMode := hmode
  position := hpos
  read := rfl
  length_le := Nat.zero_le n
  eof hne := absurd rfl hne
  whole hle := by
    constructor
    · rintro rfl j hj hlt
      rw [List.length_nil, Nat.add_zero] at hlt
      rcases hj.eq_or_lt with rfl | hj
      · rw [carried_self, Nat.div_add_mod'] at hlt
        exact absurd hlt (lt_irrefl _)
      · simp only [Chunk.CHUNKSIZE] at hj hlt
        omega
    · intro hfound
      by_contra hpos
      have hpos : 0 < n := Nat.pos_of_ne_zero fun hz => hpos hz.symm
      have hsome := hfound _ le_rfl (by rw [carried_self, Nat.div_add_mod']; omega)
      rcases hn with rfl | heof | hnone
      · exact lt_irrefl _ hpos
      · omega
      · rw [hnone] at hsome
        cases hsome

/-- A read goes on after a round. -/
theorem ReadEnd.round {next : Fd} {first rest : List UInt8} {p' : ℕ} (h : ReadEnd next (n - first.length) rest fd')
    (hround : fd.Round n first p') (hchunks : next.chunks = fd.chunks) (hsize : next.fileSize = fd.fileSize)
    (hmode : next.openMode = fd.openMode) (hpos : next.currPos.fileOffset = fd.currPos.fileOffset + first.length)
    (hc : seen fd.chunks (fd.currPos.fileOffset / Chunk.CHUNKSIZE) = some c)
    (heof : fd.currPos.fileOffset < fd.fileSize) : ReadEnd fd n (first ++ rest) fd' := by
  have hlen := h.length_le
  have hle := hround.length_le
  have hfollows := hround.follows
  have hread : (first ++ rest) =
      load (delivered fd.chunks fd.currPos.fileOffset) fd.currPos.fileOffset (first ++ rest).length ∧
        (fd.currPos.fileOffset + n ≤ fd.fileSize →
          ((first ++ rest).length = n ↔ Found fd.chunks fd.currPos.fileOffset n)) := by
    have hfirst := hround.read
    rcases hround.stop with rfl | hstop
    · -- as a read from the next position
      have hrest := h.read
      have hwhole := h.whole
      rw [hchunks, hpos] at hrest hwhole
      rw [hsize] at hwhole
      refine ⟨?_, fun hin => ?_⟩
      · have hrest' := hrest.trans (load_congr fun q hq _ => hfollows.delivered hq)
        rw [List.length_append, load_append, ← hfirst, ← hrest']
      · rw [hfollows.found_iff hc hle, ← hwhole (by omega), List.length_append]
        omega
    · -- nothing comes after it
      have hnil : rest = [] := by
        rcases hstop with hstop | hstop
        · exact List.eq_nil_of_length_eq_zero (by omega)
        · by_contra hne
          have hlt := h.eof hne
          omega
      rw [hnil, List.append_nil]
      refine ⟨hfirst, fun hin => ?_⟩
      have hn : first.length = n := by omega
      exact ⟨fun _ => hfollows.found_of_le hc (hn ▸ hround.le), fun _ => hn⟩
  refine ⟨h.coherent, h.cached, h.chunks.trans hchunks, h.fileSize.trans hsize, h.openMode.trans hmode, ?_, hread.1, ?_,
    fun _ => heof, hread.2⟩
  · rw [h.position, hpos, List.length_append, Nat.add_assoc]
  · rw [List.length_append]
    omega

theorem readLoop_round {fd₁ fd₂ fd₃ : Fd} {fuel nread nleft : ℕ} {first rest : List UInt8} (hpos : 0 < nleft)
    (hreadable : fd.IsChunkReadable = (true, fd₁)) (heof : fd₁.currPos.fileOffset < fd₁.fileSize)
    (hread : fd₁.ReadChunk (fun i => buf (nread + i)) nleft = some (first, fd₂))
    (hseek : fd₂.Seek first.length .SEEK_CUR = some fd₃)
    (hrest : readLoop buf fuel (nread + first.length) (nleft - first.length) fd₃ = some (rest, fd')) :
    readLoop buf (fuel + 1) nread nleft fd = some (first ++ rest, fd') := by
  rw [readLoop, if_neg hpos.ne', hreadable]
  simp [heof, hread, hseek, hrest]

/-- What a read brings in. -/
theorem readLoop_eq {fuel nread nleft : ℕ} (h : fd.Coherent) (hcached : fd.Cached) (hfuel : nleft ≤ fuel) :
    ∃ bytes fd', readLoop buf fuel nread nleft fd = some (bytes, fd') ∧ ReadEnd fd nleft bytes fd' := by
  induction fuel generalizing nread nleft fd with
  | zero =>
    obtain rfl : nleft = 0 := by omega
    exact ⟨[], fd, rfl, ReadEnd.nothing h hcached rfl rfl rfl rfl (Or.inl rfl)⟩
  | succ fuel ih =>
    rcases Nat.eq_zero_or_pos nleft with rfl | hpos
    · exact ⟨[], fd, by rw [readLoop, if_pos rfl], ReadEnd.nothing h hcached rfl rfl rfl rfl (Or.inl rfl)⟩
    cases hc : chunkAt fd.chunks fd.currPos.chunkNum with
    | none =>
      refine ⟨[], fd, ?_, ReadEnd.nothing h hcached rfl rfl rfl rfl (Or.inr (Or.inr (by rwa [seen, ← h.chunkNum])))⟩
      rw [readLoop, if_neg hpos.ne', IsChunkReadable_none h hc]
      simp
    | some c =>
      obtain ⟨cattr, hreadable, hconnect⟩ := IsChunkReadable_eq h hc
      have hcached' : (fd.connect cattr).Cached := ⟨hcached.clean, hcached.copied⟩
      rcases Nat.lt_or_ge fd.currPos.fileOffset fd.fileSize with heof | heof
      · obtain ⟨first, b, p', hread, hb, hround⟩ := ReadChunk_round hconnect hcached' rfl hc heof
          (fun i => buf (nread + i)) hpos
        set fd₂ : Fd := { fd.connect cattr with buffer := b } with hfd₂
        have hcoherent : fd₂.Coherent :=
          ⟨hconnect.chunkNum, hconnect.chunkOffset, hconnect.known, hconnect.sized, hconnect.bounded⟩
        have hfirst := hround.pos
        obtain ⟨rest, fd', hrest, hend⟩ := @ih _ (nread + first.length) (nleft - first.length)
          (hcoherent.moved (fd.currPos.fileOffset + first.length)) ⟨hb.clean, hb.copied⟩ (by omega)
        have hseek := (Seek_cur fd₂ first.length).trans (seekTo_clean hb.clean _)
        refine ⟨first ++ rest, fd', readLoop_round hpos hreadable heof hread hseek hrest, ?_⟩
        have hround' : fd.Round nleft first p' :=
          ⟨hround.pos, hround.length_le, hround.read, hround.follows, hround.le, hround.stop⟩
        exact hend.round hround' rfl rfl rfl rfl (by rwa [seen, ← h.chunkNum]) heof
      · refine ⟨[], fd.connect cattr, ?_, ?_⟩
        · rw [readLoop, if_neg hpos.ne', hreadable]
          simp [connect, heof]
        · exact ReadEnd.nothing hconnect hcached' rfl rfl rfl rfl (Or.inr (Or.inl heof))

end Fd

theorem content_seen {chunks : ℕ → Option Stored} {q : ℕ} (h : q / Chunk.CHUNKSIZE < 2 ^ 31) :
    content (seen chunks) q = content chunks q := by rw [content, content, seen_eq h]

/-- A clear read delivers the bytes of the file. -/
theorem clear_iff {chunks : ℕ → Option Stored} {p n : ℕ} : Clear chunks p n ↔
    Found chunks p n ∧ load (delivered chunks p) p n = load (content chunks) p n := by
  constructor
  · intro h
    refine ⟨h.found, load_congr fun q hle hlt => ?_⟩
    rw [delivered]
    split_ifs with hcarried
    · exact (h.zeros q hle hlt hcarried).symm
    · exact (h.named q hle hlt (not_lt.1 hcarried)).elim content_seen id
  · rintro ⟨hfound, hload⟩
    refine ⟨hfound, fun q hle hlt hcarried => ?_, fun q hle hlt hcarried => Or.inr ?_⟩
    · rw [← eq_of_load_eq hload hle hlt, delivered, if_pos hcarried]
    · rw [← eq_of_load_eq hload hle hlt, delivered, if_neg (not_lt.2 hcarried)]

/-- **Holes read as zeros.** A read within the file returns its bytes and advances the position by their number, exactly
when the read is clear. -/
theorem Read_exact {fd : Fd} {n : ℕ} (h : fd.Coherent) (hcached : fd.Cached) (hmode : fd.openMode ≠ .wronly)
    (hrange : fd.currPos.fileOffset + n ≤ fd.fileSize) (buf : ℕ → UInt8) :
    (∃ fd', fd.Read buf n = some (load (content fd.chunks) fd.currPos.fileOffset n, fd') ∧
      fd'.currPos.fileOffset = fd.currPos.fileOffset + n ∧ fd'.fileSize = fd.fileSize) ↔
      Clear fd.chunks fd.currPos.fileOffset n := by
  obtain ⟨bytes, fd', hloop, hend⟩ := @Fd.readLoop_eq fd buf n 0 n h hcached le_rfl
  have hread : fd.Read buf n = some (bytes, fd') := by
    rw [Fd.Read, if_neg hmode, Fd.FlushBuffer]
    simp only [hcached.clean, Bool.false_eq_true, if_false]
    exact hloop
  have hwhole := hend.whole hrange
  rw [hread, clear_iff]
  constructor
  · rintro ⟨fd'', heq, -⟩
    obtain ⟨hbytes, -⟩ := Prod.mk.inj (Option.some.inj heq)
    have hlen : bytes.length = n := by rw [hbytes, length_load]
    refine ⟨hwhole.1 hlen, ?_⟩
    rw [← hbytes, hend.read, hlen]
  · rintro ⟨hfound, hload⟩
    have hlen := hwhole.2 hfound
    refine ⟨fd', ?_, by rw [hend.position, hlen], hend.fileSize⟩
    rw [← hload, hend.read, hlen]

/-- A read that begins in front of the end of a chunk, or at it, is clear when it comes to no missing chunk. -/
theorem clear_of_within {chunks : ℕ → Option Stored} {p n : ℕ} {c : Stored}
    (hc : seen chunks (p / Chunk.CHUNKSIZE) = some c) (hp : p % Chunk.CHUNKSIZE ≤ c.size)
    (hpresent : ∀ j, p / Chunk.CHUNKSIZE ≤ j → j * Chunk.CHUNKSIZE < p + n → (seen chunks j).isSome)
    (hsmall : p + n ≤ 2 ^ 31 * Chunk.CHUNKSIZE) : Clear chunks p n := by
  have hcarried : ∀ j, p / Chunk.CHUNKSIZE < j → carried chunks p j = 0 := by
    intro j hj
    rw [carried, Finset.sum_eq_sum_Ico_succ_bot hj, hc, Option.map_some, Option.getD_some, ← Nat.sub_sub,
      Nat.sub_eq_zero_of_le hp, Nat.zero_sub]
  refine ⟨fun j hj hlt => hpresent j hj (by omega), fun q hle _ hq => ?_, fun q _ hlt _ => Or.inl ?_⟩
  · rcases (Nat.div_le_div_right hle : p / Chunk.CHUNKSIZE ≤ q / Chunk.CHUNKSIZE).eq_or_lt' with hdiv | hlt
    · rw [hdiv, carried_self] at hq
      simp only [Chunk.CHUNKSIZE] at hdiv hq
      omega
    · rw [hcarried _ hlt] at hq
      exact absurd hq (Nat.not_lt_zero _)
  · exact Nat.div_lt_of_lt_mul (by rw [Nat.mul_comm]; exact hlt.trans_le hsmall)

/-- Two bytes of a file of three. -/
def shortChunk : Fd where
  openMode := .rdonly
  fileSize := 3
  chunks n := if n = 0 then some (Stored.empty.write 0 [7, 8]) else none

theorem Read_shortChunk : ∃ fd', shortChunk.Read (fun _ => 0) 3 = some ([7, 8, 0], fd') ∧
    fd'.currPos.fileOffset = 0 + 3 ∧ fd'.fileSize = 3 := by
  have hbound : ∀ n c, shortChunk.chunks n = some c → c.size ≤ Chunk.CHUNKSIZE := by
    intro n c hc
    simp only [shortChunk] at hc
    split_ifs at hc
    cases hc
    decide
  obtain ⟨hcoherent, hcached⟩ := @Fd.coherent_opened .rdonly 3 shortChunk.chunks hbound
  refine (Read_exact hcoherent hcached (fun hmode => by cases hmode) (by decide) fun _ => 0).2 ?_
  refine clear_of_within (show seen shortChunk.chunks 0 = some _ from rfl) (Nat.zero_le _) (fun j _ hj => ?_)
    (by decide)
  simp only [Chunk.CHUNKSIZE] at hj
  obtain rfl : j = 0 := by omega
  rfl

/-- The second of two chunks, with a byte. -/
def secondChunk : Fd where
  openMode := .rdonly
  fileSize := Chunk.CHUNKSIZE + 1
  chunks n := if n = 1 then some (Stored.empty.write 0 [7]) else none

/-- It reads as an empty file. -/
theorem Read_secondChunk : secondChunk.Read (fun _ => 0) 5 = some ([], secondChunk) ∧
    ¬ ∃ fd', secondChunk.Read (fun _ => 0) 5 =
        some (load (content secondChunk.chunks) secondChunk.currPos.fileOffset 5, fd') ∧
      fd'.currPos.fileOffset = secondChunk.currPos.fileOffset + 5 ∧ fd'.fileSize = secondChunk.fileSize := by
  have hread : secondChunk.Read (fun _ => 0) 5 = some ([], secondChunk) := rfl
  refine ⟨hread, fun ⟨fd', heq, _⟩ => ?_⟩
  obtain ⟨hnil, -⟩ := Prod.mk.inj (Option.some.inj (hread.symm.trans heq))
  cases hnil

end Kfs.Client
