import Kfs.Client.Healthy
import Kfs.Lib.Tiles

/-!
# What a large read leaves in the buffer

Each operation of a large read fills its own place in the buffer, and the result is the number of bytes that all of
them have brought.

* `Honest`: the replies have bytes of the chunk, as many as they like;
* `Gap`: an operation that has brought less than it asked for comes before one that has brought something, and both
  count;
* **`DoLargeReadFromServer_right_iff`**: the bytes that are returned are those of the chunk, exactly when there is no
  gap.
-/

namespace Kfs.Client

open Kfs.Chunk (CHECKSUM_BLOCKSIZE OffsetToChecksumBlockStart)
open Kfs.Lib

/-- The replies bring bytes of the chunk from the offset of the operation on. -/
def Honest (s : ReadServer) (data : ℕ → UInt8) : Prop :=
  ∀ i op checksum content, s.answer i op = .data checksum content → content = load data op.offset content.length

/-- The first bytes of the buffer, as many as the result says, are those of the chunk. -/
def ReadResult.Contiguous (r : ReadResult) (data : ℕ → UInt8) (chunkOffset : ℕ) : Prop :=
  ∀ p : ℕ, (p : ℤ) < r.numIO → r.buf p = data (chunkOffset + p)

/-- The first `counted` operations have succeeded, the first `early` of them with data that matches. -/
def Counts (s : ReadServer) (ops : List ReadOp) (early counted : ℕ) : Prop :=
  ∀ i op, i < counted → ops[i]? = some op → 0 ≤ (brought s i op).status ∧ (i < early → (brought s i op).Matches)

/-- Of the first `counted` operations one has brought less than it asked for, and a later one has brought something. -/
def Short (s : ReadServer) (ops : List ReadOp) (counted : ℕ) : Prop :=
  ∃ i j op op', i < j ∧ j < counted ∧ ops[i]? = some op ∧ ops[j]? = some op' ∧
    (brought s i op).content.length < op.numBytes ∧ (brought s j op').content ≠ []

/-- All replies come in, or those that are on the way when the lease goes; all operations that count succeed, and an
operation that is short comes before one that has brought something. -/
def Gap (s : ReadServer) (ops : List ReadOp) (good : Bool) (window : ℕ) : Prop :=
  (Well s ops good window ∧ Counts s ops (ops.length - window) ops.length ∧ Short s ops ops.length) ∨
  ∃ k, Stops s ops good window k ∧ Counts s ops (k + 1) (k + 1) ∧ Short s ops (k + 1)

variable {s : ReadServer} {ops : List ReadOp} {op : ReadOp} {buf : ℕ → UInt8} {data : ℕ → UInt8}
  {i k n p early counted sent window chunkOffset : ℕ} {good : Bool}

/-! ## How the pipeline ends -/

theorem Stops.unique {k' : ℕ} (h : Stops s ops good window k) (h' : Stops s ops good window k') : k = k' :=
  le_antisymm (h'.expires.ge h.expires.1) (h.expires.ge h'.expires.1)

theorem Stops.not_well (h : Stops s ops good window k) : ¬ Well s ops good window := by
  intro hwell
  have hgood := hwell.lease (window + k) (Nat.le_add_right _ _) h.expires.2.2.1
  rw [h.expires.2.1] at hgood
  cases hgood

theorem DoPipelinedRead_well (hpos : 0 < ops.length) (hfresh : ∀ op ∈ ops, op.content = [])
    (h : Well s ops good (min window ops.length)) : DoPipelinedRead s window ⟨ops, good, buf⟩ =
      some (0, ⟨ops.mapIdx (settled s (ops.length - min window ops.length)), true, fillBuf s ops buf ops.length⟩) := by
  cases @DoPipelinedRead_end s _ buf window good hpos hfresh with
  | fails _ hnot => exact absurd h hnot
  | complete _ hrun => exact hrun
  | expired hnot => exact absurd h hnot

theorem DoPipelinedRead_stops (hpos : 0 < ops.length) (hfresh : ∀ op ∈ ops, op.content = [])
    (h : Stops s ops good (min window ops.length) k) : DoPipelinedRead s window ⟨ops, good, buf⟩ =
      some (0, ⟨ops.mapIdx (stopped s (k + 1) (k + 1 + (min window ops.length - 1))), true,
        fillBuf s ops buf (k + 1 + (min window ops.length - 1))⟩) := by
  cases @DoPipelinedRead_end s _ buf window good hpos hfresh with
  | fails _ _ hno => exact absurd h (hno k)
  | complete hwell => exact absurd hwell h.not_well
  | expired _ k' hk' _ hrun =>
    rw [h.unique hk']
    exact hrun

/-! ## The result -/

/-- What an operation counts for. -/
def counting (s : ReadServer) (early counted i : ℕ) (op : ReadOp) : ℤ :=
  if i < counted then (settled s early i op).status else 0

/-- How many bytes the operation `i` has brought. -/
def got (s : ReadServer) (ops : List ReadOp) (i : ℕ) : ℕ :=
  ((ops[i]?).map fun op => (brought s i op).content.length).getD 0

def asked (ops : List ReadOp) (i : ℕ) : ℕ := ((ops[i]?).map (·.numBytes)).getD 0

/-- The replies to the first `n` operations come in. -/
def Fit (s : ReadServer) (ops : List ReadOp) (n : ℕ) : Prop :=
  n ≤ ops.length ∧ Answered s ops 0 n ∧ ∀ op ∈ ops, op.content = []

theorem Fit.length_le (h : Fit s ops n) (hi : i < n) (hop : ops[i]? = some op) :
    (brought s i op).content.length ≤ op.numBytes := by
  have hrep := h.2.1 i op (Nat.zero_le _) (by omega) hop
  have hnil := h.2.2 op (List.mem_of_getElem? hop)
  unfold brought
  unfold Replies at hrep
  cases hans : s.answer i op with
  | data checksum content =>
    rw [hans] at hrep
    exact hrep
  | error code =>
    dsimp only
    rw [hnil]
    exact Nat.zero_le _
  | timedOut =>
    rw [hans] at hrep
    exact hrep.elim
  | broken =>
    rw [hans] at hrep
    exact hrep.elim

theorem sum_eq_range {L : List ℤ} : L.sum = ∑ i ∈ Finset.range L.length, L.getD i 0 := by
  induction L with
  | nil => rfl
  | cons x L ih =>
    rw [List.sum_cons, List.length_cons, Finset.sum_range_succ', ih, add_comm]
    rfl

theorem sum_take_numBytes (hn : n ≤ ops.length) :
    ((ops.take n).map (·.numBytes)).sum = ∑ k ∈ Finset.range n, asked ops k := by
  induction n with
  | zero => rfl
  | succ n ih =>
    have hop : ops[n]? = some ops[n] := List.getElem?_eq_getElem (by omega)
    rw [List.take_succ_eq_append_getElem (by omega), List.map_append, List.sum_append, ih (by omega),
      Finset.sum_range_succ, asked, hop]
    simp

/-- The operations that count have succeeded when the read does, and the result is what they have brought. -/
theorem tally_counting {R : List ReadOp} (hR : R.map (·.status) = ops.mapIdx (counting s early counted))
    (hfit : Fit s ops counted) : (0 ≤ tally 0 R ↔ Counts s ops early counted) ∧
      (Counts s ops early counted → tally 0 R = ((∑ i ∈ Finset.range counted, got s ops i : ℕ) : ℤ)) := by
  have hsettled : Counts s ops early counted → ∀ i op, i < counted → ops[i]? = some op →
      settled s early i op = brought s i op := by
    intro h i op hi hop
    unfold settled
    split_ifs with hearly
    · exact verify_matches ((h i op hi hop).2 hearly)
    · rfl
  have hstatus : Counts s ops early counted → ∀ i op, ops[i]? = some op → counting s early counted i op =
      if i < counted then ((brought s i op).content.length : ℤ) else 0 := by
    intro h i op hop
    unfold counting
    split_ifs with hi
    · rw [hsettled h i op hi hop]
      exact (brought_status (hfit.2.1 i op (Nat.zero_le _) (by omega) hop) (h i op hi hop).1).1
    · rfl
  have hnonneg : Counts s ops early counted → ∀ op ∈ R, 0 ≤ op.status := by
    intro h op hop
    have hmem : op.status ∈ ops.mapIdx (counting s early counted) := hR ▸ List.mem_map_of_mem hop
    obtain ⟨i, o, ho, heq⟩ := exists_of_mem_mapIdx hmem
    rw [heq, hstatus h i o ho]
    split_ifs
    · exact Int.natCast_nonneg _
    · exact le_rfl
  refine ⟨⟨fun h i op hi hop => ?_, fun h => ?_⟩, fun h => ?_⟩
  · have hmem : counting s early counted i op ∈ R.map (·.status) := hR ▸ mem_mapIdx_of hop
    obtain ⟨r, hr, heq⟩ := List.mem_map.1 hmem
    have hpos := (tally_nonneg h).1 r hr
    rw [heq, counting, if_pos hi] at hpos
    exact (settled_status hpos).2
  · rw [tally_eq le_rfl (hnonneg h), zero_add]
    refine List.sum_nonneg fun x hx => ?_
    obtain ⟨op, hop, rfl⟩ := List.mem_map.1 hx
    exact hnonneg h op hop
  · have hlen : (ops.mapIdx (counting s early counted)).length = ops.length := List.length_mapIdx
    rw [tally_eq le_rfl (hnonneg h), zero_add, hR, sum_eq_range, hlen, Nat.cast_sum]
    have hgetD : ∀ i < ops.length, (ops.mapIdx (counting s early counted)).getD i 0 =
        if i < counted then (got s ops i : ℤ) else 0 := by
      intro i hi
      have hop : ops[i]? = some ops[i] := List.getElem?_eq_getElem hi
      rw [List.getD_eq_getElem?_getD, List.getElem?_mapIdx, hop, Option.map_some, Option.getD_some, hstatus h i _ hop,
        got, hop]
      rfl
    rw [Finset.sum_congr rfl fun i hi => hgetD i (Finset.mem_range.1 hi), ← Finset.sum_filter]
    refine Finset.sum_congr (Finset.ext fun i => ?_) fun _ _ => rfl
    have hle := hfit.1
    simp only [Finset.mem_filter, Finset.mem_range]
    omega

/-! ## The buffer -/

/-- The replies bring the right bytes. -/
theorem brought_content (hdata : Honest s data) (hnil : op.content = []) :
    (brought s i op).content = load data op.offset (brought s i op).content.length := by
  unfold brought
  cases hans : s.answer i op with
  | data checksum content => exact hdata i op checksum content hans
  | error code =>
    dsimp only
    rw [hnil]
    rfl
  | timedOut =>
    dsimp only
    rw [hnil]
    rfl
  | broken =>
    dsimp only
    rw [hnil]
    rfl

/-- A place that a reply has filled holds the byte of the chunk, all other places are as they were. -/
theorem fillBuf_apply (hlaid : Laid ops) (hoff : ∀ op ∈ ops, op.offset = chunkOffset + op.pos) (hdata : Honest s data)
    (hfit : Fit s ops n) :
    (∀ i op, i < n → ops[i]? = some op → op.pos ≤ p → p < op.pos + (brought s i op).content.length →
      fillBuf s ops buf n p = data (chunkOffset + p)) ∧
    ((∀ i op, i < n → ops[i]? = some op → ¬ (op.pos ≤ p ∧ p < op.pos + (brought s i op).content.length)) →
      fillBuf s ops buf n p = buf p) := by
  induction n with
  | zero => exact ⟨fun i op hi => by omega, fun _ => rfl⟩
  | succ n ih =>
    have hle := hfit.1
    have hop : ops[n]? = some ops[n] := List.getElem?_eq_getElem (by omega)
    obtain ⟨hin, hout⟩ := ih ⟨by omega, hfit.2.1.mono (by omega), hfit.2.2⟩
    rw [fillBuf_succ hop]
    constructor
    · intro i o hi ho h₁ h₂
      by_cases heq : i = n
      · subst heq
        obtain rfl := Option.some.inj (hop.symm.trans ho)
        have hmem := List.mem_of_getElem? hop
        rw [brought_content hdata (hfit.2.2 _ hmem), store_load h₁ h₂, hoff _ hmem]
        congr 1
        omega
      · have hlen := hfit.length_le hi ho
        have hbehind := hlaid.le hop (show i + 1 ≤ n by omega)
        have hlt : i < ops.length := by omega
        rw [List.take_succ_eq_append_getElem hlt, List.map_append, List.sum_append, ← hlaid i _ ho] at hbehind
        have ho' : ops[i] = o := Option.some.inj ((List.getElem?_eq_getElem hlt).symm.trans ho)
        rw [ho', List.map_singleton, List.sum_singleton] at hbehind
        rw [store_of_lt (by omega)]
        exact hin i o (by omega) ho h₁ h₂
    · intro h
      have hnot := h n _ (Nat.lt_succ_self n) hop
      have hbuf := hout fun i o hi ho => h i o (by omega) ho
      by_cases hlt : p < ops[n].pos
      · rw [store_of_lt hlt, hbuf]
      · rw [store_of_ge (by omega), hbuf]

theorem got_eq (hop : ops[i]? = some op) : got s ops i = (brought s i op).content.length := by
  rw [got, hop]
  rfl

theorem asked_eq (hop : ops[i]? = some op) : asked ops i = op.numBytes := by
  rw [asked, hop]
  rfl

/-- No operation that is short comes before one that has brought something. -/
theorem not_short_iff (hcounted : counted ≤ ops.length) : ¬ Short s ops counted ↔
    ∀ i j, i < j → j < counted → got s ops i < asked ops i → got s ops j = 0 := by
  constructor
  · intro h i j hij hj hshort
    have hi : ops[i]? = some ops[i] := List.getElem?_eq_getElem (by omega)
    have hj' : ops[j]? = some ops[j] := List.getElem?_eq_getElem (by omega)
    rw [got_eq hi, asked_eq hi] at hshort
    rw [got_eq hj']
    by_contra hne
    exact h ⟨i, j, _, _, hij, hj, hi, hj', hshort, fun hnil => hne (List.length_eq_zero_iff.2 hnil)⟩
  · rintro h ⟨i, j, op, op', hij, hj, hi, hj', hshort, hne⟩
    have hzero := h i j hij hj (by rwa [got_eq hi, asked_eq hi])
    rw [got_eq hj'] at hzero
    exact hne (List.length_eq_zero_iff.1 hzero)

/-- Whatever has been in the buffer, it has the bytes of the chunk as far as the result goes, exactly when no operation
that is short comes before one that has brought something. -/
theorem contiguous_iff (hlaid : Laid ops) (hoff : ∀ op ∈ ops, op.offset = chunkOffset + op.pos) (hdata : Honest s data)
    (hfit : Fit s ops sent) (hcounted : counted ≤ sent) {R : List ReadOp}
    (hR : R.map (·.status) = ops.mapIdx (counting s early counted)) :
    (∀ buf, (⟨tally 0 R, R, fillBuf s ops buf sent⟩ : ReadResult).Contiguous data chunkOffset) ↔
      ¬ (Counts s ops early counted ∧ Short s ops counted) := by
  have hle := hfit.1
  have hfit' : Fit s ops counted := ⟨by omega, hfit.2.1.mono hcounted, hfit.2.2⟩
  obtain ⟨hpos, hsum⟩ := tally_counting hR hfit'
  by_cases hcounts : Counts s ops early counted
  swap
  · refine iff_of_true (fun buf p hp => ?_) fun h => hcounts h.1
    have hneg := mt hpos.1 hcounts
    exact absurd (lt_of_le_of_lt (Int.natCast_nonneg p) hp).le hneg
  have hpart : ∀ i < counted, got s ops i ≤ asked ops i := by
    intro i hi
    have hop : ops[i]? = some ops[i] := List.getElem?_eq_getElem (by omega)
    rw [got_eq hop, asked_eq hop]
    exact hfit'.length_le hi hop
  have hplace : ∀ i op, ops[i]? = some op → op.pos = ∑ k ∈ Finset.range i, asked ops k := by
    intro i op hop
    rw [hlaid i op hop, sum_take_numBytes (List.getElem?_eq_some_iff.1 hop).1.le]
  rw [not_and, imp_iff_right hcounts, not_short_iff (by omega), ← filled_iff hpart]
  unfold ReadResult.Contiguous
  dsimp only
  rw [hsum hcounts]
  constructor
  · -- a buffer in which every byte is wrong
    intro h p hp
    by_contra hno
    have hright := h (fun p => if data (chunkOffset + p) = 0 then 1 else 0) p (by exact_mod_cast hp)
    have hbound : ∑ k ∈ Finset.range counted, got s ops k ≤ ∑ k ∈ Finset.range counted, asked ops k :=
      Finset.sum_le_sum fun k hk => hpart k (Finset.mem_range.1 hk)
    have hkept := (@fillBuf_apply _ _ (fun p => if data (chunkOffset + p) = 0 then 1 else 0)
      _ _ p _ hlaid hoff hdata hfit).2 fun i op hi hop hin => ?_
    · rw [hkept] at hright
      split_ifs at hright with hzero
      · rw [hzero] at hright
        exact absurd hright (by decide)
      · exact hzero hright.symm
    · rw [hplace i op hop] at hin
      by_cases hic : i < counted
      · exact hno ⟨i, hic, hin.1, by rw [got_eq hop]; exact hin.2⟩
      · have hbehind : ∑ k ∈ Finset.range counted, asked ops k ≤ ∑ k ∈ Finset.range i, asked ops k :=
          sum_range_mono (not_lt.1 hic)
        omega
  · intro h buf p hp
    obtain ⟨i, hi, hge, hlt⟩ := h p (by exact_mod_cast hp)
    have hop : ops[i]? = some ops[i] := List.getElem?_eq_getElem (by omega)
    rw [← hplace i _ hop] at hge hlt
    rw [got_eq hop] at hlt
    exact (fillBuf_apply hlaid hoff hdata hfit).1 i _ (by omega) hop hge hlt

/-! ## The large read -/

section

variable {numAvail numBytes chunkSize fuel r : ℕ}

theorem splitRead_done (h : numAvail ≤ r) : splitRead chunkOffset numAvail fuel r = [] := by
  cases fuel with
  | zero => rfl
  | succ fuel => rw [splitRead, if_neg h.not_gt]

/-- The operations make up what is left of the read, when that begins at a checksum block or has an end of one. -/
theorem splitRead_tiles (hfuel : numAvail ≤ r + fuel) (hr : r ≤ numAvail)
    (h : (chunkOffset + r) % CHECKSUM_BLOCKSIZE = 0 ∨ r = numAvail ∨
      OffsetToChecksumBlockEnd (chunkOffset + r) ≤ chunkOffset + numAvail) :
    Tiles ReadOp.offset ReadOp.numBytes (chunkOffset + r) (chunkOffset + numAvail)
      (splitRead chunkOffset numAvail fuel r) := by
  induction fuel generalizing r with
  | zero =>
    obtain rfl : r = numAvail := by omega
    exact .nil
  | succ fuel ih =>
    cases hr.eq_or_lt with
    | inl heq =>
      rw [splitRead_done heq.ge, heq]
      exact .nil
    | inr hlt =>
      obtain ⟨n, hn⟩ : ∃ n, n = if OffsetToChecksumBlockStart (chunkOffset + r) ≠ chunkOffset + r then
          OffsetToChecksumBlockEnd (chunkOffset + r) - (chunkOffset + r)
        else min MAX_BYTES_PER_READ_IO (numAvail - r) := ⟨_, rfl⟩
      have hnext : 0 < n ∧ r + n ≤ numAvail ∧ ((chunkOffset + (r + n)) % CHECKSUM_BLOCKSIZE = 0 ∨ r + n = numAvail ∨
          OffsetToChecksumBlockEnd (chunkOffset + (r + n)) ≤ chunkOffset + numAvail) := by
        by_cases hstart : OffsetToChecksumBlockStart (chunkOffset + r) ≠ chunkOffset + r
        · rw [if_pos hstart] at hn
          simp only [OffsetToChecksumBlockStart, OffsetToChecksumBlockEnd, CHECKSUM_BLOCKSIZE] at h hn hstart ⊢
          omega
        · rw [if_neg hstart] at hn
          simp only [OffsetToChecksumBlockStart, OffsetToChecksumBlockEnd, CHECKSUM_BLOCKSIZE, MAX_BYTES_PER_READ_IO]
            at h hn hstart ⊢
          omega
      rw [splitRead, if_pos hlt]
      dsimp only
      rw [← hn]
      refine Tiles.cons (x := (⟨chunkOffset + r, n, r, 0, 0, []⟩ : ReadOp)) hnext.1 ?_
      dsimp only
      rw [Nat.add_assoc]
      exact ih (by omega) hnext.2.1 hnext.2.2

end

/-- The operations make up the range and stay within the buffer, and what is returned are the bytes of the chunk. -/
def LargeReadRight (s : ReadServer) (data : ℕ → UInt8) (window chunkSize chunkOffset numBytes : ℕ) (good : Bool) :
    Prop :=
  let numAvail := min (chunkSize - chunkOffset) numBytes
  let ops := splitRead chunkOffset numAvail numAvail 0
  Tiles ReadOp.offset ReadOp.numBytes chunkOffset (chunkOffset + numAvail) ops ∧
    (∀ op ∈ ops, op.offset = chunkOffset + op.pos ∧ op.pos + op.numBytes ≤ numBytes) ∧
    ∀ buf r, DoLargeReadFromServer s window chunkSize chunkOffset numBytes good buf = some r →
      r.Contiguous data chunkOffset

/-- **A large read returns the bytes of the chunk**, from the offset on, whatever has been in the buffer, exactly when
there is no gap. -/
theorem DoLargeReadFromServer_right_iff (s : ReadServer) (data : ℕ → UInt8)
    (window chunkSize chunkOffset numBytes : ℕ) (good : Bool) (hle : chunkOffset ≤ chunkSize)
    (hlarge : OffsetToChecksumBlockEnd chunkOffset < chunkOffset + min (chunkSize - chunkOffset) numBytes)
    (hdata : Honest s data) : LargeReadRight s data window chunkSize chunkOffset numBytes good ↔
      ¬ Gap s (splitRead chunkOffset (min (chunkSize - chunkOffset) numBytes)
          (min (chunkSize - chunkOffset) numBytes) 0)
        good (min window (splitRead chunkOffset (min (chunkSize - chunkOffset) numBytes)
          (min (chunkSize - chunkOffset) numBytes) 0).length) := by
  unfold LargeReadRight DoLargeReadFromServer
  simp only [if_pos hle]
  obtain ⟨numAvail, hnum⟩ : ∃ n, n = min (chunkSize - chunkOffset) numBytes := ⟨_, rfl⟩
  rw [← hnum] at hlarge ⊢
  have htiles := @splitRead_tiles chunkOffset numAvail numAvail 0 (by omega) (Nat.zero_le _) (Or.inr (Or.inr hlarge.le))
  rw [Nat.add_zero] at htiles
  have hpos := @splitRead_pos chunkOffset numAvail (not_le.2 hlarge)
  have hoff : ∀ op ∈ splitRead chunkOffset numAvail numAvail 0, op.offset = chunkOffset + op.pos :=
    fun op hop => splitRead_offset hop
  have hlaid : Laid (splitRead chunkOffset numAvail numAvail 0) := fun i op hop => by
    simpa using (splitRead_laid hop).1
  have hfresh : ∀ op ∈ splitRead chunkOffset numAvail numAvail 0, op.content = [] ∧ op.status = 0 := by
    intro op hop
    obtain ⟨i, hi⟩ := List.getElem?_of_mem hop
    exact (splitRead_laid hi).2
  have hinside : ∀ op ∈ splitRead chunkOffset numAvail numAvail 0,
      op.offset = chunkOffset + op.pos ∧ op.pos + op.numBytes ≤ numBytes := by
    intro op hop
    have hmem := htiles.mem hop
    have hop' := hoff op hop
    exact ⟨hop', by omega⟩
  generalize splitRead chunkOffset numAvail numAvail 0 = ops at htiles hpos hoff hlaid hfresh hinside ⊢
  have hnil : ∀ op ∈ ops, op.content = [] := fun op hop => (hfresh op hop).1
  rw [and_iff_right htiles, and_iff_right hinside]
  by_cases hwell : Well s ops good (min window ops.length)
  · -- all replies come in
    have hnone : ∀ k, ¬ Stops s ops good (min window ops.length) k := fun k hk => hk.not_well hwell
    have hfit : Fit s ops ops.length := ⟨le_rfl, hwell.answered, hnil⟩
    have hR : (ops.mapIdx (settled s (ops.length - min window ops.length))).map (·.status) =
        ops.mapIdx (counting s (ops.length - min window ops.length) ops.length) := by
      rw [map_status_mapIdx]
      exact List.mapIdx_eq_mapIdx_iff.2 fun i hi => (if_pos hi).symm
    have hiff := contiguous_iff hlaid hoff hdata hfit le_rfl hR
    unfold Gap
    simp only [hnone, false_and, exists_false, or_false, hwell, true_and]
    rw [← hiff]
    simp only [DoPipelinedRead_well hpos hnil hwell, Option.map_some, Option.some.injEq, forall_eq']
  · by_cases hstops : ∃ k, Stops s ops good (min window ops.length) k
    · -- the lease goes
      obtain ⟨k, hk⟩ := hstops
      have hlt := hk.expires.2.2.1
      have hfit : Fit s ops (k + 1 + (min window ops.length - 1)) := ⟨by omega, hk.expires.2.2.2, hnil⟩
      have hR : (ops.mapIdx (stopped s (k + 1) (k + 1 + (min window ops.length - 1)))).map (·.status) =
          ops.mapIdx (counting s (k + 1) (k + 1)) := by
        rw [map_status_mapIdx]
        refine List.mapIdx_eq_mapIdx_iff.2 fun i hi => ?_
        unfold stopped counting settled
        split_ifs
        · rfl
        · rfl
        · exact (hfresh _ (List.getElem_mem hi)).2
      have hiff := contiguous_iff hlaid hoff hdata hfit (by omega) hR
      have hone : (∃ j, Stops s ops good (min window ops.length) j ∧ Counts s ops (j + 1) (j + 1) ∧
          Short s ops (j + 1)) ↔ Counts s ops (k + 1) (k + 1) ∧ Short s ops (k + 1) := by
        constructor
        · rintro ⟨j, hj, hrest⟩
          rwa [hk.unique hj]
        · exact fun h => ⟨k, hk, h⟩
      unfold Gap
      simp only [hwell, false_and, false_or, hone]
      rw [← hiff]
      simp only [DoPipelinedRead_stops hpos hnil hk, Option.map_some, Option.some.injEq, forall_eq']
    · -- the read fails
      refine iff_of_true (fun buf r hr => ?_) fun h => ?_
      · obtain ⟨⟨res, st⟩, hrun, rfl⟩ := Option.map_eq_some_iff.1 hr
        cases @DoPipelinedRead_end s _ buf window good hpos hnil with
        | fails h _ _ =>
          intro p hp
          have hneg : tally res st.ops < 0 := tally_neg (Or.inl (h res st hrun))
          exact absurd (lt_of_le_of_lt (Int.natCast_nonneg p) hp) hneg.not_gt
        | complete h _ => exact absurd h hwell
        | expired _ k hk _ _ => exact absurd ⟨k, hk⟩ hstops
      · cases h with
        | inl h => exact hwell h.1
        | inr h =>
          obtain ⟨k, hk, -⟩ := h
          exact hstops ⟨k, hk⟩

/-- A server that brings everything. -/
def sevens : ReadServer where
  takes _ := true
  answer _ op := .data 0 (load (fun _ => 7) op.offset op.numBytes)
  leaseGood _ := true

/-- A read of two operations. -/
theorem DoLargeReadFromServer_right_sevens : LargeReadRight sevens (fun _ => 7) READ_WINDOW 131073 0 131073 true := by
  have hdata : Honest sevens fun _ => 7 := by
    rintro i op checksum content ⟨⟩
    rw [length_load]
  have hlarge : OffsetToChecksumBlockEnd 0 < 0 + min (131073 - 0) 131073 := by
    norm_num [OffsetToChecksumBlockEnd, CHECKSUM_BLOCKSIZE]
  refine (DoLargeReadFromServer_right_iff sevens (fun _ => 7) READ_WINDOW 131073 0 131073 true (Nat.zero_le _) hlarge
    hdata).2 fun hgap => ?_
  have hfull : ∀ i op, (brought sevens i op).content.length = op.numBytes := by
    intro i op
    change (load (fun _ => (7 : UInt8)) op.offset op.numBytes).length = op.numBytes
    exact length_load
  have hnot : ∀ ops counted, ¬ Short sevens ops counted := by
    rintro ops counted ⟨i, j, op, op', -, -, -, -, hshort, -⟩
    exact absurd (hfull i op) hshort.ne
  cases hgap with
  | inl h => exact hnot _ _ h.2.2
  | inr h =>
    obtain ⟨k, -, -, h⟩ := h
    exact hnot _ _ h

/-- A server that brings nothing for the first operation and one byte for the second. -/
def late : ReadServer where
  takes _ := true
  answer i _ := .data 0 (if i = 0 then [] else [7])
  leaseGood _ := true

theorem late_honest : Honest late fun _ => 7 := by
  rintro i op checksum content ⟨⟩
  split_ifs
  · rfl
  · rfl

/-- One byte is returned, and the first byte of the buffer is not that of the chunk. -/
theorem not_right_late : ¬ LargeReadRight late (fun _ => 7) READ_WINDOW 131073 0 131073 true := by
  intro h
  have hrun : DoLargeReadFromServer late READ_WINDOW 131073 0 131073 true (fun _ => 0) = some ⟨1,
    [⟨0, 131072, 0, 0, 0, []⟩, ⟨131072, 1, 131072, 1, 0, [7]⟩], store (store (fun _ => 0) 0 []) 131072 [7]⟩ := rfl
  have hfirst := h.2.2 _ _ hrun 0 (by decide)
  exact absurd hfirst (by decide)

end Kfs.Client
