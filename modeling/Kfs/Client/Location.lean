import Kfs.Client.Descriptor

/-!
# Where the data of a file is

`GetDataLocation` goes through a range of a file in steps of a chunk, from the start of the range on, and asks for the
servers of the chunk that it has come to.

* `LocateChunk`, `GetDataLocation`;
* `Located`: there is one list of hosts for each chunk that the range has bytes of;
* **`located_iff`**: so it is exactly when the last bytes of the range do not reach over one chunk boundary more than
  its length has chunks.
-/

namespace Kfs.Client.Location

def EINVAL : ℤ := 22

structure ServerLocation where
  hostname : String
  port : ℕ

structure ChunkAttr where
  chunkId : ℤ
  chunkServerLoc : List ServerLocation

/-- The answer of the metaserver to `GetAllocOp`, for the number of a chunk in the file. -/
abbrev Meta := ℕ → ℤ × ChunkAttr

variable (ask : Meta)

def known (cattr : ℤ → Option ChunkAttr) (chunkNum : ℤ) : Bool :=
  ((cattr chunkNum).map fun c => decide (c.chunkId > 0)).getD false

/-- `LocateChunk`: the status, and the attributes that are known then. -/
def LocateChunk (cattr : ℤ → Option ChunkAttr) (chunkNum : ℤ) : ℤ × (ℤ → Option ChunkAttr) :=
  if chunkNum < 0 then (-EINVAL, cattr)
  else if known cattr chunkNum then (0, cattr)
  else
    let (status, chunk) := ask chunkNum.toNat
    if status < 0 then (status, cattr) else (0, Function.update cattr chunkNum (some chunk))

def hosts (chunk : ChunkAttr) : List String := chunk.chunkServerLoc.map (·.hostname)

/-- The values of `pos` in `for (pos = start; pos < stop; pos += step)`. -/
def positions (step : ℕ) (hstep : 0 < step) (stop pos : ℕ) : List ℕ :=
  if pos < stop then pos :: positions step hstep stop (pos + step) else []
  termination_by stop - pos
  decreasing_by omega

def chunkNumAt (pos : ℕ) : ℤ := toInt32 (pos / Chunk.CHUNKSIZE)

/-- The loop of `GetDataLocation`, for the values of `chunkNum` still to come: an error, or the lists of hosts. -/
def locationLoop : List ℤ → (ℤ → Option ChunkAttr) → Except ℤ (List (List String))
  | [], _ => .ok []
  | chunkNum :: rest, cattr =>
    let (res, cattr) := LocateChunk ask cattr chunkNum
    if res < 0 then .error res
    else
      match cattr chunkNum with
      | none => .error 0
      | some chunkAttr => (locationLoop rest cattr).map fun locations => hosts chunkAttr :: locations

theorem chunksize_pos : 0 < Chunk.CHUNKSIZE := by
  norm_num [Chunk.CHUNKSIZE]

def GetDataLocation (cattr : ℤ → Option ChunkAttr) (start len : ℕ) : Except ℤ (List (List String)) :=
  locationLoop ask ((positions Chunk.CHUNKSIZE chunksize_pos (start + len) start).map chunkNumAt) cattr

/-- The hosts of a chunk: as they are known, or as the metaserver tells. -/
def found (cattr : ℤ → Option ChunkAttr) (chunkNum : ℤ) : Option (List String) :=
  if chunkNum < 0 then none
  else if known cattr chunkNum then (cattr chunkNum).map hosts
  else if (ask chunkNum.toNat).1 < 0 then none
  else some (hosts (ask chunkNum.toNat).2)

/-- The numbers of the chunks that a range has bytes of. -/
def chunksOf (start len : ℕ) : List ℕ :=
  List.range' (start / Chunk.CHUNKSIZE) ((start + len - 1) / Chunk.CHUNKSIZE + 1 - start / Chunk.CHUNKSIZE)

/-- There is one list of hosts for each chunk of the range, in their order, where `hostsOf` are the hosts of the chunks
of the file. -/
def Located (hostsOf : ℕ → Option (List String)) (start len : ℕ) (res : Except ℤ (List (List String))) : Prop :=
  ∃ locations, res = .ok locations ∧ locations.map some = (chunksOf start len).map hostsOf

section

variable {ask} {cattr : ℤ → Option ChunkAttr} {k j : ℤ} {start len stop step pos : ℕ}

theorem found_of_neg (h : k < 0) : found ask cattr k = none := if_pos h

theorem found_of_known (h : ¬ k < 0) (hk : known cattr k = true) : found ask cattr k = (cattr k).map hosts := by
  rw [found, if_neg h, if_pos hk]

theorem found_of_asked (h : ¬ k < 0) (hk : ¬ known cattr k = true) :
    found ask cattr k = if (ask k.toNat).1 < 0 then none else some (hosts (ask k.toNat).2) := by
  rw [found, if_neg h, if_neg hk]

/-- `LocateChunk` finds the hosts of a chunk, or fails. -/
theorem LocateChunk_found : (∃ status < 0, LocateChunk ask cattr k = (status, cattr) ∧ found ask cattr k = none) ∨
    ∃ cattr' chunk, LocateChunk ask cattr k = (0, cattr') ∧ cattr' k = some chunk ∧
      found ask cattr k = some (hosts chunk) := by
  unfold LocateChunk
  split_ifs with hneg hknown
  · exact Or.inl ⟨-EINVAL, by decide, rfl, found_of_neg hneg⟩
  · obtain ⟨chunk, hchunk⟩ : ∃ chunk, cattr k = some chunk := by
      cases hc : cattr k with
      | none =>
        rw [known, hc] at hknown
        cases hknown
      | some chunk => exact ⟨chunk, rfl⟩
    refine Or.inr ⟨cattr, chunk, rfl, hchunk, ?_⟩
    rw [found_of_known hneg hknown, hchunk, Option.map_some]
  · have hasked := @found_of_asked ask _ _ hneg hknown
    dsimp only
    split_ifs at hasked ⊢ with hstatus
    · exact Or.inl ⟨_, hstatus, rfl, hasked⟩
    · exact Or.inr ⟨_, _, rfl, Function.update_self _ _ _, hasked⟩

/-- What has been found out stays found. -/
theorem found_LocateChunk : found ask (LocateChunk ask cattr k).2 j = found ask cattr j := by
  unfold LocateChunk
  split_ifs with hneg hknown
  · rfl
  · rfl
  · dsimp only
    split_ifs with hstatus
    · rfl
    · change found ask (Function.update cattr k (some (ask k.toNat).2)) j = _
      by_cases hj : j = k
      · subst hj
        rw [found_of_asked hneg hknown, if_neg hstatus]
        by_cases hpos : (ask j.toNat).2.chunkId > 0
        · rw [found_of_known hneg (by rw [known, Function.update_self]; exact decide_eq_true hpos),
            Function.update_self, Option.map_some]
        · rw [found_of_asked hneg (by rw [known, Function.update_self]; exact fun h => hpos (of_decide_eq_true h)),
            if_neg hstatus]
      · have hsame : Function.update cattr k (some (ask k.toNat).2) j = cattr j := Function.update_of_ne hj _ _
        unfold found known
        rw [hsame]

/-- The loop finds the hosts of the chunks that it comes to. -/
theorem locationLoop_ok {ks : List ℤ} {locations : List (List String)} :
    locationLoop ask ks cattr = .ok locations ↔ locations.map some = ks.map (found ask cattr) := by
  induction ks generalizing cattr locations with
  | nil =>
    rw [locationLoop, List.map_nil, List.map_eq_nil_iff]
    constructor
    · exact fun h => (Except.ok.inj h).symm
    · exact fun h => by rw [h]
  | cons chunkNum rest ih =>
    rw [locationLoop, List.map_cons]
    cases @LocateChunk_found ask cattr chunkNum with
    | inl h =>
      obtain ⟨status, hneg, hlocate, hnone⟩ := h
      rw [hlocate, hnone]
      dsimp only
      rw [if_pos hneg]
      constructor
      · exact fun h => by cases h
      · cases locations with
        | nil => exact fun h => by cases h
        | cons l ls => exact fun h => by cases (List.cons.inj h).1
    | inr h =>
      obtain ⟨cattr', chunk, hlocate, hchunk, hfound⟩ := h
      have hsame : ∀ j, found ask cattr' j = found ask cattr j := by
        intro j
        have hstays := @found_LocateChunk ask cattr chunkNum j
        rwa [hlocate] at hstays
      rw [hlocate, hfound]
      dsimp only
      rw [if_neg (lt_irrefl 0), hchunk]
      dsimp only
      have hrest : ∀ ls, locationLoop ask rest cattr' = .ok ls ↔
          ls.map some = rest.map (found ask cattr) := by
        intro ls
        rw [ih, funext hsame]
      constructor
      · intro h
        cases hl : locationLoop ask rest cattr' with
        | error e =>
          rw [hl] at h
          cases h
        | ok ls =>
          rw [hl] at h
          rw [← Except.ok.inj h, List.map_cons, (hrest ls).1 hl]
      · cases locations with
        | nil => exact fun h => by cases h
        | cons l ls =>
          intro h
          obtain ⟨hl, hls⟩ := List.cons.inj h
          rw [(hrest ls).2 hls, Option.some.inj hl]
          rfl

theorem positions_eq (hstep : 0 < step) : positions step hstep stop pos =
    (List.range ((stop - pos + step - 1) / step)).map fun k => pos + k * step := by
  fun_induction positions step hstep stop pos with
  | case1 pos hlt ih =>
    have hcount : (stop - pos + step - 1) / step = (stop - (pos + step) + step - 1) / step + 1 := by
      by_cases hle : stop - pos ≤ step
      · have hone : stop - pos + step - 1 = stop - pos - 1 + step := by omega
        rw [hone, Nat.add_div_right _ hstep, Nat.div_eq_of_lt (by omega), Nat.div_eq_of_lt (by omega)]
      · have hone : stop - pos + step - 1 = stop - (pos + step) + step - 1 + step := by omega
        rw [hone, Nat.add_div_right _ hstep]
    rw [ih, hcount, List.range_succ_eq_map, List.map_cons, List.map_map, Nat.zero_mul, Nat.add_zero]
    congr 1
    refine List.map_congr_left fun k _ => ?_
    rw [Function.comp_apply, Nat.succ_mul]
    omega
  | case2 pos hge =>
    have hcount : (stop - pos + step - 1) / step = 0 := Nat.div_eq_of_lt (by omega)
    rw [hcount]
    rfl

/-- The chunks that the loop comes to. -/
theorem positions_div (hstep : 0 < step) : (positions step hstep stop pos).map (· / step) =
    List.range' (pos / step) ((stop - pos + step - 1) / step) := by
  rw [positions_eq, List.map_map, List.range'_eq_map_range]
  refine List.map_congr_left fun k _ => ?_
  rw [Function.comp_apply, Nat.add_mul_div_right _ _ hstep]

/-- The number of chunks of a range. -/
theorem chunksOf_length (hlen : 0 < len) : (start + len - 1) / Chunk.CHUNKSIZE + 1 - start / Chunk.CHUNKSIZE =
    (len - 1) / Chunk.CHUNKSIZE + 1 +
      if Chunk.CHUNKSIZE ≤ start % Chunk.CHUNKSIZE + (len - 1) % Chunk.CHUNKSIZE then 1 else 0 := by
  have hlast : start + len - 1 = start + (len - 1) := by omega
  rw [hlast, Nat.add_div chunksize_pos]
  generalize start / Chunk.CHUNKSIZE = first
  generalize (len - 1) / Chunk.CHUNKSIZE = more
  omega

end

/-- **The locations cover the range** exactly when it does not reach over one chunk boundary more than its length has
chunks, and the hosts of its chunks can be found. -/
theorem located_iff (ask : Meta) (cattr : ℤ → Option ChunkAttr) (hostsOf : ℕ → Option (List String)) (start len : ℕ)
    (hlen : 0 < len) : Located hostsOf start len (GetDataLocation ask cattr start len) ↔
      start % Chunk.CHUNKSIZE + (len - 1) % Chunk.CHUNKSIZE < Chunk.CHUNKSIZE ∧
        ∀ n ∈ chunksOf start len, (hostsOf n).isSome = true ∧ found ask cattr (toInt32 n) = hostsOf n := by
  have hone : start + len - start + Chunk.CHUNKSIZE - 1 = len - 1 + Chunk.CHUNKSIZE := by omega
  have hvisited : ((positions Chunk.CHUNKSIZE chunksize_pos (start + len) start).map chunkNumAt).map (found ask cattr) =
      (List.range' (start / Chunk.CHUNKSIZE) ((len - 1) / Chunk.CHUNKSIZE + 1)).map
        fun n => found ask cattr (toInt32 n) := by
    rw [← Nat.add_div_right _ chunksize_pos, ← hone, ← positions_div, List.map_map, List.map_map]
    refine List.map_congr_left fun pos _ => ?_
    rw [Function.comp_apply, Function.comp_apply, chunkNumAt]
  have hlength := @chunksOf_length start _ hlen
  unfold Located GetDataLocation
  constructor
  · rintro ⟨locations, hok, hexpected⟩
    rw [locationLoop_ok, hvisited, hexpected] at hok
    have hcarry : ¬ Chunk.CHUNKSIZE ≤ start % Chunk.CHUNKSIZE + (len - 1) % Chunk.CHUNKSIZE := by
      intro hle
      have hsame := congrArg List.length hok
      rw [chunksOf, List.length_map, List.length_map, List.length_range', List.length_range', hlength, if_pos hle]
        at hsame
      omega
    rw [if_neg hcarry, Nat.add_zero] at hlength
    refine ⟨not_le.1 hcarry, fun n hn => ⟨?_, ?_⟩⟩
    · have hmem : hostsOf n ∈ locations.map some := hexpected ▸ List.mem_map_of_mem hn
      obtain ⟨l, -, hl⟩ := List.mem_map.1 hmem
      rw [← hl]
      rfl
    · rw [chunksOf, hlength] at hok hn
      exact (List.map_inj_left.1 hok n hn).symm
  · rintro ⟨hcarry, hall⟩
    rw [if_neg hcarry.not_ge, Nat.add_zero] at hlength
    have hexpected : ((chunksOf start len).map fun n => (hostsOf n).getD []).map some =
        (chunksOf start len).map hostsOf := by
      rw [List.map_map]
      refine List.map_congr_left fun n hn => ?_
      obtain ⟨l, hl⟩ := Option.isSome_iff_exists.1 (hall n hn).1
      rw [Function.comp_apply, hl, Option.getD_some]
    refine ⟨_, ?_, hexpected⟩
    rw [locationLoop_ok, hvisited, hexpected, ← hlength]
    exact List.map_congr_left fun n hn => (hall n hn).2.symm

def twoChunks : Meta := fun n => (0, ⟨n + 1, [⟨if n = 0 then "a" else "b", 30000⟩]⟩)

/-- The chunks of a file in which chunk 0 is on one server and the others on another. -/
def twoHosts (n : ℕ) : Option (List String) := some [if n = 0 then "a" else "b"]

/-- A whole chunk. -/
theorem located_iff_chunk : Located twoHosts 0 Chunk.CHUNKSIZE
    (GetDataLocation twoChunks (fun _ => none) 0 Chunk.CHUNKSIZE) := by
  have hlast : (Chunk.CHUNKSIZE - 1) % Chunk.CHUNKSIZE < Chunk.CHUNKSIZE := Nat.mod_lt _ chunksize_pos
  have hone : chunksOf 0 Chunk.CHUNKSIZE = [0] := by
    rw [chunksOf, Nat.zero_add, Nat.zero_div, Nat.div_eq_of_lt (Nat.sub_lt chunksize_pos one_pos)]
    rfl
  rw [located_iff twoChunks _ twoHosts 0 Chunk.CHUNKSIZE chunksize_pos, hone, Nat.zero_mod, Nat.zero_add]
  refine ⟨hlast, fun n hn => ?_⟩
  cases List.mem_singleton.1 hn
  exact ⟨rfl, by decide⟩

/-- Two bytes around the end of the first chunk. -/
theorem located_around :
    ¬ Located twoHosts (Chunk.CHUNKSIZE - 1) 2 (GetDataLocation twoChunks (fun _ => none) (Chunk.CHUNKSIZE - 1) 2) := by
  rintro ⟨locations, hok, hexpected⟩
  have hpositions : positions Chunk.CHUNKSIZE chunksize_pos (Chunk.CHUNKSIZE - 1 + 2) (Chunk.CHUNKSIZE - 1) =
      [Chunk.CHUNKSIZE - 1] := by
    rw [positions, if_pos (by omega), positions, if_neg (by norm_num [Chunk.CHUNKSIZE])]
  have hchunks : (chunksOf (Chunk.CHUNKSIZE - 1) 2).length = 2 := by
    rw [chunksOf, List.length_range']
    norm_num [Chunk.CHUNKSIZE]
  rw [GetDataLocation, hpositions, locationLoop_ok] at hok
  have hone := congrArg List.length hok
  have htwo := congrArg List.length hexpected
  rw [List.length_map, List.length_map, List.length_map, List.length_singleton] at hone
  rw [List.length_map, List.length_map, hchunks] at htwo
  omega

end Kfs.Client.Location
