import Kfs.Fs.Keep
import Kfs.Fs.Order
import Kfs.Fs.Succeed

/-!
# Truncation

`Tree::truncate` with the calls of the layout manager that it makes.

* `ChunkCall`, `deleteFrom`, `truncateCalls`: the operation; `truncateCalls_truncate`: its effect on the tree;
* `getalloc_sorted`, `lowerBound_chunks`: the search for the last chunk;
* `deleteFrom_eq`: the loop over the chunks behind it;
* **`truncate_exact`**: what remains of the file, and what a second truncation does.
-/

namespace Kfs

open Lib

variable {env env' : Env} {fs fs' : Fs} {l l' : List Meta} {fid offset s : ℤ} {fa : MetaFattr}

/-! ## The calls -/

/-- A call of the layout manager. -/
inductive ChunkCall
  | TruncateChunk (chunkId size : ℤ)
  | DeleteChunk (chunkId : ℤ)
  deriving DecidableEq, Repr

open ChunkCall

/-- The loop that removes the chunks from `m` on: `MetaChunkInfo::DeleteChunk` of each. -/
def deleteFrom (l : List Meta) : List MetaChunkInfo → Option (List ChunkCall × List Meta)
  | [] => some ([], l)
  | m :: ms => do
    let l ← Leaves.delOk l (.chunkinfo m)
    let (calls, l) ← deleteFrom l ms
    return (DeleteChunk m.chunkId :: calls, l)

/-- `Tree::truncate` with the calls that it makes. -/
def truncateCalls (env : Env) (fs : Fs) (file offset : ℤ) : Option (ℤ × ℤ × List ChunkCall × Fs) :=
  match getFattr fs.leaves file with
  | none => some (-ENOENT, 0, [], fs)
  | some fa =>
    if fa.type ≠ .file then some (-EISDIR, 0, [], fs)
    else
      let chunkInfo := getalloc fs.leaves fa.id
      if fa.chunkcount ≠ chunkInfo.length then none
      else
        let fa := { fa with filesize := -1 }
        let last := chunkStartOffset offset
        match chunkInfo.drop (lowerBound (fun c => decide (c.offset < last)) chunkInfo) with
        | [] => some (1, last, [], { fs with leaves := setFattr fs.leaves file fa })
        | m :: ms =>
          if m.offset ≠ last then some (1, last, [], { fs with leaves := setFattr fs.leaves file fa })
          else do
            let (cut, dead) :=
              if m.offset ≤ offset then ([TruncateChunk m.chunkId (offset - m.offset)], ms) else ([], m :: ms)
            let (calls, l) ← deleteFrom fs.leaves dead
            let fa := { fa with chunkcount := fa.chunkcount - dead.length, mtime := env.now }
            return (0, 0, cut ++ calls, { fs with leaves := setFattr l file fa })

theorem deleteFrom_deleteChunks : ∀ (cs : List MetaChunkInfo) (l : List Meta),
    (deleteFrom l cs).map Prod.snd = deleteChunks l cs
  | [], l => rfl
  | c :: cs, l => by
    simp only [deleteFrom, deleteChunks, List.foldlM_cons, Option.bind_eq_bind]
    rcases Leaves.delOk l (.chunkinfo c) with - | l₁
    · rfl
    · simp only [Option.bind_some]
      have := deleteFrom_deleteChunks cs l₁
      unfold deleteChunks at this
      rw [← this]
      rcases deleteFrom l₁ cs with - | ⟨calls, l₂⟩ <;> rfl

/-- **Without the calls it is `truncate`.** -/
theorem truncateCalls_truncate (env : Env) (fs : Fs) (file offset : ℤ) :
    (truncateCalls env fs file offset).map (fun r => (r.1, r.2.1, r.2.2.2)) = truncate env fs file offset := by
  unfold truncateCalls truncate
  rcases getFattr fs.leaves file with - | fa
  · rfl
  dsimp only
  by_cases ht : fa.type = .file
  swap
  · rw [if_pos ht, if_pos ht]
    rfl
  rw [if_neg (not_not.mpr ht), if_neg (not_not.mpr ht)]
  by_cases hc : fa.chunkcount = (getalloc fs.leaves fa.id).length
  swap
  · rw [if_pos hc, if_pos hc]
    rfl
  rw [if_neg (not_not.mpr hc), if_neg (not_not.mpr hc)]
  generalize (getalloc fs.leaves fa.id).drop _ = rest
  rcases rest with - | ⟨m, ms⟩
  · rfl
  dsimp only
  by_cases hm : m.offset = chunkStartOffset offset
  swap
  · rw [if_pos hm, if_pos hm]
    rfl
  rw [if_neg (not_not.mpr hm), if_neg (not_not.mpr hm)]
  by_cases ho : m.offset ≤ offset
  · simp only [if_pos ho]
    rw [← deleteFrom_deleteChunks]
    rcases deleteFrom fs.leaves ms with - | ⟨calls, l₁⟩ <;> rfl
  · simp only [if_neg ho]
    rw [← deleteFrom_deleteChunks]
    rcases deleteFrom fs.leaves (m :: ms) with - | ⟨calls, l₁⟩ <;> rfl

/-! ## The last chunk -/

/-- The chunks of a file come in the order of their offsets. -/
theorem getalloc_sorted (ho : Ordered (l.map Meta.key)) (fid : ℤ) :
    (getalloc l fid).Pairwise fun c d => c.offset ≤ d.offset := by
  have hpw := List.pairwise_map.mp ho.1
  have hch : (chunks l).Pairwise fun c d => d.id = c.id → c.offset ≤ d.offset := by
    refine (List.pairwise_filterMap).mpr (hpw.imp_of_mem fun {a b} ha hb hab c hc d hd he => ?_)
    have hpa := ho.2 _ (List.mem_map_of_mem ha)
    have hpb := ho.2 _ (List.mem_map_of_mem hb)
    cases a <;> cases b <;> simp only [Meta.chunkinfo?, Option.some.injEq, reduceCtorEq] at hc hd
    subst hc hd
    simp only [Meta.key, Key.Plain, Key.matchAny, Key.lt_false_iff, true_and] at hab hpa hpb
    omega
  rw [getalloc_eq]
  refine (hch.filter _).imp_of_mem fun {c d} hc hd h => h ?_
  rw [List.mem_filter, decide_eq_true_eq] at hc hd
  rw [hc.2, hd.2]

/-- The chunks from the place on that the search finds. -/
theorem drop_lowerBound_chunks {cs : List MetaChunkInfo} (hs : cs.Pairwise fun c d => c.offset ≤ d.offset) (s : ℤ) :
    cs.drop (lowerBound (fun c => decide (c.offset < s)) cs) = cs.filter fun c => decide (s ≤ c.offset) := by
  have hsp : Split (fun c : MetaChunkInfo => decide (c.offset < s)) cs := by
    refine Split.of_pairwise hs fun c d hcd hd => ?_
    rw [decide_eq_true_eq] at hd ⊢
    omega
  rw [drop_lowerBound hsp, dropWhile_eq_filter hsp]
  refine List.filter_congr fun c _ => ?_
  by_cases h : c.offset < s
  · simp [h]
  · simp [h, not_lt.mp h]

/-- The chunks of a file at `s` and behind it, when it has one at `s`. -/
theorem filter_chunks_eq_cons {cs : List MetaChunkInfo} (hs : cs.Pairwise fun c d => c.offset < d.offset)
    {c : MetaChunkInfo} (hc : c ∈ cs) :
    (cs.filter fun d => decide (c.offset ≤ d.offset)) = c :: cs.filter fun d => decide (c.offset < d.offset) := by
  obtain ⟨u, v, rfl⟩ := List.append_of_mem hc
  rw [List.pairwise_append, List.pairwise_cons] at hs
  obtain ⟨-, ⟨hv, -⟩, hu⟩ := hs
  have hleft : ∀ d ∈ u, d.offset < c.offset := fun d hd => hu d hd c List.mem_cons_self
  have hu₁ : (u.filter fun d => decide (c.offset ≤ d.offset)) = [] :=
    List.filter_eq_nil_iff.mpr fun d hd => by simpa using hleft d hd
  have hu₂ : (u.filter fun d => decide (c.offset < d.offset)) = [] :=
    List.filter_eq_nil_iff.mpr fun d hd => by simpa using (hleft d hd).le
  have hv₁ : (v.filter fun d => decide (c.offset ≤ d.offset)) = v :=
    List.filter_eq_self.mpr fun d hd => by simpa using (hv d hd).le
  have hv₂ : (v.filter fun d => decide (c.offset < d.offset)) = v :=
    List.filter_eq_self.mpr fun d hd => by simpa using hv d hd
  simp [hu₁, hu₂, hv₁, hv₂]

/-! ## The removal of the chunks behind it -/

/-- A removal that has one item to choose from. -/
theorem delOk_eq_filter {m x : Meta} (h : l.filter (Leaves.hits m) = [x]) :
    Leaves.delOk l m = some (l.filter fun y => !Leaves.hits m y) := by
  have hx : x ∈ l.filter (Leaves.hits m) := by simp [h]
  rw [List.mem_filter] at hx
  unfold Leaves.delOk Leaves.del
  rw [if_pos (List.any_eq_true.mpr ⟨x, hx⟩), Option.some.injEq]
  clear hx
  induction l with
  | nil => simp at h
  | cons y l ih =>
    rw [List.filter_cons] at h ⊢
    by_cases hy : Leaves.hits m y = true
    · rw [if_pos hy] at h
      rw [List.eraseP_cons_of_pos hy, if_neg (by simp [hy]), List.filter_eq_self.mpr]
      intro z hz
      have := List.filter_eq_nil_iff.mp (List.cons.inj h).2 z hz
      simpa using this
    · rw [if_neg hy] at h
      rw [List.eraseP_cons_of_neg hy, if_pos (by simpa using hy), ih h]

/-- **The loop** removes each of its chunks, when each is the only one that its removal can find. -/
theorem deleteFrom_eq : ∀ {cs : List MetaChunkInfo} {l : List Meta}, cs.Nodup →
    (∀ c ∈ cs, l.filter (Leaves.hits (.chunkinfo c)) = [.chunkinfo c]) →
    deleteFrom l cs = some (cs.map fun c => DeleteChunk c.chunkId,
      l.filter fun x => !cs.any fun c => Leaves.hits (.chunkinfo c) x)
  | [], l, _, _ => by simp [deleteFrom]
  | c :: cs, l, hn, h => by
    rw [List.nodup_cons] at hn
    have hc := h c List.mem_cons_self
    have hrest : ∀ d ∈ cs, (l.filter fun y => !Leaves.hits (.chunkinfo c) y).filter (Leaves.hits (.chunkinfo d)) =
        [.chunkinfo d] := by
      intro d hd
      have hdl := h d (List.mem_cons_of_mem _ hd)
      rw [List.filter_comm, hdl, List.filter_eq_self]
      intro x hx
      rw [List.mem_singleton] at hx
      subst hx
      -- the removal of `c` finds nothing but `c`
      by_contra hhit
      have hmem : .chunkinfo d ∈ l.filter (Leaves.hits (.chunkinfo d)) := by simp [hdl]
      have : .chunkinfo d ∈ l.filter (Leaves.hits (.chunkinfo c)) :=
        List.mem_filter.mpr ⟨(List.mem_filter.mp hmem).1, by simpa using hhit⟩
      rw [hc, List.mem_singleton, Meta.chunkinfo.injEq] at this
      exact hn.1 (this ▸ hd)
    rw [deleteFrom, delOk_eq_filter hc]
    simp only [Option.bind_eq_bind, Option.bind_some, deleteFrom_eq hn.2 hrest, Option.pure_def, List.map_cons,
      List.filter_filter, Option.some.injEq, Prod.mk.injEq, true_and]
    refine List.filter_congr fun x _ => ?_
    rw [List.any_cons, Bool.not_or, Bool.and_comm]

/-- A chunk of the file behind `s`. -/
def isLater (fid s : ℤ) : Meta → Bool
  | .chunkinfo c => decide (c.id = fid ∧ s < c.offset)
  | _ => false

/-- A chunk is the only item that its removal can find, while no other chunk of its file has its offset. -/
theorem filter_hits_chunk (hp : ∀ x ∈ l, x.key.Plain) (hn : ((getalloc l fid).map MetaChunkInfo.offset).Nodup)
    {c : MetaChunkInfo} (hc : c ∈ getalloc l fid) : l.filter (Leaves.hits (.chunkinfo c)) = [.chunkinfo c] := by
  have hcm : c ∈ chunks l ∧ c.id = fid := by simpa [getalloc_eq] using hc
  have hcp : c.offset ≠ -1 := hp _ (mem_chunks.mp hcm.1)
  let q : MetaChunkInfo → Bool := fun d => decide (d.id = fid) && decide (d.offset = c.offset)
  have hq : l.filter (Leaves.hits (.chunkinfo c)) = l.filter fun x => x.chunkinfo?.any q := by
    refine List.filter_congr fun x hx => ?_
    rcases x with d | f | d
    · exact hits_chunkinfo (by simp)
    · exact hits_chunkinfo (by simp)
    · rw [Bool.eq_iff_iff, hits_chunk_iff hcp (hp _ hx)]
      simp [Meta.chunkinfo?, q, MetaChunkInfo.place, hcm.2]
  obtain ⟨h₁, h₂⟩ := filterMap_filter_kind Meta.chunkinfo? (fun x => x.chunkinfo?.any q) q (fun _ => rfl) l
  have hone : (chunks l).filter q = [c] := by
    have := filter_eq_singleton (p := fun d => decide (d.offset = c.offset)) hn.of_map hc (by simp)
      fun d hd he => List.inj_on_of_nodup_map hn hd hc (of_decide_eq_true he)
    rw [getalloc_eq, List.filter_filter] at this
    rw [← this]
    exact List.filter_congr fun d _ => Bool.and_comm _ _
  rw [show l.filterMap Meta.chunkinfo? = chunks l from rfl, hone] at h₁ h₂
  rw [hq]
  obtain ⟨x, hx⟩ := List.length_eq_one_iff.mp h₂
  rw [hx] at h₁ ⊢
  rcases x with d | f | d
  · exact absurd h₁ (List.cons_ne_nil c []).symm
  · exact absurd h₁ (List.cons_ne_nil c []).symm
  · obtain rfl : d = c := (List.cons.inj h₁).1
    rfl

/-- The loop over the chunks of a file behind `s`. -/
theorem deleteFrom_later (hp : ∀ x ∈ l, x.key.Plain) (hn : ((getalloc l fid).map MetaChunkInfo.offset).Nodup) (s : ℤ) :
    deleteFrom l ((getalloc l fid).filter fun c => decide (s < c.offset)) =
      some (((getalloc l fid).filter fun c => decide (s < c.offset)).map fun c => DeleteChunk c.chunkId,
        l.filter fun x => !isLater fid s x) := by
  rw [deleteFrom_eq (hn.of_map.filter _) fun c hc => filter_hits_chunk hp hn (List.mem_of_mem_filter hc),
    Option.some.injEq, Prod.mk.injEq]
  refine ⟨rfl, List.filter_congr fun x hx => ?_⟩
  refine congrArg (!·) (Bool.eq_iff_iff.mpr ?_)
  rw [List.any_eq_true]
  constructor
  · rintro ⟨c, hc, hhit⟩
    rw [List.mem_filter, decide_eq_true_eq] at hc
    have hx' : x ∈ l.filter (Leaves.hits (.chunkinfo c)) := List.mem_filter.mpr ⟨hx, hhit⟩
    rw [filter_hits_chunk hp hn hc.1, List.mem_singleton] at hx'
    subst hx'
    have : c.id = fid := by
      have := hc.1
      rw [getalloc_eq, List.mem_filter, decide_eq_true_eq] at this
      exact this.2
    simp [isLater, this, hc.2]
  · intro hlater
    rcases x with d | f | c
    · exact absurd hlater Bool.false_ne_true
    · exact absurd hlater Bool.false_ne_true
    · obtain ⟨hid, hs⟩ := of_decide_eq_true hlater
      have hc : c ∈ getalloc l fid := by
        rw [getalloc_eq, List.mem_filter, mem_chunks, decide_eq_true_eq]
        exact ⟨hx, hid⟩
      refine ⟨c, List.mem_filter.mpr ⟨hc, by simpa using hs⟩, ?_⟩
      have : .chunkinfo c ∈ l.filter (Leaves.hits (.chunkinfo c)) := by simp [filter_hits_chunk hp hn hc]
      exact (List.mem_filter.mp this).2

/-! ## Attributes -/

theorem eqv_fattr_self {f : MetaFattr} (hf : f.id = fid) : (Meta.fattr f).key.eqv ⟨.fattr, fid, 0⟩ = true :=
  (eqv_fattr _ fid).mpr ⟨f, rfl, hf⟩

/-- The first attributes of a file are those that are overwritten. -/
theorem getFattr_setFattr (h : getFattr l fid = some fa) {f : MetaFattr} (hf : f.id = fid) :
    getFattr (setFattr l fid f) fid = some f := by
  unfold getFattr Leaves.find setFattr at *
  induction l with
  | nil => simp at h
  | cons x l ih =>
    rw [Leaves.update]
    by_cases hx : x.key.eqv ⟨.fattr, fid, 0⟩ = true
    · rw [if_pos hx, List.filter_cons, if_pos (eqv_fattr_self hf)]
      rfl
    · rw [if_neg hx, List.filter_cons, if_neg hx]
      rw [List.filter_cons, if_neg hx] at h
      exact ih h

theorem setFattr_setFattr {f g : MetaFattr} (hf : f.id = fid) :
    setFattr (setFattr l fid f) fid g = setFattr l fid g := by
  unfold setFattr
  induction l with
  | nil => rfl
  | cons x l ih =>
    rw [Leaves.update, Leaves.update]
    by_cases hx : x.key.eqv ⟨.fattr, fid, 0⟩ = true
    · rw [if_pos hx, if_pos hx, Leaves.update, if_pos (eqv_fattr_self hf)]
    · rw [if_neg hx, if_neg hx, Leaves.update, if_neg hx, ih]

theorem chunks_setFattr {f : MetaFattr} (hf : f.id = fid) : chunks (setFattr l fid f) = chunks l := by
  refine chunks_update fun x _ hx => ⟨?_, trivial⟩
  obtain ⟨g, rfl, hg⟩ := (eqv_fattr x fid).mp hx
  simp [Meta.key, hf, hg]

theorem getalloc_setFattr {f : MetaFattr} (hf : f.id = fid) (file : ℤ) :
    getalloc (setFattr l fid f) file = getalloc l file := by
  rw [getalloc_eq, getalloc_eq, chunks_setFattr hf]

theorem getFattr_filter_later (s : ℤ) : getFattr (l.filter fun x => !isLater fid s x) fid = getFattr l fid := by
  unfold getFattr Leaves.find
  rw [List.filter_filter]
  congr 2
  refine List.filter_congr fun x _ => ?_
  rw [Bool.and_eq_left_iff_imp]
  intro hx
  obtain ⟨g, rfl, -⟩ := (eqv_fattr x fid).mp hx
  rfl

theorem chunks_filter_later (s : ℤ) : chunks (l.filter fun x => !isLater fid s x) =
    (chunks l).filter fun c => !decide (c.id = fid ∧ s < c.offset) := by
  unfold chunks
  induction l with
  | nil => rfl
  | cons x l ih =>
    rcases x with d | f | c
    · rw [List.filter_cons_of_pos rfl]
      exact ih
    · rw [List.filter_cons_of_pos rfl]
      exact ih
    · rw [List.filter_cons, show (Meta.chunkinfo c :: l).filterMap Meta.chunkinfo? = c :: l.filterMap Meta.chunkinfo?
        from rfl, List.filter_cons, ← ih]
      change (List.filterMap _ (if (!decide (c.id = fid ∧ s < c.offset)) = true then _ else _)) = _
      split_ifs <;> rfl

theorem getalloc_filter_later (s : ℤ) : getalloc (l.filter fun x => !isLater fid s x) fid =
    (getalloc l fid).filter fun c => decide (c.offset ≤ s) := by
  rw [getalloc_eq, chunks_filter_later, getalloc_eq, List.filter_filter, List.filter_filter]
  refine List.filter_congr fun c _ => ?_
  by_cases hid : c.id = fid
  · simp only [hid, decide_true, Bool.true_and, Bool.and_true, true_and, ← decide_not, not_lt]
  · simp [hid]

/-! ## Exactness -/

theorem ordered_setFattr (ho : Ordered (l.map Meta.key)) {f : MetaFattr} (hf : f.id = fid) :
    Ordered ((setFattr l fid f).map Meta.key) := by
  rw [setFattr, update_map_key]
  · exact ho
  · intro x _ hx
    obtain ⟨g, rfl, hg⟩ := (eqv_fattr x fid).mp hx
    simp [Meta.key, hf, hg]

/-- The attributes of a file that has been truncated. -/
def MetaFattr.truncated (env : Env) (fa : MetaFattr) (kept : ℤ) : MetaFattr :=
  { fa with filesize := -1, mtime := env.now, chunkcount := kept }

section

variable (ho : Ordered (fs.leaves.map Meta.key)) (hn : ((getalloc fs.leaves fid).map MetaChunkInfo.offset).Nodup)
  (hf : getFattr fs.leaves fid = some fa) (ht : fa.type = .file)
  (hc : fa.chunkcount = (getalloc fs.leaves fid).length) (h0 : 0 ≤ offset)

include ho hn

theorem getalloc_lt : (getalloc fs.leaves fid).Pairwise fun c d => c.offset < d.offset :=
  ((getalloc_sorted ho fid).and (List.pairwise_map.mp hn)).imp fun h => lt_of_le_of_ne h.1 h.2

include hf ht hc

omit hn in
/-- What `truncate` does once the file and its chunks are found. -/
theorem truncateCalls_eq (env : Env) : truncateCalls env fs fid offset =
    match (getalloc fs.leaves fid).filter fun c => decide (chunkStartOffset offset ≤ c.offset) with
    | [] =>
      some (1, chunkStartOffset offset, [], { fs with leaves := setFattr fs.leaves fid { fa with filesize := -1 } })
    | m :: ms =>
      if m.offset ≠ chunkStartOffset offset then
        some (1, chunkStartOffset offset, [], { fs with leaves := setFattr fs.leaves fid { fa with filesize := -1 } })
      else do
        let (cut, dead) :=
          if m.offset ≤ offset then ([TruncateChunk m.chunkId (offset - m.offset)], ms) else ([], m :: ms)
        let (calls, l) ← deleteFrom fs.leaves dead
        let fa := fa.truncated env (fa.chunkcount - dead.length)
        return (0, 0, cut ++ calls, { fs with leaves := setFattr l fid fa }) := by
  obtain rfl : fa.id = fid := (getFattr_some hf).2
  rw [← drop_lowerBound_chunks (getalloc_sorted ho fa.id)]
  unfold truncateCalls
  rw [hf]
  dsimp only
  rw [if_neg (not_not.mpr ht), if_neg (not_not.mpr hc)]
  generalize (getalloc fs.leaves fa.id).drop _ = rest
  rcases rest with - | ⟨m, ms⟩ <;> rfl

include h0 in
/-- **A file with a chunk at the place** is cut there. -/
theorem truncateCalls_cut (env : Env) {c : MetaChunkInfo} (hm : c ∈ getalloc fs.leaves fid)
    (hs : c.offset = chunkStartOffset offset) :
    truncateCalls env fs fid offset = some (0, 0, TruncateChunk c.chunkId (offset - c.offset) ::
        ((getalloc fs.leaves fid).filter fun d => decide (c.offset < d.offset)).map fun d => DeleteChunk d.chunkId,
      { fs with leaves := setFattr (fs.leaves.filter fun x => !isLater fid c.offset x) fid (fa.truncated env
          ((getalloc fs.leaves fid).filter fun d => decide (d.offset ≤ c.offset)).length) }) := by
  have hle : c.offset ≤ offset := by
    rw [hs, chunkStartOffset, Int.tdiv_eq_ediv_of_nonneg h0]
    exact Int.ediv_mul_le offset (by decide)
  have hcount : (getalloc fs.leaves fid).length =
      ((getalloc fs.leaves fid).filter fun d => decide (d.offset ≤ c.offset)).length +
        ((getalloc fs.leaves fid).filter fun d => decide (c.offset < d.offset)).length := by
    rw [List.length_eq_length_filter_add fun d : MetaChunkInfo => decide (d.offset ≤ c.offset)]
    simp only [← decide_not, not_le]
  rw [truncateCalls_eq ho hf ht hc, ← hs, filter_chunks_eq_cons (getalloc_lt ho hn) hm]
  dsimp only
  rw [if_neg (not_not.mpr rfl), if_pos hle]
  dsimp only
  rw [deleteFrom_later (fun x hx => ho.2 _ (List.mem_map_of_mem hx)) hn, hc, hcount, Nat.cast_add, add_sub_cancel_right]
  rfl

include h0 in
/-- A file whose last chunk is at the place loses no chunk. -/
theorem truncateCalls_again (env : Env) {c : MetaChunkInfo} (hm : c ∈ getalloc fs.leaves fid)
    (hs : c.offset = chunkStartOffset offset) (hlast : ∀ d ∈ getalloc fs.leaves fid, d.offset ≤ c.offset)
    (hsize : fa.filesize = -1) :
    truncateCalls env fs fid offset = some (0, 0, [TruncateChunk c.chunkId (offset - c.offset)],
      { fs with leaves := setFattr fs.leaves fid { fa with mtime := env.now } }) := by
  have hlater : ((getalloc fs.leaves fid).filter fun d => decide (c.offset < d.offset)) = [] :=
    List.filter_eq_nil_iff.mpr fun d hd => by simpa using hlast d hd
  have hkept : ((getalloc fs.leaves fid).filter fun d => decide (d.offset ≤ c.offset)) = getalloc fs.leaves fid :=
    List.filter_eq_self.mpr fun d hd => by simpa using hlast d hd
  have hleaves : (fs.leaves.filter fun x => !isLater fid c.offset x) = fs.leaves := by
    refine List.filter_eq_self.mpr fun x hx => ?_
    rcases x with d | f | d
    · rfl
    · rfl
    · by_cases hd : d.id = fid
      · have := hlast d (by simpa [getalloc_eq] using ⟨hx, hd⟩)
        simp [isLater, this]
      · simp [isLater, hd]
  rw [truncateCalls_cut ho hn hf ht hc h0 env hm hs, hlater, hkept, hleaves, ← hc, MetaFattr.truncated, ← hsize]
  rfl

omit hn in
/-- **A file without one** is left as it is. -/
theorem truncateCalls_hole (env : Env) (hs : ∀ c ∈ getalloc fs.leaves fid, c.offset ≠ chunkStartOffset offset) :
    truncateCalls env fs fid offset = some (1, chunkStartOffset offset, [],
      { fs with leaves := setFattr fs.leaves fid { fa with filesize := -1 } }) := by
  rw [truncateCalls_eq ho hf ht hc]
  generalize hd : (getalloc fs.leaves fid).filter _ = rest
  rcases rest with - | ⟨m, ms⟩
  · rfl
  · have hm : m ∈ getalloc fs.leaves fid := List.mem_of_mem_filter (hd ▸ List.mem_cons_self)
    dsimp only
    rw [if_pos (hs m hm)]

end

/-- **Truncation is exact**, and the second time it changes nothing but the time of modification. -/
theorem truncate_exact (ho : Ordered (fs.leaves.map Meta.key))
    (hn : ((getalloc fs.leaves fid).map MetaChunkInfo.offset).Nodup) (hf : getFattr fs.leaves fid = some fa)
    (ht : fa.type = .file) (hc : fa.chunkcount = (getalloc fs.leaves fid).length) (h0 : 0 ≤ offset) (env env' : Env) :
    (∀ c ∈ getalloc fs.leaves fid, c.offset = chunkStartOffset offset → ∃ fs' fa',
      truncateCalls env fs fid offset = some (0, 0, TruncateChunk c.chunkId (offset - c.offset) ::
        (((getalloc fs.leaves fid).filter fun d => decide (c.offset < d.offset)).map fun d =>
          DeleteChunk d.chunkId), fs') ∧
      fs' = { fs with leaves := setFattr (fs.leaves.filter fun x => !isLater fid c.offset x) fid fa' } ∧
      getalloc fs'.leaves fid = ((getalloc fs.leaves fid).filter fun d => decide (d.offset ≤ c.offset)) ∧
      getFattr fs'.leaves fid = some fa' ∧ fa' = fa.truncated env (getalloc fs'.leaves fid).length ∧
      truncateCalls env' fs' fid offset = some (0, 0, [TruncateChunk c.chunkId (offset - c.offset)],
        { fs' with leaves := setFattr fs'.leaves fid { fa' with mtime := env'.now } })) ∧
    ((∀ c ∈ getalloc fs.leaves fid, c.offset ≠ chunkStartOffset offset) → ∃ fs',
      truncateCalls env fs fid offset = some (1, chunkStartOffset offset, [], fs') ∧
      fs' = { fs with leaves := setFattr fs.leaves fid { fa with filesize := -1 } } ∧
      chunks fs'.leaves = chunks fs.leaves ∧
      truncateCalls env' fs' fid offset = some (1, chunkStartOffset offset, [], fs')) := by
  have hid : fa.id = fid := (getFattr_some hf).2
  refine ⟨fun c hm hs => ?_, fun hs => ?_⟩
  · have hcut := truncateCalls_cut ho hn hf ht hc h0 env hm hs
    generalize hk : ((getalloc fs.leaves fid).filter fun d => decide (d.offset ≤ c.offset)) = kept at hcut ⊢
    generalize hr : (fs.leaves.filter fun x => !isLater fid c.offset x) = rest at hcut ⊢
    have hrest : Ordered (rest.map Meta.key) := hr ▸ ho.sublist (List.filter_sublist.map _)
    have hget : getalloc (setFattr rest fid (fa.truncated env kept.length)) fid = kept := by
      rw [getalloc_setFattr (f := fa.truncated env kept.length) hid, ← hr, getalloc_filter_later, hk]
    have hfat : getFattr (setFattr rest fid (fa.truncated env kept.length)) fid = some (fa.truncated env kept.length) :=
      getFattr_setFattr (hr ▸ (getFattr_filter_later c.offset).trans hf) hid
    refine ⟨_, _, hcut, rfl, hget, hfat, by rw [hget], ?_⟩
    have hmk : c ∈ kept := hk ▸ List.mem_filter.mpr ⟨hm, by simp⟩
    have hlast : ∀ d ∈ kept, d.offset ≤ c.offset := fun d hd => by
      rw [← hk] at hd
      simpa using (List.mem_filter.mp hd).2
    have hnk : (kept.map MetaChunkInfo.offset).Nodup := hk ▸ hn.sublist (List.filter_sublist.map _)
    rw [← hget] at hmk hlast hnk
    exact @truncateCalls_again { fs with leaves := setFattr rest fid (fa.truncated env kept.length) } _ _ _
      (ordered_setFattr hrest hid) hnk hfat ht (by rw [hget]; rfl) h0 env' _ hmk hs hlast rfl
  · have hchunks : chunks (setFattr fs.leaves fid { fa with filesize := -1 }) = chunks fs.leaves := chunks_setFattr hid
    refine ⟨_, truncateCalls_hole ho hf ht hc env hs, rfl, hchunks, ?_⟩
    have hget : getalloc (setFattr fs.leaves fid { fa with filesize := -1 }) fid = getalloc fs.leaves fid :=
      getalloc_setFattr (f := { fa with filesize := -1 }) hid fid
    have hagain := @truncateCalls_hole { fs with leaves := setFattr fs.leaves fid { fa with filesize := -1 } } fid
      offset { fa with filesize := -1 } (ordered_setFattr ho hid) (getFattr_setFattr hf hid) ht
      (by rw [hget]; exact hc) env' (by rw [hget]; exact hs)
    have hset : setFattr (setFattr fs.leaves fid { fa with filesize := -1 }) fid { fa with filesize := -1 } =
        setFattr fs.leaves fid { fa with filesize := -1 } := setFattr_setFattr hid
    exact hagain.trans (by simp only [hset])

/-- A file with three chunks and a hole before the last one, at time 0. -/
def threeChunks : Fs :=
  ⟨[.fattr ⟨3, .file, 1, ⟨0, 0⟩, ⟨0, 0⟩, ⟨0, 0⟩, 3, -1⟩, .chunkinfo ⟨3, 0, 7, 1⟩,
    .chunkinfo ⟨3, CHUNKSIZE, 8, 1⟩, .chunkinfo ⟨3, 3 * CHUNKSIZE, 9, 1⟩], 3, 9, 1, 1⟩

theorem threeChunks_cut : ∃ fs' fa',
    truncateCalls ⟨⟨1, 0⟩, fun _ => false⟩ threeChunks 3 (CHUNKSIZE + 5) =
      some (0, 0, [TruncateChunk 8 5, DeleteChunk 9], fs') ∧
    getalloc fs'.leaves 3 = [⟨3, 0, 7, 1⟩, ⟨3, CHUNKSIZE, 8, 1⟩] ∧
    getFattr fs'.leaves 3 = some fa' ∧ fa'.chunkcount = 2 ∧
    truncateCalls ⟨⟨2, 0⟩, fun _ => false⟩ fs' 3 (CHUNKSIZE + 5) = some (0, 0, [TruncateChunk 8 5],
      { fs' with leaves := setFattr fs'.leaves 3 { fa' with mtime := ⟨2, 0⟩ } }) := by
  have hf : getFattr threeChunks.leaves 3 = some ⟨3, .file, 1, ⟨0, 0⟩, ⟨0, 0⟩, ⟨0, 0⟩, 3, -1⟩ := by decide
  obtain ⟨fs', fa', h₁, -, h₂, h₃, h₄, h₅⟩ := (@truncate_exact threeChunks _ (CHUNKSIZE + 5) _ (by decide) (by decide)
    hf rfl (by decide) (by decide) ⟨⟨1, 0⟩, fun _ => false⟩ ⟨⟨2, 0⟩, fun _ => false⟩).1 ⟨3, CHUNKSIZE, 8, 1⟩ (by decide)
      (by decide)
  have hk : ((getalloc threeChunks.leaves 3).filter fun d => decide (d.offset ≤ CHUNKSIZE)) =
      [⟨3, 0, 7, 1⟩, ⟨3, CHUNKSIZE, 8, 1⟩] := by decide
  have hget := h₂.trans hk
  exact ⟨fs', fa', h₁, hget, h₃, by rw [h₄, hget]; rfl, h₅⟩

/-- The second truncation changes the time of modification. -/
theorem truncate_twice_mtime : ∃ fs' fs'', truncate ⟨⟨1, 0⟩, fun _ => false⟩ threeChunks 3 5 = some (0, 0, fs') ∧
    truncate ⟨⟨2, 0⟩, fun _ => false⟩ fs' 3 5 = some (0, 0, fs'') ∧
    (getFattr fs'.leaves 3).map MetaFattr.mtime = some ⟨1, 0⟩ ∧
    (getFattr fs''.leaves 3).map MetaFattr.mtime = some ⟨2, 0⟩ ∧ fs'' ≠ fs' := by
  refine ⟨_, _, rfl, rfl, ?_, ?_, ?_⟩ <;> decide

end Kfs
