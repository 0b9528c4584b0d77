import Kfs.Server.Held

/-!
# Internal allocations

An allocation that `handle_truncate` makes has no client, and the truncation that it was made for. The dispatcher gives
a client the answer of an allocation whose incarnation step is on disk, and asserts that there is a client.

* `Links`, `Links.set`, `Links.erase`, `Links.hold`: what a request refers to is suspended, and nothing else refers to
  it;
* `Queues`, `Queues.advance`: what is queued is not suspended, and nothing refers to what waits for RPCs;
* `Wired.step`: a step keeps both, as long as internal allocations come back without an error;
* `Answers`: the assertions of `NetDispatch::Dispatch`, and what it does with an internal allocation;
* **`dispatch_answers`**: they hold along every such run; `internalRun_aborts`: they fail after an error.
-/

namespace Kfs

/-- The request that another one refers to. -/
def Request.target (q : Request) : Option ReqId :=
  match q.op with
  | .allocate a => a.req
  | .changeChunkVersionInc _ t => t
  | _ => none

theorem Request.Keeps.refl (q : Request) : q.Keeps q := ⟨rfl, .inl rfl⟩

theorem Request.Keeps.trans {q q' c : Request} (h : q.Keeps q') (h' : q'.Keeps c) : q.Keeps c := by
  refine ⟨h'.clnt.trans h.clnt, ?_⟩
  rcases h'.op with heq | ⟨a, b, ha, hb, hreq⟩
  · rw [heq]
    exact h.op
  · rcases h.op with heq | ⟨a', b', ha', hb', hreq'⟩
    · exact .inr ⟨a, b, heq ▸ ha, hb, hreq⟩
    · obtain rfl := ProcOp.allocate.inj (ha.symm.trans hb')
      exact .inr ⟨a', b, ha', hb, hreq.trans hreq'⟩

theorem Request.Keeps.target {q q' : Request} (h : q.Keeps q') : q'.target = q.target := by
  unfold Request.target
  rcases h.op with heq | ⟨a, a', ha, ha', hreq⟩
  · rw [heq]
  · rw [ha, ha']
    exact hreq

namespace Processor

variable {p p' : Processor} {e : ProcEv} {n r t x : ReqId} {q q' : Request} {w : Finds}
  {reqs : ReqId → Option Request}

/-! ## References -/

/-- What a request refers to is there: an allocation has a client or the truncation that it was made for, and an
incarnation step the allocation of a client. -/
def Linked (reqs : ReqId → Option Request) (q : Request) : Prop :=
  match q.op with
  | .allocate a => (q.clnt = true ∧ a.req = none) ∨ (q.clnt = false ∧ ∃ t fid offset status,
      a.req = some t ∧ reqs t = some ⟨.truncate fid offset, status, true, true⟩)
  | .truncate _ _ => q.clnt = true
  | .changeChunkVersionInc _ t => q.clnt = false ∧ ∃ r a status,
      t = some r ∧ reqs r = some ⟨.allocate a, status, true, true⟩
  | .other => True

/-- No request refers to `r`. -/
def Free (reqs : ReqId → Option Request) (r : ReqId) : Prop := ∀ x q, reqs x = some q → q.target ≠ some r

/-- The requests refer to suspended ones, no two of them to the same. -/
structure Links (reqs : ReqId → Option Request) : Prop where
  linked : ∀ r q, reqs r = some q → Linked reqs q
  once : ∀ x y q q' t, reqs x = some q → reqs y = some q' → q.target = some t → q'.target = some t → x = y

/-- A request refers to a suspended one. -/
theorem Linked.target (h : Linked reqs q) (ht : q.target = some t) : ∃ c, reqs t = some c ∧ c.suspended = true := by
  obtain ⟨op, status, suspended, clnt⟩ := q
  cases op with
  | allocate a =>
    have ht : a.req = some t := ht
    rcases h with ⟨-, hn⟩ | ⟨-, t', fid, offset, st, htt, hr⟩
    · rw [hn] at ht
      cases ht
    · obtain rfl : t' = t := Option.some.inj (htt.symm.trans ht)
      exact ⟨_, hr, rfl⟩
  | changeChunkVersionInc cvi s =>
    obtain ⟨-, r, a, st, htt, hr⟩ := h
    obtain rfl : r = t := Option.some.inj (htt.symm.trans ht)
    exact ⟨_, hr, rfl⟩
  | truncate | other => cases ht

/-- Nothing refers to a request that is not suspended, or is not there. -/
theorem Links.free (h : Links reqs) (hr : ∀ q, reqs r = some q → q.suspended = false) : Free reqs r := by
  intro x q hx ht
  obtain ⟨c, hc, hs⟩ := (h.linked x q hx).target ht
  exact Bool.false_ne_true ((hr c hc).symm.trans hs)

theorem Linked.keeps (h : Linked reqs q) (hk : q.Keeps q') : Linked reqs q' := by
  unfold Linked at h ⊢
  rw [hk.clnt]
  rcases hk.op with heq | ⟨a, a', ha, ha', hreq⟩
  · rwa [heq]
  · rw [ha] at h
    rw [ha']
    simpa only [hreq] using h

/-- A request stays linked when one that it does not refer to changes. -/
theorem Linked.update {c : Option Request} (h : Linked reqs q) (hne : q.target ≠ some r) :
    Linked (Function.update reqs r c) q := by
  obtain ⟨op, status, suspended, clnt⟩ := q
  cases op with
  | allocate a =>
    refine h.imp_right fun ⟨hc, t, fid, offset, st, ht, hr⟩ => ⟨hc, t, fid, offset, st, ht, ?_⟩
    have htr : t ≠ r := by
      rintro rfl
      exact hne ht
    rwa [Function.update_of_ne htr]
  | changeChunkVersionInc cvi s =>
    obtain ⟨hc, t, a, st, ht, hr⟩ := h
    refine ⟨hc, t, a, st, ht, ?_⟩
    have htr : t ≠ r := by
      rintro rfl
      exact hne ht
    rwa [Function.update_of_ne htr]
  | truncate | other => exact h

/-- A request that nothing refers to changes, or is made. -/
theorem Links.set (h : Links reqs) (hf : Free reqs r) (hq : Linked reqs q) (hne : q.target ≠ some r)
    (hone : ∀ x c t, x ≠ r → reqs x = some c → q.target = some t → c.target ≠ some t) :
    Links (Function.update reqs r (some q)) where
  linked x c hx := by
    by_cases hxr : x = r
    · rw [hxr, Function.update_self] at hx
      obtain rfl := Option.some.inj hx
      exact hq.update hne
    · rw [Function.update_of_ne hxr] at hx
      exact (h.linked x c hx).update (hf x c hx)
  once x y c c' t hx hy ht ht' := by
    by_cases hxr : x = r
    · by_cases hyr : y = r
      · exact hxr.trans hyr.symm
      · rw [hxr, Function.update_self] at hx
        obtain rfl := Option.some.inj hx
        rw [Function.update_of_ne hyr] at hy
        exact absurd ht' (hone y c' t hyr hy ht)
    · rw [Function.update_of_ne hxr] at hx
      by_cases hyr : y = r
      · rw [hyr, Function.update_self] at hy
        obtain rfl := Option.some.inj hy
        exact absurd ht (hone x c t hxr hx ht')
      · rw [Function.update_of_ne hyr] at hy
        exact h.once x y c c' t hx hy ht ht'

/-- A handler changes a request. -/
theorem Links.change (h : Links reqs) (hr : reqs r = some q) (hf : Free reqs r) (hk : q.Keeps q') :
    Links (Function.update reqs r (some q')) := by
  refine h.set hf ((h.linked r q hr).keeps hk) (hk.target ▸ hf r q hr) fun x c t hx hc hq' hct => ?_
  exact hx (h.once x r c q t hc hr hct (hk.target ▸ hq'))

/-- A request that refers to nothing. -/
theorem Links.plain (h : Links reqs) (hf : Free reqs r) (hl : Linked reqs q) (ht : q.target = none) :
    Links (Function.update reqs r (some q)) := by
  refine h.set hf hl (by simp [ht]) fun x c t _ _ hq => ?_
  rw [ht] at hq
  cases hq

theorem Links.erase (h : Links reqs) (hf : Free reqs r) : Links (Function.update reqs r none) where
  linked x c hx := by
    by_cases hxr : x = r
    · rw [hxr, Function.update_self] at hx
      cases hx
    · rw [Function.update_of_ne hxr] at hx
      exact (h.linked x c hx).update (hf x c hx)
  once x y c c' t hx hy ht ht' := by
    have hne : ∀ z d, Function.update reqs r none z = some d → reqs z = some d := by
      intro z d hz
      by_cases hzr : z = r
      · rw [hzr, Function.update_self] at hz
        cases hz
      · rwa [Function.update_of_ne hzr] at hz
    exact h.once x y c c' t (hne x c hx) (hne y c' hy) ht ht'

/-- Nothing refers to a request after the one that did is destroyed. -/
theorem Links.free_erase (h : Links reqs) (hr : reqs r = some q) (ht : q.target = some t) :
    Free (Function.update reqs r none) t := by
  intro x c hx hct
  by_cases hxr : x = r
  · rw [hxr, Function.update_self] at hx
    cases hx
  · rw [Function.update_of_ne hxr] at hx
    exact hxr (h.once x r c q t hx hr hct ht)

theorem Free.update {c : Option Request} (h : Free reqs t) (hc : ∀ q, c = some q → q.target ≠ some t) :
    Free (Function.update reqs r c) t := by
  intro x q hx
  by_cases hxr : x = r
  · rw [hxr, Function.update_self] at hx
    exact hc q hx
  · rw [Function.update_of_ne hxr] at hx
    exact h x q hx

theorem Free.keeps (h : Free reqs t) (hr : reqs r = some q) (hk : q.Keeps q') :
    Free (Function.update reqs r (some q')) t := by
  refine h.update fun c hc => ?_
  rw [← Option.some.inj hc, hk.target]
  exact h r q hr

/-- The new request `n` refers to `r`. -/
theorem Links.hold {c : Request} (h : Links reqs) (hr : reqs r = some q) (hfr : Free reqs r) (hfn : Free reqs n)
    (hnr : n ≠ r) (hk : q.Keeps q') (hc : c.target = some r) (hl : Linked (Function.update reqs r (some q')) c) :
    Links (Function.update (Function.update reqs r (some q')) n (some c)) := by
  refine (h.change hr hfr hk).set (hfn.keeps hr hk) hl ?_ fun x c' t _ hx ht => ?_
  · rw [hc]
    exact fun heq => hnr (Option.some.inj heq).symm
  · rw [hc] at ht
    exact Option.some.inj ht ▸ hfr.keeps hr hk x c' hx

/-! ## Queues -/

/-- What is queued is not suspended; what waits for RPCs is, and nothing refers to it. An internal allocation comes back
without an error. -/
structure Queues (p : Processor) : Prop where
  below : ∀ r q, p.reqs r = some q → r < p.next
  nodup : p.moving.Nodup
  idle : ∀ r ∈ p.moving, ∃ q, p.reqs r = some q ∧ q.suspended = false
  fanNodup : p.fanIns.Nodup
  fan : ∀ r ∈ p.fanIns, Free p.reqs r ∧ ∃ a status clnt, p.reqs r = some ⟨.allocate a, status, true, clnt⟩
  ready : ∀ r ∈ p.requestList, ∀ a status suspended, p.reqs r = some ⟨.allocate a, status, suspended, false⟩ →
    a.layoutDone = true → status = 0

/-- The processor is in order. -/
structure Wired (p : Processor) : Prop where
  links : Links p.reqs
  queues : Queues p

theorem Wired.fresh (h : Wired p) : p.reqs p.next = none := by
  cases hn : p.reqs p.next with
  | none => rfl
  | some q => exact absurd (h.queues.below p.next q hn) (lt_irrefl _)

theorem Wired.moving_free (h : Wired p) (hr : r ∈ p.moving) : Free p.reqs r := by
  obtain ⟨q, hq, hs⟩ := h.queues.idle r hr
  refine h.links.free fun c hc => ?_
  rw [← Option.some.inj (hq.symm.trans hc)]
  exact hs

theorem Wired.next_free (h : Wired p) : Free p.reqs p.next := by
  refine h.links.free fun c hc => ?_
  rw [h.fresh] at hc
  cases hc

/-- What waits for RPCs is not queued. -/
theorem Queues.apart (h : Queues p) (hr : r ∈ p.fanIns) : r ∉ p.moving := by
  intro hm
  obtain ⟨q, hq, hs⟩ := h.idle r hm
  obtain ⟨-, a, status, clnt, hf⟩ := h.fan r hr
  rw [← Option.some.inj (hf.symm.trans hq)] at hs
  cases hs

/-- What is made next is nowhere yet. -/
theorem Queues.next_new (h : Queues p) : p.next ∉ p.moving ∧ p.next ∉ p.fanIns := by
  refine ⟨fun hm => ?_, fun hm => ?_⟩
  · obtain ⟨c, hc, -⟩ := h.idle _ hm
    exact lt_irrefl _ (h.below _ c hc)
  · obtain ⟨-, a, st, clnt, hc⟩ := h.fan _ hm
    exact lt_irrefl _ (h.below _ _ hc)

/-- **The rule for the queues.** `C` are the requests that a step changes. -/
theorem Queues.advance (h : Queues p) (C : List ReqId) (hnext : p.next ≤ p'.next)
    (hsame : ∀ x, x ∉ C → p'.reqs x = p.reqs x) (hbelow : ∀ x ∈ C, x < p'.next) (hnd : p'.moving.Nodup)
    (hmov : ∀ x ∈ p'.moving, x ∉ C → x ∈ p.moving)
    (hidle : ∀ x ∈ p'.moving, x ∈ C → ∃ q, p'.reqs x = some q ∧ q.suspended = false) (hfn : p'.fanIns.Nodup)
    (hfan : ∀ x ∈ p'.fanIns, Free p'.reqs x ∧ ((x ∈ p.fanIns ∧ x ∉ C) ∨
      ∃ a status clnt, p'.reqs x = some ⟨.allocate a, status, true, clnt⟩))
    (hlist : ∀ x ∈ p'.requestList, x ∉ C → x ∈ p.requestList)
    (hready : ∀ x ∈ p'.requestList, x ∈ C → ∀ a status suspended,
      p'.reqs x = some ⟨.allocate a, status, suspended, false⟩ → a.layoutDone = true → status = 0) : Queues p' := by
  refine ⟨fun x q hq => ?_, hnd, fun x hx => ?_, hfn, fun x hx => ?_, fun x hx a status suspended hq hd => ?_⟩
  · by_cases hxC : x ∈ C
    · exact hbelow x hxC
    · rw [hsame x hxC] at hq
      exact (h.below x q hq).trans_le hnext
  · by_cases hxC : x ∈ C
    · exact hidle x hx hxC
    · rw [hsame x hxC]
      exact h.idle x (hmov x hx hxC)
  · obtain ⟨hf, ⟨hold, hxC⟩ | hnew⟩ := hfan x hx
    · refine ⟨hf, ?_⟩
      rw [hsame x hxC]
      exact (h.fan x hold).2
    · exact ⟨hf, hnew⟩
  · by_cases hxC : x ∈ C
    · exact hready x hx hxC a status suspended hq hd
    · rw [hsame x hxC] at hq
      exact h.ready x (hlist x hx hxC) a status suspended hq hd

theorem update_same {c : Option Request} : ∀ x, x ∉ [r] → Function.update reqs r c x = reqs x :=
  fun _ hx => Function.update_of_ne (fun heq => hx (List.mem_singleton.mpr heq)) _ _

/-- A new request arrives. -/
theorem Wired.arrive (h : Wired p) (hl : ∀ reqs, Linked reqs q) (ht : q.target = none) (hs : q.suspended = false)
    (hd : ∀ a, q.op = .allocate a → a.layoutDone = false) : Wired ((p.new q).submit_request p.next) := by
  obtain ⟨hnew, hnf⟩ := h.queues.next_new
  have hmov : (p.requestList ++ [p.next] ++ p.oplog).Perm (p.next :: p.moving) := by
    rw [List.append_assoc]
    exact List.perm_middle
  refine ⟨h.links.plain h.next_free (hl _) ht, ?_⟩
  refine h.queues.advance [p.next] (Nat.le_succ _) update_same ?_ ?_ ?_ ?_ h.queues.fanNodup ?_ ?_ ?_
  · intro x hx
    rw [List.mem_singleton.mp hx]
    exact Nat.lt_succ_self _
  · exact hmov.nodup_iff.mpr (List.nodup_cons.mpr ⟨hnew, h.queues.nodup⟩)
  · intro x hx hxC
    exact (List.mem_cons.mp (hmov.subset hx)).resolve_left fun heq => hxC (List.mem_singleton.mpr heq)
  · intro x _ hxC
    rw [List.mem_singleton.mp hxC]
    exact ⟨q, Function.update_self _ _ _, hs⟩
  · intro x hx
    have hold := h.queues.fan x hx
    refine ⟨hold.1.update fun c hc => ?_, .inl ⟨hx, fun hxC => ?_⟩⟩
    · rw [← Option.some.inj hc, ht]
      simp
    · rw [List.mem_singleton.mp hxC] at hx
      exact hnf hx
  · intro x hx hxC
    exact (List.mem_append.mp hx).resolve_right hxC
  · intro x _ hxC a status suspended hr hdone
    rw [List.mem_singleton.mp hxC] at hr
    change Function.update p.reqs p.next (some q) p.next = _ at hr
    rw [Function.update_self] at hr
    rw [hd a (by rw [Option.some.inj hr])] at hdone
    cases hdone

/-! ## Steps -/

section Head

variable {rest : List ReqId}

/-- The head of the queue is nowhere else. -/
theorem Queues.head (h : Queues p) (hl : p.requestList = r :: rest) : r ∈ p.moving ∧ r ∉ rest ++ p.oplog ∧
    (rest ++ p.oplog).Nodup ∧ rest ++ p.oplog ⊆ p.moving := by
  have hmov : p.moving = r :: (rest ++ p.oplog) := by simp [moving, hl]
  have hnd := h.nodup
  rw [hmov] at hnd ⊢
  obtain ⟨hnot, hnd⟩ := List.nodup_cons.mp hnd
  exact ⟨List.mem_cons_self, hnot, hnd, List.subset_cons_self _ _⟩

theorem Queues.head_idle (h : Queues p) (hl : p.requestList = r :: rest) (hq : p.reqs r = some q) :
    q.suspended = false := by
  obtain ⟨c, hc, hidle⟩ := h.idle r (h.head hl).1
  rw [Option.some.inj (hq.symm.trans hc)]
  exact hidle

/-- The head of the log is nowhere else. -/
theorem Queues.logged (h : Queues p) (hl : p.oplog = r :: rest) : r ∈ p.moving ∧ r ∉ p.requestList ++ rest ∧
    (p.requestList ++ rest).Nodup ∧ p.requestList ++ rest ⊆ p.moving := by
  have hmov : p.moving.Perm (r :: (p.requestList ++ rest)) := by
    unfold moving
    rw [hl]
    exact List.perm_middle
  obtain ⟨hnot, hnd⟩ := List.nodup_cons.mp (hmov.nodup_iff.mp h.nodup)
  exact ⟨hmov.symm.subset List.mem_cons_self, hnot, hnd, fun x hx => hmov.symm.subset (List.mem_cons_of_mem r hx)⟩

/-- What waits for RPCs still does, and nothing refers to it. -/
theorem Wired.fan_keeps (h : Wired p) (hr : r ∈ p.moving) (hq : p.reqs r = some q) (hk : q.Keeps q')
    (hx : x ∈ p.fanIns) : Free (Function.update p.reqs r (some q')) x ∧ x ∉ [r] := by
  refine ⟨(h.queues.fan x hx).1.keeps hq hk, fun hxr => ?_⟩
  rw [List.mem_singleton.mp hxr] at hx
  exact h.queues.apart hx hr

theorem Wired.finish (h : Wired p) (hl : p.requestList = r :: rest) (hq : p.reqs r = some q) (hk : q.Keeps q')
    (hs : q'.suspended = false) (fs : Fs) :
    Wired ⟨fs, Function.update p.reqs r (some q'), p.next, rest, p.fanIns, p.oplog ++ [r]⟩ := by
  obtain ⟨hr, hnot, -, -⟩ := h.queues.head hl
  have hmov : (rest ++ (p.oplog ++ [r])).Perm p.moving := by
    have heq : p.moving = r :: (rest ++ p.oplog) := by simp [moving, hl]
    rw [heq, ← List.append_assoc]
    exact List.perm_append_comm
  refine ⟨h.links.change hq (h.moving_free hr) hk, ?_⟩
  refine h.queues.advance [r] le_rfl update_same ?_ (hmov.nodup_iff.mpr h.queues.nodup) ?_ ?_ h.queues.fanNodup ?_ ?_ ?_
  · intro x hx
    rw [List.mem_singleton.mp hx]
    exact h.queues.below r q hq
  · exact fun x hx _ => hmov.subset hx
  · intro x _ hxr
    rw [List.mem_singleton.mp hxr]
    exact ⟨q', Function.update_self _ _ _, hs⟩
  · intro x hx
    obtain ⟨hf, hxr⟩ := h.fan_keeps hr hq hk hx
    exact ⟨hf, .inl ⟨hx, hxr⟩⟩
  · intro x hx _
    rw [hl]
    exact List.mem_cons_of_mem _ hx
  · intro x hx hxr
    rw [List.mem_singleton.mp hxr] at hx
    exact absurd (List.mem_append_left _ hx) hnot

theorem Wired.fan (h : Wired p) (hl : p.requestList = r :: rest) (hq : p.reqs r = some q) {a : AllocateReq} {st : ℤ}
    {clnt : Bool} (hk : q.Keeps ⟨.allocate a, st, true, clnt⟩) (fs : Fs) :
    Wired ⟨fs, Function.update p.reqs r (some ⟨.allocate a, st, true, clnt⟩), p.next, rest, p.fanIns ++ [r],
      p.oplog⟩ := by
  obtain ⟨hr, hnot, hnd, hin⟩ := h.queues.head hl
  have hrf : r ∉ p.fanIns := fun hf => h.queues.apart hf hr
  refine ⟨h.links.change hq (h.moving_free hr) hk, ?_⟩
  refine h.queues.advance [r] le_rfl update_same ?_ hnd (fun x hx _ => hin hx) ?_ ?_ ?_ ?_ ?_
  · intro x hx
    rw [List.mem_singleton.mp hx]
    exact h.queues.below r q hq
  · intro x hx hxr
    rw [List.mem_singleton.mp hxr] at hx
    exact absurd hx hnot
  · refine List.nodup_append.mpr ⟨h.queues.fanNodup, List.nodup_singleton r, fun x hx y hy => ?_⟩
    rw [List.mem_singleton.mp hy]
    rintro rfl
    exact hrf hx
  · intro x hx
    rcases List.mem_append.mp hx with hx | hx
    · obtain ⟨hf, hxr⟩ := h.fan_keeps hr hq hk hx
      exact ⟨hf, .inl ⟨hx, hxr⟩⟩
    · rw [List.mem_singleton.mp hx]
      exact ⟨(h.moving_free hr).keeps hq hk, .inr ⟨a, st, clnt, Function.update_self _ _ _⟩⟩
  · intro x hx _
    rw [hl]
    exact List.mem_cons_of_mem _ hx
  · intro x hx hxr
    rw [List.mem_singleton.mp hxr] at hx
    exact absurd (List.mem_append_left _ hx) hnot

/-- The new request `c` refers to the head of the queue, which is suspended. -/
theorem Wired.hold (h : Wired p) (hl : p.requestList = r :: rest) (hq : p.reqs r = some q) (hk : q.Keeps q')
    {c : Request} (hc : c.target = some r) (hlink : Linked (Function.update p.reqs r (some q')) c) {L F : List ReqId}
    (hL : L = rest ∨ (L = rest ++ [p.next] ∧ c.suspended = false ∧ ∀ a, c.op ≠ .allocate a))
    (hF : F = p.fanIns ∨ (F = p.fanIns ++ [p.next] ∧ ∃ a st clnt, c = ⟨.allocate a, st, true, clnt⟩)) (fs : Fs) :
    Wired ⟨fs, Function.update (Function.update p.reqs r (some q')) p.next (some c), p.next + 1, L, F, p.oplog⟩ := by
  obtain ⟨hr, hnot, hnd, hin⟩ := h.queues.head hl
  have hrest : rest ⊆ p.requestList := by
    rw [hl]
    exact List.subset_cons_self r rest
  have hrn : r < p.next := h.queues.below r q hq
  obtain ⟨hnm, hnf⟩ := h.queues.next_new
  have hsame : ∀ x, x ∉ [r, p.next] →
      Function.update (Function.update p.reqs r (some q')) p.next (some c) x = p.reqs x := by
    intro x hx
    rw [List.mem_cons, List.mem_singleton, not_or] at hx
    rw [Function.update_of_ne hx.2, Function.update_of_ne hx.1]
  have hL' : (L ++ p.oplog).Nodup ∧ ∀ x ∈ L ++ p.oplog, x ∈ rest ++ p.oplog ∨ (x = p.next ∧ c.suspended = false) := by
    rcases hL with rfl | ⟨rfl, hs, -⟩
    · exact ⟨hnd, fun x hx => .inl hx⟩
    · have hperm : (rest ++ [p.next] ++ p.oplog).Perm (p.next :: (rest ++ p.oplog)) := by
        rw [List.append_assoc]
        exact List.perm_middle
      refine ⟨hperm.nodup_iff.mpr (List.nodup_cons.mpr ⟨fun hm => hnm (hin hm), hnd⟩), fun x hx => ?_⟩
      exact (List.mem_cons.mp (hperm.subset hx)).symm.imp_right fun heq => ⟨heq, hs⟩
  have hself : Function.update (Function.update p.reqs r (some q')) p.next (some c) p.next = some c :=
    Function.update_self _ _ _
  refine ⟨h.links.hold hq (h.moving_free hr) h.next_free hrn.ne' hk hc hlink, ?_⟩
  refine h.queues.advance [r, p.next] (Nat.le_succ _) hsame ?_ hL'.1 ?_ ?_ ?_ ?_ ?_ ?_
  · intro x hx
    rcases List.mem_cons.mp hx with rfl | hx
    · exact hrn.trans (Nat.lt_succ_self _)
    · rw [List.mem_singleton.mp hx]
      exact Nat.lt_succ_self _
  · intro x hx hxC
    rcases hL'.2 x hx with hold | ⟨rfl, -⟩
    · exact hin hold
    · exact absurd (by simp) hxC
  · intro x hx hxC
    rcases hL'.2 x hx with hold | ⟨rfl, hs⟩
    · rcases List.mem_cons.mp hxC with rfl | hxn
      · exact absurd hold hnot
      · rw [List.mem_singleton.mp hxn] at hold
        exact absurd (hin hold) hnm
    · exact ⟨c, hself, hs⟩
  · rcases hF with rfl | ⟨rfl, -⟩
    · exact h.queues.fanNodup
    · refine List.nodup_append.mpr ⟨h.queues.fanNodup, List.nodup_singleton _, fun x hx y hy => ?_⟩
      rw [List.mem_singleton.mp hy]
      rintro rfl
      exact hnf hx
  · have hfree : ∀ x, x ≠ r → Free p.reqs x →
        Free (Function.update (Function.update p.reqs r (some q')) p.next (some c)) x := by
      intro x hx hf
      refine (hf.keeps hq hk).update fun d hd => ?_
      rw [← Option.some.inj hd, hc]
      exact fun heq => hx (Option.some.inj heq).symm
    have hold : ∀ x ∈ p.fanIns, Free (Function.update (Function.update p.reqs r (some q')) p.next (some c)) x ∧
        x ∉ [r, p.next] := by
      intro x hx
      have hxr : x ≠ r := by
        rintro rfl
        exact h.queues.apart hx hr
      have hxn : x ≠ p.next := by
        rintro rfl
        exact hnf hx
      exact ⟨hfree x hxr (h.queues.fan x hx).1, by simp [hxr, hxn]⟩
    intro x hx
    rcases hF with rfl | ⟨rfl, a, st, clnt, rfl⟩
    · exact ⟨(hold x hx).1, .inl ⟨hx, (hold x hx).2⟩⟩
    · rcases List.mem_append.mp hx with hx | hx
      · exact ⟨(hold x hx).1, .inl ⟨hx, (hold x hx).2⟩⟩
      · rw [List.mem_singleton.mp hx]
        exact ⟨hfree _ hrn.ne' h.next_free, .inr ⟨a, st, clnt, hself⟩⟩
  · intro x hx hxC
    rcases hL with rfl | ⟨rfl, -⟩
    · exact hrest hx
    · rcases List.mem_append.mp hx with hx | hx
      · exact hrest hx
      · exact absurd (List.mem_cons_of_mem _ hx) hxC
  · intro x hx hxC a status suspended hxa
    rcases List.mem_cons.mp hxC with rfl | hxn
    · rcases hL'.2 x (List.mem_append_left _ hx) with hold | ⟨rfl, -⟩
      · exact absurd hold hnot
      · exact absurd hrn (lt_irrefl _)
    · rcases hL with rfl | ⟨-, -, hop⟩
      · rw [List.mem_singleton.mp hxn] at hx
        exact absurd (hin (List.mem_append_left _ hx)) hnm
      · rw [List.mem_singleton.mp hxn] at hxa
        exact absurd (congrArg Request.op (Option.some.inj (hself.symm.trans hxa))) (hop a)

/-- The head of the log is destroyed. -/
theorem Wired.reply (h : Wired p) (hl : p.oplog = r :: rest) :
    Wired ⟨p.fs, Function.update p.reqs r none, p.next, p.requestList, p.fanIns, rest⟩ := by
  obtain ⟨hr, hnot, hnd, hin⟩ := h.queues.logged hl
  refine ⟨h.links.erase (h.moving_free hr), ?_⟩
  refine h.queues.advance [r] le_rfl update_same ?_ hnd (fun x hx _ => hin hx) ?_ h.queues.fanNodup ?_ ?_ ?_
  · intro x hx
    obtain ⟨q, hq, -⟩ := h.queues.idle r hr
    rw [List.mem_singleton.mp hx]
    exact h.queues.below r q hq
  · intro x hx hxr
    rw [List.mem_singleton.mp hxr] at hx
    exact absurd hx hnot
  · intro x hx
    refine ⟨(h.queues.fan x hx).1.update (fun q hq => by cases hq), .inl ⟨hx, fun hxr => ?_⟩⟩
    rw [List.mem_singleton.mp hxr] at hx
    exact h.queues.apart hx hr
  · exact fun x hx _ => hx
  · intro x hx hxr
    rw [List.mem_singleton.mp hxr] at hx
    exact absurd (List.mem_append_left _ hx) hnot

/-- The head of the log is destroyed, and what it referred to is destroyed or resumed. -/
theorem Wired.back (h : Wired p) (hl : p.oplog = r :: rest) (hq : p.reqs r = some q) (ht : q.target = some t)
    {c : Option Request} {L : List ReqId} (hc : (c = none ∧ L = p.requestList) ∨
      ∃ fid offset status, c = some ⟨.truncate fid offset, status, false, true⟩ ∧ L = p.requestList ++ [t]) :
    Wired ⟨p.fs, Function.update (Function.update p.reqs t c) r none, p.next, L, p.fanIns, rest⟩ := by
  obtain ⟨hr, hnot, hnd, hin⟩ := h.queues.logged hl
  obtain ⟨d, hd, hsus⟩ := (h.links.linked r q hq).target ht
  have htm : t ∉ p.moving := by
    intro hm
    obtain ⟨q', hq', hidle⟩ := h.queues.idle t hm
    rw [hd] at hq'
    rw [Option.some.inj hq', hidle] at hsus
    cases hsus
  have htr : t ≠ r := by
    rintro rfl
    exact htm hr
  have hcomm : Function.update (Function.update p.reqs t c) r none =
      Function.update (Function.update p.reqs r none) t c := Function.update_comm htr _ _ _
  have hself : Function.update (Function.update p.reqs t c) r none t = c := by
    rw [hcomm, Function.update_self]
  have hplain : ∀ q', c = some q' → q'.target = none ∧ q'.suspended = false ∧ ∀ a, q'.op ≠ .allocate a := by
    intro q' hc'
    rcases hc with ⟨rfl, -⟩ | ⟨fid, offset, status, rfl, -⟩
    · cases hc'
    · obtain rfl := Option.some.inj hc'
      exact ⟨rfl, rfl, fun a ha => by cases ha⟩
  have hL : ∀ x ∈ L, x ∈ p.requestList ∨ (x = t ∧ c ≠ none) := by
    intro x hx
    rcases hc with ⟨-, rfl⟩ | ⟨fid, offset, status, rfl, rfl⟩
    · exact .inl hx
    · exact (List.mem_append.mp hx).imp_right fun hx => ⟨List.mem_singleton.mp hx, by simp⟩
  have hlinks : Links (Function.update (Function.update p.reqs t c) r none) := by
    rw [hcomm]
    have herase := h.links.erase (h.moving_free hr)
    have hfree := h.links.free_erase hq ht
    rcases hc with ⟨rfl, -⟩ | ⟨fid, offset, status, rfl, -⟩
    · exact herase.erase hfree
    · exact herase.plain hfree rfl rfl
  have hmoving : ∀ x ∈ L ++ rest, x ∈ p.requestList ++ rest ∨ (x = t ∧ c ≠ none) := by
    intro x hx
    rcases List.mem_append.mp hx with hx | hx
    · exact (hL x hx).imp_left (List.mem_append_left _)
    · exact .inl (List.mem_append_right _ hx)
  refine ⟨hlinks, h.queues.advance [r, t] le_rfl ?_ ?_ ?_ ?_ ?_ h.queues.fanNodup ?_ ?_ ?_⟩
  · intro x hx
    rw [List.mem_cons, List.mem_singleton, not_or] at hx
    exact (Function.update_of_ne hx.1 _ _).trans (Function.update_of_ne hx.2 _ _)
  · intro x hx
    rcases List.mem_cons.mp hx with rfl | hx
    · exact h.queues.below x q hq
    · rw [List.mem_singleton.mp hx]
      exact h.queues.below t d hd
  · rcases hc with ⟨-, rfl⟩ | ⟨fid, offset, status, -, rfl⟩
    · exact hnd
    · have hperm : (p.requestList ++ [t] ++ rest).Perm (t :: (p.requestList ++ rest)) := by
        rw [List.append_assoc]
        exact List.perm_middle
      exact hperm.nodup_iff.mpr (List.nodup_cons.mpr ⟨fun hm => htm (hin hm), hnd⟩)
  · intro x hx hxC
    rcases hmoving x hx with hold | ⟨rfl, -⟩
    · exact hin hold
    · exact absurd (by simp) hxC
  · intro x hx hxC
    rcases hmoving x hx with hold | ⟨rfl, hne⟩
    · rcases List.mem_cons.mp hxC with rfl | hxt
      · exact absurd hold hnot
      · rw [List.mem_singleton.mp hxt] at hold
        exact absurd (hin hold) htm
    · obtain ⟨q', hc'⟩ := Option.ne_none_iff_exists'.mp hne
      exact ⟨q', hself.trans hc', (hplain q' hc').2.1⟩
  · intro x hx
    have hf := (h.queues.fan x hx).1
    refine ⟨?_, .inl ⟨hx, fun hxC => ?_⟩⟩
    · refine (hf.update fun q' hq' => ?_).update (fun q' hq' => by cases hq')
      rw [(hplain q' hq').1]
      simp
    · rcases List.mem_cons.mp hxC with rfl | hxt
      · exact h.queues.apart hx hr
      · rw [List.mem_singleton.mp hxt] at hf
        exact hf r q hq ht
  · intro x hx hxC
    refine (hL x hx).resolve_right fun hxt => hxC ?_
    rw [hxt.1]
    simp
  · intro x hx hxC a status suspended hxa
    rcases List.mem_cons.mp hxC with rfl | hxt
    · rcases hL x hx with hold | ⟨heq, -⟩
      · exact absurd (List.mem_append_left _ hold) hnot
      · exact absurd heq.symm htr
    · rw [List.mem_singleton.mp hxt] at hxa
      exact absurd rfl ((hplain _ (hself.symm.trans hxa)).2.2 a)

end Head

/-- The RPCs of an allocation have come back: without an error, or a client waits for it. -/
theorem Wired.resume (h : Wired p) {a : AllocateReq} {st status : ℤ} {sus clnt : Bool} (hr : r ∈ p.fanIns)
    (hq : p.reqs r = some ⟨.allocate a, st, sus, clnt⟩) (hw : clnt = false → status = 0) :
    Wired ⟨p.fs, Function.update p.reqs r (some ⟨.allocate { a with layoutDone := true }, status, false, clnt⟩),
      p.next, p.requestList ++ [r], p.fanIns.erase r, p.oplog⟩ := by
  have hk : Request.Keeps ⟨.allocate a, st, sus, clnt⟩
      ⟨.allocate { a with layoutDone := true }, status, false, clnt⟩ := ⟨rfl, .inr ⟨a, _, rfl, rfl, rfl⟩⟩
  have hmov : (p.requestList ++ [r] ++ p.oplog).Perm (r :: p.moving) := by
    rw [List.append_assoc]
    exact List.perm_middle
  refine ⟨h.links.change hq (h.queues.fan r hr).1 hk, ?_⟩
  refine h.queues.advance [r] le_rfl update_same ?_ ?_ ?_ ?_ (h.queues.fanNodup.erase r) ?_ ?_ ?_
  · intro x hx
    rw [List.mem_singleton.mp hx]
    exact h.queues.below r _ hq
  · exact hmov.nodup_iff.mpr (List.nodup_cons.mpr ⟨h.queues.apart hr, h.queues.nodup⟩)
  · intro x hx hxr
    exact (List.mem_cons.mp (hmov.subset hx)).resolve_left fun heq => hxr (List.mem_singleton.mpr heq)
  · intro x _ hxr
    rw [List.mem_singleton.mp hxr]
    exact ⟨_, Function.update_self _ _ _, rfl⟩
  · intro x hx
    obtain ⟨hne, hold⟩ := (List.Nodup.mem_erase_iff h.queues.fanNodup).mp hx
    exact ⟨(h.queues.fan x hold).1.keeps hq hk, .inl ⟨hold, fun hxr => hne (List.mem_singleton.mp hxr)⟩⟩
  · intro x hx hxr
    exact (List.mem_append.mp hx).resolve_right hxr
  · intro x _ hxr a' st' sus' hxa _
    rw [List.mem_singleton.mp hxr] at hxa
    have heq := Option.some.inj ((Function.update_self (f := p.reqs) r _).symm.trans hxa)
    have hst : status = st' := congrArg Request.status heq
    rw [← hst]
    exact hw (congrArg Request.clnt heq)

/-- The RPCs of an allocation without a client come back without an error. -/
def InternalSucceeds (p : Processor) : ProcEv → Prop
  | .resume r status => ∀ q, p.reqs r = some q → q.clnt = false → status = 0
  | _ => True

/-- The allocation that a truncation makes. -/
theorem Wired.spawned_linked (h : Wired p) {fid offset status st : ℤ} {a : AllocateReq} {suspended : Bool}
    (hq : p.reqs r = some q) (hop : q.op = .truncate fid offset) (hreq : a.req = some r) :
    Linked (Function.update p.reqs r (some ⟨.truncate fid offset, status, true, q.clnt⟩))
      ⟨.allocate a, st, suspended, false⟩ := by
  have hclnt : q.clnt = true := by
    have hlink := h.links.linked r q hq
    unfold Linked at hlink
    rwa [hop] at hlink
  refine .inr ⟨rfl, r, fid, offset, status, hreq, ?_⟩
  rw [Function.update_self, hclnt]

theorem Wired.process (h : Wired p) (hs : p.process_request w = some p') : Wired p' := by
  obtain ⟨r, rest, q, hl, hq⟩ := process_request_head hs
  cases process_request_cases hl hq (h.queues.head_idle hl hq) (h.queues.below r q hq).ne hs with
  | finish fs q' hk hidle => exact h.finish hl hq hk hidle fs
  | fan fs a a' status hop hreq => exact h.fan hl hq ⟨rfl, .inr ⟨a, a', hop, rfl, hreq⟩⟩ fs
  | incarnate fs a a' status cvi hop hreq hlay hst =>
    -- an allocation without a client comes back without an error
    have hclnt : q.clnt = true := by
      obtain ⟨op, st, sus, clnt⟩ := q
      subst hop
      cases clnt with
      | true => rfl
      | false => exact absurd (h.queues.ready r (by simp [hl]) a st sus hq hlay) hst
    have hk : q.Keeps ⟨.allocate a', status, true, q.clnt⟩ := ⟨rfl, .inr ⟨a, a', hop, rfl, hreq⟩⟩
    have hc : Linked (Function.update p.reqs r (some ⟨.allocate a', status, true, q.clnt⟩))
        ⟨.changeChunkVersionInc cvi (some r), 0, false, false⟩ := by
      refine ⟨rfl, r, a', status, rfl, ?_⟩
      rw [Function.update_self, hclnt]
    exact h.hold hl hq hk rfl hc (.inr ⟨rfl, rfl, fun b hb => by cases hb⟩) (.inl rfl) fs
  | wait fs fid offset status a st hop hreq =>
    have hk : q.Keeps ⟨.truncate fid offset, status, true, q.clnt⟩ := ⟨rfl, .inl hop.symm⟩
    exact h.hold hl hq hk (by exact hreq) (h.spawned_linked hq hop hreq) (.inl rfl) (.inr ⟨rfl, a, st, false, rfl⟩) fs
  | refuse fs fs' fid offset status allocOffset a st hop hreq hworm ht hst hsend =>
    have hk : q.Keeps ⟨.truncate fid offset, status, true, q.clnt⟩ := ⟨rfl, .inl hop.symm⟩
    exact h.hold hl hq hk (by exact hreq) (h.spawned_linked hq hop hreq) (.inl rfl) (.inl rfl) fs

theorem target_of_ccvi (h : q.ccvi = some t) : q.target = some t := by
  obtain ⟨op, st, sus, clnt⟩ := q
  cases op with
  | changeChunkVersionInc cvi s => exact h
  | allocate | truncate | other => cases h

theorem target_of_alloc (h : q.alloc = some t) : q.target = some t := by
  obtain ⟨op, st, sus, clnt⟩ := q
  cases op with
  | allocate a => exact h
  | changeChunkVersionInc | truncate | other => cases h

theorem Wired.dispatch (h : Wired p) (hs : p.Dispatch = some p') : Wired p' := by
  obtain ⟨r, rest, q, hl, hq, hd⟩ := Dispatch_cases hs
  cases hd with
  | reply => exact h.reply hl
  | retry t fid offset status sus clnt hc ha ht =>
    have hclnt : clnt = true := h.links.linked t _ ht
    rw [hclnt]
    exact h.back hl hq (target_of_alloc ha) (.inr ⟨fid, offset, status, rfl, rfl⟩)
  | release t a status sus hc ha ht => exact h.back hl hq (target_of_ccvi hc) (.inl ⟨rfl, rfl⟩)

/-- **A step keeps the processor in order.** -/
theorem Wired.step (h : Wired p) (hw : p.InternalSucceeds e) (hs : p.step e = some p') : Wired p' := by
  cases e with
  | allocate fid offset =>
    obtain rfl := Option.some.inj hs
    refine h.arrive (fun _ => .inl ⟨rfl, rfl⟩) rfl rfl fun a ha => ?_
    rw [← ProcOp.allocate.inj ha]
  | truncate fid offset =>
    obtain rfl := Option.some.inj hs
    exact h.arrive (fun _ => rfl) rfl rfl fun a ha => by cases ha
  | other clnt =>
    obtain rfl := Option.some.inj hs
    exact h.arrive (fun _ => trivial) rfl rfl fun a ha => by cases ha
  | process w => exact h.process hs
  | resume r status =>
    obtain ⟨hr, a, st, sus, clnt, hq, rfl⟩ := resume_cases hs
    exact h.resume hr hq (hw _ hq)
  | dispatch => exact h.dispatch hs

/-- The condition along a run. -/
def InternalsSucceed (p : Processor) : List ProcEv → Prop
  | [] => True
  | e :: es => p.InternalSucceeds e ∧
      match p.step e with
      | some p' => p'.InternalsSucceed es
      | none => True

theorem Wired.run : ∀ {es : List ProcEv} {p : Processor}, Wired p → p.InternalsSucceed es → p.run es = some p' →
    Wired p'
  | [], p, h, _, hr => by
    obtain rfl : p = p' := by simpa [Processor.run] using hr
    exact h
  | e :: es, p, h, ⟨hw, hws⟩, hr => by
    obtain ⟨p₁, hs, hr⟩ := Option.bind_eq_some_iff.mp hr
    rw [hs] at hws
    exact (h.step hw hs).run hws hr

theorem start_wired (fs : Fs) : Wired (start fs) := by
  refine ⟨⟨fun r q hq => ?_, fun x y q q' t hx => ?_⟩, ⟨fun r q hq => ?_, List.nodup_nil, fun r hr => ?_,
    List.nodup_nil, fun r hr => ?_, fun r hr => ?_⟩⟩
  · cases hq
  · cases hx
  · cases hq
  · cases hr
  · cases hr
  · cases hr

/-! ## Answers -/

/-- The assertions of `NetDispatch::Dispatch`, and the truncation of an internal allocation. -/
structure Answers (p : Processor) : Prop where
  dispatch : p.oplog ≠ [] → ∃ p', p.Dispatch = some p'
  incarnation : ∀ n ∈ p.oplog, ∀ q cvi s, p.reqs n = some q → q.op = .changeChunkVersionInc cvi s →
    ∃ t a status, s = some t ∧ p.reqs t = some ⟨.allocate a, status, true, true⟩
  internal : ∀ n ∈ p.oplog, ∀ q a, p.reqs n = some q → q.op = .allocate a → q.clnt = false →
    ∃ t fid offset status, a.req = some t ∧ p.reqs t = some ⟨.truncate fid offset, status, true, true⟩ ∧ t ∉ p.moving
  once : ∀ n rest q a t p', p.oplog = n :: rest → p.reqs n = some q → q.op = .allocate a → q.clnt = false →
    a.req = some t → p.Dispatch = some p' → p'.requestList.count t = 1 ∧ t ∉ p'.oplog ∧
      (∃ c, p'.reqs t = some c ∧ c.suspended = false) ∧ p'.reqs n = none ∧ Free p'.reqs t

theorem Wired.target_apart (h : Wired p) (hq : p.reqs r = some q) (ht : q.target = some t) : t ∉ p.moving := by
  intro hm
  obtain ⟨c, hc, hs⟩ := (h.links.linked r q hq).target ht
  obtain ⟨c', hc', hidle⟩ := h.queues.idle t hm
  rw [Option.some.inj (hc.symm.trans hc'), hidle] at hs
  cases hs

/-- The assertions hold. -/
theorem Wired.dispatch_some (h : Wired p) (hne : p.oplog ≠ []) : ∃ p', p.Dispatch = some p' := by
  obtain ⟨r, rest, hl⟩ := List.exists_cons_of_ne_nil hne
  obtain ⟨hr, -⟩ := h.queues.logged hl
  obtain ⟨q, hq, -⟩ := h.queues.idle r hr
  have hlink := h.links.linked r q hq
  unfold Dispatch
  rw [hl]
  dsimp only
  rw [hq]
  dsimp only
  cases hcl : q.clnt with
  | true => exact ⟨_, if_pos rfl⟩
  | false =>
    rw [if_neg Bool.false_ne_true]
    obtain ⟨op, st, sus, clnt⟩ := q
    cases op with
    | allocate a =>
      rcases hlink with ⟨hc, -⟩ | ⟨-, t, fid, offset, status, hreq, ht⟩
      · exact absurd (hcl.symm.trans hc) Bool.false_ne_true
      · dsimp only
        rw [hreq]
        dsimp only
        rw [ht]
        exact ⟨_, rfl⟩
    | changeChunkVersionInc cvi s =>
      obtain ⟨-, t, a, status, rfl, ht⟩ := hlink
      dsimp only
      rw [ht]
      exact ⟨_, rfl⟩
    | truncate | other => exact ⟨_, rfl⟩

theorem Wired.answers (h : Wired p) : Answers p where
  dispatch := h.dispatch_some
  incarnation n _ q cvi s hq hop := by
    have hlink := h.links.linked n q hq
    obtain ⟨op, st, sus, clnt⟩ := q
    subst hop
    exact hlink.2
  internal n _ q a hq hop hcl := by
    have hlink := h.links.linked n q hq
    have hapart := fun t => h.target_apart (t := t) hq
    obtain ⟨op, st, sus, clnt⟩ := q
    subst hop
    rcases hlink with ⟨hc, -⟩ | ⟨-, t, fid, offset, status, hreq, ht⟩
    · exact absurd (hcl.symm.trans hc) Bool.false_ne_true
    · exact ⟨t, fid, offset, status, hreq, ht, hapart t hreq⟩
  once n rest q a t p' hl hq hop hcl hreq hs := by
    have hw' := h.dispatch hs
    have ht : q.target = some t := by
      unfold Request.target
      rw [hop]
      exact hreq
    have htm := h.target_apart hq ht
    obtain ⟨n', rest', q', hl', hq', hd⟩ := Dispatch_cases hs
    obtain ⟨rfl, rfl⟩ := List.cons.inj (hl.symm.trans hl')
    obtain rfl := Option.some.inj (hq.symm.trans hq')
    have hqa : q.alloc = some t := by
      unfold Request.alloc
      rw [hop]
      exact hreq
    cases hd with
    | reply hnone =>
      rcases hnone with hc | ⟨-, ha⟩
      · exact absurd (hcl.symm.trans hc) Bool.false_ne_true
      · rw [hqa] at ha
        cases ha
    | release s b status sus hc ha hs =>
      rw [hqa] at ha
      cases ha
    | retry s fid offset status sus clnt hc ha hs =>
      obtain rfl : s = t := Option.some.inj (ha.symm.trans hqa)
      have hnl : s ∉ p.requestList := fun hm => htm (List.mem_append_left _ hm)
      have hno : s ∉ rest := fun hm => htm (List.mem_append_right _ (hl ▸ List.mem_cons_of_mem n hm))
      have hsn : s ≠ n := by
        rintro rfl
        exact htm (List.mem_append_right _ (hl ▸ List.mem_cons_self))
      have hself : Function.update (Function.update p.reqs s (some ⟨.truncate fid offset, status, false, clnt⟩)) n none
          s = some ⟨.truncate fid offset, status, false, clnt⟩ := by
        rw [Function.update_of_ne hsn, Function.update_self]
      refine ⟨?_, hno, ⟨_, hself, rfl⟩, Function.update_self _ _ _, hw'.links.free fun c hc => ?_⟩
      · change (p.requestList ++ [s]).count s = 1
        rw [List.count_append, List.count_eq_zero_of_not_mem hnl, List.count_singleton_self]
      · rw [← Option.some.inj (hself.symm.trans hc)]

/-! ## Origins -/

/-- The truncation `t` is handled next, and the request made next is `n`. -/
def Spawns (p : Processor) (t n : ReqId) : Prop :=
  p.requestList.head? = some t ∧ p.next = n ∧ ∃ q fid offset, p.reqs t = some q ∧ q.op = .truncate fid offset

theorem update_keeps {c : Request} (hr : reqs r = some q) (hx : Function.update reqs r (some q') x = some c)
    (hk : q.Keeps q') : ∃ d, reqs x = some d ∧ d.Keeps c := by
  by_cases hxr : x = r
  · rw [hxr, Function.update_self] at hx
    rw [← Option.some.inj hx, hxr]
    exact ⟨q, hr, hk⟩
  · rw [Function.update_of_ne hxr] at hx
    exact ⟨c, hx, .refl c⟩

theorem update_erase {c : Request} (hx : Function.update reqs r none x = some c) : reqs x = some c := by
  by_cases hxr : x = r
  · rw [hxr, Function.update_self] at hx
    cases hx
  · rwa [Function.update_of_ne hxr] at hx

/-- The new request `c`, or one that a handler has kept. -/
theorem update_new {c d : Request} (hr : reqs r = some q)
    (hx : Function.update (Function.update reqs r (some q')) n (some c) x = some d) (hk : q.Keeps q') :
    (∃ q, reqs x = some q ∧ q.Keeps d) ∨ (x = n ∧ d = c) := by
  by_cases hxn : x = n
  · rw [hxn, Function.update_self] at hx
    exact .inr ⟨hxn, (Option.some.inj hx).symm⟩
  · rw [Function.update_of_ne hxn] at hx
    exact .inl (update_keeps hr hx hk)

/-- A request is kept by a step or new: one of a client, or one that holds nothing, or the allocation of a
truncation. -/
theorem Wired.origin (h : Wired p) (hs : p.step e = some p') {c : Request} (hx : p'.reqs x = some c) :
    (∃ q, p.reqs x = some q ∧ q.Keeps c) ∨ c.clnt = true ∨ c.alloc = none ∨
      ∃ w t, e = .process w ∧ p.Spawns t x ∧ c.alloc = some t := by
  have harrive : ∀ {d : Request}, d.clnt = true ∨ d.alloc = none →
      Function.update p.reqs p.next (some d) x = some c →
      (∃ q, p.reqs x = some q ∧ q.Keeps c) ∨ c.clnt = true ∨ c.alloc = none ∨
        ∃ w t, e = .process w ∧ p.Spawns t x ∧ c.alloc = some t := by
    intro d hd hx
    by_cases hxn : x = p.next
    · rw [hxn, Function.update_self] at hx
      rw [← Option.some.inj hx]
      exact .inr (hd.imp_right .inl)
    · rw [Function.update_of_ne hxn] at hx
      exact .inl ⟨c, hx, .refl c⟩
  cases e with
  | allocate fid offset =>
    obtain rfl := Option.some.inj hs
    exact harrive (.inl rfl) hx
  | truncate fid offset =>
    obtain rfl := Option.some.inj hs
    exact harrive (.inl rfl) hx
  | other clnt =>
    obtain rfl := Option.some.inj hs
    exact harrive (.inr rfl) hx
  | resume r status =>
    obtain ⟨-, a, st, sus, clnt, hq, rfl⟩ := resume_cases hs
    exact .inl (update_keeps hq hx ⟨rfl, .inr ⟨a, _, rfl, rfl, rfl⟩⟩)
  | dispatch =>
    obtain ⟨r, rest, q, hl, hq, hd⟩ := Dispatch_cases hs
    cases hd with
    | reply => exact .inl ⟨c, update_erase hx, .refl c⟩
    | retry t fid offset status sus clnt hc ha ht =>
      exact .inl (update_keeps ht (update_erase hx) ⟨rfl, .inl rfl⟩)
    | release => exact .inl ⟨c, update_erase (update_erase hx), .refl c⟩
  | process w =>
    obtain ⟨r, rest, q, hl, hq⟩ := process_request_head hs
    -- the allocation of the truncation at the head of the queue
    have hspawn : ∀ {a : AllocateReq} {st fid offset : ℤ} {sus : Bool}, q.op = .truncate fid offset →
        a.req = some r → x = p.next ∧ c = ⟨.allocate a, st, sus, false⟩ →
        ∃ w' t, ProcEv.process w = .process w' ∧ p.Spawns t x ∧ c.alloc = some t := by
      rintro a st fid offset sus hop hreq ⟨rfl, rfl⟩
      exact ⟨w, r, rfl, ⟨by rw [hl]; rfl, rfl, q, fid, offset, hq, hop⟩, hreq⟩
    cases process_request_cases hl hq (h.queues.head_idle hl hq) (h.queues.below r q hq).ne hs with
    | finish fs q' hk hidle => exact .inl (update_keeps hq hx hk)
    | fan fs a a' status hop hreq => exact .inl (update_keeps hq hx ⟨rfl, .inr ⟨a, a', hop, rfl, hreq⟩⟩)
    | incarnate fs a a' status cvi hop hreq hlay hst =>
      refine (update_new hq hx ⟨rfl, .inr ⟨a, a', hop, rfl, hreq⟩⟩).imp_right fun hnew => .inr (.inl ?_)
      rw [hnew.2]
      rfl
    | wait fs fid offset status a st hop hreq =>
      exact (update_new hq hx ⟨rfl, .inl hop.symm⟩).imp_right fun hnew => .inr (.inr (hspawn hop hreq hnew))
    | refuse fs fs' fid offset status allocOffset a st hop hreq hworm ht hst hsend =>
      exact (update_new hq hx ⟨rfl, .inl hop.symm⟩).imp_right fun hnew => .inr (.inr (hspawn hop hreq hnew))

/-- An internal allocation was there before a run, or `handle_truncate` has made it in the run. -/
theorem Wired.spawned : ∀ {es : List ProcEv} {p : Processor}, Wired p → p.InternalsSucceed es → p.run es = some p' →
    ∀ {c : Request}, p'.reqs x = some c → c.clnt = false → c.alloc = some t →
    (∃ q, p.reqs x = some q ∧ q.Keeps c) ∨
      ∃ es₁ w es₂ p₁, es = es₁ ++ .process w :: es₂ ∧ p.run es₁ = some p₁ ∧ p₁.Spawns t x
  | [], p, _, _, hr, c, hx, _, _ => by
    obtain rfl : p = p' := by simpa [Processor.run] using hr
    exact .inl ⟨c, hx, .refl c⟩
  | e :: es, p, h, ⟨hw, hws⟩, hr, c, hx, hcl, ha => by
    obtain ⟨p₁, hs, hr⟩ := Option.bind_eq_some_iff.mp hr
    rw [hs] at hws
    rcases (h.step hw hs).spawned hws hr hx hcl ha with ⟨d, hd, hk⟩ | ⟨es₁, w, es₂, p₂, rfl, hr₂, hsp⟩
    · rcases h.origin hs hd with ⟨q, hq, hk'⟩ | hc | hn | ⟨w, s, rfl, hsp, hs'⟩
      · exact .inl ⟨q, hq, hk'.trans hk⟩
      · rw [hk.clnt, hc] at hcl
        cases hcl
      · rw [hk.alloc, hn] at ha
        cases ha
      · rw [hk.alloc, hs'] at ha
        rw [Option.some.inj ha] at hsp
        exact .inr ⟨[], w, es, p, rfl, rfl, hsp⟩
    · refine .inr ⟨e :: es₁, w, es₂, p₂, rfl, ?_, hsp⟩
      rw [Processor.run, hs]
      exact hr₂

/-- **Internal allocations have no client to answer.** In a run in which the RPCs of every allocation that a truncation
has made come back without an error, the assertions of `NetDispatch::Dispatch` hold, and each such allocation has the
truncation whose handler made it. -/
theorem dispatch_answers {fs : Fs} {es : List ProcEv} (hw : (start fs).InternalsSucceed es)
    (hr : (start fs).run es = some p) : Answers p ∧ ∀ n q t, p.reqs n = some q → q.clnt = false → q.alloc = some t →
      ∃ es₁ w es₂ p₁, es = es₁ ++ .process w :: es₂ ∧ (start fs).run es₁ = some p₁ ∧ p₁.Spawns t n := by
  refine ⟨((start_wired fs).run hw hr).answers, fun n q t hq hcl ha => ?_⟩
  rcases (start_wired fs).spawned hw hr hq hcl ha with ⟨c, hc, -⟩ | hsp
  · cases hc
  · exact hsp

/-- The chunk of a truncation of the empty file is allocated, and the allocation goes through the log. -/
def internalRun (status : ℤ) : List ProcEv :=
  [.truncate 3 0, .process (space true), .resume 1 status, .process (space true)]

/-- The allocation has succeeded, and is the head of the log. -/
theorem internalRun_answers : ∃ p, (start emptyFile).run (internalRun 0) = some p ∧ p.oplog = [1] ∧ Answers p := by
  obtain ⟨p, hr, hl⟩ : ∃ p, (start emptyFile).run (internalRun 0) = some p ∧ p.oplog = [1] := ⟨_, rfl, rfl⟩
  have hw : (start emptyFile).InternalsSucceed (internalRun 0) :=
    ⟨trivial, trivial, fun _ _ _ => rfl, trivial, trivial⟩
  exact ⟨p, hr, hl, (dispatch_answers hw hr).1⟩

/-- The allocation has failed: the incarnation step that it waits for is the head of the log, and the assertion of the
dispatcher fails. -/
theorem internalRun_aborts : ∃ p a status, (start emptyFile).run (internalRun (-ENOSPC) ++ [.process (space true)]) =
    some p ∧ p.oplog = [2] ∧ p.reqs 2 = some ⟨.changeChunkVersionInc 1 (some 1), 0, false, false⟩ ∧
      p.reqs 1 = some ⟨.allocate a, status, true, false⟩ ∧ p.Dispatch = none ∧ ¬ Answers p := by
  refine ⟨_, _, _, rfl, rfl, rfl, rfl, rfl, fun h => ?_⟩
  obtain ⟨p', hp'⟩ := h.dispatch (List.cons_ne_nil 2 [])
  cases hp'

end Processor

end Kfs
