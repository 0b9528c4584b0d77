import Kfs.Server.Processor

/-!
# No request is lost

* `heldOf_fanIn`, `heldOf_alloc`, `heldOf_ccvi`: the books when something starts to hold a request;
* `Processor.Sound`: every object is at one place, and those that are held are those that are suspended;
* **`suspended_held`**: every suspended request is held exactly once, in every run in which each allocation that is
  made for a truncation is sent to chunk servers.
-/

namespace Kfs

/-- A handler leaves the request for the client that it was for, and an allocation for the truncation. -/
structure Request.Keeps (q q' : Request) : Prop where
  clnt : q'.clnt = q.clnt
  op : q'.op = q.op ∨ ∃ a a', q.op = .allocate a ∧ q'.op = .allocate a' ∧ a'.req = a.req

theorem Request.Keeps.ccvi {q q' : Request} (h : q.Keeps q') : q'.ccvi = q.ccvi := by
  unfold Request.ccvi
  rcases h.op with heq | ⟨a, a', ha, ha', -⟩
  · rw [heq]
  · rw [ha, ha']

theorem Request.Keeps.alloc {q q' : Request} (h : q.Keeps q') : q'.alloc = q.alloc := by
  unfold Request.alloc
  rcases h.op with heq | ⟨a, a', ha, ha', hreq⟩
  · rw [heq]
  · rw [ha, ha']
    exact hreq

namespace Processor

/-! ## The books -/

section Books

variable {ccvi ccvi' alloc alloc' : ReqId → Option ReqId} {F F' M M' : List ReqId} {r t n : ReqId}

theorem stepsOf_perm (hF : F.Perm F') (hM : M.Perm M') : (stepsOf ccvi F M).Perm (stepsOf ccvi F' M') :=
  hF.append (hM.filterMap ccvi)

theorem heldOf_perm (hF : F.Perm F') (hM : M.Perm M') :
    (heldOf ccvi alloc F M).Perm (heldOf ccvi alloc F' M') :=
  (stepsOf_perm hF hM).append ((hM.append (stepsOf_perm hF hM)).filterMap alloc)

/-- Only the objects on the books matter. -/
theorem heldOf_congr (hc : ∀ x ∈ M, ccvi' x = ccvi x) (ha : ∀ x ∈ M ++ stepsOf ccvi F M, alloc' x = alloc x) :
    heldOf ccvi' alloc' F M = heldOf ccvi alloc F M := by
  have hsteps : stepsOf ccvi' F M = stepsOf ccvi F M := congrArg (F ++ ·) (List.filterMap_congr hc)
  unfold heldOf
  rw [hsteps, List.filterMap_congr ha]

/-- An object that holds nothing may come and go. -/
theorem heldOf_plain (hc : ccvi r = none) (ha : alloc r = none) :
    heldOf ccvi alloc F (r :: M) = heldOf ccvi alloc F M := by
  simp [heldOf, stepsOf, hc, ha]

/-- An allocation sends its RPCs. -/
theorem heldOf_fanIn (hc : ccvi r = none) :
    (heldOf ccvi alloc (r :: F) M).Perm (r :: heldOf ccvi alloc F (r :: M)) := by
  have hs : stepsOf ccvi F (r :: M) = stepsOf ccvi F M := by simp [stepsOf, hc]
  have ho : (M ++ stepsOf ccvi (r :: F) M).Perm (r :: M ++ stepsOf ccvi F M) := List.perm_middle
  have hr : stepsOf ccvi (r :: F) M = r :: stepsOf ccvi F M := rfl
  unfold heldOf
  rw [hs, hr, List.cons_append, List.perm_cons]
  exact (ho.filterMap alloc).append_left _

/-- The allocation `n` holds `t`. -/
theorem heldOf_alloc (hc : ccvi n = none) (ha : alloc n = some t) :
    (heldOf ccvi alloc F (n :: M)).Perm (t :: heldOf ccvi alloc F M) := by
  have hs : stepsOf ccvi F (n :: M) = stepsOf ccvi F M := by simp [stepsOf, hc]
  unfold heldOf
  rw [hs, List.cons_append, List.filterMap_cons_some ha]
  exact List.perm_middle

/-- The incarnation step `n` holds `r`. -/
theorem heldOf_ccvi (hn : ccvi n = some r) (ha : alloc n = none) (hc : ccvi r = none) :
    (heldOf ccvi alloc F (n :: M)).Perm (r :: heldOf ccvi alloc F (r :: M)) := by
  have hs : (stepsOf ccvi F (n :: M)).Perm (stepsOf ccvi (r :: F) M) := by
    unfold stepsOf
    rw [List.filterMap_cons_some hn]
    exact List.perm_middle
  refine List.Perm.trans ?_ (heldOf_fanIn hc)
  unfold heldOf
  rw [List.cons_append, List.filterMap_cons_none ha]
  exact hs.append ((hs.append_left M).filterMap alloc)

end Books

variable {p p' : Processor} {e : ProcEv} {r t : ReqId} {q q' : Request} {w : Finds}

/-- Every object is at one place, and those that are held are those that are suspended. -/
structure Sound (p : Processor) : Prop where
  apart : (p.moving ++ p.held).Nodup
  known : ∀ r ∈ p.moving ++ p.held, (p.reqs r).isSome = true
  below : ∀ r, (p.reqs r).isSome = true → r < p.next
  suspended : ∀ r q, p.reqs r = some q → (q.suspended = true ↔ r ∈ p.held)
  clients : ∀ r q, p.reqs r = some q → q.clnt = true → q.ccvi = none ∧ q.alloc = none

theorem ccvi_eq (h : p.reqs r = some q) : p.ccvi r = q.ccvi := by simp [ccvi, h]

theorem alloc_eq (h : p.reqs r = some q) : p.alloc r = q.alloc := by simp [alloc, h]

/-- What is held by RPCs or an incarnation step is held. -/
theorem outstanding_subset (p : Processor) : p.moving ++ stepsOf p.ccvi p.fanIns p.moving ⊆ p.moving ++ p.held :=
  List.append_subset.mpr ⟨List.subset_append_left _ _,
    fun _ hx => List.mem_append_right _ (List.mem_append_left _ hx)⟩

/-- **The rule for a step.** `C` are the objects that it changes, `N` those that it makes and `D` those that it takes
off the books. -/
theorem Sound.advance (h : Sound p) (C N D : List ReqId) (hN : N.Sublist [p.next]) (hNC : N ⊆ C)
    (hnext : p.next ≤ p'.next) (hall : (p'.moving ++ p'.held ++ D).Perm (N ++ (p.moving ++ p.held)))
    (hheld : ∀ x, x ∉ C → (x ∈ p'.held ↔ x ∈ p.held)) (hsame : ∀ x, x ∉ C → p'.reqs x = p.reqs x)
    (hC : ∀ x ∈ C, match p'.reqs x with
      | none => x ∉ p'.moving ++ p'.held
      | some q => x < p'.next ∧ (q.suspended = true ↔ x ∈ p'.held) ∧
          (q.clnt = true → q.ccvi = none ∧ q.alloc = none)) : Sound p' := by
  refine ⟨?_, ?_, ?_, ?_, ?_⟩
  · have hnd : (N ++ (p.moving ++ p.held)).Nodup := by
      refine List.Nodup.append ((List.nodup_singleton p.next).sublist hN) h.apart ?_
      intro n hn hm
      have heq : n = p.next := List.mem_singleton.mp (hN.subset hn)
      subst heq
      exact lt_irrefl _ (h.below p.next (h.known p.next hm))
    exact List.Nodup.of_append_left (hall.nodup_iff.mpr hnd)
  · intro x hx
    by_cases hxC : x ∈ C
    · have hxC' := hC x hxC
      cases hq : p'.reqs x with
      | none =>
        rw [hq] at hxC'
        exact absurd hx hxC'
      | some q => rfl
    · rw [hsame x hxC]
      rcases List.mem_append.mp (hall.subset (List.mem_append_left _ hx)) with hx | hx
      · exact absurd (hNC hx) hxC
      · exact h.known x hx
  · intro x hx
    by_cases hxC : x ∈ C
    · have hxC' := hC x hxC
      obtain ⟨q, hq⟩ := Option.isSome_iff_exists.mp hx
      rw [hq] at hxC'
      exact hxC'.1
    · rw [hsame x hxC] at hx
      exact (h.below x hx).trans_le hnext
  · intro x q hq
    by_cases hxC : x ∈ C
    · have hxC' := hC x hxC
      rw [hq] at hxC'
      exact hxC'.2.1
    · rw [hsame x hxC] at hq
      exact (h.suspended x q hq).trans (hheld x hxC).symm
  · intro x q hq
    by_cases hxC : x ∈ C
    · have hxC' := hC x hxC
      rw [hq] at hxC'
      exact hxC'.2.2
    · rw [hsame x hxC] at hq
      exact h.clients x q hq

theorem Sound.not_held (h : Sound p) (hr : r ∈ p.moving) : r ∉ p.held :=
  fun hh => List.disjoint_of_nodup_append h.apart hr hh

/-- A changed object that holds what it held. -/
theorem links_update (hq : p.reqs r = some q) (hreqs : p'.reqs = Function.update p.reqs r (some q'))
    (hc : q'.ccvi = q.ccvi) (ha : q'.alloc = q.alloc) : p'.ccvi = p.ccvi ∧ p'.alloc = p.alloc := by
  constructor
  · funext x
    by_cases hx : x = r
    · subst hx
      simp [ccvi, hreqs, hq, hc]
    · simp [ccvi, hreqs, hx]
  · funext x
    by_cases hx : x = r
    · subst hx
      simp [alloc, hreqs, hq, ha]
    · simp [alloc, hreqs, hx]

/-- A request that is done goes to the logger. -/
theorem Sound.finish (h : Sound p) (hq : p.reqs r = some q)
    (hreqs : p'.reqs = Function.update p.reqs r (some q')) (hc : q'.ccvi = q.ccvi) (ha : q'.alloc = q.alloc)
    (hcl : q'.clnt = q.clnt) (hs : q'.suspended = false) (hn : p'.next = p.next) (hF : p'.fanIns = p.fanIns)
    (hM : p'.moving.Perm p.moving) (hr : r ∈ p.moving) : Sound p' := by
  obtain ⟨hcc, haa⟩ := links_update hq hreqs hc ha
  have hheld : p'.held.Perm p.held := by
    unfold held
    rw [hcc, haa, hF]
    exact heldOf_perm (List.Perm.refl _) hM
  refine h.advance [r] [] [] (List.nil_sublist _) (List.nil_subset _) hn.ge ?_ (fun x _ => hheld.mem_iff) ?_ ?_
  · rw [List.append_nil]
    exact hM.append hheld
  · intro x hx
    rw [hreqs, Function.update_of_ne (by simpa using hx)]
  · intro x hx
    obtain rfl := List.mem_singleton.mp hx
    rw [hreqs, Function.update_self]
    refine ⟨hn ▸ h.below x (by simp [hq]), ?_, ?_⟩
    · rw [hs, hheld.mem_iff]
      simpa using h.not_held hr
    · intro hcl'
      rw [hc, ha]
      exact h.clients x q hq (hcl ▸ hcl')

/-- An allocation that has been taken from the queue sends its RPCs. -/
theorem Sound.fan (h : Sound p) (hq : p.reqs r = some q)
    (hreqs : p'.reqs = Function.update p.reqs r (some q')) (hc : q'.ccvi = q.ccvi) (ha : q'.alloc = q.alloc)
    (hnc : q.ccvi = none) (hcl : q'.clnt = q.clnt) (hs : q'.suspended = true) (hn : p'.next = p.next)
    (hF : p'.fanIns.Perm (r :: p.fanIns)) (hM : p.moving.Perm (r :: p'.moving)) : Sound p' := by
  obtain ⟨hcc, haa⟩ := links_update hq hreqs hc ha
  have hr : r ∈ p.moving := hM.symm.subset List.mem_cons_self
  have hheld : p'.held.Perm (r :: p.held) := by
    unfold held
    rw [hcc, haa]
    refine (heldOf_perm hF (List.Perm.refl _)).trans ((heldOf_fanIn ((ccvi_eq hq).trans hnc)).trans ?_)
    exact (heldOf_perm (List.Perm.refl _) hM.symm).cons r
  refine h.advance [r] [] [] (List.nil_sublist _) (List.nil_subset _) hn.ge ?_ ?_ ?_ ?_
  · rw [List.append_nil]
    exact (hheld.append_left _).trans (List.perm_middle.trans (hM.symm.append_right _))
  · intro x hx
    rw [hheld.mem_iff, List.mem_cons, or_iff_right (by simpa using hx)]
  · intro x hx
    rw [hreqs, Function.update_of_ne (by simpa using hx)]
  · intro x hx
    obtain rfl := List.mem_singleton.mp hx
    rw [hreqs, Function.update_self]
    refine ⟨hn ▸ h.below x (by simp [hq]), ?_, ?_⟩
    · rw [hs, hheld.mem_iff]
      simp
    · intro hcl'
      rw [hc, ha]
      exact h.clients x q hq (hcl ▸ hcl')

/-- The links of the objects that were there before a new one. -/
theorem links_new (hreqs : ∀ x, x ≠ p.next → (p'.reqs x).bind Request.ccvi = p.ccvi x ∧
    (p'.reqs x).bind Request.alloc = p.alloc x) (h : Sound p) :
    heldOf p'.ccvi p'.alloc p.fanIns p.moving = p.held := by
  have hne : ∀ x ∈ p.moving ++ p.held, x ≠ p.next := by
    rintro x hx rfl
    exact lt_irrefl _ (h.below _ (h.known _ hx))
  refine heldOf_congr (fun x hx => (hreqs x (hne x (List.mem_append_left _ hx))).1) fun x hx => ?_
  exact (hreqs x (hne x (outstanding_subset p hx))).2

theorem links_of_reqs {x : ReqId} (h : p'.reqs x = p.reqs x) :
    (p'.reqs x).bind Request.ccvi = p.ccvi x ∧ (p'.reqs x).bind Request.alloc = p.alloc x := by
  rw [h]
  exact ⟨rfl, rfl⟩

/-- A new request arrives. -/
theorem Sound.arrive (h : Sound p) (hreqs : p'.reqs = Function.update p.reqs p.next (some q))
    (hc : q.ccvi = none) (ha : q.alloc = none) (hs : q.suspended = false) (hn : p'.next = p.next + 1)
    (hF : p'.fanIns = p.fanIns) (hM : p'.moving.Perm (p.next :: p.moving)) : Sound p' := by
  have hself : p'.reqs p.next = some q := by rw [hreqs, Function.update_self]
  have hne : ∀ x, x ≠ p.next → p'.reqs x = p.reqs x := by
    intro x hx
    rw [hreqs, Function.update_of_ne hx]
  have hheld : p'.held.Perm p.held := by
    rw [← links_new (fun x hx => links_of_reqs (hne x hx)) h]
    refine (heldOf_perm (List.Perm.of_eq hF) hM).trans ?_
    rw [heldOf_plain ((ccvi_eq hself).trans hc) ((alloc_eq hself).trans ha)]
  have hnew : p.next ∉ p.held := fun hm => lt_irrefl _ (h.below _ (h.known _ (List.mem_append_right _ hm)))
  refine h.advance [p.next] [p.next] [] (List.Sublist.refl _) (fun _ hx => hx) (hn ▸ Nat.le_succ _) ?_
    (fun x _ => hheld.mem_iff) (fun x hx => hne x (by simpa using hx)) ?_
  · rw [List.append_nil]
    exact hM.append hheld
  · intro x hx
    obtain rfl := List.mem_singleton.mp hx
    rw [hself]
    refine ⟨hn ▸ Nat.lt_succ_self _, ?_, fun _ => ⟨hc, ha⟩⟩
    rw [hs, hheld.mem_iff]
    simpa using hnew

/-- The layout of an allocation has failed: an incarnation step holds it. -/
theorem Sound.incarnate (h : Sound p) (hq : p.reqs r = some q) {c : Request}
    (hreqs : p'.reqs = Function.update (Function.update p.reqs r (some q')) p.next (some c))
    (hc : q'.ccvi = q.ccvi) (ha : q'.alloc = q.alloc) (hnc : q.ccvi = none) (hcl : q'.clnt = q.clnt)
    (hs : q'.suspended = true) (hcc : c.ccvi = some r) (hca : c.alloc = none) (hccl : c.clnt = false)
    (hcs : c.suspended = false) (hn : p'.next = p.next + 1) (hF : p'.fanIns = p.fanIns) {M : List ReqId}
    (hM : p.moving.Perm (r :: M)) (hM' : p'.moving.Perm (p.next :: M)) : Sound p' := by
  have hr : r ∈ p.moving := hM.symm.subset List.mem_cons_self
  have hrn : r ≠ p.next := by
    rintro rfl
    exact lt_irrefl _ (h.below _ (h.known _ (List.mem_append_left _ hr)))
  have hself : p'.reqs p.next = some c := by rw [hreqs, Function.update_self]
  have hold : p'.reqs r = some q' := by rw [hreqs, Function.update_of_ne hrn, Function.update_self]
  have hne : ∀ x, x ∉ [r, p.next] → p'.reqs x = p.reqs x := by
    intro x hx
    rw [List.mem_cons, List.mem_singleton, not_or] at hx
    rw [hreqs, Function.update_of_ne hx.2, Function.update_of_ne hx.1]
  have hlinks : ∀ x, x ≠ p.next → (p'.reqs x).bind Request.ccvi = p.ccvi x ∧
      (p'.reqs x).bind Request.alloc = p.alloc x := by
    intro x hx
    by_cases hxr : x = r
    · subst hxr
      rw [hold, ccvi_eq hq, alloc_eq hq, Option.bind_some, Option.bind_some]
      exact ⟨hc, ha⟩
    · exact links_of_reqs (hne x (by simp [hxr, hx]))
  have hheld : p'.held.Perm (r :: p.held) := by
    rw [← links_new hlinks h]
    refine (heldOf_perm (List.Perm.of_eq hF) hM').trans ?_
    refine (heldOf_ccvi ((ccvi_eq hself).trans hcc) ((alloc_eq hself).trans hca) ?_).trans ?_
    · exact (ccvi_eq hold).trans (hc.trans hnc)
    · exact (heldOf_perm (List.Perm.refl _) hM.symm).cons r
  have hnew : p.next ∉ p.held := fun hm => lt_irrefl _ (h.below _ (h.known _ (List.mem_append_right _ hm)))
  refine h.advance [r, p.next] [p.next] [] (List.Sublist.refl _) (by simp) (hn ▸ Nat.le_succ _) ?_ ?_ hne ?_
  · rw [List.append_nil, List.singleton_append]
    refine (hM'.append hheld).trans (List.Perm.cons _ ?_)
    exact List.perm_middle.trans (hM.symm.append_right _)
  · intro x hx
    rw [hheld.mem_iff, List.mem_cons, or_iff_right fun heq => hx (by simp [heq])]
  · intro x hx
    rcases List.mem_cons.mp hx with rfl | hx
    · rw [hold]
      refine ⟨hn ▸ (h.below x (by simp [hq])).trans (Nat.lt_succ_self _), ?_, ?_⟩
      · rw [hs, hheld.mem_iff]
        simp
      · intro hcl'
        rw [hc, ha]
        exact h.clients x q hq (hcl ▸ hcl')
    · obtain rfl := List.mem_singleton.mp hx
      rw [hself]
      refine ⟨hn ▸ Nat.lt_succ_self _, ?_, fun hcl' => by rw [hccl] at hcl'; cases hcl'⟩
      rw [hcs, hheld.mem_iff]
      simpa [hrn.symm] using hnew

/-- A truncation waits for an allocation, which has sent its RPCs. -/
theorem Sound.truncation (h : Sound p) (hq : p.reqs r = some q) (q' c : Request)
    (hreqs : p'.reqs = Function.update (Function.update p.reqs r (some q')) p.next (some c))
    (hc : q'.ccvi = none) (ha : q'.alloc = none) (hnc : q.ccvi = none) (hna : q.alloc = none)
    (hs : q'.suspended = true) (hcc : c.ccvi = none) (hca : c.alloc = some r) (hccl : c.clnt = false)
    (hcs : c.suspended = true) (hn : p'.next = p.next + 1) (hF : p'.fanIns.Perm (p.next :: p.fanIns))
    (hM : p.moving.Perm (r :: p'.moving)) : Sound p' := by
  have hr : r ∈ p.moving := hM.symm.subset List.mem_cons_self
  have hrn : r ≠ p.next := by
    rintro rfl
    exact lt_irrefl _ (h.below _ (h.known _ (List.mem_append_left _ hr)))
  have hself : p'.reqs p.next = some c := by rw [hreqs, Function.update_self]
  have hold : p'.reqs r = some q' := by rw [hreqs, Function.update_of_ne hrn, Function.update_self]
  have hne : ∀ x, x ∉ [r, p.next] → p'.reqs x = p.reqs x := by
    intro x hx
    rw [List.mem_cons, List.mem_singleton, not_or] at hx
    rw [hreqs, Function.update_of_ne hx.2, Function.update_of_ne hx.1]
  have hlinks : ∀ x, x ≠ p.next → (p'.reqs x).bind Request.ccvi = p.ccvi x ∧
      (p'.reqs x).bind Request.alloc = p.alloc x := by
    intro x hx
    by_cases hxr : x = r
    · subst hxr
      rw [hold, ccvi_eq hq, alloc_eq hq, Option.bind_some, Option.bind_some]
      exact ⟨hc.trans hnc.symm, ha.trans hna.symm⟩
    · exact links_of_reqs (hne x (by simp [hxr, hx]))
  have hheld : p'.held.Perm (p.next :: r :: p.held) := by
    rw [← links_new hlinks h]
    refine (heldOf_perm hF (List.Perm.refl _)).trans ((heldOf_fanIn ((ccvi_eq hself).trans hcc)).trans ?_)
    refine ((heldOf_alloc ((ccvi_eq hself).trans hcc) ((alloc_eq hself).trans hca)).trans ?_).cons _
    refine List.Perm.cons _ ?_
    refine List.Perm.trans ?_ (heldOf_perm (List.Perm.refl _) hM.symm)
    rw [heldOf_plain ((ccvi_eq hold).trans hc) ((alloc_eq hold).trans ha)]
  refine h.advance [r, p.next] [p.next] [] (List.Sublist.refl _) (by simp) (hn ▸ Nat.le_succ _) ?_ ?_ hne ?_
  · rw [List.append_nil, List.singleton_append]
    refine (hheld.append_left _).trans (List.perm_middle.trans (List.Perm.cons _ ?_))
    exact List.perm_middle.trans (hM.symm.append_right _)
  · intro x hx
    rw [List.mem_cons, List.mem_singleton, not_or] at hx
    rw [hheld.mem_iff, List.mem_cons, List.mem_cons, or_iff_right hx.2, or_iff_right hx.1]
  · intro x hx
    rcases List.mem_cons.mp hx with rfl | hx
    · rw [hold]
      refine ⟨hn ▸ (h.below x (by simp [hq])).trans (Nat.lt_succ_self _), ?_, fun _ => ⟨hc, ha⟩⟩
      rw [hs, hheld.mem_iff]
      simp
    · obtain rfl := List.mem_singleton.mp hx
      rw [hself]
      refine ⟨hn ▸ Nat.lt_succ_self _, ?_, fun hcl' => by rw [hccl] at hcl'; cases hcl'⟩
      rw [hcs, hheld.mem_iff]
      simp

/-- The RPCs of an allocation have come back. -/
theorem Sound.unfan (h : Sound p) (hq : p.reqs r = some q)
    (hreqs : p'.reqs = Function.update p.reqs r (some q')) (hc : q'.ccvi = q.ccvi) (ha : q'.alloc = q.alloc)
    (hnc : q.ccvi = none) (hcl : q'.clnt = q.clnt) (hs : q'.suspended = false) (hn : p'.next = p.next)
    (hF : p.fanIns.Perm (r :: p'.fanIns)) (hM : p'.moving.Perm (r :: p.moving)) : Sound p' := by
  obtain ⟨hcc, haa⟩ := links_update hq hreqs hc ha
  have hheld : p.held.Perm (r :: p'.held) := by
    unfold held
    rw [hcc, haa]
    refine (heldOf_perm hF (List.Perm.refl _)).trans ((heldOf_fanIn ((ccvi_eq hq).trans hnc)).trans ?_)
    exact (heldOf_perm (List.Perm.refl _) hM.symm).cons r
  have hnd : (p.moving ++ r :: p'.held).Nodup := (hheld.append_left _).nodup_iff.mp h.apart
  have hnot : r ∉ p'.held := (List.nodup_cons.mp (List.Nodup.of_append_right hnd)).1
  refine h.advance [r] [] [] (List.nil_sublist _) (List.nil_subset _) hn.ge ?_ ?_ ?_ ?_
  · rw [List.append_nil]
    refine (hM.append_right _).trans ?_
    exact List.perm_middle.symm.trans (hheld.symm.append_left _)
  · intro x hx
    rw [hheld.mem_iff, List.mem_cons, or_iff_right (by simpa using hx)]
  · intro x hx
    rw [hreqs, Function.update_of_ne (by simpa using hx)]
  · intro x hx
    obtain rfl := List.mem_singleton.mp hx
    rw [hreqs, Function.update_self]
    refine ⟨hn ▸ h.below x (by simp [hq]), ?_, ?_⟩
    · rw [hs]
      simpa using hnot
    · intro hcl'
      rw [hc, ha]
      exact h.clients x q hq (hcl ▸ hcl')

/-- What the books say after objects `D` that are no longer on them have been destroyed. -/
theorem heldOf_deleted {D : List ReqId} (hsame : ∀ x, x ∉ D → p'.ccvi x = p.ccvi x ∧ p'.alloc x = p.alloc x)
    (hD : ∀ x ∈ D, x ∉ p'.moving ++ heldOf p.ccvi p.alloc p'.fanIns p'.moving) :
    p'.held = heldOf p.ccvi p.alloc p'.fanIns p'.moving := by
  refine heldOf_congr (fun x hx => (hsame x fun hm => ?_).1) fun x hx => (hsame x fun hm => ?_).2
  · exact hD x hm (List.mem_append_left _ hx)
  · refine hD x hm ?_
    rcases List.mem_append.mp hx with hx | hx
    · exact List.mem_append_left _ hx
    · exact List.mem_append_right _ (List.mem_append_left _ hx)

/-- A request that holds nothing is destroyed. -/
theorem Sound.reply (h : Sound p) (hq : p.reqs r = some q) (hreqs : p'.reqs = Function.update p.reqs r none)
    (hc : q.ccvi = none) (ha : q.alloc = none) (hn : p'.next = p.next) (hF : p'.fanIns = p.fanIns)
    (hM : p.moving.Perm (r :: p'.moving)) : Sound p' := by
  have hbooks : p.held.Perm (heldOf p.ccvi p.alloc p'.fanIns p'.moving) := by
    refine (heldOf_perm (List.Perm.of_eq hF.symm) hM).trans ?_
    rw [heldOf_plain ((ccvi_eq hq).trans hc) ((alloc_eq hq).trans ha)]
  have hnd : (r :: (p'.moving ++ heldOf p.ccvi p.alloc p'.fanIns p'.moving)).Nodup :=
    (hM.append hbooks).nodup_iff.mp h.apart
  have hne : ∀ x, x ∉ [r] → p'.reqs x = p.reqs x := by
    intro x hx
    rw [hreqs, Function.update_of_ne (by simpa using hx)]
  have hheld : p'.held = heldOf p.ccvi p.alloc p'.fanIns p'.moving := by
    refine heldOf_deleted (D := [r]) (fun x hx => links_of_reqs (hne x hx)) ?_
    intro x hx
    obtain rfl := List.mem_singleton.mp hx
    exact (List.nodup_cons.mp hnd).1
  rw [← hheld] at hbooks hnd
  refine h.advance [r] [] [r] (List.nil_sublist _) (List.nil_subset _) hn.ge ?_ (fun x _ => hbooks.mem_iff.symm)
    hne ?_
  · exact List.perm_append_comm.trans (hM.append hbooks).symm
  · intro x hx
    obtain rfl := List.mem_singleton.mp hx
    rw [hreqs, Function.update_self]
    exact (List.nodup_cons.mp hnd).1

/-- The allocation of a truncation is over: it is destroyed, and the truncation goes back to the queue. -/
theorem Sound.retry (h : Sound p) {c : Request} (hq : p.reqs r = some q) (ht : p.reqs t = some c)
    {c' : Request} (hreqs : p'.reqs = Function.update (Function.update p.reqs t (some c')) r none)
    (hc : q.ccvi = none) (ha : q.alloc = some t) (htc : c.ccvi = none) (hta : c.alloc = none)
    (htc' : c'.ccvi = none) (hta' : c'.alloc = none) (hs : c'.suspended = false) (hn : p'.next = p.next)
    (hF : p'.fanIns = p.fanIns) {M : List ReqId} (hM : p.moving.Perm (r :: M)) (hM' : p'.moving.Perm (t :: M)) :
    Sound p' := by
  have hbooks : p.held.Perm (t :: heldOf p.ccvi p.alloc p'.fanIns p'.moving) := by
    refine (heldOf_perm (List.Perm.of_eq hF.symm) hM).trans ?_
    refine (heldOf_alloc ((ccvi_eq hq).trans hc) ((alloc_eq hq).trans ha)).trans (List.Perm.cons _ ?_)
    refine List.Perm.trans ?_ (heldOf_perm (List.Perm.refl _) hM'.symm)
    rw [heldOf_plain ((ccvi_eq ht).trans htc) ((alloc_eq ht).trans hta)]
  have hperm : (p.moving ++ p.held).Perm (r :: (p'.moving ++ heldOf p.ccvi p.alloc p'.fanIns p'.moving)) := by
    refine (hM.append hbooks).trans (List.Perm.cons _ ?_)
    exact List.perm_middle.trans (hM'.symm.append_right _)
  have hnd := hperm.nodup_iff.mp h.apart
  have hrt : t ≠ r := by
    rintro rfl
    exact (List.nodup_cons.mp hnd).1 (List.mem_append_left _ (hM'.symm.subset List.mem_cons_self))
  have htself : p'.reqs t = some c' := by rw [hreqs, Function.update_of_ne hrt, Function.update_self]
  have hne : ∀ x, x ∉ [r, t] → p'.reqs x = p.reqs x := by
    intro x hx
    rw [List.mem_cons, List.mem_singleton, not_or] at hx
    rw [hreqs, Function.update_of_ne hx.1, Function.update_of_ne hx.2]
  have hheld : p'.held = heldOf p.ccvi p.alloc p'.fanIns p'.moving := by
    refine heldOf_deleted (D := [r]) ?_ ?_
    · intro x hx
      by_cases hxt : x = t
      · subst hxt
        rw [ccvi_eq ht, alloc_eq ht, ccvi_eq htself, alloc_eq htself]
        exact ⟨htc'.trans htc.symm, hta'.trans hta.symm⟩
      · have heq := hne x (by simpa [hxt] using hx)
        exact links_of_reqs heq
    · intro x hx
      obtain rfl := List.mem_singleton.mp hx
      exact (List.nodup_cons.mp hnd).1
  rw [← hheld] at hbooks hnd hperm
  have htnot : t ∉ p'.held := by
    have hnd' := (hbooks.append_left p.moving).nodup_iff.mp h.apart
    exact (List.nodup_cons.mp (List.Nodup.of_append_right hnd')).1
  refine h.advance [r, t] [] [r] (List.nil_sublist _) (List.nil_subset _) hn.ge ?_ ?_ hne ?_
  · exact List.perm_append_comm.trans hperm.symm
  · intro x hx
    rw [List.mem_cons, List.mem_singleton, not_or] at hx
    rw [hbooks.mem_iff, List.mem_cons, or_iff_right hx.2]
  · intro x hx
    rcases List.mem_cons.mp hx with rfl | hx
    · rw [hreqs, Function.update_self]
      exact (List.nodup_cons.mp hnd).1
    · obtain rfl := List.mem_singleton.mp hx
      rw [htself]
      refine ⟨hn ▸ h.below x (by simp [ht]), ?_, fun _ => ⟨htc', hta'⟩⟩
      rw [hs]
      simpa using htnot

/-- An incarnation step is over, and the allocation that it held is answered. -/
theorem Sound.release (h : Sound p) {c : Request} (hq : p.reqs r = some q) (ht : p.reqs t = some c)
    (hreqs : p'.reqs = Function.update (Function.update p.reqs t none) r none)
    (hc : q.ccvi = some t) (ha : q.alloc = none) (htc : c.ccvi = none) (hta : c.alloc = none)
    (hn : p'.next = p.next) (hF : p'.fanIns = p.fanIns) (hM : p.moving.Perm (r :: p'.moving)) : Sound p' := by
  have hbooks : p.held.Perm (t :: heldOf p.ccvi p.alloc p'.fanIns p'.moving) := by
    refine (heldOf_perm (List.Perm.of_eq hF.symm) hM).trans ?_
    refine (heldOf_ccvi ((ccvi_eq hq).trans hc) ((alloc_eq hq).trans ha) ((ccvi_eq ht).trans htc)).trans ?_
    rw [heldOf_plain ((ccvi_eq ht).trans htc) ((alloc_eq ht).trans hta)]
  have hperm : (p.moving ++ p.held).Perm
      (r :: t :: (p'.moving ++ heldOf p.ccvi p.alloc p'.fanIns p'.moving)) :=
    (hM.append hbooks).trans (List.Perm.cons _ List.perm_middle)
  have hnd := hperm.nodup_iff.mp h.apart
  have hout : ∀ x ∈ [r, t], x ∉ p'.moving ++ heldOf p.ccvi p.alloc p'.fanIns p'.moving := by
    intro x hx hm
    rcases List.mem_cons.mp hx with rfl | hx
    · exact (List.nodup_cons.mp hnd).1 (List.mem_cons_of_mem _ hm)
    · obtain rfl := List.mem_singleton.mp hx
      exact (List.nodup_cons.mp (List.nodup_cons.mp hnd).2).1 hm
  have hne : ∀ x, x ∉ [r, t] → p'.reqs x = p.reqs x := by
    intro x hx
    rw [List.mem_cons, List.mem_singleton, not_or] at hx
    rw [hreqs, Function.update_of_ne hx.1, Function.update_of_ne hx.2]
  have hgone : ∀ x ∈ [r, t], p'.reqs x = none := by
    intro x hx
    by_cases hxr : x = r
    · rw [hreqs, hxr, Function.update_self]
    · have hxt : x = t := by simpa [hxr] using hx
      rw [hreqs, Function.update_of_ne hxr, hxt, Function.update_self]
  have hheld : p'.held = heldOf p.ccvi p.alloc p'.fanIns p'.moving :=
    heldOf_deleted (fun x hx => links_of_reqs (hne x hx)) hout
  rw [← hheld] at hbooks hout hperm
  refine h.advance [r, t] [] [r, t] (List.nil_sublist _) (List.nil_subset _) hn.ge ?_ ?_ hne ?_
  · exact List.perm_append_comm.trans hperm.symm
  · intro x hx
    rw [List.mem_cons, List.mem_singleton, not_or] at hx
    rw [hbooks.mem_iff, List.mem_cons, or_iff_right hx.2]
  · intro x hx
    rw [hgone x hx]
    exact hout x hx

/-! ## What a step does -/

/-- The allocation is sent to chunk servers: to servers that `AllocateChunk` has found, or with a new lease. -/
def Sends (fs : Fs) (fid offset : ℤ) (reply : LeaseReply) (placed : Bool) : Prop :=
  match allocateChunkId fs fid offset 0 true with
  | none => True
  | some (status, _) => (status = 0 ∧ placed = true) ∨ (status = -EEXIST ∧ reply = .fresh)

instance (fs : Fs) (fid offset : ℤ) (reply : LeaseReply) (placed : Bool) :
    Decidable (Sends fs fid offset reply placed) := by
  unfold Sends
  split <;> infer_instance

/-- An allocation that has no layout yet is sent to chunk servers or answered. -/
theorem handle_allocate_fresh {env : Env} {reply : LeaseReply} {placed : Bool} {a : AllocateReq}
    (hop : q.op = .allocate a) (hs : q.suspended = false) (hl : a.layoutDone = false)
    (h : p.handle_allocate env reply placed r q a = some p') : ∃ fs a' status, a'.req = a.req ∧
      ((Sends p.fs a.fid a.offset reply placed ∧
          p' = { p with fs := fs }.sendLayout r ⟨.allocate a', status, false, q.clnt⟩) ∨
        (¬ Sends p.fs a.fid a.offset reply placed ∧
          p' = { p with fs := fs }.set r ⟨.allocate a', status, false, q.clnt⟩)) := by
  obtain ⟨op, st, sus, clnt⟩ := q
  simp only at hop hs
  subst hop hs
  unfold handle_allocate at h
  unfold Sends
  rw [if_pos (by simp [hl])] at h
  cases hal : allocateChunkId p.fs a.fid a.offset 0 true with
  | none =>
    rw [hal] at h
    cases h
  | some out =>
    obtain ⟨status, chunkId, chunkVersion, fs⟩ := out
    simp only [hal] at h ⊢
    by_cases h₁ : status ≠ 0 ∧ status ≠ -EEXIST
    · rw [if_pos h₁] at h
      refine ⟨fs, { a with chunkId := chunkId, chunkVersion := chunkVersion }, status, rfl, .inr ⟨?_, ?_⟩⟩
      · rintro (⟨h₀, -⟩ | ⟨h₀, -⟩)
        · exact h₁.1 h₀
        · exact h₁.2 h₀
      · exact (Option.some.inj h).symm
    rw [if_neg h₁] at h
    by_cases h₂ : status = -EEXIST
    · rw [if_pos h₂] at h
      have h₀ : status ≠ 0 := by
        rw [h₂]
        decide
      cases reply with
      | refused st =>
        refine ⟨fs, { a with chunkId := chunkId, chunkVersion := chunkVersion }, st, rfl, .inr ⟨?_, ?_⟩⟩
        · simp [h₀]
        · exact (Option.some.inj h).symm
      | valid =>
        refine ⟨fs, { a with chunkId := chunkId, chunkVersion := chunkVersion }, 0, rfl, .inr ⟨?_, ?_⟩⟩
        · simp [h₀]
        · exact (Option.some.inj h).symm
      | fresh =>
        refine ⟨fs, { a with chunkId := chunkId, chunkVersion := chunkVersion + fs.chunkVersionInc }, 0, rfl,
          .inl ⟨.inr ⟨h₂, rfl⟩, ?_⟩⟩
        exact (Option.some.inj h).symm
    rw [if_neg h₂] at h
    have h₀ : status = 0 := by
      by_contra hne
      exact h₁ ⟨hne, h₂⟩
    cases placed with
    | true =>
      refine ⟨fs, { a with chunkId := chunkId, chunkVersion := chunkVersion }, 0, rfl, .inl ⟨.inl ⟨h₀, rfl⟩, ?_⟩⟩
      exact (Option.some.inj h).symm
    | false =>
      refine ⟨fs, { a with chunkId := chunkId, chunkVersion := chunkVersion }, -ENOSPC, rfl, .inr ⟨?_, ?_⟩⟩
      · simp [h₂]
      · exact (Option.some.inj h).symm

/-- The exits of `handle_allocate`: the allocation is answered, has sent its RPCs, or waits for an incarnation step. -/
theorem handle_allocate_cases {env : Env} {reply : LeaseReply} {placed : Bool} {a : AllocateReq}
    (hop : q.op = .allocate a) (hs : q.suspended = false) (h : p.handle_allocate env reply placed r q a = some p') :
    ∃ fs a' status, a'.req = a.req ∧
      (p' = { p with fs := fs }.set r ⟨.allocate a', status, false, q.clnt⟩ ∨
        p' = { p with fs := fs }.sendLayout r ⟨.allocate a', status, false, q.clnt⟩ ∨
        (a.layoutDone = true ∧ q.status ≠ 0 ∧
          p' = (p.set r ⟨.allocate a', status, true, q.clnt⟩).ChangeIncarnationNumber r)) := by
  cases hl : a.layoutDone with
  | true =>
    obtain ⟨op, st, sus, clnt⟩ := q
    simp only at hop hs
    subst hop hs
    unfold handle_allocate at h
    rw [if_neg (by simp [hl])] at h
    by_cases hst : st = 0
    · rw [if_neg (by simpa using hst)] at h
      refine ⟨_, a, _, ?_, Or.inl (Option.some.inj h).symm⟩
      rfl
    · rw [if_pos hst] at h
      refine ⟨p.fs, _, _, ?_, Or.inr (Or.inr ⟨rfl, hst, (Option.some.inj h).symm⟩)⟩
      rfl
  | false =>
    obtain ⟨fs, a', st, hreq, ⟨-, hp⟩ | ⟨-, hp⟩⟩ := handle_allocate_fresh hop hs hl h
    · exact ⟨fs, a', st, hreq, .inr (.inl hp)⟩
    · exact ⟨fs, a', st, hreq, .inl hp⟩

/-- **What `process_request` does** with the request `q` at the head of the queue. -/
inductive Handled (w : Finds) (p : Processor) (r : ReqId) (rest : List ReqId) (q : Request) : Processor → Prop
  | finish (fs : Fs) (q' : Request) (hk : q.Keeps q') (hs : q'.suspended = false) : Handled w p r rest q
      ⟨fs, Function.update p.reqs r (some q'), p.next, rest, p.fanIns, p.oplog ++ [r]⟩
  | fan (fs : Fs) (a a' : AllocateReq) (status : ℤ) (hop : q.op = .allocate a) (hreq : a'.req = a.req) :
    Handled w p r rest q ⟨fs, Function.update p.reqs r (some ⟨.allocate a', status, true, q.clnt⟩), p.next, rest,
      p.fanIns ++ [r], p.oplog⟩
  | incarnate (fs : Fs) (a a' : AllocateReq) (status cvi : ℤ) (hop : q.op = .allocate a) (hreq : a'.req = a.req)
      (hl : a.layoutDone = true) (hst : q.status ≠ 0) : Handled w p r rest q
      ⟨fs, Function.update (Function.update p.reqs r (some ⟨.allocate a', status, true, q.clnt⟩)) p.next
        (some ⟨.changeChunkVersionInc cvi (some r), 0, false, false⟩), p.next + 1, rest ++ [p.next], p.fanIns, p.oplog⟩
  | wait (fs : Fs) (fid offset status : ℤ) (a : AllocateReq) (st : ℤ) (hop : q.op = .truncate fid offset)
      (hreq : a.req = some r) : Handled w p r rest q
      ⟨fs, Function.update (Function.update p.reqs r (some ⟨.truncate fid offset, status, true, q.clnt⟩)) p.next
        (some ⟨.allocate a, st, true, false⟩), p.next + 1, rest, p.fanIns ++ [p.next], p.oplog⟩
  /-- the allocation is refused at once -/
  | refuse (fs fs' : Fs) (fid offset status allocOffset : ℤ) (a : AllocateReq) (st : ℤ)
      (hop : q.op = .truncate fid offset) (hreq : a.req = some r) (hw : w.worm = false)
      (ht : Kfs.truncate w.env p.fs fid offset = some (status, allocOffset, fs')) (hst : 0 < status)
      (hsend : ¬ Sends fs' fid allocOffset w.reply w.placed) : Handled w p r rest q
      ⟨fs, Function.update (Function.update p.reqs r (some ⟨.truncate fid offset, status, true, q.clnt⟩)) p.next
        (some ⟨.allocate a, st, false, false⟩), p.next + 1, rest, p.fanIns, p.oplog⟩

theorem process_request_head (h : p.process_request w = some p') :
    ∃ r rest q, p.requestList = r :: rest ∧ p.reqs r = some q := by
  unfold process_request at h
  cases hl : p.requestList with
  | nil =>
    rw [hl] at h
    cases h
  | cons r rest =>
    rw [hl] at h
    dsimp only at h
    cases hq : p.reqs r with
    | none =>
      rw [hq] at h
      cases h
    | some q => exact ⟨r, rest, q, rfl, hq⟩

theorem process_request_cases {rest : List ReqId} (hl : p.requestList = r :: rest) (hq : p.reqs r = some q)
    (hs : q.suspended = false) (hrn : r ≠ p.next) (h : p.process_request w = some p') : Handled w p r rest q p' := by
  unfold process_request at h
  rw [hl] at h
  dsimp only at h
  rw [hq] at h
  dsimp only at h
  obtain ⟨p₁, hp₁, rfl⟩ := Option.map_eq_some_iff.mp h
  cases hop : q.op with
  | other =>
    rw [hop] at hp₁
    obtain rfl := Option.some.inj hp₁
    rw [if_neg (by simp [hq, hs])]
    have hsame : Function.update p.reqs r (some q) = p.reqs := Function.update_eq_self_iff.mpr hq.symm
    have hf : Handled w p r rest q _ := .finish w.fs q ⟨rfl, .inl rfl⟩ hs
    rwa [hsame] at hf
  | changeChunkVersionInc cvi t =>
    rw [hop] at hp₁
    obtain rfl := Option.some.inj hp₁
    rw [if_neg (by simp [set, hs])]
    exact .finish p.fs ⟨.changeChunkVersionInc cvi t, 0, q.suspended, q.clnt⟩ ⟨rfl, .inl hop.symm⟩ hs
  | allocate a =>
    rw [hop] at hp₁
    dsimp only at hp₁
    obtain ⟨fs, a', st, hreq, rfl | rfl | ⟨hlay, hst, rfl⟩⟩ := handle_allocate_cases hop hs hp₁
    · rw [if_neg (by simp [set])]
      exact .finish fs ⟨.allocate a', st, false, q.clnt⟩ ⟨rfl, .inr ⟨a, a', hop, rfl, hreq⟩⟩ rfl
    · rw [if_pos (by simp [set, sendLayout])]
      exact .fan fs a a' st hop hreq
    · rw [if_pos (by simp [set, ChangeIncarnationNumber, new, submit_request, hrn])]
      exact .incarnate _ a a' st _ hop hreq hlay hst
  | truncate fid offset =>
    rw [hop] at hp₁
    dsimp only at hp₁
    unfold handle_truncate at hp₁
    split_ifs at hp₁ with hworm
    · obtain rfl := Option.some.inj hp₁
      rw [if_neg (by simp [set, hs])]
      exact .finish p.fs { q with status := -EPERM } ⟨rfl, .inl rfl⟩ hs
    · cases ht : Kfs.truncate w.env p.fs fid offset with
      | none =>
        dsimp only at hp₁
        rw [ht] at hp₁
        cases hp₁
      | some out =>
        obtain ⟨st, allocOffset, fs⟩ := out
        simp only [ht] at hp₁
        split_ifs at hp₁ with hst
        · obtain ⟨fs', a', st', hreq, ⟨hsend, rfl⟩ | ⟨hsend, rfl⟩⟩ := handle_allocate_fresh rfl rfl rfl hp₁
          · rw [if_pos (by simp [set, sendLayout, new, hrn])]
            simp only [sendLayout, set, new, Function.update_idem, hop]
            exact .wait fs' fid offset st a' st' hop hreq
          · rw [if_pos (by simp [set, new, hrn])]
            simp only [set, new, Function.update_idem, hop]
            exact .refuse fs' fs fid offset st allocOffset a' st' hop hreq (by simpa using hworm) ht hst hsend
        · obtain rfl := Option.some.inj hp₁
          rw [if_neg (by simp [set, hs])]
          exact .finish fs { q with status := st } ⟨rfl, .inl rfl⟩ hs

/-- **What `Dispatch` does** with the request `q` at the head of the log. -/
inductive Dispatched (p : Processor) (r : ReqId) (rest : List ReqId) (q : Request) : Processor → Prop
  | reply (h : q.clnt = true ∨ q.ccvi = none ∧ q.alloc = none) : Dispatched p r rest q
      ⟨p.fs, Function.update p.reqs r none, p.next, p.requestList, p.fanIns, rest⟩
  | retry (t : ReqId) (fid offset status : ℤ) (sus clnt : Bool) (hc : q.ccvi = none) (ha : q.alloc = some t)
      (ht : p.reqs t = some ⟨.truncate fid offset, status, sus, clnt⟩) : Dispatched p r rest q
      ⟨p.fs, Function.update (Function.update p.reqs t (some ⟨.truncate fid offset, status, false, clnt⟩)) r none,
        p.next, p.requestList ++ [t], p.fanIns, rest⟩
  | release (t : ReqId) (a : AllocateReq) (status : ℤ) (sus : Bool) (hc : q.ccvi = some t) (ha : q.alloc = none)
      (ht : p.reqs t = some ⟨.allocate a, status, sus, true⟩) : Dispatched p r rest q
      ⟨p.fs, Function.update (Function.update p.reqs t none) r none, p.next, p.requestList, p.fanIns, rest⟩

theorem Dispatch_cases (h : p.Dispatch = some p') :
    ∃ r rest q, p.oplog = r :: rest ∧ p.reqs r = some q ∧ Dispatched p r rest q p' := by
  unfold Dispatch at h
  cases hl : p.oplog with
  | nil =>
    rw [hl] at h
    cases h
  | cons r rest =>
    rw [hl] at h
    dsimp only at h
    cases hq : p.reqs r with
    | none =>
      rw [hq] at h
      cases h
    | some q =>
      refine ⟨r, rest, q, rfl, hq, ?_⟩
      rw [hq] at h
      dsimp only at h
      cases hcl : q.clnt with
      | true =>
        rw [if_pos hcl] at h
        obtain rfl := Option.some.inj h
        exact .reply (.inl hcl)
      | false =>
        rw [if_neg (by simp [hcl])] at h
        cases hop : q.op with
        | allocate a =>
          rw [hop] at h
          dsimp only at h
          split at h
          · cases h
          rename_i t hreq
          split at h
          swap
          · cases h
          rename_i fid offset st sus clnt ht
          obtain rfl := Option.some.inj h
          exact .retry t fid offset st sus clnt (by simp [Request.ccvi, hop]) (by simp [Request.alloc, hop, hreq]) ht
        | changeChunkVersionInc cvi t =>
          rw [hop] at h
          dsimp only at h
          have hqa : q.alloc = none := by simp [Request.alloc, hop]
          split at h
          · obtain rfl := Option.some.inj h
            exact .reply (.inr ⟨by simp [Request.ccvi, hop], hqa⟩)
          rename_i t
          split at h
          swap
          · cases h
          rename_i a st sus ht
          obtain rfl := Option.some.inj h
          simp only [HandleEvent, delete, set, Function.update_idem]
          exact .release t a st sus (by simp [Request.ccvi, hop]) hqa ht
        | truncate fid offset | other =>
          rw [hop] at h
          obtain rfl := Option.some.inj h
          exact .reply (.inr ⟨by simp [Request.ccvi, hop], by simp [Request.alloc, hop]⟩)

/-- What `ResumeOp` does. -/
theorem resume_cases {status : ℤ} (h : p.resume r status = some p') : r ∈ p.fanIns ∧ ∃ a st sus clnt,
    p.reqs r = some ⟨.allocate a, st, sus, clnt⟩ ∧ p' = ⟨p.fs, Function.update p.reqs r
      (some ⟨.allocate { a with layoutDone := true }, status, false, clnt⟩), p.next, p.requestList ++ [r],
      p.fanIns.erase r, p.oplog⟩ := by
  unfold Processor.resume at h
  split_ifs at h with hr
  split at h
  swap
  · cases h
  rename_i a st sus clnt hq
  exact ⟨hr, a, st, sus, clnt, hq, (Option.some.inj h).symm⟩

/-! ## Steps -/

/-- When a truncation needs an allocation, the allocation is sent to chunk servers. -/
def TruncationWaits (p : Processor) : ProcEv → Prop
  | .process w => ∀ r q fid offset, p.requestList.head? = some r → p.reqs r = some q → q.op = .truncate fid offset →
      w.worm = false → ∀ status allocOffset fs, truncate w.env p.fs fid offset = some (status, allocOffset, fs) →
      0 < status → Sends fs fid allocOffset w.reply w.placed
  | _ => True

theorem Sound.process (h : Sound p) (hw : p.TruncationWaits (.process w)) (hs : p.process_request w = some p') :
    Sound p' := by
  obtain ⟨r, rest, q, hl, hq⟩ := process_request_head hs
  have hmov : p.moving = r :: (rest ++ p.oplog) := by simp [moving, hl]
  have hr : r ∈ p.moving := hmov ▸ List.mem_cons_self
  have hsus : q.suspended = false := by
    have := h.suspended r q hq
    simpa [h.not_held hr] using this
  have hrn : r ≠ p.next := (h.below r (by simp [hq])).ne
  cases process_request_cases hl hq hsus hrn hs with
  | finish fs q' hk hidle =>
    refine h.finish hq rfl hk.ccvi hk.alloc hk.clnt hidle rfl rfl ?_ hr
    change (rest ++ (p.oplog ++ [r])).Perm _
    rw [hmov, ← List.append_assoc]
    exact List.perm_append_comm
  | fan fs a a' status hop hreq =>
    have hqc : q.ccvi = none := by simp [Request.ccvi, hop]
    have hqa : q.alloc = a.req := by simp [Request.alloc, hop]
    refine h.fan hq rfl hqc.symm (hreq.trans hqa.symm) hqc rfl rfl rfl ?_ (List.Perm.of_eq hmov)
    exact List.perm_append_comm
  | incarnate fs a a' status cvi hop hreq hlay hst =>
    have hqc : q.ccvi = none := by simp [Request.ccvi, hop]
    have hqa : q.alloc = a.req := by simp [Request.alloc, hop]
    refine h.incarnate hq rfl hqc.symm (hreq.trans hqa.symm) hqc rfl rfl rfl rfl rfl rfl rfl rfl
      (List.Perm.of_eq hmov) ?_
    change (rest ++ [p.next] ++ p.oplog).Perm _
    rw [List.append_assoc]
    exact List.perm_middle
  | wait fs fid offset status a st hop hreq =>
    have hqc : q.ccvi = none := by simp [Request.ccvi, hop]
    have hqa : q.alloc = none := by simp [Request.alloc, hop]
    refine h.truncation hq ⟨.truncate fid offset, status, true, q.clnt⟩ ⟨.allocate a, st, true, false⟩ rfl rfl rfl hqc
      hqa rfl rfl hreq rfl rfl rfl ?_ (List.Perm.of_eq hmov)
    exact List.perm_append_comm
  | refuse fs fs' fid offset status allocOffset a st hop hreq hworm ht hst hsend =>
    refine absurd (hw r q fid offset ?_ hq hop hworm status allocOffset fs' ht hst) hsend
    rw [hl]
    rfl

theorem Sound.dispatch (h : Sound p) (hs : p.Dispatch = some p') : Sound p' := by
  obtain ⟨r, rest, q, hl, hq, hd⟩ := Dispatch_cases hs
  have hmov : p.moving.Perm (r :: (p.requestList ++ rest)) := by
    unfold moving
    rw [hl]
    exact List.perm_middle
  cases hd with
  | reply hnone =>
    obtain ⟨hc, ha⟩ := hnone.elim (h.clients r q hq) id
    exact h.reply hq rfl hc ha rfl rfl hmov
  | retry t fid offset status sus clnt hc ha ht =>
    refine h.retry hq ht rfl hc ha rfl rfl rfl rfl rfl rfl rfl hmov ?_
    change (p.requestList ++ [t] ++ rest).Perm _
    rw [List.append_assoc]
    exact List.perm_middle
  | release t a status sus hc ha ht =>
    obtain ⟨htc, hta⟩ := h.clients t _ ht rfl
    exact h.release hq ht rfl hc ha htc hta rfl rfl hmov

theorem Sound.resume {status : ℤ} (h : Sound p) (hs : p.resume r status = some p') : Sound p' := by
  obtain ⟨hr, a, st, sus, clnt, hq, rfl⟩ := resume_cases hs
  refine h.unfan hq rfl rfl rfl rfl rfl rfl rfl (List.perm_cons_erase hr) ?_
  change (p.requestList ++ [r] ++ p.oplog).Perm _
  rw [List.append_assoc]
  exact List.perm_middle

/-- **A step keeps the books.** -/
theorem Sound.step (h : Sound p) (hw : p.TruncationWaits e) (hs : p.step e = some p') : Sound p' := by
  have hsub : (p.requestList ++ [p.next] ++ p.oplog).Perm (p.next :: p.moving) := by
    rw [List.append_assoc]
    exact List.perm_middle
  cases e with
  | allocate fid offset =>
    obtain rfl := Option.some.inj hs
    exact h.arrive rfl rfl rfl rfl rfl rfl hsub
  | truncate fid offset =>
    obtain rfl := Option.some.inj hs
    exact h.arrive rfl rfl rfl rfl rfl rfl hsub
  | other clnt =>
    obtain rfl := Option.some.inj hs
    exact h.arrive rfl rfl rfl rfl rfl rfl hsub
  | process w => exact h.process hw hs
  | resume r status => exact h.resume hs
  | dispatch => exact h.dispatch hs

/-- The condition along a run. -/
def TruncationsWait (p : Processor) : List ProcEv → Prop
  | [] => True
  | e :: es => p.TruncationWaits e ∧
      match p.step e with
      | some p' => p'.TruncationsWait es
      | none => True

theorem Sound.run : ∀ {es : List ProcEv} {p : Processor}, Sound p → p.TruncationsWait es → p.run es = some p' →
    Sound p'
  | [], p, h, _, hr => by
    obtain rfl : p = p' := by simpa [Processor.run] using hr
    exact h
  | e :: es, p, h, ⟨hw, hws⟩, hr => by
    obtain ⟨p₁, hs, hr⟩ := Option.bind_eq_some_iff.mp hr
    rw [hs] at hws
    exact (h.step hw hs).run hws hr

/-- The processor at the start of the metaserver. -/
def start (fs : Fs) : Processor := ⟨fs, fun _ => none, 0, [], [], []⟩

theorem start_sound (fs : Fs) : Sound (start fs) := by
  refine ⟨List.nodup_nil, fun r hr => ?_, fun r hr => ?_, fun r q hq => ?_, fun r q hq => ?_⟩
  · cases hr
  · cases hr
  · cases hq
  · cases hq

/-- **No request is lost** in a run in which every allocation that is made for a truncation is sent to chunk servers:
each suspended request is held by exactly one thing that will bring it back. -/
theorem suspended_held {fs : Fs} {es : List ProcEv} (hw : (start fs).TruncationsWait es)
    (hr : (start fs).run es = some p) (hq : p.reqs r = some q) (hs : q.suspended = true) : p.held.count r = 1 := by
  have h := (start_sound fs).run hw hr
  exact List.count_eq_one_of_mem (List.Nodup.of_append_right h.apart) ((h.suspended r q hq).mp hs)

/-- File 3, without chunks. -/
def emptyFile : Fs :=
  ⟨[.fattr (MetaFattr.new ⟨⟨0, 0⟩, fun _ => false⟩ .file 3 1)], 3, 0, 0, 1⟩

/-- What the handlers find when there are servers with space, or none. -/
def space (placed : Bool) : Finds := ⟨false, ⟨⟨0, 0⟩, fun _ => false⟩, .valid, placed, emptyFile⟩

/-- A truncation of the empty file waits for a chunk. -/
theorem truncation_held : ∃ p q, (start emptyFile).run [.truncate 3 0, .process (space true)] = some p ∧
    p.reqs 0 = some q ∧ q.suspended = true ∧ p.held.count 0 = 1 := by
  have hw : (start emptyFile).TruncationsWait [.truncate 3 0, .process (space true)] := by
    refine ⟨trivial, ?_, trivial⟩
    intro r q fid offset hr hq hop _ status allocOffset fs ht _
    obtain rfl : 0 = r := Option.some.inj hr
    obtain rfl := Option.some.inj hq
    obtain ⟨rfl, rfl⟩ := ProcOp.truncate.inj hop
    obtain ⟨rfl, heq⟩ := Prod.mk.inj (Option.some.inj ht)
    obtain ⟨rfl, rfl⟩ := Prod.mk.inj heq
    decide
  obtain ⟨p, hr⟩ : ∃ p, (start emptyFile).run [.truncate 3 0, .process (space true)] = some p := ⟨_, rfl⟩
  obtain ⟨q, hq, hs⟩ : ∃ q, p.reqs 0 = some q ∧ q.suspended = true := by
    obtain rfl := Option.some.inj hr
    exact ⟨_, rfl, rfl⟩
  exact ⟨p, q, hr, hq, hs, suspended_held hw hr hq hs⟩

/-- There is no server with space: the allocation is refused at once, and nothing holds the truncation. -/
theorem truncation_lost : ∃ p q, (start emptyFile).run [.truncate 3 0, .process (space false)] = some p ∧
    p.reqs 0 = some q ∧ q.suspended = true ∧ p.held = [] ∧ p.requestList = [] ∧ p.oplog = [] := by
  refine ⟨_, _, rfl, rfl, rfl, rfl, rfl, rfl⟩

end Processor

end Kfs
