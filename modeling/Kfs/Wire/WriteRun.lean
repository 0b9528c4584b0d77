import Kfs.Wire.WriteChain

/-!
# What a write comes to

The messages of a write go from server to server along its list, and the answers back.

* `Writing.place`: where a server finds itself in the list, and where it forwards to;
* `Writing.Carries.relay_reached`: an operation with write-ids goes along the servers, each of them uses its own;
* `Writing.execute_reached`: a request for write-ids does, and the list comes back in the order of the servers;
* **`Writing.works_iff`**: both exactly when every message of the write is short enough to be found.
-/

namespace Kfs.Forward

open Lib

/-! ## Where a server forwards to -/

namespace Writing

variable {x : Writing} {me : Wire.ServerLocation} {pre post : List Wire.ServerLocation}

/-- **The place of a server in the list of a write.** -/
theorem place (h : x.locs = pre ++ me :: post) (id : Option (Wire.ServerLocation → Int64)) :
    needToForwardWrite me (printEntries (x.locs.map fun l => (l, id.map fun f => f l))) x.locs.length id.isSome =
      some ⟨!post.isEmpty, some pre.length, post.head?.getD me, id.map fun f => f me⟩ := by
  have hread : Readable id.isSome (x.locs.map fun l => (l, id.map fun f => f l)) := by
    refine ⟨x.host_map _, fun e he => ?_⟩
    obtain ⟨l, -, rfl⟩ := List.mem_map.1 he
    exact Option.isSome_map
  have hnodup : ((x.locs.map fun l => (l, id.map fun f => f l)).map Prod.fst).Nodup := by
    rw [List.map_map]
    exact (List.map_id x.locs).symm ▸ x.nodup
  have hhead : (post.map fun l => ((l, id.map fun f => f l) : Entry)).head?.map Prod.fst = post.head? := by
    cases post with
    | nil => rfl
    | cons l post => rfl
  rw [h, List.map_append, List.map_cons] at hread hnodup
  have hspec := needToForwardWrite_spec hread hnodup
  rw [hhead, List.isEmpty_map, List.length_map, List.length_append, List.length_cons, List.length_map,
    List.length_map] at hspec
  rw [h, List.map_append, List.map_cons, List.length_append, List.length_cons]
  exact hspec

theorem numServers_toNat (hlen : x.locs.length < 2 ^ 31) : (UInt32.ofNat x.locs.length).toNat = x.locs.length :=
  UInt32.toNat_ofNat_of_lt' (hlen.trans (by decide))

/-- The servers of a list forward in their order, the last one does not. -/
theorem decision_alloc (hlen : x.locs.length < 2 ^ 31) (h : x.locs = pre ++ me :: post) (seq : Int64) :
    ∃ myPos loc, (x.allocOp seq).decision me = some ⟨!post.isEmpty, myPos, loc, none⟩ ∧ ∀ l ∈ post.head?, loc = l := by
  unfold WriteIdAllocOp.decision allocOp
  dsimp only
  by_cases hone : 1 < x.locs.length
  · have hnum : (UInt32.ofNat x.locs.length).toNat = x.locs.length := numServers_toNat hlen
    have hpos : 0 < UInt32.ofNat x.locs.length := by
      rw [UInt32.lt_iff_toNat_lt, hnum]
      exact Nat.zero_lt_of_lt hone
    rw [if_pos hone, if_pos hone, if_pos hpos, hnum]
    exact ⟨some pre.length, post.head?.getD me, place h none, fun l hl => by rw [hl]; rfl⟩
  · rw [if_neg hone, if_neg hone, if_neg (by decide)]
    have hcount := congrArg List.length h
    rw [List.length_append, List.length_cons] at hcount
    obtain rfl : post = [] := List.length_eq_zero_iff.1 (by omega)
    exact ⟨none, _, rfl, fun l hl => by cases hl⟩

end Writing

/-! ## Forwarding with the write-ids -/

/-- The operations of a write that are forwarded with its list: `op` is the one with a number, and `sent` what is sent
for it. -/
structure Writing.Carries (x : Writing) {Op : Type} (r : Relay Op) (op : Int64 → Op) (sent : Int64 → Header) :
    Prop where
  servers : ∀ seq, r.servers (op seq) = printEntries x.entries
  numServers : ∀ seq, (r.numServers (op seq)).toNat = x.locs.length
  request : ∀ seq seq', r.Request seq' (op seq) = sent seq'
  arrives : ∀ seq, deliver r.command r.parseHandler (sent seq) = if Short (sent seq) then some (op seq) else none

namespace Writing.Carries

variable {x : Writing} {Op : Type} {r : Relay Op} {op : Int64 → Op} {sent : Int64 → Header}
  {goesOn : Wire.ServerLocation → Bool} {seqnum : Wire.ServerLocation → Int64}

theorem decision (hc : x.Carries r op sent) {me : Wire.ServerLocation} {pre post : List Wire.ServerLocation}
    (h : x.locs = pre ++ me :: post) (seq : Int64) :
    needToForwardWrite me (r.servers (op seq)) (r.numServers (op seq)).toNat true =
      some ⟨!post.isEmpty, some pre.length, post.head?.getD me, some (x.writeId me)⟩ := by
  rw [hc.servers, hc.numServers]
  exact place h (some x.writeId)

theorem relay_last (hc : x.Carries r op sent) {me : Wire.ServerLocation} {pre : List Wire.ServerLocation}
    (h : x.locs = pre ++ [me]) (fuel : ℕ) (seq : Int64) :
    relay r goesOn seqnum (fuel + 1) me (op seq) = some [x.entry me] := by
  simp only [relay, hc.decision h]
  rfl

theorem relay_next (hc : x.Carries r op sent) {me l : Wire.ServerLocation} {pre post : List Wire.ServerLocation}
    (h : x.locs = pre ++ me :: l :: post) (fuel : ℕ) (seq : Int64) :
    relay r goesOn seqnum (fuel + 1) me (op seq) =
      if goesOn me = true then
        if Short (sent (seqnum me)) then (relay r goesOn seqnum fuel l (op (seqnum me))).map (x.entry me :: ·) else none
      else some [x.entry me] := by
  simp only [relay, hc.decision h, hc.request, hc.arrives]
  cases goesOn me with
  | false => rfl
  | true =>
    by_cases hshort : Short (sent (seqnum me))
    · rw [if_pos hshort, if_pos hshort]
      rfl
    · rw [if_neg hshort, if_neg hshort]
      rfl

/-- The operation comes as far as it can, when what is forwarded arrives. -/
theorem relay_reached (hc : x.Carries r op sent) (post : List Wire.ServerLocation) :
    ∀ pre me fuel seq, x.locs = pre ++ me :: post → post.length < fuel →
      (∀ l ∈ (me :: post).dropLast, Short (sent (seqnum l))) →
      relay r goesOn seqnum fuel me (op seq) = some (reached (fun e => goesOn e.1) ((me :: post).map x.entry)) := by
  induction post with
  | nil =>
    intro pre me fuel seq h hfuel _
    obtain ⟨fuel, rfl⟩ := Nat.exists_eq_succ_of_ne_zero (Nat.ne_zero_of_lt hfuel)
    rw [hc.relay_last h]
    simp [reached]
  | cons l post ih =>
    intro pre me fuel seq h hfuel hshort
    obtain ⟨fuel, rfl⟩ := Nat.exists_eq_succ_of_ne_zero (Nat.ne_zero_of_lt hfuel)
    rw [List.dropLast_cons_cons] at hshort
    have hnext := ih (pre ++ [me]) l fuel (seqnum me) (by rw [h, List.append_assoc]; rfl) (Nat.lt_of_succ_lt_succ hfuel)
      fun l hl => hshort l (List.mem_cons_of_mem _ hl)
    rw [hc.relay_next h, if_pos (hshort me List.mem_cons_self), hnext]
    cases hgo : goesOn me with
    | false => simp [reached, entry, hgo]
    | true => simp [reached, entry, hgo]

/-- When every server goes on, what is forwarded has arrived. -/
theorem relay_short (hc : x.Carries r op sent) (post : List Wire.ServerLocation) :
    ∀ pre me fuel seq used, x.locs = pre ++ me :: post →
      relay r (fun _ => true) seqnum fuel me (op seq) = some used →
      ∀ l ∈ (me :: post).dropLast, Short (sent (seqnum l)) := by
  induction post with
  | nil => exact fun pre me fuel seq used _ _ l hl => by cases hl
  | cons l post ih =>
    intro pre me fuel seq used h hrelay
    cases fuel with
    | zero => cases hrelay
    | succ fuel =>
      rw [hc.relay_next h, if_pos rfl] at hrelay
      by_cases hme : Short (sent (seqnum me))
      · rw [if_pos hme] at hrelay
        obtain ⟨rest, hrest, -⟩ := Option.map_eq_some_iff.1 hrelay
        have hbehind := ih (pre ++ [me]) l fuel (seqnum me) rest (by rw [h, List.append_assoc]; rfl) hrest
        rw [List.dropLast_cons_cons]
        exact List.forall_mem_cons.2 ⟨hme, hbehind⟩
      · rw [if_neg hme] at hrelay
        cases hrelay

/-- The same from the first server on. -/
theorem reached_all (hc : x.Carries r op sent) {me : Wire.ServerLocation} (hme : x.locs.head? = some me)
    (hshort : ∀ l ∈ x.locs.dropLast, Short (sent (seqnum l))) (seq : Int64) :
    relay r goesOn seqnum x.locs.length me (op seq) = some (reached (fun e => goesOn e.1) x.entries) := by
  obtain ⟨post, hlocs⟩ := List.head?_eq_some_iff.1 hme
  have hfuel : post.length < x.locs.length := by
    rw [hlocs]
    exact Nat.lt_succ_self _
  rw [entries]
  nth_rewrite 2 [hlocs]
  exact hc.relay_reached post [] me x.locs.length seq hlocs hfuel (hlocs ▸ hshort)

theorem short_all (hc : x.Carries r op sent) {me : Wire.ServerLocation} (hme : x.locs.head? = some me) {seq : Int64}
    {used : List Entry} (hrelay : relay r (fun _ => true) seqnum x.locs.length me (op seq) = some used) :
    ∀ l ∈ x.locs.dropLast, Short (sent (seqnum l)) := by
  obtain ⟨post, hlocs⟩ := List.head?_eq_some_iff.1 hme
  rw [hlocs]
  exact hc.relay_short post [] me _ seq used hlocs hrelay

end Writing.Carries

namespace Writing

variable {x : Writing}

theorem carries_prepare (hlen : x.locs.length < 2 ^ 31) :
    x.Carries prepareRelay x.prepareOp fun seq => (x.prepareOp seq).Request where
  servers := fun _ => rfl
  numServers := fun _ => numServers_toNat hlen
  request := fun _ _ => rfl
  arrives := by
    intro seq
    have hclean : Clean (x.prepareOp seq).servers := printEntries_clean x.host_entries
    have hparse : prepareRelay.parseHandler (x.prepareOp seq).Request.props = x.prepareOp seq :=
      WritePrepareOp.Request_parse hclean (removeLTSpaces_printEntries x.host_entries) x.prepareBytes_lt
        ((numServers_toNat hlen).trans_lt hlen)
    refine (deliver_eq (WritePrepareOp.Request_sound hclean)).trans ?_
    rw [hparse]

theorem carries_sync (hlen : x.locs.length < 2 ^ 31) :
    x.Carries syncRelay x.syncOp fun seq => (x.syncOp seq).Request where
  servers := fun _ => rfl
  numServers := fun _ => numServers_toNat hlen
  request := fun _ _ => rfl
  arrives := by
    intro seq
    have hclean : Clean (x.syncOp seq).servers := printEntries_clean x.host_entries
    have hparse : syncRelay.parseHandler (x.syncOp seq).Request.props = x.syncOp seq :=
      WriteSyncOp.Request_parse hclean (removeLTSpaces_printEntries x.host_entries)
        ((numServers_toNat hlen).trans_lt hlen)
    refine (deliver_eq (WriteSyncOp.Request_sound hclean)).trans ?_
    rw [hparse]

theorem exists_head (x : Writing) : ∃ me, x.locs.head? = some me :=
  Option.isSome_iff_exists.1 (List.isSome_head?.2 x.ne_nil)

/-- A prepare comes as far as it can when its header arrives everywhere. -/
theorem prepared_reached (env : Env) (h : Short (x.prepareRequest x.entries))
    (hforward : ∀ l ∈ x.locs.dropLast, Short (x.prepareOp (x.prepareSeqnum l)).Request) :
    x.prepared env x.entries = some (reached (fun e => env.prepares e.1) x.entries) := by
  have hlen := length_lt_of_prepare h
  obtain ⟨me, hme⟩ := x.exists_head
  rw [prepared, hme, deliver_eq x.prepareRequest_sound, if_pos h, prepareRequest_parse hlen]
  exact (carries_prepare hlen).reached_all hme hforward x.prepareSeq

theorem synced_reached (env : Env) (hlen : x.locs.length < 2 ^ 31) (h : Short (x.syncRequest x.entries))
    (hforward : ∀ l ∈ x.locs.dropLast, Short (x.syncOp (x.syncSeqnum l)).Request) :
    x.synced env x.entries = some (reached (fun e => env.syncs e.1) x.entries) := by
  obtain ⟨me, hme⟩ := x.exists_head
  rw [synced, hme, deliver_eq x.syncRequest_sound, if_pos h, syncRequest_parse hlen]
  exact (carries_sync hlen).reached_all hme hforward x.syncSeq

/-- Nothing goes wrong. -/
def fine (x : Writing) : Env := ⟨fun _ => true, fun _ => some x.chunkVersion, fun _ => true, fun _ => true⟩

theorem short_of_prepared {used : List Entry} (h : x.prepared x.fine x.entries = some used) :
    Short (x.prepareRequest x.entries) ∧ ∀ l ∈ x.locs.dropLast, Short (x.prepareOp (x.prepareSeqnum l)).Request := by
  obtain ⟨me, hme⟩ := x.exists_head
  rw [prepared, hme, deliver_eq x.prepareRequest_sound] at h
  by_cases hshort : Short (x.prepareRequest x.entries)
  · rw [if_pos hshort, prepareRequest_parse (length_lt_of_prepare hshort)] at h
    exact ⟨hshort, (carries_prepare (length_lt_of_prepare hshort)).short_all hme h⟩
  · rw [if_neg hshort] at h
    cases h

theorem short_of_synced (hlen : x.locs.length < 2 ^ 31) {used : List Entry}
    (h : x.synced x.fine x.entries = some used) :
    Short (x.syncRequest x.entries) ∧ ∀ l ∈ x.locs.dropLast, Short (x.syncOp (x.syncSeqnum l)).Request := by
  obtain ⟨me, hme⟩ := x.exists_head
  rw [synced, hme, deliver_eq x.syncRequest_sound] at h
  by_cases hshort : Short (x.syncRequest x.entries)
  · rw [if_pos hshort, syncRequest_parse hlen] at h
    exact ⟨hshort, (carries_sync hlen).short_all hme h⟩
  · rw [if_neg hshort] at h
    cases h

end Writing

/-! ## Answers -/

namespace WriteIdAllocOp

variable {op : WriteIdAllocOp}

/-- An error of a server that is asked for a write-id. -/
def IsError (status : ℤ) : Prop := status ∈ [-Chunk.EHOSTUNREACH, -Chunk.EBADF, -Chunk.EINVAL]

theorem IsError.bounds {status : ℤ} (h : IsError status) : -1000 < status ∧ status < 0 := by
  have hall : ∀ e ∈ [-Chunk.EHOSTUNREACH, -Chunk.EBADF, -Chunk.EINVAL], -1000 < e ∧ e < 0 := by decide
  exact hall status h

theorem Response_sound_error (h : op.status < 0) : op.Response.Sound "OK".toList := by
  unfold Response
  rw [if_pos h]
  exact .of_same ⟨"OK".toList, [⟨"Cseq: ".toList, []⟩, ⟨"Status: ".toList, []⟩] ++ []⟩ (by decide +kernel) rfl rfl
    ⟨clean_printInt _, clean_printInt _⟩

theorem Response_sound (h : ¬ op.status < 0) (hs : Clean op.writeIdStr) : op.Response.Sound "OK".toList := by
  unfold Response
  rw [if_neg h]
  exact .of_same ⟨"OK".toList, [⟨"Cseq: ".toList, []⟩, ⟨"Status: ".toList, []⟩] ++ [⟨"Write-id: ".toList, []⟩]⟩
    (by decide +kernel) rfl rfl ⟨clean_printInt _, clean_printInt _, hs⟩

/-- What is read in an answer is what is in its header. -/
theorem readResponse_eq {h : Header} (hs : h.Sound "OK".toList) (seq : Int64) :
    (receive h).bind (readResponse seq) =
      if Short h then
        if h.props.getLong "Cseq".toList (-1) = seq then
          some ((h.props.getInt "Status".toList (-1)).toInt, h.props.getString "Write-id".toList [])
        else none
      else none := by
  rw [receive_eq hs]
  split_ifs with hshort hseq
  · rw [Option.bind_some, readResponse, cString_of_not_mem hs.nul, hs.load (by decide)]
    exact if_pos hseq
  · rw [Option.bind_some, readResponse, cString_of_not_mem hs.nul, hs.load (by decide)]
    exact if_neg hseq
  · rfl

/-- An error always arrives. -/
theorem read_error (h : IsError op.status) :
    (receive op.Response).bind (readResponse op.seq) = some (op.status, []) := by
  obtain ⟨hlo, hneg⟩ := h.bounds
  have hshort : Short op.Response := by
    have hseq : (printInt op.seq.toInt).length ≤ 20 := by
      have hlo := op.seq.le_toInt
      have hhi := op.seq.toInt_lt
      exact length_printInt_le (by decide) (by omega)
    have hstatus : (printInt op.status).length ≤ 4 := length_printInt_le (by decide) (by omega)
    have hframe : op.Response.frame = (Response ⟨0, 0, 0, 0, 0, 0, [], -1, []⟩).frame := by
      unfold Response
      rw [if_pos hneg]
      rfl
    have hfixed : (Response ⟨0, 0, 0, 0, 0, 0, [], -1, []⟩).frame ≤ 100 := by decide +kernel
    have hvalues : (op.Response.fields.map fun f => f.value.length).sum =
        (printInt op.seq.toInt).length + (printInt op.status).length := by
      unfold Response
      rw [if_pos hneg]
      simp
    have hmax : MAX_RPC_HEADER_LEN = 1024 := rfl
    rw [Short, Header.length_text, hframe, hvalues, hmax]
    omega
  have hseq : op.Response.props.getLong "Cseq".toList (-1) = op.seq := by
    unfold Response
    rw [if_pos hneg]
    exact Properties.getLong_eq rfl _
  have hstatus : (op.Response.props.getInt "Status".toList (-1)).toInt = op.status := by
    have hint : (Int32.ofInt op.status).toInt = op.status := Int32.toInt_ofInt_of_le (by omega) (by omega)
    have hprop : op.Response.props "Status".toList = some (removeLTSpaces (' ' :: printInt op.status)) := by
      unfold Response
      rw [if_pos hneg]
      rfl
    rw [← hint] at hprop
    rw [Properties.getInt_eq hprop, hint]
  have hstr : op.Response.props.getString "Write-id".toList [] = [] := by
    unfold Response
    rw [if_pos hneg]
    rfl
  rw [readResponse_eq (Response_sound_error hneg), if_pos hshort, if_pos hseq, hstatus, hstr]

/-- A list of write-ids arrives when it is short. -/
theorem read_list {es : List Entry} (hes : ∀ e ∈ es, IsHost e.1.hostname) (hstatus : op.status = 0)
    (hstr : op.writeIdStr = printEntries es) :
    (receive op.Response).bind (readResponse op.seq) =
      if Short op.Response then some (0, printEntries es) else none := by
  have hnot : ¬ op.status < 0 := by omega
  have hclean : Clean op.writeIdStr := hstr ▸ printEntries_clean hes
  have hseq : op.Response.props.getLong "Cseq".toList (-1) = op.seq := by
    unfold Response
    rw [if_neg hnot]
    exact Properties.getLong_eq rfl _
  have hread : (op.Response.props.getInt "Status".toList (-1)).toInt = 0 := by
    unfold Response
    rw [if_neg hnot, hstatus]
    rfl
  have hlist : op.Response.props.getString "Write-id".toList [] = printEntries es := by
    have hprop : op.Response.props "Write-id".toList = some (removeLTSpaces (' ' :: printEntries es)) := by
      unfold Response
      rw [if_neg hnot, hstr]
      rfl
    rw [removeLTSpaces_cons rfl, removeLTSpaces_printEntries hes] at hprop
    exact getString_eq hprop (printEntries_clean hes).2 _
  rw [readResponse_eq (Response_sound hnot hclean), if_pos hseq, hread, hlist]

end WriteIdAllocOp

/-! ## Allocating write-ids -/

namespace Writing

variable {x : Writing} {env : Env} {me : Wire.ServerLocation} {pre post : List Wire.ServerLocation}

theorem allocOp_servers (x : Writing) (seq : Int64) :
    Clean (x.allocOp seq).servers ∧ removeLTSpaces (x.allocOp seq).servers = (x.allocOp seq).servers := by
  unfold allocOp
  split_ifs
  · exact ⟨printEntries_clean (x.host_map fun _ => none), removeLTSpaces_printEntries (x.host_map fun _ => none)⟩
  · exact ⟨⟨List.not_mem_nil, List.not_mem_nil⟩, rfl⟩

theorem allocOp_numServers (hlen : x.locs.length < 2 ^ 31) (seq : Int64) :
    (x.allocOp seq).numServers.toNat < 2 ^ 31 := by
  unfold allocOp
  split_ifs
  · exact (numServers_toNat hlen).trans_lt hlen
  · exact Nat.two_pow_pos 31

/-- What is forwarded arrives when it is short. -/
theorem forward_arrives (hlen : x.locs.length < 2 ^ 31) (seq : Int64) :
    deliver "WRITE_ID_ALLOC".toList parseHandlerWriteIdAlloc (x.allocOp seq).Request =
      if Short (x.allocOp seq).Request then some (x.allocOp seq) else none := by
  obtain ⟨hclean, htrim⟩ := x.allocOp_servers seq
  have hparse : parseHandlerWriteIdAlloc (x.allocOp seq).Request.props = x.allocOp seq :=
    WriteIdAllocOp.Request_parse hclean htrim x.allocBytes_lt (allocOp_numServers hlen seq)
  rw [deliver_eq (WriteIdAllocOp.Request_sound hclean), hparse]

theorem execute_last (hlen : x.locs.length < 2 ^ 31) (h : x.locs = pre ++ [me]) (fuel : ℕ) (seq : Int64) :
    (x.allocOp seq).Execute x env (fuel + 1) me = some ([me], (x.allocOp seq).AllocateWriteId x env me) := by
  obtain ⟨myPos, loc, hdecision, -⟩ := decision_alloc hlen h seq
  rw [WriteIdAllocOp.Execute, hdecision]
  rfl

theorem execute_next {l : Wire.ServerLocation} (hlen : x.locs.length < 2 ^ 31) (h : x.locs = pre ++ me :: l :: post)
    (fuel : ℕ) (seq : Int64) :
    (x.allocOp seq).Execute x env (fuel + 1) me =
      if env.FindServer me = true then
        if Short (x.allocOp (x.NextSeqnum me)).Request then
          ((x.allocOp (x.NextSeqnum me)).Execute x env fuel l).bind fun r =>
            ((receive r.2.Response).bind (readResponse (x.NextSeqnum me))).bind fun reply =>
              some (me :: r.1, ((x.allocOp seq).AllocateWriteId x env me).HandlePeerReply reply)
        else none
      else some ([me], { x.allocOp seq with status := -Chunk.EHOSTUNREACH }) := by
  obtain ⟨myPos, loc, hdecision, hloc⟩ := decision_alloc hlen h seq
  obtain rfl : loc = l := hloc l rfl
  have hsent : WriteIdAllocOp.Request { x.allocOp seq with seq := x.NextSeqnum me } =
      (x.allocOp (x.NextSeqnum me)).Request := rfl
  rw [WriteIdAllocOp.Execute, hdecision]
  simp only [Option.bind_eq_bind, Option.bind_some, List.isEmpty_cons, Bool.not_false, Bool.not_true,
    Bool.false_eq_true, if_false]
  rw [hsent, forward_arrives hlen]
  cases env.FindServer me with
  | false => simp only [Bool.not_false, if_true, Bool.false_eq_true, if_false]
  | true =>
    simp only [Bool.not_true, if_true, Bool.false_eq_true, if_false]
    by_cases hshort : Short (x.allocOp (x.NextSeqnum me)).Request
    · rw [if_pos hshort, if_pos hshort, Option.bind_some]
    · rw [if_neg hshort, if_neg hshort, Option.bind_none]

/-- What the servers `l` come to, together: the list of their write-ids in their order, or an error. -/
def Granted (x : Writing) (env : Env) (l : List Wire.ServerLocation) (status : ℤ) (writeIdStr : Str) : Prop :=
  (x.Grants env l ∧ status = 0 ∧ writeIdStr = printEntries (l.map x.entry)) ∨
    (¬ x.Grants env l ∧ WriteIdAllocOp.IsError status)

theorem grants_one : x.Grants env [me] ↔ env.chunkVersion me = some x.chunkVersion := by
  simp [Grants]

theorem grants_cons {l : Wire.ServerLocation} : x.Grants env (me :: l :: post) ↔
    env.FindServer me = true ∧ env.chunkVersion me = some x.chunkVersion ∧ x.Grants env (l :: post) := by
  unfold Grants
  rw [List.dropLast_cons_cons, List.forall_mem_cons, List.forall_mem_cons]
  tauto

/-- The chunk manager of a server. -/
theorem granted_one (x : Writing) (env : Env) (me : Wire.ServerLocation) (seq : Int64) :
    ((x.allocOp seq).AllocateWriteId x env me).seq = seq ∧
      x.Granted env [me] ((x.allocOp seq).AllocateWriteId x env me).status
        ((x.allocOp seq).AllocateWriteId x env me).writeIdStr := by
  unfold WriteIdAllocOp.AllocateWriteId Granted
  rw [grants_one]
  cases env.chunkVersion me with
  | none => exact ⟨rfl, Or.inr ⟨by simp, by simp [WriteIdAllocOp.IsError]⟩⟩
  | some v =>
    dsimp only
    by_cases hv : (x.allocOp seq).chunkVersion ≠ v
    · rw [if_pos hv]
      exact ⟨rfl, Or.inr ⟨fun h => hv (Option.some.inj h).symm, by simp [WriteIdAllocOp.IsError]⟩⟩
    · rw [if_neg hv]
      refine ⟨rfl, Or.inl ⟨congrArg some (not_not.1 hv).symm, rfl, ?_⟩⟩
      simp [printEntries, printRest, entry]

/-- A server puts the write-ids of those behind it after its own. -/
theorem granted_cons {l : Wire.ServerLocation} {op : WriteIdAllocOp} {reply : ℤ × Str}
    (hfound : env.FindServer me = true) (hop : x.Granted env [me] op.status op.writeIdStr)
    (hreply : x.Granted env (l :: post) reply.1 reply.2) :
    x.Granted env (me :: l :: post) (op.HandlePeerReply reply).status (op.HandlePeerReply reply).writeIdStr := by
  unfold WriteIdAllocOp.HandlePeerReply
  unfold Granted at hop hreply ⊢
  rw [grants_one] at hop
  rw [grants_cons]
  rcases hreply with ⟨hgrants, hstatus, hstr⟩ | ⟨hgrants, herror⟩
  · rw [if_neg (by omega)]
    rcases hop with ⟨hversion, hzero, htext⟩ | ⟨hversion, herror⟩
    · refine Or.inl ⟨⟨hfound, hversion, hgrants⟩, hzero, ?_⟩
      change op.writeIdStr ++ (" ".toList ++ reply.2) = _
      rw [htext, hstr]
      simp [printEntries, printRest]
    · exact Or.inr ⟨fun h => hversion h.2.1, herror⟩
  · rw [if_pos herror.bounds.2]
    exact Or.inr ⟨fun h => hgrants h.2.2, herror⟩

theorem HandlePeerReply_seq (op : WriteIdAllocOp) (reply : ℤ × Str) : (op.HandlePeerReply reply).seq = op.seq := by
  unfold WriteIdAllocOp.HandlePeerReply
  split_ifs <;> rfl

theorem seqAt_concat (x : Writing) (pre : List Wire.ServerLocation) (me : Wire.ServerLocation) :
    x.seqAt (pre ++ [me]) = x.NextSeqnum me := by
  rw [seqAt, List.getLast?_concat]
  rfl

/-- What is read of the answer of the servers `l`. -/
theorem Granted.read_cases {op : WriteIdAllocOp} {l : List Wire.ServerLocation} (hl : ∀ a ∈ l, a ∈ x.locs)
    (hseq : op.seq = x.seqAt pre) (h : x.Granted env l op.status op.writeIdStr) :
    (x.Grants env l ∧ (receive op.Response).bind (readResponse (x.seqAt pre)) =
        if Short (x.allocReply pre l) then some (0, printEntries (l.map x.entry)) else none) ∨
      (¬ x.Grants env l ∧ WriteIdAllocOp.IsError op.status ∧
        (receive op.Response).bind (readResponse (x.seqAt pre)) = some (op.status, [])) := by
  rcases h with ⟨hgrants, hstatus, hstr⟩ | ⟨hgrants, herror⟩
  · have hhosts : ∀ e ∈ l.map x.entry, IsHost e.1.hostname := by
      intro e he
      obtain ⟨a, ha, rfl⟩ := List.mem_map.1 he
      exact x.hosts a (hl a ha)
    have hresponse : op.Response = x.allocReply pre l := by
      unfold allocReply WriteIdAllocOp.Response
      rw [hseq, hstatus, hstr]
      rfl
    have hread := WriteIdAllocOp.read_list hhosts hstatus hstr
    rw [hseq, hresponse] at hread
    rw [hresponse]
    exact Or.inl ⟨hgrants, hread⟩
  · have hread := WriteIdAllocOp.read_error herror
    rw [hseq] at hread
    exact Or.inr ⟨hgrants, herror, hread⟩

theorem Granted.read {op : WriteIdAllocOp} {l : List Wire.ServerLocation} (hl : ∀ a ∈ l, a ∈ x.locs)
    (hseq : op.seq = x.seqAt pre) (h : x.Granted env l op.status op.writeIdStr) (hshort : Short (x.allocReply pre l)) :
    ∃ reply, (receive op.Response).bind (readResponse (x.seqAt pre)) = some reply ∧
      x.Granted env l reply.1 reply.2 := by
  rcases h.read_cases hl hseq with ⟨hgrants, hread⟩ | ⟨hgrants, herror, hread⟩
  · rw [if_pos hshort] at hread
    exact ⟨_, hread, Or.inl ⟨hgrants, rfl, rfl⟩⟩
  · exact ⟨_, hread, Or.inr ⟨hgrants, herror⟩⟩

/-- An answer with write-ids that has been read was short. -/
theorem Granted.short {op : WriteIdAllocOp} {l : List Wire.ServerLocation} (hl : ∀ a ∈ l, a ∈ x.locs)
    (hseq : op.seq = x.seqAt pre) (h : x.Granted env l op.status op.writeIdStr) (hgrants : x.Grants env l)
    {reply : ℤ × Str} (hread : (receive op.Response).bind (readResponse (x.seqAt pre)) = some reply) :
    Short (x.allocReply pre l) := by
  by_contra hlong
  rcases h.read_cases hl hseq with ⟨-, hnone⟩ | ⟨hnot, -, -⟩
  · rw [hread, if_neg hlong] at hnone
    cases hnone
  · exact hnot hgrants

/-- **The request goes as far along the servers as it can**, when all messages behind the first one are short. -/
theorem execute_reached (hlen : x.locs.length < 2 ^ 31) (post : List Wire.ServerLocation) :
    ∀ pre me fuel, x.locs = pre ++ me :: post → post.length < fuel →
      (∀ l ∈ (me :: post).dropLast, Short (x.allocOp (x.NextSeqnum l)).Request) →
      (∀ pre' me' post', x.locs = pre' ++ me' :: post' → pre.length < pre'.length →
        Short (x.allocReply pre' (me' :: post'))) →
      ∃ op, (x.allocOp (x.seqAt pre)).Execute x env fuel me = some (reached env.FindServer (me :: post), op) ∧
        op.seq = x.seqAt pre ∧ x.Granted env (me :: post) op.status op.writeIdStr := by
  induction post with
  | nil =>
    intro pre me fuel h hfuel _ _
    obtain ⟨fuel, rfl⟩ := Nat.exists_eq_succ_of_ne_zero (Nat.ne_zero_of_lt hfuel)
    obtain ⟨hseq, hgranted⟩ := x.granted_one env me (x.seqAt pre)
    refine ⟨_, ?_, hseq, hgranted⟩
    rw [execute_last hlen h]
    simp [reached]
  | cons l post ih =>
    intro pre me fuel h hfuel hforward hreply
    obtain ⟨fuel, rfl⟩ := Nat.exists_eq_succ_of_ne_zero (Nat.ne_zero_of_lt hfuel)
    rw [List.dropLast_cons_cons] at hforward
    have hsplit : x.locs = (pre ++ [me]) ++ l :: post := by rw [h, List.append_assoc]; rfl
    obtain ⟨op, hexec, hseq, hgranted⟩ := ih (pre ++ [me]) l fuel hsplit (Nat.lt_of_succ_lt_succ hfuel)
      (fun l hl => hforward l (List.mem_cons_of_mem _ hl)) fun pre' me' post' h' hlt =>
        hreply pre' me' post' h' (lt_trans (by rw [List.length_append]; exact Nat.lt_succ_self _) hlt)
    have hmem : ∀ a ∈ l :: post, a ∈ x.locs := fun a ha => hsplit ▸ List.mem_append_right _ ha
    rw [execute_next hlen h, if_pos (hforward me List.mem_cons_self)]
    rw [seqAt_concat] at hexec
    cases hfound : env.FindServer me with
    | false =>
      refine ⟨{ x.allocOp (x.seqAt pre) with status := -Chunk.EHOSTUNREACH }, ?_, rfl, Or.inr ⟨fun h => ?_, ?_⟩⟩
      · rw [if_neg Bool.false_ne_true]
        simp [reached, hfound]
      · rw [grants_cons, hfound] at h
        exact Bool.false_ne_true h.1
      · exact List.mem_cons_self
    | true =>
      obtain ⟨reply, hread, hgrants⟩ := hgranted.read hmem hseq (hreply _ l post hsplit (by simp))
      rw [seqAt_concat] at hread
      obtain ⟨hseq', hone⟩ := x.granted_one env me (x.seqAt pre)
      refine ⟨_, ?_, (HandlePeerReply_seq _ reply).trans hseq', granted_cons hfound hone hgrants⟩
      rw [if_pos rfl, hexec, Option.bind_some, hread]
      simp [reached, hfound]

theorem grants_fine (x : Writing) (l : List Wire.ServerLocation) : x.Grants x.fine l :=
  ⟨fun _ _ => rfl, fun _ _ => rfl⟩

/-- When nothing goes wrong and an answer comes, the messages behind the first one have arrived. -/
theorem execute_short (hlen : x.locs.length < 2 ^ 31) (post : List Wire.ServerLocation) :
    ∀ pre me fuel r, x.locs = pre ++ me :: post →
      (x.allocOp (x.seqAt pre)).Execute x x.fine fuel me = some r →
      ((∀ l ∈ (me :: post).dropLast, Short (x.allocOp (x.NextSeqnum l)).Request) ∧
        ∀ pre' me' post', x.locs = pre' ++ me' :: post' → pre.length < pre'.length →
          Short (x.allocReply pre' (me' :: post'))) ∧
      r.2.seq = x.seqAt pre ∧ x.Granted x.fine (me :: post) r.2.status r.2.writeIdStr := by
  induction post with
  | nil =>
    intro pre me fuel r h hexec
    cases fuel with
    | zero => cases hexec
    | succ fuel =>
      rw [execute_last hlen h] at hexec
      obtain rfl := Option.some.inj hexec
      refine ⟨⟨?_, fun pre' me' post' h' hlt => ?_⟩, x.granted_one x.fine me _⟩
      · intro l hl
        cases hl
      · have hcount := congrArg List.length (h.symm.trans h')
        simp only [List.length_append, List.length_cons, List.length_nil] at hcount
        omega
  | cons l post ih =>
    intro pre me fuel r h hexec
    have hsplit : x.locs = (pre ++ [me]) ++ l :: post := by rw [h, List.append_assoc]; rfl
    cases fuel with
    | zero => cases hexec
    | succ fuel =>
      have hfound : x.fine.FindServer me = true := rfl
      rw [execute_next hlen h, if_pos hfound] at hexec
      by_cases hme : Short (x.allocOp (x.NextSeqnum me)).Request
      · rw [if_pos hme] at hexec
        obtain ⟨r', hrest, hexec⟩ := Option.bind_eq_some_iff.1 hexec
        obtain ⟨reply, hread, hexec⟩ := Option.bind_eq_some_iff.1 hexec
        obtain rfl := Option.some.inj hexec
        rw [← seqAt_concat x pre me] at hrest hread
        obtain ⟨⟨hforward, hreply⟩, hseq, hgranted⟩ := ih (pre ++ [me]) l fuel r' hsplit hrest
        have hmem : ∀ a ∈ l :: post, a ∈ x.locs := fun a ha => hsplit ▸ List.mem_append_right _ ha
        have hfirst : Short (x.allocReply (pre ++ [me]) (l :: post)) := hgranted.short hmem hseq (x.grants_fine _) hread
        obtain ⟨reply', hread', hgrants⟩ := hgranted.read hmem hseq hfirst
        obtain rfl := Option.some.inj (hread.symm.trans hread')
        obtain ⟨hseq', hone⟩ := x.granted_one x.fine me (x.seqAt pre)
        refine ⟨⟨?_, fun pre' me' post' h' hlt => ?_⟩, (HandlePeerReply_seq _ reply).trans hseq',
          granted_cons hfound hone hgrants⟩
        · rw [List.dropLast_cons_cons]
          exact List.forall_mem_cons.2 ⟨hme, hforward⟩
        · rcases Nat.lt_or_ge (pre.length + 1) pre'.length with hlt' | hge
          · exact hreply pre' me' post' h' (by rw [List.length_append]; exact hlt')
          · have hlength : (pre ++ [me]).length = pre'.length := by
              rw [List.length_append, List.length_singleton]
              omega
            have heq := List.append_inj (hsplit.symm.trans h') hlength
            rw [← heq.1, ← heq.2]
            exact hfirst
      · rw [if_neg hme] at hexec
        cases hexec

/-! ## The whole write -/

/-- The client splits the list that it gets. -/
theorem readEntries_entries (x : Writing) : readEntries x.locs.length (printEntries x.entries) = some x.entries := by
  have hread : Readable true x.entries := by
    refine ⟨x.host_entries, fun e he => ?_⟩
    obtain ⟨l, -, rfl⟩ := List.mem_map.1 he
    rfl
  rw [← x.length_entries]
  exact readEntries_printEntries hread fun c hc => absurd hc List.not_mem_nil

theorem Granted.nonneg_iff {l : List Wire.ServerLocation} {status : ℤ} {writeIdStr : Str}
    (h : x.Granted env l status writeIdStr) : 0 ≤ status ↔ x.Grants env l := by
  rcases h with ⟨hgrants, hstatus, -⟩ | ⟨hgrants, herror⟩
  · exact iff_of_true hstatus.ge hgrants
  · exact iff_of_false herror.bounds.2.not_ge hgrants

/-- With short messages the client gets an answer, and the write-ids in it when there are any. -/
theorem allocated (h : x.AllShort) (env : Env) :
    ∃ status writeInfo, x.AllocateWriteId env = some (reached env.FindServer x.locs, status, writeInfo) ∧
      (0 ≤ status ↔ x.Grants env x.locs) ∧ (0 ≤ status → writeInfo = x.entries) := by
  have hlen := length_lt_of_prepare h.prepareRequest
  obtain ⟨me, hme⟩ := x.exists_head
  obtain ⟨post, hlocs⟩ := List.head?_eq_some_iff.1 hme
  have hfuel : post.length < x.locs.length := by
    rw [hlocs]
    exact Nat.lt_succ_self _
  have hreply : Short (x.allocReply [] x.locs) := by
    have hall := h.allocReply [] me post hlocs
    rwa [← hlocs] at hall
  obtain ⟨op, hexec, hseq, hgranted⟩ := x.execute_reached hlen post [] me x.locs.length hlocs hfuel
    (hlocs ▸ h.allocForward) fun pre' me' post' h' _ => h.allocReply pre' me' post' h'
  rw [← hlocs] at hexec hgranted
  obtain ⟨reply, hread, hgrants⟩ := hgranted.read (fun a ha => ha) hseq hreply
  have hanswer : x.AllocateWriteId env =
      if reply.1 < 0 then some (reached env.FindServer x.locs, reply.1, [])
      else (readEntries x.locs.length reply.2).bind fun writeId =>
        some (reached env.FindServer x.locs, reply.1, writeId) := by
    rw [AllocateWriteId, hme, deliver_eq x.allocRequest_sound, if_pos h.allocRequest, allocRequest_parse hlen]
    simp only [Option.bind_eq_bind, Option.bind_some]
    rw [show x.allocSeq = x.seqAt [] from rfl, hexec, Option.bind_some, hread, Option.bind_some]
  refine ⟨reply.1, if reply.1 < 0 then [] else x.entries, ?_, hgrants.nonneg_iff, fun hpos => if_neg hpos.not_gt⟩
  rw [hanswer]
  rcases hgrants with ⟨-, hstatus, hstr⟩ | ⟨-, herror⟩
  · have hpos : ¬ reply.1 < 0 := hstatus.ge.not_gt
    rw [if_neg hpos, if_neg hpos, hstr]
    exact congrArg (fun o : Option (List Entry) => o.bind fun writeId => some (reached env.FindServer x.locs, reply.1,
      writeId)) x.readEntries_entries
  · rw [if_pos herror.bounds.2, if_pos herror.bounds.2]

/-- When nothing goes wrong and the client gets an answer, the messages have been short. -/
theorem short_of_allocated (hlen : x.locs.length < 2 ^ 31) {r : List Wire.ServerLocation × ℤ × List Entry}
    (h : x.AllocateWriteId x.fine = some r) :
    Short x.allocRequest ∧ (∀ l ∈ x.locs.dropLast, Short (x.allocOp (x.NextSeqnum l)).Request) ∧
      ∀ pre me post, x.locs = pre ++ me :: post → Short (x.allocReply pre (me :: post)) := by
  obtain ⟨me, hme⟩ := x.exists_head
  obtain ⟨post, hlocs⟩ := List.head?_eq_some_iff.1 hme
  rw [AllocateWriteId, hme, deliver_eq x.allocRequest_sound] at h
  by_cases hshort : Short x.allocRequest
  · rw [if_pos hshort, allocRequest_parse hlen] at h
    simp only [Option.bind_eq_bind, Option.bind_some] at h
    obtain ⟨r', hexec, h⟩ := Option.bind_eq_some_iff.1 h
    obtain ⟨reply, hread, -⟩ := Option.bind_eq_some_iff.1 h
    rw [show x.allocSeq = x.seqAt [] from rfl] at hexec hread
    obtain ⟨⟨hforward, hreply⟩, hseq, hgranted⟩ := execute_short hlen post [] me _ r' hlocs hexec
    rw [← hlocs] at hforward hgranted
    have hfirst : Short (x.allocReply [] x.locs) := hgranted.short (fun a ha => ha) hseq (x.grants_fine _) hread
    refine ⟨hshort, hforward, fun pre me' post' h' => ?_⟩
    cases pre with
    | nil =>
      rw [List.nil_append] at h'
      rw [← h']
      exact hfirst
    | cons a pre => exact hreply (a :: pre) me' post' h' (Nat.succ_pos _)
  · rw [if_neg hshort] at h
    cases h

/-- **A write goes along its servers as it should exactly when all its messages are short.** -/
theorem works_iff (x : Writing) : x.Works ↔ x.AllShort := by
  constructor
  · intro h
    obtain ⟨⟨status, writeInfo, hallocated, -⟩, hprepared, hsynced⟩ := h.carried x.fine
    obtain ⟨hprepare, hprepareForward⟩ := short_of_prepared hprepared
    have hlen := length_lt_of_prepare hprepare
    obtain ⟨hsync, hsyncForward⟩ := short_of_synced hlen hsynced
    obtain ⟨hrequest, hforward, hreply⟩ := short_of_allocated hlen hallocated
    exact ⟨hrequest, hforward, hreply, hprepare, hprepareForward, hsync, hsyncForward⟩
  · intro h
    refine ⟨fun pre me post hlocs id => place hlocs id, fun env => ⟨allocated h env, ?_, ?_⟩⟩
    · exact prepared_reached env h.prepareRequest h.prepareForward
    · exact synced_reached env (length_lt_of_prepare h.prepareRequest) h.syncRequest h.syncForward

end Writing

theorem host_inet_ntoa (a b c d : UInt8) : IsHost (inet_ntoa a b c d) where
  ne_nil := by
    rw [inet_ntoa]
    simp [printInt_ne_nil]
  word := by
    intro x hx
    rcases mem_inet_ntoa hx with rfl | rfl | hd
    · exact ⟨rfl, by decide⟩
    · exact ⟨rfl, by decide⟩
    · refine ⟨isSpace_of_isDigit hd, ?_⟩
      rintro rfl
      exact absurd hd (by decide)

/-- A chunk with 64 replicas, the most that a file may have. -/
def manyServers : Writing where
  locs := (List.range 64).map fun i => ⟨inet_ntoa 10 0 0 (UInt8.ofNat i), 30000⟩
  ne_nil := by decide
  nodup := by decide +kernel
  hosts := by
    intro l hl
    obtain ⟨i, -, rfl⟩ := List.mem_map.1 hl
    exact host_inet_ntoa _ _ _ _
  chunkId := 7
  chunkVersion := 1
  allocSeq := 1
  allocOffset := 0
  allocBytes := 65536
  allocBytes_lt := by decide
  prepareSeq := 2
  prepareOffset := 0
  prepareBytes := 65536
  prepareBytes_lt := by decide
  checksum := 0
  syncSeq := 3
  NextSeqnum := fun _ => 1
  prepareSeqnum := fun _ => 2
  syncSeqnum := fun _ => 3
  writeId := fun _ => 1

/-- The client's request for write-ids is never found. -/
theorem manyServers_waits : ¬ manyServers.Works := by
  intro h
  obtain ⟨⟨status, writeInfo, hallocated, -⟩, -, -⟩ := h.carried manyServers.fine
  have hshort : Short manyServers.allocRequest := (Writing.short_of_allocated (by decide) hallocated).1
  exact absurd hshort (by decide +kernel)

/-- Three of them. -/
def threeServers : Writing :=
  { manyServers with
    locs := manyServers.locs.take 3
    ne_nil := by decide
    nodup := manyServers.nodup.sublist (List.take_sublist 3 _)
    hosts := fun l hl => manyServers.hosts l (List.mem_of_mem_take hl) }

theorem threeServers_short : threeServers.AllShort where
  allocRequest := by decide +kernel
  allocForward := by decide +kernel
  allocReply pre me post h := by
    have hlen : pre.length < 3 := by
      have hall := congrArg List.length h
      rw [List.length_append, List.length_cons, show threeServers.locs.length = 3 from rfl] at hall
      omega
    have hpre : threeServers.locs.take pre.length = pre := by rw [h, List.take_left]
    have hpost : threeServers.locs.drop pre.length = me :: post := by rw [h, List.drop_left]
    have hall : ∀ n < 3, Short (threeServers.allocReply (threeServers.locs.take n) (threeServers.locs.drop n)) := by
      decide +kernel
    have hshort := hall pre.length hlen
    rwa [hpre, hpost] at hshort
  prepareRequest := by decide +kernel
  prepareForward := by decide +kernel
  syncRequest := by decide +kernel
  syncForward := by decide +kernel

theorem threeServers_works : threeServers.Works := (Writing.works_iff _).2 threeServers_short

end Kfs.Forward
