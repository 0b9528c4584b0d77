import Kfs.Wire.Frame

/-!
# Replies of another chunk server

A chunk server sends requests to another one over a connection and takes the replies from it. A reply is a header and
perhaps a body. What happens to the body is left to the operation that the reply is for.

* `RemoteOp`, `RemoteSyncSM`, `RemoteSyncSM.HandleResponse`, `RemoteSyncSM.HandleEvent`: the connection;
* `Reply`: what the other server writes; `Taken`: the replies that are taken whole, by the operations outstanding then;
* **`consumed_iff`**: all replies are taken, each with its header and its body, exactly when each of them has a short
  header, and no body or an operation outstanding that takes one.
-/

namespace Kfs.RemoteSync

open Lib

/-! ## The connection -/

/-- The operations that another chunk server answers. -/
inductive RemoteCmd
  | writeIdAlloc | writeSync | read | size | getChunkMetadata
deriving DecidableEq

/-- What the reply to an operation is put into. -/
structure RemoteOp where
  op : RemoteCmd
  seq : Int64
  status : Int32
  writeIdStr : Str
  size : Int32
  chunkVersion : Int32
  chunkSize : Int32
  dataBuf : Str
deriving DecidableEq

/-- The operations of a connection that wait for their replies, and those that have got them. -/
structure Ops where
  mDispatchedOps : List RemoteOp
  submitted : List RemoteOp

/-- `taken` is what has been taken from the buffer for each reply: a header and data. -/
structure RemoteSyncSM where
  ops : Ops
  iobuf : Str
  taken : List (Str × Str)

/-- Operations with data are given it. -/
def RemoteCmd.takesData : RemoteCmd → Bool
  | read | getChunkMetadata => true
  | _ => false

/-- What a reply changes in its operation. -/
def RemoteOp.reply (op : RemoteOp) (prop : Properties) (data : Str) : RemoteOp :=
  let op := { op with status := prop.getInt "Status".toList (-1) }
  match op.op with
  | .writeIdAlloc => { op with writeIdStr := prop.getString "Write-id".toList [] }
  | .read => { op with dataBuf := op.dataBuf ++ data }
  | .size => { op with size := prop.getInt "Size".toList 0 }
  | .getChunkMetadata => { op with
      chunkVersion := prop.getInt "Chunk-version".toList 0
      chunkSize := prop.getInt "Size".toList 0
      dataBuf := op.dataBuf ++ data }
  | .writeSync => op

section

/- What the owners of the operations enqueue when one of them is done, after those that have been done. -/
variable (onDone : List RemoteOp → List RemoteOp)

def Ops.Enqueue (s : Ops) (op : RemoteOp) : Ops := { s with mDispatchedOps := s.mDispatchedOps ++ [op] }

def Ops.SubmitOpResponse (s : Ops) (op : RemoteOp) : Ops where
  mDispatchedOps := s.mDispatchedOps ++ onDone (s.submitted ++ [op])
  submitted := s.submitted ++ [op]

namespace RemoteSyncSM

/-- `none`: the body has not come yet. The count of the bytes in a buffer is an `int` in the source, and `nAvail` is
computed from it. A buffer into which a single read puts as much as `2 ^ 31` bytes is not looked at here. -/
def HandleResponse (st : RemoteSyncSM) (msgLen : ℕ) : Option RemoteSyncSM :=
  let prop := loadProperties ':' (cString (st.iobuf.take msgLen))
  let seqNum := prop.getLong "Cseq".toList (-1)
  let numBytes := (prop.getLong "Content-length".toList 0).toInt
  let nAvail : ℤ := st.iobuf.length - msgLen
  if nAvail < numBytes then none
  else
    let iobuf := st.iobuf.drop msgLen
    match st.ops.mDispatchedOps.find? fun op => op.seq = seqNum with
    | none => some ⟨st.ops, iobuf, st.taken ++ [(st.iobuf.take msgLen, [])]⟩
    | some op =>
      let numMoved := if op.op.takesData then numBytes.toNat else 0
      let ops := { st.ops with mDispatchedOps := st.ops.mDispatchedOps.eraseP fun op => op.seq = seqNum }
      some ⟨ops.SubmitOpResponse onDone (op.reply prop (iobuf.take numMoved)), iobuf.drop numMoved,
        st.taken ++ [(st.iobuf.take msgLen, iobuf.take numMoved)]⟩

/-- The loop over the buffer, at most `n` times. -/
def responseLoop : ℕ → RemoteSyncSM → RemoteSyncSM
  | 0, st => st
  | n + 1, st =>
    match IsMsgAvail st.iobuf with
    | none => st
    | some msgLen =>
      match st.HandleResponse onDone msgLen with
      | none => st
      | some st => responseLoop n st

end RemoteSyncSM

/-- An operation is sent, or something comes from the network. -/
inductive Event
  | enqueue (op : RemoteOp)
  | read (data : Str)

/-- `EVENT_NET_READ`: every turn of the loop takes something from the buffer. -/
def RemoteSyncSM.HandleEvent (st : RemoteSyncSM) : Event → RemoteSyncSM
  | .enqueue op => { st with ops := st.ops.Enqueue op }
  | .read data => RemoteSyncSM.responseLoop onDone (st.iobuf ++ data).length { st with iobuf := st.iobuf ++ data }

def RemoteSyncSM.start : RemoteSyncSM := ⟨⟨[], []⟩, [], []⟩

def run (es : List Event) : RemoteSyncSM := es.foldl (RemoteSyncSM.HandleEvent onDone) RemoteSyncSM.start

end

/-! ## The replies -/

/-- A header of a chunk server with the length of the body that follows it. A buffer counts its bytes by an `int`. -/
structure Reply where
  header : Header
  body : Str
  sound : header.Sound "OK".toList
  length : (header.props.getLong "Content-length".toList 0).toInt = body.length
  size : header.text.length + body.length < 2 ^ 31

namespace Reply

def text (r : Reply) : Str := r.header.text ++ r.body

def seq (r : Reply) : Int64 := r.header.props.getLong "Cseq".toList (-1)

/-- The operation that the reply is for. -/
def find (r : Reply) (s : Ops) : Option RemoteOp := s.mDispatchedOps.find? fun op => op.seq = r.seq

/-- A reply that is found, and has no body or an operation that takes it. -/
def Fits (r : Reply) (s : Ops) : Prop :=
  r.header.text.length ≤ MAX_RPC_HEADER_LEN ∧ (r.body = [] ∨ ∃ op, r.find s = some op ∧ op.op.takesData = true)

end Reply

section

variable (onDone : List RemoteOp → List RemoteOp)

/-- The operations after a reply that has been taken whole. -/
def Reply.answer (r : Reply) (s : Ops) : Ops :=
  match r.find s with
  | none => s
  | some op => Ops.SubmitOpResponse onDone { s with mDispatchedOps := s.mDispatchedOps.eraseP fun op => op.seq = r.seq }
      (op.reply r.header.props (if op.op.takesData then r.body else []))

/-- The replies of which all bytes are among `n`. -/
def arrived : List Reply → ℕ → List Reply
  | [], _ => []
  | r :: rs, n => if r.text.length ≤ n then r :: arrived rs (n - r.text.length) else []

def AllFit : Ops → List Reply → Prop
  | _, [] => True
  | s, r :: rs => r.Fits s ∧ AllFit (r.answer onDone s) rs

def answerAll (s : Ops) (rs : List Reply) : Ops := rs.foldl (fun s r => r.answer onDone s) s

/-- Every reply of the stream fits the operations that are outstanding when the last of its bytes comes; `n` bytes of
the stream are there. -/
def Taken : Ops → List Reply → ℕ → List Event → Prop
  | _, _, _, [] => True
  | s, rs, n, .enqueue op :: es => Taken (s.Enqueue op) rs n es
  | s, rs, n, .read data :: es =>
    let done := arrived rs (n + data.length)
    AllFit onDone s done ∧
      Taken (answerAll onDone s done) (rs.drop done.length) (n + data.length - (done.flatMap Reply.text).length) es

end

/-- What comes from the network. -/
def stream (es : List Event) : Str := es.flatMap fun
  | .enqueue _ => []
  | .read data => data

/-! ## One reply -/

namespace Reply

variable {r : Reply} {onDone : List RemoteOp → List RemoteOp} {st : RemoteSyncSM}

theorem length_text (r : Reply) : r.text.length = r.header.text.length + r.body.length := List.length_append

theorem text_ne_nil (r : Reply) : r.text ≠ [] := by
  intro h
  have hlen := congrArg List.length h
  rw [r.length_text, Header.length_text, Header.frame] at hlen
  simp only [List.length_nil] at hlen
  omega

theorem load (r : Reply) (rest : Str) :
    loadProperties ':' (cString ((r.header.text ++ rest).take r.header.text.length)) = r.header.props := by
  rw [List.take_left, cString_of_not_mem r.sound.nul, r.sound.load (by decide)]

/-- What is done with a reply that is at the front of the buffer. -/
theorem HandleResponse_front (r : Reply) (s : Ops) (rest : Str) (taken : List (Str × Str)) :
    RemoteSyncSM.HandleResponse onDone ⟨s, r.text ++ rest, taken⟩ r.header.text.length =
      some (if ∃ op, r.find s = some op ∧ op.op.takesData = true then
        ⟨r.answer onDone s, rest, taken ++ [(r.header.text, r.body)]⟩
      else ⟨r.answer onDone s, r.body ++ rest, taken ++ [(r.header.text, [])]⟩) := by
  have hprop := r.load (r.body ++ rest)
  have htext : r.text ++ rest = r.header.text ++ (r.body ++ rest) := List.append_assoc _ _ _
  have havail : ¬ ((r.header.text ++ (r.body ++ rest)).length - (r.header.text.length : ℤ) < r.body.length) := by
    simp only [List.length_append, Nat.cast_add]
    omega
  have hseq : r.header.props.getLong "Cseq".toList (-1) = r.seq := rfl
  simp only [RemoteSyncSM.HandleResponse, htext, hprop, r.length]
  rw [if_neg havail, hseq, List.take_left, List.drop_left, Int.toNat_natCast]
  unfold answer find
  cases s.mDispatchedOps.find? fun op => op.seq = r.seq with
  | none => simp
  | some op =>
    cases hdata : op.op.takesData with
    | false => simp [hdata]
    | true => simp [hdata]

/-- A reply with a short header is found at the front of the buffer. -/
theorem isMsgAvail_front (r : Reply) (h : r.header.text.length ≤ MAX_RPC_HEADER_LEN) (rest : Str) :
    IsMsgAvail (r.text ++ rest) = some r.header.text.length := by
  rw [text, List.append_assoc, r.sound.isMsgAvail, if_pos h]

/-- One with a long header is not, nor anything in front of it. -/
theorem isMsgAvail_long (r : Reply) (h : ¬ r.header.text.length ≤ MAX_RPC_HEADER_LEN) (rest : Str) :
    IsMsgAvail (r.text ++ rest) = none := by
  rw [text, List.append_assoc, r.sound.isMsgAvail, if_neg h]

/-- While a part of the reply is missing, nothing is taken. -/
theorem responseLoop_part (r : Reply) (s : Ops) (taken : List (Str × Str)) {b : Str} (hb : b <+: r.text)
    (hne : b ≠ r.text) (n : ℕ) : RemoteSyncSM.responseLoop onDone n ⟨s, b, taken⟩ = ⟨s, b, taken⟩ := by
  have hlt : b.length < r.text.length := lt_of_le_of_ne hb.length_le fun h => hne (hb.eq_of_length h)
  cases n with
  | zero => rfl
  | succ n =>
    rw [RemoteSyncSM.responseLoop]
    by_cases hshort : r.header.text.length ≤ MAX_RPC_HEADER_LEN
    · have hfound := r.isMsgAvail_front hshort []
      rw [List.append_nil] at hfound
      have havail := isMsgAvail_prefix hfound hb
      split_ifs at havail with hle
      · obtain ⟨c, rfl⟩ : r.header.text <+: b :=
          List.prefix_of_prefix_length_le ⟨r.body, rfl⟩ hb hle
        have hwait : ((r.header.text ++ c).length : ℤ) - r.header.text.length < r.body.length := by
          rw [r.length_text, List.length_append] at hlt
          rw [List.length_append]
          push_cast
          omega
        simp only [havail, RemoteSyncSM.HandleResponse, r.load c, r.length]
        rw [if_pos hwait]
      · simp only [havail]
    · have havail : IsMsgAvail b = none := by
        rw [Option.eq_none_iff_forall_ne_some]
        intro m hm
        obtain ⟨hm, hle⟩ := isMsgAvail_iff.1 hm
        obtain ⟨c, hc⟩ := hb
        have hcut : findEnd blankLine (r.text.take b.length) = some m ↔
            findEnd blankLine r.text = some m ∧ m ≤ b.length :=
          findEnd_take blankLine_ne_nil
        rw [← hc, List.take_left, hc] at hcut
        have hlong := r.isMsgAvail_long hshort []
        rw [List.append_nil, isMsgAvail_iff.2 ⟨(hcut.1 hm).1, hle⟩] at hlong
        cases hlong
      simp only [havail]

/-- What is to be taken from the buffer for a reply. -/
def whole (r : Reply) : Str × Str := (r.header.text, r.body)

/-- A reply that fits is taken. -/
theorem responseLoop_fits (r : Reply) {s : Ops} (h : r.Fits s) (rest : Str) (taken : List (Str × Str)) (n : ℕ) :
    RemoteSyncSM.responseLoop onDone (n + 1) ⟨s, r.text ++ rest, taken⟩ =
      RemoteSyncSM.responseLoop onDone n ⟨r.answer onDone s, rest, taken ++ [r.whole]⟩ := by
  obtain ⟨hshort, hbody⟩ := h
  simp only [RemoteSyncSM.responseLoop, r.isMsgAvail_front hshort, r.HandleResponse_front]
  by_cases hop : ∃ op, r.find s = some op ∧ op.op.takesData = true
  · rw [if_pos hop]
    rfl
  · have hnil := hbody.resolve_right hop
    rw [if_neg hop, whole, hnil, List.nil_append]

/-- One that is found and does not fit leaves its body. -/
theorem responseLoop_left (r : Reply) {s : Ops} (hshort : r.header.text.length ≤ MAX_RPC_HEADER_LEN)
    (h : ¬ r.Fits s) (rest : Str) (taken : List (Str × Str)) (n : ℕ) :
    r.body ≠ [] ∧ RemoteSyncSM.responseLoop onDone (n + 1) ⟨s, r.text ++ rest, taken⟩ =
      RemoteSyncSM.responseLoop onDone n ⟨r.answer onDone s, r.body ++ rest, taken ++ [(r.header.text, [])]⟩ := by
  have hop : ¬ ∃ op, r.find s = some op ∧ op.op.takesData = true := fun hop => h ⟨hshort, Or.inr hop⟩
  refine ⟨fun hnil => h ⟨hshort, Or.inl hnil⟩, ?_⟩
  simp only [RemoteSyncSM.responseLoop, r.isMsgAvail_front hshort, r.HandleResponse_front]
  rw [if_neg hop]

end Reply

/-! ## The replies of a stream -/

variable {onDone : List RemoteOp → List RemoteOp} {s : Ops} {b rest : Str} {taken : List (Str × Str)} {rs : List Reply}

theorem responseLoop_taken (n : ℕ) (st : RemoteSyncSM) :
    st.taken <+: (RemoteSyncSM.responseLoop onDone n st).taken := by
  induction n generalizing st with
  | zero => exact List.prefix_rfl
  | succ n ih =>
    rw [RemoteSyncSM.responseLoop]
    cases IsMsgAvail st.iobuf with
    | none => exact List.prefix_rfl
    | some msgLen =>
      dsimp only
      cases h : st.HandleResponse onDone msgLen with
      | none => exact List.prefix_rfl
      | some st' =>
        have hstep : st.taken <+: st'.taken := by
          unfold RemoteSyncSM.HandleResponse at h
          dsimp only at h
          split_ifs at h
          split at h
          · obtain rfl := Option.some.inj h
            exact List.prefix_append _ _
          · obtain rfl := Option.some.inj h
            exact List.prefix_append _ _
        exact hstep.trans (ih st')

/-- What has been taken stays taken. -/
theorem foldl_taken (es : List Event) (st : RemoteSyncSM) :
    st.taken <+: (es.foldl (RemoteSyncSM.HandleEvent onDone) st).taken := by
  induction es generalizing st with
  | nil => exact List.prefix_rfl
  | cons e es ih =>
    rw [List.foldl_cons]
    refine List.IsPrefix.trans ?_ (ih _)
    cases e with
    | enqueue op => exact List.prefix_rfl
    | read data => exact responseLoop_taken (st.iobuf ++ data).length ⟨st.ops, st.iobuf ++ data, st.taken⟩

/-- In front of a long header the connection stops. -/
theorem foldl_long (r : Reply) (h : ¬ r.header.text.length ≤ MAX_RPC_HEADER_LEN) (es : List Event) :
    ∃ s' rest', es.foldl (RemoteSyncSM.HandleEvent onDone) ⟨s, r.text ++ rest, taken⟩ =
      ⟨s', r.text ++ rest', taken⟩ := by
  induction es generalizing s rest with
  | nil => exact ⟨s, rest, rfl⟩
  | cons e es ih =>
    rw [List.foldl_cons]
    cases e with
    | enqueue op => exact ih
    | read data =>
      have hstop : RemoteSyncSM.HandleEvent onDone ⟨s, r.text ++ rest, taken⟩ (.read data) =
          ⟨s, r.text ++ (rest ++ data), taken⟩ := by
        rw [RemoteSyncSM.HandleEvent]
        dsimp only
        rw [List.append_assoc]
        cases (r.text ++ (rest ++ data)).length with
        | zero => rfl
        | succ n => simp only [RemoteSyncSM.responseLoop, r.isMsgAvail_long h]
      rw [hstop]
      exact ih

/-- The replies that fit are taken one after another. -/
theorem responseLoop_all (h : AllFit onDone s rs) (n : ℕ) :
    RemoteSyncSM.responseLoop onDone (rs.length + n) ⟨s, rs.flatMap Reply.text ++ rest, taken⟩ =
      RemoteSyncSM.responseLoop onDone n ⟨answerAll onDone s rs, rest, taken ++ rs.map Reply.whole⟩ := by
  induction rs generalizing s taken with
  | nil => simp [answerAll]
  | cons r rs ih =>
    obtain ⟨hfits, hall⟩ := h
    rw [List.flatMap_cons, List.append_assoc, List.length_cons, Nat.add_right_comm, r.responseLoop_fits hfits, ih hall,
      List.append_assoc]
    rfl

/-- Of some replies the first that does not fit. -/
theorem exists_not_fits (h : ¬ AllFit onDone s rs) :
    ∃ rs₁ r rs₂, rs = rs₁ ++ r :: rs₂ ∧ AllFit onDone s rs₁ ∧ ¬ r.Fits (answerAll onDone s rs₁) := by
  induction rs generalizing s with
  | nil => exact absurd trivial h
  | cons r rs ih =>
    by_cases hr : r.Fits s
    · obtain ⟨rs₁, r', rs₂, rfl, hall, hnot⟩ := ih fun hall => h ⟨hr, hall⟩
      exact ⟨r :: rs₁, r', rs₂, rfl, ⟨hr, hall⟩, hnot⟩
    · exact ⟨[], r, rs, rfl, trivial, hr⟩

theorem length_le_flatMap (rs : List Reply) : rs.length ≤ (rs.flatMap Reply.text).length := by
  induction rs with
  | nil => exact Nat.zero_le _
  | cons r rs ih =>
    have hpos := List.length_pos_of_ne_nil r.text_ne_nil
    rw [List.flatMap_cons, List.length_append, List.length_cons]
    omega

/-- The replies that have arrived, and those that have not. -/
theorem arrived_split {fut : Str} (h : b ++ fut = rs.flatMap Reply.text) :
    ∃ todo b', rs = arrived rs b.length ++ todo ∧ b = (arrived rs b.length).flatMap Reply.text ++ b' ∧
      b' ++ fut = todo.flatMap Reply.text ∧ arrived todo b'.length = [] := by
  induction rs generalizing b with
  | nil =>
    obtain ⟨rfl, rfl⟩ := List.append_eq_nil_iff.1 h
    exact ⟨[], [], rfl, rfl, rfl, rfl⟩
  | cons r rs ih =>
    by_cases hle : r.text.length ≤ b.length
    · rw [List.flatMap_cons] at h
      obtain ⟨b', rfl⟩ : r.text <+: b := List.prefix_of_prefix_length_le ⟨_, rfl⟩ ⟨fut, h⟩ hle
      rw [List.append_assoc, List.append_right_inj] at h
      obtain ⟨todo, b₁, hrs, hb, hfut, hnone⟩ := ih h
      have harrived : arrived (r :: rs) (r.text ++ b').length = r :: arrived rs b'.length := by
        rw [arrived, if_pos hle, List.length_append, Nat.add_sub_cancel_left]
      refine ⟨todo, b₁, ?_, ?_, hfut, hnone⟩
      · rw [harrived, List.cons_append, ← hrs]
      · rw [harrived, List.flatMap_cons, List.append_assoc, ← hb]
    · have harrived : arrived (r :: rs) b.length = [] := if_neg hle
      refine ⟨r :: rs, b, ?_, ?_, h, harrived⟩
      · rw [harrived, List.nil_append]
      · rw [harrived]
        rfl

/-- Before the next reply has arrived, nothing is taken. -/
theorem responseLoop_stop {fut : Str} (h : b ++ fut = rs.flatMap Reply.text) (hnone : arrived rs b.length = [])
    (n : ℕ) :
    RemoteSyncSM.responseLoop onDone n ⟨s, b, taken⟩ = ⟨s, b, taken⟩ := by
  cases rs with
  | nil =>
    obtain ⟨rfl, -⟩ := List.append_eq_nil_iff.1 h
    cases n with
    | zero => rfl
    | succ n => rfl
  | cons r rs =>
    have hlt : ¬ r.text.length ≤ b.length := by
      intro hle
      rw [arrived, if_pos hle] at hnone
      cases hnone
    rw [List.flatMap_cons] at h
    have hb : b <+: r.text := List.prefix_of_prefix_length_le ⟨fut, h⟩ ⟨_, rfl⟩ (by omega)
    exact r.responseLoop_part s taken hb (fun heq => hlt (heq ▸ le_rfl)) n

/-- After a reply that does not fit, the replies are not taken as they should be. -/
theorem foldl_not_fits (r : Reply) (h : ¬ r.Fits s) (n : ℕ) (es : List Event) (todo : List Reply) :
    ¬ ((es.foldl (RemoteSyncSM.HandleEvent onDone)
          (RemoteSyncSM.responseLoop onDone (n + 1) ⟨s, r.text ++ rest, taken⟩)).taken =
        taken ++ (r :: todo).map Reply.whole ∧
      (es.foldl (RemoteSyncSM.HandleEvent onDone)
          (RemoteSyncSM.responseLoop onDone (n + 1) ⟨s, r.text ++ rest, taken⟩)).iobuf = []) := by
  rintro ⟨hfinal, hempty⟩
  by_cases hshort : r.header.text.length ≤ MAX_RPC_HEADER_LEN
  · obtain ⟨hbody, hloop⟩ := r.responseLoop_left hshort h rest taken n
    have hprefix : taken ++ [(r.header.text, [])] <+: taken ++ (r :: todo).map Reply.whole := by
      rw [← hfinal, hloop]
      exact (responseLoop_taken n ⟨_, _, taken ++ [(r.header.text, [])]⟩).trans (foldl_taken es _)
    rw [List.prefix_append_right_inj, List.map_cons, List.cons_prefix_cons] at hprefix
    exact hbody (Prod.mk.inj hprefix.1).2.symm
  · have hstop : RemoteSyncSM.responseLoop onDone (n + 1) ⟨s, r.text ++ rest, taken⟩ = ⟨s, r.text ++ rest, taken⟩ := by
      simp only [RemoteSyncSM.responseLoop, r.isMsgAvail_long hshort]
    rw [hstop] at hempty
    obtain ⟨s', rest', hrun⟩ := @foldl_long onDone s rest taken r hshort es
    rw [hrun] at hempty
    exact r.text_ne_nil (List.append_eq_nil_iff.1 hempty).1

/-- The replies of a stream from some point on. -/
theorem foldl_iff (es : List Event) (h : b ++ stream es = rs.flatMap Reply.text) (hnone : arrived rs b.length = []) :
    ((es.foldl (RemoteSyncSM.HandleEvent onDone) ⟨s, b, taken⟩).taken = taken ++ rs.map Reply.whole ∧
        (es.foldl (RemoteSyncSM.HandleEvent onDone) ⟨s, b, taken⟩).iobuf = []) ↔ Taken onDone s rs b.length es := by
  induction es generalizing s b taken rs with
  | nil =>
    rw [stream, List.flatMap_nil, List.append_nil] at h
    cases rs with
    | nil => exact iff_of_true ⟨(List.append_nil _).symm, h⟩ trivial
    | cons r rs =>
      rw [arrived, h, if_pos (by rw [List.flatMap_cons, List.length_append]; exact Nat.le_add_right _ _)] at hnone
      cases hnone
  | cons e es ih =>
    cases e with
    | enqueue op => exact ih h hnone
    | read data =>
      have hstream : (b ++ data) ++ stream es = rs.flatMap Reply.text := by
        rw [List.append_assoc]
        exact h
      obtain ⟨todo, b', hrs, hb, hfut, hnone'⟩ := arrived_split hstream
      rw [List.foldl_cons]
      set done := arrived rs (b ++ data).length with hdone
      have hcount : (b ++ data).length = done.length + ((b ++ data).length - done.length) := by
        have hle := length_le_flatMap done
        have hlen : (b ++ data).length = (done.flatMap Reply.text).length + b'.length := by
          rw [← List.length_append, ← hb]
        omega
      have hstep : RemoteSyncSM.HandleEvent onDone ⟨s, b, taken⟩ (.read data) =
          RemoteSyncSM.responseLoop onDone (done.length + ((b ++ data).length - done.length))
            ⟨s, done.flatMap Reply.text ++ b', taken⟩ := by
        rw [← hcount, ← hb]
        rfl
      have htaken : Taken onDone s rs b.length (.read data :: es) ↔
          AllFit onDone s done ∧ Taken onDone (answerAll onDone s done) todo b'.length es := by
        have hleft : rs.drop done.length = todo := by
          conv_lhs => rw [hrs, List.drop_left]
        have hlen : b.length + data.length - (done.flatMap Reply.text).length = b'.length := by
          rw [← List.length_append, hb, List.length_append, Nat.add_sub_cancel_left]
        rw [Taken, ← List.length_append, ← hdone, hleft, List.length_append, hlen]
      rw [htaken, hstep]
      by_cases hall : AllFit onDone s done
      · rw [responseLoop_all hall, responseLoop_stop hfut hnone', and_iff_right hall, ← ih hfut hnone']
        rw [hrs, List.map_append, List.append_assoc]
      · -- after the first reply that does not fit
        refine iff_of_false ?_ fun h => hall h.1
        obtain ⟨rs₁, r, rs₂, hsplit, hall, hnot⟩ := exists_not_fits hall
        rw [hrs, hsplit, List.append_assoc, List.cons_append, List.flatMap_append, List.flatMap_cons, List.append_assoc,
          List.append_assoc, List.length_append, List.length_cons]
        rw [show ∀ k, rs₁.length + (rs₂.length + 1) + k = rs₁.length + (rs₂.length + k + 1) by omega,
          responseLoop_all hall, List.map_append, ← List.append_assoc taken]
        exact foldl_not_fits r hnot _ _ _

/-- **The replies of a stream are taken one by one, each with its header and its body and nothing else**, exactly when
each of them fits the operations that are outstanding when it has come. -/
theorem consumed_iff {es : List Event} (h : stream es = rs.flatMap Reply.text) :
    ((run onDone es).taken = rs.map Reply.whole ∧ (run onDone es).iobuf = []) ↔ Taken onDone ⟨[], []⟩ rs 0 es := by
  have hnone : arrived rs ([] : Str).length = [] := by
    cases rs with
    | nil => rfl
    | cons r rs => exact if_neg (List.length_pos_of_ne_nil r.text_ne_nil).not_ge
  exact foldl_iff es h hnone

/-- A reply with the status 0. -/
def okReply (seq length : String) : Header :=
  ⟨"OK".toList, [⟨"Cseq: ".toList, seq.toList⟩, ⟨"Status: ".toList, "0".toList⟩,
    ⟨"Content-length: ".toList, length.toList⟩]⟩

/-- The data of a READ. -/
def readReply : Reply where
  header := okReply "1" "3"
  body := "abc".toList
  sound := ⟨by decide +kernel, ⟨by decide, by decide⟩, ⟨by decide, by decide⟩, ⟨by decide, by decide⟩⟩
  length := by decide +kernel
  size := by decide +kernel

/-- They come in two pieces. -/
def readEvents : List Event :=
  [.enqueue ⟨.read, 1, 0, [], 0, 0, 0, []⟩, .read (readReply.header.text ++ "a".toList), .read "bc".toList]

theorem consumed_read : (run (fun _ => []) readEvents).taken = [readReply].map Reply.whole ∧
    (run (fun _ => []) readEvents).iobuf = [] := by
  refine (consumed_iff (by decide +kernel)).2 ?_
  have hpart : arrived [readReply] (0 + (readReply.header.text ++ "a".toList).length) = [] :=
    if_neg (by decide +kernel)
  have hwhole : arrived [readReply] ((readReply.header.text ++ "a".toList).length + "bc".toList.length) = [readReply] :=
    if_pos (by decide +kernel)
  rw [readEvents, Taken, Taken, hpart]
  refine ⟨trivial, ?_⟩
  simp only [List.length_nil, List.flatMap_nil, Nat.sub_zero, Nat.zero_add, List.drop_zero, answerAll, List.foldl_nil,
    Taken, hwhole]
  refine ⟨⟨⟨by decide +kernel, Or.inr ⟨_, rfl, rfl⟩⟩, trivial⟩, trivial⟩

/-- The data of a READ that nobody waits for. They look like a header. -/
def lateReply : Reply where
  header := okReply "9" "11"
  body := "Cseq: 1\r\n\r\n".toList
  sound := ⟨by decide +kernel, ⟨by decide, by decide⟩, ⟨by decide, by decide⟩, ⟨by decide, by decide⟩⟩
  length := by decide +kernel
  size := by decide +kernel

/-- The reply to a sync. -/
def syncReply : Reply where
  header := okReply "1" "0"
  body := []
  sound := ⟨by decide +kernel, ⟨by decide, by decide⟩, ⟨by decide, by decide⟩, ⟨by decide, by decide⟩⟩
  length := by decide +kernel
  size := by decide +kernel

def lateEvents : List Event := [.enqueue ⟨.writeSync, 1, 0, [], 0, 0, 0, []⟩, .read (lateReply.text ++ syncReply.text)]

/-- The data are taken for the reply to the sync. -/
theorem late_not_consumed : stream lateEvents = [lateReply, syncReply].flatMap Reply.text ∧
    (run (fun _ => []) lateEvents).taken ≠ [lateReply, syncReply].map Reply.whole := by
  decide +kernel

end Kfs.RemoteSync
