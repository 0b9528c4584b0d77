import Kfs.Io.Refine

/-!
# Connections

A `NetConnection` keeps what is to be sent in one buffer and what has come in in another. The socket takes and brings as
many bytes as it likes, and the blocks of both buffers share memory with blocks that the process goes on to use.

* `writeLoop`, `readLoop`: `IOBuffer::Write` and `IOBuffer::Read`, for any answers of the socket;
* `Peer`: a process with a connection, with `StartFlush`, `HandleWriteEvent`, `HandleReadEvent`;
* `Link`, `Link.step`: the two ends of a connection and the bytes on their way;
* `Streams`: what has been handed over at one end and not been taken at the other is in the buffers or on its way;
* **`run_streams`**: so it is in every run.
-/

namespace Kfs.Io

open Kfs.Lib
open IOBuffer (Fresh view_congr)

/-! ## The loops -/

/-- The loop of `Write`: the buffer, the number of bytes that have been taken, and the last result of `write`. An answer
of the socket is the number of bytes that it can take, `none` is an error; it has no answers when it is full. -/
def IOBuffer.writeLoop : List (Option ℕ) → IOBuffer → IOBuffer × ℕ × Option ℕ
  | [], buf => (buf.dropWhile IOBufferData.IsEmpty, 0, none)
  | none :: _, buf => (buf.dropWhile IOBufferData.IsEmpty, 0, none)
  | some k :: answers, buf =>
    match buf.dropWhile IOBufferData.IsEmpty with
    | [] => ([], 0, none)
    | data :: buf =>
      let n := min k data.BytesConsumable
      if n = 0 then (data :: buf, 0, some 0)
      else
        let (buf, nwrote, res) := writeLoop answers ((data.Consume n).2 :: buf)
        (buf, n + nwrote, res)

namespace World

variable (IOBUFSIZE : BlockSize) (w : World) (i : ℕ)

/-- The last block of the buffer. -/
def back : Option IOBufferData := (w.bufs i).getLast?

/-- The buffer gets a new block when its last one is full. -/
def makeSpace : World :=
  if (w.back i).all fun data => data.SpaceAvailable = 0 then
    let (data, m) := IOBufferData.new w.mem IOBUFSIZE
    { w.set i (w.bufs i ++ [data]) with mem := m }
  else w

/-- What `read` has brought is in the last block. -/
def fillBack (bytes : List UInt8) : World :=
  match w.back i with
  | none => w
  | some data =>
    let (_, data, m) := data.CopyIn w.mem bytes
    { w.set i ((w.bufs i).dropLast ++ [data]) with mem := m }

/-- The loop of `Read`, with the bytes that are on their way: what is left of them, the number of bytes that have come
in and the last result of `read`. An answer of the socket is the number of bytes that it brings at most, 0 at the end of
the stream, `none` for an error. -/
def readLoop : List (Option ℕ) → World → List UInt8 → World × List UInt8 × ℕ × Option ℕ
  | [], w, wire => (w.makeSpace IOBUFSIZE i, wire, 0, none)
  | none :: _, w, wire => (w.makeSpace IOBUFSIZE i, wire, 0, none)
  | some k :: answers, w, wire =>
    let w := w.makeSpace IOBUFSIZE i
    let n := min k (min (((w.back i).map IOBufferData.SpaceAvailable).getD 0) wire.length)
    if k = 0 then (w, wire, 0, some 0)
    else if n = 0 then (w, wire, 0, none)
    else
      let (w, wire, nread, res) := readLoop answers (w.fillBack i (wire.take n)) (wire.drop n)
      (w, wire, n + nread, res)

end World

/-! ## A connection -/

def EAGAIN : ℤ := 11

/-- The result of both loops; after an error at once it is `errno`, which is positive. -/
def ioResult (num : ℕ) (res : Option ℕ) (errno : ℕ) : ℤ :=
  if int num = 0 ∧ res = none then (if errno = 0 then -EAGAIN else errno) else int num

/-- The answers of the socket, and what `errno` is after them. -/
structure SockIO where
  answers : List (Option ℕ)
  errno : ℕ

inductive NetEvent
  | EVENT_NET_READ
  | EVENT_NET_WROTE
  | EVENT_NET_ERROR
  deriving DecidableEq

/-- The event that the owner of the connection gets. -/
def netEvent (code : NetEvent) (n : ℤ) : Option NetEvent :=
  if n = 0 then some .EVENT_NET_ERROR else if 0 < n then some code else none

/-- A connection; `mInBuffer` and `mOutBuffer` are the numbers of its buffers. -/
structure NetConnection where
  mEnableReadIfOverloaded : Bool
  mDoingNonblockingConnect : Bool
  mLastFlushResult : ℤ
  mInBuffer : ℕ
  mOutBuffer : ℕ

/-- A process with a connection. -/
structure Peer where
  conn : NetConnection
  world : World

namespace Peer

variable (p : Peer)

def outBytes : List UInt8 := p.world.view p.conn.mOutBuffer

def inBytes : List UInt8 := p.world.view p.conn.mInBuffer

/-- `IOBuffer::Write`: the number of bytes that the socket has taken, and the result. -/
def write (io : SockIO) : Peer × ℕ × ℤ :=
  let (buf, nwrote, res) := IOBuffer.writeLoop io.answers (p.world.bufs p.conn.mOutBuffer)
  -- without a byte to send nothing is asked of the socket
  let n := if p.outBytes = [] then -EAGAIN else ioResult nwrote res io.errno
  ({ p with world := p.world.set p.conn.mOutBuffer buf }, nwrote, n)

def StartFlush (io : SockIO) : Peer × ℕ :=
  if p.conn.mLastFlushResult < 0 ∨ p.conn.mDoingNonblockingConnect ∨
      IOBuffer.BytesConsumable (p.world.bufs p.conn.mOutBuffer) ≤ 0 then (p, 0)
  else
    let (p, nwrote, n) := p.write io
    ({ p with conn := { p.conn with mLastFlushResult := n } }, nwrote)

def HandleWriteEvent (io : SockIO) : Peer × ℕ × Option NetEvent :=
  let p := { p with conn := { p.conn with mDoingNonblockingConnect := false, mLastFlushResult := 0 } }
  if IOBuffer.BytesConsumable (p.world.bufs p.conn.mOutBuffer) ≤ 0 then (p, 0, none)
  else
    let (p, nwrote, n) := p.write io
    (p, nwrote, netEvent .EVENT_NET_WROTE n)

def HandleReadEvent (IOBUFSIZE : BlockSize) (isSystemOverloaded : Bool) (io : SockIO) (wire : List UInt8) :
    Peer × List UInt8 × Option NetEvent :=
  if isSystemOverloaded ∧ ¬ p.conn.mEnableReadIfOverloaded then (p, wire, none)
  else
    let (world, wire, nread, res) := p.world.readLoop IOBUFSIZE p.conn.mInBuffer io.answers wire
    ({ p with world }, wire, netEvent .EVENT_NET_READ (ioResult nread res io.errno))

end Peer

/-! ## Two ends -/

/-- The ends of a connection, each with the bytes that it has sent and that have not come in. The last three fields are
history: the bytes of the buffers of each process, what it has handed over and what it has taken. -/
structure Link where
  peer : Bool → Peer
  wire : Bool → List UInt8
  spec : Bool → Spec
  sent : Bool → List UInt8
  taken : Bool → List UInt8

inductive LinkEv
  /-- the process of one end works with its buffers -/
  | own (side : Bool) (op : Op)
  | flush (side : Bool) (io : SockIO)
  | writable (side : Bool) (io : SockIO)
  | readable (side : Bool) (isSystemOverloaded : Bool) (io : SockIO)

namespace Link

variable (IOBUFSIZE : BlockSize) (l : Link)

/-- The first `n` bytes to be sent are on their way. -/
def sendOff (side : Bool) (p : Peer) (n : ℕ) : Link :=
  let out := (l.peer side).conn.mOutBuffer
  let bytes := (l.peer side).outBytes
  { l with
    peer := Function.update l.peer side p
    wire := Function.update l.wire side (l.wire side ++ bytes.take n)
    spec := Function.update l.spec side ((l.spec side).set out (bytes.drop n) ((l.spec side).trimmed out)) }

/-- What the bytes on their way were is in the buffer, but for `wire`. -/
def bringIn (side : Bool) (p : Peer) (wire : List UInt8) : Link :=
  let inn := (l.peer side).conn.mInBuffer
  let bytes := (l.wire !side).take ((l.wire !side).length - wire.length)
  { l with
    peer := Function.update l.peer side p
    wire := Function.update l.wire (!side) wire
    spec := Function.update l.spec side
      ((l.spec side).set inn ((l.peer side).inBytes ++ bytes) ((l.spec side).trimmed inn)) }

/-- What is new in the one buffer has been handed over, what is missing in the other has been taken. -/
def work (side : Bool) (op : Op) (world : World) : Link :=
  let p := l.peer side
  let p' : Peer := { p with world }
  { l with
    peer := Function.update l.peer side p'
    spec := Function.update l.spec side ((l.spec side).step op)
    sent := Function.update l.sent side (l.sent side ++ p'.outBytes.drop p.outBytes.length)
    taken := Function.update l.taken side
      (l.taken side ++ p.inBytes.take (p.inBytes.length - p'.inBytes.length)) }

/-- `none` when an assertion fails. -/
def step : LinkEv → Option Link
  | .own side op => ((l.peer side).world.step IOBUFSIZE op).map (l.work side op)
  | .flush side io =>
    let (p, n) := (l.peer side).StartFlush io
    some (l.sendOff side p n)
  | .writable side io =>
    let (p, n, _) := (l.peer side).HandleWriteEvent io
    some (l.sendOff side p n)
  | .readable side isSystemOverloaded io =>
    let (p, wire, _) := (l.peer side).HandleReadEvent IOBUFSIZE isSystemOverloaded io (l.wire !side)
    some (l.bringIn side p wire)

def run (l : Link) : List LinkEv → Option Link
  | [] => some l
  | ev :: evs => (l.step IOBUFSIZE ev).bind fun l => l.run evs

end Link

/-! ## What the loops do -/

section Loops

variable {s : Spec} {w : World} {i : ℕ} {m : Memory} {buf : IOBuffer} {IOBUFSIZE : BlockSize}

/-- Blocks without bytes are not missed. -/
theorem dropWhile_isEmpty_view : IOBuffer.view m (buf.dropWhile IOBufferData.IsEmpty) = IOBuffer.view m buf := by
  induction buf with
  | nil => rfl
  | cons data buf ih =>
    rw [List.dropWhile_cons]
    split_ifs with hempty
    · rw [ih, IOBuffer.view_cons, IOBuffer.view_of_isEmpty hempty, List.nil_append]
    · rfl

theorem dropWhile_shapes : List.Sublist (shapes (buf.dropWhile IOBufferData.IsEmpty)) (shapes buf) :=
  (List.dropWhile_sublist _).map _

/-- What the socket has taken is the first part of the buffer. -/
theorem writeLoop_view : ∀ {answers : List (Option ℕ)} {buf : IOBuffer},
    IOBuffer.view m (IOBuffer.writeLoop answers buf).1 =
        (IOBuffer.view m buf).drop (IOBuffer.writeLoop answers buf).2.1 ∧
      List.Sublist (shapes (IOBuffer.writeLoop answers buf).1) (shapes buf) := by
  intro answers
  induction answers with
  | nil => exact fun {buf} => ⟨dropWhile_isEmpty_view, dropWhile_shapes⟩
  | cons answer answers ih =>
    intro buf
    cases answer with
    | none => exact ⟨dropWhile_isEmpty_view, dropWhile_shapes⟩
    | some k =>
      have hview := @dropWhile_isEmpty_view m buf
      have hsub := @dropWhile_shapes buf
      rw [IOBuffer.writeLoop]
      cases hd : buf.dropWhile IOBufferData.IsEmpty with
      | nil => exact ⟨by rw [← hview, hd]; rfl, List.nil_sublist _⟩
      | cons data rest =>
        rw [hd] at hview hsub
        dsimp only
        split_ifs with hzero
        · exact ⟨by rw [← hview]; rfl, hsub⟩
        · obtain ⟨hrest, hshapes⟩ := @ih ((data.Consume (min k data.BytesConsumable)).2 :: rest)
          have hle : min k data.BytesConsumable ≤ (data.view m).length := by
            rw [IOBufferData.length_view]
            exact min_le_right _ _
          refine ⟨?_, hshapes.trans hsub⟩
          rw [hrest, ← hview, IOBuffer.view_cons, IOBuffer.view_cons, IOBufferData.Consume_view, ← List.drop_drop]
          exact congrArg _ (List.drop_append_of_le_length hle).symm

theorem Spec.set_self : s.set i (s.view i ++ []) (s.trimmed i) = s := by
  rw [Spec.set, List.append_nil, Function.update_eq_self, Function.update_eq_self]

/-- A new block shows nothing. -/
theorem makeSpace_refines (h : Refines s w) : Refines s (w.makeSpace IOBUFSIZE i) := by
  rw [World.makeSpace]
  split_ifs
  · have hfresh : Fresh w.mem (IOBufferData.new w.mem IOBUFSIZE).2 [(IOBufferData.new w.mem IOBUFSIZE).1] := ⟨rfl, rfl⟩
    have hview : IOBuffer.view (IOBufferData.new w.mem IOBUFSIZE).2
        (w.bufs i ++ [(IOBufferData.new w.mem IOBUFSIZE).1]) = s.view i ++ [] := by
      rw [IOBuffer.view_append, ← h.view i]
      rfl
    have hext := h.extend (h.owned.extend (i := i) hfresh) hview fun _ _ => rfl
    rw [Spec.set_self] at hext
    exact hext
  · exact h

/-- The memory behind the producer of the last block is seen by nobody. -/
theorem fillBack_refines {data : IOBufferData} {bytes : List UInt8} (h : Refines s w) (ht : s.trimmed i = false)
    (hback : w.back i = some data) (hfits : bytes.length ≤ data.SpaceAvailable) :
    Refines (s.set i (s.view i ++ bytes) (s.trimmed i)) (w.fillBack i bytes) := by
  obtain ⟨pre, hbuf⟩ : ∃ pre, w.bufs i = pre ++ [data] := List.getLast?_eq_some_iff.1 hback
  have hin : data ∈ w.bufs i := by
    rw [hbuf]
    exact List.mem_append_right _ List.mem_cons_self
  have howned := h.owned.fill hbuf ht (n := bytes.length)
  have hfree : 0 < bytes.length → data.mProducer < data.mEnd := fun hpos => Nat.lt_of_sub_pos (hpos.trans_le hfits)
  have hold : ∀ k, ∀ d ∈ w.bufs k, d.view (w.mem.write data.mData data.mProducer bytes) = d.view w.mem := by
    intro k d hd
    rcases Nat.eq_zero_or_pos bytes.length with hnil | hpos
    · rw [List.length_eq_zero_iff.1 hnil, Memory.write_nil]
    · exact IOBufferData.view_write fun heq => h.owned.seen i ht data hin (hfree hpos) k d hd heq
  have hfill : w.fillBack i bytes = { w.set i (pre ++ [data.Fill bytes.length]) with
      mem := w.mem.write data.mData data.mProducer bytes } := by
    rw [World.fillBack, hback]
    simp only [IOBufferData.CopyIn, min_eq_left hfits, hbuf, List.dropLast_concat, List.take_length]
  rw [hfill]
  refine h.extend ⟨howned.allocated, howned.seen, howned.apart⟩ ?_ fun k _ => view_congr (hold k)
  rw [IOBuffer.view_append, view_congr fun d hd => hold i d (by rw [hbuf]; exact List.mem_append_left _ hd),
    IOBuffer.view_cons, IOBufferData.Fill_view hfits, ← h.view i, World.view, hbuf, IOBuffer.view_append,
    IOBuffer.view_cons, IOBuffer.view_nil, IOBuffer.view_nil, List.append_nil, List.append_nil, List.append_assoc]

/-- What has come in is the first part of what was on its way. -/
theorem readLoop_refines : ∀ {answers : List (Option ℕ)} {s : Spec} {w : World} {wire : List UInt8}, Refines s w →
    s.trimmed i = false → ∃ got, wire = got ++ (World.readLoop IOBUFSIZE i answers w wire).2.1 ∧
      Refines (s.set i (s.view i ++ got) (s.trimmed i)) (World.readLoop IOBUFSIZE i answers w wire).1 := by
  intro answers
  induction answers with
  | nil =>
    intro s w wire h _
    refine ⟨[], rfl, ?_⟩
    rw [Spec.set_self]
    exact makeSpace_refines h
  | cons answer answers ih =>
    intro s w wire h ht
    have hspace := @makeSpace_refines _ _ i IOBUFSIZE h
    have hstay : Refines (s.set i (s.view i ++ []) (s.trimmed i)) (w.makeSpace IOBUFSIZE i) := by
      rw [Spec.set_self]
      exact hspace
    cases answer with
    | none => exact ⟨[], rfl, hstay⟩
    | some k =>
      rw [World.readLoop]
      dsimp only
      split_ifs with heof hnone
      · exact ⟨[], rfl, hstay⟩
      · exact ⟨[], rfl, hstay⟩
      · cases hback : (w.makeSpace IOBUFSIZE i).back i with
        | none =>
          rw [hback] at hnone
          exact absurd (by simp) hnone
        | some data =>
          set n := min k (min ((Option.map IOBufferData.SpaceAvailable (some data)).getD 0) wire.length) with hn
          have hle : (wire.take n).length ≤ data.SpaceAvailable := by
            rw [List.length_take]
            exact (min_le_left _ _).trans ((min_le_right _ _).trans (min_le_left _ _))
          have hfill := fillBack_refines hspace ht hback hle
          have hsame : (s.set i (s.view i ++ wire.take n) (s.trimmed i)).trimmed i = false :=
            (Function.update_self ..).trans ht
          obtain ⟨got, hwire, hgot⟩ := @ih _ _ (wire.drop n) hfill hsame
          refine ⟨wire.take n ++ got, ?_, ?_⟩
          · rw [List.append_assoc, ← hwire, List.take_append_drop]
          · have hset : (s.set i (s.view i ++ (wire.take n ++ got)) (s.trimmed i)) =
                ((s.set i (s.view i ++ wire.take n) (s.trimmed i)).set i
                  ((s.set i (s.view i ++ wire.take n) (s.trimmed i)).view i ++ got)
                  ((s.set i (s.view i ++ wire.take n) (s.trimmed i)).trimmed i)) := by
              simp [Spec.set, Function.update_idem]
            rw [hset]
            exact hgot

end Loops

/-! ## What a process may do -/

/-- What is legal with lists of bytes, and a copy into a trimmed buffer when nobody shares the memory of its last
block. -/
def Op.Permitted (s : Spec) (w : World) : Op → Prop
  | .copyIn i bytes => (s.trimmed i = false ∨ w.LastAlone i) ∧ bytes.length < 2 ^ 31
  | op => s.Legal op

/-- Nothing but the connection puts bytes into the in buffer or takes them from the out buffer. -/
def Op.Keeps (inn out : ℕ) : Op → Prop
  | .block i _ _ _ | .zeroFill i _ | .copyIn i _ => i ≠ inn
  | .append i j | .move i j _ => i ≠ inn ∧ j ≠ out
  | .copyOut _ _ => True
  | .consume i _ => i ≠ out
  | .trim i _ => i ≠ inn ∧ i ≠ out
  | .clone _ j => j ≠ inn ∧ j ≠ out

section Keeps

/-- What a permitted operation preserves. -/
theorem Refines.permitted {s : Spec} {w : World} {op : Op} (h : Refines s w) (IOBUFSIZE : BlockSize)
    (hp : op.Permitted s w) : ∃ w', w.step IOBUFSIZE op = some w' ∧ Refines (s.step op) w' := by
  cases op with
  | copyIn i bytes => exact copyIn_refines h hp.1
  | _ => exact step_refines h hp

variable {s : Spec} {inn out : ℕ} {op : Op}

/-- The out buffer gets bytes at its end. -/
theorem Op.Keeps.handed (h : op.Keeps inn out) :
    ∃ added, (s.step op).view out = s.view out ++ added := by
  have hset : ∀ {i bytes b}, i = out ∨ i ≠ out → ∃ added, (s.set i (s.view i ++ bytes) b).view out =
      s.view out ++ added := by
    rintro i bytes b (rfl | hne)
    · exact ⟨bytes, Spec.set_view_self⟩
    · exact ⟨[], by rw [Spec.set_view_of_ne hne.symm, List.append_nil]⟩
  cases op with
  | block i old bytes free => exact hset (eq_or_ne _ _)
  | zeroFill i n => exact hset (eq_or_ne _ _)
  | copyIn i bytes => exact hset (eq_or_ne _ _)
  | append i j =>
    obtain ⟨added, hadded⟩ := hset (eq_or_ne i out)
    exact ⟨added, by rw [Spec.step, Spec.set_view_of_ne h.2.symm]; exact hadded⟩
  | move i j n =>
    obtain ⟨added, hadded⟩ := hset (eq_or_ne i out)
    exact ⟨added, by rw [Spec.step, Spec.set_view_of_ne h.2.symm]; exact hadded⟩
  | copyOut i n => exact ⟨[], (List.append_nil _).symm⟩
  | consume i n => exact ⟨[], by rw [Spec.step, Spec.set_view_of_ne h.symm, List.append_nil]⟩
  | trim i n => exact ⟨[], by rw [Spec.step, Spec.set_view_of_ne h.2.symm, List.append_nil]⟩
  | clone i j => exact ⟨[], by rw [Spec.step, Spec.set_view_of_ne h.2.symm, List.append_nil]⟩

/-- The in buffer loses bytes at its front, and is not trimmed. -/
theorem Op.Keeps.took (h : op.Keeps inn out) (ht : s.trimmed inn = false) :
    (∃ took, s.view inn = took ++ (s.step op).view inn) ∧ (s.step op).trimmed inn = false := by
  have hset : ∀ {s : Spec} {i bytes b}, i ≠ inn → (s.set i bytes b).view inn = s.view inn ∧
      (s.set i bytes b).trimmed inn = s.trimmed inn :=
    fun hne => ⟨Spec.set_view_of_ne hne.symm, Function.update_of_ne hne.symm ..⟩
  have hother : ∀ {i bytes b}, i ≠ inn → (∃ took, s.view inn = took ++ (s.set i bytes b).view inn) ∧
      (s.set i bytes b).trimmed inn = false := by
    intro i bytes b hne
    rw [(hset hne).1, (hset hne).2]
    exact ⟨⟨[], rfl⟩, ht⟩
  cases op with
  | block i old bytes free => exact hother h
  | zeroFill i n => exact hother h
  | copyIn i bytes => exact hother h
  | append i j =>
    rcases eq_or_ne j inn with rfl | hj
    · exact ⟨⟨s.view j, by rw [Spec.step, Spec.set_view_self, List.append_nil]⟩, Function.update_self ..⟩
    · rw [Spec.step, (hset hj).1, (hset hj).2]
      exact hother h.1
  | move i j n =>
    rcases eq_or_ne j inn with rfl | hj
    · exact ⟨⟨(s.view j).take n, by rw [Spec.step, Spec.set_view_self, List.take_append_drop]⟩,
        (Function.update_self ..).trans ht⟩
    · rw [Spec.step, (hset hj).1, (hset hj).2]
      exact hother h.1
  | copyOut i n => exact ⟨⟨[], rfl⟩, ht⟩
  | consume i n =>
    rcases eq_or_ne i inn with rfl | hi
    · exact ⟨⟨(s.view i).take n, by rw [Spec.step, Spec.set_view_self, List.take_append_drop]⟩,
        (Function.update_self ..).trans ht⟩
    · exact hother hi
  | trim i n => exact hother h.1
  | clone i j => exact hother h.1

end Keeps

/-! ## What the events do -/

/-- The first `n` bytes of the out buffer are gone, and nothing else has changed. -/
structure Sends (p p' : Peer) (n : ℕ) : Prop where
  inn : p'.conn.mInBuffer = p.conn.mInBuffer
  out : p'.conn.mOutBuffer = p.conn.mOutBuffer
  world : ∃ buf, p'.world = p.world.set p.conn.mOutBuffer buf ∧
    IOBuffer.view p.world.mem buf = p.outBytes.drop n ∧
    List.Sublist (shapes buf) (shapes (p.world.bufs p.conn.mOutBuffer))

section Events

variable {p : Peer} {io : SockIO} {IOBUFSIZE : BlockSize}

theorem Sends.nothing {conn : NetConnection} (hin : conn.mInBuffer = p.conn.mInBuffer)
    (hout : conn.mOutBuffer = p.conn.mOutBuffer) : Sends p { p with conn } 0 := by
  refine ⟨hin, hout, p.world.bufs p.conn.mOutBuffer, ?_, rfl, List.Sublist.refl _⟩
  rw [World.set, Function.update_eq_self]

theorem write_sends : Sends p (p.write io).1 (p.write io).2.1 :=
  ⟨rfl, rfl, _, rfl, writeLoop_view.1, (writeLoop_view (m := p.world.mem)).2⟩

theorem StartFlush_sends : Sends p (p.StartFlush io).1 (p.StartFlush io).2 := by
  rw [Peer.StartFlush]
  split_ifs
  · exact Sends.nothing rfl rfl
  · exact ⟨rfl, rfl, write_sends.world⟩

theorem HandleWriteEvent_sends : Sends p (p.HandleWriteEvent io).1 (p.HandleWriteEvent io).2.1 := by
  rw [Peer.HandleWriteEvent]
  dsimp only
  split_ifs
  · exact Sends.nothing rfl rfl
  · exact ⟨rfl, rfl, write_sends.world⟩

/-- The in buffer has the first part of what was on its way. -/
theorem HandleReadEvent_brings {s : Spec} {overloaded : Bool} {wire : List UInt8} (h : Refines s p.world)
    (ht : s.trimmed p.conn.mInBuffer = false) :
    (p.HandleReadEvent IOBUFSIZE overloaded io wire).1.conn = p.conn ∧
      ∃ got, wire = got ++ (p.HandleReadEvent IOBUFSIZE overloaded io wire).2.1 ∧
        Refines (s.set p.conn.mInBuffer (s.view p.conn.mInBuffer ++ got) (s.trimmed p.conn.mInBuffer))
          (p.HandleReadEvent IOBUFSIZE overloaded io wire).1.world := by
  rw [Peer.HandleReadEvent]
  split_ifs
  · exact ⟨rfl, [], rfl, by rwa [Spec.set_self]⟩
  · exact ⟨rfl, readLoop_refines h ht⟩

end Events

/-! ## Runs -/

/-- What has been handed over at one end is what has been taken at the other, what is in the buffers and what is on its
way. -/
structure Streams (l : Link) : Prop where
  refines : ∀ side, Refines (l.spec side) (l.peer side).world
  apart : ∀ side, (l.peer side).conn.mInBuffer ≠ (l.peer side).conn.mOutBuffer
  whole : ∀ side, (l.spec side).trimmed (l.peer side).conn.mInBuffer = false
  bytes : ∀ side, l.taken (!side) ++ (l.peer !side).inBytes ++ l.wire side ++ (l.peer side).outBytes = l.sent side

namespace Link

/-- What a process does with its buffers is permitted, and leaves the connection its part. -/
def Legal (l : Link) : LinkEv → Prop
  | .own side op => op.Permitted (l.spec side) (l.peer side).world ∧
    op.Keeps (l.peer side).conn.mInBuffer (l.peer side).conn.mOutBuffer
  | _ => True

def LegalRun (IOBUFSIZE : BlockSize) (l : Link) : List LinkEv → Prop
  | [] => True
  | ev :: evs => l.Legal ev ∧ ∀ l', l.step IOBUFSIZE ev = some l' → l'.LegalRun IOBUFSIZE evs

/-- A connection that has just been made. -/
def start (conn : Bool → NetConnection) (mem : Memory) : Link :=
  ⟨fun side => ⟨conn side, .empty mem⟩, fun _ => [], fun _ => .empty, fun _ => [], fun _ => []⟩

end Link

section Steps

variable {l : Link} {side : Bool} {p : Peer} {n : ℕ} {wire : List UInt8} {IOBUFSIZE : BlockSize}

theorem Streams.start {conn : Bool → NetConnection} {mem : Memory}
    (h : ∀ side, (conn side).mInBuffer ≠ (conn side).mOutBuffer) : Streams (Link.start conn mem) :=
  ⟨fun _ => Refines.empty, h, fun _ => rfl, fun _ => rfl⟩

theorem not_ne_self : (!side) ≠ side := by cases side <;> decide

/-- A statement about the two ends. -/
theorem both_sides {P : Bool → Prop} (side : Bool) (here : P side) (there : P !side) : ∀ other, P other := by
  intro other
  rcases eq_or_ne other side with rfl | hne
  · exact here
  · rw [Bool.eq_not_of_ne hne]
    exact there

/-- What leaves the buffer is on its way. -/
theorem Streams.sendOff (h : Streams l) (hp : Sends (l.peer side) p n) : Streams (l.sendOff side p n) := by
  obtain ⟨buf, hworld, hview, hsub⟩ := hp.world
  have hpeer : (l.sendOff side p n).peer side = p := Function.update_self ..
  have hother : (l.sendOff side p n).peer (!side) = l.peer !side := Function.update_of_ne not_ne_self ..
  have hspec : (l.sendOff side p n).spec side = (l.spec side).set (l.peer side).conn.mOutBuffer
      ((l.peer side).outBytes.drop n) ((l.spec side).trimmed (l.peer side).conn.mOutBuffer) := Function.update_self ..
  have hspec' : (l.sendOff side p n).spec (!side) = l.spec !side := Function.update_of_ne not_ne_self ..
  have hwire : (l.sendOff side p n).wire side = l.wire side ++ (l.peer side).outBytes.take n :=
    Function.update_self ..
  have hwire' : (l.sendOff side p n).wire (!side) = l.wire !side := Function.update_of_ne not_ne_self ..
  have hout : p.outBytes = (l.peer side).outBytes.drop n := by
    rw [Peer.outBytes, hp.out, hworld, set_view_self, hview]
  have hin : p.inBytes = (l.peer side).inBytes := by
    rw [Peer.inBytes, hp.inn, hworld, set_view_of_ne (h.apart side)]
    rfl
  refine ⟨both_sides side ?_ ?_, both_sides side ?_ ?_, both_sides side ?_ ?_, both_sides side ?_ ?_⟩
  · rw [hspec, hpeer, hworld]
    refine (h.refines side).set ?_ hview
    rw [Function.update_eq_self]
    exact (h.refines side).owned.shrink hsub
  · rw [hspec', hother]
    exact h.refines _
  · rw [hpeer, hp.inn, hp.out]
    exact h.apart side
  · rw [hother]
    exact h.apart _
  · rw [hpeer, hspec, hp.inn]
    exact (Function.update_of_ne (h.apart side) ..).trans (h.whole side)
  · rw [hother, hspec']
    exact h.whole _
  · rw [hpeer, hother, hwire, hout]
    have hbytes := h.bytes side
    rw [← List.take_append_drop n (l.peer side).outBytes] at hbytes
    simp only [List.append_assoc] at hbytes ⊢
    exact hbytes
  · rw [hother, hwire', Bool.not_not, hpeer, hin]
    have hbytes := h.bytes !side
    rw [Bool.not_not] at hbytes
    exact hbytes

/-- What was on its way is in the buffer. -/
theorem Streams.bringIn {got : List UInt8} (h : Streams l) (hconn : p.conn = (l.peer side).conn)
    (hwire : (l.wire !side) = got ++ wire)
    (hp : Refines ((l.spec side).set (l.peer side).conn.mInBuffer
      ((l.spec side).view (l.peer side).conn.mInBuffer ++ got)
      ((l.spec side).trimmed (l.peer side).conn.mInBuffer)) p.world) : Streams (l.bringIn side p wire) := by
  have hgot : (l.wire !side).take ((l.wire !side).length - wire.length) = got := by
    rw [hwire, List.length_append, Nat.add_sub_cancel, List.take_left]
  have hsee : (l.peer side).inBytes = (l.spec side).view (l.peer side).conn.mInBuffer := (h.refines side).view _
  have hpeer : (l.bringIn side p wire).peer side = p := Function.update_self ..
  have hother : (l.bringIn side p wire).peer (!side) = l.peer !side := Function.update_of_ne not_ne_self ..
  have hspec : (l.bringIn side p wire).spec side = (l.spec side).set (l.peer side).conn.mInBuffer
      ((l.spec side).view (l.peer side).conn.mInBuffer ++ got)
      ((l.spec side).trimmed (l.peer side).conn.mInBuffer) := by
    rw [Link.bringIn, hgot, hsee]
    exact Function.update_self ..
  have hspec' : (l.bringIn side p wire).spec (!side) = l.spec !side := Function.update_of_ne not_ne_self ..
  have hwires : (l.bringIn side p wire).wire side = l.wire side := Function.update_of_ne not_ne_self.symm ..
  have hwires' : (l.bringIn side p wire).wire (!side) = wire := Function.update_self ..
  have hin : p.inBytes = (l.peer side).inBytes ++ got := by
    rw [Peer.inBytes, hconn, hp.view, Spec.set_view_self, hsee]
  have hout : p.outBytes = (l.peer side).outBytes := by
    rw [Peer.outBytes, hconn, hp.view, Spec.set_view_of_ne (h.apart side).symm, ← (h.refines side).view]
    rfl
  refine ⟨both_sides side ?_ ?_, both_sides side ?_ ?_, both_sides side ?_ ?_, both_sides side ?_ ?_⟩
  · rw [hspec, hpeer]
    exact hp
  · rw [hspec', hother]
    exact h.refines _
  · rw [hpeer, hconn]
    exact h.apart side
  · rw [hother]
    exact h.apart _
  · rw [hpeer, hspec, hconn]
    exact (Function.update_self ..).trans (h.whole side)
  · rw [hother, hspec']
    exact h.whole _
  · rw [hpeer, hother, hwires, hout]
    exact h.bytes side
  · rw [hother, hwires', Bool.not_not, hpeer, hin]
    have hbytes := h.bytes !side
    rw [Bool.not_not, hwire] at hbytes
    simp only [List.append_assoc] at hbytes ⊢
    exact hbytes

/-- What a process takes was at the front of its in buffer, what it hands over is at the end of its out buffer. -/
theorem Streams.work {op : Op} {world : World} (h : Streams l)
    (hkeeps : op.Keeps (l.peer side).conn.mInBuffer (l.peer side).conn.mOutBuffer)
    (hworld : Refines ((l.spec side).step op) world) : Streams (l.work side op world) := by
  obtain ⟨added, hadded⟩ := @Op.Keeps.handed (l.spec side) _ _ _ hkeeps
  obtain ⟨⟨took, htook⟩, hwhole⟩ := hkeeps.took (h.whole side)
  have hpeer : (l.work side op world).peer side = { l.peer side with world } := Function.update_self ..
  have hother : (l.work side op world).peer (!side) = l.peer !side := Function.update_of_ne not_ne_self ..
  have hspec : (l.work side op world).spec side = (l.spec side).step op := Function.update_self ..
  have hspec' : (l.work side op world).spec (!side) = l.spec !side := Function.update_of_ne not_ne_self ..
  have hout : ({ l.peer side with world } : Peer).outBytes = (l.peer side).outBytes ++ added := by
    rw [Peer.outBytes, hworld.view, hadded, ← (h.refines side).view]
    rfl
  have hin : (l.peer side).inBytes = took ++ ({ l.peer side with world } : Peer).inBytes := by
    rw [Peer.inBytes, (h.refines side).view, htook, Peer.inBytes, hworld.view]
  have hsent : (l.work side op world).sent side = l.sent side ++ added := by
    rw [Link.work, hout, List.drop_left]
    exact Function.update_self ..
  have hsent' : (l.work side op world).sent (!side) = l.sent !side := Function.update_of_ne not_ne_self ..
  have htaken : (l.work side op world).taken side = l.taken side ++ took := by
    have hlen : (l.peer side).inBytes.length - ({ l.peer side with world } : Peer).inBytes.length = took.length := by
      rw [hin, List.length_append, Nat.add_sub_cancel]
    have htake : (l.peer side).inBytes.take took.length = took := by
      rw [hin, List.take_left]
    rw [Link.work, hlen, htake]
    exact Function.update_self ..
  have htaken' : (l.work side op world).taken (!side) = l.taken !side := Function.update_of_ne not_ne_self ..
  refine ⟨both_sides side ?_ ?_, both_sides side ?_ ?_, both_sides side ?_ ?_, both_sides side ?_ ?_⟩
  · rw [hspec, hpeer]
    exact hworld
  · rw [hspec', hother]
    exact h.refines _
  · rw [hpeer]
    exact h.apart side
  · rw [hother]
    exact h.apart _
  · rw [hpeer, hspec]
    exact hwhole
  · rw [hother, hspec']
    exact h.whole _
  · rw [htaken', hother, hpeer, hout, hsent, ← h.bytes side, ← List.append_assoc]
    rfl
  · rw [Bool.not_not, htaken, hpeer, hother, hsent', ← h.bytes !side, Bool.not_not, hin]
    simp only [List.append_assoc]
    rfl

/-- What one step preserves. -/
theorem Streams.step {ev : LinkEv} (h : Streams l) (hlegal : l.Legal ev) :
    ∃ l', l.step IOBUFSIZE ev = some l' ∧ Streams l' := by
  cases ev with
  | own side op =>
    obtain ⟨world, hstep, hworld⟩ := (h.refines side).permitted IOBUFSIZE hlegal.1
    exact ⟨l.work side op world, by rw [Link.step, hstep]; rfl, h.work hlegal.2 hworld⟩
  | flush side io => exact ⟨_, rfl, h.sendOff StartFlush_sends⟩
  | writable side io => exact ⟨_, rfl, h.sendOff HandleWriteEvent_sends⟩
  | readable side overloaded io =>
    obtain ⟨hconn, got, hgot, hrefines⟩ := @HandleReadEvent_brings _ io IOBUFSIZE _ overloaded (l.wire !side)
      (h.refines side) (h.whole side)
    exact ⟨_, rfl, h.bringIn hconn hgot hrefines⟩

theorem Streams.run {evs : List LinkEv} (h : Streams l) (hlegal : l.LegalRun IOBUFSIZE evs) :
    ∃ l', l.run IOBUFSIZE evs = some l' ∧ Streams l' := by
  induction evs generalizing l with
  | nil => exact ⟨l, rfl, h⟩
  | cons ev evs ih =>
    obtain ⟨l₁, hstep, h₁⟩ := @Streams.step l IOBUFSIZE ev h hlegal.1
    obtain ⟨l', hrun, h'⟩ := ih h₁ (hlegal.2 l₁ hstep)
    refine ⟨l', ?_, h'⟩
    rw [Link.run, hstep]
    exact hrun

end Steps

/-- Three bytes that have been cut from a longer block are handed over, and one more is copied in behind them; the
socket takes three and brings two of them, one of which is taken. -/
def cutBlock : List LinkEv :=
  [.own true (.block 2 [] [1, 2, 3, 9] []), .own true (.trim 2 3), .own true (.append 1 2), .own true (.copyIn 1 [4]),
    .flush true ⟨[some 3], 11⟩, .readable false false ⟨[some 2], 11⟩, .own false (.consume 0 1)]

/-- The last block of the out buffer is the one that has been cut. -/
theorem cutBlock_alone {w : World} (h1 : w.bufs 1 = [⟨0, 0, 3, 4, by decide, by decide⟩])
    (hothers : ∀ k, k ≠ 1 → w.bufs k = []) : w.LastAlone 1 := by
  intro pre data hbuf
  rw [h1] at hbuf
  have hlen := congrArg List.length hbuf
  rw [List.length_append, List.length_singleton, List.length_singleton] at hlen
  obtain rfl := List.length_eq_zero_iff.1 (by omega : pre.length = 0)
  refine ⟨fun d hd => absurd hd List.not_mem_nil, fun k hk d hd => ?_⟩
  rw [hothers k hk] at hd
  exact absurd hd List.not_mem_nil

end Kfs.Io
