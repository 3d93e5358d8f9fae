import Rut.Io.Event

/-!
# The io_uring backend

`io_uring_backend.cc`: the operations queue an entry in the submission ring, the kernel takes entries
from there and posts completions, and `wait` turns completions into events. A send is finished by
`wait` itself: a short count is not reported, the rest is queued again from the state kept for the
connection.

The rings are lists, oldest entry first. An entry for a send carries the bytes it points to and, for
the statements only, the ticket of the call it comes from; the completion of an entry has its ticket.
-/

namespace Rut.Io

def kCancelConnId : UInt32 := 0xFFFFFD

def kMaxSendState : Nat := 16384

def kENOSPC : Nat := 28

/-- `IoUringBackend::SendState`: what is left of the last send of a connection. -/
structure SendState where
  src : Str := []
  fd : Int := -1
  offset : UInt32 := 0
  remaining : UInt32 := 0
deriving DecidableEq, Repr

inductive Opcode where
  | read | accept | recv | send | connect | timeout | asyncCancel
deriving DecidableEq, Repr

/-- A submission entry. -/
structure Sqe where
  opcode : Opcode
  fd : Int
  /-- the bytes at `addr` of a send, as many as `len` says -/
  bytes : Str := []
  userData : UInt64
  ticket : Option Nat := none
deriving DecidableEq, Repr

/-- A completion entry. -/
structure Cqe where
  userData : UInt64
  res : Int
  /-- the provided buffer the kernel has chosen, and what it has put there -/
  buffer : Option (UInt16 × Str) := none
  more : Bool := false
  ticket : Option Nat := none
deriving DecidableEq, Repr

/-- The two buffers of a connection that `wait` fills. -/
structure RecvBufs where
  recvBuf : Buffer := {}
  upstreamRecvBuf : Buffer := {}
deriving DecidableEq, Repr

structure IoUringBackend where
  /-- `params.sq_entries` -/
  sqRingEntries : Nat := 16384
  listenFd : Int := 0
  timerFd : Int := 1
  sq : List Sqe := []
  cq : List Cqe := []
  timerReadArmed : Bool := false
  /-- `timer_ticks_buf`, which the kernel writes -/
  timerTicksBuf : UInt64 := 0
  sendState : Nat → SendState := fun _ => {}
  /-- the provided buffers given back, in order -/
  returned : List UInt16 := []

namespace IoUringBackend

/-- `get_sqe`, the entry, `sqe_advance_tail`: nothing if the ring is full. -/
def push (b : IoUringBackend) (sqe : Sqe) : Option IoUringBackend :=
  if b.sqRingEntries ≤ b.sq.length then none else some { b with sq := b.sq ++ [sqe] }

def submitTimerRead (b : IoUringBackend) : IoUringBackend :=
  if b.timerReadArmed then b
  else
    match b.push { opcode := .read, fd := b.timerFd,
                   userData := encodeUserData kTimerConnId .timeout 0 } with
    | none => b
    | some b => { b with timerReadArmed := true }

/-! ## Operations -/

def addAccept (b : IoUringBackend) : Option IoUringBackend :=
  b.push { opcode := .accept, fd := b.listenFd, userData := encodeUserData 0 .accept 0 }

/-- `add_recv` and `add_recv_upstream` differ in the kind only. -/
def submitRecv (type : EventType) (b : IoUringBackend) (fd : Int) (connId : UInt32) :
    Option IoUringBackend :=
  b.push { opcode := .recv, fd, userData := encodeUserData connId type 0 }

def addRecv := submitRecv .recv

def addRecvUpstream := submitRecv .upstreamRecv

def addConnect (b : IoUringBackend) (fd : Int) (connId : UInt32) : Option IoUringBackend :=
  b.push { opcode := .connect, fd, userData := encodeUserData connId .upstreamConnect 0 }

/-- `add_yield_timeout`, with the generation the connection has counted up to; without the second
attempt it makes when the ring is full. -/
def addYieldTimeout (b : IoUringBackend) (connId gen : UInt32) : Option IoUringBackend :=
  b.push { opcode := .timeout, fd := -1, userData := encodeUserData connId .handlerTimer gen }

/-- `send_state[conn_id] = ss`, for a connection that has a place in the array. -/
def setSendState (b : IoUringBackend) (connId : UInt32) (ss : SendState) : IoUringBackend :=
  { b with sendState := if connId.toNat < kMaxSendState
                        then Function.update b.sendState connId.toNat ss else b.sendState }

/-- `add_send` and `add_send_upstream` differ in the kind only. Both use the one state of the
connection. -/
def submitSend (type : EventType) (b : IoUringBackend) (fd : Int) (connId : UInt32) (buf : Str)
    (ticket : Nat) : Option IoUringBackend :=
  (b.push { opcode := .send, fd, bytes := buf, userData := encodeUserData connId type 0,
            ticket }).map
    (·.setSendState connId { src := buf, fd, offset := 0, remaining := .ofNat buf.length })

def addSend := submitSend .send

def addSendUpstream := submitSend .upstreamSend

/-! ## Harvesting -/

/-- What one completion leads to. -/
structure Harvested where
  backend : IoUringBackend
  conns : Nat → RecvBufs
  event : Option IoEvent := none

/-- The completion of the timer read: a tick, and the next read. -/
def harvestTimer (b : IoUringBackend) (conns : Nat → RecvBufs) (cqe : Cqe) : Harvested where
  backend := { b with timerReadArmed := false }.submitTimerRead
  conns
  event := if cqe.res = 8 then
      some { connId := 0, type := .timeout, result := min b.timerTicksBuf.toNat 0x7FFFFFFF }
    else none

/-- A completion with a provided buffer: copy what fits, give the buffer back. -/
def harvestBuffer (maxConns : Nat) (b : IoUringBackend) (conns : Nat → RecvBufs) (cqe : Cqe)
    (connId : UInt32) (type : EventType) (bufId : UInt16) (data : Str) : Harvested :=
  let given := { b with returned := b.returned ++ [bufId] }
  let event (result : Int) : IoEvent := { connId, type, result, more := cqe.more }
  if 0 < cqe.res ∧ connId.toNat < maxConns then
    let bufs := conns connId.toNat
    let bytes := data.take cqe.res.toNat
    if type = .upstreamRecv then
      let (buf, result) := bufs.upstreamRecvBuf.deliver kSliceSize bytes
      ⟨given, Function.update conns connId.toNat { bufs with upstreamRecvBuf := buf },
        some (event result)⟩
    else
      let (buf, result) := bufs.recvBuf.deliver kSliceSize bytes
      ⟨given, Function.update conns connId.toNat { bufs with recvBuf := buf },
        some (event result)⟩
  else ⟨given, conns, some (event cqe.res)⟩

/-- The last branch: the completion as it is, or the generation of a handler's timer. -/
def harvestDefault (b : IoUringBackend) (conns : Nat → RecvBufs) (cqe : Cqe) (connId : UInt32)
    (type : EventType) (aux : UInt32) : Harvested where
  backend := b
  conns
  event := some { connId, type, result := if type = .handlerTimer then toI32 aux else cqe.res,
                  more := cqe.more, ticket := cqe.ticket }

/-- A count of bytes sent: the rest again, or the event. -/
def harvestSend (b : IoUringBackend) (conns : Nat → RecvBufs) (cqe : Cqe) (connId : UInt32)
    (type : EventType) : Harvested :=
  let ss := b.sendState connId.toNat
  let nw := UInt32.ofNat cqe.res.toNat
  let ss := { ss with offset := ss.offset + nw, remaining := ss.remaining - nw }
  -- The kind of the event is fixed here, also for a send to the upstream.
  let event (result : Int) : IoEvent := { connId, type := .send, result, ticket := cqe.ticket }
  if 0 < ss.remaining then
    match b.push { opcode := .send, fd := ss.fd,
                   bytes := (ss.src.drop ss.offset.toNat).take ss.remaining.toNat,
                   userData := encodeUserData connId type 0, ticket := cqe.ticket } with
    | some b => ⟨b.setSendState connId ss, conns, none⟩
    | none => ⟨b.setSendState connId { ss with remaining := 0 }, conns, some (event (-kENOSPC))⟩
  else ⟨b.setSendState connId ss, conns, some (event (toI32 ss.offset))⟩

/-- One round of the loop of `wait`. -/
def harvestCqe (maxConns : Nat) (b : IoUringBackend) (conns : Nat → RecvBufs) (cqe : Cqe) :
    Harvested :=
  let (connId, type, aux) := decodeUserData cqe.userData
  if connId = kCancelConnId then ⟨b, conns, none⟩
  else if connId = kTimerConnId ∧ type = .timeout then harvestTimer b conns cqe
  else
    match cqe.buffer with
    | some (bufId, data) => harvestBuffer maxConns b conns cqe connId type bufId data
    | none =>
      if ((type = .send ∨ type = .upstreamSend) ∧ connId.toNat < kMaxSendState) ∧
          0 < cqe.res ∧ 0 < (b.sendState connId.toNat).remaining then
        harvestSend b conns cqe connId type
      else harvestDefault b conns cqe connId type aux

end IoUringBackend

/-! ## The ring with its kernel -/

/-- A call of `add_send` or `add_send_upstream`. -/
structure Submission where
  upstream : Bool
  fd : Int := 0
  connId : UInt32
  buf : Str
deriving DecidableEq, Repr

/-- The kind of the entry that is queued for it. -/
def Submission.type (s : Submission) : EventType := if s.upstream then .upstreamSend else .send

/-- What the kernel makes of an entry it has taken. -/
structure Answer where
  res : Int
  buffer : Option (UInt16 × Str) := none
  more : Bool := false
  ticks : UInt64 := 0
deriving Repr

/-- The completion of an entry. Of a send the kernel never takes more than it is asked to, and
nothing follows. -/
def Answer.post (a : Answer) (q : Sqe) : Cqe :=
  if q.opcode = .send then
    { userData := q.userData, res := min a.res q.bytes.length, ticket := q.ticket }
  else { userData := q.userData, res := a.res, buffer := a.buffer, more := a.more,
         ticket := q.ticket }

structure Ring where
  backend : IoUringBackend := {}
  /-- the entries the kernel works on -/
  inflight : List Sqe := []
  conns : Nat → RecvBufs := fun _ => {}
  /-- the sends that were accepted; a ticket is a position here -/
  submissions : List Submission := []
  /-- the bytes the kernel has taken, by ticket -/
  taken : Nat → Str := fun _ => []
  /-- everything `wait` has reported -/
  events : List IoEvent := []

namespace Ring

/-- The operations other than sends. -/
inductive Op where
  | accept
  | recv (fd : Int) (connId : UInt32)
  | recvUpstream (fd : Int) (connId : UInt32)
  | connect (fd : Int) (connId : UInt32)
  | yieldTimeout (connId gen : UInt32)

def Op.add (b : IoUringBackend) : Op → Option IoUringBackend
  | .accept => b.addAccept
  | .recv fd connId => b.addRecv fd connId
  | .recvUpstream fd connId => b.addRecvUpstream fd connId
  | .connect fd connId => b.addConnect fd connId
  | .yieldTimeout connId gen => b.addYieldTimeout connId gen

/-- What can happen. A call of `wait` is an `enter`, completions as they come, and a `harvest`. -/
inductive Step where
  | send (s : Submission)
  | add (op : Op)
  /-- the first half of `wait`: `io_uring_enter`, by which the kernel takes `n` entries -/
  | enter (n : Nat)
  /-- the kernel answers one of the entries it works on -/
  | complete (i : Nat) (a : Answer)
  /-- the second half of `wait` -/
  | harvest (maxEvents maxConns : Nat)

/-- A send is a submission if the call has returned true. -/
def send (r : Ring) (s : Submission) : Ring :=
  match IoUringBackend.submitSend s.type r.backend s.fd s.connId s.buf r.submissions.length with
  | none => r
  | some b => { r with backend := b, submissions := r.submissions ++ [s] }

def add (r : Ring) (op : Op) : Ring := { r with backend := (op.add r.backend).getD r.backend }

def enter (r : Ring) (n : Nat) : Ring :=
  let b := r.backend.submitTimerRead
  { r with backend := { b with sq := b.sq.drop n }, inflight := r.inflight ++ b.sq.take n }

def complete (r : Ring) (i : Nat) (a : Answer) : Ring :=
  match r.inflight[i]? with
  | none => r
  | some q =>
    let c := a.post q
    { r with
      backend := { r.backend with
        cq := r.backend.cq ++ [c]
        timerTicksBuf := if q.opcode = .read then a.ticks else r.backend.timerTicksBuf }
      inflight := if c.more then r.inflight else r.inflight.eraseIdx i
      taken := match q.ticket with
        | none => r.taken
        | some t => Function.update r.taken t (r.taken t ++ q.bytes.take c.res.toNat) }

/-- One round of the loop of `wait`, with the completion taken off the ring. -/
def harvestCqe (maxConns : Nat) (r : Ring) (cqe : Cqe) (cq : List Cqe) : Ring :=
  let h := { r.backend with cq }.harvestCqe maxConns r.conns cqe
  { r with backend := h.backend, conns := h.conns, events := r.events ++ h.event.toList }

/-- The loop of `wait`, over the completions that are there when it starts: it ends early after
`room` events. -/
def harvestLoop (maxConns : Nat) : Nat → Nat → Ring → Ring
  | 0, _, r => r
  | cqes + 1, room, r =>
    match r.backend.cq with
    | [] => r
    | cqe :: cq =>
      if room = 0 then r
      else
        let r' := r.harvestCqe maxConns cqe cq
        harvestLoop maxConns cqes (room - (r'.events.length - r.events.length)) r'

def harvest (r : Ring) (maxEvents maxConns : Nat) : Ring :=
  harvestLoop maxConns r.backend.cq.length maxEvents r

def step (r : Ring) : Step → Ring
  | .send s => r.send s
  | .add op => r.add op
  | .enter n => r.enter n
  | .complete i a => r.complete i a
  | .harvest maxEvents maxConns => r.harvest maxEvents maxConns

def run (r : Ring) (steps : List Step) : Ring := steps.foldl step r

end Ring

end Rut.Io
