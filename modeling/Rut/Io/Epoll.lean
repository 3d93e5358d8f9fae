import Rut.Io.Event

/-!
# The epoll backend

`epoll_backend.cc`: a reactor that looks like a proactor. An operation is tried at once; if it ends
there, its event is queued for the next `wait`, and if not, what is left is kept in the state of the
connection and the descriptor is registered for what it waits for. `wait` hands out the queued events,
asks the kernel which descriptors are ready and does the work there.

What the kernel (and the TLS library) answers is an argument of each call. Calls that `EINTR` has
interrupted are left out where the source repeats them.
-/

namespace Rut.Io

def kListenConnId : UInt32 := 0xFFFFFF

def kMaxFdMap : Nat := 16384

def kMaxEventsPerWait : Nat := 256

def kPendingCompletions : Nat := 64

def kEPIPE : Nat := 32

def kEINVAL : Nat := 22

namespace Epoll

/-! ## What the kernel answers -/

/-- `send`: at most as many bytes as offered, `EAGAIN`, or another error. -/
inductive Sent where
  | count (n : Nat)
  | again
  | error (errno : Nat)
deriving DecidableEq, Repr

/-- What a TLS call waits for: `SSL_ERROR_WANT_READ` or `SSL_ERROR_WANT_WRITE`. -/
inductive Want where
  | read | write
deriving DecidableEq, Repr

/-- `SSL_write`: some bytes (one more than `n`, at most as many as offered), a wait, or an error as
`map_tls_error` maps it. -/
inductive Written where
  | count (n : Nat)
  | want (w : Want)
  | error (result : Int)
deriving DecidableEq, Repr

/-- `recv` and `SSL_read`: bytes, as far as there is room; a wait comes from `SSL_read` only, no bytes
from `recv` only. -/
inductive Received where
  | bytes (data : Str)
  | want (w : Want)
  | error (result : Int)
deriving DecidableEq, Repr

/-- `SSL_accept` -/
inductive Handshake where
  | complete
  | want (w : Want)
  | error (result : Int)
deriving DecidableEq, Repr

/-- `connect` -/
inductive Connected where
  | connected
  | inProgress
  | error (errno : Nat)
deriving DecidableEq, Repr

/-- The events a descriptor is registered for. -/
structure Mask where
  input : Bool := false
  output : Bool := false
deriving DecidableEq, Repr

def Mask.epollin : Mask := { input := true }

/-- `tls_interest_for_error` -/
def Want.interest : Want → Mask
  | .read => .epollin
  | .write => { output := true }

/-- `tls_send_interest_for_error`: `EPOLLIN` and what the error asks for. -/
def Want.sendInterest (w : Want) : Mask := { input := true, output := w.interest.output }

/-- What a descriptor is registered with; `encode_data` loses nothing. -/
structure Registration where
  connId : UInt32
  type : EventType
  mask : Mask
deriving DecidableEq, Repr

/-- One entry of `ep_events`, with the answers to the calls made for it. -/
structure Ready where
  fd : Int
  input : Bool := false
  output : Bool := false
  /-- `EPOLLHUP`, `EPOLLERR` or `EPOLLRDHUP` -/
  hangup : Bool := false
  /-- `accept4`, until it fails -/
  accepted : List Int := []
  /-- `read` on a timer -/
  ticks : Option UInt64 := none
  /-- `SO_ERROR` -/
  soError : Nat := 0
  handshake : Handshake := .complete
  received : Received := .bytes []
  sent : List Sent := []
  written : List Written := []
deriving DecidableEq, Repr

/-- What `wait` reads of a connection. -/
structure Conn where
  recvBuf : Buffer := {}
  upstreamRecvBuf : Buffer := {}
  tlsActive : Bool := false
  /-- whether there is a TLS object -/
  tls : Bool := false
  tlsHandshakeComplete : Bool := false
deriving DecidableEq, Repr

/-- `EpollBackend::SendState` -/
structure SendState where
  src : Option Str := none
  fd : Int := -1
  offset : Nat := 0
  remaining : Nat := 0
  type : EventType := .send
  tls : Bool := false
  tlsWaitEvents : Option Want := none
deriving DecidableEq, Repr

end Epoll

open Epoll

structure EpollBackend where
  listenFd : Int := -1
  timerFd : Int := -1
  yieldTimerFd : Int := -1
  downstreamFdMap : Nat → Int := fun _ => -1
  upstreamFdMap : Nat → Int := fun _ => -1
  /-- the first `pending_count` of `pending_completions` -/
  pending : List IoEvent := []
  sendState : Nat → Epoll.SendState := fun _ => {}
  /-- the interest list of the epoll instance -/
  interest : Int → Option Registration := fun _ => none

namespace EpollBackend

def queue (b : EpollBackend) (e : IoEvent) : EpollBackend :=
  if b.pending.length < kPendingCompletions then { b with pending := b.pending ++ [e] } else b

/-- Queue an event in the last place if there is no other: `queue_pending_completion` with
`force_slot`, and the same written out. -/
def queueForced (b : EpollBackend) (e : IoEvent) : EpollBackend :=
  { b with pending := b.pending.take (kPendingCompletions - 1) ++ [e] }

/-- `set_fd_interest`, when the kernel does not fail. -/
def setFdInterest (b : EpollBackend) (fd : Int) (connId : UInt32) (type : EventType) (mask : Mask) :
    EpollBackend :=
  { b with interest := Function.update b.interest fd (some ⟨connId, type, mask⟩) }

/-- `EPOLL_CTL_ADD` -/
def ctlAdd (b : EpollBackend) (fd : Int) (connId : UInt32) (type : EventType) (mask : Mask) :
    EpollBackend :=
  if (b.interest fd).isSome then b else b.setFdInterest fd connId type mask

def setSendState (b : EpollBackend) (connId : UInt32) (ss : Epoll.SendState) : EpollBackend :=
  { b with sendState := if connId.toNat < kMaxFdMap
                        then Function.update b.sendState connId.toNat ss else b.sendState }

def rearmRecvInterest (b : EpollBackend) (connId : UInt32) (type : EventType) : EpollBackend :=
  if kMaxFdMap ≤ connId.toNat then b
  else if type = .upstreamRecv ∨ type = .upstreamSend then
    let fd := b.upstreamFdMap connId.toNat
    if 0 ≤ fd then b.setFdInterest fd connId .upstreamRecv .epollin else b
  else
    let fd := b.downstreamFdMap connId.toNat
    if 0 ≤ fd then b.setFdInterest fd connId .recv .epollin else b

/-- `init`, and `add_accept`. -/
def init (listenFd timerFd yieldTimerFd : Int) : EpollBackend :=
  let b : EpollBackend := { listenFd, timerFd, yieldTimerFd }
  ((b.setFdInterest timerFd kTimerConnId .timeout .epollin).setFdInterest yieldTimerFd kTimerConnId
    .handlerTimer .epollin).setFdInterest listenFd kListenConnId .accept .epollin

/-! ## Operations -/

def addRecv (b : EpollBackend) (fd : Int) (connId : UInt32) : EpollBackend :=
  let b := if connId.toNat < kMaxFdMap then
      { b with downstreamFdMap := Function.update b.downstreamFdMap connId.toNat fd } else b
  b.setFdInterest fd connId .recv .epollin

def setUpstreamFd (b : EpollBackend) (connId : UInt32) (fd : Int) : EpollBackend :=
  if connId.toNat < kMaxFdMap then
    { b with upstreamFdMap := Function.update b.upstreamFdMap connId.toNat fd } else b

def addRecvUpstream (b : EpollBackend) (fd : Int) (connId : UInt32) : EpollBackend :=
  (b.setUpstreamFd connId fd).setFdInterest fd connId .upstreamRecv .epollin

/-- `pause_recv`: a registration for `EPOLLRDHUP` alone, which no mask here can tell from none. -/
def pauseRecv (b : EpollBackend) (connId : UInt32) : EpollBackend :=
  if kMaxFdMap ≤ connId.toNat then b
  else
    let fd := b.downstreamFdMap connId.toNat
    if fd < 0 then b else b.setFdInterest fd connId .recv {}

/-- `cancel`: `EPOLL_CTL_DEL`. -/
def cancel (b : EpollBackend) (fd : Int) : EpollBackend :=
  { b with interest := Function.update b.interest fd none }

/-- How an attempt to send ends: with an event, or with so many bytes sent. -/
inductive Attempt where
  | finished (result : Int)
  | outstanding (sent : Nat)
deriving DecidableEq, Repr

/-- The first `send`: `nw == len` and hard errors end it. -/
def attempt (len : Nat) : Sent → Attempt
  | .count n => if len ≤ n then .finished (toI32 (.ofNat len)) else .outstanding n
  | .again => .outstanding 0
  | .error errno => .finished (-errno)

/-- `add_send` and `add_send_upstream` differ in the kind of the event and the kind the descriptor is
registered with. -/
def trySend (kind registered : EventType) (b : EpollBackend) (fd : Int) (connId : UInt32) (buf : Str)
    (sent : Sent) (ctl : Option Nat) : EpollBackend :=
  match attempt buf.length sent with
  | .finished result => b.queue { connId, type := kind, result }
  | .outstanding sent =>
    let b := b.setSendState connId
      { src := some buf, fd, offset := sent, remaining := buf.length - sent, type := kind }
    match ctl with
    | none => b.setFdInterest fd connId registered { input := true, output := true }
    | some errno =>
      (b.setSendState connId {}).queueForced { connId, type := kind, result := -errno }

def addSend := trySend .send .send

def addSendUpstream := trySend .upstreamSend .upstreamRecv

/-- How an attempt to write ends. -/
inductive TlsAttempt where
  | finished (result : Int)
  | outstanding (sent : Nat) (w : Want)
deriving DecidableEq, Repr

/-- The loop of `add_send_tls`: `sent` bytes are written; the library's answers end in a wait. -/
def tlsAttempt (len : Nat) : List Written → Nat → TlsAttempt
  | [], sent => if sent < len then .outstanding sent .write else .finished (toI32 (.ofNat len))
  | answer :: answers, sent =>
    if sent < len then
      match answer with
      | .count n => tlsAttempt len answers (sent + min (n + 1) (len - sent))
      | .want w => .outstanding sent w
      | .error result => .finished result
    else .finished (toI32 (.ofNat len))

/-- `add_send_tls` of a connection with descriptor `fd`. -/
def addSendTls (b : EpollBackend) (conn : Conn) (fd : Int) (connId : UInt32) (buf : Str)
    (sent : Sent) (written : List Written) (ctl : Option Nat) : EpollBackend :=
  if !conn.tlsActive || !conn.tls then b.addSend fd connId buf sent ctl
  else
    match tlsAttempt buf.length written 0 with
    | .finished result => b.queue { connId, type := .send, result }
    | .outstanding sent w =>
      if kMaxFdMap ≤ connId.toNat then
        b.queueForced { connId, type := .send, result := -kEINVAL }
      else
        let b := b.setSendState connId
          { src := some buf, fd, offset := sent, remaining := buf.length - sent, type := .send,
            tls := true, tlsWaitEvents := some w }
        match ctl with
        | none => b.setFdInterest fd connId .send w.sendInterest
        | some errno =>
          (b.setSendState connId {}).queueForced { connId, type := .send, result := -errno }

/-- `add_connect`. Whether `EPOLL_CTL_ADD` succeeds is not looked at. -/
def addConnect (b : EpollBackend) (fd : Int) (connId : UInt32) (answer : Connected) : EpollBackend :=
  let b := b.setUpstreamFd connId fd
  match answer with
  | .connected =>
    (b.ctlAdd fd connId .upstreamRecv .epollin).queue
      { connId, type := .upstreamConnect, result := 0 }
  | .inProgress => b.ctlAdd fd connId .upstreamConnect { output := true }
  | .error errno => b.queue { connId, type := .upstreamConnect, result := -errno }

/-! ## Waiting -/

/-- The loop over `send`; the kernel's answers end in `EAGAIN`. No result: try again later. -/
def sendLoop : List Sent → Epoll.SendState → Epoll.SendState × Option Int
  | answers, ss =>
    if ss.remaining = 0 then (ss, some (toI32 (.ofNat ss.offset)))
    else
      match answers with
      | [] => (ss, none)
      | .again :: _ => (ss, none)
      | .error errno :: _ =>
        ({ ss with remaining := 0 },
          some (if errno = 0 then toI32 (.ofNat ss.offset) else -errno))
      | .count n :: answers =>
        if n = 0 then ({ ss with remaining := 0 }, some (-kEPIPE))
        else sendLoop answers { ss with offset := ss.offset + min n ss.remaining
                                        remaining := ss.remaining - n }

/-- The loop over `SSL_write`; the library's answers end in a wait. -/
def writeLoop : List Written → Epoll.SendState → Epoll.SendState × Option Int
  | answers, ss =>
    if ss.remaining = 0 then (ss, some (toI32 (.ofNat ss.offset)))
    else
      match answers with
      | [] => ({ ss with tlsWaitEvents := some .write }, none)
      | .want w :: _ => ({ ss with tlsWaitEvents := some w }, none)
      | .error result :: _ =>
        ({ ss with remaining := 0 },
          some (if result = 0 then toI32 (.ofNat ss.offset) else result))
      | .count n :: answers =>
        writeLoop answers { ss with offset := ss.offset + min (n + 1) ss.remaining
                                    remaining := ss.remaining - (n + 1) }

/-- What an outstanding send comes to when its descriptor is ready. -/
def resume (ss : Epoll.SendState) (conn : Conn) (r : Ready) : Epoll.SendState × Option Int :=
  if ss.tls then
    if conn.tls then writeLoop r.written ss else (ss, some (-kEINVAL))
  else sendLoop r.sent ss

/-- The label `handle_epollout`. -/
def handleEpollout (maxConns : Nat) (conns : Nat → Conn) (b : EpollBackend) (connId : UInt32)
    (type : EventType) (r : Ready) : EpollBackend × Option IoEvent :=
  if kMaxFdMap ≤ connId.toNat then (b, none)
  else
    let ss := b.sendState connId.toNat
    if ss.tls ∧ maxConns ≤ connId.toNat then (b, none)
    else if ss.remaining = 0 ∨ ss.src = none ∨ ss.fd < 0 then (b.rearmRecvInterest connId type, none)
    else
      match resume ss (conns connId.toNat) r with
      | (ss, none) =>
        let b := b.setSendState connId ss
        match ss.tls, ss.tlsWaitEvents with
        | true, some w => (b.setFdInterest ss.fd connId ss.type w.sendInterest, none)
        | _, _ => (b, none)
      | (ss, some result) =>
        let nextType := if ss.type = .upstreamSend then EventType.upstreamRecv else .recv
        ((b.setSendState connId {}).setFdInterest ss.fd connId nextType .epollin,
          some { connId, type := ss.type, result })

/-- What reading comes to: nothing to report, an event, or an event after which nothing is sent. -/
inductive Read where
  | nothing
  | event (result : Int)
  | last (result : Int)
deriving DecidableEq, Repr

def recvPlain (buf : Buffer) (received : Received) : Buffer × Read :=
  if 0 < buf.writeAvail then
    match received with
    | .bytes data => (buf.write data, .event (min data.length buf.writeAvail))
    | .want _ => (buf, .event (-kEINVAL))
    | .error result => (buf, .event result)
  else (buf, .event (-kENOBUFS))

/-- `tls_send_interest_for_state` -/
def sendInterestForState (ss : Epoll.SendState) : Mask :=
  match ss.tlsWaitEvents with
  | none => .epollin
  | some w => w.sendInterest

/-- The interest after `SSL_read`: with a send outstanding, what that waits for as well. -/
def afterRead (b : EpollBackend) (fd : Int) (connId : UInt32) (type : EventType) (mask : Mask) :
    EpollBackend :=
  if type = .send ∧ connId.toNat < kMaxFdMap ∧ 0 < (b.sendState connId.toNat).remaining then
    b.setFdInterest fd connId type (sendInterestForState (b.sendState connId.toNat))
  else b.setFdInterest fd connId type mask

def recvTls (b : EpollBackend) (conn : Conn) (fd : Int) (connId : UInt32) (type : EventType)
    (r : Ready) : EpollBackend × Conn × Read :=
  if conn.recvBuf.writeAvail = 0 then (b, conn, .event (-kENOBUFS))
  else
    match r.received with
    | .bytes data =>
      (b.afterRead fd connId type .epollin, { conn with recvBuf := conn.recvBuf.write data },
        .event (min data.length conn.recvBuf.writeAvail))
    | .want w => (b.afterRead fd connId type w.interest, conn, .nothing)
    | .error result => (b, conn, .event result)

/-- The handshake, if it is not complete, and the read. -/
def acceptTls (b : EpollBackend) (conn : Conn) (fd : Int) (connId : UInt32) (type : EventType)
    (r : Ready) : EpollBackend × Conn × Read :=
  if !conn.tls then (b, conn, .event (-kEINVAL))
  else if conn.tlsHandshakeComplete then b.recvTls conn fd connId type r
  else
    match r.handshake with
    | .complete =>
      (b.setFdInterest fd connId type .epollin).recvTls { conn with tlsHandshakeComplete := true }
        fd connId type r
    | .want w => (b.setFdInterest fd connId type w.interest, conn, .nothing)
    | .error result => (b, conn, .last result)

def recvType (type : EventType) : EventType := if type = .send then .recv else type

def recvFd (b : EpollBackend) (connId : UInt32) (type : EventType) : Int :=
  if connId.toNat < kMaxFdMap then
    if recvType type = .upstreamRecv then b.upstreamFdMap connId.toNat
    else b.downstreamFdMap connId.toNat
  else -1

/-- The label `handle_epollin`, up to the event. -/
def handleEpollin (maxConns : Nat) (conns : Nat → Conn) (b : EpollBackend) (connId : UInt32)
    (type : EventType) (r : Ready) : EpollBackend × Conn × Read :=
  let conn := conns connId.toNat
  let fd := b.recvFd connId type
  if fd < 0 ∨ maxConns ≤ connId.toNat then (b, conn, .nothing)
  else if conn.tlsActive ∧ recvType type = .recv then b.acceptTls conn fd connId type r
  else if recvType type = .upstreamRecv then
    let (buf, read) := recvPlain conn.upstreamRecvBuf r.received
    (b, { conn with upstreamRecvBuf := buf }, read)
  else
    let (buf, read) := recvPlain conn.recvBuf r.received
    (b, { conn with recvBuf := buf }, read)

end EpollBackend

namespace Epoll

/-- The state of the loop of `wait`. -/
structure Loop where
  backend : EpollBackend
  conns : Nat → Conn
  /-- what `events` holds -/
  out : List IoEvent

/-- An entry as `epoll_wait` returns it: the registration at that time, and no event that was not
asked for. -/
structure Event where
  connId : UInt32
  type : EventType
  hasRead : Bool
  hasWrite : Bool
  ready : Ready
deriving DecidableEq, Repr

def epollWait (b : EpollBackend) (ready : List Ready) : List Event :=
  ready.filterMap fun r => (b.interest r.fd).map fun reg =>
    { connId := reg.connId, type := reg.type, ready := r
      hasRead := r.input && reg.mask.input || r.hangup
      hasWrite := r.output && reg.mask.output }

namespace Loop

def epollout (maxConns : Nat) (l : Loop) (ev : Event) : Loop :=
  let (b, event) := l.backend.handleEpollout maxConns l.conns ev.connId ev.type ev.ready
  { l with backend := b, out := l.out ++ event.toList }

def epollin (maxEvents maxConns : Nat) (l : Loop) (ev : Event) : Loop :=
  let (b, conn, read) := l.backend.handleEpollin maxConns l.conns ev.connId ev.type ev.ready
  let l := { l with backend := b, conns := Function.update l.conns ev.connId.toNat conn }
  let event (result : Int) : IoEvent :=
    { connId := ev.connId, type := EpollBackend.recvType ev.type, result }
  match read with
  | .nothing => l
  | .last result => { l with out := l.out ++ [event result] }
  | .event result =>
    let l := { l with out := l.out ++ [event result] }
    if ev.hasWrite ∧ ev.connId.toNat < kMaxFdMap ∧
        0 < (l.backend.sendState ev.connId.toNat).remaining ∧ l.out.length < maxEvents then
      l.epollout maxConns ev
    else l

/-- The accept loop; a connection too many is closed, and the loop ends. -/
def accept (maxEvents : Nat) (l : Loop) (ev : Event) : Loop :=
  let fds := ev.ready.accepted.take (maxEvents - l.out.length)
  { l with out := l.out ++ fds.map fun fd => { connId := 0, type := .accept, result := fd } }

def timer (l : Loop) (ev : Event) : Loop :=
  match ev.ready.ticks with
  | none => l
  | some ticks => { l with out := l.out ++
      [{ connId := 0, type := ev.type, result := min ticks.toNat 0x7FFFFFFF }] }

/-- The outcome of a connect, by `SO_ERROR`; zero if the descriptor is not known. -/
def connectEvent (l : Loop) (ev : Event) : IoEvent where
  connId := ev.connId
  type := .upstreamConnect
  result := if ev.connId.toNat < kMaxFdMap ∧ 0 ≤ l.backend.upstreamFdMap ev.connId.toNat
    then -ev.ready.soError else 0

/-- One round of the loop of `wait`. -/
def handle (maxEvents maxConns : Nat) (l : Loop) (ev : Event) : Loop :=
  let ss := l.backend.sendState ev.connId.toNat
  if ev.connId = kListenConnId then l.accept maxEvents ev
  else if ev.connId = kTimerConnId then l.timer ev
  else if ev.type = .upstreamConnect ∧ ev.hasWrite then
    { l with out := l.out ++ [l.connectEvent ev] }
  else if ev.type = .recv ∧ ev.connId.toNat < maxConns ∧
      (l.conns ev.connId.toNat).tlsActive ∧ (ev.hasRead ∨ ev.hasWrite) then
    l.epollin maxEvents maxConns ev
  else if ev.type = .send ∧ ev.connId.toNat < kMaxFdMap ∧ ss.tls ∧ 0 < ss.remaining then
    if ev.hasWrite ∨ ev.hasRead ∧ ss.tlsWaitEvents = some .read then l.epollout maxConns ev
    else if ev.hasRead then l.epollin maxEvents maxConns ev
    else l
  else if ev.hasRead then l.epollin maxEvents maxConns ev
  else if ev.hasWrite then l.epollout maxConns ev
  else l

/-- The loop of `wait` over the entries. -/
def handleAll (maxEvents maxConns : Nat) (l : Loop) : List Event → Loop
  | [] => l
  | ev :: evs =>
    if l.out.length < maxEvents then
      (l.handle maxEvents maxConns ev).handleAll maxEvents maxConns evs
    else l

end Loop

end Epoll

namespace EpollBackend

/-- The first part of `wait`: the queued events, the last one first. -/
def waitStart (b : EpollBackend) (conns : Nat → Conn) (maxEvents : Nat) : Loop :=
  let kept := b.pending.length - maxEvents
  { backend := { b with pending := b.pending.take kept }, conns
    out := (b.pending.drop kept).reverse }

end EpollBackend

/-- The entries the kernel returns, as many as there is room for. -/
def Epoll.Loop.entries (l : Loop) (maxEvents : Nat) (ready : List Ready) : List Event :=
  epollWait l.backend (ready.take (min (maxEvents - l.out.length) kMaxEventsPerWait))

/-- `wait`: what is queued, and what the kernel reports. -/
def EpollBackend.wait (b : EpollBackend) (conns : Nat → Conn) (maxEvents maxConns : Nat)
    (ready : List Ready) : Loop :=
  let l := b.waitStart conns maxEvents
  l.handleAll maxEvents maxConns (l.entries maxEvents ready)

end Rut.Io
