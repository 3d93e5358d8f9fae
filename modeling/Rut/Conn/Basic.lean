import Rut.Conn.Request
import Rut.Conn.Response

/-!
# Connections

The state of a connection (`connection_base.h`) and what its callbacks ask of the event loop. A
callback is a function on connections. The calls it makes on the loop are appended to the `log` of the
connection, together with what the backend has put into its buffers, so that a log tells the whole
story of a connection as its peers see it:

    received, upstreamReceived         bytes put behind the receive buffers
    dispatched                         a request handed to its route
    submitSend, submitSendUpstream     bytes given to the client and to the upstream
    requestComplete, closed            the end of a request and of the connection

Time, metrics, the access log and the memory of the slices are not part of the model.
-/

namespace Rut

/-! ## Connections -/

inductive ConnState where
  | idle | readingHeader | readingBody | execHandler | proxying | sending
deriving DecidableEq, Repr

/-- The callbacks that stand in the slots of a connection. -/
inductive Callback where
  | onHeaderReceived | onJitRequestBodyRecvd | onResponseSent | onUpstreamConnected
  | onUpstreamRequestSent | onResponseHeaderSent | onResponseBodyRecvd | onResponseBodySent
  | onBodySendWithEarlyResponse | onRequestBodySent | onEarlyUpstreamRecvd
  | onEarlyUpstreamRecvdSendInflight | onRequestBodyRecvd | onUpstreamResponse
  | onProxyResponseSent
deriving DecidableEq, Repr

/-- The kinds of `jit::YieldKind` a handler can be waiting with. -/
inductive YieldKind where
  | timer | any | recv | send | upstreamConnect | upstreamRecv | upstreamSend
deriving DecidableEq, Repr

/-- The address of a compiled handler. -/
abbrev HandlerFn := Nat

/-- What `on_header_received` hands to a route: the request as the connection sees it, the position
of the route in the configuration, and the receive buffer it was read from. -/
structure Dispatch where
  method : LogHttpMethod
  path : Str
  route : Option Nat
  request : Str
deriving DecidableEq, Repr

inductive Effect where
  | received (bytes : Str)
  | upstreamReceived (bytes : Str)
  | dispatched (d : Dispatch)
  | submitRecv
  | submitSend (bytes : Str)
  | submitConnect (upstreamId : Nat)
  | submitSendUpstream (bytes : Str)
  | submitRecvUpstream
  | pauseRecv
  | scheduleYieldTimer (ms : Nat)
  | disarmYieldTimer
  | requestComplete (status : Nat) (respSize : Nat)
  | closed (requestActive : Bool)
deriving DecidableEq, Repr

/-- The fields of `ConnectionBase` that describe the current response. -/
structure ResponseState where
  status : Nat := 0
  bodyMode : BodyMode := .none
  bodyRemaining : Nat := 0
  chunkParser : ChunkedParser := {}
  bodySent : Nat := 0
  upstreamSendLen : Nat := 0
deriving DecidableEq, Repr

/-- `ConnectionBase`. The defaults are those of `reset()`; a file descriptor is kept as whether it is
open, and `req_start_us` as whether a request is being timed. -/
structure Connection where
  isOpen : Bool := false
  onRecv : Option Callback := none
  onSend : Option Callback := none
  onUpstreamRecv : Option Callback := none
  onUpstreamSend : Option Callback := none
  state : ConnState := .idle
  upstreamOpen : Bool := false
  upstreamIdx : UInt16 := 0
  handlerState : UInt16 := 0
  pendingYieldKind : YieldKind := .timer
  pendingHandlerFn : Option HandlerFn := none
  yieldArmed : Bool := false
  requestConfig : Option RouteConfig := none
  keepAlive : Bool := false
  pipelineDepth : UInt16 := 0
  pipelineStashLen : UInt16 := 0
  requestActive : Bool := false
  req : RequestState := {}
  resp : ResponseState := {}
  recvBuf : Buffer := {}
  sendBuf : Buffer := {}
  upstreamRecvSlice : Bool := false
  upstreamRecvBuf : Buffer := {}
  log : List Effect := []

/-! ## The event loop as a callback sees it -/

inductive JitDispatchOutcome where
  | returnStatus (statusCode : UInt16) (responseBodyIdx responseHeadersIdx : Nat)
  | forward (upstreamId : UInt16)
  | timerYield (nextState : UInt16) (timerMs : Nat)
  | eventYield (yieldKind : YieldKind) (nextState : UInt16) (timerMs : Nat)
  | error
deriving DecidableEq, Repr

/-- What a handler is called with, beside the connection. -/
structure HandlerCall where
  state : UInt16
  resumeEventKind : YieldKind := .timer
  resumeEventResult : Int := 0
  routeParams : List RouteParam := []

/-- The answers a callback gets while it runs, from the handler, the backend and the operating
system. `syncRecv` is what `recv` on the upstream socket returns at once, empty if nothing. -/
structure Backend where
  invokeJitHandler : HandlerFn → Connection → HandlerCall → JitDispatchOutcome := fun _ _ _ => .error
  createSocket : Bool := true
  submitConnect : Bool := true
  submitRecv : Bool := true
  submitSendUpstream : Bool := true
  submitRecvUpstream : Bool := true
  allocUpstreamBuf : Bool := true
  scheduleYieldTimer : Bool := true
  supportsEventYieldResume : Bool := true
  recvArmed : Bool := false
  upstreamRecvArmed : Bool := false
  syncRecv : Str := []

structure Loop where
  draining : Bool := false
  config : Option RouteConfig := none
  backend : Backend := {}

/-- The route `on_header_received` looks up for a request, with the parameters of its path. -/
def RequestState.route (q : RequestState) (cfg : RouteConfig) :
    Option (Option Nat × List RouteParam) :=
  cfg.matchCanonical q.pathCanon q.method.routeMethodKey kMaxRouteParams

namespace Connection

def emit (c : Connection) (e : Effect) : Connection := { c with log := c.log ++ [e] }

def setSlots (c : Connection) (recv send upRecv upSend : Option Callback) : Connection :=
  { c with onRecv := recv, onSend := send, onUpstreamRecv := upRecv, onUpstreamSend := upSend }

/-- `close_conn`: both sockets are closed and the slot is reset. -/
def closeConn (c : Connection) : Connection := { log := c.log ++ [.closed c.requestActive] }

/-- Close the upstream socket and forget what was armed on it. -/
def closeUpstream (c : Connection) : Connection := { c with upstreamOpen := false }

def onRequestComplete (c : Connection) (respSize : Nat) : Connection :=
  { c with requestActive := false }.emit (.requestComplete c.resp.status respSize)

/-- Write a response into the send buffer and send it; `on_response_sent` comes next. -/
def sendResponse (c : Connection) (text : Str) : Connection :=
  let sendBuf := c.sendBuf.reset.write text
  ({ c with sendBuf := sendBuf, state := .sending }.setSlots none (some .onResponseSent) none none).emit
    (.submitSend sendBuf.data)

/-- The block with which the callbacks give up on a request: answer with `code`, then close. -/
def failClosed (c : Connection) (code : UInt16) : Connection :=
  { c with
    resp := { c.resp with status := code.toNat }
    keepAlive := false }.sendResponse (formatStaticResponse code false)

/-- Wait for the bytes of the next request. -/
def readHeader (c : Connection) : Connection :=
  ({ c with state := .readingHeader }.setSlots (some .onHeaderReceived) none none none).emit .submitRecv

/-! ## Pipelining -/

/-- `pipeline_leftover`: the bytes behind the current request in the receive buffer. -/
def pipelineLeftover (c : Connection) : Nat :=
  if c.req.initialSendLen = 0 ∨ c.req.initialSendLen ≥ c.recvBuf.len then 0
  else c.recvBuf.len - c.req.initialSendLen

/-- `pipeline_shift`: move the leftover to the front. -/
def pipelineShift (c : Connection) : Option Connection :=
  if c.pipelineLeftover = 0 then none
  else some { c with
    recvBuf := c.recvBuf.shift c.req.initialSendLen
    pipelineDepth := c.pipelineDepth + 1 }

/-- `pipeline_stash`: keep the leftover in the send buffer. -/
def pipelineStash (c : Connection) : Connection :=
  if c.pipelineLeftover = 0 then { c with pipelineStashLen := 0 }
  else if c.pipelineLeftover > c.sendBuf.reset.writeAvail then
    { c with sendBuf := c.sendBuf.reset, pipelineStashLen := 0 }
  else { c with
    sendBuf := c.sendBuf.reset.write (c.recvBuf.data.drop c.req.initialSendLen)
    pipelineStashLen := UInt16.ofNat c.pipelineLeftover }

/-- `pipeline_recover`: the stashed bytes become the receive buffer. -/
def pipelineRecover (c : Connection) : Option Connection :=
  if c.pipelineStashLen = 0 then none
  else some { c with
    recvBuf := c.recvBuf.reset.write (c.sendBuf.data.take c.pipelineStashLen.toNat)
    sendBuf := c.sendBuf.reset
    pipelineStashLen := 0
    pipelineDepth := c.pipelineDepth + 1 }

/-- `prepare_early_response_state`: an upstream response cuts off the rest of the request. -/
def prepareEarlyResponseState (c : Connection) : Connection :=
  if c.req.bodyPending then { c with recvBuf := c.recvBuf.reset, keepAlive := false }
  else { c.pipelineStash with recvBuf := c.recvBuf.reset }

/-- `consume_upstream_sent`: drop what was sent, and count what is left. -/
def consumeUpstreamSent (c : Connection) : Connection × Nat :=
  let c' := { c with
    resp := { c.resp with upstreamSendLen := 0 }
    upstreamRecvBuf := c.upstreamRecvBuf.shift c.resp.upstreamSendLen }
  (c', c'.upstreamRecvBuf.len)

end Connection
end Rut
