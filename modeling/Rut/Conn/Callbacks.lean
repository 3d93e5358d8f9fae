import Rut.Conn.Basic
import Rut.Conn.DrainRewrite

/-!
# The callbacks of a connection

A translation of `callbacks_impl.h`. A callback gets the event loop, the connection and the result of
the completion it is called for, and returns the connection with what it has asked for appended to the
log. One callback calls another where the source does, and no call goes round in a circle except the
one that skips interim responses, which has the length of the buffer as fuel.

    onHeaderReceived                   dispatch a request to its route
    handleJitOutcome                   go on as the handler of the route says
    onUpstreamConnected, …             forward a request
    onUpstreamResponse, …              forward the response
    onResponseSent, nextRequest        go on to the next request
-/

namespace Rut

namespace Connection

/-! ## Local responses -/

/-- The literal response 502 of the proxy callbacks. -/
def sendBadGateway (c : Connection) : Connection :=
  { c with
    resp := { c.resp with status := 502 }
    keepAlive := false }.sendResponse k502

/-- The response of a handler that has returned a status. An index that the configuration does not
know falls back to the reason phrase. -/
def formatOutcome (cfg : Option RouteConfig) (statusCode : UInt16) (bodyIdx headersIdx : Nat)
    (keepAlive : Bool) : Formatted :=
  let bodies := (cfg.map (·.responseBodies)).getD []
  let sets := (cfg.map (·.responseHeaderSets)).getD []
  let hasBody := bodyIdx ≠ 0 ∧ bodyIdx ≤ bodies.length
  let body := bodies.getD (bodyIdx - 1) []
  if headersIdx ≠ 0 ∧ headersIdx ≤ sets.length then
    let headers := (sets.getD (headersIdx - 1) []).map (fun kv => ⟨kv.1, kv.2⟩)
    if hasBody then formatResponseWithBodyAndHeaders statusCode body headers keepAlive false
    else if bodyIdx ≠ 0 then
      formatResponseWithBodyAndHeaders statusCode (statusReason statusCode) headers keepAlive true
    else formatResponseWithBodyAndHeaders statusCode [] headers keepAlive false
  else if hasBody then ⟨formatResponseWithBody statusCode body keepAlive, statusCode, keepAlive⟩
  else ⟨formatStaticResponse statusCode keepAlive, statusCode, keepAlive⟩

def returnStatus (c : Connection) (statusCode : UInt16) (bodyIdx headersIdx : Nat)
    (keepAlive : Bool) : Connection :=
  let f := formatOutcome c.requestConfig statusCode bodyIdx headersIdx keepAlive
  { c with
    pendingHandlerFn := none
    resp := { c.resp with status := f.status.toNat }
    -- only a response that does not fit clears the flag
    keepAlive := c.keepAlive && (f.keepAlive || !keepAlive) }.sendResponse f.text

/-! ## Handlers -/

/-- A handler goes to sleep: it is kept with its next state, and all slots are cleared. -/
def parkHandler (c : Connection) (fn : HandlerFn) (kind : YieldKind) (nextState : UInt16) :
    Connection :=
  { c with
    pendingHandlerFn := some fn
    handlerState := nextState
    pendingYieldKind := kind
    state := .execHandler }.setSlots none none none none

/-- A request of a handler that cannot be met. -/
def failHandler (c : Connection) (code : UInt16) : Connection :=
  { c with pendingHandlerFn := none }.failClosed code

def timerYield (l : Loop) (c : Connection) (fn : HandlerFn) (nextState : UInt16) (timerMs : Nat) :
    Connection :=
  let c := c.parkHandler fn .timer nextState
  if l.backend.scheduleYieldTimer then
    { c with yieldArmed := true }.emit (.scheduleYieldTimer timerMs)
  else c.failHandler 500

/-- The first half of `EventYield`: start what the handler waits for. An error is a bad gateway. -/
def startYield (l : Loop) (c : Connection) (kind : YieldKind) (timerMs : Nat) :
    Except Connection Connection :=
  let targetMatches := c.upstreamOpen && (timerMs = 0 || c.upstreamIdx = UInt16.ofNat (timerMs - 1))
  match kind with
  | .upstreamConnect =>
    if timerMs = 0 then .ok c
    else if (c.requestConfig.map (·.upstreamCount)).getD 0 ≤ timerMs - 1 then .error c
    else if !l.backend.createSocket then .error c
    else if l.backend.submitConnect then
      .ok ({ c with upstreamOpen := true, upstreamIdx := UInt16.ofNat (timerMs - 1) }.emit
        (.submitConnect (timerMs - 1)))
    else .error { c.closeUpstream with upstreamIdx := 0 }
  | .upstreamSend =>
    if targetMatches && l.backend.submitSendUpstream then
      .ok (c.emit (.submitSendUpstream c.recvBuf.data))
    else .error c
  | .upstreamRecv =>
    if targetMatches && l.backend.submitRecvUpstream then .ok (c.emit .submitRecvUpstream)
    else .error c
  | _ => .ok c

/-- The second half: the timer and the receive side. An error is an internal one. -/
def armYield (l : Loop) (c : Connection) (kind : YieldKind) (timerMs : Nat) :
    Except Connection Connection :=
  if kind ≠ .any ∧ kind ≠ .recv then .ok (c.emit .pauseRecv)
  else
    let timed := kind = .any ∧ timerMs ≠ 0
    if timed ∧ !l.backend.scheduleYieldTimer then .error c
    else
      let c := if timed then { c with yieldArmed := true }.emit (.scheduleYieldTimer timerMs) else c
      if c.isOpen ∧ !l.backend.recvArmed then
        if l.backend.submitRecv then .ok (c.emit .submitRecv)
        else if c.yieldArmed then .error ({ c with yieldArmed := false }.emit .disarmYieldTimer)
        else .error c
      else .ok c

def eventYield (l : Loop) (c : Connection) (fn : HandlerFn) (kind : YieldKind) (nextState : UInt16)
    (timerMs : Nat) : Connection :=
  let c := c.parkHandler fn kind nextState
  if !l.backend.supportsEventYieldResume then c.failHandler 500
  else if kind = .send then c.failHandler 500
  else
    match c.startYield l kind timerMs with
    | .error c => c.failHandler 502
    | .ok c =>
      match c.armYield l kind timerMs with
      | .error c => c.failHandler 500
      | .ok c => c

def forwardHandler (l : Loop) (c : Connection) (upstreamId : UInt16) : Connection :=
  let c := { c with pendingHandlerFn := none }
  if (c.requestConfig.map (·.upstreamCount)).getD 0 ≤ upstreamId.toNat then c.failClosed 502
  else
    -- a connection to an upstream that the handler has opened is given up
    let c := { c.closeUpstream with
      state := .proxying
      upstreamIdx := if c.upstreamOpen then 0 else c.upstreamIdx }
    if !l.backend.createSocket then c.failClosed 502
    else
      ({ c with upstreamOpen := true }.setSlots none none none (some .onUpstreamConnected)).emit
        (.submitConnect upstreamId.toNat)

def handleJitOutcome (l : Loop) (c : Connection) (outcome : JitDispatchOutcome) (fn : HandlerFn)
    (keepAlive : Bool) : Connection :=
  match outcome with
  | .returnStatus statusCode bodyIdx headersIdx => c.returnStatus statusCode bodyIdx headersIdx keepAlive
  | .timerYield nextState timerMs => c.timerYield l fn nextState timerMs
  | .eventYield kind nextState timerMs => c.eventYield l fn kind nextState timerMs
  | .forward upstreamId => c.forwardHandler l upstreamId
  | .error => c.failHandler 500

def execHandler (l : Loop) (c : Connection) (fn : HandlerFn) (params : List RouteParam) : Connection :=
  let c := { c with state := .execHandler, handlerState := 0 }
  let outcome := l.backend.invokeJitHandler fn c { state := 0, routeParams := params }
  c.handleJitOutcome l outcome fn c.keepAlive

/-- `resume_jit_handler`. The route parameters are still in the handler context. -/
def resumeJitHandler (l : Loop) (c : Connection) (kind : YieldKind) (result : Int) : Connection :=
  match c.pendingHandlerFn with
  | none => c
  | some fn =>
    let outcome := l.backend.invokeJitHandler fn c
      { state := c.handlerState, resumeEventKind := kind, resumeEventResult := result }
    c.handleJitOutcome l outcome fn c.keepAlive

/-! ## Requests -/

/-- The route of the current request under the pinned configuration. -/
def matchRoute (c : Connection) : Option Nat × List RouteParam :=
  match c.requestConfig with
  | none => (none, [])
  | some cfg => (c.req.route cfg).getD (none, [])

def routeEntry (c : Connection) : Option RouteEntry :=
  c.matchRoute.1.bind fun i => c.requestConfig.bind fun cfg => cfg.routes[i]?

def startProxy (l : Loop) (c : Connection) (upstreamId : UInt16) : Connection :=
  if !l.backend.createSocket then c.failClosed 502
  else
    let c := ({ c with state := .proxying, upstreamOpen := true, upstreamIdx := upstreamId }.setSlots
      none none none (some .onUpstreamConnected))
    if l.backend.submitConnect then c.emit (.submitConnect upstreamId.toNat)
    else { c.closeUpstream with upstreamIdx := 0 }.failClosed 502

/-- Wait for more of a body that the handler needs. -/
def readJitBody (c : Connection) : Connection :=
  ({ c with state := .readingBody }.setSlots (some .onJitRequestBodyRecvd) none none none).emit
    .submitRecv

def startJit (l : Loop) (c : Connection) (fn : HandlerFn) (needsReqBody : Bool) : Connection :=
  if needsReqBody ∧ c.req.bodyMode = .chunked then c.failClosed 400
  else if needsReqBody ∧ c.req.bodyMode = .contentLength ∧ c.req.bodyRemaining > 0 then c.readJitBody
  else c.execHandler l fn c.matchRoute.2

/-- What is done with a request, by the action of its route. -/
def startRoute (l : Loop) (c : Connection) : Connection :=
  match c.routeEntry with
  | some { action := .proxy, upstreamId, .. } => c.startProxy l upstreamId
  | some { action := .static, statusCode, .. } =>
    { c with resp := { c.resp with status := statusCode.toNat } }.sendResponse
      (formatStaticResponse statusCode c.keepAlive)
  | some { action := .jitHandler, fn := some fn, needsReqBody, .. } => c.startJit l fn needsReqBody
  | _ => { c with resp := { c.resp with status := 200 } }.sendResponse (kResponse200 c.keepAlive)

/-- The connection with the request in its receive buffer, on the record. -/
def admitRequest (l : Loop) (c : Connection) : Connection :=
  let c := { c with
    req := captureRequestMetadata c.recvBuf.data
    requestActive := true
    keepAlive := !l.draining
    requestConfig := l.config }
  c.emit (.dispatched {
    method := c.req.method, path := c.req.path, route := c.matchRoute.1, request := c.recvBuf.data })

/-- `on_header_received`. Only behind another request does it wait for a complete header block. -/
def onHeaderReceived (l : Loop) (c : Connection) (result : Int) : Connection :=
  if result ≤ 0 then c.closeConn
  else if c.pipelineDepth > 0 ∧ HttpParser.parse c.recvBuf.data = .incomplete then c.readHeader
  else (c.admitRequest l).startRoute l

def onJitRequestBodyRecvd (l : Loop) (c : Connection) (result : Int) : Connection :=
  if result ≤ 0 then c.closeConn
  else if c.req.bodyMode ≠ .contentLength ∨ c.req.bodyRemaining = 0 then c.closeConn
  else
    let consume := min result.toNat c.req.bodyRemaining
    let remaining := c.req.bodyRemaining - consume
    let c := { c with req := { c.req with
      bodyRemaining := remaining
      size := c.req.size + consume
      initialSendLen := c.req.headerEnd + (c.req.contentLength - remaining) } }
    if remaining > 0 then c.readJitBody
    else
      match c.routeEntry with
      | some { action := .jitHandler, fn := some fn, .. } => c.execHandler l fn c.matchRoute.2
      | _ => c.closeConn

/-! ## The next request -/

def pipelineDispatch (l : Loop) (c : Connection) : Connection :=
  { c with state := .readingHeader }.onHeaderReceived l c.recvBuf.len

/-- Nothing is left over: wait for the next request. -/
def awaitRequest (c : Connection) : Connection :=
  { c with pipelineDepth := 0, recvBuf := c.recvBuf.reset }.readHeader

def onResponseSent (l : Loop) (c : Connection) (result : Int) : Connection :=
  let c := c.setSlots none none none none
  if result < 0 then c.closeConn
  else if result ≠ c.sendBuf.len then c.closeConn
  else
    let c := { (c.onRequestComplete c.sendBuf.len).closeUpstream with upstreamIdx := 0 }
    if !c.keepAlive then c.closeConn
    else
      match c.pipelineShift with
      | some c => c.pipelineDispatch l
      | none => c.awaitRequest

/-- The stashed bytes and those that have come in since, by way of the upstream buffer. -/
def joinStash (c : Connection) : Connection :=
  let late := c.recvBuf.len
  let upstreamRecvBuf := c.upstreamRecvBuf.reset.write c.recvBuf.data
  { c with
    pipelineStashLen := 0
    recvBuf := (c.recvBuf.reset.write (c.sendBuf.data.take c.pipelineStashLen.toNat)).write
      (upstreamRecvBuf.data.take late)
    upstreamRecvBuf := upstreamRecvBuf.reset
    sendBuf := c.sendBuf.reset
    pipelineDepth := c.pipelineDepth + 1 }

/-- How a proxied request gives way to the next one. -/
def nextRequest (l : Loop) (c : Connection) : Connection :=
  if c.pipelineStashLen > 0 ∧ c.recvBuf.len > 0 then
    if c.pipelineStashLen.toNat + c.recvBuf.len > kSliceSize then
      { c with pipelineStashLen := 0, sendBuf := c.sendBuf.reset }.closeConn
    else c.joinStash.pipelineDispatch l
  else
    match c.pipelineRecover with
    | some c => c.pipelineDispatch l
    | none =>
      if c.recvBuf.len > 0 then { c with pipelineDepth := c.pipelineDepth + 1 }.pipelineDispatch l
      else c.awaitRequest

/-! ## Responses of an upstream -/

def noBodyResponse (isHead : Bool) (status : Nat) : Bool :=
  isHead || status = 204 || status = 205 || status = 304

def responseBodyMode (isHead : Bool) (resp : ParsedResponse) : BodyMode :=
  if noBodyResponse isHead resp.statusCode then .none
  else if resp.chunked then .chunked
  else if resp.hasContentLength then .contentLength
  else .untilClose

/-- A response other than 101 that announces another one. -/
def isInterim (resp : ParsedResponse) : Bool :=
  100 ≤ resp.statusCode && resp.statusCode < 200 && resp.statusCode ≠ 101

/-- Send `text` to the client as the start of a response. -/
def sendHead (c : Connection) (text : Str) (next : Callback) : Connection :=
  ({ c with state := .sending }.setSlots none (some next) none none).emit (.submitSend text)

/-- Forward a head and as much of the body as has come with it. -/
def sendInitial (c : Connection) (sendLen : Nat) (bodyComplete : Bool) : Connection :=
  { c with resp := { c.resp with bodySent := sendLen, upstreamSendLen := sendLen } }.sendHead
    (c.upstreamRecvBuf.data.take sendLen)
    (if bodyComplete then .onProxyResponseSent else .onResponseHeaderSent)

/-- Forward a head with a `Connection: close` header inserted. -/
def sendInserted (c : Connection) (hdrEnd bodyLen : Nat) (bodyComplete : Bool) : Connection :=
  let sendBuf := c.sendBuf.reset.write (insertClose c.upstreamRecvBuf.data hdrEnd bodyLen)
  { c with
    sendBuf := sendBuf
    keepAlive := false
    resp := { c.resp with
      bodySent := sendBuf.len
      upstreamSendLen := c.upstreamRecvBuf.len } }.sendHead sendBuf.data
    (if bodyComplete then .onResponseSent else .onResponseHeaderSent)

/-- How much of the body is copied behind a head with an inserted header. -/
def insertedBodyLen (mode : BodyMode) (rawBodyLen contentLength : Nat) : Nat :=
  match mode with
  | .none => 0
  | .contentLength => min rawBodyLen contentLength
  | _ => rawBodyLen

/-- The edit of a head while the loop drains, and its way to the client. -/
def sendDraining (c : Connection) (contentLength headerLen sendLen : Nat) (bodyComplete : Bool) :
    Connection :=
  let hdrEnd := headerLen - kHeaderEndLen
  match rewriteConnection c.upstreamRecvBuf.data hdrEnd with
  | some d =>
    { c with upstreamRecvBuf := c.upstreamRecvBuf.reset.write d }.sendInitial sendLen bodyComplete
  | none =>
    let bodyLen :=
      insertedBodyLen c.resp.bodyMode (c.upstreamRecvBuf.len - headerLen) contentLength
    if hdrEnd > 0 ∧ hdrEnd + kConnCloseLen + kHeaderEndLen + bodyLen ≤ kSliceSize then
      c.sendInserted hdrEnd bodyLen bodyComplete
    else c.sendInitial sendLen bodyComplete

/-- How much of the body of a response has come with its head, and what is left of it. -/
structure InitialBody where
  mode : BodyMode
  remaining : Nat := 0
  /-- the bytes in the buffer that belong to the body -/
  count : Nat := 0
  complete : Bool := false
  chunkParser : ChunkedParser := {}
  malformed : Bool := false

/-- The framing of a response, over the part of its body that is in the buffer. -/
def frameResponse (isHead : Bool) (resp : ParsedResponse) (body : Str) : InitialBody :=
  match responseBodyMode isHead resp with
  | .none => { mode := .none, complete := true }
  | .chunked =>
    let r := ({} : ChunkedParser).feedAll body
    { mode := .chunked, count := r.count, complete := r.verdict = .done
      chunkParser := r.state, malformed := r.verdict = .error }
  | .contentLength =>
    { mode := .contentLength, remaining := resp.contentLength - body.length
      count := min body.length resp.contentLength
      complete := resp.contentLength - body.length = 0 }
  | .untilClose => { mode := .untilClose, count := body.length }

/-- Forward a final response whose head takes `headerLen` bytes of the buffer. -/
def forwardResponse (l : Loop) (c : Connection) (resp : ParsedResponse) (headerLen : Nat) : Connection :=
  let b : InitialBody :=
    frameResponse (c.req.method = .Head) resp (c.upstreamRecvBuf.data.drop headerLen)
  let c := { c with resp := { c.resp with
    bodyMode := b.mode
    bodyRemaining := b.remaining
    chunkParser := if b.mode = BodyMode.chunked then b.chunkParser else c.resp.chunkParser } }
  if b.malformed then c.closeUpstream.sendBadGateway
  else if l.draining then c.sendDraining resp.contentLength headerLen (headerLen + b.count) b.complete
  else c.sendInitial (headerLen + b.count) b.complete

/-- The body of `on_upstream_response`. Every round skips the head of an interim response. -/
def upstreamResponseLoop (l : Loop) : Nat → Connection → Int → Connection
  | 0, c, _ => c
  | fuel + 1, c, result =>
    if result ≤ 0 ∧ c.upstreamRecvBuf.len = 0 then c.closeConn
    else
      match HttpResponseParser.parse c.upstreamRecvBuf.data with
      | .incomplete =>
        if result ≤ 0 then c.closeUpstream.sendBadGateway else c.emit .submitRecvUpstream
      | .error => c.closeUpstream.sendBadGateway
      | .complete resp headerEnd =>
        let c := { c with resp := { c.resp with status := resp.statusCode } }
        if isInterim resp then
          let c := { c with upstreamRecvBuf := c.upstreamRecvBuf.shift headerEnd }
          if c.upstreamRecvBuf.len > 0 then upstreamResponseLoop l fuel c result
          else c.emit .submitRecvUpstream
        else c.forwardResponse l resp headerEnd

def onUpstreamResponse (l : Loop) (c : Connection) (result : Int) : Connection :=
  upstreamResponseLoop l (c.upstreamRecvBuf.len + 1) c result

def onResponseBodyRecvd (c : Connection) (result : Int) : Connection :=
  if result ≤ 0 then
    if c.resp.bodyMode = .untilClose then (c.onRequestComplete c.resp.bodySent).closeConn
    else c.closeConn
  else
    let data := c.upstreamRecvBuf.data
    let send := fun (resp : ResponseState) (sendLen : Nat) =>
      { c with resp := { resp with
        bodySent := resp.bodySent + sendLen
        upstreamSendLen := sendLen } }.sendHead (data.take sendLen) .onResponseBodySent
    match c.resp.bodyMode with
    | .contentLength =>
      let consume := min data.length c.resp.bodyRemaining
      send { c.resp with bodyRemaining := c.resp.bodyRemaining - consume } consume
    | .chunked =>
      let r := c.resp.chunkParser.feedAll data
      if r.verdict = .error then c.closeConn
      else send { c.resp with chunkParser := r.state } r.count
    | _ => send c.resp data.length

/-- Wait for more of a response, or go on with what is already there. -/
def readResponseBody (c : Connection) (remaining : Nat) : Connection :=
  let c := c.setSlots none none (some .onResponseBodyRecvd) none
  if remaining > 0 then c.onResponseBodyRecvd remaining else c.emit .submitRecvUpstream

def onResponseHeaderSent (c : Connection) (result : Int) : Connection :=
  if result ≤ 0 then c.closeConn
  else
    let (c, remaining) := c.consumeUpstreamSent
    c.readResponseBody remaining

def onResponseBodySent (l : Loop) (c : Connection) (result : Int) : Connection :=
  if result ≤ 0 then c.closeConn
  else
    let (c, remaining) := (c.setSlots none none none none).consumeUpstreamSent
    if (c.resp.bodyMode = .contentLength ∧ c.resp.bodyRemaining = 0) ∨
        (c.resp.bodyMode = .chunked ∧ c.resp.chunkParser.state = .complete) then
      let c := { c with upstreamRecvBuf := c.upstreamRecvBuf.reset }
      let c := (c.onRequestComplete c.resp.bodySent).closeUpstream
      if !c.keepAlive || l.draining then c.closeConn else c.nextRequest l
    else c.readResponseBody remaining

def onProxyResponseSent (l : Loop) (c : Connection) (result : Int) : Connection :=
  let c := c.setSlots none none none none
  if result < 0 then c.closeConn
  else
    let c := c.onRequestComplete c.resp.bodySent
    if l.draining then c.closeConn
    else { c.closeUpstream with upstreamRecvBuf := c.upstreamRecvBuf.reset }.nextRequest l

/-! ## Forwarding a request -/

/-- Go on to the response of the upstream, with what has come of it. -/
def awaitResponse (l : Loop) (c : Connection) : Connection :=
  let c := c.setSlots none none (some .onUpstreamResponse) none
  if c.upstreamRecvBuf.len > 0 then c.onUpstreamResponse l c.upstreamRecvBuf.len
  else c.emit .submitRecvUpstream

def onUpstreamConnected (l : Loop) (c : Connection) (result : Int) : Connection :=
  if result < 0 then c.sendBadGateway
  else if c.req.malformed then c.closeConn
  else if !c.upstreamRecvSlice && !l.backend.allocUpstreamBuf then c.closeConn
  else
    let c := if c.upstreamRecvSlice then c
      else { c with upstreamRecvSlice := true, upstreamRecvBuf := {} }
    let len := if c.req.initialSendLen > 0 then c.req.initialSendLen else c.recvBuf.len
    ({ c with state := .proxying }.setSlots none none (some .onEarlyUpstreamRecvdSendInflight)
      (some .onUpstreamRequestSent)).emit (.submitSendUpstream (c.recvBuf.data.take len))

/-- A send to the upstream has failed: there may be a response that says why. -/
def salvageResponse (l : Loop) (c : Connection) : Connection :=
  if c.upstreamRecvBuf.len > 0 then
    (c.prepareEarlyResponseState.setSlots none none (some .onUpstreamResponse) none).onUpstreamResponse l
      c.upstreamRecvBuf.len
  else if l.backend.upstreamRecvArmed then
    (c.prepareEarlyResponseState.setSlots none none (some .onUpstreamResponse) none).emit
      .submitRecvUpstream
  else if c.upstreamOpen ∧ l.backend.syncRecv ≠ [] then
    -- as much as `recv` puts into the buffer at once
    let c := { c with upstreamRecvBuf := c.upstreamRecvBuf.write l.backend.syncRecv }.emit
      (.upstreamReceived (l.backend.syncRecv.take c.upstreamRecvBuf.writeAvail))
    (c.prepareEarlyResponseState.setSlots none none (some .onUpstreamResponse) none).onUpstreamResponse l
      c.upstreamRecvBuf.len
  else c.closeConn

/-- Wait for more of the request body, and for an early response. -/
def readRequestBody (c : Connection) : Connection :=
  (({ c with recvBuf := c.recvBuf.reset }.setSlots (some .onRequestBodyRecvd) none
    (some .onEarlyUpstreamRecvd) none).emit .submitRecv).emit .submitRecvUpstream

def requestSent (l : Loop) (c : Connection) : Connection :=
  let c := c.pipelineStash
  { c with recvBuf := c.recvBuf.reset }.awaitResponse l

def onUpstreamRequestSent (l : Loop) (c : Connection) (result : Int) : Connection :=
  if result < 0 then c.salvageResponse l
  else if c.req.bodyPending then c.readRequestBody
  else c.requestSent l

def onRequestBodyRecvd (c : Connection) (result : Int) : Connection :=
  if result ≤ 0 then c.closeConn
  else
    let data := c.recvBuf.data
    let send := fun (req : RequestState) (sendLen : Nat) =>
      ({ c with req := { req with
        size := req.size + sendLen
        initialSendLen := sendLen } }.setSlots none none (some .onEarlyUpstreamRecvdSendInflight)
          (some .onRequestBodySent)).emit (.submitSendUpstream (data.take sendLen))
    match c.req.bodyMode with
    | .contentLength =>
      let consume := min data.length c.req.bodyRemaining
      send { c.req with bodyRemaining := c.req.bodyRemaining - consume } consume
    | .chunked =>
      let r := c.req.chunkParser.feedAll data
      if r.verdict = .error then c.closeConn
      else send { c.req with chunkParser := r.state } r.count
    | _ => send c.req data.length

def onRequestBodySent (l : Loop) (c : Connection) (result : Int) : Connection :=
  if result ≤ 0 then c.salvageResponse l
  else if (c.req.bodyMode = .contentLength ∧ c.req.bodyRemaining = 0) ∨
      (c.req.bodyMode = .chunked ∧ c.req.chunkParser.state = .complete) then c.requestSent l
  else c.readRequestBody

/-! ## Early responses -/

/-- The end of the request: its response has come early. -/
def acceptEarly (c : Connection) : Connection :=
  { c with onUpstreamSend := some .onBodySendWithEarlyResponse, onUpstreamRecv := none }

/-- `handle_early_upstream_recv`. Every round skips the head of an interim response. -/
def earlyUpstreamRecvLoop (l : Loop) (sendInFlight : Bool) : Nat → Connection → Int → Connection
  | 0, c, _ => c
  | fuel + 1, c, result =>
    let rearm := fun (c : Connection) =>
      if !l.backend.upstreamRecvArmed && !sendInFlight then c.emit .submitRecvUpstream else c
    if result ≤ 0 then if c.upstreamRecvBuf.len = 0 then c.closeConn else c.acceptEarly
    else
      match HttpResponseParser.parse c.upstreamRecvBuf.data with
      | .incomplete => rearm c
      | .error => c.acceptEarly
      | .complete resp headerEnd =>
        if isInterim resp then
          let c := { c with upstreamRecvBuf := c.upstreamRecvBuf.shift headerEnd }
          if c.upstreamRecvBuf.len > 0 then earlyUpstreamRecvLoop l sendInFlight fuel c result
          else rearm c
        else c.acceptEarly

def handleEarlyUpstreamRecv (l : Loop) (c : Connection) (result : Int) (sendInFlight : Bool) :
    Connection :=
  earlyUpstreamRecvLoop l sendInFlight (c.upstreamRecvBuf.len + 1) c result

/-- `on_body_send_with_early_response`. The result of the send does not matter. -/
def onBodySendWithEarlyResponse (l : Loop) (c : Connection) : Connection :=
  let c := c.prepareEarlyResponseState.setSlots none none (some .onUpstreamResponse) none
  c.onUpstreamResponse l
    (if HttpResponseParser.parse c.upstreamRecvBuf.data = .incomplete then 0 else c.upstreamRecvBuf.len)

def onEarlyUpstreamRecvd (l : Loop) (c : Connection) (result : Int) : Connection :=
  let c := c.handleEarlyUpstreamRecv l result false
  if c.onUpstreamSend = some .onBodySendWithEarlyResponse then c.onBodySendWithEarlyResponse l else c

def onEarlyUpstreamRecvdSendInflight (l : Loop) (c : Connection) (result : Int) : Connection :=
  c.handleEarlyUpstreamRecv l result true

end Connection

/-! ## Calling a callback -/

def Callback.run (l : Loop) (c : Connection) (result : Int) : Callback → Connection
  | onHeaderReceived => c.onHeaderReceived l result
  | onJitRequestBodyRecvd => c.onJitRequestBodyRecvd l result
  | onResponseSent => c.onResponseSent l result
  | onUpstreamConnected => c.onUpstreamConnected l result
  | onUpstreamRequestSent => c.onUpstreamRequestSent l result
  | onResponseHeaderSent => c.onResponseHeaderSent result
  | onResponseBodyRecvd => c.onResponseBodyRecvd result
  | onResponseBodySent => c.onResponseBodySent l result
  | onBodySendWithEarlyResponse => c.onBodySendWithEarlyResponse l
  | onRequestBodySent => c.onRequestBodySent l result
  | onEarlyUpstreamRecvd => c.onEarlyUpstreamRecvd l result
  | onEarlyUpstreamRecvdSendInflight => c.onEarlyUpstreamRecvdSendInflight l result
  | onRequestBodyRecvd => c.onRequestBodyRecvd result
  | onUpstreamResponse => c.onUpstreamResponse l result
  | onProxyResponseSent => c.onProxyResponseSent l result

end Rut
