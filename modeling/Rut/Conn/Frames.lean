import Rut.Conn.World

/-!
# What a callback leaves alone

A log is read through its `Trace`, and of a connection the parts that belong to its client are taken
together as `clientSide`. What the callbacks do is then said in few words: which phase they go to,
and which of these parts they change.

    Settled       a request has been handed to its route
    Answered      a response is on its way
-/

namespace Rut

/-! ## Phases -/

/-- The combinations of slots that occur. -/
inductive Phase where
  | reading | jitBody | answering | connecting | sendingRequest | readingBody | sendingBody
  | earlyResponse | awaitingResponse | sendingHead | sendingAll | readingResponse | sendingPart
  | parked
deriving DecidableEq, Repr

def Phase.slots : Phase → Slots
  | reading => { onRecv := some .onHeaderReceived }
  | jitBody => { onRecv := some .onJitRequestBodyRecvd }
  | answering => { onSend := some .onResponseSent }
  | connecting => { onUpstreamSend := some .onUpstreamConnected }
  | sendingRequest => {
      onUpstreamRecv := some .onEarlyUpstreamRecvdSendInflight
      onUpstreamSend := some .onUpstreamRequestSent }
  | readingBody => {
      onRecv := some .onRequestBodyRecvd, onUpstreamRecv := some .onEarlyUpstreamRecvd }
  | sendingBody => {
      onUpstreamRecv := some .onEarlyUpstreamRecvdSendInflight
      onUpstreamSend := some .onRequestBodySent }
  | earlyResponse => { onUpstreamSend := some .onBodySendWithEarlyResponse }
  | awaitingResponse => { onUpstreamRecv := some .onUpstreamResponse }
  | sendingHead => { onSend := some .onResponseHeaderSent }
  | sendingAll => { onSend := some .onProxyResponseSent }
  | readingResponse => { onUpstreamRecv := some .onResponseBodyRecvd }
  | sendingPart => { onSend := some .onResponseBodySent }
  | parked => {}

/-! ## Traces -/

/-- What a log tells about the client and the upstream. -/
structure Trace where
  /-- the bytes received from the client -/
  stream : Str := []
  /-- the dispatched requests, each with the position in the stream where it starts -/
  starts : List (Nat × Dispatch) := []
  /-- the bytes given to the current upstream -/
  toUpstream : Str := []
deriving DecidableEq, Repr

def Trace.add (t : Trace) : Effect → Trace
  | .received bytes => { t with stream := t.stream ++ bytes }
  | .dispatched d => { t with starts := t.starts ++ [(t.stream.length - d.request.length, d)] }
  | .submitConnect _ => { t with toUpstream := [] }
  | .submitSendUpstream bytes => { t with toUpstream := t.toUpstream ++ bytes }
  | _ => t

/-- An effect that does not touch the client's side of the trace. -/
def Effect.quiet : Effect → Bool
  | .received _ | .dispatched _ => false
  | _ => true

/-- A request is read, or handed to its route. -/
def Effect.reads : Effect → Bool
  | .received _ | .submitRecv | .dispatched _ => true
  | _ => false

/-- The part of a connection that belongs to its client. -/
structure ClientSide where
  isOpen : Bool
  recvBuf : Buffer
  req : RequestState
  pipelineDepth : UInt16
  stream : Str
  starts : List (Nat × Dispatch)

namespace Connection

def trace (c : Connection) : Trace := c.log.foldl Trace.add {}

/-- A trace is extended effect by effect. -/
@[simp] theorem trace_emit (c : Connection) (e : Effect) : (c.emit e).trace = c.trace.add e := by
  rw [trace, emit, List.foldl_append]
  rfl

def clientSide (c : Connection) : ClientSide where
  isOpen := c.isOpen
  recvBuf := c.recvBuf
  req := c.req
  pipelineDepth := c.pipelineDepth
  stream := c.trace.stream
  starts := c.trace.starts

/-! ## The building blocks -/

section Blocks

variable (c : Connection)

/-- Quiet effects leave the client's side alone. -/
theorem clientSide_emit {e : Effect} (h : e.quiet = true) : (c.emit e).clientSide = c.clientSide := by
  unfold clientSide
  rw [trace_emit]
  cases e <;> first | rfl | cases h

/-- Sending a response is quiet. -/
theorem clientSide_sendResponse (text : Str) : (c.sendResponse text).clientSide = c.clientSide :=
  clientSide_emit _ rfl

end Blocks

/-! ## Handing a request to its route -/

/-- What a route has done with a request: it answers, it has put its handler to sleep, or it connects
to an upstream. -/
structure Settled (c c' : Connection) : Prop where
  client : c'.clientSide = c.clientSide
  stash : c'.pipelineStashLen = c.pipelineStashLen
  phase :
    (c'.slots = Phase.answering.slots ∧ c'.pendingHandlerFn = none ∧
      (c'.keepAlive = true → c.keepAlive = true)) ∨
    (c'.slots = Phase.parked.slots ∧ c'.pendingHandlerFn.isSome = true ∧ c'.keepAlive = c.keepAlive) ∨
    (c'.slots = Phase.connecting.slots ∧ c'.pendingHandlerFn = none ∧ c'.keepAlive = c.keepAlive ∧
      c'.trace.toUpstream = [])

section Settled

variable {c : Connection} {l : Loop}

variable {c₁ c' : Connection}

/-- A request that is answered here. -/
theorem settled_sendResponse (text : Str) (hkeep : c₁.keepAlive = true → c.keepAlive = true)
    (hpending : c₁.pendingHandlerFn = none) (hclient : c₁.clientSide = c.clientSide)
    (hstash : c₁.pipelineStashLen = c.pipelineStashLen) : Settled c (c₁.sendResponse text) where
  client := (clientSide_sendResponse _ _).trans hclient
  stash := hstash
  phase := .inl ⟨rfl, hpending, hkeep⟩

/-- Failing closed does not keep the connection. -/
theorem settled_failClosed (code : UInt16) (hpending : c₁.pendingHandlerFn = none)
    (hclient : c₁.clientSide = c.clientSide) (hstash : c₁.pipelineStashLen = c.pipelineStashLen) :
    Settled c (c₁.failClosed code) := by
  apply settled_sendResponse
  · intro h
    cases h
  · exact hpending
  · exact hclient
  · exact hstash

theorem settled_failHandler (code : UInt16) (hclient : c₁.clientSide = c.clientSide)
    (hstash : c₁.pipelineStashLen = c.pipelineStashLen) : Settled c (c₁.failHandler code) := by
  apply settled_failClosed
  · rfl
  · exact hclient
  · exact hstash

/-- A handler that goes to sleep. -/
theorem settled_parked (hslots : c'.slots = Phase.parked.slots)
    (hpending : c'.pendingHandlerFn.isSome = true) (hkeep : c'.keepAlive = c.keepAlive)
    (hclient : c'.clientSide = c.clientSide) (hstash : c'.pipelineStashLen = c.pipelineStashLen) :
    Settled c c' :=
  ⟨hclient, hstash, .inr (.inl ⟨hslots, hpending, hkeep⟩)⟩

/-- Connecting begins a new stream to the upstream. -/
theorem settled_connecting (upstreamId : Nat) (hslots : c₁.slots = Phase.connecting.slots)
    (hpending : c₁.pendingHandlerFn = none) (hkeep : c₁.keepAlive = c.keepAlive)
    (hclient : c₁.clientSide = c.clientSide) (hstash : c₁.pipelineStashLen = c.pipelineStashLen) :
    Settled c (c₁.emit (.submitConnect upstreamId)) where
  client := (clientSide_emit _ rfl).trans hclient
  stash := hstash
  phase := .inr (.inr ⟨hslots, hpending, hkeep, by rw [trace_emit]; rfl⟩)

theorem settled_timerYield (fn : HandlerFn) (nextState : UInt16) (timerMs : Nat) :
    Settled c (c.timerYield l fn nextState timerMs) := by
  rw [timerYield]
  split
  · exact settled_parked rfl rfl rfl (clientSide_emit _ rfl) rfl
  · apply settled_failHandler <;> rfl

/-! ## Yielding handlers -/

/-- What the two halves of a yield leave alone. -/
structure Waits (c c' : Connection) : Prop where
  client : c'.clientSide = c.clientSide
  stash : c'.pipelineStashLen = c.pipelineStashLen
  slots : c'.slots = c.slots
  pending : c'.pendingHandlerFn = c.pendingHandlerFn
  keepAlive : c'.keepAlive = c.keepAlive

theorem Waits.refl (c : Connection) : Waits c c := ⟨rfl, rfl, rfl, rfl, rfl⟩

theorem Waits.trans {c c₂ : Connection} (h : Waits c c₁) (h' : Waits c₁ c₂) : Waits c c₂ :=
  ⟨h'.client.trans h.client, h'.stash.trans h.stash, h'.slots.trans h.slots,
    h'.pending.trans h.pending, h'.keepAlive.trans h.keepAlive⟩

theorem waits_emit {e : Effect} (he : e.quiet = true) (hclient : c₁.clientSide = c.clientSide)
    (hstash : c₁.pipelineStashLen = c.pipelineStashLen) (hslots : c₁.slots = c.slots)
    (hpending : c₁.pendingHandlerFn = c.pendingHandlerFn) (hkeep : c₁.keepAlive = c.keepAlive) :
    Waits c (c₁.emit e) :=
  ⟨(clientSide_emit _ he).trans hclient, hstash, hslots, hpending, hkeep⟩

/-- Whether or not the yield can be started. -/
theorem waits_startYield {kind : YieldKind} {timerMs : Nat}
    (h : c.startYield l kind timerMs = .ok c' ∨ c.startYield l kind timerMs = .error c') :
    Waits c c' := by
  revert h
  unfold startYield
  dsimp only
  split
  all_goals try split_ifs
  all_goals rintro (h | h) <;> cases h
  all_goals first | exact ⟨rfl, rfl, rfl, rfl, rfl⟩ | apply waits_emit <;> rfl

/-- Whether or not the timer and the read are accepted. -/
theorem waits_armYield {kind : YieldKind} {timerMs : Nat}
    (h : c.armYield l kind timerMs = .ok c' ∨ c.armYield l kind timerMs = .error c') :
    Waits c c' := by
  have htimed : Waits c ({ c with yieldArmed := true }.emit (.scheduleYieldTimer timerMs)) := by
    apply waits_emit <;> rfl
  revert h
  unfold armYield
  dsimp only
  split_ifs
  all_goals rintro (h | h) <;> cases h
  all_goals
    first
    | exact Waits.refl c
    | exact htimed
    | (apply waits_emit <;> rfl)
    | (refine htimed.trans ?_; apply waits_emit <;> rfl)

theorem settled_eventYield (fn : HandlerFn) (kind : YieldKind) (nextState : UInt16) (timerMs : Nat) :
    Settled c (c.eventYield l fn kind nextState timerMs) := by
  rw [eventYield]
  split
  · apply settled_failHandler <;> rfl
  split
  · apply settled_failHandler <;> rfl
  split
  · next c₁ h₁ =>
    have hw := waits_startYield (.inr h₁)
    exact settled_failHandler 502 hw.client hw.stash
  · next c₁ h₁ =>
    have hw := waits_startYield (.inl h₁)
    split
    · next c₂ h₂ =>
      have hw' := hw.trans (waits_armYield (.inr h₂))
      exact settled_failHandler 500 hw'.client hw'.stash
    · next c₂ h₂ =>
      have hw' := hw.trans (waits_armYield (.inl h₂))
      exact settled_parked hw'.slots (by rw [hw'.pending]; rfl) hw'.keepAlive hw'.client hw'.stash

theorem settled_forwardHandler (upstreamId : UInt16) : Settled c (c.forwardHandler l upstreamId) := by
  unfold forwardHandler
  dsimp only
  split
  · apply settled_failClosed <;> rfl
  split
  · apply settled_failClosed <;> rfl
  · apply settled_connecting <;> rfl

theorem settled_handleJitOutcome (outcome : JitDispatchOutcome) (fn : HandlerFn) (keepAlive : Bool) :
    Settled c (c.handleJitOutcome l outcome fn keepAlive) := by
  cases outcome with
  | returnStatus statusCode bodyIdx headersIdx =>
    apply settled_sendResponse
    · exact fun h => (Bool.and_eq_true_iff.mp h).1
    all_goals rfl
  | timerYield nextState timerMs => exact settled_timerYield fn nextState timerMs
  | eventYield kind nextState timerMs => exact settled_eventYield fn kind nextState timerMs
  | forward upstreamId => exact settled_forwardHandler upstreamId
  | error => apply settled_failHandler <;> rfl

theorem settled_execHandler (fn : HandlerFn) (params : List RouteParam) :
    Settled c (c.execHandler l fn params) := by
  obtain ⟨hclient, hstash, hphase⟩ := settled_handleJitOutcome (l := l)
    (c := { c with state := .execHandler, handlerState := 0 })
    (l.backend.invokeJitHandler fn { c with state := .execHandler, handlerState := 0 }
      { state := 0, routeParams := params }) fn c.keepAlive
  exact ⟨hclient, hstash, hphase⟩

/-- A handler that is resumed settles its request like one that is started. -/
theorem settled_resumeJitHandler (kind : YieldKind) (result : Int)
    (h : c.pendingHandlerFn.isSome = true) : Settled c (c.resumeJitHandler l kind result) := by
  obtain ⟨fn, hfn⟩ := Option.isSome_iff_exists.mp h
  rw [resumeJitHandler, hfn]
  exact settled_handleJitOutcome ..

theorem settled_startProxy (hpending : c.pendingHandlerFn = none) (upstreamId : UInt16) :
    Settled c (c.startProxy l upstreamId) := by
  unfold startProxy
  have hfail : ∀ c₁ : Connection, c₁.pendingHandlerFn = c.pendingHandlerFn →
      c₁.clientSide = c.clientSide → c₁.pipelineStashLen = c.pipelineStashLen →
      Settled c (c₁.failClosed 502) :=
    fun _ h hclient hstash => settled_failClosed 502 (h.trans hpending) hclient hstash
  split
  · apply hfail <;> rfl
  split
  · apply settled_connecting
    · rfl
    · exact hpending
    all_goals rfl
  · apply hfail <;> rfl

/-- A handler that needs the body has to wait for it. -/
structure AwaitsBody (c c' : Connection) : Prop where
  waits : c' = c.readJitBody
  mode : c.req.bodyMode = .contentLength
  remaining : 0 < c.req.bodyRemaining

/-- A route settles the request, unless its handler is to see the body first. -/
theorem startRoute_cases (hpending : c.pendingHandlerFn = none) :
    Settled c (c.startRoute l) ∨ AwaitsBody c (c.startRoute l) := by
  have hsend : ∀ (resp : ResponseState) (text : Str),
      Settled c ({ c with resp := resp }.sendResponse text) :=
    fun _ text => settled_sendResponse text id hpending rfl rfl
  unfold startRoute
  split
  · exact .inl (settled_startProxy hpending _)
  · exact .inl (hsend _ _)
  · unfold startJit
    split
    · exact .inl (settled_failClosed 400 hpending rfl rfl)
    split
    · next h => exact .inr ⟨rfl, h.2.1, h.2.2⟩
    · exact .inl (settled_execHandler _ _)
  · exact .inl (hsend _ _)

end Settled

/-! ## Responses of an upstream -/

/-- What the response callbacks are asked about. -/
structure View where
  client : ClientSide
  stash : UInt16
  pending : Option HandlerFn
  toUpstream : Str
  keepAlive : Bool
  sendBuf : Buffer
  slots : Slots

def view (c : Connection) : View where
  client := c.clientSide
  stash := c.pipelineStashLen
  pending := c.pendingHandlerFn
  toUpstream := c.trace.toUpstream
  keepAlive := c.keepAlive
  sendBuf := c.sendBuf
  slots := c.slots

/-- A response has been dealt with as far as it has come. On a connection that is kept, the stashed
bytes stay in the send buffer. -/
structure Answered (l : Loop) (c c' : Connection) : Prop where
  client : c'.clientSide = c.clientSide
  stash : c'.pipelineStashLen = c.pipelineStashLen
  pending : c'.pendingHandlerFn = c.pendingHandlerFn
  toUpstream : c'.trace.toUpstream = c.trace.toUpstream
  keep : c'.keepAlive = true → c.keepAlive = true ∧ c'.sendBuf = c.sendBuf
  phase : (c'.slots = Phase.answering.slots ∧ c'.keepAlive = false) ∨
    (c'.slots = c.slots ∨ c'.slots = Phase.sendingHead.slots ∨ c'.slots = Phase.sendingAll.slots) ∧
      (c'.keepAlive = c.keepAlive ∨ l.draining = true)

section Answered

variable {c : Connection} {l : Loop}

/-- Effects that do not reach the upstream. -/
theorem toUpstream_emit (c : Connection) {e : Effect}
    (h : ∀ t : Trace, (t.add e).toUpstream = t.toUpstream) :
    (c.emit e).trace.toUpstream = c.trace.toUpstream := by
  rw [trace_emit, h]

/-- Only the view matters. -/
theorem Answered.congr {c₁ c' : Connection} (h : Answered l c₁ c') (heq : c₁.view = c.view) :
    Answered l c c' where
  client := h.client.trans (congrArg View.client heq)
  stash := h.stash.trans (congrArg View.stash heq)
  pending := h.pending.trans (congrArg View.pending heq)
  toUpstream := h.toUpstream.trans (congrArg View.toUpstream heq)
  keep := by
    have hkeep : c₁.keepAlive = c.keepAlive := congrArg View.keepAlive heq
    have hbuf : c₁.sendBuf = c.sendBuf := congrArg View.sendBuf heq
    rw [← hkeep, ← hbuf]
    exact h.keep
  phase := by
    have hkeep : c₁.keepAlive = c.keepAlive := congrArg View.keepAlive heq
    have hslots : c₁.slots = c.slots := congrArg View.slots heq
    rw [← hkeep, ← hslots]
    exact h.phase

/-- The answer to a response that cannot be used, which closes the connection. -/
theorem answered_sendBadGateway : Answered l c c.sendBadGateway where
  client := clientSide_sendResponse _ _
  stash := rfl
  pending := rfl
  toUpstream := toUpstream_emit _ fun _ => rfl
  keep h := nomatch (show false = true from h)
  phase := .inl ⟨rfl, rfl⟩

theorem answered_submitRecvUpstream : Answered l c (c.emit .submitRecvUpstream) where
  client := clientSide_emit _ rfl
  stash := rfl
  pending := rfl
  toUpstream := toUpstream_emit _ fun _ => rfl
  keep h := ⟨h, rfl⟩
  phase := .inr ⟨.inl rfl, .inl rfl⟩

/-- The response goes on as it came. -/
theorem answered_sendInitial (sendLen : Nat) (bodyComplete : Bool) :
    Answered l c (c.sendInitial sendLen bodyComplete) where
  client := clientSide_emit _ rfl
  stash := rfl
  pending := rfl
  toUpstream := toUpstream_emit _ fun _ => rfl
  keep h := ⟨h, rfl⟩
  phase := by
    cases bodyComplete
    · exact .inr ⟨.inr (.inl rfl), .inl rfl⟩
    · exact .inr ⟨.inr (.inr rfl), .inl rfl⟩

/-- With a header inserted, because the loop drains. -/
theorem answered_sendInserted (hd : l.draining = true) (hdrEnd bodyLen : Nat) (bodyComplete : Bool) :
    Answered l c (c.sendInserted hdrEnd bodyLen bodyComplete) where
  client := clientSide_emit _ rfl
  stash := rfl
  pending := rfl
  toUpstream := toUpstream_emit _ fun _ => rfl
  keep h := nomatch (show false = true from h)
  phase := by
    cases bodyComplete
    · exact .inr ⟨.inr (.inl rfl), .inr hd⟩
    · exact .inl ⟨rfl, rfl⟩

theorem answered_sendDraining (hd : l.draining = true) (contentLength headerLen sendLen : Nat)
    (bodyComplete : Bool) :
    Answered l c (c.sendDraining contentLength headerLen sendLen bodyComplete) := by
  unfold sendDraining
  dsimp only
  split
  · exact (answered_sendInitial sendLen bodyComplete).congr (by rfl)
  split
  · exact answered_sendInserted hd ..
  · exact answered_sendInitial sendLen bodyComplete

theorem answered_forwardResponse (resp : ParsedResponse) (headerLen : Nat) :
    Answered l c (c.forwardResponse l resp headerLen) := by
  unfold forwardResponse
  dsimp only
  split
  · exact answered_sendBadGateway.congr (by rfl)
  split
  · next hd => exact (answered_sendDraining hd ..).congr (by rfl)
  · exact (answered_sendInitial ..).congr (by rfl)

/-- The response has been dealt with, or there is none and the connection is closed. -/
theorem upstreamResponseLoop_cases : ∀ (fuel : Nat) (c : Connection) (result : Int),
    upstreamResponseLoop l fuel c result = c.closeConn ∨
      Answered l c (upstreamResponseLoop l fuel c result)
  | 0, c, _ => .inr ⟨rfl, rfl, rfl, rfl, fun h => ⟨h, rfl⟩, .inr ⟨.inl rfl, .inl rfl⟩⟩
  | fuel + 1, c, result => by
    rw [upstreamResponseLoop]
    split
    · exact .inl rfl
    split
    · split
      · exact .inr (answered_sendBadGateway.congr (by rfl))
      · exact .inr answered_submitRecvUpstream
    · exact .inr (answered_sendBadGateway.congr (by rfl))
    · next resp headerEnd _ =>
      dsimp only
      split
      · split
        · rcases upstreamResponseLoop_cases fuel { c with
            resp := { c.resp with status := resp.statusCode }
            upstreamRecvBuf := c.upstreamRecvBuf.shift headerEnd } result with h | h
          · exact .inl h
          · exact .inr (h.congr (by rfl))
        · exact .inr (answered_submitRecvUpstream.congr (by rfl))
      · exact .inr ((answered_forwardResponse resp headerEnd).congr (by rfl))

theorem onUpstreamResponse_cases (result : Int) :
    c.onUpstreamResponse l result = c.closeConn ∨ Answered l c (c.onUpstreamResponse l result) :=
  upstreamResponseLoop_cases _ c result

/-- Going on to the response, with what has come of it. -/
theorem awaitResponse_cases :
    c.awaitResponse l = (c.setSlots none none (some .onUpstreamResponse) none).closeConn ∨
      Answered l (c.setSlots none none (some .onUpstreamResponse) none) (c.awaitResponse l) := by
  unfold awaitResponse
  dsimp only
  split
  · exact onUpstreamResponse_cases _
  · exact .inr answered_submitRecvUpstream

end Answered

/-! ## Early responses -/

/-- Bytes of the upstream have come in while the request is still being sent. -/
structure Early (c c' : Connection) : Prop where
  client : c'.clientSide = c.clientSide
  stash : c'.pipelineStashLen = c.pipelineStashLen
  pending : c'.pendingHandlerFn = c.pendingHandlerFn
  toUpstream : c'.trace.toUpstream = c.trace.toUpstream
  keepAlive : c'.keepAlive = c.keepAlive
  sendBuf : c'.sendBuf = c.sendBuf
  slots : c'.slots = c.slots ∨ c'.slots = c.acceptEarly.slots

section Early

variable {l : Loop}

theorem early_self {c c' : Connection} (heq : c'.view = c.view) : Early c c' :=
  ⟨congrArg View.client heq, congrArg View.stash heq, congrArg View.pending heq,
    congrArg View.toUpstream heq, congrArg View.keepAlive heq, congrArg View.sendBuf heq,
    .inl (congrArg View.slots heq)⟩

theorem early_submitRecvUpstream {c c₁ : Connection} (h : Early c c₁) :
    Early c (c₁.emit .submitRecvUpstream) :=
  ⟨(clientSide_emit _ rfl).trans h.client, h.stash, h.pending,
    (toUpstream_emit _ fun _ => rfl).trans h.toUpstream, h.keepAlive, h.sendBuf, h.slots⟩

/-- Early bytes close the connection, or they are kept for later. -/
theorem earlyUpstreamRecvLoop_cases (sendInFlight : Bool) : ∀ (fuel : Nat) (c : Connection)
    (result : Int), earlyUpstreamRecvLoop l sendInFlight fuel c result = c.closeConn ∨
      Early c (earlyUpstreamRecvLoop l sendInFlight fuel c result)
  | 0, c, _ => .inr (early_self rfl)
  | fuel + 1, c, result => by
    have haccept : Early c c.acceptEarly := ⟨rfl, rfl, rfl, rfl, rfl, rfl, .inr rfl⟩
    rw [earlyUpstreamRecvLoop]
    dsimp only
    split
    · split
      · exact .inl rfl
      · exact .inr haccept
    split
    · split
      · exact .inr (early_submitRecvUpstream (early_self rfl))
      · exact .inr (early_self rfl)
    · exact .inr haccept
    · next resp headerEnd _ =>
      split
      · split
        · rcases earlyUpstreamRecvLoop_cases sendInFlight fuel
            { c with upstreamRecvBuf := c.upstreamRecvBuf.shift headerEnd } result with h | h
          · exact .inl h
          · exact .inr ⟨h.client, h.stash, h.pending, h.toUpstream, h.keepAlive, h.sendBuf, h.slots⟩
        · split
          · exact .inr (early_submitRecvUpstream (early_self rfl))
          · exact .inr (early_self rfl)
      · exact .inr haccept

theorem handleEarlyUpstreamRecv_cases (c : Connection) (result : Int) (sendInFlight : Bool) :
    c.handleEarlyUpstreamRecv l result sendInFlight = c.closeConn ∨
      Early c (c.handleEarlyUpstreamRecv l result sendInFlight) :=
  earlyUpstreamRecvLoop_cases sendInFlight _ c result

end Early

/-! ## Phases of a connection -/

section InPhase

variable {c : Connection} {l : Loop}

/-- An open connection is in one of the phases, and a handler sleeps exactly in the parked phase. -/
structure InPhase (c : Connection) (ph : Phase) : Prop where
  slots : c.slots = ph.slots
  pending : c.pendingHandlerFn.isSome = true ↔ ph = .parked

variable {ph : Phase}

/-- In a phase, each slot holds what the phase says. -/
theorem onRecv_of_phase (h : c.InPhase ph) : c.onRecv = ph.slots.onRecv :=
  congrArg Slots.onRecv h.slots

theorem onSend_of_phase (h : c.InPhase ph) : c.onSend = ph.slots.onSend :=
  congrArg Slots.onSend h.slots

theorem onUpstreamRecv_of_phase (h : c.InPhase ph) :
    c.onUpstreamRecv = ph.slots.onUpstreamRecv := congrArg Slots.onUpstreamRecv h.slots

theorem onUpstreamSend_of_phase (h : c.InPhase ph) :
    c.onUpstreamSend = ph.slots.onUpstreamSend := congrArg Slots.onUpstreamSend h.slots

/-- A completion in a given phase: only a handler that waits for it is resumed. -/
theorem dispatch_of_phase (h : c.InPhase ph) (type : IoEventType) (result : Int) :
    c.dispatch l type result =
      if ph ≠ .parked then c.dispatchEvent l type result
      else if yieldKindMatchesEvent c.pendingYieldKind type then
        c.disarmYieldTimer.resumeJitHandler l (yieldKindFromEvent type) result
      else if type = .recv ∧ result ≤ 0 then c.closeConn
      else c := by
  rw [dispatch, h.slots]
  by_cases hp : ph = .parked
  · subst hp
    have hpending := h.pending.mpr rfl
    simp only [Phase.slots, ne_eq, not_true_eq_false, if_false, hpending, if_true]
  · have hne : ph.slots ≠ {} := by
      cases ph <;> first | exact absurd rfl hp | decide
    rw [if_pos hne, if_pos hp]

end InPhase

end Connection
end Rut
