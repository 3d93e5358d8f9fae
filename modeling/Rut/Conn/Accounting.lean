import Rut.Conn.KeepAlive

/-!
# Accounting for requests

What the callbacks tell the loop about the requests they handle: `epoch_enter` and
`on_request_start` when a request is dispatched, `on_request_complete` and `epoch_leave` when it is
done, and in `close_conn_impl` the leave and the decrement that are still owed.

    Ledger        a connection owes exactly what its `requestActive` says
    Shard         the connections of a loop, with the counters they share

A connection keeps its ledger by what each callback does in its phase. The counters of the shard
follow from the ledgers, whatever the order in which its connections run.
-/

namespace Rut

open List

/-! ## The calls -/

/-- The calls on the loop and on its metrics that account for requests. -/
inductive LoopCall where
  | epochEnter | epochLeave | onRequestStart | onRequestComplete | dropActive
deriving DecidableEq, Repr

/-- The calls that go with an effect, in their order. `dropActive` is the decrement of
`close_conn_impl`. -/
def Effect.loopCalls : Effect → List LoopCall
  | .dispatched _ => [.epochEnter, .onRequestStart]
  | .requestComplete _ _ => [.onRequestComplete, .epochLeave]
  | .closed true => [.epochLeave, .dropActive]
  | _ => []

/-- Whether a request is owed a leave after an effect. `none` if the books do not balance: a second
request is entered, or one is left that was not entered. -/
def Effect.book : Bool → Effect → Option Bool
  | false, .dispatched _ => some true
  | true, .dispatched _ => none
  | true, .requestComplete _ _ => some false
  | false, .requestComplete _ _ => none
  | owed, .closed active => if owed = active then some false else none
  | owed, _ => some owed

/-- An effect that goes with no call. -/
def Effect.plain : Effect → Bool
  | .dispatched _ | .requestComplete _ _ | .closed _ => false
  | _ => true

variable {e : Effect}

theorem Effect.book_of_plain (h : e.plain = true) (owed : Bool) :
    e.book owed = some owed := by
  cases e <;> cases owed <;> first | rfl | cases h

namespace Connection

variable {a : Bool} {c c' : Connection} {l : Loop}

/-- What a log owes, from a debt of `a` on. -/
def booked (a : Bool) (c : Connection) : Option Bool := c.log.foldlM (fun owed e => e.book owed) a

/-- A log is booked effect by effect. -/
theorem booked_emit (e : Effect) : (c.emit e).booked a = (c.booked a).bind fun owed => e.book owed := by
  rw [booked, emit, foldlM_append]
  simp only [foldlM_cons, foldlM_nil, bind_pure]
  rfl

theorem booked_emit_plain (h : e.plain = true) : (c.emit e).booked a = c.booked a := by
  rw [booked_emit]
  cases c.booked a with
  | none => rfl
  | some owed => exact e.book_of_plain h owed

/-! ## The ledger of a connection -/

/-- A request is being handled, and the books say so. -/
structure Active (a : Bool) (c : Connection) : Prop where
  booked : c.booked a = some true
  active : c.requestActive = true
  isOpen : c.isOpen = true

/-- No request is being handled. -/
structure Idle (a : Bool) (c : Connection) : Prop where
  booked : c.booked a = some false
  active : c.requestActive = false
  isOpen : c.isOpen = true

structure Ledger (a : Bool) (c : Connection) : Prop where
  booked : c.booked a = some c.requestActive
  active : c.requestActive = true ↔ c.isOpen = true ∧ c.onRecv ≠ some .onHeaderReceived

/-- The same books, in another state. -/
structure Carries (c c' : Connection) : Prop where
  booked : ∀ a, c'.booked a = c.booked a
  active : c'.requestActive = c.requestActive
  isOpen : c'.isOpen = c.isOpen

theorem Carries.refl (c : Connection) : Carries c c := ⟨fun _ => rfl, rfl, rfl⟩

theorem Carries.trans {c₁ : Connection} (h : Carries c c₁) (h' : Carries c₁ c') : Carries c c' :=
  ⟨fun a => (h'.booked a).trans (h.booked a), h'.active.trans h.active, h'.isOpen.trans h.isOpen⟩

theorem carries_of_log (hlog : c'.log = c.log) (hactive : c'.requestActive = c.requestActive)
    (hopen : c'.isOpen = c.isOpen) : Carries c c' :=
  ⟨fun _ => by rw [booked, hlog, booked], hactive, hopen⟩

/-- One more effect that goes with no call. -/
theorem carries_of_plain (he : e.plain = true) (hlog : c'.log = c.log ++ [e])
    (hactive : c'.requestActive = c.requestActive) (hopen : c'.isOpen = c.isOpen) : Carries c c' := by
  refine ⟨fun a => ?_, hactive, hopen⟩
  rw [booked, hlog]
  exact booked_emit_plain he

theorem Active.carry (h : Active a c) (hc : Carries c c') : Active a c' :=
  ⟨(hc.booked a).trans h.booked, hc.active.trans h.active, hc.isOpen.trans h.isOpen⟩

theorem Idle.carry (h : Idle a c) (hc : Carries c c') : Idle a c' :=
  ⟨(hc.booked a).trans h.booked, hc.active.trans h.active, hc.isOpen.trans h.isOpen⟩

theorem Active.keep (h : Active a c) (hlog : c'.log = c.log)
    (hactive : c'.requestActive = c.requestActive) (hopen : c'.isOpen = c.isOpen) : Active a c' :=
  h.carry (carries_of_log hlog hactive hopen)

theorem Idle.keep (h : Idle a c) (hlog : c'.log = c.log)
    (hactive : c'.requestActive = c.requestActive) (hopen : c'.isOpen = c.isOpen) : Idle a c' :=
  h.carry (carries_of_log hlog hactive hopen)

theorem Active.ledger (h : Active a c) (hrecv : c.onRecv ≠ some .onHeaderReceived) : Ledger a c :=
  ⟨by rw [h.booked, h.active], iff_of_true h.active ⟨h.isOpen, hrecv⟩⟩

/-- Closing settles what is owed. -/
theorem ledger_closeConn (h : c.booked a = some c.requestActive) : Ledger a c.closeConn := by
  have hbooked : c.closeConn.booked a = some false := by
    show (c.emit (.closed c.requestActive)).booked a = _
    rw [booked_emit, h]
    cases c.requestActive <;> rfl
  exact ⟨hbooked, iff_of_false Bool.false_ne_true fun h => Bool.false_ne_true h.1⟩

theorem Active.close (h : Active a c) : Ledger a c.closeConn :=
  ledger_closeConn (h.booked.trans (congrArg some h.active.symm))

theorem Idle.close (h : Idle a c) : Ledger a c.closeConn :=
  ledger_closeConn (h.booked.trans (congrArg some h.active.symm))

/-- The end of a request. -/
theorem Active.onRequestComplete (h : Active a c) (respSize : Nat) :
    Idle a (c.onRequestComplete respSize) := by
  refine ⟨?_, rfl, h.isOpen⟩
  have hbooked : ({ c with requestActive := false } : Connection).booked a = some true := h.booked
  rw [Connection.onRequestComplete, booked_emit, hbooked]
  rfl

theorem Idle.admitRequest (h : Idle a c) (l : Loop) : Active a (c.admitRequest l) := by
  refine ⟨?_, rfl, h.isOpen⟩
  have hbooked : ∀ d, (c.emit (.dispatched d)).booked a = some true := fun d => by
    rw [booked_emit, h.booked]
    rfl
  exact hbooked _

/-! ## Handing a request to its route -/

theorem Active.sendResponse (h : Active a c) (text : Str) : Ledger a (c.sendResponse text) := by
  exact Active.ledger (h.carry (carries_of_plain rfl rfl rfl rfl)) nofun

theorem Active.failClosed (h : Active a c) (code : UInt16) : Ledger a (c.failClosed code) := by
  apply Active.sendResponse
  exact h.keep rfl rfl rfl

theorem Active.sendBadGateway (h : Active a c) : Ledger a c.sendBadGateway := by
  apply Active.sendResponse
  exact h.keep rfl rfl rfl

theorem Active.failHandler (h : Active a c) (code : UInt16) : Ledger a (c.failHandler code) := by
  apply Active.failClosed
  exact h.keep rfl rfl rfl

theorem Active.timerYield (h : Active a c) (fn : HandlerFn) (nextState : UInt16) (timerMs : Nat) :
    Ledger a (c.timerYield l fn nextState timerMs) := by
  unfold Connection.timerYield
  split
  · exact Active.ledger (h.carry (carries_of_plain rfl rfl rfl rfl)) nofun
  · apply Active.failHandler
    exact h.keep rfl rfl rfl

theorem carries_startYield {kind : YieldKind} {timerMs : Nat}
    (h : c.startYield l kind timerMs = .ok c' ∨ c.startYield l kind timerMs = .error c') :
    Carries c c' := by
  revert h
  unfold startYield
  dsimp only
  split
  all_goals try split_ifs
  all_goals rintro (h | h) <;> cases h
  all_goals
    first
    | exact carries_of_log rfl rfl rfl
    | exact carries_of_plain rfl rfl rfl rfl

theorem carries_armYield {kind : YieldKind} {timerMs : Nat}
    (h : c.armYield l kind timerMs = .ok c' ∨ c.armYield l kind timerMs = .error c') :
    Carries c c' := by
  have htimed : Carries c ({ c with yieldArmed := true }.emit (.scheduleYieldTimer timerMs)) :=
    carries_of_plain rfl rfl rfl rfl
  revert h
  unfold armYield
  dsimp only
  split_ifs
  all_goals rintro (h | h) <;> cases h
  all_goals
    first
    | exact Carries.refl c
    | exact htimed
    | exact carries_of_plain rfl rfl rfl rfl
    | exact htimed.trans (carries_of_plain rfl rfl rfl rfl)

theorem Active.eventYield (h : Active a c) (fn : HandlerFn) (kind : YieldKind) (nextState : UInt16)
    (timerMs : Nat) : Ledger a (c.eventYield l fn kind nextState timerMs) := by
  have hpark : Active a (c.parkHandler fn kind nextState) := h.keep rfl rfl rfl
  rw [Connection.eventYield]
  split
  · exact hpark.failHandler 500
  split
  · exact hpark.failHandler 500
  split
  · next c₁ h₁ => exact (hpark.carry (carries_startYield (.inr h₁))).failHandler 502
  · next c₁ h₁ =>
    have hstart := hpark.carry (carries_startYield (.inl h₁))
    split
    · next c₂ h₂ => exact (hstart.carry (carries_armYield (.inr h₂))).failHandler 500
    · next c₂ h₂ =>
      -- neither half touches a slot
      have hwaits := (waits_startYield (.inl h₁)).trans (waits_armYield (.inl h₂))
      have hrecv : c₂.onRecv = none := congrArg Slots.onRecv hwaits.slots
      exact (hstart.carry (carries_armYield (.inl h₂))).ledger
        (by rw [hrecv]; exact (Option.some_ne_none _).symm)

theorem Active.forwardHandler (h : Active a c) (upstreamId : UInt16) :
    Ledger a (c.forwardHandler l upstreamId) := by
  unfold Connection.forwardHandler
  dsimp only
  split
  · apply Active.failClosed
    exact h.keep rfl rfl rfl
  split
  · apply Active.failClosed
    exact h.keep rfl rfl rfl
  · exact Active.ledger (h.carry (carries_of_plain rfl rfl rfl rfl)) nofun

theorem Active.handleJitOutcome (h : Active a c) (outcome : JitDispatchOutcome) (fn : HandlerFn)
    (keepAlive : Bool) : Ledger a (c.handleJitOutcome l outcome fn keepAlive) := by
  cases outcome with
  | returnStatus statusCode bodyIdx headersIdx =>
    apply Active.sendResponse
    exact h.keep rfl rfl rfl
  | timerYield nextState timerMs => exact h.timerYield fn nextState timerMs
  | eventYield kind nextState timerMs => exact h.eventYield fn kind nextState timerMs
  | forward upstreamId => exact h.forwardHandler upstreamId
  | error => exact h.failHandler 500

theorem Active.execHandler (h : Active a c) (fn : HandlerFn) (params : List RouteParam) :
    Ledger a (c.execHandler l fn params) := by
  apply Active.handleJitOutcome
  exact h.keep rfl rfl rfl

theorem Active.resumeJitHandler (h : Active a c) (hpending : c.pendingHandlerFn.isSome = true)
    (kind : YieldKind) (result : Int) : Ledger a (c.resumeJitHandler l kind result) := by
  obtain ⟨fn, hfn⟩ := Option.isSome_iff_exists.mp hpending
  rw [Connection.resumeJitHandler, hfn]
  exact h.handleJitOutcome _ fn _

theorem Active.startProxy (h : Active a c) (upstreamId : UInt16) :
    Ledger a (c.startProxy l upstreamId) := by
  unfold Connection.startProxy
  split
  · exact h.failClosed 502
  split
  · exact Active.ledger (h.carry (carries_of_plain rfl rfl rfl rfl)) nofun
  · apply Active.failClosed
    exact h.keep rfl rfl rfl

theorem Active.readJitBody (h : Active a c) : Ledger a c.readJitBody := by
  refine Active.ledger (h.carry ?_) ?_
  · exact carries_of_plain rfl rfl rfl rfl
  · show some Callback.onJitRequestBodyRecvd ≠ _
    decide

/-- Whatever the route does with the request. -/
theorem Active.startRoute (h : Active a c) : Ledger a (c.startRoute l) := by
  unfold Connection.startRoute
  split
  · exact h.startProxy _
  · apply Active.sendResponse
    exact h.keep rfl rfl rfl
  · unfold startJit
    split
    · exact h.failClosed 400
    split
    · exact h.readJitBody
    · exact h.execHandler _ _
  · apply Active.sendResponse
    exact h.keep rfl rfl rfl

/-! ## Requests -/

theorem Idle.readHeader (h : Idle a c) : Ledger a c.readHeader := by
  have hidle : Idle a c.readHeader := h.carry (carries_of_plain rfl rfl rfl rfl)
  refine ⟨by rw [hidle.booked, hidle.active], ?_⟩
  rw [hidle.active]
  exact iff_of_false Bool.false_ne_true fun h => h.2 rfl

/-- Bytes of a request, complete or not. -/
theorem Idle.onHeaderReceived (h : Idle a c) (result : Int) :
    Ledger a (c.onHeaderReceived l result) := by
  unfold Connection.onHeaderReceived
  split
  · exact h.close
  split
  · exact h.readHeader
  · exact (h.admitRequest l).startRoute

theorem Active.onJitRequestBodyRecvd (h : Active a c) (result : Int) :
    Ledger a (c.onJitRequestBodyRecvd l result) := by
  unfold Connection.onJitRequestBodyRecvd
  dsimp only
  split
  · exact h.close
  split
  · exact h.close
  have hnext : ∀ req, Active a { c with req := req } := fun _ => h.keep rfl rfl rfl
  split
  · exact (hnext _).readJitBody
  split
  · exact (hnext _).execHandler _ _
  · exact (hnext _).close

theorem Idle.pipelineDispatch (h : Idle a c) : Ledger a (c.pipelineDispatch l) := by
  apply Idle.onHeaderReceived
  exact h.keep rfl rfl rfl

theorem Idle.awaitRequest (h : Idle a c) : Ledger a c.awaitRequest := by
  apply Idle.readHeader
  exact h.keep rfl rfl rfl

/-- The response is out: the request is complete. -/
theorem Active.onResponseSent (h : Active a c) (result : Int) :
    Ledger a (c.onResponseSent l result) := by
  have hslots : Active a (c.setSlots none none none none) := h.keep rfl rfl rfl
  unfold Connection.onResponseSent
  dsimp only
  split
  · exact hslots.close
  split
  · exact hslots.close
  have hdone := hslots.onRequestComplete (c.setSlots none none none none).sendBuf.len
  split
  · apply Idle.close
    exact hdone.keep rfl rfl rfl
  split
  · next c₁ hshift =>
    unfold pipelineShift at hshift
    split at hshift
    · cases hshift
    · cases hshift
      apply Idle.pipelineDispatch
      exact hdone.keep rfl rfl rfl
  · apply Idle.awaitRequest
    exact hdone.keep rfl rfl rfl

/-- A pipelined request, or the wait for one. -/
theorem Idle.nextRequest (h : Idle a c) : Ledger a (c.nextRequest l) := by
  unfold Connection.nextRequest
  split
  · split
    · apply Idle.close
      exact h.keep rfl rfl rfl
    · apply Idle.pipelineDispatch
      exact h.keep rfl rfl rfl
  split
  · next c₁ hrecover =>
    unfold pipelineRecover at hrecover
    split at hrecover
    · cases hrecover
    · cases hrecover
      apply Idle.pipelineDispatch
      exact h.keep rfl rfl rfl
  split
  · apply Idle.pipelineDispatch
    exact h.keep rfl rfl rfl
  · exact h.awaitRequest

/-! ## Responses of an upstream -/

theorem Active.sendHead (h : Active a c) (text : Str) (next : Callback) :
    Ledger a (c.sendHead text next) := by
  exact Active.ledger (h.carry (carries_of_plain rfl rfl rfl rfl)) nofun

theorem Active.sendInitial (h : Active a c) (sendLen : Nat) (bodyComplete : Bool) :
    Ledger a (c.sendInitial sendLen bodyComplete) := by
  apply Active.sendHead
  exact h.keep rfl rfl rfl

theorem Active.sendInserted (h : Active a c) (hdrEnd bodyLen : Nat) (bodyComplete : Bool) :
    Ledger a (c.sendInserted hdrEnd bodyLen bodyComplete) := by
  apply Active.sendHead
  exact h.keep rfl rfl rfl

theorem Active.sendDraining (h : Active a c) (contentLength headerLen sendLen : Nat)
    (bodyComplete : Bool) :
    Ledger a (c.sendDraining contentLength headerLen sendLen bodyComplete) := by
  unfold Connection.sendDraining
  dsimp only
  split
  · apply Active.sendInitial
    exact h.keep rfl rfl rfl
  split
  · exact h.sendInserted _ _ _
  · exact h.sendInitial _ _

theorem Active.forwardResponse (h : Active a c) (resp : ParsedResponse) (headerLen : Nat) :
    Ledger a (c.forwardResponse l resp headerLen) := by
  unfold Connection.forwardResponse
  dsimp only
  split
  · apply Active.sendBadGateway
    exact h.keep rfl rfl rfl
  split
  · apply Active.sendDraining
    exact h.keep rfl rfl rfl
  · apply Active.sendInitial
    exact h.keep rfl rfl rfl

theorem Active.submitRecvUpstream (h : Active a c) (hrecv : c.onRecv ≠ some .onHeaderReceived) :
    Ledger a (c.emit .submitRecvUpstream) :=
  Active.ledger (h.carry (carries_of_plain rfl rfl rfl rfl)) hrecv

/-- A response, interim ones skipped. -/
theorem Active.upstreamResponseLoop (fuel : Nat) (h : Active a c)
    (hrecv : c.onRecv ≠ some .onHeaderReceived) (result : Int) :
    Ledger a (Connection.upstreamResponseLoop l fuel c result) := by
  induction fuel generalizing c with
  | zero => exact h.ledger hrecv
  | succ fuel ih =>
    unfold Connection.upstreamResponseLoop
    split
    · exact h.close
    have hbad : Ledger a c.closeUpstream.sendBadGateway := by
      apply Active.sendBadGateway
      exact h.keep rfl rfl rfl
    split
    · split
      · exact hbad
      · exact h.submitRecvUpstream hrecv
    · exact hbad
    dsimp only
    split
    · split
      · exact ih (h.keep rfl rfl rfl) hrecv
      · apply Active.submitRecvUpstream
        · exact h.keep rfl rfl rfl
        · exact hrecv
    · apply Active.forwardResponse
      exact h.keep rfl rfl rfl

theorem Active.onUpstreamResponse (h : Active a c) (hrecv : c.onRecv ≠ some .onHeaderReceived)
    (result : Int) : Ledger a (c.onUpstreamResponse l result) :=
  h.upstreamResponseLoop _ hrecv result

theorem Active.onResponseBodyRecvd (h : Active a c) (result : Int) :
    Ledger a (c.onResponseBodyRecvd result) := by
  unfold Connection.onResponseBodyRecvd
  split
  · split
    · exact (h.onRequestComplete _).close
    · exact h.close
  dsimp only
  have hsend : ∀ (resp : ResponseState) (text : Str),
      Ledger a ({ c with resp := resp }.sendHead text .onResponseBodySent) := by
    intro resp text
    apply Active.sendHead
    exact h.keep rfl rfl rfl
  split
  · exact hsend _ _
  · split
    · exact h.close
    · exact hsend _ _
  · exact hsend _ _

theorem Active.readResponseBody (h : Active a c) (remaining : Nat) :
    Ledger a (c.readResponseBody remaining) := by
  unfold Connection.readResponseBody
  split
  · apply Active.onResponseBodyRecvd
    exact h.keep rfl rfl rfl
  · apply Active.submitRecvUpstream
    · exact h.keep rfl rfl rfl
    · nofun

theorem Active.onResponseHeaderSent (h : Active a c) (result : Int) :
    Ledger a (c.onResponseHeaderSent result) := by
  unfold Connection.onResponseHeaderSent
  split
  · exact h.close
  · apply Active.readResponseBody
    exact h.keep rfl rfl rfl

theorem Active.onResponseBodySent (h : Active a c) (result : Int) :
    Ledger a (c.onResponseBodySent l result) := by
  unfold Connection.onResponseBodySent
  split
  · exact h.close
  dsimp only
  split
  · have hdone : ∀ (c₁ : Connection) (n : Nat), Carries c c₁ →
        Idle a (c₁.onRequestComplete n).closeUpstream := fun c₁ n hc =>
      ((h.carry hc).onRequestComplete n).keep rfl rfl rfl
    split
    · apply Idle.close
      apply hdone
      exact carries_of_log rfl rfl rfl
    · apply Idle.nextRequest
      apply hdone
      exact carries_of_log rfl rfl rfl
  · apply Active.readResponseBody
    exact h.keep rfl rfl rfl

/-- The forwarded response is out. -/
theorem Active.onProxyResponseSent (h : Active a c) (result : Int) :
    Ledger a (c.onProxyResponseSent l result) := by
  have hslots : Active a (c.setSlots none none none none) := h.keep rfl rfl rfl
  unfold Connection.onProxyResponseSent
  split
  · exact hslots.close
  have hdone := hslots.onRequestComplete (c.setSlots none none none none).resp.bodySent
  split
  · exact hdone.close
  · apply Idle.nextRequest
    exact hdone.keep rfl rfl rfl

/-! ## Forwarding a request -/

theorem carries_pipelineStash (c : Connection) : Carries c c.pipelineStash := by
  unfold pipelineStash
  split_ifs <;> exact carries_of_log rfl rfl rfl

theorem carries_prepareEarly (c : Connection) : Carries c c.prepareEarlyResponseState := by
  unfold prepareEarlyResponseState
  split
  · exact carries_of_log rfl rfl rfl
  · exact (carries_pipelineStash c).trans (carries_of_log rfl rfl rfl)

theorem Active.awaitResponse (h : Active a c) : Ledger a (c.awaitResponse l) := by
  unfold Connection.awaitResponse
  dsimp only
  split
  · apply Active.onUpstreamResponse
    · exact h.keep rfl rfl rfl
    · nofun
  · apply Active.submitRecvUpstream
    · exact h.keep rfl rfl rfl
    · nofun

/-- There is an upstream, or a bad gateway. -/
theorem Active.onUpstreamConnected (h : Active a c) (result : Int) :
    Ledger a (c.onUpstreamConnected l result) := by
  unfold Connection.onUpstreamConnected
  split
  · exact h.sendBadGateway
  split
  · exact h.close
  split
  · exact h.close
  refine Active.ledger (h.carry ?_) (Option.some_ne_none _).symm
  split
  · exact carries_of_plain rfl rfl rfl rfl
  · exact carries_of_plain rfl rfl rfl rfl

/-- The response that has been waiting, behind what is left of the request. -/
theorem Active.earlyResponse (h : Active a c) (result : Int) :
    Ledger a ((c.prepareEarlyResponseState.setSlots none none (some .onUpstreamResponse)
      none).onUpstreamResponse l result) := by
  apply Active.onUpstreamResponse
  · exact (h.carry (carries_prepareEarly c)).keep rfl rfl rfl
  · nofun

theorem Active.salvageResponse (h : Active a c) : Ledger a (c.salvageResponse l) := by
  unfold Connection.salvageResponse
  split
  · exact h.earlyResponse _
  split
  · apply Active.submitRecvUpstream
    · exact (h.carry (carries_prepareEarly c)).keep rfl rfl rfl
    · nofun
  split
  · apply Active.earlyResponse
    exact h.carry (carries_of_plain rfl rfl rfl rfl)
  · exact h.close

theorem Active.readRequestBody (h : Active a c) : Ledger a c.readRequestBody := by
  have hrecv : Active a (({ c with recvBuf := c.recvBuf.reset }.setSlots (some .onRequestBodyRecvd) none
      (some .onEarlyUpstreamRecvd) none).emit .submitRecv) := h.carry (carries_of_plain rfl rfl rfl rfl)
  apply hrecv.submitRecvUpstream
  show some Callback.onRequestBodyRecvd ≠ _
  decide

theorem Active.requestSent (h : Active a c) : Ledger a (c.requestSent l) := by
  apply Active.awaitResponse
  exact (h.carry (carries_pipelineStash c)).keep rfl rfl rfl

theorem Active.onUpstreamRequestSent (h : Active a c) (result : Int) :
    Ledger a (c.onUpstreamRequestSent l result) := by
  unfold Connection.onUpstreamRequestSent
  split
  · exact h.salvageResponse
  split
  · exact h.readRequestBody
  · exact h.requestSent

theorem Active.onRequestBodyRecvd (h : Active a c) (result : Int) :
    Ledger a (c.onRequestBodyRecvd result) := by
  unfold Connection.onRequestBodyRecvd
  split
  · exact h.close
  dsimp only
  have hsend : ∀ (req : RequestState) (text : Str),
      Ledger a (({ c with req := req }.setSlots none none (some .onEarlyUpstreamRecvdSendInflight)
        (some .onRequestBodySent)).emit (.submitSendUpstream text)) := by
    intro req text
    exact Active.ledger (h.carry (carries_of_plain rfl rfl rfl rfl)) nofun
  split
  · exact hsend _ _
  · split
    · exact h.close
    · exact hsend _ _
  · exact hsend _ _

theorem Active.onRequestBodySent (h : Active a c) (result : Int) :
    Ledger a (c.onRequestBodySent l result) := by
  unfold Connection.onRequestBodySent
  split
  · exact h.salvageResponse
  split
  · exact h.requestSent
  · exact h.readRequestBody

/-! ## Early responses -/

/-- The request goes on as it was, or the connection has been closed. -/
theorem Active.handleEarlyUpstreamRecv (h : Active a c) (result : Int) (sendInFlight : Bool) :
    (Active a (c.handleEarlyUpstreamRecv l result sendInFlight) ∧
      (c.handleEarlyUpstreamRecv l result sendInFlight).onRecv = c.onRecv) ∨
    (Ledger a (c.handleEarlyUpstreamRecv l result sendInFlight) ∧
      (c.handleEarlyUpstreamRecv l result sendInFlight).onUpstreamSend = none) := by
  unfold Connection.handleEarlyUpstreamRecv
  generalize c.upstreamRecvBuf.len + 1 = fuel
  induction fuel generalizing c with
  | zero => exact .inl ⟨h, rfl⟩
  | succ fuel ih =>
    unfold earlyUpstreamRecvLoop
    dsimp only
    have haccept : Active a c.acceptEarly := h.keep rfl rfl rfl
    have hrearm : ∀ c₁ : Connection, Carries c c₁ → c₁.onRecv = c.onRecv →
        Active a (if !l.backend.upstreamRecvArmed && !sendInFlight then c₁.emit .submitRecvUpstream
          else c₁) ∧
        (if !l.backend.upstreamRecvArmed && !sendInFlight then c₁.emit .submitRecvUpstream
          else c₁).onRecv = c.onRecv := by
      intro c₁ hc hrecv
      split
      · exact ⟨(h.carry hc).carry (carries_of_plain rfl rfl rfl rfl), hrecv⟩
      · exact ⟨h.carry hc, hrecv⟩
    split
    · split
      · exact .inr ⟨h.close, rfl⟩
      · exact .inl ⟨haccept, rfl⟩
    split
    · exact .inl (hrearm c (Carries.refl c) rfl)
    · exact .inl ⟨haccept, rfl⟩
    split
    · split
      · exact ih (h.keep rfl rfl rfl)
      · exact .inl (hrearm _ (carries_of_log rfl rfl rfl) rfl)
    · exact .inl ⟨haccept, rfl⟩

theorem Active.onBodySendWithEarlyResponse (h : Active a c) :
    Ledger a (c.onBodySendWithEarlyResponse l) := h.earlyResponse _

theorem Active.onEarlyUpstreamRecvd (h : Active a c) (hrecv : c.onRecv ≠ some .onHeaderReceived)
    (result : Int) : Ledger a (c.onEarlyUpstreamRecvd l result) := by
  unfold Connection.onEarlyUpstreamRecvd
  dsimp only
  obtain ⟨hactive, hsame⟩ | ⟨hledger, hslot⟩ := h.handleEarlyUpstreamRecv (l := l) result false
  · split
    · exact hactive.onBodySendWithEarlyResponse
    · exact hactive.ledger (hsame ▸ hrecv)
  · rw [if_neg (by rw [hslot]; nofun)]
    exact hledger

theorem Active.onEarlyUpstreamRecvdSendInflight (h : Active a c)
    (hrecv : c.onRecv ≠ some .onHeaderReceived) (result : Int) :
    Ledger a (c.onEarlyUpstreamRecvdSendInflight l result) := by
  obtain ⟨hactive, hsame⟩ | ⟨hledger, -⟩ := h.handleEarlyUpstreamRecv (l := l) result true
  · exact hactive.ledger (hsame ▸ hrecv)
  · exact hledger

/-! ## Every input -/

/-- An open connection in one of its phases, with its ledger. -/
structure Standing (a : Bool) (c : Connection) (ph : Phase) : Prop where
  phase : c.InPhase ph
  isOpen : c.isOpen = true
  ledger : Ledger a c

theorem Standing.idle (h : Standing a c .reading) : Idle a c := by
  have hrecv : c.onRecv = some .onHeaderReceived := onRecv_of_phase h.phase
  have hactive : c.requestActive = false := by
    rw [← Bool.not_eq_true, h.ledger.active]
    exact fun hne => hne.2 hrecv
  exact ⟨h.ledger.booked.trans (congrArg some hactive), hactive, h.isOpen⟩

variable {ph : Phase}

theorem Standing.recv_ne (h : Standing a c ph) (hph : ph ≠ .reading) :
    c.onRecv ≠ some .onHeaderReceived := by
  rw [onRecv_of_phase h.phase]
  cases ph <;> first | exact absurd rfl hph | decide

theorem Standing.active (h : Standing a c ph) (hph : ph ≠ .reading) : Active a c := by
  have hactive : c.requestActive = true := h.ledger.active.mpr ⟨h.isOpen, h.recv_ne hph⟩
  exact ⟨h.ledger.booked.trans (congrArg some hactive), hactive, h.isOpen⟩

/-- Bytes that come in change neither the books nor the slots. -/
theorem Standing.carry (h : Standing a c ph) (hc : Carries c c') (hslots : c'.slots = c.slots)
    (hpending : c'.pendingHandlerFn = c.pendingHandlerFn) : Standing a c' ph := by
  refine ⟨⟨hslots.trans h.phase.slots, hpending ▸ h.phase.pending⟩, hc.isOpen.trans h.isOpen, ?_⟩
  have hrecv : c'.onRecv = c.onRecv := congrArg Slots.onRecv hslots
  refine ⟨?_, ?_⟩
  · rw [hc.booked a, h.ledger.booked, hc.active]
  · rw [hc.active, hc.isOpen, hrecv]
    exact h.ledger.active

theorem ledger_handleUnhandledRecv (h : Ledger a c) (result : Int) :
    Ledger a (c.handleUnhandledRecv l result) := by
  have hcarry : ∀ c₁ : Connection, Carries c c₁ → c₁.onRecv = c.onRecv → Ledger a c₁ := by
    intro c₁ hc hrecv
    refine ⟨by rw [hc.booked a, h.booked, hc.active], ?_⟩
    rw [hc.active, hc.isOpen, hrecv]
    exact h.active
  unfold handleUnhandledRecv
  dsimp only
  split_ifs
  · exact hcarry _ (carries_of_plain rfl rfl rfl rfl) rfl
  · exact h
  · exact hcarry _ (carries_of_plain rfl rfl rfl rfl) rfl
  · exact hcarry _ (carries_of_log rfl rfl rfl) rfl
  · exact ledger_closeConn h.booked
  · exact h

theorem carries_disarmYieldTimer (c : Connection) : Carries c c.disarmYieldTimer := by
  unfold disarmYieldTimer
  split
  · exact carries_of_plain rfl rfl rfl rfl
  · exact Carries.refl c

/-- Every completion keeps the ledger, whatever the phase. -/
theorem ledger_dispatch (h : Standing a c ph) (type : IoEventType) (result : Int) :
    Ledger a (c.dispatch l type result) := by
  rw [dispatch_of_phase h.phase]
  by_cases hp : ph = .parked
  · subst hp
    have hpending := h.phase.pending.mpr rfl
    have hsame : c.disarmYieldTimer.pendingHandlerFn = c.pendingHandlerFn := by
      unfold disarmYieldTimer
      split <;> rfl
    have hactive := h.active (by decide)
    rw [if_neg (by simp)]
    split
    · exact (hactive.carry (carries_disarmYieldTimer c)).resumeJitHandler (hsame ▸ hpending) _ _
    split
    · exact hactive.close
    · exact h.ledger
  rw [if_pos hp, dispatchEvent.eq_def, onRecv_of_phase h.phase, onSend_of_phase h.phase,
    onUpstreamRecv_of_phase h.phase, onUpstreamSend_of_phase h.phase]
  have hstay : Ledger a (if result < 0 ∧ c.state ≠ .readingHeader then c.closeConn else c) := by
    split
    · exact ledger_closeConn h.ledger.booked
    · exact h.ledger
  cases type with
  | recv =>
    cases ph with
    | reading => exact h.idle.onHeaderReceived result
    | jitBody => exact (h.active (by decide)).onJitRequestBodyRecvd result
    | readingBody => exact (h.active (by decide)).onRequestBodyRecvd result
    | parked => exact absurd rfl hp
    | _ => exact ledger_handleUnhandledRecv h.ledger result
  | timeout => exact h.ledger
  | handlerTimer => exact h.ledger
  | send =>
    cases ph with
    | answering => exact (h.active (by decide)).onResponseSent result
    | sendingHead => exact (h.active (by decide)).onResponseHeaderSent result
    | sendingAll => exact (h.active (by decide)).onProxyResponseSent result
    | sendingPart => exact (h.active (by decide)).onResponseBodySent result
    | _ => exact h.ledger
  | upstreamRecv =>
    cases ph with
    | sendingRequest =>
      exact (h.active (by decide)).onEarlyUpstreamRecvdSendInflight (h.recv_ne (by decide)) result
    | sendingBody =>
      exact (h.active (by decide)).onEarlyUpstreamRecvdSendInflight (h.recv_ne (by decide)) result
    | readingBody => exact (h.active (by decide)).onEarlyUpstreamRecvd (h.recv_ne (by decide)) result
    | awaitingResponse => exact (h.active (by decide)).onUpstreamResponse (h.recv_ne (by decide)) result
    | readingResponse => exact (h.active (by decide)).onResponseBodyRecvd result
    | _ => exact hstay
  | upstreamSend | upstreamConnect =>
    cases ph with
    | connecting => exact (h.active (by decide)).onUpstreamConnected result
    | sendingRequest => exact (h.active (by decide)).onUpstreamRequestSent result
    | sendingBody => exact (h.active (by decide)).onRequestBodySent result
    | earlyResponse => exact (h.active (by decide)).onBodySendWithEarlyResponse
    | _ => exact h.ledger

/-- A timer wakes a handler. -/
theorem ledger_resume (h : Standing a c ph) (hpending : c.pendingHandlerFn.isSome = true)
    (kind : YieldKind) (result : Int) :
    Ledger a ({ c with yieldArmed := false }.resumeJitHandler l kind result) := by
  have hp : ph = .parked := h.phase.pending.mp hpending
  have hactive := h.active (by rw [hp]; decide)
  apply Active.resumeJitHandler
  · exact hactive.keep rfl rfl rfl
  · exact hpending

theorem ledger_input (h : Standing a c ph) (i : Input) : Ledger a (c.input l i) := by
  cases i with
  | recv bytes =>
    apply ledger_dispatch
    exact h.carry (carries_of_plain rfl rfl rfl rfl) rfl rfl
  | upstreamRecv bytes =>
    apply ledger_dispatch
    exact h.carry (carries_of_plain rfl rfl rfl rfl) rfl rfl
  | recvError => exact ledger_dispatch h _ _
  | send result => exact ledger_dispatch h _ _
  | upstreamConnect result => exact ledger_dispatch h _ _
  | upstreamSend result => exact ledger_dispatch h _ _
  | upstreamRecvError => exact ledger_dispatch h _ _
  | handlerTimer =>
    show Ledger a (c.onHandlerTimer l)
    unfold onHandlerTimer
    split
    · next hfn => exact ledger_resume h hfn.1 _ _
    · exact h.ledger
  | timeout =>
    show Ledger a (c.onTimeout l)
    unfold onTimeout
    split
    · next hfn => exact ledger_resume h hfn.1 _ _
    · exact ledger_closeConn h.ledger.booked
  | forceClose => exact ledger_closeConn h.ledger.booked
  | drain => exact h.ledger
  | reload config => exact h.ledger

end Connection

/-! ## The connections of a loop -/

/-- What happens in a loop: a connection is accepted into a free slot, or something happens to the
connection of a slot. -/
inductive ShardInput where
  | accept (slot : Nat)
  | event (slot : Nat) (backend : Backend) (input : Input)

/-- A loop with its slots. The log of a connection is kept in `history`, under its slot; `epoch` is the
counter of `ShardEpoch`, which enters and leaves increment alike. -/
structure Shard where
  draining : Bool := false
  config : Option RouteConfig := none
  conns : List Connection
  requestsActive : Nat := 0
  epoch : UInt64 := 0
  history : List (Nat × Effect) := []

namespace Shard

def init (draining : Bool) (config : Option RouteConfig) (slots : Nat) : Shard where
  draining := draining
  config := config
  conns := List.replicate slots {}

/-- One of the calls. The gauge is not decremented below zero. -/
def call (s : Shard) : LoopCall → Shard
  | .epochEnter | .epochLeave => { s with epoch := s.epoch + 1 }
  | .onRequestStart => { s with requestsActive := s.requestsActive + 1 }
  | .onRequestComplete | .dropActive =>
    if s.requestsActive > 0 then { s with requestsActive := s.requestsActive - 1 } else s

/-- The calls that go with an effect on the connection of a slot. -/
def effect (slot : Nat) (s : Shard) (e : Effect) : Shard :=
  e.loopCalls.foldl call { s with history := s.history ++ [(slot, e)] }

/-- The connection of a slot; a slot that is not there is one that is free. -/
def conn (s : Shard) (slot : Nat) : Connection := s.conns.getD slot {}

/-- The slot gets a connection, and the loop what it has been told meanwhile. -/
def update (s : Shard) (slot : Nat) (w : World) : Shard :=
  w.conn.log.foldl (effect slot) { s with
    draining := w.draining
    config := w.config
    conns := s.conns.set slot { w.conn with log := [] } }

def step (s : Shard) : ShardInput → Shard
  | .accept slot =>
    if slot < s.conns.length ∧ (s.conn slot).isOpen = false then
      s.update slot (World.accept s.draining s.config)
    else s
  | .event slot backend input =>
    s.update slot (World.step ⟨s.draining, s.config, s.conn slot⟩ backend input)

def run (s : Shard) (inputs : List ShardInput) : Shard := inputs.foldl step s

/-- What has happened on the connections of a slot. -/
def effects (s : Shard) (slot : Nat) : List Effect :=
  (s.history.filter fun x => x.1 = slot).map (·.2)

/-! ### The counters -/

def calls (history : List (Nat × Effect)) : List LoopCall := history.flatMap fun x => x.2.loopCalls

/-- How often the gauge has been incremented, and how often it was to be decremented. -/
def starts (history : List (Nat × Effect)) : Nat := (calls history).countP (· = .onRequestStart)

def ends (history : List (Nat × Effect)) : Nat :=
  (calls history).countP fun k => k = .onRequestComplete || k = .dropActive

variable {s s' : Shard} {slot : Nat} {a b : Bool}

/-- What the effects of one connection leave alone, and what they do to the gauge. -/
structure Settles (s s' : Shard) (slot : Nat) (es : List Effect) (a b : Bool) : Prop where
  conns : s'.conns = s.conns
  draining : s'.draining = s.draining
  config : s'.config = s.config
  history : s'.history = s.history ++ es.map (slot, ·)
  gauge : s'.requestsActive + a.toNat = s.requestsActive + b.toNat
  room : b.toNat ≤ s'.requestsActive

/-- One effect, on the counters of the loop. -/
theorem settles_effect (slot : Nat) (hroom : a.toNat ≤ s.requestsActive) (h : e.book a = some b) :
    Settles s (s.effect slot e) slot [e] a b := by
  by_cases hplain : e.plain = true
  · have hcalls : e.loopCalls = [] := by cases e <;> first | rfl | cases hplain
    obtain rfl : a = b := Option.some.inj ((e.book_of_plain hplain a).symm.trans h)
    rw [effect, hcalls]
    exact ⟨rfl, rfl, rfl, rfl, rfl, hroom⟩
  -- the guard against an underflow is never needed
  have hdrop : ∀ s₁ : Shard, s₁.requestsActive = s.requestsActive → a = true →
      s₁.call .dropActive = { s₁ with requestsActive := s.requestsActive - 1 } := by
    intro s₁ hsame ha
    subst ha
    have hpos : s₁.requestsActive > 0 := by rw [hsame]; exact hroom
    rw [call, if_pos hpos, hsame]
  cases e with
  | dispatched d =>
    cases a with
    | true => cases h
    | false =>
      cases h
      exact ⟨rfl, rfl, rfl, rfl, rfl, Nat.le_add_left 1 _⟩
  | requestComplete status respSize =>
    cases a with
    | false => cases h
    | true =>
      cases h
      have hcall : s.effect slot (.requestComplete status respSize) = _ :=
        congrArg (call · .epochLeave) (hdrop _ rfl rfl)
      rw [hcall]
      exact ⟨rfl, rfl, rfl, rfl, Nat.sub_add_cancel hroom, Nat.zero_le _⟩
  | closed active =>
    cases a <;> cases active
    · cases h
      exact ⟨rfl, rfl, rfl, rfl, rfl, Nat.zero_le _⟩
    · cases h
    · cases h
    · cases h
      have hcall : s.effect slot (.closed true) = _ := hdrop _ rfl rfl
      rw [hcall]
      exact ⟨rfl, rfl, rfl, rfl, Nat.sub_add_cancel hroom, Nat.zero_le _⟩
  | _ => exact absurd rfl hplain

variable {es : List Effect} {c : Connection}

theorem settles_effects (hroom : a.toNat ≤ s.requestsActive)
    (h : es.foldlM (fun owed e => e.book owed) a = some b) :
    Settles s (es.foldl (effect slot) s) slot es a b := by
  induction es generalizing s a with
  | nil =>
    cases h
    exact ⟨rfl, rfl, rfl, by simp, rfl, hroom⟩
  | cons e es ih =>
    obtain ⟨a', hbook, hrest⟩ := Option.bind_eq_some_iff.mp h
    have h₁ := settles_effect slot hroom hbook
    have h₂ := ih h₁.room hrest
    refine ⟨h₂.conns.trans h₁.conns, h₂.draining.trans h₁.draining, h₂.config.trans h₁.config, ?_, ?_,
      h₂.room⟩
    · rw [foldl_cons, h₂.history, h₁.history]
      simp
    · have hg₁ := h₁.gauge
      have hg₂ := h₂.gauge
      rw [foldl_cons]
      omega

theorem calls_append (h h' : List (Nat × Effect)) : calls (h ++ h') = calls h ++ calls h' :=
  flatMap_append

/-- The increments and the decrements of one connection. -/
theorem starts_add_of_book (slot : Nat) (h : es.foldlM (fun owed e => e.book owed) a = some b) :
    starts (es.map (slot, ·)) + a.toNat = ends (es.map (slot, ·)) + b.toNat := by
  induction es generalizing a with
  | nil =>
    cases h
    rfl
  | cons e es ih =>
    obtain ⟨a', hbook, hrest⟩ := Option.bind_eq_some_iff.mp h
    have ih := ih hrest
    have hone : e.loopCalls.countP (· = .onRequestStart) + a.toNat =
        e.loopCalls.countP (fun k => k = .onRequestComplete || k = .dropActive) + a'.toNat := by
      cases e <;> cases a <;> try (cases hbook; rfl)
      all_goals next active => cases active <;> cases hbook <;> rfl
    have hcons : calls ((e :: es).map (slot, ·)) = e.loopCalls ++ calls (es.map (slot, ·)) := rfl
    unfold starts ends at ih ⊢
    rw [hcons, countP_append, countP_append]
    omega

/-! ### The invariant -/

/-- The gauge counts the connections with a request, and no slot owes more than that. -/
structure Inv (s : Shard) : Prop where
  log : ∀ slot, (s.conn slot).log = []
  keep : ∀ slot, (s.conn slot).KeepInv s.draining
  active : ∀ slot, (s.conn slot).requestActive = true ↔
    (s.conn slot).isOpen = true ∧ (s.conn slot).onRecv ≠ some .onHeaderReceived
  gauge : s.requestsActive = s.conns.countP (·.requestActive)
  books : ∀ slot, (s.effects slot).foldlM (fun owed e => e.book owed) false =
    some (s.conn slot).requestActive
  totals : starts s.history = ends s.history + s.requestsActive

theorem inv_init (draining : Bool) (config : Option RouteConfig) (slots : Nat) :
    Inv (init draining config slots) := by
  have hconn : ∀ slot, (init draining config slots).conn slot = {} := by
    intro slot
    rw [conn, init]
    by_cases h : slot < slots
    · rw [getD_eq_getElem _ _ (by simpa using h), getElem_replicate]
    · rw [getD_eq_default _ _ (by simpa using h)]
  constructor
  · intro slot
    rw [hconn]
  · intro slot
    rw [hconn]
    exact fun h => absurd h (by decide)
  · intro slot
    rw [hconn]
    decide
  · rw [init]
    simp [countP_replicate]
  · intro slot
    rw [hconn]
    rfl
  · rfl

/-- The effects of a slot after those of another one. -/
theorem effects_append (h : s'.history = s.history ++ es.map (slot, ·)) (j : Nat) :
    s'.effects j = s.effects j ++ (if j = slot then es else []) := by
  rw [effects, effects, h, filter_append, map_append]
  congr 1
  by_cases hj : j = slot
  · subst hj
    simp [filter_map, Function.comp_def]
  · have hne : slot ≠ j := fun h => hj h.symm
    simp [hj, hne, filter_map, Function.comp_def]

theorem conn_set (hslot : slot < s.conns.length) (j : Nat) (h : s'.conns = s.conns.set slot c) :
    s'.conn j = if j = slot then c else s.conn j := by
  rw [conn, conn, h]
  by_cases hj : j = slot
  · subst hj
    simp [getD_eq_getElem?_getD, hslot]
  · have hne : slot ≠ j := fun h => hj h.symm
    simp [getD_eq_getElem?_getD, hj, List.getElem?_set_ne hne]

/-- A connection with a request is counted. -/
theorem toNat_active_le (s : Shard) (hslot : slot < s.conns.length) :
    (s.conn slot).requestActive.toNat ≤ s.conns.countP (·.requestActive) := by
  rw [conn, getD_eq_getElem _ _ hslot]
  cases hactive : s.conns[slot].requestActive with
  | false => exact Nat.zero_le _
  | true => exact countP_pos_iff.mpr ⟨_, getElem_mem hslot, hactive⟩

/-- The requests in flight, one connection exchanged. -/
theorem countP_set_active (s : Shard) (hslot : slot < s.conns.length) (c : Connection) :
    (s.conns.set slot c).countP (·.requestActive) + (s.conn slot).requestActive.toNat =
      s.conns.countP (·.requestActive) + c.requestActive.toNat := by
  have hle := toNat_active_le s hslot
  have htoNat : ∀ x : Bool, (if x = true then 1 else 0) = x.toNat := by decide
  rw [conn, getD_eq_getElem _ _ hslot] at hle ⊢
  rw [countP_set hslot, htoNat, htoNat]
  omega

/-- The phase of a connection is not read off its log. -/
theorem keepInv_forget {draining : Bool} (h : c.KeepInv draining) :
    Connection.KeepInv draining { c with log := [] } := by
  intro hopen
  obtain ⟨ph, hslots, hinv⟩ := h hopen
  exact ⟨ph, hslots, hinv.rebuffer ⟨rfl, rfl, rfl⟩ fun _ => .inr rfl⟩

/-- A slot gets a connection that has kept its ledger. -/
theorem Inv.update {w : World} (h : Inv s) (hslot : slot < s.conns.length)
    (hkeep : w.conn.KeepInv w.draining)
    (hother : ∀ j, (s.conn j).KeepInv w.draining)
    (hledger : w.conn.Ledger (s.conn slot).requestActive) : Inv (s.update slot w) := by
  have hroom : (s.conn slot).requestActive.toNat ≤ s.requestsActive := by
    rw [h.gauge]
    exact toNat_active_le s hslot
  have hsettles : Settles { s with
      draining := w.draining
      config := w.config
      conns := s.conns.set slot { w.conn with log := [] } } (s.update slot w) slot w.conn.log
      (s.conn slot).requestActive w.conn.requestActive := settles_effects hroom hledger.booked
  have hconn := fun j => conn_set (s := s) hslot j hsettles.conns
  have heffects := fun j => effects_append (s := s) hsettles.history j
  constructor
  · intro j
    rw [hconn]
    split
    · rfl
    · exact h.log j
  · intro j
    rw [hsettles.draining, hconn]
    split
    · exact keepInv_forget hkeep
    · exact hother j
  · intro j
    rw [hconn]
    split
    · exact hledger.active
    · exact h.active j
  · have hgauge := hsettles.gauge
    have hcount := countP_set_active s hslot { w.conn with log := [] }
    have hbefore := h.gauge
    rw [hsettles.conns]
    dsimp only at hgauge hcount ⊢
    omega
  · intro j
    rw [heffects, hconn, foldlM_append, h.books j]
    by_cases hj : j = slot
    · rw [if_pos hj, if_pos hj, hj]
      exact hledger.booked
    · rw [if_neg hj, if_neg hj]
      rfl
  · have hstarts := starts_add_of_book slot hledger.booked
    have hgauge := hsettles.gauge
    have hbefore := h.totals
    rw [hsettles.history]
    unfold starts ends at hstarts hbefore ⊢
    rw [calls_append, countP_append, countP_append]
    dsimp only at hgauge ⊢
    omega

theorem keepInv_draining {w : World} (h : c.KeepInv w.draining) (backend : Backend) (i : Input) :
    c.KeepInv (w.step backend i).draining := by
  cases i with
  | drain => exact h.drain
  | _ => exact h

/-- Nothing happens on a slot that is free, though the loop may be told to drain or to reload. -/
theorem Inv.update_closed (h : Inv s) (hclosed : (s.conn slot).isOpen = false) (backend : Backend)
    (i : Input) : Inv (s.update slot (World.step ⟨s.draining, s.config, s.conn slot⟩ backend i)) := by
  set w := World.step ⟨s.draining, s.config, s.conn slot⟩ backend i with hw
  have hconn : w.conn = s.conn slot := if_neg (by simp [hclosed])
  have hsame : { w.conn with log := [] } = s.conn slot := by
    rw [hconn]
    have hlog := h.log slot
    generalize s.conn slot = c at hlog
    obtain ⟨⟩ := c
    cases hlog
    rfl
  have hset : s.conns.set slot (s.conn slot) = s.conns := by
    by_cases hslot : slot < s.conns.length
    · rw [conn, getD_eq_getElem _ _ hslot, set_getElem_self]
    · exact set_eq_of_length_le (by omega)
  have hupdate : s.update slot w = { s with draining := w.draining, config := w.config } := by
    have hlog : w.conn.log = [] := by rw [hconn, h.log]
    rw [Shard.update, hlog, hsame, hset]
    rfl
  rw [hupdate]
  exact ⟨h.log, fun j => keepInv_draining (w := ⟨s.draining, s.config, s.conn slot⟩) (h.keep j) backend i,
    h.active, h.gauge, h.books, h.totals⟩

theorem slot_lt_of_isOpen (hopen : (s.conn slot).isOpen = true) : slot < s.conns.length := by
  by_contra hslot
  rw [conn, getD_eq_default _ _ (by omega)] at hopen
  cases hopen

/-- Every input of the loop keeps the invariant. -/
theorem Inv.step (h : Inv s) (i : ShardInput) : Inv (s.step i) := by
  cases i with
  | accept slot =>
    unfold Shard.step
    dsimp only
    split
    · next hfree =>
      have hidle : (s.conn slot).requestActive = false := by
        rw [← Bool.not_eq_true, h.active]
        exact fun hopen => Bool.false_ne_true (hfree.2.symm.trans hopen.1)
      apply h.update hfree.1
      · exact fun _ => ⟨.reading, rfl, rfl, rfl⟩
      · exact h.keep
      · rw [hidle]
        exact ⟨rfl, iff_of_false Bool.false_ne_true fun hopen => hopen.2 rfl⟩
    · exact h
  | event slot backend i =>
    by_cases hopen : (s.conn slot).isOpen = true
    · set w : World := ⟨s.draining, s.config, s.conn slot⟩ with hw
      have hkeep : w.conn.KeepInv w.draining := h.keep slot
      have hstep : (w.step backend i).conn = (s.conn slot).input (w.loop backend) i := if_pos hopen
      obtain ⟨ph, hslots, hph⟩ := h.keep slot hopen
      have hbooked : (s.conn slot).booked (s.conn slot).requestActive =
          some (s.conn slot).requestActive := by
        rw [Connection.booked, h.log]
        rfl
      apply h.update (slot_lt_of_isOpen hopen)
      · exact Connection.keepInv_step hkeep backend i
      · exact fun j => keepInv_draining (w := w) (h.keep j) backend i
      · rw [hstep]
        exact Connection.ledger_input ⟨hph.inPhase hslots, hopen, hbooked, h.active slot⟩ i
    · exact h.update_closed (by simpa using hopen) backend i

/-- The invariant holds in every run. -/
theorem inv_run (draining : Bool) (config : Option RouteConfig) (slots : Nat)
    (inputs : List ShardInput) : Inv ((init draining config slots).run inputs) := by
  have hrun : ∀ s : Shard, Inv s → Inv (s.run inputs) := by
    intro s h
    induction inputs generalizing s with
    | nil => exact h
    | cons i inputs ih => exact ih (s.step i) (h.step i)
  exact hrun _ (inv_init draining config slots)

/-! ### Entering and leaving -/

def epochCalls (es : List Effect) : List LoopCall :=
  (es.flatMap Effect.loopCalls).filter fun k => k = .epochEnter || k = .epochLeave

def dispatches (es : List Effect) : Nat :=
  es.countP fun e => match e with
    | .dispatched _ => true
    | _ => false

/-- Every request is entered once and left once, before the next one is entered; the last one may be
still to leave. -/
def Paired (es : List Effect) (owed : Bool) : Prop :=
  ∃ n, epochCalls es = (List.replicate n [LoopCall.epochEnter, .epochLeave]).flatten ++
      (if owed then [.epochEnter] else []) ∧ dispatches es = n + owed.toNat

/-- What an effect does to the epoch. -/
theorem epochCalls_of_book {before owed : Bool} (h : e.book before = some owed) :
    (epochCalls [e] = [] ∧ dispatches [e] = 0 ∧ owed = before) ∨
    (epochCalls [e] = [.epochEnter] ∧ dispatches [e] = 1 ∧ before = false ∧ owed = true) ∨
    (epochCalls [e] = [.epochLeave] ∧ dispatches [e] = 0 ∧ before = true ∧ owed = false) := by
  cases e with
  | dispatched d =>
    cases before <;> cases h
    exact .inr (.inl ⟨rfl, rfl, rfl, rfl⟩)
  | requestComplete status respSize =>
    cases before <;> cases h
    exact .inr (.inr ⟨rfl, rfl, rfl, rfl⟩)
  | closed active =>
    cases before <;> cases active <;> cases h
    · exact .inl ⟨rfl, rfl, rfl⟩
    · exact .inr (.inr ⟨rfl, rfl, rfl, rfl⟩)
  | _ =>
    cases before <;> cases h <;> exact .inl ⟨rfl, rfl, rfl⟩

/-- Enters and leaves take turns. -/
theorem paired_of_book {owed : Bool} (h : es.foldlM (fun owed e => e.book owed) false = some owed) :
    Paired es owed := by
  induction es using List.reverseRecOn generalizing owed with
  | nil =>
    cases h
    exact ⟨0, rfl, rfl⟩
  | append_singleton es e ih =>
    rw [foldlM_append] at h
    obtain ⟨before, hbefore, hbook⟩ := Option.bind_eq_some_iff.mp h
    obtain ⟨n, hcalls, hcount⟩ := ih hbefore
    have hbook : e.book before = some owed := by simpa using hbook
    have hsplit : epochCalls (es ++ [e]) = epochCalls es ++ epochCalls [e] := by simp [epochCalls]
    have hdispatches : dispatches (es ++ [e]) = dispatches es + dispatches [e] := by
      simp [dispatches]
    rw [Paired, hsplit, hcalls, hdispatches, hcount]
    obtain ⟨he, hd, rfl⟩ | ⟨he, hd, rfl, rfl⟩ | ⟨he, hd, rfl, rfl⟩ := epochCalls_of_book hbook
    · exact ⟨n, by rw [he, append_nil], by rw [hd, Nat.add_zero]⟩
    · exact ⟨n, by rw [he]; simp, by rw [hd]; rfl⟩
    · refine ⟨n + 1, ?_, by rw [hd]; rfl⟩
      rw [he, replicate_succ', flatten_append]
      simp

/-- The books of a loop. -/
structure Balanced (s : Shard) : Prop where
  /-- the gauge is the number of connections with a request -/
  gauge : s.requestsActive = s.conns.countP (·.requestActive)
  /-- requests are entered and left in turn -/
  paired : ∀ slot, Paired (s.effects slot) (s.conn slot).requestActive
  /-- a connection that has been closed owes nothing -/
  closed : ∀ slot, (s.conn slot).isOpen = false → (s.conn slot).requestActive = false
  /-- every decrement of the gauge has found it positive -/
  totals : starts s.history = ends s.history + s.requestsActive

/-- Whatever happens to the connections of a loop, its books balance. -/
theorem balanced_run (draining : Bool) (config : Option RouteConfig) (slots : Nat)
    (inputs : List ShardInput) : Balanced ((init draining config slots).run inputs) := by
  have hinv := inv_run draining config slots inputs
  refine ⟨hinv.gauge, fun slot => paired_of_book (hinv.books slot), fun slot hclosed => ?_, hinv.totals⟩
  rw [← Bool.not_eq_true, hinv.active]
  exact fun hopen => Bool.false_ne_true (hclosed.symm.trans hopen.1)

end Shard

end Rut
