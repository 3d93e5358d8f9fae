import Rut.Conn.Frames

/-!
# Connections that are not kept alive

When the last byte of a response has been sent, a connection whose `keep_alive` is false has to be
closed. Three callbacks end a response, and two of them look at the flag:

    on_response_sent          keep_alive
    on_response_body_sent     keep_alive, draining
    on_proxy_response_sent    draining

The third is right as long as the flag is only cleared by draining, which is not so: an upstream
response that comes before the end of the request body clears it too (`prepare_early_response_state`).
`PhaseInv` says in which phases and why the flag can be false, and `closes_iff` what follows.
-/

namespace Rut
namespace Connection

/-! ## The invariant -/

/-- Why the rest of a request can be given up: the loop drains, or the response came early. -/
def GivenUp (draining : Bool) (c : Connection) : Prop :=
  draining = true ∨ c.req.bodyPending = true ∧ c.recvBuf.data = [] ∧ c.pipelineStashLen = 0

/-- A request is being handled, and nothing is stashed. -/
structure Busy (draining : Bool) (c : Connection) : Prop where
  pending : c.pendingHandlerFn = none
  stash : c.pipelineStashLen = 0
  keep : c.keepAlive = false → draining = true

/-- The response of an upstream is being passed on. -/
structure Relaying (draining : Bool) (c : Connection) : Prop where
  pending : c.pendingHandlerFn = none
  keep : c.keepAlive = false → GivenUp draining c

/-- What is known in each phase. While a request is read or answered by the loop itself, keep-alive may
be off for any reason. -/
def PhaseInv (draining : Bool) (c : Connection) : Phase → Prop
  | .reading => c.pendingHandlerFn = none ∧ c.pipelineStashLen = 0
  | .answering => c.pendingHandlerFn = none ∧ (c.keepAlive = true → c.pipelineStashLen = 0)
  | .parked => c.pendingHandlerFn.isSome = true ∧ c.pipelineStashLen = 0 ∧
      (c.keepAlive = false → draining = true)
  | .awaitingResponse | .sendingHead | .sendingAll | .readingResponse | .sendingPart =>
    Relaying draining c
  | .jitBody | .connecting | .sendingRequest | .readingBody | .sendingBody | .earlyResponse =>
    Busy draining c

def KeepInv (draining : Bool) (c : Connection) : Prop :=
  c.isOpen = true → ∃ ph : Phase, c.slots = ph.slots ∧ PhaseInv draining c ph

variable {c c' : Connection} {l : Loop}

/-- What the invariant reads of a connection, beside its slots, its request and its buffer. -/
structure Held where
  pending : Option HandlerFn
  stash : UInt16
  keepAlive : Bool

def held (c : Connection) : Held := ⟨c.pendingHandlerFn, c.pipelineStashLen, c.keepAlive⟩

variable {c₁ : Connection} {draining : Bool} {ph : Phase} {result : Int}

theorem held_eq_iff {c : Connection} : c₁.held = c.held ↔
    c₁.pendingHandlerFn = c.pendingHandlerFn ∧ c₁.pipelineStashLen = c.pipelineStashLen ∧
      c₁.keepAlive = c.keepAlive := by
  simp only [held, Held.mk.injEq]

theorem Busy.congr (h : Busy draining c) (heq : c₁.held = c.held) : Busy draining c₁ := by
  obtain ⟨hpending, hstash, hkeep⟩ := held_eq_iff.mp heq
  exact ⟨hpending.trans h.pending, hstash.trans h.stash, hkeep ▸ h.keep⟩

theorem Relaying.congr (h : Relaying draining c) (heq : c₁.held = c.held) (hreq : c₁.req = c.req)
    (hbuf : c₁.recvBuf = c.recvBuf) : Relaying draining c₁ := by
  obtain ⟨hpending, hstash, hkeep⟩ := held_eq_iff.mp heq
  refine ⟨hpending.trans h.pending, fun hk => ?_⟩
  rw [GivenUp, hreq, hbuf, hstash]
  exact h.keep (hkeep ▸ hk)

theorem keepInv_closeConn (c : Connection) (draining : Bool) : KeepInv draining c.closeConn :=
  fun h => nomatch (show false = true from h)

/-! ## Requests -/

theorem keepInv_settled (h : Settled c c') (hstash : c.pipelineStashLen = 0)
    (hkeep : c.keepAlive = false → draining = true) : KeepInv draining c' := by
  intro _
  have hstash' : c'.pipelineStashLen = 0 := h.stash.trans hstash
  rcases h.phase with ⟨hslots, hpending, -⟩ | ⟨hslots, hpending, hk⟩ | ⟨hslots, hpending, hk, -⟩
  · exact ⟨.answering, hslots, hpending, fun _ => hstash'⟩
  · exact ⟨.parked, hslots, hpending, hstash', hk ▸ hkeep⟩
  · exact ⟨.connecting, hslots, hpending, hstash', hk ▸ hkeep⟩

theorem keepInv_onHeaderReceived (hpending : c.pendingHandlerFn = none)
    (hstash : c.pipelineStashLen = 0) (result : Int) :
    KeepInv l.draining (c.onHeaderReceived l result) := by
  unfold onHeaderReceived
  split
  · exact keepInv_closeConn c _
  split
  · exact fun _ => ⟨.reading, rfl, hpending, hstash⟩
  · have hkeep : (c.admitRequest l).keepAlive = false → l.draining = true := by
      intro h
      have hnot : (!l.draining) = false := h
      simpa using hnot
    rcases startRoute_cases (l := l) (c := c.admitRequest l) hpending with h | h
    · exact keepInv_settled h hstash hkeep
    · rw [h.waits]
      exact fun _ => ⟨.jitBody, rfl, hpending, hstash, hkeep⟩

theorem keepInv_onJitRequestBodyRecvd (h : Busy l.draining c) (result : Int) :
    KeepInv l.draining (c.onJitRequestBodyRecvd l result) := by
  unfold onJitRequestBodyRecvd
  dsimp only
  split
  · exact keepInv_closeConn c _
  split
  · exact keepInv_closeConn c _
  split
  · exact fun _ => ⟨.jitBody, rfl, h.congr rfl⟩
  split
  · exact keepInv_settled (settled_execHandler _ _) h.stash h.keep
  · exact keepInv_closeConn _ _

theorem keepInv_pipelineDispatch (hpending : c.pendingHandlerFn = none)
    (hstash : c.pipelineStashLen = 0) : KeepInv l.draining (c.pipelineDispatch l) := by
  unfold pipelineDispatch
  exact keepInv_onHeaderReceived hpending hstash _

theorem keepInv_awaitRequest (hpending : c.pendingHandlerFn = none) (hstash : c.pipelineStashLen = 0)
    (draining : Bool) : KeepInv draining c.awaitRequest :=
  fun _ => ⟨.reading, rfl, hpending, hstash⟩

/-- The end of a response of our own. -/
theorem keepInv_onResponseSent (hpending : c.pendingHandlerFn = none)
    (hstash : c.keepAlive = true → c.pipelineStashLen = 0) (result : Int) :
    KeepInv l.draining (c.onResponseSent l result) := by
  unfold onResponseSent
  dsimp only
  split
  · exact keepInv_closeConn _ _
  split
  · exact keepInv_closeConn _ _
  split
  · exact keepInv_closeConn _ _
  · next hkeep =>
    have hkeep : ¬ (!c.keepAlive) = true := hkeep
    have hstash := hstash (by simpa using hkeep)
    unfold pipelineShift
    split
    · next c₁ h =>
      split at h
      · cases h
      · cases h
        apply keepInv_pipelineDispatch
        · exact hpending
        · exact hstash
    · apply keepInv_awaitRequest
      · exact hpending
      · exact hstash

theorem keepInv_nextRequest (hpending : c.pendingHandlerFn = none) :
    KeepInv l.draining (c.nextRequest l) := by
  unfold nextRequest
  split
  · split
    · exact keepInv_closeConn _ _
    · apply keepInv_pipelineDispatch
      · exact hpending
      · rfl
  · split
    · next c₁ h =>
      unfold pipelineRecover at h
      split at h
      · cases h
      · cases h
        apply keepInv_pipelineDispatch
        · exact hpending
        · rfl
    · next h =>
      have hstash : c.pipelineStashLen = 0 := by
        unfold pipelineRecover at h
        split at h
        · assumption
        · cases h
      split
      · apply keepInv_pipelineDispatch
        · exact hpending
        · exact hstash
      · exact keepInv_awaitRequest hpending hstash _

/-! ## Responses of an upstream -/

theorem keepInv_answered (h : Answered l c c') (hr : Relaying l.draining c)
    (hslots : c.slots = Phase.awaitingResponse.slots) : KeepInv l.draining c' := by
  intro _
  have hpending' : c'.pendingHandlerFn = none := h.pending.trans hr.pending
  rcases h.phase with ⟨hphase, hfalse⟩ | ⟨hphase, hk⟩
  · exact ⟨.answering, hphase, hpending', fun hk => absurd (hfalse.symm.trans hk) Bool.false_ne_true⟩
  · have hr' : Relaying l.draining c' := by
      refine ⟨hpending', fun hfalse => ?_⟩
      have hreq : c'.req = c.req := congrArg ClientSide.req h.client
      have hbuf : c'.recvBuf = c.recvBuf := congrArg ClientSide.recvBuf h.client
      rw [GivenUp, hreq, hbuf, h.stash]
      rcases hk with hk | hd
      · exact hr.keep (hk ▸ hfalse)
      · exact .inl hd
    rw [hslots] at hphase
    rcases hphase with hphase | hphase | hphase
    · exact ⟨.awaitingResponse, hphase, hr'⟩
    · exact ⟨.sendingHead, hphase, hr'⟩
    · exact ⟨.sendingAll, hphase, hr'⟩

/-- A response comes in. -/
theorem keepInv_onUpstreamResponse (hr : Relaying l.draining c)
    (hslots : c.slots = Phase.awaitingResponse.slots) (result : Int) :
    KeepInv l.draining (c.onUpstreamResponse l result) := by
  rcases onUpstreamResponse_cases (l := l) (c := c) result with h | h
  · rw [h]
    exact keepInv_closeConn _ _
  · exact keepInv_answered h hr hslots

theorem keepInv_onResponseBodyRecvd (hr : Relaying draining c) (result : Int) :
    KeepInv draining (c.onResponseBodyRecvd result) := by
  unfold onResponseBodyRecvd
  dsimp only
  have hsend : ∀ (resp : ResponseState) (text : Str), KeepInv draining
      ({ c with resp := resp }.sendHead text .onResponseBodySent) :=
    fun _ _ _ => ⟨.sendingPart, rfl, hr.congr rfl rfl rfl⟩
  split
  · split <;> exact keepInv_closeConn _ _
  split
  · exact hsend _ _
  · split
    · exact keepInv_closeConn _ _
    · exact hsend _ _
  · exact hsend _ _

theorem keepInv_readResponseBody (hr : Relaying draining c) (remaining : Nat) :
    KeepInv draining (c.readResponseBody remaining) := by
  unfold readResponseBody
  dsimp only
  split
  · apply keepInv_onResponseBodyRecvd
    exact hr.congr rfl rfl rfl
  · exact fun _ => ⟨.readingResponse, rfl, hr.congr rfl rfl rfl⟩

theorem keepInv_onResponseHeaderSent (hr : Relaying draining c) (result : Int) :
    KeepInv draining (c.onResponseHeaderSent result) := by
  unfold onResponseHeaderSent
  split
  · exact keepInv_closeConn _ _
  · apply keepInv_readResponseBody
    exact hr.congr rfl rfl rfl

theorem keepInv_onResponseBodySent (hr : Relaying l.draining c) (result : Int) :
    KeepInv l.draining (c.onResponseBodySent l result) := by
  unfold onResponseBodySent
  dsimp only
  split
  · exact keepInv_closeConn _ _
  split
  · split
    · exact keepInv_closeConn _ _
    · apply keepInv_nextRequest
      exact hr.pending
  · apply keepInv_readResponseBody
    exact hr.congr rfl rfl rfl

theorem keepInv_onProxyResponseSent (hpending : c.pendingHandlerFn = none) (result : Int) :
    KeepInv l.draining (c.onProxyResponseSent l result) := by
  unfold onProxyResponseSent
  dsimp only
  split
  · exact keepInv_closeConn _ _
  split
  · exact keepInv_closeConn _ _
  · apply keepInv_nextRequest
    exact hpending

/-! ## Forwarding a request -/

section Forwarding

variable (h : Busy l.draining c)

include h in
/-- An early response: the connection is given up if part of the request is still to come. -/
theorem relaying_prepareEarly : Relaying l.draining c.prepareEarlyResponseState := by
  unfold prepareEarlyResponseState
  split
  · next hpending => exact ⟨h.pending, fun _ => .inr ⟨hpending, rfl, h.stash⟩⟩
  · unfold pipelineStash
    split_ifs <;> exact ⟨h.pending, fun hk => .inl (h.keep hk)⟩

include h in
theorem keepInv_onBodySendWithEarlyResponse :
    KeepInv l.draining (c.onBodySendWithEarlyResponse l) := by
  unfold onBodySendWithEarlyResponse
  apply keepInv_onUpstreamResponse
  · exact (relaying_prepareEarly h).congr rfl rfl rfl
  · rfl

include h in
theorem keepInv_salvageResponse : KeepInv l.draining (c.salvageResponse l) := by
  unfold salvageResponse
  dsimp only
  split
  · apply keepInv_onUpstreamResponse
    · exact (relaying_prepareEarly h).congr rfl rfl rfl
    · rfl
  split
  · exact fun _ => ⟨.awaitingResponse, rfl, (relaying_prepareEarly h).congr rfl rfl rfl⟩
  split
  · have hb : ∀ (buf : Buffer) (e : Effect),
        Busy l.draining ({ c with upstreamRecvBuf := buf }.emit e) := fun _ _ => h.congr rfl
    apply keepInv_onUpstreamResponse
    · exact (relaying_prepareEarly (hb _ _)).congr rfl rfl rfl
    · rfl
  · exact keepInv_closeConn _ _

include h in
theorem keepInv_onUpstreamConnected (result : Int) :
    KeepInv l.draining (c.onUpstreamConnected l result) := by
  unfold onUpstreamConnected
  dsimp only
  split
  · exact fun _ => ⟨.answering, rfl, h.pending, fun _ => h.stash⟩
  split
  · exact keepInv_closeConn _ _
  split
  · exact keepInv_closeConn _ _
  · intro _
    refine ⟨.sendingRequest, rfl, ?_⟩
    split <;> exact h.congr rfl

include h in
theorem keepInv_requestSent : KeepInv l.draining (c.requestSent l) := by
  have hr : Relaying l.draining { c.pipelineStash with recvBuf := c.pipelineStash.recvBuf.reset } := by
    unfold pipelineStash
    split_ifs <;> exact ⟨h.pending, fun hk => .inl (h.keep hk)⟩
  unfold requestSent
  dsimp only
  rcases awaitResponse_cases (l := l)
    (c := { c.pipelineStash with recvBuf := c.pipelineStash.recvBuf.reset }) with hc | ha
  · rw [hc]
    exact keepInv_closeConn _ _
  · apply keepInv_answered ha
    · exact hr.congr rfl rfl rfl
    · rfl

include h in
theorem keepInv_onUpstreamRequestSent (result : Int) :
    KeepInv l.draining (c.onUpstreamRequestSent l result) := by
  unfold onUpstreamRequestSent
  split
  · exact keepInv_salvageResponse h
  split
  · exact fun _ => ⟨.readingBody, rfl, h.congr rfl⟩
  · exact keepInv_requestSent h

include h in
theorem keepInv_onRequestBodyRecvd (result : Int) : KeepInv l.draining (c.onRequestBodyRecvd result) := by
  unfold onRequestBodyRecvd
  dsimp only
  split
  · exact keepInv_closeConn _ _
  split
  · exact fun _ => ⟨.sendingBody, rfl, h.congr rfl⟩
  · split
    · exact keepInv_closeConn _ _
    · exact fun _ => ⟨.sendingBody, rfl, h.congr rfl⟩
  · exact fun _ => ⟨.sendingBody, rfl, h.congr rfl⟩

include h in
theorem keepInv_onRequestBodySent (result : Int) :
    KeepInv l.draining (c.onRequestBodySent l result) := by
  unfold onRequestBodySent
  split
  · exact keepInv_salvageResponse h
  split
  · exact keepInv_requestSent h
  · exact fun _ => ⟨.readingBody, rfl, h.congr rfl⟩

omit h in
theorem Early.busy (he : Early c c') (h : Busy l.draining c) : Busy l.draining c' :=
  h.congr (held_eq_iff.mpr ⟨he.pending, he.stash, he.keepAlive⟩)

include h in
theorem keepInv_onEarlyUpstreamRecvd (result : Int) (hslots : c.slots = Phase.readingBody.slots) :
    KeepInv l.draining (c.onEarlyUpstreamRecvd l result) := by
  unfold onEarlyUpstreamRecvd
  dsimp only
  rcases handleEarlyUpstreamRecv_cases (l := l) c result false with hc | he
  · rw [hc]
    exact keepInv_closeConn _ _
  split
  · exact keepInv_onBodySendWithEarlyResponse (he.busy h)
  · next hno =>
    rcases he.slots with hs | hs
    · exact fun _ => ⟨.readingBody, hs.trans hslots, he.busy h⟩
    · exact absurd (congrArg Slots.onUpstreamSend hs) hno

include h in
/-- With a send in flight the response is kept for its completion. -/
theorem keepInv_onEarlyUpstreamRecvdSendInflight (result : Int)
    (hslots : c.slots = Phase.sendingRequest.slots ∨ c.slots = Phase.sendingBody.slots) :
    KeepInv l.draining (c.onEarlyUpstreamRecvdSendInflight l result) := by
  unfold onEarlyUpstreamRecvdSendInflight
  rcases handleEarlyUpstreamRecv_cases (l := l) c result true with hc | he
  · rw [hc]
    exact keepInv_closeConn _ _
  intro _
  have hb := he.busy h
  have haccept : c.acceptEarly.slots = Phase.earlyResponse.slots := by
    have hrecv : c.onRecv = none := by
      rcases hslots with hs | hs <;> exact congrArg Slots.onRecv hs
    have hsend : c.onSend = none := by
      rcases hslots with hs | hs <;> exact congrArg Slots.onSend hs
    simp only [acceptEarly, Connection.slots, hrecv, hsend, Phase.slots]
  rcases he.slots with hs | hs
  · rcases hslots with h' | h'
    · exact ⟨.sendingRequest, hs.trans h', hb⟩
    · exact ⟨.sendingBody, hs.trans h', hb⟩
  · exact ⟨.earlyResponse, hs.trans haccept, hb⟩

end Forwarding

/-! ## Every run -/

/-- In a phase where no handler sleeps, completions go to the slots. -/
theorem PhaseInv.inPhase (hslots : c.slots = ph.slots) (hinv : PhaseInv draining c ph) :
    c.InPhase ph := by
  refine ⟨hslots, ?_⟩
  cases ph with
  | parked => exact iff_of_true hinv.1 rfl
  | reading | answering =>
    rw [hinv.1]
    exact iff_of_false Bool.false_ne_true (by decide)
  | _ =>
    rw [hinv.pending]
    exact iff_of_false Bool.false_ne_true (by decide)

theorem keepInv_dispatch_parked (hslots : c.slots = Phase.parked.slots)
    (hinv : PhaseInv l.draining c .parked) (type : IoEventType) (result : Int) :
    KeepInv l.draining (c.dispatch l type result) := by
  obtain ⟨hpending, hstash, hkeep⟩ := hinv
  rw [dispatch_of_phase ⟨hslots, iff_of_true hpending rfl⟩, if_neg (by simp)]
  split
  · have hsame : c.disarmYieldTimer.pendingHandlerFn = c.pendingHandlerFn ∧
        c.disarmYieldTimer.pipelineStashLen = c.pipelineStashLen ∧
        c.disarmYieldTimer.keepAlive = c.keepAlive := by
      unfold disarmYieldTimer
      split <;> exact ⟨rfl, rfl, rfl⟩
    exact keepInv_settled (settled_resumeJitHandler _ _ (hsame.1 ▸ hpending))
      (hsame.2.1.trans hstash) (hsame.2.2 ▸ hkeep)
  split
  · exact keepInv_closeConn _ _
  · exact fun _ => ⟨.parked, hslots, hpending, hstash, hkeep⟩

/-- The same connection with other bytes in its buffers. -/
structure Rebuffered (c c₁ : Connection) : Prop where
  held : c₁.held = c.held
  slots : c₁.slots = c.slots
  req : c₁.req = c.req

/-- Of the invariant only the reason for giving up speaks of a buffer. -/
theorem PhaseInv.rebuffer (hinv : PhaseInv draining c ph) (h : Rebuffered c c₁)
    (hdata : c.keepAlive = false → c₁.recvBuf.data = [] ∨ c₁.recvBuf = c.recvBuf) :
    PhaseInv draining c₁ ph := by
  obtain ⟨hpending, hstash, hkeep⟩ := held_eq_iff.mp h.held
  have hbusy : Busy draining c → Busy draining c₁ := fun hb => hb.congr h.held
  have hrelaying : Relaying draining c → Relaying draining c₁ := by
    intro hr
    refine ⟨hpending.trans hr.pending, fun hk => ?_⟩
    rw [hkeep] at hk
    rcases hr.keep hk with hd | ⟨hb, hd, hs⟩
    · exact .inl hd
    · refine .inr ⟨h.req ▸ hb, ?_, hstash.trans hs⟩
      rcases hdata hk with h' | h'
      · exact h'
      · rw [h', hd]
  cases ph with
  | reading => exact ⟨hpending.trans hinv.1, hstash.trans hinv.2⟩
  | answering => exact ⟨hpending.trans hinv.1, fun hk => hstash.trans (hinv.2 (hkeep ▸ hk))⟩
  | parked => exact ⟨hpending ▸ hinv.1, hstash.trans hinv.2.1, hkeep ▸ hinv.2.2⟩
  | awaitingResponse | sendingHead | sendingAll | readingResponse | sendingPart => exact hrelaying hinv
  | _ => exact hbusy hinv

/-- Bytes for which nobody waits: they are kept, or thrown away if the connection is not kept. -/
theorem keepInv_handleUnhandledRecv (hslots : c.slots = ph.slots) (hinv : PhaseInv l.draining c ph)
    (h : Rebuffered c c₁) (hzero : result = 0 → c₁.recvBuf = c.recvBuf) :
    KeepInv l.draining (c₁.handleUnhandledRecv l result) := by
  have hbuf : ∀ c₂ : Connection, Rebuffered c₁ c₂ →
      (c.keepAlive = false → c₂.recvBuf.data = [] ∨ c₂.recvBuf = c.recvBuf) →
      KeepInv l.draining c₂ := by
    intro c₂ h₂ hdata _
    refine ⟨ph, h₂.slots.trans (h.slots.trans hslots), hinv.rebuffer ?_ hdata⟩
    exact ⟨h₂.held.trans h.held, h₂.slots.trans h.slots, h₂.req.trans h.req⟩
  have hsame : c₁.keepAlive = c.keepAlive := congrArg Held.keepAlive h.held
  unfold handleUnhandledRecv
  dsimp only
  split
  · split_ifs with hkeep hsubmit hsubmit
    · exact hbuf _ ⟨rfl, rfl, rfl⟩ fun hk => absurd (hkeep.symm.trans (hsame.trans hk)) (by decide)
    · exact hbuf _ ⟨rfl, rfl, rfl⟩ fun hk => absurd (hkeep.symm.trans (hsame.trans hk)) (by decide)
    · exact hbuf _ ⟨rfl, rfl, rfl⟩ fun _ => .inl rfl
    · exact hbuf _ ⟨rfl, rfl, rfl⟩ fun _ => .inl rfl
  split
  · exact keepInv_closeConn _ _
  · exact hbuf _ ⟨rfl, rfl, rfl⟩ fun _ => .inr (hzero (by omega))

theorem keepInv_dispatch_recv (hslots : c.slots = ph.slots) (hinv : PhaseInv l.draining c ph)
    (h : Rebuffered c c₁) (hzero : result = 0 → c₁.recvBuf = c.recvBuf) :
    KeepInv l.draining (c₁.dispatch l .recv result) := by
  obtain ⟨hpending, hstash, hkeep⟩ := held_eq_iff.mp h.held
  have hphase := hinv.inPhase hslots
  by_cases hp : ph = .parked
  · subst hp
    apply keepInv_dispatch_parked
    · exact h.slots.trans hslots
    · exact ⟨hpending ▸ hinv.1, hstash.trans hinv.2.1, hkeep ▸ hinv.2.2⟩
  have hphase' : c₁.InPhase ph := ⟨h.slots.trans hphase.slots, hpending ▸ hphase.pending⟩
  rw [dispatch_of_phase hphase', if_pos hp, dispatchEvent, onRecv_of_phase hphase']
  have hunhandled := keepInv_handleUnhandledRecv hslots hinv h hzero
  cases ph with
  | reading => exact keepInv_onHeaderReceived (hpending.trans hinv.1) (hstash.trans hinv.2) result
  | jitBody => exact keepInv_onJitRequestBodyRecvd (hinv.congr h.held) result
  | readingBody => exact keepInv_onRequestBodyRecvd (hinv.congr h.held) result
  | parked => exact absurd rfl hp
  | _ => exact hunhandled

/-- Any completion but a receive. -/
theorem keepInv_dispatch (hopen : c.isOpen = true) (hkeep : KeepInv l.draining c)
    {type : IoEventType} (htype : type ≠ .recv) (result : Int) :
    KeepInv l.draining (c.dispatch l type result) := by
  obtain ⟨ph, hslots, hinv⟩ := hkeep hopen
  have hphase := hinv.inPhase hslots
  by_cases hp : ph = .parked
  · subst hp
    exact keepInv_dispatch_parked hslots hinv type result
  rw [dispatch_of_phase hphase, if_pos hp, dispatchEvent.eq_def, onSend_of_phase hphase,
    onUpstreamRecv_of_phase hphase, onUpstreamSend_of_phase hphase]
  have hstay : KeepInv l.draining
      (if result < 0 ∧ c.state ≠ .readingHeader then c.closeConn else c) := by
    split
    · exact keepInv_closeConn _ _
    · exact hkeep
  cases type with
  | recv => exact absurd rfl htype
  | timeout => exact hkeep
  | handlerTimer => exact hkeep
  | send =>
    cases ph with
    | answering => exact keepInv_onResponseSent hinv.1 hinv.2 result
    | sendingHead => exact keepInv_onResponseHeaderSent hinv result
    | sendingAll => exact keepInv_onProxyResponseSent hinv.pending result
    | sendingPart => exact keepInv_onResponseBodySent hinv result
    | _ => exact hkeep
  | upstreamRecv =>
    cases ph with
    | sendingRequest => exact keepInv_onEarlyUpstreamRecvdSendInflight hinv result (.inl hslots)
    | sendingBody => exact keepInv_onEarlyUpstreamRecvdSendInflight hinv result (.inr hslots)
    | readingBody => exact keepInv_onEarlyUpstreamRecvd hinv result hslots
    | awaitingResponse => exact keepInv_onUpstreamResponse hinv hslots result
    | readingResponse => exact keepInv_onResponseBodyRecvd hinv result
    | _ => exact hstay
  | upstreamSend | upstreamConnect =>
    cases ph with
    | connecting => exact keepInv_onUpstreamConnected hinv result
    | sendingRequest => exact keepInv_onUpstreamRequestSent hinv result
    | sendingBody => exact keepInv_onRequestBodySent hinv result
    | earlyResponse => exact keepInv_onBodySendWithEarlyResponse hinv
    | _ => exact hkeep

/-- A timer wakes the handler. -/
theorem keepInv_resume (hopen : c.isOpen = true) (hinv : KeepInv l.draining c) (h : Rebuffered c c₁)
    (hpending : c.pendingHandlerFn.isSome = true) (kind : YieldKind) (result : Int) :
    KeepInv l.draining (c₁.resumeJitHandler l kind result) := by
  obtain ⟨ph, hslots, hph⟩ := hinv hopen
  have hp := (hph.inPhase hslots).pending.mp hpending
  subst hp
  obtain ⟨hpending', hstash, hkeep⟩ := held_eq_iff.mp h.held
  exact keepInv_settled (settled_resumeJitHandler kind result (hpending' ▸ hpending))
    (hstash.trans hph.2.1) (hkeep ▸ hph.2.2)

/-- Every input keeps the invariant. -/
theorem keepInv_input (hopen : c.isOpen = true) (hinv : KeepInv l.draining c) (i : Input) :
    KeepInv l.draining (c.input l i) := by
  cases i with
  | recv bytes =>
    obtain ⟨ph, hslots, hph⟩ := hinv hopen
    exact keepInv_dispatch_recv hslots hph ⟨rfl, rfl, rfl⟩ (Buffer.deliver_zero _ _ _)
  | recvError =>
    obtain ⟨ph, hslots, hph⟩ := hinv hopen
    exact keepInv_dispatch_recv hslots hph ⟨rfl, rfl, rfl⟩ fun _ => rfl
  | upstreamRecv bytes =>
    obtain ⟨ph, hslots, hph⟩ := hinv hopen
    show KeepInv l.draining (dispatch l _ .upstreamRecv _)
    apply keepInv_dispatch
    · exact hopen
    · exact fun _ => ⟨ph, hslots, hph.rebuffer ⟨rfl, rfl, rfl⟩ fun _ => .inr rfl⟩
    · decide
  | send result => exact keepInv_dispatch hopen hinv (by decide) result
  | upstreamConnect result => exact keepInv_dispatch hopen hinv (by decide) result
  | upstreamSend result => exact keepInv_dispatch hopen hinv (by decide) result
  | upstreamRecvError => exact keepInv_dispatch hopen hinv (by decide) (-1)
  | handlerTimer =>
    show KeepInv l.draining (c.onHandlerTimer l)
    unfold onHandlerTimer
    split
    · next h =>
      apply keepInv_resume hopen hinv _ h.1
      exact ⟨rfl, rfl, rfl⟩
    · exact hinv
  | timeout =>
    show KeepInv l.draining (c.onTimeout l)
    unfold onTimeout
    split
    · next h =>
      apply keepInv_resume hopen hinv _ h.1
      exact ⟨rfl, rfl, rfl⟩
    · exact keepInv_closeConn _ _
  | forceClose => exact keepInv_closeConn _ _
  | drain => exact hinv
  | reload config => exact hinv

theorem KeepInv.drain (hinv : KeepInv draining c) : KeepInv true c := by
  intro hopen
  obtain ⟨ph, hslots, hph⟩ := hinv hopen
  refine ⟨ph, hslots, ?_⟩
  cases ph with
  | reading => exact hph
  | answering => exact hph
  | parked => exact ⟨hph.1, hph.2.1, fun _ => rfl⟩
  | awaitingResponse | sendingHead | sendingAll | readingResponse | sendingPart =>
    exact ⟨hph.pending, fun _ => .inl rfl⟩
  | _ => exact ⟨hph.pending, hph.stash, fun _ => rfl⟩

theorem keepInv_step {w : World} (hinv : KeepInv w.draining w.conn) (backend : Backend) (i : Input) :
    KeepInv (w.step backend i).draining (w.step backend i).conn := by
  have hconn : KeepInv w.draining (w.step backend i).conn := by
    by_cases hopen : w.conn.isOpen = true
    · have hstep : (w.step backend i).conn = w.conn.input (w.loop backend) i := if_pos hopen
      rw [hstep]
      exact keepInv_input (l := w.loop backend) hopen hinv i
    · have hstep : (w.step backend i).conn = w.conn := if_neg hopen
      rwa [hstep]
  cases i with
  | drain => exact hconn.drain
  | _ => exact hconn

/-- So it holds in every run. -/
theorem keepInv_of_reached {w : World} (h : w.Reached) : KeepInv w.draining w.conn := by
  apply h.invariant (P := fun w => KeepInv w.draining w.conn)
  · intro draining config _
    exact ⟨.reading, rfl, rfl, rfl⟩
  · intro w backend i hinv
    exact keepInv_step hinv backend i

/-- After any inputs an open connection is in exactly one phase: that one names its callbacks, and says
whether a handler sleeps and when bytes may be stashed. It says why keep-alive may be off in all
phases but `reading` and `answering`: the answer to a bad request, and the 502 for an upstream that
cannot be reached, turn it off too. -/
theorem existsUnique_phase (draining : Bool) (config : Option RouteConfig)
    (inputs : List (Backend × Input)) :
    let w := (World.accept draining config).run inputs
    w.conn.isOpen = false ∨ ∃! ph, w.conn.InPhase ph ∧ PhaseInv w.draining w.conn ph := by
  intro w
  cases hopen : w.conn.isOpen with
  | false => exact .inl rfl
  | true =>
    obtain ⟨ph, hslots, hinv⟩ := keepInv_of_reached ⟨draining, config, inputs, rfl⟩ hopen
    refine .inr ⟨ph, ⟨hinv.inPhase hslots, hinv⟩, fun ph' h => ?_⟩
    have hsame : ph'.slots = ph.slots := h.1.slots.symm.trans hslots
    cases ph <;> cases ph' <;> first | rfl | cases hsame

/-! ## The end of a response -/

/-- The input tells that the last byte of the response has been sent: by the completion of the send
that ends it, or by the end of an upstream connection that delimits it. -/
def Finishes (c : Connection) : Input → Prop
  | .send result =>
    match c.onSend with
    | some .onResponseSent => result = c.sendBuf.len
    | some .onProxyResponseSent => 0 ≤ result
    | some .onResponseBodySent => 0 < result ∧
        ((c.resp.bodyMode = .contentLength ∧ c.resp.bodyRemaining = 0) ∨
          (c.resp.bodyMode = .chunked ∧ c.resp.chunkParser.state = .complete))
    | _ => False
  | .upstreamRecv [] | .upstreamRecvError =>
    c.onUpstreamRecv = some .onResponseBodyRecvd ∧ c.resp.bodyMode = .untilClose
  | _ => False

instance (c : Connection) (i : Input) : Decidable (Finishes c i) := by
  unfold Finishes
  split
  · split <;> infer_instance
  all_goals infer_instance

/-- The step closes the connection, and nothing is read or dispatched in it. -/
def ClosesQuietly (c c' : Connection) : Prop :=
  c'.isOpen = false ∧ c'.log.filter Effect.reads = c.log.filter Effect.reads

theorem closesQuietly_closeConn (tail : List Effect) (hlog : c₁.log = c.log ++ tail)
    (hquiet : tail.filter Effect.reads = []) : ClosesQuietly c c₁.closeConn := by
  refine ⟨rfl, ?_⟩
  show (c₁.log ++ [Effect.closed c₁.requestActive]).filter Effect.reads = _
  rw [hlog, List.filter_append, List.filter_append, hquiet]
  simp [Effect.reads]

/-- A send that ends the response of a connection not kept alive. -/
theorem closesQuietly_send (hphase : c.InPhase ph) (hkeep : c.keepAlive = false)
    (hend : Finishes c (.send result)) (hproxy : ph = .sendingAll → l.draining = true) :
    ClosesQuietly c (c.dispatch l .send result) := by
  have hsend := onSend_of_phase hphase
  have hp : ph ≠ .parked := by
    rintro rfl
    rw [Finishes, hsend] at hend
    exact hend
  rw [Finishes, hsend] at hend
  rw [dispatch_of_phase hphase, if_pos hp, dispatchEvent, hsend]
  cases ph with
  | answering =>
    have hend : result = c.sendBuf.len := hend
    show ClosesQuietly c (c.onResponseSent l result)
    unfold onResponseSent
    dsimp only
    split
    · omega
    split
    · next hne => exact absurd hend hne
    split
    · exact closesQuietly_closeConn [_] rfl rfl
    · next hnot =>
      have hnot : ¬ (!c.keepAlive) = true := hnot
      rw [hkeep] at hnot
      exact absurd rfl hnot
  | sendingAll =>
    have hend : 0 ≤ result := hend
    show ClosesQuietly c (c.onProxyResponseSent l result)
    unfold onProxyResponseSent
    dsimp only
    rw [if_neg (by omega), if_pos (hproxy rfl)]
    exact closesQuietly_closeConn [_] rfl rfl
  | sendingPart =>
    obtain ⟨hpos, hdone⟩ := hend
    show ClosesQuietly c (c.onResponseBodySent l result)
    unfold onResponseBodySent
    dsimp only
    rw [if_neg (by omega)]
    split
    · split
      · exact closesQuietly_closeConn [_] rfl rfl
      · next hnot =>
        have hnot : ¬ (!c.keepAlive || l.draining) = true := hnot
        rw [hkeep] at hnot
        exact absurd rfl hnot
    · next hnot => exact absurd hdone hnot
  | _ => exact absurd hend id

/-- The end of a response that is delimited by the end of the upstream connection. -/
theorem closesQuietly_untilClose (hphase : c₁.InPhase ph) (hresult : result ≤ 0)
    (hslot : c₁.onUpstreamRecv = some .onResponseBodyRecvd) (hmode : c₁.resp.bodyMode = .untilClose)
    (tail : List Effect) (hlog : c₁.log = c.log ++ tail) (hquiet : tail.filter Effect.reads = []) :
    ClosesQuietly c (c₁.dispatch l .upstreamRecv result) := by
  have hp : ph ≠ .parked := by
    rintro rfl
    rw [onUpstreamRecv_of_phase hphase] at hslot
    cases hslot
  rw [dispatch_of_phase hphase, if_pos hp, dispatchEvent, hslot]
  show ClosesQuietly c (c₁.onResponseBodyRecvd result)
  rw [onResponseBodyRecvd, if_pos hresult, if_pos hmode]
  apply closesQuietly_closeConn (tail ++ [_])
  · show c₁.log ++ [_] = _
    rw [hlog, List.append_assoc]
  · rw [List.filter_append, hquiet]
    rfl

/-- The two callbacks that look at the flag, and the third in a drain. -/
theorem closesQuietly_input (hphase : c.InPhase ph) (hkeep : c.keepAlive = false) {i : Input}
    (hend : Finishes c i) (hproxy : ph = .sendingAll → l.draining = true) :
    ClosesQuietly c (c.input l i) := by
  cases i with
  | send result => exact closesQuietly_send hphase hkeep hend hproxy
  | upstreamRecvError =>
    exact closesQuietly_untilClose hphase (by decide) hend.1 hend.2 [] (List.append_nil _).symm rfl
  | upstreamRecv bytes =>
    cases bytes with
    | nil =>
      have hphase' : ∀ (b : Buffer) (e : Effect),
          ({ c with upstreamRecvBuf := b }.emit e).InPhase ph :=
        fun _ _ => ⟨hphase.slots, hphase.pending⟩
      apply closesQuietly_untilClose (hphase' _ _)
      · exact Buffer.deliver_nil_le _ _
      · exact hend.1
      · exact hend.2
      · rfl
      · rfl
    | cons b bytes => exact absurd hend id
  | _ => exact absurd hend id

theorem nextRequest_of_empty (hbuf : c.recvBuf.data = []) (hstash : c.pipelineStashLen = 0) :
    c.nextRequest l = c.awaitRequest := by
  have hlen : ¬ c.recvBuf.len > 0 := by simp [Buffer.len, hbuf]
  rw [nextRequest, if_neg (fun h => hlen h.2), pipelineRecover, if_pos hstash]
  exact if_neg hlen

/-- The flaw: nothing has been kept of the rest of the request, so the next one is awaited. -/
theorem isOpen_onProxyResponseSent (hdraining : l.draining = false) (hresult : 0 ≤ result)
    (hbuf : c.recvBuf.data = []) (hstash : c.pipelineStashLen = 0) :
    (c.onProxyResponseSent l result).isOpen = c.isOpen := by
  unfold onProxyResponseSent
  dsimp only
  rw [if_neg (by omega), if_neg (by simp [hdraining])]
  rw [nextRequest_of_empty]
  · rfl
  · exact hbuf
  · exact hstash

/-- In every state that a connection reaches, when the last byte of a response has been sent and
`keep_alive` is false: the connection is closed, and nothing more is read or dispatched on it, unless
`on_proxy_response_sent` ends a response that has cut off the body of its request, outside drain. -/
theorem closes_iff {w : World} (hw : w.Reached) (hopen : w.conn.isOpen = true) {i : Input}
    (hend : Finishes w.conn i) (hkeep : w.conn.keepAlive = false) (backend : Backend) :
    ((w.step backend i).conn.isOpen = false ∧ ∀ later : List (Backend × Input),
        ((w.step backend i).run later).conn.log.filter Effect.reads = w.conn.log.filter Effect.reads) ↔
      ¬ (w.draining = false ∧ w.conn.onSend = some .onProxyResponseSent ∧
        w.conn.req.bodyPending = true) := by
  obtain ⟨ph, hslots, hph⟩ := keepInv_of_reached hw hopen
  have hphase := hph.inPhase hslots
  have hsend := onSend_of_phase hphase
  have hstep : (w.step backend i).conn = w.conn.input (w.loop backend) i := if_pos hopen
  constructor
  · rintro ⟨hclosed, -⟩ ⟨hdraining, hproxy, -⟩
    have hp : ph = .sendingAll := by
      rw [hsend] at hproxy
      cases ph <;> first | rfl | cases hproxy
    subst hp
    have hopen' : (w.conn.input (w.loop backend) i).isOpen = w.conn.isOpen := by
      rcases hph.keep hkeep with hd | ⟨-, hbuf, hstash⟩
      · exact absurd (hd.symm.trans hdraining) (by decide)
      · cases i with
        | send result =>
          rw [Finishes, hproxy] at hend
          show (w.conn.dispatch (w.loop backend) .send result).isOpen = _
          rw [dispatch_of_phase hphase, if_pos (by decide), dispatchEvent, hproxy]
          exact isOpen_onProxyResponseSent hdraining hend hbuf hstash
        | upstreamRecv bytes =>
          rw [Finishes.eq_def] at hend
          cases bytes <;> simp [onUpstreamRecv_of_phase hphase, Phase.slots] at hend
        | upstreamRecvError => simp [Finishes, onUpstreamRecv_of_phase hphase, Phase.slots] at hend
        | _ => exact absurd hend id
    rw [hstep, hopen', hopen] at hclosed
    cases hclosed
  · intro hnot
    have hquiet : ClosesQuietly w.conn (w.step backend i).conn := by
      rw [hstep]
      apply closesQuietly_input hphase hkeep hend
      rintro rfl
      -- outside drain, only an early response has cleared the flag
      by_contra hdraining
      have hdraining : w.draining = false := (Bool.not_eq_true _).mp hdraining
      rcases hph.keep hkeep with hd | ⟨hbody, -⟩
      · exact absurd (hd.symm.trans hdraining) (by decide)
      · exact hnot ⟨hdraining, hsend, hbody⟩
    refine ⟨hquiet.1, fun later => ?_⟩
    rw [World.run_conn_of_closed hquiet.1, hquiet.2]

/-- A request whose body is still to come when the upstream sends `response`. -/
def cutOff (response : Str) : World :=
  (World.accept false proxyConfig).run
    [({}, .recv (ascii "POST /up HTTP/1.1\r\nContent-Length: 5\r\n\r\n")),
      ({}, .upstreamConnect 0), ({}, .upstreamSend 40), ({}, .upstreamRecv response)]

/-- The body of the response comes after its head: `on_response_body_sent` closes the connection. -/
theorem closes_bodySent :
    let w := (cutOff (ascii "HTTP/1.1 200 OK\r\nContent-Length: 2\r\n\r\n")).run
      [({}, .send 38), ({}, .upstreamRecv (ascii "ok"))]
    (w.step {} (.send 2)).conn.isOpen = false ∧ ∀ later : List (Backend × Input),
      ((w.step {} (.send 2)).run later).conn.log.filter Effect.reads =
        w.conn.log.filter Effect.reads := by
  refine (closes_iff ?_ ?_ ?_ ?_ {}).mpr ?_
  · exact ⟨false, proxyConfig, _, (World.run_append ..).symm⟩
  all_goals decide +kernel

/-- The response comes whole: the connection stays open, and the body of the request is dispatched as
the next one. -/
theorem not_closes :
    let w := cutOff (ascii "HTTP/1.1 200 OK\r\nContent-Length: 0\r\n\r\n")
    let w' := w.step {} (.send 38)
    w.Reached ∧ Finishes w.conn (.send 38) ∧ w.conn.keepAlive = false ∧ w'.conn.isOpen = true ∧
      .dispatched ⟨.Other, ascii "/", none, ascii "hello"⟩ ∈
        (w'.step {} (.recv (ascii "hello"))).conn.log := by
  refine ⟨⟨false, proxyConfig, _, rfl⟩, ?_⟩
  decide +kernel

end Connection
end Rut
