import Rut.Io.Registrations

/-!
# The entries of `wait`

`Handled` says what `wait` does with an entry the kernel has returned: the tables still agree, nothing
new is outstanding, and what is no longer outstanding has got its event. It holds of reading, of
sending, of one entry and of all of them.
-/

namespace Rut.Io.Epoll

open List Function EpollBackend Epoll.SendState

variable {o : Owner}

/-- What holds of an entry for a connection until it is handled: it comes from the registration of a
descriptor of that connection, and a connect in it is still to be reported. -/
structure Valid (o : Owner) (b : EpollBackend) (connecting : List (UInt32 × Int)) (ev : Event) :
    Prop where
  ordinary : ¬ Special ev.connId
  owned : o.of ev.ready.fd = (ev.connId, upstreamKind ev.type)
  type : ev.type ∈ [EventType.recv, .send, .upstreamRecv, .upstreamConnect]
  connect : ev.type = .upstreamConnect → ev.hasWrite ∧ (ev.connId, ev.ready.fd) ∈ connecting
  sending : 0 < (b.sendState ev.connId.toNat).remaining →
    (b.sendState ev.connId.toNat).fd = ev.ready.fd →
      ev.type = (b.sendState ev.connId.toNat).registeredAs
  quiet : ev.type = .upstreamRecv → ev.hasWrite → ∀ p ∈ connecting, p.1 ≠ ev.connId

/-- What handling an entry does: nothing new is outstanding, and what is no longer outstanding has
its event. -/
structure Handled (o : Owner) (connecting connecting' : List (UInt32 × Int)) (b b' : EpollBackend)
    (conns' : Nat → Conn) (events : List IoEvent) : Prop where
  sound : Sound o b' conns' connecting'
  shrinks : ∀ connId : UInt32, 0 < (b'.sendState connId.toNat).remaining →
    0 < (b.sendState connId.toNat).remaining ∧
      (b'.sendState connId.toNat).fd = (b.sendState connId.toNat).fd ∧
      (b'.sendState connId.toNat).type = (b.sendState connId.toNat).type
  pending : b'.pending = b.pending
  balance : ∀ connId, ∀ kind ∈ kinds, tally connId kind events +
    outstanding b' connecting' connId kind = outstanding b connecting connId kind

theorem tally_append (connId : UInt32) (kind : EventType) (es es' : List IoEvent) :
    tally connId kind (es ++ es') = tally connId kind es + tally connId kind es' :=
  countP_append

variable {es : List IoEvent}

theorem tally_eq_zero {kind : EventType} (h : ∀ e ∈ es, e.type ≠ kind)
    (connId : UInt32) : tally connId kind es = 0 := by
  rw [tally, countP_eq_zero]
  intro e he
  simp [h e he]

theorem Handled.trans {c₀ c₁ c₂ : List (UInt32 × Int)} {b₀ b₁ b₂ : EpollBackend}
    {conns₁ conns₂ : Nat → Conn} {es₁ es₂ : List IoEvent} (h₁ : Handled o c₀ c₁ b₀ b₁ conns₁ es₁)
    (h₂ : Handled o c₁ c₂ b₁ b₂ conns₂ es₂) : Handled o c₀ c₂ b₀ b₂ conns₂ (es₁ ++ es₂) where
  sound := h₂.sound
  shrinks connId hrem := by
    obtain ⟨hrem₁, hfd₂, htype₂⟩ := h₂.shrinks connId hrem
    obtain ⟨hrem₀, hfd₁, htype₁⟩ := h₁.shrinks connId hrem₁
    exact ⟨hrem₀, hfd₂.trans hfd₁, htype₂.trans htype₁⟩
  pending := h₂.pending.trans h₁.pending
  balance connId kind hkind := by
    have := h₁.balance connId kind hkind
    have := h₂.balance connId kind hkind
    rw [tally_append]
    omega

/-! ## Reading -/

variable {b : EpollBackend} {conns : Nat → Conn} {connecting : List (UInt32 × Int)} {ev : Event}

theorem Sound.client_not_connecting (h : Sound o b conns connecting) {connId : UInt32} {fd : Int}
    (howner : o.of fd = (connId, false)) : (connId, fd) ∉ connecting := by
  intro hmem
  have hup := (h.unfinished _ hmem).2.1
  rw [howner] at hup
  cases hup

/-- A registration of the client's descriptor that an outstanding TLS send can live with. -/
theorem Sound.setClient (h : Sound o b conns connecting) {connId : UInt32} {fd : Int}
    {type : EventType} {mask : Mask} (howner : o.of fd = (connId, false))
    (htype : type = .recv ∨ type = .send) (hsend : type = .send → ¬ Special connId)
    (hkeep : 0 < (b.sendState connId.toNat).remaining → (b.sendState connId.toNat).fd = fd →
      type = (b.sendState connId.toNat).registeredAs ∧ mask = (b.sendState connId.toNat).mask) :
    Sound o (b.setFdInterest fd connId type mask) conns connecting := by
  have hkind : upstreamKind type = false := by rcases htype with rfl | rfl <;> rfl
  refine h.update connId fd (b.sendState connId.toNat) ?_ rfl rfl rfl (hkind ▸ howner) ?_ hsend ?_ ?_
    ?_ ?_ h.idle
  · rw [Function.update_eq_self]
    rfl
  · rcases htype with rfl | rfl <;> simp
  · exact h.client_not_connecting howner
  · rintro rfl
    simp at htype
  · intro hrem _
    exact ⟨hrem, rfl⟩
  · intro hrem
    have harmed := h.armed connId hrem
    by_cases hfd : (b.sendState connId.toNat).fd = fd
    · obtain ⟨rfl, rfl⟩ := hkeep hrem hfd
      refine { harmed with registered := ?_ }
      show Function.update b.interest fd _ _ = _
      rw [hfd, Function.update_self]
    · apply harmed.congr
      exact Function.update_of_ne hfd _ _

/-- What reading does: it leaves the sends and the queue alone. -/
structure ReadOnly (o : Owner) (connecting : List (UInt32 × Int)) (b b' : EpollBackend)
    (conns' : Nat → Conn) : Prop where
  sound : Sound o b' conns' connecting
  sendState : b'.sendState = b.sendState
  pending : b'.pending = b.pending

section Reading

variable {b : EpollBackend} {conns : Nat → Conn} {connecting : List (UInt32 × Int)} {connId : UInt32}
  {fd : Int} {type : EventType}

theorem sound_afterRead (h : Sound o b conns connecting) (howner : o.of fd = (connId, false))
    (htype : type = .recv ∨ type = .send) (hlt : connId.toNat < kMaxFdMap)
    (htls : (conns connId.toNat).tlsActive ∧ (conns connId.toNat).tls)
    (hsending : 0 < (b.sendState connId.toNat).remaining → (b.sendState connId.toNat).fd = fd →
      type = (b.sendState connId.toNat).registeredAs) (mask : Mask) :
    Sound o (b.afterRead fd connId type mask) conns connecting := by
  -- An outstanding send on this descriptor is one over TLS.
  have hss : 0 < (b.sendState connId.toNat).remaining → (b.sendState connId.toNat).fd = fd →
      type = .send ∧ (b.sendState connId.toNat).tls := by
    intro hrem hfd
    have hregistered := hsending hrem hfd
    have hkind : (b.sendState connId.toNat).type = .send := by
      rcases (h.armed connId hrem).kind with hkind | hkind
      · exact hkind
      · rw [hregistered, SendState.registeredAs, if_pos hkind] at htype
        simp at htype
    refine ⟨by rw [hregistered, SendState.registeredAs, hkind]; rfl, ?_⟩
    by_contra hplain
    exact ((h.armed connId hrem).plain hplain).2 hkind htls
  unfold afterRead
  split
  · apply h.setClient howner htype (fun _ => not_special hlt)
    intro hrem hfd
    refine ⟨hsending hrem hfd, ?_⟩
    rw [SendState.mask, if_pos (hss hrem hfd).2]
  · next hnot =>
    apply h.setClient howner htype (fun _ => not_special hlt)
    intro hrem hfd
    exact absurd ⟨(hss hrem hfd).1, hlt, hrem⟩ hnot

theorem sendState_afterRead (b : EpollBackend) (fd : Int) (connId : UInt32) (type : EventType)
    (mask : Mask) : (b.afterRead fd connId type mask).sendState = b.sendState ∧
      (b.afterRead fd connId type mask).pending = b.pending := by
  unfold afterRead
  split <;> exact ⟨rfl, rfl⟩

theorem readOnly_recvTls (h : Sound o b conns connecting) (howner : o.of fd = (connId, false))
    (htype : type = .recv ∨ type = .send) (hlt : connId.toNat < kMaxFdMap) (conn : Conn)
    (hactive : conn.tlsActive = (conns connId.toNat).tlsActive)
    (hobject : conn.tls = (conns connId.toNat).tls)
    (hshake : (conns connId.toNat).tlsHandshakeComplete → conn.tlsHandshakeComplete)
    (htls : (conns connId.toNat).tlsActive ∧ (conns connId.toNat).tls)
    (hsending : 0 < (b.sendState connId.toNat).remaining → (b.sendState connId.toNat).fd = fd →
      type = (b.sendState connId.toNat).registeredAs) (r : Ready) :
    ReadOnly o connecting b (b.recvTls conn fd connId type r).1
      (update conns connId.toNat (b.recvTls conn fd connId type r).2.1) := by
  unfold recvTls
  split
  · exact ⟨h.conn hactive hobject hshake, rfl, rfl⟩
  · cases r.received with
    | bytes data =>
      obtain ⟨hss, hpending⟩ := sendState_afterRead b fd connId type .epollin
      refine ⟨?_, hss, hpending⟩
      exact (sound_afterRead h howner htype hlt htls hsending _).conn hactive hobject hshake
    | want w =>
      obtain ⟨hss, hpending⟩ := sendState_afterRead b fd connId type w.interest
      refine ⟨?_, hss, hpending⟩
      exact (sound_afterRead h howner htype hlt htls hsending _).conn hactive hobject hshake
    | error result => exact ⟨h.conn hactive hobject hshake, rfl, rfl⟩

theorem readOnly_acceptTls (h : Sound o b conns connecting) (howner : o.of fd = (connId, false))
    (htype : type = .recv ∨ type = .send) (hlt : connId.toNat < kMaxFdMap)
    (hactive : (conns connId.toNat).tlsActive)
    (hsending : 0 < (b.sendState connId.toNat).remaining → (b.sendState connId.toNat).fd = fd →
      type = (b.sendState connId.toNat).registeredAs) (r : Ready) :
    ReadOnly o connecting b (b.acceptTls (conns connId.toNat) fd connId type r).1
      (update conns connId.toNat
        (b.acceptTls (conns connId.toNat) fd connId type r).2.1) := by
  unfold acceptTls
  split
  · exact ⟨h.conn rfl rfl id, rfl, rfl⟩
  next hobject =>
  have hobject : (conns connId.toNat).tls := by simpa using hobject
  split
  · exact readOnly_recvTls h howner htype hlt _ rfl rfl id ⟨hactive, hobject⟩ hsending r
  next hshake =>
  -- No TLS send is outstanding while the handshake is.
  have hset : ∀ mask, Sound o (b.setFdInterest fd connId type mask) conns connecting := by
    intro mask
    apply h.setClient howner htype (fun _ => not_special hlt)
    intro hrem hfd
    have harmed := h.armed connId hrem
    have hkind : (b.sendState connId.toNat).type = .send := by
      rcases harmed.kind with hkind | hkind
      · exact hkind
      · rw [hsending hrem hfd, registeredAs, if_pos hkind] at htype
        simp at htype
    by_cases hss : (b.sendState connId.toNat).tls
    · exact absurd (harmed.withTls hss).2.2.2.2 hshake
    · exact absurd ⟨hactive, hobject⟩ ((harmed.plain hss).2 hkind)
  cases r.handshake with
  | complete =>
    have hread := readOnly_recvTls (hset .epollin) howner htype hlt
      { conns connId.toNat with tlsHandshakeComplete := true } rfl rfl (fun _ => rfl) ⟨hactive, hobject⟩ hsending r
    exact ⟨hread.sound, hread.sendState, hread.pending⟩
  | want w => exact ⟨(hset _).conn rfl rfl id, rfl, rfl⟩
  | error result => exact ⟨h.conn rfl rfl id, rfl, rfl⟩

/-- The label `handle_epollin`, for an entry that is not a connect. -/
theorem readOnly_handleEpollin (h : Sound o b conns connecting) {ev : Event}
    (hv : Valid o b connecting ev) (maxConns : Nat) :
    ReadOnly o connecting b (b.handleEpollin maxConns conns ev.connId ev.type ev.ready).1
      (update conns ev.connId.toNat
        (b.handleEpollin maxConns conns ev.connId ev.type ev.ready).2.1) := by
  unfold handleEpollin
  dsimp only
  split
  · exact ⟨h.conn rfl rfl id, rfl, rfl⟩
  next hfd =>
  split
  · next htls =>
    obtain ⟨hactive, hrecv⟩ := htls
    have htype : ev.type = .recv ∨ ev.type = .send := by
      unfold recvType at hrecv
      split at hrecv
      · next heq => exact .inr heq
      · exact .inl hrecv
    rw [not_or, Int.not_lt] at hfd
    have hlt : ev.connId.toNat < kMaxFdMap := by
      by_contra hge
      rw [recvFd, if_neg hge] at hfd
      omega
    have hrecvFd : b.recvFd ev.connId ev.type = b.downstreamFdMap ev.connId.toNat := by
      rw [recvFd, if_pos hlt, hrecv]
      rfl
    rw [hrecvFd] at hfd ⊢
    have howner := h.downstream ev.connId hfd.1
    -- The entry comes from the one descriptor towards the client.
    have hclient : b.downstreamFdMap ev.connId.toNat = ev.ready.fd := by
      have hkind : upstreamKind ev.type = false := by rcases htype with heq | heq <;> rw [heq] <;> rfl
      apply o.client_unique
      · rw [howner, hv.owned, hkind]
      · rw [howner]
    exact readOnly_acceptTls h howner htype hlt hactive
      (fun hrem hfd => hv.sending hrem (hfd.trans hclient)) ev.ready
  split
  · exact ⟨h.conn rfl rfl id, rfl, rfl⟩
  · exact ⟨h.conn rfl rfl id, rfl, rfl⟩

end Reading

/-! ## Sending -/

/-- What a resumed send keeps of its state; not finished, it has something left. -/
structure Resumed (ss ss' : SendState) (result : Option Int) : Prop where
  src : ss'.src = ss.src
  fd : ss'.fd = ss.fd
  type : ss'.type = ss.type
  tls : ss'.tls = ss.tls
  remaining : result = none → 0 < ss'.remaining
  tlsWaitEvents : result = none → if ss.tls then ss'.tlsWaitEvents ≠ none
    else ss'.tlsWaitEvents = ss.tlsWaitEvents

theorem resumed_sendLoop (answers : List Sent) (ss : SendState) (hplain : ¬ ss.tls) :
    Resumed ss (sendLoop answers ss).1 (sendLoop answers ss).2 := by
  induction answers generalizing ss with
  | nil =>
    unfold sendLoop
    split
    · exact ⟨rfl, rfl, rfl, rfl, by simp, by simp⟩
    · exact ⟨rfl, rfl, rfl, rfl, fun _ => by dsimp only; omega, fun _ => by rw [if_neg hplain]⟩
  | cons answer answers ih =>
    unfold sendLoop
    split
    · exact ⟨rfl, rfl, rfl, rfl, by simp, by simp⟩
    · cases answer with
      | again => exact ⟨rfl, rfl, rfl, rfl, fun _ => by dsimp only; omega, fun _ => by rw [if_neg hplain]⟩
      | error errno => exact ⟨rfl, rfl, rfl, rfl, by simp, by simp⟩
      | count n =>
        dsimp only
        split
        · exact ⟨rfl, rfl, rfl, rfl, by simp, by simp⟩
        · have hrest := ih { ss with offset := ss.offset + min n ss.remaining
                                     remaining := ss.remaining - n } hplain
          exact ⟨hrest.src, hrest.fd, hrest.type, hrest.tls, hrest.remaining, hrest.tlsWaitEvents⟩

theorem resumed_writeLoop (answers : List Written) (ss : SendState) (htls : ss.tls) :
    Resumed ss (writeLoop answers ss).1 (writeLoop answers ss).2 := by
  induction answers generalizing ss with
  | nil =>
    unfold writeLoop
    split
    · exact ⟨rfl, rfl, rfl, rfl, by simp, by simp⟩
    · exact ⟨rfl, rfl, rfl, rfl, fun _ => by dsimp only; omega, by simp [htls]⟩
  | cons answer answers ih =>
    unfold writeLoop
    split
    · exact ⟨rfl, rfl, rfl, rfl, by simp, by simp⟩
    · cases answer with
      | want w => exact ⟨rfl, rfl, rfl, rfl, fun _ => by dsimp only; omega, by simp [htls]⟩
      | error result => exact ⟨rfl, rfl, rfl, rfl, by simp, by simp⟩
      | count n =>
        have hrest := ih { ss with offset := ss.offset + min (n + 1) ss.remaining
                                   remaining := ss.remaining - (n + 1) } htls
        exact ⟨hrest.src, hrest.fd, hrest.type, hrest.tls, hrest.remaining, hrest.tlsWaitEvents⟩

/-- A send goes on where it was. -/
theorem resumed_resume (ss : SendState) (conn : Conn) (r : Ready) :
    Resumed ss (resume ss conn r).1 (resume ss conn r).2 := by
  unfold resume
  split
  · next htls =>
    split
    · exact resumed_writeLoop r.written ss htls
    · exact ⟨rfl, rfl, rfl, rfl, by simp, by simp⟩
  · next hplain => exact resumed_sendLoop r.sent ss hplain

variable {conns' : Nat → Conn}

section Sending

variable {b : EpollBackend} {conns : Nat → Conn} {connecting : List (UInt32 × Int)}

variable {b' : EpollBackend} {connId : UInt32} {ss : SendState}

theorem outstanding_congr {b : EpollBackend} (h : b'.sendState = b.sendState)
    (connecting : List (UInt32 × Int)) (connId : UInt32) (kind : EventType) :
    outstanding b' connecting connId kind = outstanding b connecting connId kind := by
  unfold outstanding
  rw [h]

/-- Nothing is sent and nothing reported. -/
theorem ReadOnly.handled (h : ReadOnly o connecting b b' conns') :
    Handled o connecting connecting b b' conns' [] where
  sound := h.sound
  shrinks connId hrem := by
    rw [h.sendState] at hrem ⊢
    exact ⟨hrem, rfl, rfl⟩
  pending := h.pending
  balance connId kind _ := by
    rw [outstanding_congr h.sendState]
    simp [tally]

theorem ReadOnly.report
    (h : ReadOnly o connecting b b' conns') (hes : ∀ e ∈ es, e.type ∉ kinds) :
    Handled o connecting connecting b b' conns' es :=
  { h.handled with
    balance := by
      intro connId kind hkind
      have hzero : tally connId kind es = 0 := by
        apply tally_eq_zero
        intro e he heq
        exact hes e he (heq ▸ hkind)
      rw [hzero, outstanding_congr h.sendState, Nat.zero_add] }

/-- A connected upstream is registered for input, with nothing outstanding there. -/
theorem Sound.setUpstream (h : Sound o b conns connecting) {fd : Int}
    (howner : o.of fd = (connId, true)) (hfree : (connId, fd) ∉ connecting)
    (hidle : 0 < (b.sendState connId.toNat).remaining → (b.sendState connId.toNat).fd ≠ fd) :
    Sound o (b.setFdInterest fd connId .upstreamRecv .epollin) conns connecting := by
  refine h.update connId fd (b.sendState connId.toNat) ?_ rfl rfl rfl howner (by simp) (by simp)
    hfree ?_ ?_ ?_ h.idle
  · rw [update_eq_self]
    rfl
  · intro _ hout
    cases hout
  · intro hrem _
    exact ⟨hrem, rfl⟩
  · intro hrem
    apply (h.armed connId hrem).congr
    exact update_of_ne (hidle hrem) _ _

theorem readOnly_rearm (h : Sound o b conns connecting) {ev : Event} (hv : Valid o b connecting ev)
    (hwrite : ev.type = .upstreamRecv → ev.hasWrite)
    (hrem : (b.sendState ev.connId.toNat).remaining = 0) :
    ReadOnly o connecting b (b.rearmRecvInterest ev.connId ev.type) conns := by
  unfold rearmRecvInterest
  split
  · exact ⟨h, rfl, rfl⟩
  split
  · next htype =>
    have hup : ev.type = .upstreamRecv := by
      have := hv.type
      rcases htype with htype | htype
      · exact htype
      · rw [htype] at this
        simp at this
    dsimp only
    split
    · next hfd =>
      refine ⟨h.setUpstream (h.upstream ev.connId hfd) ?_ (by omega), rfl, rfl⟩
      intro hmem
      exact hv.quiet hup (hwrite hup) _ hmem rfl
    · exact ⟨h, rfl, rfl⟩
  · dsimp only
    split
    · next hfd =>
      exact ⟨h.setClient (h.downstream ev.connId hfd) (.inl rfl) (by simp) (by omega), rfl, rfl⟩
    · exact ⟨h, rfl, rfl⟩

theorem setSendState_eq (b : EpollBackend) (h : connId.toNat < kMaxFdMap) (ss : SendState) :
    (b.setSendState connId ss).sendState = update b.sendState connId.toNat ss := if_pos h

theorem sendState_of_ne {b : EpollBackend} {c : UInt32}
    (hss : b'.sendState = update b.sendState connId.toNat ss) (hc : c ≠ connId) :
    b'.sendState c.toNat = b.sendState c.toNat := by
  rw [hss, update_of_ne (fun heq => hc (UInt32.toNat_inj.mp heq))]

/-- A send that goes on. -/
theorem handled_retry (hsound : Sound o b' conns connecting)
    (hss : b'.sendState = update b.sendState connId.toNat ss)
    (hpending : b'.pending = b.pending) (hold : 0 < (b.sendState connId.toNat).remaining)
    (hresumed : Resumed (b.sendState connId.toNat) ss none) :
    Handled o connecting connecting b b' conns [] where
  sound := hsound
  shrinks c hrem := by
    by_cases hc : c = connId
    · subst hc
      rw [hss, update_self]
      exact ⟨hold, hresumed.fd, hresumed.type⟩
    · rw [sendState_of_ne hss hc] at hrem ⊢
      exact ⟨hrem, rfl, rfl⟩
  pending := hpending
  balance c kind _ := by
    have hnil : tally c kind [] = 0 := rfl
    rw [hnil, Nat.zero_add]
    unfold outstanding
    by_cases hc : c = connId
    · subst hc
      rw [hss, update_self, hresumed.type]
      simp only [hresumed.remaining rfl, hold]
    · rw [sendState_of_ne hss hc]

/-- A send that ends with its event. -/
theorem handled_finish {e : IoEvent} (hsound : Sound o b' conns connecting)
    (hss : b'.sendState = update b.sendState connId.toNat {})
    (hpending : b'.pending = b.pending)
    (harmed : Armed o b (conns connId.toNat) connId (b.sendState connId.toNat))
    (hold : 0 < (b.sendState connId.toNat).remaining) (hconn : e.connId = connId)
    (htype : e.type = (b.sendState connId.toNat).type) :
    Handled o connecting connecting b b' conns [e] where
  sound := hsound
  shrinks c hrem := by
    by_cases hc : c = connId
    · subst hc
      rw [hss, update_self] at hrem
      cases hrem
    · rw [sendState_of_ne hss hc] at hrem ⊢
      exact ⟨hrem, rfl, rfl⟩
  pending := hpending
  balance c kind hkind := by
    have htally : tally c kind [e] =
        if connId = c ∧ (b.sendState connId.toNat).type = kind then 1 else 0 := by
      simp [tally, countP_cons, hconn, htype]
    have hnot : (b.sendState connId.toNat).type ≠ .upstreamConnect := by
      rcases harmed.kind with heq | heq <;> rw [heq] <;> decide
    rw [htally]
    unfold outstanding
    by_cases hc : c = connId
    · subst hc
      rw [hss, update_self]
      by_cases hconnect : kind = .upstreamConnect
      · simp [hconnect, hnot]
      · by_cases heq : (b.sendState c.toNat).type = kind <;> simp [hconnect, heq, hold]
    · rw [sendState_of_ne hss hc, if_neg (fun h => hc h.1.symm), Nat.zero_add]

theorem registeredAs_mem (ss : SendState) :
    ss.registeredAs ∈ [EventType.recv, .send, .upstreamRecv] := by
  unfold registeredAs
  split <;> simp

/-- The kind a descriptor is registered with is on the side of the kind of the send. -/
theorem upstreamKind_registeredAs (h : ss.type = .send ∨ ss.type = .upstreamSend) :
    upstreamKind ss.registeredAs = upstreamKind ss.type := by
  unfold registeredAs
  rcases h with h | h <;> rw [h] <;> rfl

/-- A send that goes on, registered for what it waits for now. -/
theorem Sound.retry (h : Sound o b conns connecting)
    (hold : 0 < (b.sendState connId.toNat).remaining)
    (hresumed : Resumed (b.sendState connId.toNat) ss none)
    (hss : b'.sendState = Function.update b.sendState connId.toNat ss)
    (hint : b'.interest = Function.update b.interest ss.fd (some ⟨connId, ss.registeredAs, ss.mask⟩))
    (hdown : b'.downstreamFdMap = b.downstreamFdMap) (hup : b'.upstreamFdMap = b.upstreamFdMap) :
    Sound o b' conns connecting := by
  have harmed := h.armed connId hold
  have hkind : ss.type = .send ∨ ss.type = .upstreamSend := hresumed.type ▸ harmed.kind
  have howner : o.of ss.fd = (connId, upstreamKind ss.type) := by
    rw [hresumed.fd, hresumed.type]
    exact harmed.owned
  have hrem := hresumed.remaining rfl
  refine h.update connId ss.fd ss hss hint hdown hup ?_ (registeredAs_mem ss)
    (fun _ => not_special harmed.lt) ?_ ?_ ?_ ?_ ?_
  · rw [upstreamKind_registeredAs hkind]
    exact howner
  · intro hmem
    exact h.idle hold _ hmem rfl
  · intro _ _
    exact ⟨hrem, rfl⟩
  · intro _ _
    exact ⟨hrem, hresumed.fd⟩
  · intro _
    have hwait := hresumed.tlsWaitEvents rfl
    refine ⟨harmed.lt, hresumed.src ▸ harmed.src, hresumed.fd ▸ harmed.fd, hkind, howner, ?_, ?_, ?_⟩
    · rw [hint, Function.update_self]
    · intro htls
      rw [hresumed.tls] at htls
      rw [if_pos htls] at hwait
      obtain ⟨htype, -, hconn⟩ := harmed.withTls htls
      exact ⟨hresumed.type.trans htype, hwait, hconn⟩
    · intro hplain
      rw [hresumed.tls] at hplain
      rw [if_neg hplain] at hwait
      rw [hwait, hresumed.type]
      exact harmed.plain hplain
  · intro _
    exact h.idle hold

/-- A send that has ended, with its descriptor registered for input. -/
theorem Sound.finish (h : Sound o b conns connecting) {fd : Int} {type : EventType}
    (hold : 0 < (b.sendState connId.toNat).remaining) (hfd : fd = (b.sendState connId.toNat).fd)
    (htype : type = if (b.sendState connId.toNat).type = .upstreamSend then .upstreamRecv else .recv)
    (hss : b'.sendState = Function.update b.sendState connId.toNat {})
    (hint : b'.interest = Function.update b.interest fd (some ⟨connId, type, .epollin⟩))
    (hdown : b'.downstreamFdMap = b.downstreamFdMap) (hup : b'.upstreamFdMap = b.upstreamFdMap) :
    Sound o b' conns connecting := by
  have harmed := h.armed connId hold
  have hnone : ¬ 0 < ({} : SendState).remaining := by decide
  refine h.update connId fd {} hss hint hdown hup ?_ ?_ (fun _ => not_special harmed.lt) ?_ ?_ ?_
    (absurd · hnone) (absurd · hnone)
  · rw [hfd, harmed.owned, htype]
    rcases harmed.kind with heq | heq <;> rw [heq] <;> rfl
  · rw [htype]
    split <;> simp
  · intro hmem
    exact h.idle hold _ hmem rfl
  · intro _ hout
    cases hout
  · intro _ hne
    exact absurd hfd.symm hne

/-- The label `handle_epollout`, for an entry that is not a connect. -/
theorem handled_handleEpollout (h : Sound o b conns connecting) {ev : Event}
    (hv : Valid o b connecting ev) (hwrite : ev.type = .upstreamRecv → ev.hasWrite)
    (maxConns : Nat) :
    Handled o connecting connecting b (b.handleEpollout maxConns conns ev.connId ev.type ev.ready).1 conns
      (b.handleEpollout maxConns conns ev.connId ev.type ev.ready).2.toList := by
  have hnothing : Handled o connecting connecting b b conns [] := (ReadOnly.mk h rfl rfl).handled
  unfold handleEpollout
  split
  · exact hnothing
  next hlt =>
  dsimp only
  split
  · exact hnothing
  split
  · next hstale =>
    apply ReadOnly.handled
    apply readOnly_rearm h hv hwrite
    by_contra hrem
    have harmed := h.armed ev.connId (Nat.pos_of_ne_zero hrem)
    rcases hstale with hzero | hnull | hneg
    · exact hrem hzero
    · exact harmed.src hnull
    · exact absurd harmed.fd (Int.not_le.mpr hneg)
  next hlive =>
  simp only [not_or] at hlive
  have hrem := Nat.pos_of_ne_zero hlive.1
  have harmed := h.armed ev.connId hrem
  have hresumed := resumed_resume (b.sendState ev.connId.toNat) (conns ev.connId.toNat) ev.ready
  generalize resume (b.sendState ev.connId.toNat) (conns ev.connId.toNat) ev.ready = r
    at hresumed ⊢
  obtain ⟨ss, _ | result⟩ := r
  · dsimp only at hresumed ⊢
    have hset := setSendState_eq b harmed.lt ss
    cases htls : ss.tls with
    | false =>
      -- Without TLS it is registered for both all the time.
      have hplain : (b.sendState ev.connId.toNat).tls = false := by rw [← hresumed.tls, htls]
      have hmask : ss.mask = (b.sendState ev.connId.toNat).mask := by
        rw [mask, mask, htls, hplain]
        rfl
      have hkind : ss.registeredAs = (b.sendState ev.connId.toNat).registeredAs := by
        rw [registeredAs, registeredAs, hresumed.type]
      refine handled_retry (h.retry hrem hresumed hset ?_ rfl rfl) hset rfl hrem hresumed
      rw [hmask, hkind, hresumed.fd, ← harmed.registered, Function.update_eq_self]
      rfl
    | true =>
      have htls' : (b.sendState ev.connId.toNat).tls := by rw [← hresumed.tls, htls]
      have hwait := hresumed.tlsWaitEvents rfl
      rw [if_pos htls'] at hwait
      obtain ⟨w, hw⟩ := Option.ne_none_iff_exists'.mp hwait
      have htype : ss.type = .send := hresumed.type.trans (harmed.withTls htls').1
      have hmask : ss.mask = w.sendInterest := by
        rw [mask, htls, if_pos rfl, sendInterestForState, hw]
      rw [hw]
      refine handled_retry ?_ hset rfl hrem hresumed
      refine h.retry hrem hresumed hset ?_ rfl rfl
      rw [hmask, registeredAs, htype]
      rfl
  · have hset := setSendState_eq b harmed.lt {}
    refine handled_finish ?_ hset rfl harmed hrem rfl hresumed.type
    refine h.finish hrem hresumed.fd ?_ hset rfl rfl rfl
    rw [hresumed.type]

end Sending

/-! ## One entry -/

/-- What holds of an entry until it is handled. -/
structure Event.Ok (o : Owner) (b : EpollBackend) (connecting : List (UInt32 × Int)) (ev : Event) :
    Prop where
  free : ev.type ≠ .upstreamConnect → ∀ p ∈ connecting, p.2 ≠ ev.ready.fd
  valid : Special ev.connId ∧ ev.type ∉ kinds ∨ Valid o b connecting ev

theorem unreported_of_free (h : ∀ p ∈ connecting, p.2 ≠ ev.ready.fd) :
    unreported connecting [ev] = connecting := by
  rw [unreported, filter_eq_self]
  intro p hp
  simp [(h p hp).symm]

section Handling

variable {l : Loop} {connecting : List (UInt32 × Int)} {ev : Event}

theorem handled_epollin (h : Sound o l.backend l.conns connecting)
    (hv : Valid o l.backend connecting ev) (hne : ev.type ≠ .upstreamConnect)
    (maxEvents maxConns : Nat) :
    ∃ es, (l.epollin maxEvents maxConns ev).out = l.out ++ es ∧
      Handled o connecting connecting l.backend (l.epollin maxEvents maxConns ev).backend
        (l.epollin maxEvents maxConns ev).conns es := by
  have hread := readOnly_handleEpollin h hv maxConns
  have hrecv : recvType ev.type ∉ kinds := by
    have htype := hv.type
    simp only [mem_cons, not_mem_nil, or_false] at htype
    rcases htype with heq | heq | heq | heq
    · rw [heq]; decide
    · rw [heq]; decide
    · rw [heq]; decide
    · exact absurd heq hne
  have hreported : ∀ result, ∀ e ∈
      [(⟨ev.connId, recvType ev.type, result, false, none⟩ : IoEvent)], e.type ∉ kinds := by
    intro result e he
    cases mem_singleton.mp he
    exact hrecv
  unfold Loop.epollin
  generalize l.backend.handleEpollin maxConns l.conns ev.connId ev.type ev.ready = outcome
    at hread ⊢
  obtain ⟨b', conn', read⟩ := outcome
  cases read with
  | nothing => exact ⟨[], by simp, hread.handled⟩
  | last result => exact ⟨_, rfl, hread.report (hreported result)⟩
  | event result =>
    dsimp only
    split
    · next hwrite =>
      have hv' : Valid o b' connecting ev := { hv with sending := hread.sendState ▸ hv.sending }
      have hsend := handled_handleEpollout hread.sound hv' (fun _ => hwrite.1) maxConns
      refine ⟨_, ?_, (hread.report (hreported result)).trans hsend⟩
      exact append_assoc _ _ _
    · exact ⟨_, rfl, hread.report (hreported result)⟩

theorem handled_epollout (h : Sound o l.backend l.conns connecting)
    (hv : Valid o l.backend connecting ev) (hwrite : ev.type = .upstreamRecv → ev.hasWrite)
    (maxConns : Nat) :
    ∃ es, (l.epollout maxConns ev).out = l.out ++ es ∧
      Handled o connecting connecting l.backend (l.epollout maxConns ev).backend
        (l.epollout maxConns ev).conns es :=
  ⟨_, rfl, handled_handleEpollout h hv hwrite maxConns⟩

/-- A descriptor stands for its connection among the connects in progress. -/
theorem unreported_eq_erase (h : Sound o l.backend l.conns connecting)
    (hmem : (ev.connId, ev.ready.fd) ∈ connecting) :
    unreported connecting [ev] = connecting.erase (ev.connId, ev.ready.fd) := by
  rw [(List.Nodup.of_map _ h.nodup).erase_eq_filter, unreported]
  apply filter_congr
  intro p hp
  have howner := (h.unfinished p hp).2.1
  have hother := (h.unfinished _ hmem).2.1
  have hiff : ev.ready.fd ≠ p.2 ↔ p ≠ (ev.connId, ev.ready.fd) := by
    constructor
    · rintro hne rfl
      exact hne rfl
    · intro hne heq
      apply hne
      rw [← heq, hother] at howner
      exact Prod.ext (congrArg Prod.fst howner).symm heq.symm
  rw [Bool.eq_iff_iff]
  simpa using hiff

/-- The report of a connect. -/
theorem handled_connect (h : Sound o l.backend l.conns connecting)
    (hmem : (ev.connId, ev.ready.fd) ∈ connecting) {e : IoEvent} (hconn : e.connId = ev.connId)
    (htype : e.type = .upstreamConnect) :
    Handled o connecting (unreported connecting [ev]) l.backend l.backend l.conns [e] where
  sound :=
    { h with
      unfinished := fun p hp => h.unfinished p (mem_of_mem_filter hp)
      nodup := h.nodup.sublist (filter_sublist.map _) }
  shrinks _ hrem := ⟨hrem, rfl, rfl⟩
  pending := rfl
  balance connId kind hkind := by
    by_cases hup : kind = .upstreamConnect
    · subst hup
      have htally : tally connId .upstreamConnect [e] = if ev.connId = connId then 1 else 0 := by
        simp [tally, countP_cons, hconn, htype]
      rw [htally, outstanding, outstanding, if_pos rfl, if_pos rfl, unreported_eq_erase h hmem,
        countP_erase]
      by_cases hc : ev.connId = connId
      · have hpos : 0 < connecting.countP (·.1 = connId) :=
          countP_pos_iff.mpr ⟨_, hmem, by simp [hc]⟩
        simp only [hc, if_true, decide_true, and_true]
        rw [if_pos (hc ▸ hmem)]
        omega
      · simp [hc]
    · have hzero : tally connId kind [e] = 0 := by
        apply tally_eq_zero
        intro e' he'
        rw [mem_singleton.mp he', htype]
        exact Ne.symm hup
      rw [hzero, Nat.zero_add, outstanding, outstanding, if_neg hup, if_neg hup]

theorem handled_handle (h : Sound o l.backend l.conns connecting)
    (hev : ev.Ok o l.backend connecting) (maxEvents maxConns : Nat) :
    ∃ es, (l.handle maxEvents maxConns ev).out = l.out ++ es ∧
      Handled o connecting (unreported connecting [ev]) l.backend
        (l.handle maxEvents maxConns ev).backend (l.handle maxEvents maxConns ev).conns es := by
  have hnothing : ReadOnly o connecting l.backend l.backend l.conns := ⟨h, rfl, rfl⟩
  rcases hev.valid with ⟨hspecial, htype⟩ | hv
  · have hne : ev.type ≠ .upstreamConnect := by
      intro heq
      rw [heq] at htype
      exact htype (by decide)
    rw [unreported_of_free (hev.free hne)]
    unfold Loop.handle
    rcases hspecial with hlisten | htimer
    · rw [if_pos hlisten]
      refine ⟨_, rfl, hnothing.report ?_⟩
      intro e he
      obtain ⟨fd, -, rfl⟩ := mem_map.mp he
      show EventType.accept ∉ kinds
      decide
    · rw [if_neg (by rw [htimer]; decide), if_pos htimer]
      unfold Loop.timer
      split
      · exact ⟨[], by simp, hnothing.handled⟩
      · refine ⟨_, rfl, hnothing.report ?_⟩
        intro e he
        rw [mem_singleton.mp he]
        exact htype
  · obtain ⟨hlisten, htimer⟩ := not_or.mp hv.ordinary
    unfold Loop.handle
    rw [if_neg hlisten, if_neg htimer]
    by_cases hconnect : ev.type = .upstreamConnect
    · obtain ⟨hwrite, hmem⟩ := hv.connect hconnect
      rw [if_pos ⟨hconnect, hwrite⟩]
      exact ⟨_, rfl, handled_connect h hmem rfl rfl⟩
    · rw [if_neg (fun hboth => hconnect hboth.1), unreported_of_free (hev.free hconnect)]
      split
      · exact handled_epollin h hv hconnect maxEvents maxConns
      split
      · next hsend =>
        have hnot : ev.type ≠ .upstreamRecv := by rw [hsend.1]; decide
        split
        · exact handled_epollout h hv (absurd · hnot) maxConns
        split
        · exact handled_epollin h hv hconnect maxEvents maxConns
        · exact ⟨[], by simp, hnothing.handled⟩
      split
      · exact handled_epollin h hv hconnect maxEvents maxConns
      split
      · next hwrite => exact handled_epollout h hv (fun _ => hwrite) maxConns
      · exact ⟨[], by simp, hnothing.handled⟩

end Handling

/-! ## All entries -/

/-- An entry is still to be handled after another one. -/
theorem Event.Ok.next {b' : EpollBackend} {ev' : Event}
    (hok : ev'.Ok o b connecting)
    (hh : Handled o connecting (unreported connecting [ev]) b b' conns' es)
    (hne : ev.ready.fd ≠ ev'.ready.fd) : ev'.Ok o b' (unreported connecting [ev]) := by
  have hsub : ∀ p ∈ unreported connecting [ev], p ∈ connecting := fun p hp => mem_of_mem_filter hp
  refine ⟨fun htype p hp => hok.free htype p (hsub p hp), ?_⟩
  rcases hok.valid with hspecial | hv
  · exact .inl hspecial
  · right
    refine { hv with connect := ?_, sending := ?_, quiet := ?_ }
    · intro htype
      obtain ⟨hwrite, hmem⟩ := hv.connect htype
      refine ⟨hwrite, mem_filter.mpr ⟨hmem, ?_⟩⟩
      simp [hne]
    · intro hrem hfd
      obtain ⟨hrem₀, hfd₀, htype₀⟩ := hh.shrinks ev'.connId hrem
      rw [registeredAs, htype₀]
      exact hv.sending hrem₀ (hfd₀ ▸ hfd)
    · intro htype hwrite p hp
      exact hv.quiet htype hwrite p (hsub p hp)

/-- The entries that the loop of `wait` gets to. -/
def reached (maxEvents maxConns : Nat) (l : Loop) : List Event → List Event
  | [] => []
  | ev :: evs =>
    if l.out.length < maxEvents then
      ev :: reached maxEvents maxConns (l.handle maxEvents maxConns ev) evs
    else []

theorem unreported_nil (connecting : List (UInt32 × Int)) : unreported connecting [] = connecting := by
  simp [unreported]

theorem unreported_cons (connecting : List (UInt32 × Int)) (ev : Event) (evs : List Event) :
    unreported (unreported connecting [ev]) evs = unreported connecting (ev :: evs) := by
  simp only [unreported, filter_filter]
  apply filter_congr
  intro p _
  simp [Bool.and_comm]

theorem handled_handleAll (maxEvents maxConns : Nat) {l : Loop}
    (h : Sound o l.backend l.conns connecting) {evs : List Event}
    (hok : ∀ ev ∈ evs, ev.Ok o l.backend connecting) (hnodup : (evs.map (·.ready.fd)).Nodup) :
    ∃ es, (l.handleAll maxEvents maxConns evs).out = l.out ++ es ∧
      Handled o connecting (unreported connecting (reached maxEvents maxConns l evs)) l.backend
        (l.handleAll maxEvents maxConns evs).backend (l.handleAll maxEvents maxConns evs).conns es := by
  have hnothing : ReadOnly o connecting l.backend l.backend l.conns := ⟨h, rfl, rfl⟩
  induction evs generalizing l connecting with
  | nil =>
    rw [reached, unreported_nil]
    exact ⟨[], by simp [Loop.handleAll], hnothing.handled⟩
  | cons ev evs ih =>
    unfold Loop.handleAll reached
    split
    · obtain ⟨es₁, hout₁, h₁⟩ := handled_handle h (hok ev mem_cons_self) maxEvents maxConns
      rw [map_cons, nodup_cons] at hnodup
      have hrest : ∀ ev' ∈ evs, ev'.Ok o (l.handle maxEvents maxConns ev).backend
          (unreported connecting [ev]) := by
        intro ev' hev'
        apply (hok ev' (mem_cons_of_mem _ hev')).next h₁
        intro heq
        exact hnodup.1 (mem_map.mpr ⟨ev', hev', heq.symm⟩)
      obtain ⟨es₂, hout₂, h₂⟩ := ih h₁.sound hrest hnodup.2 ⟨h₁.sound, rfl, rfl⟩
      refine ⟨es₁ ++ es₂, ?_, ?_⟩
      · rw [hout₂, hout₁, append_assoc]
      · rw [← unreported_cons]
        exact h₁.trans h₂
    · rw [unreported_nil]
      exact ⟨[], by simp, hnothing.handled⟩

/-- What the kernel may report: every descriptor once, and a connect in progress as writable, before
it has been reported. -/
def Reportable (b : EpollBackend) (connecting : List (UInt32 × Int)) (ready : List Ready) : Prop :=
  (ready.map (·.fd)).Nodup ∧ ∀ r ∈ ready, ∀ reg ∈ b.interest r.fd, reg.type = .upstreamConnect →
    r.output ∧ (reg.connId, r.fd) ∈ connecting

theorem ok_of_mem_epollWait (h : Sound o b conns connecting) {ready : List Ready}
    (hready : Reportable b connecting ready) (hev : ev ∈ epollWait b ready) :
    ev.Ok o b connecting := by
  obtain ⟨r, hr, hsome⟩ := mem_filterMap.mp hev
  obtain ⟨reg, hreg, rfl⟩ := Option.map_eq_some_iff.mp hsome
  constructor
  · intro htype p hp heq
    have hpreg := (h.unfinished p hp).2.2.1
    rw [heq] at hpreg
    rw [hreg] at hpreg
    cases hpreg
    exact htype rfl
  · rcases h.owned r.fd reg hreg with hspecial | ⟨hordinary, howner, htype⟩
    · exact .inl hspecial
    · right
      refine ⟨hordinary, howner, htype, ?_, ?_, ?_⟩
      · intro hconnect
        obtain ⟨hout, hmem⟩ := hready.2 r hr reg hreg hconnect
        have hpreg := (h.unfinished _ hmem).2.2.1
        have hmask := congrArg Registration.mask (Option.some.inj (hreg.symm.trans hpreg))
        exact ⟨by simp [hout, hmask], hmem⟩
      · intro hrem hfd
        have hregistered := (h.armed _ hrem).registered
        rw [hfd, hreg] at hregistered
        exact congrArg Registration.type (Option.some.inj hregistered)
      · intro hup hwrite
        have hmask : reg.mask.output := by
          simp only [Bool.and_eq_true] at hwrite
          exact hwrite.2
        exact h.idle (h.output r.fd reg hreg hordinary hup hmask).1

theorem nodup_epollWait (b : EpollBackend) {ready : List Ready} (h : (ready.map (·.fd)).Nodup) :
    ((epollWait b ready).map (·.ready.fd)).Nodup := by
  refine List.Nodup.sublist ?_ h
  unfold epollWait
  induction ready with
  | nil => simp
  | cons r ready ih =>
    rw [map_cons, nodup_cons] at h
    rw [filterMap_cons]
    split
    · exact (ih h.2).cons _
    · next ev hev =>
      obtain ⟨reg, -, rfl⟩ := Option.map_eq_some_iff.mp hev
      exact (ih h.2).cons_cons _

end Rut.Io.Epoll
