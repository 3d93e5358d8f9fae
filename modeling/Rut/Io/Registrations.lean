import Rut.Io.Epoll

/-!
# What an outstanding operation needs

An operation that epoll has not finished is kept in two places: the state of its connection, and the
registration of its descriptor. `Sound` says that the two agree, so that `wait` goes on with the
operation when the kernel reports the descriptor, and `Sound.update` is the one way it is kept.
-/

namespace Rut.Io.Epoll

/-! ## Counting -/

/-- The kinds of operations that end with an event of their own. -/
def kinds : List EventType := [.send, .upstreamSend, .upstreamConnect]

def tally (connId : UInt32) (kind : EventType) (events : List IoEvent) : Nat :=
  events.countP fun e => e.connId = connId ∧ e.type = kind

/-- Whether the connection has a send outstanding, by its kind, or a connect. -/
def outstanding (b : EpollBackend) (connecting : List (UInt32 × Int)) (connId : UInt32)
    (kind : EventType) : Nat :=
  if kind = .upstreamConnect then connecting.countP (·.1 = connId)
  else if 0 < (b.sendState connId.toNat).remaining ∧ (b.sendState connId.toNat).type = kind then 1
  else 0

/-- The connects still unreported when the entries have been handled. -/
def unreported (connecting : List (UInt32 × Int)) (evs : List Event) : List (UInt32 × Int) :=
  connecting.filter fun p => evs.all fun ev => ev.ready.fd ≠ p.2

/-! ## Registrations -/

/-- Which connection a descriptor belongs to, and whether it is the upstream's. A connection has one
descriptor towards its client. -/
structure Owner where
  of : Int → UInt32 × Bool
  client_unique : ∀ x y, of x = of y → (of x).2 = false → x = y

/-- The descriptor is registered with this kind while the send is outstanding. -/
def SendState.registeredAs (ss : SendState) : EventType :=
  if ss.type = .upstreamSend then .upstreamRecv else .send

/-- It is registered for these events. -/
def SendState.mask (ss : SendState) : Mask :=
  if ss.tls then EpollBackend.sendInterestForState ss else { input := true, output := true }

/-- The ids that `wait` takes for the listening socket and the timers. -/
def Special (connId : UInt32) : Prop := connId = kListenConnId ∨ connId = kTimerConnId

/-- The kinds on an upstream's descriptor. -/
def upstreamKind (type : EventType) : Bool :=
  type = .upstreamRecv ∨ type = .upstreamSend ∨ type = .upstreamConnect

variable {connId : UInt32} {b b' : EpollBackend} {conns : Nat → Conn}
  {connecting : List (UInt32 × Int)}

/-- No connection that has an entry in the tables has such an id. -/
theorem not_special (h : connId.toNat < kMaxFdMap) : ¬ Special connId := by
  rintro (rfl | rfl) <;> exact absurd h (by decide)

variable {o : Owner}

/-- An outstanding send whose descriptor is registered for what it waits for. -/
structure Armed (o : Owner) (b : EpollBackend) (conn : Conn) (connId : UInt32) (ss : SendState) :
    Prop where
  lt : connId.toNat < kMaxFdMap
  src : ss.src ≠ none
  fd : 0 ≤ ss.fd
  kind : ss.type = .send ∨ ss.type = .upstreamSend
  owned : o.of ss.fd = (connId, upstreamKind ss.type)
  registered : b.interest ss.fd = some ⟨connId, ss.registeredAs, ss.mask⟩
  withTls : ss.tls → ss.type = .send ∧ ss.tlsWaitEvents ≠ none ∧
    conn.tlsActive ∧ conn.tls ∧ conn.tlsHandshakeComplete
  plain : ¬ ss.tls → ss.tlsWaitEvents = none ∧ (ss.type = .send → ¬ (conn.tlsActive ∧ conn.tls))

structure Sound (o : Owner) (b : EpollBackend) (conns : Nat → Conn)
    (connecting : List (UInt32 × Int)) : Prop where
  owned : ∀ fd reg, b.interest fd = some reg →
    Special reg.connId ∧ reg.type ∉ kinds ∨
    ¬ Special reg.connId ∧ o.of fd = (reg.connId, upstreamKind reg.type) ∧
      reg.type ∈ [EventType.recv, .send, .upstreamRecv, .upstreamConnect]
  downstream : ∀ connId : UInt32, 0 ≤ b.downstreamFdMap connId.toNat →
    o.of (b.downstreamFdMap connId.toNat) = (connId, false)
  upstream : ∀ connId : UInt32, 0 ≤ b.upstreamFdMap connId.toNat →
    o.of (b.upstreamFdMap connId.toNat) = (connId, true)
  /-- an upstream that is connected is registered for output only if there is something to put out -/
  output : ∀ fd reg, b.interest fd = some reg → ¬ Special reg.connId → reg.type = .upstreamRecv →
    reg.mask.output →
      0 < (b.sendState reg.connId.toNat).remaining ∧ (b.sendState reg.connId.toNat).fd = fd
  armed : ∀ connId : UInt32, 0 < (b.sendState connId.toNat).remaining →
    Armed o b (conns connId.toNat) connId (b.sendState connId.toNat)
  unfinished : ∀ p ∈ connecting, ¬ Special p.1 ∧ o.of p.2 = (p.1, true) ∧
    b.interest p.2 = some ⟨p.1, .upstreamConnect, { output := true }⟩ ∧
    (b.sendState p.1.toNat).remaining = 0
  nodup : (connecting.map Prod.fst).Nodup

theorem Armed.congr {conn : Conn} {ss : SendState} (h : Armed o b conn connId ss)
    (hint : b'.interest ss.fd = b.interest ss.fd) : Armed o b' conn connId ss :=
  { h with registered := hint ▸ h.registered }

/-- One connection changes: its outstanding send, and the registration of one of its descriptors. -/
theorem Sound.update (h : Sound o b conns connecting) (connId : UInt32) (fd : Int) (ss : SendState)
    {type : EventType} {mask : Mask}
    (hss : b'.sendState = Function.update b.sendState connId.toNat ss)
    (hint : b'.interest = Function.update b.interest fd (some ⟨connId, type, mask⟩))
    (hdown : b'.downstreamFdMap = b.downstreamFdMap) (hup : b'.upstreamFdMap = b.upstreamFdMap)
    (howner : o.of fd = (connId, upstreamKind type))
    (htype : type ∈ [EventType.recv, .send, .upstreamRecv])
    (hsend : type = .send → ¬ Special connId) (hfree : (connId, fd) ∉ connecting)
    (hout : type = .upstreamRecv → mask.output → 0 < ss.remaining ∧ ss.fd = fd)
    (hkeep : 0 < (b.sendState connId.toNat).remaining → (b.sendState connId.toNat).fd ≠ fd →
      0 < ss.remaining ∧ ss.fd = (b.sendState connId.toNat).fd)
    (harmed : 0 < ss.remaining → Armed o b' (conns connId.toNat) connId ss)
    (hidle : 0 < ss.remaining → ∀ p ∈ connecting, p.1 ≠ connId) : Sound o b' conns connecting := by
  have hself : b'.sendState connId.toNat = ss := by rw [hss, Function.update_self]
  have hother : ∀ c : UInt32, c ≠ connId → b'.sendState c.toNat = b.sendState c.toNat := by
    intro c hc
    rw [hss, Function.update_of_ne (fun heq => hc (UInt32.toNat_inj.mp heq))]
  have hreg : ∀ g, g ≠ fd → b'.interest g = b.interest g := by
    intro g hg
    rw [hint, Function.update_of_ne hg]
  refine ⟨?_, hdown ▸ h.downstream, hup ▸ h.upstream, ?_, ?_, ?_, h.nodup⟩
  · intro g reg hg
    by_cases hgf : g = fd
    · subst hgf
      rw [hint, Function.update_self] at hg
      cases hg
      simp only [List.mem_cons, List.not_mem_nil, or_false] at htype
      by_cases hspecial : Special connId
      · left
        rcases htype with rfl | rfl | rfl
        · exact ⟨hspecial, by simp [kinds]⟩
        · exact absurd hspecial (hsend rfl)
        · exact ⟨hspecial, by simp [kinds]⟩
      · right
        refine ⟨hspecial, howner, ?_⟩
        rcases htype with rfl | rfl | rfl <;> simp
    · exact h.owned g reg (hreg g hgf ▸ hg)
  · intro g reg hg hspecial hupstream hmask
    by_cases hgf : g = fd
    · subst hgf
      rw [hint, Function.update_self] at hg
      cases hg
      rw [hself]
      exact hout hupstream hmask
    · obtain ⟨hrem, hfd⟩ := h.output g reg (hreg g hgf ▸ hg) hspecial hupstream hmask
      by_cases hc : reg.connId = connId
      · rw [hc] at hrem hfd ⊢
        obtain ⟨hrem', hfd'⟩ := hkeep hrem (hfd ▸ hgf)
        rw [hself]
        exact ⟨hrem', hfd'.trans hfd⟩
      · rw [hother _ hc]
        exact ⟨hrem, hfd⟩
  · intro c hrem
    by_cases hc : c = connId
    · subst hc
      rw [hself] at hrem ⊢
      exact harmed hrem
    · rw [hother c hc] at hrem ⊢
      have hold := h.armed c hrem
      apply hold.congr
      apply hreg
      intro heq
      have := hold.owned
      rw [heq, howner] at this
      exact hc (congrArg Prod.fst this).symm
  · intro p hp
    obtain ⟨hspecial, howned, hpint, hrem⟩ := h.unfinished p hp
    have hfd : p.2 ≠ fd := by
      intro heq
      rw [heq, howner] at howned
      have hc : connId = p.1 := congrArg Prod.fst howned
      rw [hc, ← heq] at hfree
      exact hfree hp
    refine ⟨hspecial, howned, (hreg _ hfd).trans hpint, ?_⟩
    by_cases hc : p.1 = connId
    · rw [hc, hself]
      by_contra hne
      exact hidle (Nat.pos_of_ne_zero hne) p hp hc
    · rw [hother _ hc]
      exact hrem

/-- Only the tables matter. -/
theorem Sound.congr (h : Sound o b conns connecting) (hss : b'.sendState = b.sendState)
    (hint : b'.interest = b.interest) (hdown : b'.downstreamFdMap = b.downstreamFdMap)
    (hup : b'.upstreamFdMap = b.upstreamFdMap) : Sound o b' conns connecting where
  owned := hint ▸ h.owned
  downstream := hdown ▸ h.downstream
  upstream := hup ▸ h.upstream
  output := by
    rw [hint, hss]
    exact h.output
  armed connId := by
    rw [hss]
    intro hrem
    exact (h.armed connId hrem).congr (congrFun hint _)
  unfinished := by
    rw [hint, hss]
    exact h.unfinished
  nodup := h.nodup

/-- A connection with something outstanding to send is not connecting. -/
theorem Sound.idle (h : Sound o b conns connecting)
    (hrem : 0 < (b.sendState connId.toNat).remaining) : ∀ p ∈ connecting, p.1 ≠ connId := by
  rintro p hp rfl
  exact absurd (h.unfinished p hp).2.2.2 (Nat.ne_of_gt hrem)

/-- Receiving, and a handshake that is complete at last, leave everything armed. -/
theorem Sound.conn (h : Sound o b conns connecting) {conn : Conn}
    (hactive : conn.tlsActive = (conns connId.toNat).tlsActive)
    (htls : conn.tls = (conns connId.toNat).tls)
    (hshake : (conns connId.toNat).tlsHandshakeComplete → conn.tlsHandshakeComplete) :
    Sound o b (Function.update conns connId.toNat conn) connecting := by
  refine { h with armed := ?_ }
  intro c hrem
  have hc := h.armed c hrem
  by_cases heq : c = connId
  · subst heq
    rw [Function.update_self]
    refine { hc with withTls := ?_, plain := ?_ }
    · intro hss
      obtain ⟨htype, hwait, h₁, h₂, h₃⟩ := hc.withTls hss
      exact ⟨htype, hwait, hactive ▸ h₁, htls ▸ h₂, hshake h₃⟩
    · rw [hactive, htls]
      exact hc.plain
  · rw [Function.update_of_ne (fun h => heq (UInt32.toNat_inj.mp h))]
    exact hc

end Rut.Io.Epoll
