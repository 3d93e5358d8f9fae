import Rut.Io.InFlight

/-!
# Who owns a connection slot

In every run of the io_uring loop, whatever the kernel answers and whatever the callbacks do
(`sound_run`), a slot is on the free stack, waits for its last completion or is open, and is nowhere
else; its slices go back to the pool once in a lifetime; and a slot on the free stack has nothing left
on its way through the ring, so that the next connection in it gets only its own completions.

An operation of the loop works on one slot. `Owned.change` says what is left to show for it, and
`Serves` is what holds while a callback works on its own connection.
-/

namespace Rut.Io

open List Function

/-! ## The invariant -/

namespace SlotLoop

/-- A slot that is handed out. -/
structure Live (l : SlotLoop) (c : Nat) : Prop where
  lt : c < kMaxConns
  not_free : c ∉ l.freeStack
  not_pending : c ∉ l.pendingFree

/-- A slot without a connection. -/
structure Idle (x : SlotConn) : Prop where
  fd : x.fd < 0
  noSlots : x.hasSlots = false
  noHandler : x.pendingHandler = false

/-- Someone waits for the completions of an open connection. -/
structure Attended (x : SlotConn) : Prop where
  fd : 0 ≤ x.fd
  waits : x.hasSlots ∨ x.pendingHandler

/-- What holds of one slot. -/
structure SlotInv (l : SlotLoop) (c : Nat) : Prop where
  tally : l.ring.Tally l.dispatched c (l.conns c).pendingOps
  idle : c ∈ l.freeStack ∨ c ∈ l.pendingFree → Idle (l.conns c)
  free : c ∈ l.freeStack →
    (l.conns c).pendingOps = 0 ∧ (l.conns c).held = [] ∧ l.given c = l.taken c
  live : c ∉ l.freeStack → c ∉ l.pendingFree → Attended (l.conns c)
  kept : c ∉ l.freeStack → l.given c = [] ∧ l.taken c = (l.conns c).held

structure Owned (l : SlotLoop) : Prop where
  shaped : l.ring.Shaped
  dispatched_le : l.dispatched ≤ l.ring.events.length
  lent : l.pool.Lent fun c => (l.conns c).held
  nodup : (l.freeStack ++ l.pendingFree).Nodup
  lt : ∀ c ∈ l.freeStack ++ l.pendingFree, c < kMaxConns
  deferred : ∀ fd ∈ l.deferredAccepts, 0 ≤ fd
  slot : ∀ c < kMaxConns, l.SlotInv c

/-- Nothing changes for the slots other than `c`. -/
structure Elsewhere (l l' : SlotLoop) (c : Nat) : Prop where
  tally : ∀ d n, d < kMaxConns → d ≠ c → l.ring.Tally l.dispatched d n →
    l'.ring.Tally l'.dispatched d n
  conns : ∀ d ≠ c, l'.conns d = l.conns d
  given : ∀ d ≠ c, l'.given d = l.given d
  taken : ∀ d ≠ c, l'.taken d = l.taken d
  free : ∀ d ≠ c, d ∈ l'.freeStack ↔ d ∈ l.freeStack
  pending : ∀ d ≠ c, d ∈ l'.pendingFree ↔ d ∈ l.pendingFree

variable {l l' : SlotLoop} {c d k : Nat} {x : SlotConn} {b : IoUringBackend} {q : Sqe}
  {t : EventType} {aux : UInt32} {fd : Int} {ok : Bool} {mprotect : Bool × Bool} {e : IoEvent}

theorem Elsewhere.slotInv (h : Elsewhere l l' c) (hd : d < kMaxConns) (hdc : d ≠ c)
    (hslot : l.SlotInv d) : l'.SlotInv d where
  tally := h.conns d hdc ▸ h.tally d _ hd hdc hslot.tally
  idle := by
    rw [h.conns d hdc, h.free d hdc, h.pending d hdc]
    exact hslot.idle
  free := by
    rw [h.conns d hdc, h.free d hdc, h.given d hdc, h.taken d hdc]
    exact hslot.free
  live := by
    rw [h.conns d hdc, h.free d hdc, h.pending d hdc]
    exact hslot.live
  kept := by
    rw [h.conns d hdc, h.free d hdc, h.given d hdc, h.taken d hdc]
    exact hslot.kept

/-- Only slot `c` changes: what is left to show is about it and about the loop as a whole. -/
theorem Owned.change (h : l.Owned) (helse : Elsewhere l l' c) (hslot : l'.SlotInv c)
    (hshaped : l'.ring.Shaped) (hdispatched : l'.dispatched ≤ l'.ring.events.length)
    (hlent : l'.pool.Lent fun c => (l'.conns c).held)
    (hnodup : (l'.freeStack ++ l'.pendingFree).Nodup)
    (hlt : ∀ d ∈ l'.freeStack ++ l'.pendingFree, d < kMaxConns)
    (hdeferred : l'.deferredAccepts = l.deferredAccepts) : l'.Owned where
  shaped := hshaped
  dispatched_le := hdispatched
  lent := hlent
  nodup := hnodup
  lt := hlt
  deferred := hdeferred ▸ h.deferred
  slot d hd := by
    by_cases hdc : d = c
    · exact hdc ▸ hslot
    · exact helse.slotInv hd hdc (h.slot d hd)

theorem held_setConn (l : SlotLoop) (c : Nat) (x : SlotConn) :
    (fun d => ((l.setConn c x).conns d).held) =
      update (fun d => (l.conns d).held) c x.held := by
  funext d
  by_cases hd : d = c
  · subst hd
    simp [setConn]
  · simp [setConn, hd]

@[simp]
theorem conns_setConn (l : SlotLoop) (c : Nat) (x : SlotConn) : (l.setConn c x).conns c = x :=
  update_self ..

theorem conns_setConn_of_ne (l : SlotLoop) (hd : d ≠ c) (x : SlotConn) :
    (l.setConn c x).conns d = l.conns d :=
  update_of_ne hd ..

theorem Live.ne_spare (hc : l.Live c) (hd : d ∈ l.freeStack ++ l.pendingFree) : d ≠ c := by
  rintro rfl
  obtain hd | hd := mem_append.mp hd
  · exact hc.not_free hd
  · exact hc.not_pending hd

theorem Owned.tally (h : l.Owned) (hc : c < kMaxConns) :
    l.ring.Tally l.dispatched c (l.conns c).pendingOps :=
  (h.slot c hc).tally

theorem Owned.idle (h : l.Owned) (hc : c ∈ l.freeStack ++ l.pendingFree) : Idle (l.conns c) :=
  (h.slot c (h.lt c hc)).idle (mem_append.mp hc)

theorem Owned.free (h : l.Owned) (hc : c ∈ l.freeStack) :
    (l.conns c).pendingOps = 0 ∧ (l.conns c).held = [] ∧ l.given c = l.taken c :=
  (h.slot c (h.lt c (mem_append_left _ hc))).free hc

theorem Owned.live (h : l.Owned) (hc : l.Live c) : Attended (l.conns c) :=
  (h.slot c hc.lt).live hc.not_free hc.not_pending

theorem Owned.kept (h : l.Owned) (hc : c < kMaxConns) (hfree : c ∉ l.freeStack) :
    l.given c = [] ∧ l.taken c = (l.conns c).held :=
  (h.slot c hc).kept hfree

/-- Something moves in the ring, and no count changes. -/
theorem Owned.withRing (h : l.Owned) {r : Ring} (hshaped : r.Shaped)
    (hlen : l.dispatched ≤ r.events.length)
    (htally : ∀ c n, c < kMaxConns → l.ring.Tally l.dispatched c n → r.Tally l.dispatched c n) :
    Owned { l with ring := r } where
  shaped := hshaped
  dispatched_le := hlen
  lent := h.lent
  nodup := h.nodup
  lt := h.lt
  deferred := h.deferred
  slot c hc :=
    have hslot := h.slot c hc
    ⟨htally c _ hc hslot.tally, hslot.idle, hslot.free, hslot.live, hslot.kept⟩

/-- A live slot changes, and with it what is on its way for it. -/
theorem Owned.update (h : l.Owned) (hc : l.Live c) {r : Ring} (hshaped : r.Shaped)
    (hlen : l.dispatched ≤ r.events.length)
    (hother : ∀ d n, d < kMaxConns → d ≠ c → l.ring.Tally l.dispatched d n →
      r.Tally l.dispatched d n) (htally : r.Tally l.dispatched c x.pendingOps) (hx : Attended x)
    (hheld : x.held = (l.conns c).held) : Owned ({ l with ring := r }.setConn c x) := by
  have hself : ({ l with ring := r }.setConn c x).conns c = x := conns_setConn _ c x
  refine h.change (c := c) ?_ ?_ hshaped hlen ?_ h.nodup h.lt rfl
  · exact ⟨hother, fun d hd => conns_setConn_of_ne _ hd x, fun _ _ => rfl, fun _ _ => rfl,
      fun _ _ => Iff.rfl, fun _ _ => Iff.rfl⟩
  · constructor
    · rw [hself]
      exact htally
    · exact fun hspare => absurd rfl (hc.ne_spare (mem_append.mpr hspare))
    · exact fun hfree => absurd hfree hc.not_free
    · intro _ _
      rw [hself]
      exact hx
    · intro _
      rw [hself, hheld]
      exact h.kept hc.lt hc.not_free
  · rw [held_setConn, hheld, update_eq_self]
    exact h.lent

/-- A live slot changes in nothing the loop counts. -/
theorem Owned.setConn (h : l.Owned) (hc : l.Live c) (hops : x.pendingOps = (l.conns c).pendingOps)
    (hx : Attended x) (hheld : x.held = (l.conns c).held) : Owned (l.setConn c x) :=
  h.update hc h.shaped h.dispatched_le (fun _ _ _ _ ht => ht) (hops ▸ h.tally hc.lt) hx hheld

/-! ### Operations -/

/-- The state in which a callback works on its connection. -/
structure Serves (l : SlotLoop) (c : Nat) : Prop where
  owned : l.Owned
  live : l.Live c

theorem Serves.attended (h : l.Serves c) : Attended (l.conns c) :=
  h.owned.live h.live

/-- The callback changes its connection in nothing the loop counts. -/
theorem Serves.setConn (h : l.Serves c) (hops : x.pendingOps = (l.conns c).pendingOps)
    (hx : Attended x) (hheld : x.held = (l.conns c).held) : (l.setConn c x).Serves c :=
  ⟨h.owned.setConn h.live hops hx hheld, h.live.lt, h.live.not_free, h.live.not_pending⟩

/-- One more operation of the connection is queued. -/
theorem Serves.push (h : l.Serves c) (hsq : b.sq = l.ring.backend.sq ++ [q])
    (hcq : b.cq = l.ring.backend.cq)
    (hshape : Opcode.multishot q.opcode → (kindOf q.userData).streams) (ht : t.ofConn)
    (hdata : q.userData = encodeUserData (connId c) t aux)
    (hops : x.pendingOps = (l.conns c).pendingOps + 1) (hx : Attended x)
    (hheld : x.held = (l.conns c).held) : ((l.setBackend b).setConn c x).Serves c := by
  obtain ⟨h, hc⟩ := h
  have hown : ∀ d < kMaxConns, ownedBy d q.userData = decide (c = d) := by
    intro d hd
    rw [hdata, ownedBy, kindOf, decode_connId hc.lt]
    exact isFor_self hc.lt hd ht
  refine ⟨?_, hc.lt, hc.not_free, hc.not_pending⟩
  apply h.update hc (h.shaped.push hsq hcq hshape) h.dispatched_le
  · intro d n hd hdc htally
    have := htally.push hsq hcq
    rwa [hown d hd, if_neg (by simpa using Ne.symm hdc)] at this
  · have := (h.tally hc.lt).push hsq hcq
    rw [hown c hc.lt, if_pos (by simp)] at this
    rw [hops]
    exact this
  · exact hx
  · exact hheld

/-- An entry that belongs to no slot. -/
theorem Owned.push_foreign (h : l.Owned) (hb : l.ring.backend.push q = some b)
    (hop : Opcode.multishot q.opcode = false) {id : UInt32}
    (hid : kMaxConns ≤ id.toNat ∧ id.toNat < 2 ^ 24) (hdata : q.userData = encodeUserData id t aux) :
    (l.setBackend b).Owned := by
  obtain ⟨-, hb⟩ := IoUringBackend.push_eq_some hb
  have hsq : b.sq = l.ring.backend.sq ++ [q] := by rw [hb]
  have hcq : b.cq = l.ring.backend.cq := by rw [hb]
  apply h.withRing (h.shaped.push hsq hcq (by rw [hop]; exact nofun)) h.dispatched_le
  intro c n hc htally
  have := htally.push hsq hcq
  rwa [hdata, ownedBy, decode_encodeUserData_of_lt hid.2, isFor_of_le hid.1 hc] at this

theorem Owned.flush (h : l.Owned) (k : Nat) : (l.flush k).Owned :=
  h.withRing (h.shaped.take k) h.dispatched_le fun _ _ _ ht => ht.take k

theorem Serves.flush (h : l.Serves c) (k : Nat) : (l.flush k).Serves c :=
  ⟨h.owned.flush k, h.live.lt, h.live.not_free, h.live.not_pending⟩

/-- An operation that the backend may take. -/
theorem Serves.submit (h : l.Serves c) {add : IoUringBackend → Option IoUringBackend}
    {arm : SlotConn → SlotConn}
    (hadd : ∀ b, add l.ring.backend = some b → ∃ q, b.sq = l.ring.backend.sq ++ [q] ∧
      b.cq = l.ring.backend.cq ∧
      (Opcode.multishot q.opcode → (kindOf q.userData).streams) ∧
      ∃ t, EventType.ofConn t ∧ q.userData = encodeUserData (connId c) t 0)
    (hops : ∀ x, (arm x).pendingOps = x.pendingOps) (hheld : ∀ x, (arm x).held = x.held)
    (hx : ∀ x, Attended x → Attended (arm x)) : (l.submit c add arm).Serves c := by
  unfold SlotLoop.submit
  split
  · exact h
  next b hb =>
  obtain ⟨q, hsq, hcq, hshape, t, ht, hdata⟩ := hadd b hb
  obtain ⟨hfd, hwaits⟩ := h.attended
  exact h.push hsq hcq hshape ht hdata (hops _) (hx _ ⟨hfd, hwaits⟩) (hheld _)

theorem Serves.submitRecv (h : l.Serves c) : (l.submitRecv c).Serves c := by
  unfold SlotLoop.submitRecv
  dsimp only
  split
  · exact h
  refine h.submit ?_ (fun _ => rfl) (fun _ => rfl) (fun x hx => ⟨hx.fd, hx.waits⟩)
  intro b hb
  obtain ⟨-, rfl⟩ := IoUringBackend.push_eq_some hb
  refine ⟨_, rfl, rfl, ?_, _, rfl, rfl⟩
  rw [kindOf, decode_connId h.live.lt]
  exact fun _ => rfl

theorem Serves.submitRecvUpstream (h : l.Serves c) : (l.submitRecvUpstream c).Serves c := by
  unfold SlotLoop.submitRecvUpstream
  dsimp only
  split
  · exact h
  refine h.submit ?_ (fun _ => rfl) (fun _ => rfl) (fun x hx => ⟨hx.fd, hx.waits⟩)
  intro b hb
  obtain ⟨-, rfl⟩ := IoUringBackend.push_eq_some hb
  refine ⟨_, rfl, rfl, ?_, _, rfl, rfl⟩
  rw [kindOf, decode_connId h.live.lt]
  exact fun _ => rfl

/-- Both sends leave an entry of their kind and touch nothing else the loop counts. -/
theorem submitSend_pushes {b' : IoUringBackend} {buf : Str} (ht : t.ofConn)
    (hb : IoUringBackend.submitSend t b fd (connId c) buf 0 = some b') :
    ∃ q, b'.sq = b.sq ++ [q] ∧ b'.cq = b.cq ∧
      (Opcode.multishot q.opcode → (kindOf q.userData).streams) ∧
      ∃ t, EventType.ofConn t ∧ q.userData = encodeUserData (connId c) t 0 := by
  obtain ⟨b₁, hb₁, rfl⟩ := Option.map_eq_some_iff.mp hb
  obtain ⟨-, rfl⟩ := IoUringBackend.push_eq_some hb₁
  exact ⟨_, rfl, rfl, nofun, t, ht, rfl⟩

theorem Serves.submitSend (h : l.Serves c) (buf : Str) : (l.submitSend c buf).Serves c :=
  h.submit (fun _ hb => submitSend_pushes (t := .send) rfl hb) (fun _ => rfl) (fun _ => rfl)
    (fun _ hx => ⟨hx.fd, hx.waits⟩)

theorem Serves.submitSendUpstream (h : l.Serves c) (buf : Str) :
    (l.submitSendUpstream c buf).Serves c :=
  h.submit (fun _ hb => submitSend_pushes (t := .upstreamSend) rfl hb) (fun _ => rfl)
    (fun _ => rfl) (fun _ hx => ⟨hx.fd, hx.waits⟩)

theorem Serves.submitConnect (h : l.Serves c) : (l.submitConnect c).Serves c := by
  refine h.submit ?_ (fun _ => rfl) (fun _ => rfl) (fun _ hx => hx)
  intro b hb
  obtain ⟨-, rfl⟩ := IoUringBackend.push_eq_some hb
  exact ⟨_, rfl, rfl, nofun, _, rfl, rfl⟩

/-- Queued at once or after a flush, or not at all: the rest of the state is that before. -/
theorem pushOrFlush_cases (h : l.pushOrFlush k q = (l', ok)) :
    (∃ l₀ b, (l₀ = l ∨ l₀ = l.flush k) ∧ l₀.ring.backend.push q = some b ∧ l' = l₀.setBackend b ∧
      ok = true) ∨ (l' = l.flush k ∧ ok = false) := by
  unfold pushOrFlush at h
  split at h
  · next b hb =>
    obtain ⟨rfl, rfl⟩ := Prod.mk.inj h
    exact .inl ⟨l, b, .inl rfl, hb, rfl, rfl⟩
  · dsimp only at h
    split at h
    · next b hb =>
      obtain ⟨rfl, rfl⟩ := Prod.mk.inj h
      exact .inl ⟨l.flush k, b, .inr rfl, hb, rfl, rfl⟩
    · obtain ⟨rfl, rfl⟩ := Prod.mk.inj h
      exact .inr ⟨rfl, rfl⟩

/-- A timer or a cancel of the connection, counted if it is queued. -/
theorem Serves.pushOrFlush (h : l.Serves c) (hq : l.pushOrFlush k q = (l', ok))
    (hop : Opcode.multishot q.opcode = false) (ht : t.ofConn)
    (hdata : q.userData = encodeUserData (connId c) t aux) :
    l'.conns = l.conns ∧ (ok = false → l'.Serves c) ∧
      (ok = true → ∀ x : SlotConn, x.pendingOps = (l.conns c).pendingOps + 1 → Attended x →
        x.held = (l.conns c).held → (l'.setConn c x).Serves c) := by
  obtain ⟨l₀, b, hl₀, hb, rfl, rfl⟩ | ⟨rfl, rfl⟩ := pushOrFlush_cases hq
  · have hsame : l₀.conns = l.conns ∧ l₀.Serves c := by
      obtain rfl | rfl := hl₀
      · exact ⟨rfl, h⟩
      · exact ⟨rfl, h.flush k⟩
    obtain ⟨-, hb⟩ := IoUringBackend.push_eq_some hb
    refine ⟨hsame.1, nofun, ?_⟩
    intro _ x hops hx hheld
    rw [← hsame.1] at hops hheld
    exact hsame.2.push (by rw [hb]) (by rw [hb]) (by rw [hop]; exact nofun) ht hdata hops hx hheld
  · exact ⟨rfl, fun _ => h.flush k, nofun⟩

theorem Serves.scheduleYieldTimer (h : l.Serves c) (k : Nat) (fits : Bool) :
    (l.scheduleYieldTimer c k fits).Serves c := by
  unfold SlotLoop.scheduleYieldTimer
  have h := h.submitRecv
  dsimp only
  split
  · exact h
  obtain ⟨hfd, hwaits⟩ := h.attended
  generalize hq : (l.submitRecv c).pushOrFlush k _ = out
  obtain ⟨l', ok⟩ := out
  obtain ⟨hconns, hfail, hdone⟩ := h.pushOrFlush hq rfl (t := .handlerTimer) rfl rfl
  rw [← hconns] at hfd hwaits hdone
  cases ok with
  | true => exact hdone rfl _ rfl ⟨hfd, hwaits⟩ rfl
  | false =>
    dsimp only
    split
    · exact (hfail rfl).setConn rfl ⟨hfd, hwaits⟩ rfl
    · exact hfail rfl

/-- The completion of this cancel is thrown away by `wait`. -/
theorem Owned.cancelForeign (h : l.Owned) (hq : l.cancelByUserData k kCancelConnId t aux = (l', ok)) :
    l'.Owned := by
  have hid : kMaxConns ≤ kCancelConnId.toNat ∧ kCancelConnId.toNat < 2 ^ 24 := by decide
  obtain ⟨l₀, b, hl₀, hb, rfl, -⟩ | ⟨rfl, -⟩ := pushOrFlush_cases hq
  · obtain rfl | rfl := hl₀
    · exact h.push_foreign hb rfl hid rfl
    · exact (h.flush k).push_foreign hb rfl hid rfl
  · exact h.flush k

theorem cancelByUserData_same {id : UInt32} (hq : l.cancelByUserData k id t aux = (l', ok)) :
    l'.freeStack = l.freeStack ∧ l'.pendingFree = l.pendingFree := by
  obtain ⟨l₀, b, rfl | rfl, -, rfl, -⟩ | ⟨rfl, -⟩ := pushOrFlush_cases hq
  all_goals exact ⟨rfl, rfl⟩

theorem Serves.disarmYieldTimer (h : l.Serves c) (k : Nat) : (l.disarmYieldTimer c k).Serves c := by
  unfold SlotLoop.disarmYieldTimer
  dsimp only
  split
  · exact h
  obtain ⟨hfd, hwaits⟩ := h.attended
  have h' := h.setConn (x := { l.conns c with
    yieldArmed := false, yieldTimeoutArmed := false
    yieldTimerGen := (l.conns c).yieldTimerGen + 1 }) rfl ⟨hfd, hwaits⟩ rfl
  split
  · generalize hq : cancelByUserData _ k kCancelConnId .handlerTimer _ = out
    obtain ⟨hfree, hpending⟩ := cancelByUserData_same hq
    refine ⟨h'.owned.cancelForeign hq, h'.live.lt, ?_, ?_⟩
    · rw [hfree]
      exact h'.live.not_free
    · rw [hpending]
      exact h'.live.not_pending
  · exact h'

theorem Serves.cancelOne (h : l.Serves c) (ks : List Nat) {target : (EventType × UInt32) × Nat}
    (ht : target.1.1.ofConn) : (cancelOne c ks l target).Serves c := by
  unfold SlotLoop.cancelOne
  obtain ⟨hfd, hwaits⟩ := h.attended
  generalize hq : l.cancelByUserData _ (connId c) target.1.1 target.1.2 = out
  obtain ⟨l', ok⟩ := out
  obtain ⟨hconns, hfail, hdone⟩ := h.pushOrFlush hq rfl ht rfl
  rw [← hconns] at hfd hwaits hdone
  cases ok with
  | true => exact hdone rfl _ rfl ⟨hfd, hwaits⟩ rfl
  | false => exact hfail rfl

theorem ofConn_of_mem_cancels {target : EventType × UInt32} (h : target ∈ cancels x) :
    target.1.ofConn := by
  obtain ⟨⟨armed, target'⟩, hmem, harmed⟩ := mem_filterMap.mp h
  dsimp only at harmed
  split at harmed
  · obtain rfl := Option.some.inj harmed
    simp only [mem_cons, Prod.mk.injEq, not_mem_nil, or_false] at hmem
    rcases hmem with ⟨-, rfl⟩ | ⟨-, rfl⟩ | ⟨-, rfl⟩ | ⟨-, rfl⟩ | ⟨-, rfl⟩ | ⟨-, rfl⟩ <;> rfl
  · cases harmed

theorem Serves.foldl_cancelOne (h : l.Serves c) (ks : List Nat)
    (targets : List ((EventType × UInt32) × Nat)) (ht : ∀ t ∈ targets, t.1.1.ofConn) :
    (targets.foldl (SlotLoop.cancelOne c ks) l).Serves c :=
  List.foldlRecOn targets (SlotLoop.cancelOne c ks) (motive := fun l => l.Serves c) h
    fun _ hl t hmem => hl.cancelOne ks (ht t hmem)

theorem Owned.withPool (h : l.Owned) {p : SlicePool} (hlent : p.Lent fun c => (l.conns c).held) :
    Owned { l with pool := p } :=
  { h with
    lent := hlent
    slot := fun c hc =>
      have hslot := h.slot c hc
      ⟨hslot.tally, hslot.idle, hslot.free, hslot.live, hslot.kept⟩ }

/-- The connection has taken slices from the pool. -/
theorem Owned.lend (h : l.Owned) (hc : l.Live c) {p : SlicePool}
    (hlent : p.Lent (Function.update (fun d => (l.conns d).held) c x.held))
    (hops : x.pendingOps = (l.conns c).pendingOps) (hx : Attended x) :
    Owned { l.setConn c x with pool := p, taken := Function.update l.taken c x.held } := by
  have hself : (l.setConn c x).conns c = x := conns_setConn l c x
  refine h.change (c := c) ?_ ?_ h.shaped h.dispatched_le ?_ h.nodup h.lt rfl
  · exact ⟨fun _ _ _ _ ht => ht, fun d hd => conns_setConn_of_ne l hd x, fun _ _ => rfl,
      fun d hd => Function.update_of_ne hd .., fun _ _ => Iff.rfl, fun _ _ => Iff.rfl⟩
  · constructor
    · rw [hself, hops]
      exact h.tally hc.lt
    · exact fun hspare => absurd rfl (hc.ne_spare (mem_append.mpr hspare))
    · exact fun hfree => absurd hfree hc.not_free
    · intro _ _
      rw [hself]
      exact hx
    · intro _
      show l.given c = [] ∧ Function.update l.taken c x.held c = ((l.setConn c x).conns c).held
      rw [hself, Function.update_self]
      exact ⟨(h.kept hc.lt hc.not_free).1, rfl⟩
  · exact held_setConn l c x ▸ hlent

/-- One more slice for the connection. -/
theorem Serves.allocUpstreamBuf (h : l.Serves c) (mprotect : Bool) :
    (l.allocUpstreamBuf c mprotect).Serves c := by
  unfold SlotLoop.allocUpstreamBuf
  dsimp only
  split
  · exact h
  next hnone =>
  obtain ⟨h, hc⟩ := h
  have hlent := h.lent.alloc mprotect c
  generalize l.pool.alloc mprotect = out at hlent
  obtain ⟨p, s⟩ := out
  cases s with
  | none =>
    simp only [Option.toList_none, append_nil, Function.update_eq_self] at hlent
    refine ⟨?_, hc.lt, hc.not_free, hc.not_pending⟩
    exact h.withPool hlent
  | some s =>
    have hheld : ({ l.conns c with upstreamRecvSlice := some s } : SlotConn).held =
        (l.conns c).held ++ [s] := by
      have : (l.conns c).upstreamRecvSlice = none := by simpa using hnone
      simp [SlotConn.held, this]
    obtain ⟨hfd, hwaits⟩ := h.live hc
    refine ⟨?_, hc.lt, hc.not_free, hc.not_pending⟩
    have hlend := h.lend hc (x := { l.conns c with upstreamRecvSlice := some s })
      (by rw [hheld]; exact hlent) rfl ⟨hfd, hwaits⟩
    rw [hheld, ← (h.kept hc.lt hc.not_free).2] at hlend
    exact hlend

/-- Every call of a callback into the loop. -/
theorem Serves.act (h : l.Serves c) (a : Action) : (act c l a).Serves c := by
  obtain ⟨hfd, hwaits⟩ := h.attended
  cases a with
  | setSlots => exact h.setConn rfl ⟨hfd, .inl rfl⟩ rfl
  | park => exact h.setConn rfl ⟨hfd, .inr rfl⟩ rfl
  | submitRecv => exact h.submitRecv
  | submitSend buf => exact h.submitSend buf
  | submitConnect => exact h.submitConnect
  | submitSendUpstream buf => exact h.submitSendUpstream buf
  | submitRecvUpstream => exact h.submitRecvUpstream
  | openUpstream fd => exact h.setConn rfl ⟨hfd, hwaits⟩ rfl
  | closeUpstream => exact h.setConn rfl ⟨hfd, hwaits⟩ rfl
  | allocUpstreamBuf mprotect => exact h.allocUpstreamBuf mprotect
  | scheduleYieldTimer k fits => exact h.scheduleYieldTimer k fits
  | disarmYieldTimer k => exact h.disarmYieldTimer k

theorem Serves.foldl_act (h : l.Serves c) (actions : List Action) :
    (actions.foldl (SlotLoop.act c) l).Serves c := by
  induction actions generalizing l with
  | nil => exact h
  | cons a as ih => exact ih (h.act a)

/-! ### Giving a slot back -/

theorem foldl_giveBack (c : Nat) (slices : List Nat) {held : Nat → List Nat} (h : l.pool.Lent held)
    (hheld : held c = slices) :
    ∃ p, slices.foldl (giveBack c) l =
        { l with pool := p, given := update l.given c (l.given c ++ slices) } ∧
      p.Lent (update held c []) := by
  induction slices generalizing l held with
  | nil =>
    refine ⟨l.pool, by simp, ?_⟩
    rw [← hheld, update_eq_self]
    exact h
  | cons s rest ih =>
    have htakes : l.pool.takesBack s := h.takesBack (hheld ▸ mem_cons_self)
    obtain ⟨p, hfold, hlent⟩ := ih (l := giveBack c l s) (h.free hheld) (update_self ..)
    refine ⟨p, ?_, ?_⟩
    · rw [foldl_cons, hfold]
      simp [giveBack, htakes]
    · simpa using hlent

/-- All slices of a slot go back to the pool. -/
theorem freeSlices_spec (c : Nat) (h : l.pool.Lent fun d => (l.conns d).held) :
    ∃ p, l.freeSlices c =
        { l with pool := p, given := update l.given c (l.given c ++ (l.conns c).held) } ∧
      p.Lent (update (fun d => (l.conns d).held) c []) :=
  foldl_giveBack c _ h rfl

/-- The slot is empty and lies on the free stack; `pendingFree` has lost it, if it was there. -/
theorem Owned.toFree (h : l.Owned) (hc : c < kMaxConns) (hfree : c ∉ l.freeStack)
    (hops : (l.conns c).pendingOps = 0) (hx : Idle x) (hxops : x.pendingOps = 0)
    (hxheld : x.held = []) {pendingFree : List Nat}
    (hpending : l.pendingFree.Perm (c :: pendingFree) ∨
      (c ∉ l.pendingFree ∧ pendingFree = l.pendingFree)) :
    Owned { (l.freeSlices c).setConn c x with freeStack := c :: l.freeStack, pendingFree } := by
  obtain ⟨p, hslices, hlent⟩ := freeSlices_spec c h.lent
  rw [hslices]
  have hnodup : (c :: l.freeStack ++ pendingFree).Nodup := by
    obtain hperm | ⟨hout, rfl⟩ := hpending
    · have := (hperm.append_left l.freeStack).nodup_iff.mp h.nodup
      exact (perm_middle.nodup_iff).mp this
    · refine nodup_cons.mpr ⟨?_, h.nodup⟩
      show c ∉ l.freeStack ++ l.pendingFree
      rw [mem_append, not_or]
      exact ⟨hfree, hout⟩
  have hpend : ∀ d, d ≠ c → (d ∈ pendingFree ↔ d ∈ l.pendingFree) := by
    intro d hdc
    obtain hperm | ⟨-, rfl⟩ := hpending
    · rw [hperm.mem_iff, mem_cons, or_iff_right hdc]
    · exact Iff.rfl
  have hself : Function.update l.conns c x c = x := Function.update_self ..
  refine h.change (c := c) ?_ ?_ h.shaped h.dispatched_le ?_ hnodup ?_ rfl
  · refine ⟨fun _ _ _ _ ht => ht, fun d hd => conns_setConn_of_ne _ hd x,
      fun d hd => Function.update_of_ne hd .., fun _ _ => rfl, fun d hd => ?_, fun d hd => hpend d hd⟩
    exact mem_cons.trans (or_iff_right hd)
  · constructor
    · show l.ring.Tally l.dispatched c (Function.update l.conns c x c).pendingOps
      rw [hself, hxops, ← hops]
      exact h.tally hc
    · intro _
      show Idle (Function.update l.conns c x c)
      rw [hself]
      exact hx
    · intro _
      obtain ⟨hgiven, htaken⟩ := h.kept hc hfree
      show (Function.update l.conns c x c).pendingOps = 0 ∧
        (Function.update l.conns c x c).held = [] ∧
        Function.update l.given c (l.given c ++ (l.conns c).held) c = l.taken c
      rw [hself, Function.update_self, hgiven, htaken, nil_append]
      exact ⟨hxops, hxheld, rfl⟩
    · exact fun hout => absurd mem_cons_self hout
    · exact fun hout => absurd mem_cons_self hout
  · have hheld := held_setConn l c x
    rw [hxheld] at hheld
    exact hheld ▸ hlent
  · intro d hd
    by_cases hdc : d = c
    · exact hdc ▸ hc
    · apply h.lt d
      simp only [cons_append, mem_cons, mem_append, hdc, false_or, hpend d hdc] at hd
      exact mem_append.mpr hd

/-- The slot waits for its last completion. -/
theorem Owned.toPending (h : l.Owned) (hc : l.Live c) (hx : Idle x)
    (hops : x.pendingOps = (l.conns c).pendingOps) (hheld : x.held = (l.conns c).held) :
    Owned { l.setConn c x with pendingFree := l.pendingFree ++ [c] } := by
  have hself : (l.setConn c x).conns c = x := conns_setConn l c x
  have hlists : l.freeStack ++ (l.pendingFree ++ [c]) = (l.freeStack ++ l.pendingFree) ++ [c] :=
    (append_assoc ..).symm
  refine h.change (c := c) ?_ ?_ h.shaped h.dispatched_le ?_ ?_ ?_ rfl
  · refine ⟨fun _ _ _ _ ht => ht, fun d hd => conns_setConn_of_ne l hd x, fun _ _ => rfl,
      fun _ _ => rfl, fun _ _ => Iff.rfl, fun d hd => ?_⟩
    simp [hd]
  · constructor
    · rw [hself, hops]
      exact h.tally hc.lt
    · intro _
      rw [hself]
      exact hx
    · exact fun hfree => absurd hfree hc.not_free
    · exact fun _ hout => absurd (mem_append_right _ (mem_singleton_self c)) hout
    · intro _
      rw [hself, hheld]
      exact h.kept hc.lt hc.not_free
  · have := held_setConn l c x
    rw [hheld, update_eq_self] at this
    exact this ▸ h.lent
  · show (l.freeStack ++ (l.pendingFree ++ [c])).Nodup
    rw [hlists]
    apply nodup_append.mpr ⟨h.nodup, nodup_singleton c, ?_⟩
    intro d hd e he
    rw [mem_singleton.mp he]
    exact hc.ne_spare hd
  · intro d hd
    have hd' : d ∈ (l.freeStack ++ l.pendingFree) ++ [c] := hlists ▸ hd
    obtain hd' | hd' := mem_append.mp hd'
    · exact h.lt d hd'
    · exact mem_singleton.mp hd' ▸ hc.lt

theorem freeSlices_setConn (l : SlotLoop) (hheld : x.held = (l.conns c).held) :
    (l.setConn c x).freeSlices c = (l.freeSlices c).setConn c x := by
  rw [freeSlices, freeSlices, conns_setConn, hheld]
  exact foldl_hom (fun l : SlotLoop => l.setConn c x) fun _ _ => rfl

theorem freeSlices_pendingFree (l : SlotLoop) (c : Nat) (pendingFree : List Nat) :
    freeSlices { l with pendingFree } c = { l.freeSlices c with pendingFree } := by
  unfold freeSlices
  generalize (l.conns c).held = slices
  induction slices generalizing l with
  | nil => rfl
  | cons s rest ih => exact ih (giveBack c l s)

/-- Only the pool and the books change. -/
theorem parts_freeSlices (l : SlotLoop) (c : Nat) : (l.freeSlices c).conns = l.conns ∧
    (l.freeSlices c).freeStack = l.freeStack ∧ (l.freeSlices c).pendingFree = l.pendingFree := by
  unfold freeSlices
  generalize (l.conns c).held = slices
  induction slices generalizing l with
  | nil => exact ⟨rfl, rfl, rfl⟩
  | cons s rest ih => exact ih (giveBack c l s)

theorem setConn_setConn (l : SlotLoop) (c : Nat) (x y : SlotConn) :
    (l.setConn c x).setConn c y = l.setConn c y := by simp [setConn]

/-- The end of `close_conn_impl`. -/
theorem Serves.freeConn (h : l.Serves c) :
    ((l.setConn c { l.conns c with fd := -1, upstreamFd := -1 }).freeConn c).Owned := by
  obtain ⟨h, hc⟩ := h
  unfold SlotLoop.freeConn
  rw [conns_setConn]
  dsimp only
  split
  · next hops =>
    have hfree := h.toFree hc.lt hc.not_free hops (x := {}) ⟨by decide, rfl, rfl⟩ rfl rfl
      (.inr ⟨hc.not_pending, rfl⟩)
    have hcomm := freeSlices_setConn l (c := c)
      (x := { l.conns c with fd := -1, upstreamFd := -1 }) rfl
    rw [hcomm, setConn_setConn]
    obtain ⟨-, hstack, hpending⟩ := parts_freeSlices l c
    simpa only [SlotLoop.setConn, hstack, hpending] using hfree
  · rw [setConn_setConn]
    exact h.toPending hc ⟨show (-1 : Int) < 0 by decide, rfl, rfl⟩ rfl rfl

/-- Closing gives the slot up. -/
theorem Serves.closeConn (h : l.Serves c) (ks : List Nat) : (l.closeConn c ks).Owned := by
  unfold SlotLoop.closeConn
  split
  · apply Serves.freeConn
    apply Serves.flush
    exact h.foldl_cancelOne ks _ fun t ht => ofConn_of_mem_cancels (fst_mem_of_mem_zipIdx ht)
  · exact h.freeConn

theorem Serves.react (h : l.Serves c) (r : Reaction) : (l.react c r).Owned := by
  have h' := h.foldl_act r.actions
  unfold SlotLoop.react
  cases r.closes with
  | none => exact h'.owned
  | some ks => exact h'.closeConn ks

/-! ### Reclaiming -/

/-- A slot that has waited for its last completion goes to the free stack. -/
theorem Owned.recycle (h : l.Owned) {pendingFree : List Nat}
    (hperm : l.pendingFree.Perm (c :: pendingFree)) (hops : (l.conns c).pendingOps = 0) :
    Owned { l.recycle c with pendingFree } := by
  have hmem : c ∈ l.freeStack ++ l.pendingFree :=
    mem_append_right _ (hperm.mem_iff.mpr mem_cons_self)
  have hfree : c ∉ l.freeStack := fun hc =>
    (nodup_append.mp h.nodup).2.2 c hc c (hperm.mem_iff.mpr mem_cons_self) rfl
  obtain ⟨hfd, hslots, hhandler⟩ := h.idle hmem
  have hfreed := h.toFree (h.lt c hmem) hfree hops
    (x := { l.conns c with recvSlice := none, sendSlice := none, upstreamRecvSlice := none })
    ⟨hfd, hslots, hhandler⟩ hops rfl (.inl hperm)
  obtain ⟨hconns, hstack, -⟩ := parts_freeSlices l c
  simpa only [SlotLoop.recycle, SlotLoop.setConn, hconns, hstack] using hfreed

theorem swapRemove_perm {ids : List Nat} (hc : c ∈ ids) : ids.Perm (c :: swapRemove c ids) := by
  rw [swapRemove, if_pos hc]
  obtain ⟨before, after, rfl, hout⟩ := eq_append_cons_of_mem hc
  have hset : ∀ z, (before ++ c :: after).set ((before ++ c :: after).idxOf c) z =
      before ++ z :: after := by
    intro z
    rw [idxOf_append_of_notMem hout, idxOf_cons_self, Nat.add_zero,
      set_append_right _ _ (Nat.le_refl _), Nat.sub_self, set_cons_zero]
  rw [hset]
  -- The last id takes the place, unless it is the one that goes.
  obtain rfl | ⟨after', z, rfl⟩ := after.eq_nil_or_concat
  · simp
  · have hlast : (before ++ c :: after'.concat z).getLastD c = z := by
      rw [concat_eq_append, ← cons_append, ← append_assoc, getLastD_concat]
    have hdrop : (before ++ z :: after'.concat z).dropLast = before ++ z :: after' := by
      rw [concat_eq_append, ← cons_append, ← append_assoc, dropLast_concat]
    rw [hlast, hdrop, concat_eq_append]
    apply perm_middle.trans
    apply List.Perm.cons
    apply List.Perm.append_left
    exact perm_append_singleton z after'

theorem Owned.reclaimSlot (h : l.Owned) (hc : c ∈ l.pendingFree) (hops : (l.conns c).pendingOps = 0) :
    (l.reclaimSlot c).Owned := by
  have hrecycled := h.recycle (swapRemove_perm hc) hops
  have hpending : (l.recycle c).pendingFree = l.pendingFree := (parts_freeSlices l c).2.2
  rw [← hpending] at hrecycled
  exact hrecycled

/-- The loop of `reclaim_pending`, with `todo` the ids it has not looked at. -/
theorem owned_foldl_reclaimOne (todo : List Nat)
    (h : Owned { l with pendingFree := l.pendingFree ++ todo }) :
    (todo.foldl reclaimOne l).Owned := by
  induction todo generalizing l with
  | nil => simpa using h
  | cons c rest ih =>
    apply ih
    unfold reclaimOne
    split
    · next hops =>
      have hrecycled := h.recycle (perm_middle (a := c)) hops
      have hpending : (l.recycle c).pendingFree = l.pendingFree := (parts_freeSlices l c).2.2
      rw [hpending]
      simpa only [SlotLoop.recycle, SlotLoop.setConn, freeSlices_pendingFree] using hrecycled
    · simpa using h

/-- Slots without operations become free. -/
theorem Owned.reclaimPending (h : l.Owned) : l.reclaimPending.Owned :=
  owned_foldl_reclaimOne l.pendingFree (l := { l with pendingFree := [] }) h

/-! ### Accepting -/

/-- Without a slot, or without two slices for it, nothing is handed out. -/
theorem Owned.allocConn_none (h : l.Owned) (halloc : l.allocConn mprotect = (l', none)) :
    l'.Owned := by
  unfold allocConn at halloc
  split at halloc
  · obtain ⟨rfl, -⟩ := Prod.mk.inj halloc
    exact h
  next id rest hstack =>
  obtain ⟨-, hheld, -⟩ := h.free (hstack ▸ mem_cons_self)
  have hfirst := h.lent.alloc mprotect.1 id
  generalize l.pool.alloc mprotect.1 = first at halloc hfirst
  obtain ⟨p₁, rs⟩ := first
  have hsecond := hfirst.alloc mprotect.2 id
  dsimp only at halloc hsecond
  generalize p₁.alloc mprotect.2 = second at halloc hsecond
  obtain ⟨p₂, ss⟩ := second
  rw [Function.update_self, Function.update_idem, hheld, nil_append] at hsecond
  -- The slice that was got alone goes back.
  have hback : ∀ s, p₂.Lent (Function.update (fun c => (l.conns c).held) id [s]) →
      (p₂.free s).Lent fun c => (l.conns c).held := by
    intro s hs
    have := hs.free (Function.update_self ..)
    rw [Function.update_idem, ← hheld, Function.update_eq_self] at this
    exact this
  cases rs with
  | none =>
    cases ss with
    | none =>
      obtain ⟨rfl, -⟩ := Prod.mk.inj halloc
      apply h.withPool
      have := hsecond
      rw [Option.toList_none, nil_append, ← hheld, Function.update_eq_self] at this
      exact this
    | some s =>
      obtain ⟨rfl, -⟩ := Prod.mk.inj halloc
      exact h.withPool (hback s hsecond)
  | some r =>
    cases ss with
    | none =>
      obtain ⟨rfl, -⟩ := Prod.mk.inj halloc
      exact h.withPool (hback r hsecond)
    | some s => exact absurd (Prod.mk.inj halloc).2 nofun

/-- A slot is handed out and the connection is open. -/
theorem Owned.allocConn_some (h : l.Owned) (halloc : l.allocConn mprotect = (l', some c))
    (hfd : 0 ≤ fd) : (l'.setConn c { l'.conns c with fd, hasSlots := true }).Serves c := by
  unfold allocConn at halloc
  split at halloc
  · exact absurd (Prod.mk.inj halloc).2 nofun
  next id rest hstack =>
  have hid : id ∈ l.freeStack := hstack ▸ mem_cons_self
  obtain ⟨hops, hheld, -⟩ := h.free hid
  have hfirst := h.lent.alloc mprotect.1 id
  generalize l.pool.alloc mprotect.1 = first at halloc hfirst
  obtain ⟨p₁, rs⟩ := first
  have hsecond := hfirst.alloc mprotect.2 id
  dsimp only at halloc hsecond
  generalize p₁.alloc mprotect.2 = second at halloc hsecond
  obtain ⟨p₂, ss⟩ := second
  rw [update_self, update_idem, hheld, nil_append] at hsecond
  cases rs with
  | none => cases ss <;> exact absurd (Prod.mk.inj halloc).2 nofun
  | some r =>
  cases ss with
  | none => exact absurd (Prod.mk.inj halloc).2 nofun
  | some s =>
  obtain ⟨rfl, hc⟩ := Prod.mk.inj halloc
  obtain rfl := Option.some.inj hc
  -- The free stack without the slot.
  have hnodup : id ∉ rest ++ l.pendingFree ∧ (rest ++ l.pendingFree).Nodup :=
    nodup_cons.mp (cons_append ▸ hstack ▸ h.nodup)
  have hlive : Live { l with freeStack := rest } id :=
    ⟨h.lt id (mem_append_left _ hid), fun hmem => hnodup.1 (mem_append_left _ hmem),
      fun hmem => hnodup.1 (mem_append_right _ hmem)⟩
  simp only [SlotLoop.setConn, update_self, update_idem]
  refine ⟨?_, hlive.lt, hlive.not_free, hlive.not_pending⟩
  refine h.change (c := id) ?_ ?_ h.shaped h.dispatched_le ?_ hnodup.2 ?_ rfl
  · refine ⟨fun _ _ _ _ ht => ht, fun d hd => update_of_ne hd ..,
      fun d hd => update_of_ne hd .., fun d hd => update_of_ne hd .., fun d hd => ?_,
      fun _ _ => Iff.rfl⟩
    rw [hstack, mem_cons, or_iff_right hd]
  · constructor
    · dsimp only
      rw [update_self]
      exact hops ▸ h.tally hlive.lt
    · exact fun hspare => absurd (mem_append.mpr hspare) hnodup.1
    · exact fun hfree => absurd hfree hlive.not_free
    · intro _ _
      dsimp only
      rw [update_self]
      exact ⟨hfd, .inl rfl⟩
    · intro _
      simp only [update_self, true_and]
      rfl
  · have := held_setConn l id { fd, hasSlots := true, recvSlice := some r, sendSlice := some s }
    exact this ▸ hsecond
  · exact fun d hd => h.lt d (hstack ▸ mem_cons_of_mem _ hd)

theorem Owned.openConn (h : l.Owned) (halloc : l.allocConn mprotect = (l', some c)) (hfd : 0 ≤ fd) :
    (l'.openConn c fd).Owned :=
  (h.allocConn_some halloc hfd).submitRecv.owned

theorem Owned.withDeferred (h : l.Owned) {fds : List Int} (hfds : ∀ fd ∈ fds, 0 ≤ fd) :
    Owned { l with deferredAccepts := fds } :=
  { h with
    deferred := hfds
    slot := fun c hc =>
      have hslot := h.slot c hc
      ⟨hslot.tally, hslot.idle, hslot.free, hslot.live, hslot.kept⟩ }

/-- A connection is accepted, deferred or refused. -/
theorem Owned.onAccept (h : l.Owned) (result : Int) (o : Outside) :
    (l.onAccept result o).Owned := by
  unfold SlotLoop.onAccept
  split
  · exact h
  next hresult =>
  have hfd : 0 ≤ result := Int.not_lt.mp hresult
  split
  · next halloc => exact h.openConn halloc hfd
  next halloc =>
  have h' := (h.allocConn_none halloc).reclaimPending
  split
  · next halloc => exact h'.openConn halloc hfd
  next halloc =>
  have h'' := h'.allocConn_none halloc
  split
  · apply h''.withDeferred
    intro fd hmem
    obtain hmem | hmem := mem_append.mp hmem
    · exact h''.deferred fd hmem
    · exact mem_singleton.mp hmem ▸ hfd
  · exact h''

theorem owned_foldl_retryAccept (answers : Nat → Bool × Bool) (todo : List (Int × Nat))
    (htodo : ∀ a ∈ todo, 0 ≤ a.1) (h : l.Owned) : (todo.foldl (retryAccept answers) l).Owned := by
  induction todo generalizing l with
  | nil => exact h
  | cons a rest ih =>
    apply ih (fun a' ha' => htodo a' (mem_cons_of_mem _ ha'))
    unfold retryAccept
    split
    · next halloc => exact h.openConn halloc (htodo a mem_cons_self)
    · next halloc => exact h.allocConn_none halloc

theorem Owned.retryDeferredAccepts (h : l.Owned) (answers : Nat → Bool × Bool) :
    (l.retryDeferredAccepts answers).Owned := by
  apply owned_foldl_retryAccept
  · intro a ha
    exact h.deferred a.1 (fst_mem_of_mem_zipIdx ha)
  · exact h.withDeferred nofun

/-! ### Dispatch -/

/-- An event that belongs to no slot. -/
theorem Owned.skip (h : l.Owned) (he : l.ring.events[l.dispatched]? = some e)
    (hnone : ∀ c < kMaxConns, isFor c e.connId e.type = false) :
    Owned { l with dispatched := l.dispatched + 1 } :=
  { h with
    dispatched_le := (List.getElem?_eq_some_iff.mp he).1
    slot := by
      intro c hc
      have hslot := h.slot c hc
      have htally := hslot.tally.next he
      rw [if_neg (by simp [hnone c hc])] at htally
      exact ⟨htally, hslot.idle, hslot.free, hslot.live, hslot.kept⟩ }

/-- An event of slot `c`, with the accounting: the slot is not on the free stack. -/
theorem Owned.receive (h : l.Owned) (he : l.ring.events[l.dispatched]? = some e)
    (hc : c < kMaxConns) (hid : e.connId = connId c) (htype : e.type.ofConn)
    (hops : x.pendingOps = if e.more then (l.conns c).pendingOps else (l.conns c).pendingOps - 1)
    (hheld : x.held = (l.conns c).held) (hfd : x.fd = (l.conns c).fd)
    (hslots : x.hasSlots = (l.conns c).hasSlots)
    (hhandler : x.pendingHandler = (l.conns c).pendingHandler) :
    Owned ({ l with dispatched := l.dispatched + 1 }.setConn c x) ∧ c ∉ l.freeStack := by
  have hfree : c ∉ l.freeStack := by
    intro hmem
    have hquiet := ((h.free hmem).1 ▸ h.tally hc).quiet.2
    rw [Ring.queue_next he c, hid, isFor_self hc hc htype] at hquiet
    simp at hquiet
  have hself : ({ l with dispatched := l.dispatched + 1 }.setConn c x).conns c = x :=
    conns_setConn _ c x
  have hslot := h.slot c hc
  refine ⟨?_, hfree⟩
  refine h.change (c := c) ?_ ?_ h.shaped (List.getElem?_eq_some_iff.mp he).1 ?_ h.nodup h.lt rfl
  · refine ⟨?_, fun d hd => conns_setConn_of_ne _ hd x, fun _ _ => rfl, fun _ _ => rfl,
      fun _ _ => Iff.rfl, fun _ _ => Iff.rfl⟩
    intro d n hd hdc htally
    have hnext := htally.next he
    rw [hid, isFor_self hc hd htype, if_neg (by simp [Ne.symm hdc])] at hnext
    exact hnext
  · constructor
    · have hnext := hslot.tally.next he
      rw [hid, isFor_self hc hc htype] at hnext
      rw [hself, hops]
      show l.ring.Tally (l.dispatched + 1) c _
      cases hmore : e.more <;> simpa [hmore] using hnext
    · intro hspare
      have hidle := hslot.idle hspare
      rw [hself]
      exact ⟨hfd ▸ hidle.fd, hslots ▸ hidle.noSlots, hhandler ▸ hidle.noHandler⟩
    · exact fun hmem => absurd hmem hfree
    · intro hout hout'
      have hlive := hslot.live hout hout'
      rw [hself]
      exact ⟨hfd ▸ hlive.fd, by rw [hslots, hhandler]; exact hlive.waits⟩
    · intro hout
      rw [hself, hheld]
      exact hslot.kept hout
  · rw [held_setConn, hheld]
    have := h.lent
    rwa [← update_eq_self c fun d => (l.conns d).held] at this

/-- A slot with a file descriptor, a callback or a parked handler is live. -/
theorem Owned.serves (h : l.Owned) (hc : c < kMaxConns) (hx : ¬ Idle (l.conns c)) : l.Serves c := by
  refine ⟨h, hc, ?_, ?_⟩
  · exact fun hmem => hx (h.idle (mem_append_left _ hmem))
  · exact fun hmem => hx (h.idle (mem_append_right _ hmem))

/-- A slot nobody attends, and not on the free stack, waits for its last completion. -/
theorem Owned.mem_pendingFree (h : l.Owned) (hc : c < kMaxConns) (hfree : c ∉ l.freeStack)
    (hx : ¬ Attended (l.conns c)) : c ∈ l.pendingFree := by
  by_contra hpending
  exact hx (h.live ⟨hc, hfree, hpending⟩)

theorem Owned.onHandlerTimer (h : l.Owned) (he : l.ring.events[l.dispatched]? = some e)
    (hc : c < kMaxConns) (hid : e.connId = connId c) (htype : e.type = .handlerTimer) (o : Outside)
    :
    ({ l with dispatched := l.dispatched + 1 }.onHandlerTimer c e.result o).Owned := by
  have hmore : e.more = false := by
    rw [Bool.eq_false_iff]
    intro hmore
    have := h.shaped.events e (mem_of_getElem? he) hmore
    rw [htype] at this
    cases this
  unfold SlotLoop.onHandlerTimer
  dsimp only
  generalize hx : ({ l.conns c with
    pendingOps := (l.conns c).pendingOps - 1
    yieldArmed := (l.conns c).yieldArmed && !decide (e.result = toI32 (l.conns c).yieldTimerGen)
    yieldTimeoutArmed := (l.conns c).yieldTimeoutArmed &&
      !decide (e.result = toI32 (l.conns c).yieldTimerGen) } : SlotConn) = x
  obtain ⟨h', hfree⟩ := h.receive he hc hid (by rw [htype]; rfl) (x := x)
    (by subst hx; simp [hmore]) (by subst hx; rfl) (by subst hx; rfl) (by subst hx; rfl)
    (by subst hx; rfl)
  split
  · next hresume =>
    apply Serves.react
    apply h'.serves hc
    rw [conns_setConn]
    intro hidle
    have := hidle.noHandler
    rw [← hx] at this
    exact absurd (hresume.1.symm.trans this) nofun
  split
  · next hstale =>
    apply h'.reclaimSlot _ hstale.1
    apply h'.mem_pendingFree hc hfree
    rw [conns_setConn, ← hx]
    exact fun hatt => absurd hatt.fd (Int.not_le.mpr hstale.2.2)
  · exact h'

theorem Serves.onParked (h : l.Serves c) (e : IoEvent) (o : Outside) :
    (l.onParked c e o).Owned := by
  unfold SlotLoop.onParked
  split
  · exact (h.disarmYieldTimer _).react o.reaction
  split
  · exact h.closeConn o.flushed
  split
  · exact h.submitRecv.owned
  · exact h.owned

theorem Owned.onCompletion (h : l.Owned) (he : l.ring.events[l.dispatched]? = some e)
    (hc : c < kMaxConns) (hid : e.connId = connId c) (htype : e.type.ofConn) (o : Outside) :
    ({ l with dispatched := l.dispatched + 1 }.onCompletion c e o).Owned := by
  unfold SlotLoop.onCompletion
  dsimp only
  obtain ⟨h', hfree⟩ := h.receive he hc hid htype (x := account (l.conns c) e)
    (by unfold account; split <;> rfl) (by unfold account; split <;> rfl)
    (by unfold account; split <;> rfl) (by unfold account; split <;> rfl)
    (by unfold account; split <;> rfl)
  split
  · next hslots =>
    apply Serves.react
    exact h'.serves hc fun hidle => absurd (hslots.symm.trans hidle.noSlots) nofun
  next hslots =>
  split
  · next hhandler =>
    apply Serves.onParked
    exact h'.serves hc fun hidle => absurd (hhandler.symm.trans hidle.noHandler) nofun
  next hhandler =>
  split
  · next hops =>
    apply h'.reclaimSlot _ hops
    apply h'.mem_pendingFree hc hfree
    exact fun hatt => hatt.waits.elim hslots hhandler
  · exact h'

/-- The next event, whatever it is. -/
theorem Owned.dispatchNext (h : l.Owned) (o : Outside) : (l.dispatchNext o).Owned := by
  unfold SlotLoop.dispatchNext
  split
  · exact h
  next e he =>
  have hid : e.connId = connId e.connId.toNat := (UInt32.ofNat_toNat).symm
  have hskip : e.type.ofConn = false ∨ kMaxConns ≤ e.connId.toNat →
      Owned { l with dispatched := l.dispatched + 1 } := by
    intro hout
    apply h.skip he
    intro c hc
    obtain hout | hout := hout
    · exact isFor_of_not_ofConn hout c _
    · exact isFor_of_le hout hc _
  unfold SlotLoop.dispatch
  split
  · next htype => exact (hskip (.inl (by rw [htype]; rfl))).onAccept _ o
  · next htype => exact hskip (.inl (by rw [htype]; rfl))
  · next htype =>
    split
    · next hc => exact h.onHandlerTimer he hc hid htype o
    · next hc => exact hskip (.inr (Nat.not_lt.mp hc))
  · next haccept htimeout hhandler =>
    split
    · next hc =>
      apply h.onCompletion he hc hid
      have hne : e.type ≠ .accept ∧ e.type ≠ .timeout := ⟨haccept, htimeout⟩
      simp [EventType.ofConn, hne]
    · next hc => exact hskip (.inr (Nat.not_lt.mp hc))

/-! ## Runs -/

theorem Owned.complete (h : l.Owned) (i : Nat) (a : Answer) : (l.complete i a).Owned := by
  apply h.withRing
  · apply h.shaped.complete
    intro hmore q hq
    rw [Option.mem_def.mp hq] at hmore
    exact (Bool.and_eq_true_iff.mp hmore).2
  · unfold Ring.complete
    split <;> exact h.dispatched_le
  · exact fun c n _ ht => ht.complete i _

/-- Every step keeps the invariant. -/
theorem Owned.step (h : l.Owned) (st : Step) : (l.step st).Owned := by
  cases st with
  | enter n =>
    exact h.withRing (h.shaped.timerRead.take n) h.dispatched_le fun _ _ _ ht => ht.timerRead.take n
  | complete i a => exact h.complete i a
  | harvest maxEvents =>
    obtain ⟨hshaped, hlen, htally⟩ := Ring.harvestLoop_kept kMaxConns l.ring.backend.cq.length
      maxEvents h.shaped h.dispatched_le
    exact h.withRing hshaped hlen htally
  | dispatch o => exact h.dispatchNext o
  | endBatch answers => exact h.reclaimPending.retryDeferredAccepts answers
  | wake c r =>
    simp only [SlotLoop.step]
    split
    · next hopen =>
      obtain ⟨hopen, hhandler⟩ := Bool.and_eq_true_iff.mp hopen
      obtain ⟨hc, -⟩ := Bool.and_eq_true_iff.mp hopen
      have hserves := h.serves (of_decide_eq_true hc) fun hidle =>
        absurd (hhandler.symm.trans hidle.noHandler) nofun
      obtain ⟨hfd, hwaits⟩ := hserves.attended
      apply Serves.react
      exact hserves.setConn rfl ⟨hfd, hwaits⟩ rfl
    · exact h
  | close c ks =>
    simp only [SlotLoop.step]
    split
    · next hopen =>
      obtain ⟨hc, hfd⟩ := Bool.and_eq_true_iff.mp hopen
      apply Serves.closeConn
      apply h.serves (of_decide_eq_true hc)
      exact fun hidle => absurd (of_decide_eq_true hfd) (Int.not_le.mpr hidle.fd)
    · exact h
  | closeListen k =>
    simp only [SlotLoop.step, SlotLoop.cancelAccept]
    split
    · exact h
    · next hb =>
      have hid : kMaxConns ≤ kCancelConnId.toNat ∧ kCancelConnId.toNat < 2 ^ 24 := by decide
      exact (h.push_foreign hb rfl hid rfl).flush k

/-- The accept belongs to no slot. -/
theorem owned_start (prealloc : Nat) : (start prealloc).Owned := by
  have hempty : ∀ c, ({} : Ring).Tally 0 c 0 := fun c => ⟨rfl, fun _ => nofun⟩
  have hshaped : ({} : Ring).Shaped := ⟨nofun, nofun, nofun⟩
  have hkind : kindOf (encodeUserData 0 .accept 0) = .accept := by rw [kindOf, decode_encodeUserData]
  have hstack : ∀ c, c ∈ (start prealloc).freeStack ↔ c < kMaxConns := by
    intro c
    simp only [start, mem_reverse, mem_range]
  have hspare : (start prealloc).freeStack ++ (start prealloc).pendingFree =
      (start prealloc).freeStack := append_nil _
  constructor
  · exact hshaped.push rfl rfl fun _ => by rw [hkind]; rfl
  · exact Nat.le_refl 0
  · exact SlicePool.lent_init (by decide) _
  · rw [hspare]
    simp only [start]
    exact nodup_reverse.mpr nodup_range
  · intro c hc
    rw [hspare] at hc
    exact (hstack c).mp hc
  · exact fun fd hfd => absurd hfd not_mem_nil
  · intro c hc
    have htally := (hempty c).push (b := ({} : Ring).backend.addAccept.getD {}) rfl rfl
    rw [Ring.ownedBy_of_kind hkind rfl] at htally
    have hfree := (hstack c).mpr hc
    exact ⟨htally, fun _ => ⟨show (-1 : Int) < 0 by decide, rfl, rfl⟩, fun _ => ⟨rfl, rfl, rfl⟩,
      fun hout => absurd hfree hout, fun hout => absurd hfree hout⟩

theorem Owned.run (h : l.Owned) (steps : List Step) : (l.run steps).Owned := by
  induction steps generalizing l with
  | nil => exact h
  | cons st steps ih => exact ih (h.step st)

/-- Where the slots are, what has become of their slices, and that nothing is left on its way for a
slot that can be handed out. -/
structure Sound (l : SlotLoop) : Prop where
  /-- A slot is in one place, and there once. -/
  place : ∀ c < kMaxConns, l.freeStack.count c + l.pendingFree.count c +
    (if 0 ≤ (l.conns c).fd then 1 else 0) = 1
  /-- Until a slot is free it has all the slices it has taken. -/
  kept : ∀ c < kMaxConns, c ∉ l.freeStack → l.given c = [] ∧ l.taken c = (l.conns c).held
  /-- When it is free, every one of them has gone back, once. -/
  returned : ∀ c ∈ l.freeStack, l.given c = l.taken c ∧ (l.conns c).held = []
  /-- No slice is in two places. -/
  apart : ∀ c, (l.conns c).held.Nodup ∧ (∀ s ∈ (l.conns c).held, s ∉ l.pool.freeStack) ∧
    ∀ d, c ≠ d → (l.conns c).held.Disjoint (l.conns d).held
  /-- No operation of a free slot is queued, with the kernel, completed or reported. -/
  quiet : ∀ c ∈ l.freeStack,
    (∀ q ∈ l.ring.backend.sq ++ l.ring.inflight, ownedBy c q.userData = false) ∧
    (∀ q ∈ l.ring.backend.cq, ownedBy c q.userData = false) ∧
    ∀ e ∈ l.ring.events.drop l.dispatched, isFor c e.connId e.type = false

/-- A slot is in one place. -/
theorem Owned.place (h : l.Owned) (hc : c < kMaxConns) :
    l.freeStack.count c + l.pendingFree.count c + (if 0 ≤ (l.conns c).fd then 1 else 0) = 1 := by
  by_cases hspare : c ∈ l.freeStack ++ l.pendingFree
  · have hcount := count_eq_one_of_mem h.nodup hspare
    rw [count_append] at hcount
    rw [hcount, if_neg (Int.not_le.mpr (h.idle hspare).fd)]
  · have hcount := count_eq_zero.mpr hspare
    rw [count_append] at hcount
    rw [mem_append, not_or] at hspare
    rw [hcount, if_pos (h.live ⟨hc, hspare.1, hspare.2⟩).fd]

/-- Nothing is on its way for a free slot. -/
theorem Owned.quiet (h : l.Owned) (hc : c ∈ l.freeStack) :
    (∀ q ∈ l.ring.backend.sq ++ l.ring.inflight, ownedBy c q.userData = false) ∧
      (∀ q ∈ l.ring.backend.cq, ownedBy c q.userData = false) ∧
      ∀ e ∈ l.ring.events.drop l.dispatched, isFor c e.connId e.type = false := by
  have htally := h.tally (h.lt c (mem_append_left _ hc))
  rw [(h.free hc).1] at htally
  obtain ⟨hbusy, hqueue⟩ := htally.quiet
  rw [Ring.busy, ← countP_append, countP_eq_zero] at hbusy
  obtain ⟨hevents, hcq⟩ := append_eq_nil_iff.mp hqueue
  rw [Ring.eventsOf, map_eq_nil_iff, filter_eq_nil_iff] at hevents
  rw [Ring.cqesOf, map_eq_nil_iff, filter_eq_nil_iff] at hcq
  exact ⟨fun q hq => Bool.eq_false_iff.mpr (hbusy q hq),
    fun q hq => Bool.eq_false_iff.mpr (hcq q hq), fun e he => Bool.eq_false_iff.mpr (hevents e he)⟩

theorem Owned.sound (h : l.Owned) : l.Sound where
  place _ hc := h.place hc
  kept _ hc hfree := h.kept hc hfree
  returned _ hc := ⟨(h.free hc).2.2, (h.free hc).2.1⟩
  apart c := by
    refine ⟨h.lent.nodup c, fun s hs => h.lent.notMem_freeStack hs, ?_⟩
    intro d hcd s hc hd
    exact hcd (h.lent.apart c d s hc hd)
  quiet _ hc := h.quiet hc

/-- For every interleaving of accepts, submissions, closes and completions. -/
theorem sound_run (prealloc : Nat) (steps : List Step) : ((start prealloc).run steps).Sound :=
  ((owned_start prealloc).run steps).sound

/-- `pending_ops` counts, at all times, the operations of a slot that are not over: those queued or with
the kernel, and the last completions that are not dispatched. -/
theorem pendingOps_run (prealloc : Nat) (steps : List Step) (c : Fin kMaxConns) :
    let l := (start prealloc).run steps
    (l.conns c).pendingOps = l.ring.busy c + (l.ring.queue l.dispatched c).count false :=
  (((owned_start prealloc).run steps).tally c.isLt).count.symm

end SlotLoop

end Rut.Io
