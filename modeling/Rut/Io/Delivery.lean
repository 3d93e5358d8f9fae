import Rut.Io.Progress

/-!
# Delivery of completions over epoll

Events carry a connection and a kind, and no mark of the operation they answer, so delivery is a
matter of counting: of the operations of a kind accepted for a connection, so many are reported, so
many are queued, and the one that is left, if there is one, is outstanding (`Poller.Balanced`).
-/

namespace Rut.Io.Epoll

open List Function EpollBackend

/-! ## Runs -/

/-- The backend with the connections it works for. -/
structure Poller where
  backend : EpollBackend := {}
  conns : Nat → Conn := fun _ => {}
  /-- the connects in progress that have not been reported -/
  connecting : List (UInt32 × Int) := []
  /-- the operations accepted so far -/
  accepted : List (UInt32 × EventType) := []
  /-- everything `wait` has reported -/
  events : List IoEvent := []

namespace Poller

inductive Step where
  /-- `submit_send`: `add_send`, or `add_send_tls` for a connection with TLS -/
  | send (connId : UInt32) (fd : Int) (buf : Str) (sent : Sent) (written : List Written)
      (ctl : Option Nat)
  | sendUpstream (connId : UInt32) (fd : Int) (buf : Str) (sent : Sent) (ctl : Option Nat)
  | connect (connId : UInt32) (fd : Int) (answer : Connected)
  | recv (connId : UInt32) (fd : Int)
  | recvUpstream (connId : UInt32) (fd : Int)
  | pauseRecv (connId : UInt32)
  | cancel (fd : Int)
  | wait (maxEvents maxConns : Nat) (ready : List Ready)

def step (p : Poller) : Step → Poller
  | .send connId fd buf sent written ctl =>
    { p with
      backend := p.backend.addSendTls (p.conns connId.toNat) fd connId buf sent written ctl
      accepted := (connId, .send) :: p.accepted }
  | .sendUpstream connId fd buf sent ctl =>
    { p with
      backend := p.backend.addSendUpstream fd connId buf sent ctl
      accepted := (connId, .upstreamSend) :: p.accepted }
  | .connect connId fd answer =>
    { p with
      backend := p.backend.addConnect fd connId answer
      connecting := if answer = .inProgress then (connId, fd) :: p.connecting else p.connecting
      accepted := (connId, .upstreamConnect) :: p.accepted }
  | .recv connId fd => { p with backend := p.backend.addRecv fd connId }
  | .recvUpstream connId fd => { p with backend := p.backend.addRecvUpstream fd connId }
  | .pauseRecv connId => { p with backend := p.backend.pauseRecv connId }
  | .cancel fd => { p with backend := p.backend.cancel fd }
  | .wait maxEvents maxConns ready =>
    let l := p.backend.wait p.conns maxEvents maxConns ready
    let start := p.backend.waitStart p.conns maxEvents
    { p with
      backend := l.backend
      conns := l.conns
      connecting := unreported p.connecting
        (reached maxEvents maxConns start (start.entries maxEvents ready))
      events := p.events ++ l.out }

def run (p : Poller) (steps : List Step) : Poller := steps.foldl step p

/-- Every accepted operation is reported, queued or outstanding. -/
def Balanced (p : Poller) : Prop :=
  ∀ connId, ∀ kind ∈ kinds,
    p.accepted.count (connId, kind) = tally connId kind p.events +
      tally connId kind p.backend.pending + outstanding p.backend p.connecting connId kind

/-! ## What a step may do -/

def Room (p : Poller) : Prop := p.backend.pending.length < kPendingCompletions

def Idle (p : Poller) (connId : UInt32) : Prop :=
  (p.backend.sendState connId.toNat).remaining = 0 ∧ ∀ q ∈ p.connecting, q.1 ≠ connId

/-- Whether the descriptor is the one of an outstanding send of the connection. -/
def Sends (p : Poller) (connId : UInt32) (fd : Int) : Prop :=
  0 < (p.backend.sendState connId.toNat).remaining ∧ (p.backend.sendState connId.toNat).fd = fd

instance (p : Poller) : Decidable p.Room := inferInstanceAs (Decidable (_ < _))
instance (p : Poller) (connId : UInt32) : Decidable (p.Idle connId) :=
  inferInstanceAs (Decidable (_ ∧ _))
instance (p : Poller) (connId : UInt32) (fd : Int) : Decidable (p.Sends connId fd) :=
  inferInstanceAs (Decidable (_ ∧ _))

/-- An event at once needs a place in the queue; a send that stays outstanding needs an entry in the
table and a connection with nothing else outstanding. -/
def PlainFine (p : Poller) (connId : UInt32) (buf : Str) (sent : Sent) (ctl : Option Nat) : Prop :=
  match attempt buf.length sent with
  | .finished _ => p.Room
  | .outstanding _ => (buf ≠ [] ∧ connId.toNat < kMaxFdMap ∧ p.Idle connId) ∧ (ctl ≠ none → p.Room)

def TlsFine (p : Poller) (connId : UInt32) (buf : Str) (written : List Written) (ctl : Option Nat) :
    Prop :=
  match tlsAttempt buf.length written 0 with
  | .finished _ => p.Room
  | .outstanding _ _ =>
    (connId.toNat < kMaxFdMap → p.Idle connId ∧ (p.conns connId.toNat).tlsHandshakeComplete) ∧
      (kMaxFdMap ≤ connId.toNat ∨ ctl ≠ none → p.Room)

def ConnectFine (p : Poller) (connId : UInt32) (fd : Int) : Connected → Prop
  | .inProgress => ¬ Special connId ∧ p.Idle connId ∧ p.backend.interest fd = none
  | .connected => p.Room
  | .error _ => p.Room

/-- Descriptors are used for the connection they belong to, and not taken away from an outstanding
operation. -/
def Step.Fine (o : Owner) (p : Poller) : Step → Prop
  | .send connId fd buf sent written ctl => (o.of fd = (connId, false) ∧ 0 ≤ fd) ∧
      if (p.conns connId.toNat).tlsActive ∧ (p.conns connId.toNat).tls
      then p.TlsFine connId buf written ctl else p.PlainFine connId buf sent ctl
  | .sendUpstream connId fd buf sent ctl => (o.of fd = (connId, true) ∧ 0 ≤ fd) ∧
      p.PlainFine connId buf sent ctl
  | .connect connId fd answer => o.of fd = (connId, true) ∧ p.ConnectFine connId fd answer
  | .recv connId fd => o.of fd = (connId, false) ∧ ¬ p.Sends connId fd
  | .recvUpstream connId fd =>
    o.of fd = (connId, true) ∧ ¬ p.Sends connId fd ∧ (connId, fd) ∉ p.connecting
  | .pauseRecv connId => ¬ p.Sends connId (p.backend.downstreamFdMap connId.toNat)
  | .cancel fd => ¬ p.Sends (o.of fd).1 fd ∧ ∀ q ∈ p.connecting, q.2 ≠ fd
  | .wait _ _ ready => Reportable p.backend p.connecting ready

instance (p : Poller) (connId : UInt32) (buf : Str) (sent : Sent) (ctl : Option Nat) :
    Decidable (p.PlainFine connId buf sent ctl) :=
  match h : attempt buf.length sent with
  | .finished _ => decidable_of_iff p.Room (by simp [PlainFine, h])
  | .outstanding _ => decidable_of_iff
      ((buf ≠ [] ∧ connId.toNat < kMaxFdMap ∧ p.Idle connId) ∧ (ctl ≠ none → p.Room))
      (by simp [PlainFine, h])

instance (p : Poller) (connId : UInt32) (buf : Str) (written : List Written) (ctl : Option Nat) :
    Decidable (p.TlsFine connId buf written ctl) :=
  match h : tlsAttempt buf.length written 0 with
  | .finished _ => decidable_of_iff p.Room (by simp [TlsFine, h])
  | .outstanding _ _ => decidable_of_iff
      ((connId.toNat < kMaxFdMap → p.Idle connId ∧ (p.conns connId.toNat).tlsHandshakeComplete) ∧
        (kMaxFdMap ≤ connId.toNat ∨ ctl ≠ none → p.Room)) (by simp [TlsFine, h])

instance (p : Poller) (connId : UInt32) (fd : Int) :
    (answer : Connected) → Decidable (p.ConnectFine connId fd answer)
  | .inProgress => inferInstanceAs (Decidable (¬ (_ ∨ _) ∧ _ ∧ _ = none))
  | .connected => inferInstanceAs (Decidable p.Room)
  | .error _ => inferInstanceAs (Decidable p.Room)

instance (o : Owner) (p : Poller) : (st : Step) → Decidable (st.Fine o p)
  | .send connId fd buf sent written ctl =>
    inferInstanceAs (Decidable ((o.of fd = (connId, false) ∧ 0 ≤ fd) ∧
      if (p.conns connId.toNat).tlsActive ∧ (p.conns connId.toNat).tls
      then p.TlsFine connId buf written ctl else p.PlainFine connId buf sent ctl))
  | .sendUpstream _ _ _ _ _ => inferInstanceAs (Decidable (_ ∧ _))
  | .connect _ _ _ => inferInstanceAs (Decidable (_ ∧ _))
  | .recv _ _ => inferInstanceAs (Decidable (_ ∧ _))
  | .recvUpstream _ _ => inferInstanceAs (Decidable (_ ∧ _ ∧ _))
  | .pauseRecv _ => inferInstanceAs (Decidable (¬ _))
  | .cancel _ => inferInstanceAs (Decidable (_ ∧ _))
  | .wait _ _ _ => inferInstanceAs (Decidable (_ ∧ _))

/-- Every step of a run is fine where it is taken. -/
def Fine (o : Owner) (p : Poller) : List Step → Prop
  | [] => True
  | st :: sts => st.Fine o p ∧ (p.step st).Fine o sts

instance decidableFine (o : Owner) (p : Poller) : (steps : List Step) → Decidable (p.Fine o steps)
  | [] => isTrue trivial
  | st :: sts =>
    have := decidableFine o (p.step st) sts
    inferInstanceAs (Decidable (st.Fine o p ∧ (p.step st).Fine o sts))

end Poller

/-! ## Operations -/

/-- What an accepted operation does: it is queued or outstanding. -/
structure Accepts (o : Owner) (connecting connecting' : List (UInt32 × Int)) (b b' : EpollBackend)
    (conns : Nat → Conn) (connId : UInt32) (kind : EventType) : Prop where
  sound : Sound o b' conns connecting'
  balance : ∀ c, ∀ k ∈ kinds, tally c k b'.pending + outstanding b' connecting' c k =
    tally c k b.pending + outstanding b connecting c k + if (connId, kind) = (c, k) then 1 else 0

section Operations

variable {o : Owner} {b : EpollBackend} {conns : Nat → Conn} {connecting : List (UInt32 × Int)}
  {connId : UInt32} {fd : Int} {kind : EventType}

variable {b' : EpollBackend} {ss : SendState}

theorem accepts_queued {e : IoEvent} (h : Sound o b' conns connecting)
    (hout : ∀ c k, outstanding b' connecting c k = outstanding b connecting c k)
    (hpending : b'.pending = b.pending ++ [e]) (hconn : e.connId = connId) (hkind : e.type = kind) :
    Accepts o connecting connecting b b' conns connId kind where
  sound := h
  balance c k _ := by
    have htally : tally c k [e] = if (connId, kind) = (c, k) then 1 else 0 := by
      simp [tally, countP_cons, hconn, hkind]
    rw [hpending, tally_append, htally, hout]
    omega

theorem queue_pending (hroom : b.pending.length < kPendingCompletions) (e : IoEvent) :
    b.queue e = { b with pending := b.pending ++ [e] } := if_pos hroom

theorem queueForced_pending (hroom : b.pending.length < kPendingCompletions) (e : IoEvent) :
    b.queueForced e = { b with pending := b.pending ++ [e] } := by
  rw [queueForced, take_of_length_le (Nat.le_sub_one_of_lt hroom)]

theorem accepts_queue (h : Sound o b conns connecting)
    (hroom : b.pending.length < kPendingCompletions) (result : Int) :
    Accepts o connecting connecting b (b.queue ⟨connId, kind, result, false, none⟩) conns connId
      kind := by
  rw [queue_pending hroom]
  exact accepts_queued (h.congr rfl rfl rfl rfl) (fun _ _ => rfl) rfl rfl rfl

theorem accepts_queueForced (h : Sound o b conns connecting)
    (hroom : b.pending.length < kPendingCompletions) (result : Int) :
    Accepts o connecting connecting b (b.queueForced ⟨connId, kind, result, false, none⟩) conns connId
      kind := by
  rw [queueForced_pending hroom]
  exact accepts_queued (h.congr rfl rfl rfl rfl) (fun _ _ => rfl) rfl rfl rfl

/-- A send becomes outstanding on a connection that had nothing outstanding. -/
theorem accepts_outstanding (h : Sound o b' conns connecting)
    (hss : b'.sendState = update b.sendState connId.toNat ss)
    (hpending : b'.pending = b.pending) (hidle : (b.sendState connId.toNat).remaining = 0)
    (hrem : 0 < ss.remaining) (hkind : ss.type = kind) (hconnect : kind ≠ .upstreamConnect) :
    Accepts o connecting connecting b b' conns connId kind where
  sound := h
  balance c k hk := by
    rw [hpending]
    by_cases hc : c = connId
    · subst hc
      unfold outstanding
      rw [hss, update_self, hkind]
      by_cases hkc : k = .upstreamConnect
      · simp [hkc, hconnect]
      · by_cases hkk : kind = k <;> simp [hkc, hkk, hrem, hidle]
    · have hne : (connId, kind) ≠ (c, k) := by
        intro heq
        exact hc (congrArg Prod.fst heq).symm
      rw [if_neg hne]
      unfold outstanding
      rw [sendState_of_ne hss hc, Nat.add_zero]

/-- The state of a connection with nothing outstanding does not matter. -/
theorem Sound.clear (h : Sound o b conns connecting)
    (hss : b'.sendState = Function.update b.sendState connId.toNat ss)
    (hint : b'.interest = b.interest) (hdown : b'.downstreamFdMap = b.downstreamFdMap)
    (hup : b'.upstreamFdMap = b.upstreamFdMap) (hidle : (b.sendState connId.toNat).remaining = 0)
    (hnew : ss.remaining = 0) : Sound o b' conns connecting := by
  have hrem : ∀ c : UInt32, 0 < (b'.sendState c.toNat).remaining →
      b'.sendState c.toNat = b.sendState c.toNat := by
    intro c hpos
    apply sendState_of_ne hss
    rintro rfl
    rw [hss, Function.update_self, hnew] at hpos
    cases hpos
  have hrem' : ∀ c : UInt32, 0 < (b.sendState c.toNat).remaining →
      b'.sendState c.toNat = b.sendState c.toNat := by
    intro c hpos
    apply sendState_of_ne hss
    rintro rfl
    rw [hidle] at hpos
    cases hpos
  refine ⟨hint ▸ h.owned, hdown ▸ h.downstream, hup ▸ h.upstream, ?_, ?_, ?_, h.nodup⟩
  · intro g reg hg hspecial htype hmask
    obtain ⟨hpos, hfd⟩ := h.output g reg (hint ▸ hg) hspecial htype hmask
    rw [hrem' _ hpos]
    exact ⟨hpos, hfd⟩
  · intro c hpos
    have hsame := hrem c hpos
    rw [hsame] at hpos ⊢
    exact (h.armed c hpos).congr (congrFun hint _)
  · intro p hp
    obtain ⟨hspecial, howner, hreg, hzero⟩ := h.unfinished p hp
    refine ⟨hspecial, howner, hint ▸ hreg, ?_⟩
    by_contra hne
    rw [hrem _ (Nat.pos_of_ne_zero hne)] at hne
    exact hne hzero

theorem outstanding_clear (hss : b'.sendState = update b.sendState connId.toNat ss)
    (hidle : (b.sendState connId.toNat).remaining = 0) (hnew : ss.remaining = 0)
    (connecting : List (UInt32 × Int)) (c : UInt32) (k : EventType) :
    outstanding b' connecting c k = outstanding b connecting c k := by
  unfold outstanding
  by_cases hc : c = connId
  · subst hc
    rw [hss, update_self, hidle, hnew]
    simp
  · rw [sendState_of_ne hss hc]

/-- A send that would stay outstanding but cannot be registered is reported as failed. -/
theorem accepts_failed (h : Sound o b conns connecting) (hlt : connId.toNat < kMaxFdMap)
    (hidle : (b.sendState connId.toNat).remaining = 0)
    (hroom : b.pending.length < kPendingCompletions) (ss : SendState) (result : Int) :
    Accepts o connecting connecting b (((b.setSendState connId ss).setSendState connId {}).queueForced
      ⟨connId, kind, result, false, none⟩) conns connId kind := by
  have hss : ((b.setSendState connId ss).setSendState connId {}).sendState =
      Function.update b.sendState connId.toNat {} := by
    rw [setSendState_eq _ hlt, setSendState_eq _ hlt, Function.update_idem]
  rw [queueForced_pending (b := (b.setSendState connId ss).setSendState connId {}) hroom]
  refine accepts_queued ?_ ?_ rfl rfl rfl
  · exact h.clear hss rfl rfl rfl hidle rfl
  · exact outstanding_clear hss hidle rfl connecting

/-- A send that stays outstanding, with its descriptor registered. -/
theorem accepts_registered (h : Sound o b conns connecting) (ss : SendState)
    (hlt : connId.toNat < kMaxFdMap) (hidle : (b.sendState connId.toNat).remaining = 0)
    (hfree : ∀ q ∈ connecting, q.1 ≠ connId) (hsrc : ss.src ≠ none) (hfd : 0 ≤ ss.fd)
    (howner : o.of ss.fd = (connId, upstreamKind ss.type))
    (hkind : ss.type = .send ∨ ss.type = .upstreamSend) (hrem : 0 < ss.remaining)
    (htls : ss.tls → ss.type = .send ∧ ss.tlsWaitEvents ≠ none ∧ (conns connId.toNat).tlsActive ∧
      (conns connId.toNat).tls ∧ (conns connId.toNat).tlsHandshakeComplete)
    (hplain : ¬ ss.tls → ss.tlsWaitEvents = none ∧ (ss.type = .send →
      ¬ ((conns connId.toNat).tlsActive ∧ (conns connId.toNat).tls))) :
    Accepts o connecting connecting b
      ((b.setSendState connId ss).setFdInterest ss.fd connId ss.registeredAs ss.mask) conns connId
      ss.type := by
  have hset := setSendState_eq b hlt ss
  refine accepts_outstanding ?_ hset rfl hidle hrem rfl ?_
  · refine h.update connId ss.fd ss hset rfl rfl rfl ?_ (registeredAs_mem ss)
      (fun _ => not_special hlt) ?_ (fun _ _ => ⟨hrem, rfl⟩) ?_ ?_ (fun _ => hfree)
    · rw [upstreamKind_registeredAs hkind]
      exact howner
    · intro hmem
      exact hfree _ hmem rfl
    · intro hpos
      omega
    · intro _
      exact ⟨hlt, hsrc, hfd, hkind, howner, update_self _ _ _, htls, hplain⟩
  · rcases hkind with heq | heq <;> rw [heq] <;> decide

end Operations

variable {connecting : List (UInt32 × Int)} {b : EpollBackend}

section Attempts

variable {sent : Sent}

theorem lt_of_attempt {len n : Nat} (hlen : 0 < len)
    (h : attempt len sent = .outstanding n) : n < len := by
  cases sent with
  | count m =>
    simp only [attempt] at h
    split at h
    · cases h
    · cases h
      omega
  | again =>
    cases h
    exact hlen
  | error errno => cases h

theorem lt_of_tlsAttempt {len n sent : Nat} {w : Want} {answers : List Written}
    (h : tlsAttempt len answers sent = .outstanding n w) : n < len := by
  induction answers generalizing sent with
  | nil =>
    unfold tlsAttempt at h
    split at h
    · cases h
      assumption
    · cases h
  | cons answer answers ih =>
    unfold tlsAttempt at h
    split at h
    · cases answer with
      | count m => exact ih h
      | want w' =>
        cases h
        assumption
      | error result => cases h
    · cases h

variable {o : Owner} {p : Poller} {connId : UInt32} {fd : Int} {buf : Str}

/-- `add_send` and `add_send_upstream`. -/
theorem accepts_trySend (h : Sound o p.backend p.conns p.connecting) {kind registered : EventType}
    (hkind : kind = .send ∧ registered = .send ∨ kind = .upstreamSend ∧ registered = .upstreamRecv)
    (howner : o.of fd = (connId, upstreamKind kind)) (hfd : 0 ≤ fd)
    (hplain : kind = .send → ¬ ((p.conns connId.toNat).tlsActive ∧ (p.conns connId.toNat).tls))
    {ctl : Option Nat} (hfine : p.PlainFine connId buf sent ctl) :
    Accepts o p.connecting p.connecting p.backend
      (trySend kind registered p.backend fd connId buf sent ctl) p.conns connId kind := by
  unfold Poller.PlainFine at hfine
  unfold trySend
  cases hattempt : attempt buf.length sent with
  | finished result =>
    rw [hattempt] at hfine
    exact accepts_queue h hfine result
  | outstanding n =>
    rw [hattempt] at hfine
    obtain ⟨⟨hbuf, hlt, hidle, hfree⟩, hroom⟩ := hfine
    have hn := lt_of_attempt (length_pos_iff.mpr hbuf) hattempt
    cases ctl with
    | some errno => exact accepts_failed h hlt hidle (hroom (by simp)) _ _
    | none =>
      have hregistered := accepts_registered h
        { src := some buf, fd, offset := n, remaining := buf.length - n, type := kind } hlt hidle
        hfree (by simp) hfd howner (hkind.imp And.left And.left) (Nat.sub_pos_of_lt hn) (by simp)
        (fun _ => ⟨rfl, hplain⟩)
      rcases hkind with ⟨rfl, rfl⟩ | ⟨rfl, rfl⟩ <;> exact hregistered

/-- `submit_send` -/
theorem accepts_addSendTls (h : Sound o p.backend p.conns p.connecting)
    (howner : o.of fd = (connId, false)) (hfd : 0 ≤ fd) {written : List Written} {ctl : Option Nat}
    (hfine : if (p.conns connId.toNat).tlsActive ∧ (p.conns connId.toNat).tls
      then p.TlsFine connId buf written ctl else p.PlainFine connId buf sent ctl) :
    Accepts o p.connecting p.connecting p.backend
      (p.backend.addSendTls (p.conns connId.toNat) fd connId buf sent written ctl) p.conns connId
      .send := by
  unfold addSendTls
  split
  · next hplain =>
    have hplain' : ¬ ((p.conns connId.toNat).tlsActive ∧ (p.conns connId.toNat).tls) := by
      rintro ⟨hactive, htls⟩
      simp [hactive, htls] at hplain
    rw [if_neg hplain'] at hfine
    exact accepts_trySend h (.inl ⟨rfl, rfl⟩) howner hfd (fun _ => hplain') hfine
  · next htls =>
    have htls' : (p.conns connId.toNat).tlsActive ∧ (p.conns connId.toNat).tls := by
      simpa using htls
    rw [if_pos htls'] at hfine
    unfold Poller.TlsFine at hfine
    cases hattempt : tlsAttempt buf.length written 0 with
    | finished result =>
      rw [hattempt] at hfine
      exact accepts_queue h hfine result
    | outstanding n w =>
      rw [hattempt] at hfine
      obtain ⟨hentry, hroom⟩ := hfine
      dsimp only
      split
      · next hge => exact accepts_queueForced h (hroom (.inl hge)) _
      · next hlt =>
        have hlt := Nat.lt_of_not_le hlt
        obtain ⟨⟨hidle, hfree⟩, hshake⟩ := hentry hlt
        cases ctl with
        | some errno => exact accepts_failed h hlt hidle (hroom (.inr (by simp))) _ _
        | none =>
          exact accepts_registered h
            { src := some buf, fd, offset := n, remaining := buf.length - n, type := .send,
              tls := true, tlsWaitEvents := some w } hlt hidle hfree (by simp) hfd howner
            (.inl rfl) (Nat.sub_pos_of_lt (lt_of_tlsAttempt hattempt))
            (fun _ => ⟨rfl, by simp, htls'.1, htls'.2, hshake⟩) (by simp)

/-! ### Connecting -/

theorem Sound.setUpstreamFd {conns : Nat → Conn}
    (h : Sound o b conns connecting)
    (howner : o.of fd = (connId, true)) : Sound o (b.setUpstreamFd connId fd) conns connecting := by
  unfold EpollBackend.setUpstreamFd
  split
  · refine { h with upstream := ?_, armed := ?_ }
    · intro c hpos
      by_cases hc : c = connId
      · subst hc
        show o.of (Function.update b.upstreamFdMap c.toNat fd c.toNat) = _
        rw [Function.update_self]
        exact howner
      · have hne : c.toNat ≠ connId.toNat := fun heq => hc (UInt32.toNat_inj.mp heq)
        change 0 ≤ Function.update b.upstreamFdMap connId.toNat fd c.toNat at hpos
        show o.of (Function.update b.upstreamFdMap connId.toNat fd c.toNat) = _
        rw [Function.update_of_ne hne] at hpos ⊢
        exact h.upstream c hpos
    · intro c hpos
      exact (h.armed c hpos).congr rfl
  · exact h

theorem setUpstreamFd_same (b : EpollBackend) (connId : UInt32) (fd : Int) :
    (b.setUpstreamFd connId fd).sendState = b.sendState ∧
      (b.setUpstreamFd connId fd).pending = b.pending ∧
      (b.setUpstreamFd connId fd).interest = b.interest := by
  unfold setUpstreamFd
  split <;> exact ⟨rfl, rfl, rfl⟩

/-- A connect in progress, on a descriptor that was not registered. -/
theorem Sound.connect {conns : Nat → Conn}
    (h : Sound o b conns connecting) (howner : o.of fd = (connId, true))
    (hordinary : ¬ Special connId) (hidle : (b.sendState connId.toNat).remaining = 0)
    (hfree : ∀ q ∈ connecting, q.1 ≠ connId) (hnone : b.interest fd = none) :
    Sound o (b.setFdInterest fd connId .upstreamConnect { output := true }) conns
      ((connId, fd) :: connecting) := by
  have hreg : ∀ g, (b.interest g).isSome →
      (b.setFdInterest fd connId .upstreamConnect { output := true }).interest g = b.interest g := by
    intro g hg
    apply update_of_ne
    rintro rfl
    rw [hnone] at hg
    cases hg
  have hnew : ∀ g reg,
      (b.setFdInterest fd connId .upstreamConnect { output := true }).interest g = some reg →
        g = fd ∧ reg = ⟨connId, .upstreamConnect, { output := true }⟩ ∨ b.interest g = some reg := by
    intro g reg hg
    by_cases hgf : g = fd
    · subst hgf
      simp only [setFdInterest, update_self] at hg
      exact .inl ⟨rfl, (Option.some.inj hg).symm⟩
    · simp only [setFdInterest, update_of_ne hgf] at hg
      exact .inr hg
  refine ⟨?_, h.downstream, h.upstream, ?_, ?_, ?_, ?_⟩
  · intro g reg hg
    rcases hnew g reg hg with ⟨rfl, rfl⟩ | hg
    · exact .inr ⟨hordinary, howner, by simp⟩
    · exact h.owned g reg hg
  · intro g reg hg hspecial htype hmask
    rcases hnew g reg hg with ⟨rfl, rfl⟩ | hg
    · cases htype
    · exact h.output g reg hg hspecial htype hmask
  · intro c hpos
    have harmed := h.armed c hpos
    apply harmed.congr
    apply hreg
    rw [harmed.registered]
    rfl
  · intro q hq
    rcases mem_cons.mp hq with rfl | hq
    · exact ⟨hordinary, howner, update_self _ _ _, hidle⟩
    · obtain ⟨hspecial, hq2, hint, hzero⟩ := h.unfinished q hq
      refine ⟨hspecial, hq2, ?_, hzero⟩
      rw [hreg _ (by rw [hint]; rfl)]
      exact hint
  · rw [map_cons, nodup_cons]
    refine ⟨?_, h.nodup⟩
    intro hmem
    obtain ⟨q, hq, heq⟩ := mem_map.mp hmem
    exact hfree q hq heq

/-- A connect is accepted, or has failed. -/
theorem accepts_addConnect (h : Sound o p.backend p.conns p.connecting)
    (howner : o.of fd = (connId, true)) {answer : Connected}
    (hfine : p.ConnectFine connId fd answer) :
    Accepts o p.connecting
      (if answer = .inProgress then (connId, fd) :: p.connecting else p.connecting)
      p.backend (p.backend.addConnect fd connId answer) p.conns connId .upstreamConnect := by
  obtain ⟨hss, hpending, hint⟩ := setUpstreamFd_same p.backend connId fd
  have hset : Sound o (p.backend.setUpstreamFd connId fd) p.conns p.connecting := h.setUpstreamFd howner
  unfold addConnect
  cases answer with
  | connected =>
    have hadd : Sound o ((p.backend.setUpstreamFd connId fd).ctlAdd fd connId .upstreamRecv .epollin)
        p.conns p.connecting := by
      unfold ctlAdd
      split
      · exact hset
      · next hnone =>
        rw [Option.not_isSome_iff_eq_none] at hnone
        apply hset.setUpstream howner
        · intro hmem
          rw [(hset.unfinished _ hmem).2.2.1] at hnone
          cases hnone
        · intro hpos heq
          have hregistered := (hset.armed connId hpos).registered
          rw [heq, hnone] at hregistered
          cases hregistered
    have hsame : ((p.backend.setUpstreamFd connId fd).ctlAdd fd connId .upstreamRecv .epollin).sendState
        = p.backend.sendState ∧
        ((p.backend.setUpstreamFd connId fd).ctlAdd fd connId .upstreamRecv .epollin).pending =
          p.backend.pending := by
      unfold ctlAdd
      split <;> exact ⟨hss, hpending⟩
    dsimp only
    rw [queue_pending (by rw [hsame.2]; exact hfine)]
    refine accepts_queued (hadd.congr rfl rfl rfl rfl) ?_ (by rw [hsame.2]) rfl rfl
    exact outstanding_congr hsame.1 p.connecting
  | inProgress =>
    obtain ⟨hordinary, ⟨hidle, hfree⟩, hnone⟩ := hfine
    rw [← hint] at hnone
    dsimp only
    rw [if_pos rfl, ctlAdd, hnone, Option.isSome_none, if_neg Bool.false_ne_true]
    refine ⟨hset.connect howner hordinary (by rw [hss]; exact hidle) hfree hnone, ?_⟩
    intro c k hk
    have htally : tally c k ((p.backend.setUpstreamFd connId fd).setFdInterest fd connId
        .upstreamConnect { output := true }).pending = tally c k p.backend.pending :=
      congrArg (tally c k) hpending
    have hout : outstanding ((p.backend.setUpstreamFd connId fd).setFdInterest fd connId
        .upstreamConnect { output := true }) ((connId, fd) :: p.connecting) c k =
          outstanding p.backend ((connId, fd) :: p.connecting) c k :=
      outstanding_congr hss _ _ _
    rw [htally, hout]
    unfold outstanding
    by_cases hk : k = .upstreamConnect
    · subst hk
      by_cases hc : connId = c
      · simp [hc]
        omega
      · simp [hc]
    · simp [hk, Ne.symm hk]
  | error errno =>
    dsimp only
    rw [queue_pending (by rw [hpending]; exact hfine)]
    refine accepts_queued (hset.congr rfl rfl rfl rfl) ?_ (by rw [hpending]) rfl rfl
    exact outstanding_congr hss p.connecting

end Attempts

/-! ## Steps -/

section Steps

variable {o : Owner} {b : EpollBackend} {conns : Nat → Conn} {connecting : List (UInt32 × Int)}
  {connId : UInt32} {fd : Int}

theorem Sound.addRecv (h : Sound o b conns connecting) (howner : o.of fd = (connId, false))
    (hidle : ¬ (0 < (b.sendState connId.toNat).remaining ∧ (b.sendState connId.toNat).fd = fd)) :
    Sound o (b.addRecv fd connId) conns connecting := by
  have hset : Sound o (b.setFdInterest fd connId .recv .epollin) conns connecting :=
    h.setClient howner (.inl rfl) (by simp) (fun hpos heq => absurd ⟨hpos, heq⟩ hidle)
  unfold EpollBackend.addRecv
  split
  · refine { hset with downstream := ?_, armed := ?_ }
    · intro c hpos
      by_cases hc : c = connId
      · subst hc
        show o.of (Function.update b.downstreamFdMap c.toNat fd c.toNat) = _
        rw [Function.update_self]
        exact howner
      · have hne : c.toNat ≠ connId.toNat := fun heq => hc (UInt32.toNat_inj.mp heq)
        change 0 ≤ Function.update b.downstreamFdMap connId.toNat fd c.toNat at hpos
        show o.of (Function.update b.downstreamFdMap connId.toNat fd c.toNat) = _
        rw [Function.update_of_ne hne] at hpos ⊢
        exact h.downstream c hpos
    · intro c hpos
      exact (hset.armed c hpos).congr rfl
  · exact hset

theorem Sound.addRecvUpstream (h : Sound o b conns connecting) (howner : o.of fd = (connId, true))
    (hidle : ¬ (0 < (b.sendState connId.toNat).remaining ∧ (b.sendState connId.toNat).fd = fd))
    (hfree : (connId, fd) ∉ connecting) : Sound o (b.addRecvUpstream fd connId) conns connecting := by
  apply (h.setUpstreamFd howner).setUpstream howner hfree
  rw [(setUpstreamFd_same b connId fd).1]
  exact fun hpos heq => hidle ⟨hpos, heq⟩

theorem Sound.pauseRecv (h : Sound o b conns connecting)
    (hidle : ¬ (0 < (b.sendState connId.toNat).remaining ∧
      (b.sendState connId.toNat).fd = b.downstreamFdMap connId.toNat)) :
    Sound o (b.pauseRecv connId) conns connecting := by
  unfold EpollBackend.pauseRecv
  split
  · exact h
  dsimp only
  split
  · exact h
  · next hfd =>
    exact h.setClient (h.downstream connId (Int.not_lt.mp hfd)) (.inl rfl) (by simp)
      (fun hpos heq => absurd ⟨hpos, heq⟩ hidle)

theorem Sound.cancel (h : Sound o b conns connecting)
    (hidle : ¬ (0 < (b.sendState (o.of fd).1.toNat).remaining ∧
      (b.sendState (o.of fd).1.toNat).fd = fd)) (hfree : ∀ q ∈ connecting, q.2 ≠ fd) :
    Sound o (b.cancel fd) conns connecting := by
  have hold : ∀ g reg, (b.cancel fd).interest g = some reg → b.interest g = some reg := by
    intro g reg hg
    by_cases hgf : g = fd
    · subst hgf
      simp [EpollBackend.cancel] at hg
    · simpa [EpollBackend.cancel, update_of_ne hgf] using hg
  refine ⟨fun g reg hg => h.owned g reg (hold g reg hg), h.downstream, h.upstream,
    fun g reg hg => h.output g reg (hold g reg hg), ?_, ?_, h.nodup⟩
  · intro c hpos
    have harmed := h.armed c hpos
    apply harmed.congr
    apply update_of_ne
    intro heq
    apply hidle
    rw [← heq, harmed.owned]
    exact ⟨hpos, rfl⟩
  · intro q hq
    obtain ⟨hspecial, howner, hreg, hzero⟩ := h.unfinished q hq
    exact ⟨hspecial, howner, (update_of_ne (hfree q hq) _ _).trans hreg, hzero⟩

end Steps

namespace Poller

variable {o : Owner} {p : Poller}

def Inv (o : Owner) (p : Poller) : Prop :=
  Sound o p.backend p.conns p.connecting ∧ p.Balanced

variable {b' : EpollBackend} {ready : List Ready}

/-- An accepted operation is counted. -/
theorem Inv.accepts (h : p.Inv o) {connecting' : List (UInt32 × Int)} {connId : UInt32}
    {kind : EventType} (hb : Accepts o p.connecting connecting' p.backend b' p.conns connId kind) :
    Inv o { p with backend := b', connecting := connecting',
                   accepted := (connId, kind) :: p.accepted } := by
  refine ⟨hb.sound, ?_⟩
  intro c k hk
  have hbefore := h.2 c k hk
  have hstep := hb.balance c k hk
  rw [count_cons]
  simp only [beq_iff_eq]
  omega

theorem Inv.quiet (h : p.Inv o) (hb : Sound o b' p.conns p.connecting)
    (hss : b'.sendState = p.backend.sendState) (hpending : b'.pending = p.backend.pending) :
    Inv o { p with backend := b' } := by
  refine ⟨hb, ?_⟩
  intro c k hk
  rw [hpending, outstanding_congr hss]
  exact h.2 c k hk

/-- The first part of `wait` moves queued events to the output. -/
theorem tally_waitStart (b : EpollBackend) (conns : Nat → Conn) (maxEvents : Nat) (c : UInt32)
    (k : EventType) : tally c k (b.waitStart conns maxEvents).out +
      tally c k (b.waitStart conns maxEvents).backend.pending = tally c k b.pending := by
  unfold tally waitStart
  rw [countP_reverse, Nat.add_comm, ← countP_append, take_append_drop]

theorem Reportable.take
    (h : Reportable b connecting ready) (hint : b'.interest = b.interest) (n : Nat) :
    Reportable b' connecting (ready.take n) := by
  refine ⟨List.Nodup.sublist ((take_sublist n ready).map _) h.1, ?_⟩
  intro r hr
  rw [hint]
  exact h.2 r (mem_of_mem_take hr)

/-- What one `wait` does. -/
theorem Inv.handled_wait (h : p.Inv o) (hready : Reportable p.backend p.connecting ready)
    (maxEvents maxConns : Nat) :
    ∃ es, (p.backend.wait p.conns maxEvents maxConns ready).out =
        (p.backend.waitStart p.conns maxEvents).out ++ es ∧
      Handled o p.connecting (p.step (.wait maxEvents maxConns ready)).connecting
        (p.backend.waitStart p.conns maxEvents).backend
        (p.step (.wait maxEvents maxConns ready)).backend
        (p.step (.wait maxEvents maxConns ready)).conns es := by
  have hsound : Sound o (p.backend.waitStart p.conns maxEvents).backend p.conns p.connecting :=
    h.1.congr rfl rfl rfl rfl
  have htake : Reportable (p.backend.waitStart p.conns maxEvents).backend p.connecting
      (ready.take (min (maxEvents - (p.backend.waitStart p.conns maxEvents).out.length)
        kMaxEventsPerWait)) := Reportable.take hready rfl _
  exact handled_handleAll maxEvents maxConns hsound
    (fun ev hev => ok_of_mem_epollWait hsound htake hev) (nodup_epollWait _ htake.1)

/-- A `wait` loses no operation. -/
theorem Inv.wait (h : p.Inv o) (hready : Reportable p.backend p.connecting ready)
    (maxEvents maxConns : Nat) : (p.step (.wait maxEvents maxConns ready)).Inv o := by
  obtain ⟨es, hout, hh⟩ := h.handled_wait hready maxEvents maxConns
  refine ⟨hh.sound, ?_⟩
  intro c k hk
  have hbefore := h.2 c k hk
  have hstart := tally_waitStart p.backend p.conns maxEvents c k
  have hloop := hh.balance c k hk
  have hsame : outstanding (p.backend.waitStart p.conns maxEvents).backend p.connecting c k =
      outstanding p.backend p.connecting c k := outstanding_congr rfl _ _ _
  have hpending : (p.step (.wait maxEvents maxConns ready)).backend.pending =
      (p.backend.waitStart p.conns maxEvents).backend.pending := hh.pending
  have hevents : tally c k (p.step (.wait maxEvents maxConns ready)).events = tally c k p.events +
      (tally c k (p.backend.waitStart p.conns maxEvents).out + tally c k es) := by
    rw [← tally_append, ← hout, ← tally_append]
    rfl
  have haccepted : (p.step (.wait maxEvents maxConns ready)).accepted = p.accepted := rfl
  rw [hpending, hevents, haccepted]
  omega

/-- Every step keeps the invariant. -/
theorem Inv.step (h : p.Inv o) {st : Step} (hfine : st.Fine o p) : (p.step st).Inv o := by
  cases st with
  | send connId fd buf sent written ctl =>
    exact h.accepts (accepts_addSendTls h.1 hfine.1.1 hfine.1.2 hfine.2)
  | sendUpstream connId fd buf sent ctl =>
    exact h.accepts (accepts_trySend h.1 (.inr ⟨rfl, rfl⟩) hfine.1.1 hfine.1.2 (by simp) hfine.2)
  | connect connId fd answer => exact h.accepts (accepts_addConnect h.1 hfine.1 hfine.2)
  | recv connId fd =>
    refine h.quiet (h.1.addRecv hfine.1 hfine.2) ?_ ?_ <;>
    · unfold addRecv
      split <;> rfl
  | recvUpstream connId fd =>
    obtain ⟨hss, hpending, -⟩ := setUpstreamFd_same p.backend connId fd
    exact h.quiet (h.1.addRecvUpstream hfine.1 hfine.2.1 hfine.2.2) hss hpending
  | pauseRecv connId =>
    refine h.quiet (h.1.pauseRecv hfine) ?_ ?_ <;>
    · unfold pauseRecv
      dsimp only
      split
      · rfl
      · split <;> rfl
  | cancel fd => exact h.quiet (h.1.cancel hfine.1 hfine.2) rfl rfl
  | wait maxEvents maxConns ready => exact h.wait hfine maxEvents maxConns

theorem Inv.run (h : p.Inv o) {steps : List Step} (hfine : p.Fine o steps) : (p.run steps).Inv o := by
  induction steps generalizing p with
  | nil => exact h
  | cons st sts ih => exact ih (h.step hfine.1) hfine.2

/-! ## Delivery -/

/-- The kernel reports the descriptor of the connection's outstanding send for what it waits for, and
takes the rest. -/
structure Ends (p : Poller) (maxConns : Nat) (connId : UInt32) (r : Ready) : Prop where
  fd : r.fd = (p.backend.sendState connId.toNat).fd
  lt : connId.toNat < maxConns
  readable : r.input ∨ r.hangup →
    0 ≤ p.backend.recvFd connId (p.backend.sendState connId.toNat).registeredAs
  plain : ¬ (p.backend.sendState connId.toNat).tls →
    r.output ∧ Takes (p.backend.sendState connId.toNat).remaining r.sent
  withTls : (p.backend.sendState connId.toNat).tls →
    (if (p.backend.sendState connId.toNat).tlsWaitEvents = some .read then r.input else r.output) ∧
    Writes (p.backend.sendState connId.toNat).remaining r.written

/-- A `wait` that is not cut off, in which the kernel reports what the connection waits for. -/
structure Delivers (o : Owner) (p : Poller) (maxEvents maxConns : Nat) (ready : List Ready)
    (connId : UInt32) : Prop where
  reportable : Reportable p.backend p.connecting ready
  fits : ready.length ≤ min (maxEvents - p.backend.pending.length) kMaxEventsPerWait
  uncut : (p.backend.wait p.conns maxEvents maxConns ready).out.length < maxEvents
  connect : ∀ q ∈ p.connecting, q.1 = connId → ∃ r ∈ ready, r.fd = q.2
  send : 0 < (p.backend.sendState connId.toNat).remaining → ∃ r ∈ ready, p.Ends maxConns connId r ∧
    ∀ r' ∈ ready, r' ≠ r → (o.of r'.fd).1 ≠ connId

variable {maxEvents maxConns : Nat} {ready : List Ready} {connId : UInt32}

theorem out_length_le (h : p.Inv o) (hready : Reportable p.backend p.connecting ready) :
    (p.backend.waitStart p.conns maxEvents).out.length ≤
      (p.backend.wait p.conns maxEvents maxConns ready).out.length := by
  obtain ⟨es, hout, -⟩ := h.handled_wait hready maxEvents maxConns
  rw [hout, length_append]
  omega

/-- With room left, the queue is empty after the first part. -/
theorem pending_lt (h : p.Inv o) (hd : Delivers o p maxEvents maxConns ready connId) :
    p.backend.pending.length < maxEvents := by
  have hle := (out_length_le h hd.reportable).trans_lt hd.uncut
  simp only [waitStart, length_reverse, length_drop] at hle
  omega

theorem entries_eq (h : p.Inv o) (hd : Delivers o p maxEvents maxConns ready connId) :
    (p.backend.waitStart p.conns maxEvents).entries maxEvents ready =
      epollWait (p.backend.waitStart p.conns maxEvents).backend ready := by
  have hlt := pending_lt h hd
  have hfits := hd.fits
  rw [Loop.entries, take_of_length_le]
  simp only [waitStart, length_reverse, length_drop]
  rw [Nat.sub_eq_zero_of_le hlt.le, Nat.sub_zero]
  exact hfits

/-- The entry for a registered descriptor. -/
theorem mem_epollWait {r : Ready} (hr : r ∈ ready) {reg : Registration}
    (hreg : b.interest r.fd = some reg) :
    ⟨reg.connId, reg.type, r.input && reg.mask.input || r.hangup, r.output && reg.mask.output, r⟩ ∈
      epollWait b ready :=
  mem_filterMap.mpr ⟨r, hr, by rw [hreg]; rfl⟩

theorem remaining_delivered (h : p.Inv o) (hd : Delivers o p maxEvents maxConns ready connId) :
    ((p.step (.wait maxEvents maxConns ready)).backend.sendState connId.toNat).remaining = 0 := by
  obtain ⟨es, -, hh⟩ := h.handled_wait hd.reportable maxEvents maxConns
  by_contra hne
  -- What is still outstanding was outstanding before, so it was reported in this `wait`.
  have hrem : 0 < (p.backend.sendState connId.toNat).remaining :=
    (hh.shrinks connId (Nat.pos_of_ne_zero hne)).1
  obtain ⟨r, hr, hends, hothers⟩ := hd.send hrem
  have harmed := h.1.armed connId hrem
  have hreg := harmed.registered
  rw [← hends.fd] at hreg
  have hmem := mem_epollWait (b := (p.backend.waitStart p.conns maxEvents).backend) hr hreg
  apply hne
  have hsound : Sound o (p.backend.waitStart p.conns maxEvents).backend p.conns p.connecting :=
    h.1.congr rfl rfl rfl rfl
  have hready : Reportable (p.backend.waitStart p.conns maxEvents).backend p.connecting ready :=
    hd.reportable
  have huncut := hd.uncut
  change ((p.backend.wait p.conns maxEvents maxConns ready).backend.sendState connId.toNat).remaining = 0
  unfold wait at huncut ⊢
  dsimp only at huncut ⊢
  rw [entries_eq h hd] at huncut ⊢
  refine handleAll_finishes hsound (fun ev hev => ok_of_mem_epollWait hsound hready hev)
    (nodup_epollWait _ hready.1) hmem ?_ ?_ huncut
  · refine ⟨hrem, rfl, hends.lt, ?_, ?_, ?_⟩
    · intro hread
      apply hends.readable
      simp only [Bool.or_eq_true, Bool.and_eq_true] at hread
      exact hread.imp And.left id
    · intro hss
      have hmask : (p.backend.sendState connId.toNat).mask = ⟨true, true⟩ := if_neg hss
      obtain ⟨hout, htakes⟩ := hends.plain hss
      exact ⟨by simp [hout, hmask], htakes⟩
    · intro hss
      have hmask : (p.backend.sendState connId.toNat).mask =
          sendInterestForState (p.backend.sendState connId.toNat) := if_pos hss
      obtain ⟨hready, hwrites⟩ := hends.withTls hss
      refine ⟨?_, hwrites⟩
      obtain ⟨w, hw⟩ := Option.ne_none_iff_exists'.mp (harmed.withTls hss).2.1
      rw [sendInterestForState, hw] at hmask
      change _ ∨ _ ∧ (p.backend.sendState connId.toNat).tlsWaitEvents = _
      rw [hw] at hready ⊢
      cases w with
      | read =>
        rw [if_pos rfl] at hready
        right
        simp [hready, hmask, Want.sendInterest]
      | write =>
        rw [if_neg (by decide)] at hready
        left
        simp [hready, hmask, Want.sendInterest, Want.interest]
  · intro ev' hev' hne heq
    obtain ⟨r', hr', hsome⟩ := mem_filterMap.mp hev'
    obtain ⟨reg', hreg', rfl⟩ := Option.map_eq_some_iff.mp hsome
    change p.backend.interest r'.fd = some reg' at hreg'
    have hr'ne : r' ≠ r := by
      rintro rfl
      rw [hreg] at hreg'
      cases hreg'
      exact hne rfl
    change connId = reg'.connId at heq
    rcases h.1.owned r'.fd reg' hreg' with ⟨hspecial, -⟩ | ⟨-, howner, -⟩
    · exact not_special harmed.lt (heq ▸ hspecial)
    · apply hothers r' hr' hr'ne
      rw [howner]
      exact heq.symm

theorem connecting_delivered (h : p.Inv o) (hd : Delivers o p maxEvents maxConns ready connId) :
    ∀ q ∈ (p.step (.wait maxEvents maxConns ready)).connecting, q.1 ≠ connId := by
  have huncut := hd.uncut
  intro q hq hconn
  change q ∈ unreported p.connecting (reached maxEvents maxConns _ _) at hq
  rw [reached_eq huncut, entries_eq h hd] at hq
  obtain ⟨hmem, hfree⟩ := mem_filter.mp hq
  obtain ⟨r, hr, hfd⟩ := hd.connect q hmem hconn
  have hreg := (h.1.unfinished q hmem).2.2.1
  rw [← hfd] at hreg
  have hentry := mem_epollWait (b := (p.backend.waitStart p.conns maxEvents).backend) hr hreg
  have hne := all_eq_true.mp hfree _ hentry
  simp [hfd] at hne

/-- After such a `wait` every operation of the connection has been reported. -/
theorem Inv.delivered (h : p.Inv o) (hd : Delivers o p maxEvents maxConns ready connId)
    {kind : EventType} (hkind : kind ∈ kinds) :
    tally connId kind (p.step (.wait maxEvents maxConns ready)).events =
      p.accepted.count (connId, kind) := by
  have hafter := (h.wait hd.reportable maxEvents maxConns).2 connId kind hkind
  have hpending : (p.step (.wait maxEvents maxConns ready)).backend.pending = [] := by
    obtain ⟨es, -, hh⟩ := h.handled_wait hd.reportable maxEvents maxConns
    have hlt := pending_lt h hd
    refine hh.pending.trans ?_
    simp only [waitStart]
    rw [Nat.sub_eq_zero_of_le hlt.le, take_zero]
  have hout : outstanding (p.step (.wait maxEvents maxConns ready)).backend
      (p.step (.wait maxEvents maxConns ready)).connecting connId kind = 0 := by
    unfold outstanding
    split
    · rw [countP_eq_zero]
      intro q hq
      simp [connecting_delivered h hd q hq]
    · rw [remaining_delivered h hd]
      simp
  rw [hpending, hout] at hafter
  exact hafter.symm

/-- The backend after `init`, with the connections it is to serve. -/
def start (listenFd timerFd yieldTimerFd : Int) (conns : Nat → Conn) : Poller where
  backend := .init listenFd timerFd yieldTimerFd
  conns

theorem inv_start (listenFd timerFd yieldTimerFd : Int) (conns : Nat → Conn) :
    (start listenFd timerFd yieldTimerFd conns).Inv o := by
  have hspecial : ∀ fd reg, (init listenFd timerFd yieldTimerFd).interest fd = some reg →
      Special reg.connId ∧ reg.type ∉ kinds := by
    intro fd reg hreg
    simp only [init, setFdInterest, update_apply] at hreg
    split at hreg
    · cases hreg
      exact ⟨.inl rfl, by decide⟩
    split at hreg
    · cases hreg
      exact ⟨.inr rfl, by decide⟩
    split at hreg
    · cases hreg
      exact ⟨.inr rfl, by decide⟩
    · cases hreg
  refine ⟨⟨?_, ?_, ?_, ?_, ?_, ?_, ?_⟩, ?_⟩
  · intro fd reg hreg
    exact .inl (hspecial fd reg hreg)
  · intro c (hpos : (0 : Int) ≤ -1)
    exact absurd hpos (by decide)
  · intro c (hpos : (0 : Int) ≤ -1)
    exact absurd hpos (by decide)
  · intro fd reg hreg hordinary
    exact absurd (hspecial fd reg hreg).1 hordinary
  · intro c (hpos : 0 < 0)
    exact absurd hpos (by decide)
  · intro q hq
    cases hq
  · exact nodup_nil
  · intro c k _
    simp [start, init, setFdInterest, tally, outstanding]

/-- Over every run whose steps are fine, every accepted operation of a connection is reported, queued
or outstanding; and in a `wait` that is not cut off, in which the kernel reports what the connection
waits for, the last of its operations is reported. -/
theorem delivered_run (o : Owner) (listenFd timerFd yieldTimerFd : Int) (conns : Nat → Conn)
    (steps : List Step) (hfine : (start listenFd timerFd yieldTimerFd conns).Fine o steps) :
    let p := (start listenFd timerFd yieldTimerFd conns).run steps
    p.Balanced ∧ ∀ maxEvents maxConns ready connId, Delivers o p maxEvents maxConns ready connId →
      ∀ kind ∈ kinds, tally connId kind (p.step (.wait maxEvents maxConns ready)).events =
        p.accepted.count (connId, kind) := by
  have h : Inv o ((start listenFd timerFd yieldTimerFd conns).run steps) :=
    (inv_start listenFd timerFd yieldTimerFd conns).run hfine
  refine ⟨h.2, ?_⟩
  intro maxEvents maxConns ready connId hd kind hkind
  exact h.delivered hd hkind

/-- All descriptors are those of the upstreams of connection 3. -/
def upstreamOnly : Owner := ⟨fun _ => (3, true), fun _ _ _ h => by cases h⟩

/-- A connect, and three bytes of which the kernel takes one and then two. -/
def connectAndSend : List Step :=
  [.connect 3 9 .inProgress, .wait 8 8 [{ fd := 9, output := true }],
    .sendUpstream 3 9 [1, 2, 3] (.count 1) none,
    .wait 8 8 [{ fd := 9, output := true, sent := [.count 2] }]]

set_option maxRecDepth 4000 in
theorem delivered_connectAndSend : (start 0 1 2 (fun _ => {})).Fine upstreamOnly connectAndSend ∧
    ((start 0 1 2 (fun _ => {})).run connectAndSend).events.map (fun e => (e.type, e.result)) =
      [(.upstreamConnect, 0), (.upstreamSend, 3)] ∧
    ((start 0 1 2 (fun _ => {})).run connectAndSend).Balanced :=
  ⟨by decide, by decide, (delivered_run upstreamOnly 0 1 2 _ connectAndSend (by decide)).1⟩

/-- One byte for each of 65 clients, which the kernel takes at once, and a `wait`. -/
def tooManyClients : List Step :=
  (List.range 65).map (fun i => .send (.ofNat i) (10 + i) [1] (.count 1) [] none) ++ [.wait 256 65 []]

/-- A connect that has been reported, a send that the kernel takes at once, and a `wait` in which the
descriptor is still registered for the connect. -/
def sendAfterConnect : List Step :=
  [.connect 3 9 .inProgress, .wait 8 8 [{ fd := 9, output := true }],
    .sendUpstream 3 9 [1, 2, 3] (.count 3) none, .wait 8 8 [{ fd := 9, output := true }]]

set_option maxRecDepth 4000 in
/-- The completion of the last of 65 sends is lost, and a connect is reported twice. -/
theorem not_balanced :
    (((start 0 1 2 (fun _ => {})).run tooManyClients).events.length = 64 ∧
      ¬ ((start 0 1 2 (fun _ => {})).run tooManyClients).Balanced) ∧
    (tally 3 .upstreamConnect ((start 0 1 2 (fun _ => {})).run sendAfterConnect).events = 2 ∧
      ¬ ((start 0 1 2 (fun _ => {})).run sendAfterConnect).Balanced) := by
  refine ⟨⟨by decide, ?_⟩, by decide, ?_⟩
  · intro h
    exact absurd (h 64 .send (by decide)) (by decide)
  · intro h
    exact absurd (h 3 .upstreamConnect (by decide)) (by decide)

end Poller

end Rut.Io.Epoll
