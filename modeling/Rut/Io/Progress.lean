import Rut.Io.Entries

/-!
# Progress

An entry for the descriptor of an outstanding send ends it, if the kernel takes the rest; entries of
other connections leave it alone.
-/

namespace Rut.Io.Epoll

open EpollBackend List

variable {o : Owner}

/-- The kernel takes all that is left, or fails. -/
def Takes (remaining : Nat) : List Sent → Prop
  | .count n :: _ => remaining ≤ n
  | .error _ :: _ => True
  | .again :: _ => False
  | [] => False

/-- The TLS library takes all that is left, or fails. -/
def Writes (remaining : Nat) : List Written → Prop
  | .count n :: _ => remaining ≤ n + 1
  | .error _ :: _ => True
  | .want _ :: _ => False
  | [] => False

/-! ## The entry of a send -/

/-- The kernel takes the rest: the send ends. -/
theorem sendLoop_takes {answers : List Sent} {ss : SendState} (h : Takes ss.remaining answers) :
    (sendLoop answers ss).2 ≠ none := by
  cases answers with
  | nil => exact absurd h id
  | cons answer answers =>
    unfold sendLoop
    split
    · simp
    · cases answer with
      | again => exact absurd h id
      | error errno => simp
      | count n =>
        have h : ss.remaining ≤ n := h
        dsimp only
        split
        · simp
        · unfold sendLoop
          rw [if_pos (Nat.sub_eq_zero_of_le h)]
          simp

theorem writeLoop_writes {answers : List Written} {ss : SendState}
    (h : Writes ss.remaining answers) : (writeLoop answers ss).2 ≠ none := by
  cases answers with
  | nil => exact absurd h id
  | cons answer answers =>
    unfold writeLoop
    split
    · simp
    · cases answer with
      | want w => exact absurd h id
      | error result => simp
      | count n =>
        have h : ss.remaining ≤ n + 1 := h
        dsimp only
        unfold writeLoop
        rw [if_pos (Nat.sub_eq_zero_of_le h)]
        simp

/-- The entry is for the descriptor of the connection's outstanding send, and ends it. -/
structure Finishing (l : Loop) (maxConns : Nat) (ev : Event) : Prop where
  remaining : 0 < (l.backend.sendState ev.connId.toNat).remaining
  type : ev.type = (l.backend.sendState ev.connId.toNat).registeredAs
  lt : ev.connId.toNat < maxConns
  readable : ev.hasRead → 0 ≤ l.backend.recvFd ev.connId ev.type
  plain : ¬ (l.backend.sendState ev.connId.toNat).tls →
    ev.hasWrite ∧ Takes (l.backend.sendState ev.connId.toNat).remaining ev.ready.sent
  withTls : (l.backend.sendState ev.connId.toNat).tls →
    (ev.hasWrite ∨ ev.hasRead ∧
      (l.backend.sendState ev.connId.toNat).tlsWaitEvents = some .read) ∧
    Writes (l.backend.sendState ev.connId.toNat).remaining ev.ready.written

section Progress

variable {l : Loop} {connecting : List (UInt32 × Int)} {ev : Event} {maxConns : Nat}

/-- A writable descriptor ends its send. -/
theorem epollout_finishes (h : Sound o l.backend l.conns connecting)
    (hrem : 0 < (l.backend.sendState ev.connId.toNat).remaining) (hlt : ev.connId.toNat < maxConns)
    (hplain : ¬ (l.backend.sendState ev.connId.toNat).tls →
      Takes (l.backend.sendState ev.connId.toNat).remaining ev.ready.sent)
    (htls : (l.backend.sendState ev.connId.toNat).tls →
      Writes (l.backend.sendState ev.connId.toNat).remaining ev.ready.written) :
    ((l.epollout maxConns ev).backend.sendState ev.connId.toNat).remaining = 0 := by
  have harmed := h.armed ev.connId hrem
  have hresume : (resume (l.backend.sendState ev.connId.toNat)
      (l.conns ev.connId.toNat) ev.ready).2 ≠ none := by
    unfold resume
    split
    · next hss =>
      rw [if_pos (harmed.withTls hss).2.2.2.1]
      exact writeLoop_writes (htls hss)
    · next hss => exact sendLoop_takes (hplain hss)
  unfold Loop.epollout handleEpollout
  dsimp only
  rw [if_neg (Nat.not_le.mpr harmed.lt), if_neg (fun hboth => absurd hboth.2 (Nat.not_le.mpr hlt)),
    if_neg (by
      rintro (hzero | hnull | hneg)
      · omega
      · exact harmed.src hnull
      · exact absurd harmed.fd (Int.not_le.mpr hneg))]
  generalize resume (l.backend.sendState ev.connId.toNat) (l.conns ev.connId.toNat)
    ev.ready = outcome at hresume ⊢
  obtain ⟨ss, _ | result⟩ := outcome
  · exact absurd rfl hresume
  · show ((l.backend.setSendState ev.connId {}).sendState ev.connId.toNat).remaining = 0
    rw [setSendState_eq _ harmed.lt, Function.update_self]

/-- Reading never ends the handling of an entry whose plain send is outstanding. -/
theorem event_handleEpollin (h : Sound o l.backend l.conns connecting)
    (hrem : 0 < (l.backend.sendState ev.connId.toNat).remaining)
    (htype : ev.type = (l.backend.sendState ev.connId.toNat).registeredAs)
    (hss : ¬ (l.backend.sendState ev.connId.toNat).tls) (hlt : ev.connId.toNat < maxConns)
    (hfd : 0 ≤ l.backend.recvFd ev.connId ev.type) :
    ∃ result, (l.backend.handleEpollin maxConns l.conns ev.connId ev.type ev.ready).2.2 =
      .event result := by
  have harmed := h.armed ev.connId hrem
  have hrecv : ∀ buf received, ∃ result, (recvPlain buf received).2 = .event result := by
    intro buf received
    unfold recvPlain
    split
    · cases received <;> exact ⟨_, rfl⟩
    · exact ⟨_, rfl⟩
  unfold handleEpollin
  dsimp only
  rw [if_neg (by rintro (hneg | hge) <;> omega)]
  split
  · next htls =>
    -- The client's side: without a TLS object there is nothing to read from.
    have hkind : (l.backend.sendState ev.connId.toNat).type = .send := by
      rcases harmed.kind with hkind | hkind
      · exact hkind
      · rw [htype, SendState.registeredAs, if_pos hkind] at htls
        exact absurd htls.2 (by decide)
    have hobject : (l.conns ev.connId.toNat).tls = false := by
      by_contra hne
      exact (harmed.plain hss).2 hkind ⟨htls.1, by simpa using hne⟩
    exact ⟨_, by rw [acceptTls, hobject]; rfl⟩
  split
  · exact hrecv _ _
  · exact hrecv _ _

variable {maxEvents : Nat} {connId c : UInt32} {evs : List Event}

theorem epollin_finishes (h : Sound o l.backend l.conns connecting)
    (hv : Valid o l.backend connecting ev) (hf : Finishing l maxConns ev)
    (hss : ¬ (l.backend.sendState ev.connId.toNat).tls) (hread : ev.hasRead)
    (hcut : (l.epollin maxEvents maxConns ev).out.length < maxEvents) :
    ((l.epollin maxEvents maxConns ev).backend.sendState ev.connId.toNat).remaining = 0 := by
  obtain ⟨hwrite, htakes⟩ := hf.plain hss
  have hlt := (h.armed ev.connId hf.remaining).lt
  obtain ⟨result, hevent⟩ :=
    event_handleEpollin h hf.remaining hf.type hss hf.lt (hf.readable hread)
  have hreadOnly := readOnly_handleEpollin h hv maxConns
  have hrem := hf.remaining
  unfold Loop.epollin at hcut ⊢
  generalize l.backend.handleEpollin maxConns l.conns ev.connId ev.type ev.ready = outcome
    at hevent hreadOnly hcut ⊢
  obtain ⟨b', conn', read⟩ := outcome
  dsimp only at hevent hreadOnly hcut ⊢
  subst hevent
  dsimp only at hcut ⊢
  rw [← hreadOnly.sendState] at hrem hss htakes
  split at hcut
  · next hcond =>
    rw [if_pos hcond]
    exact epollout_finishes (l := ⟨b', _, _⟩) hreadOnly.sound hrem hf.lt (fun _ => htakes)
      (fun htls => absurd htls hss)
  · next hcond => exact absurd ⟨hwrite, hlt, hrem, hcut⟩ hcond

/-- An entry for its descriptor ends a send. -/
theorem handle_finishes (h : Sound o l.backend l.conns connecting)
    (hv : Valid o l.backend connecting ev) (hf : Finishing l maxConns ev)
    (hcut : (l.handle maxEvents maxConns ev).out.length < maxEvents) :
    ((l.handle maxEvents maxConns ev).backend.sendState ev.connId.toNat).remaining = 0 := by
  have harmed := h.armed ev.connId hf.remaining
  obtain ⟨hlisten, htimer⟩ := not_or.mp hv.ordinary
  have htype : ev.type = .upstreamRecv ∨ ev.type = .send := by
    rw [hf.type, SendState.registeredAs]
    split
    · exact .inl rfl
    · exact .inr rfl
  unfold Loop.handle at hcut ⊢
  dsimp only at hcut ⊢
  rw [if_neg hlisten, if_neg htimer,
    if_neg (by rcases htype with heq | heq <;> simp [heq]),
    if_neg (by rcases htype with heq | heq <;> simp [heq])] at hcut ⊢
  by_cases hss : (l.backend.sendState ev.connId.toNat).tls
  · obtain ⟨hready, hwrites⟩ := hf.withTls hss
    have hsend : ev.type = .send := by
      rw [hf.type, SendState.registeredAs, (harmed.withTls hss).1]
      rfl
    rw [if_pos ⟨hsend, harmed.lt, hss, hf.remaining⟩, if_pos hready]
    exact epollout_finishes h hf.remaining hf.lt (absurd hss) (fun _ => hwrites)
  · rw [if_neg (fun hall => hss hall.2.2.1)] at hcut ⊢
    split at hcut
    · next hread =>
      rw [if_pos hread]
      exact epollin_finishes h hv hf hss hread hcut
    · next hread =>
      obtain ⟨hwrite, htakes⟩ := hf.plain hss
      rw [if_neg hread, if_pos hwrite]
      exact epollout_finishes h hf.remaining hf.lt (fun _ => htakes) (fun htls => absurd htls hss)

/-! ## Other connections -/

/-- What an entry leaves alone of the other connections. -/
structure Apart (connId : UInt32) (b b' : EpollBackend) : Prop where
  sendState : b'.sendState connId.toNat = b.sendState connId.toNat
  downstream : b'.downstreamFdMap = b.downstreamFdMap
  upstream : b'.upstreamFdMap = b.upstreamFdMap

theorem Apart.trans {b₀ b₁ b₂ : EpollBackend} (h₁ : Apart connId b₀ b₁) (h₂ : Apart connId b₁ b₂) :
    Apart connId b₀ b₂ :=
  ⟨h₂.sendState.trans h₁.sendState, h₂.downstream.trans h₁.downstream,
    h₂.upstream.trans h₁.upstream⟩

theorem apart_setSendState (hne : c ≠ connId) (b : EpollBackend) (ss : SendState) :
    Apart c b (b.setSendState connId ss) := by
  refine ⟨?_, rfl, rfl⟩
  unfold setSendState
  dsimp only
  split
  · exact Function.update_of_ne (fun heq => hne (UInt32.toNat_inj.mp heq)) _ _
  · rfl

theorem apart_handleEpollout (hne : c ≠ connId) (maxConns : Nat) (conns : Nat → Conn)
    (b : EpollBackend) (type : EventType) (r : Ready) :
    Apart c b (b.handleEpollout maxConns conns connId type r).1 := by
  have hsame : Apart c b b := ⟨rfl, rfl, rfl⟩
  unfold handleEpollout
  split
  · exact hsame
  dsimp only
  split
  · exact hsame
  split
  · unfold rearmRecvInterest
    dsimp only
    repeat' split
    all_goals exact ⟨rfl, rfl, rfl⟩
  · generalize resume (b.sendState connId.toNat) (conns connId.toNat) r = outcome
    obtain ⟨ss, _ | result⟩ := outcome
    · have hset := apart_setSendState hne b ss
      dsimp only
      split <;> exact ⟨hset.sendState, rfl, rfl⟩
    · have hset := apart_setSendState hne b {}
      exact ⟨hset.sendState, rfl, rfl⟩

theorem apart_recvTls (c : UInt32) (b : EpollBackend) (conn : Conn) (fd : Int) (connId : UInt32)
    (type : EventType) (r : Ready) : Apart c b (b.recvTls conn fd connId type r).1 := by
  have hafter : ∀ mask, Apart c b (b.afterRead fd connId type mask) := by
    intro mask
    unfold afterRead
    split <;> exact ⟨rfl, rfl, rfl⟩
  unfold recvTls
  split
  · exact ⟨rfl, rfl, rfl⟩
  · cases r.received with
    | bytes data => exact hafter _
    | want w => exact hafter _
    | error result => exact ⟨rfl, rfl, rfl⟩

theorem apart_handleEpollin (c : UInt32) (maxConns : Nat) (conns : Nat → Conn) (b : EpollBackend)
    (connId : UInt32) (type : EventType) (r : Ready) :
    Apart c b (b.handleEpollin maxConns conns connId type r).1 := by
  have hsame : Apart c b b := ⟨rfl, rfl, rfl⟩
  unfold handleEpollin
  dsimp only
  split
  · exact hsame
  split
  · unfold acceptTls
    split
    · exact hsame
    split
    · exact apart_recvTls c b _ _ connId type r
    · cases r.handshake with
      | complete =>
        obtain ⟨hss, hdown, hup⟩ := apart_recvTls c (b.setFdInterest (b.recvFd connId type) connId type
          .epollin) { conns connId.toNat with tlsHandshakeComplete := true }
          (b.recvFd connId type) connId type r
        exact ⟨hss, hdown, hup⟩
      | want w => exact ⟨rfl, rfl, rfl⟩
      | error result => exact hsame
  split
  · exact hsame
  · exact hsame

theorem apart_epollin (hne : c ≠ ev.connId) (maxEvents maxConns : Nat) :
    Apart c l.backend (l.epollin maxEvents maxConns ev).backend := by
  have hread := apart_handleEpollin c maxConns l.conns l.backend ev.connId ev.type ev.ready
  unfold Loop.epollin
  generalize l.backend.handleEpollin maxConns l.conns ev.connId ev.type ev.ready = outcome
    at hread ⊢
  obtain ⟨b', conn', read⟩ := outcome
  cases read with
  | nothing => exact hread
  | last result => exact hread
  | event result =>
    dsimp only
    split
    · exact hread.trans (apart_handleEpollout hne maxConns _ b' ev.type ev.ready)
    · exact hread

/-- An entry leaves the sends of other connections alone. -/
theorem apart_handle (hne : c ≠ ev.connId) (maxEvents maxConns : Nat) :
    Apart c l.backend (l.handle maxEvents maxConns ev).backend := by
  have hsame : Apart c l.backend l.backend := ⟨rfl, rfl, rfl⟩
  have hin := apart_epollin (l := l) hne maxEvents maxConns
  have hout : Apart c l.backend (l.epollout maxConns ev).backend :=
    apart_handleEpollout hne maxConns l.conns l.backend ev.type ev.ready
  unfold Loop.handle
  dsimp only
  split
  · exact hsame
  split
  · unfold Loop.timer
    split <;> exact hsame
  repeat' split
  all_goals first | exact hin | exact hout | exact hsame

theorem apart_handleAll (maxEvents maxConns : Nat) (hne : ∀ ev ∈ evs, c ≠ ev.connId) (l : Loop) :
    Apart c l.backend (l.handleAll maxEvents maxConns evs).backend := by
  induction evs generalizing l with
  | nil => exact ⟨rfl, rfl, rfl⟩
  | cons ev evs ih =>
    unfold Loop.handleAll
    split
    · exact (apart_handle (hne ev mem_cons_self) maxEvents maxConns).trans
        (ih (fun ev' hev' => hne ev' (mem_cons_of_mem _ hev')) _)
    · exact ⟨rfl, rfl, rfl⟩

theorem Finishing.congr {l' : Loop} (hf : Finishing l maxConns ev)
    (h : Apart ev.connId l.backend l'.backend) : Finishing l' maxConns ev := by
  obtain ⟨hrem, htype, hlt, hreadable, hplain, htls⟩ := hf
  refine ⟨?_, ?_, hlt, ?_, ?_, ?_⟩
  · rw [h.sendState]
    exact hrem
  · rw [h.sendState]
    exact htype
  · rw [recvFd, h.downstream, h.upstream]
    exact hreadable
  · rw [h.sendState]
    exact hplain
  · rw [h.sendState]
    exact htls

/-! ## All entries -/

/-- A `wait` that is not cut off ends the outstanding send of a connection, if the kernel reports its
descriptor and takes the rest. -/
theorem handleAll_finishes (h : Sound o l.backend l.conns connecting)
    (hok : ∀ ev ∈ evs, ev.Ok o l.backend connecting) (hnodup : (evs.map (·.ready.fd)).Nodup)
    (hev : ev ∈ evs) (hf : Finishing l maxConns ev)
    (hothers : ∀ ev' ∈ evs, ev' ≠ ev → ev.connId ≠ ev'.connId)
    (hcut : (l.handleAll maxEvents maxConns evs).out.length < maxEvents) :
    ((l.handleAll maxEvents maxConns evs).backend.sendState ev.connId.toNat).remaining = 0 := by
  induction evs generalizing l connecting with
  | nil => cases hev
  | cons first evs ih =>
    unfold Loop.handleAll at hcut ⊢
    split at hcut
    · next hroom =>
      rw [if_pos hroom]
      obtain ⟨es, -, hh⟩ := handled_handle h (hok first mem_cons_self) maxEvents maxConns
      rw [map_cons, nodup_cons] at hnodup
      have hrest : ∀ ev' ∈ evs, ev'.Ok o (l.handle maxEvents maxConns first).backend
          (unreported connecting [first]) := by
        intro ev' hev'
        apply (hok ev' (mem_cons_of_mem _ hev')).next hh
        intro heq
        exact hnodup.1 (mem_map.mpr ⟨ev', hev', heq.symm⟩)
      rcases mem_cons.mp hev with rfl | hlater
      · -- This is the entry; none of the others is for the connection.
        have hapart : ∀ ev' ∈ evs, ev.connId ≠ ev'.connId := by
          intro ev' hev'
          apply hothers ev' (mem_cons_of_mem _ hev')
          rintro rfl
          exact hnodup.1 (mem_map.mpr ⟨ev', hev', rfl⟩)
        rw [(apart_handleAll maxEvents maxConns hapart _).sendState]
        have hv : Valid o l.backend connecting ev := by
          rcases (hok ev mem_cons_self).valid with ⟨hspecial, -⟩ | hv
          · exact absurd hspecial (not_special (h.armed ev.connId hf.remaining).lt)
          · exact hv
        apply handle_finishes h hv hf
        obtain ⟨es', hout', -⟩ := handled_handleAll maxEvents maxConns hh.sound hrest hnodup.2
        rw [hout', length_append] at hcut
        omega
      · have hne : first ≠ ev := by
          rintro rfl
          exact hnodup.1 (mem_map.mpr ⟨first, hlater, rfl⟩)
        have hconn := hothers first mem_cons_self hne
        exact ih hh.sound hrest hnodup.2 hlater (hf.congr (apart_handle hconn maxEvents maxConns))
          (fun ev' hev' => hothers ev' (mem_cons_of_mem _ hev')) hcut
    · next hroom => exact absurd hcut hroom

/-- A `wait` that is not cut off gets to every entry. -/
theorem reached_eq (hcut : (l.handleAll maxEvents maxConns evs).out.length < maxEvents) :
    reached maxEvents maxConns l evs = evs := by
  induction evs generalizing l with
  | nil => rfl
  | cons first evs ih =>
    unfold Loop.handleAll at hcut
    unfold reached
    split at hcut
    · next hroom => rw [if_pos hroom, ih hcut]
    · next hroom => exact absurd hcut hroom

end Progress

end Rut.Io.Epoll
