import Rut.Io.IoUring

/-!
# Accounting for sends over io_uring

A send that was accepted is in one of two situations. Either it is in one place on its way (queued,
with the kernel, or completed and not yet harvested) and nothing has been reported, or it is in no
place and one event has been reported for it. `Settled` says this for one send together with what the
entry or the event holds, and `Inv` for all of them. The rounds of `wait` keep it as long as no two
sends of a connection are on their way together, because they share the state of the connection.
-/

namespace Rut.Io

open List IoUringBackend Submission

/-! ## Where a send is -/

inductive Item where
  | sqe (q : Sqe)
  | cqe (c : Cqe)
deriving DecidableEq

namespace Item

def ticket : Item → Option Nat
  | sqe q => q.ticket
  | cqe c => c.ticket

def userData : Item → UInt64
  | sqe q => q.userData
  | cqe c => c.userData

end Item

namespace Ring

def items (r : Ring) : Multiset Item :=
  ↑(r.backend.sq.map Item.sqe) + ↑(r.inflight.map Item.sqe) + ↑(r.backend.cq.map Item.cqe)

def held (r : Ring) (t : Nat) : Multiset Item := r.items.filter (·.ticket = some t)

def answers (r : Ring) (t : Nat) : List IoEvent := r.events.filter (·.ticket = some t)

end Ring

namespace Submission

def userData (s : Submission) : UInt64 := encodeUserData s.connId s.type 0

/-- The entry asks for what is left of the send, no less and no more. -/
def Asks (s : Submission) (taken : Str) (q : Sqe) : Prop :=
  q.opcode = .send ∧ q.fd = s.fd ∧ q.userData = s.userData ∧ taken ++ q.bytes = s.buf

/-- The event answers the send: all of it, or a failure. -/
def Reports (s : Submission) (taken : Str) (e : IoEvent) : Prop :=
  e.connId = s.connId ∧ e.type = s.type ∧
    (taken = s.buf ∧ e.result = s.buf.length ∨ (taken = s.buf → s.buf = []) ∧ e.result < 0)

end Submission

/-- One place and no event, or no place and one event. -/
def Ring.Accounted (r : Ring) : Prop :=
  ∀ t s, r.submissions[t]? = some s →
    (∃ x, r.held t = {x} ∧ r.answers t = [] ∧ ∀ q, x = .sqe q → s.Asks (r.taken t) q) ∨
    (r.held t = 0 ∧ ∃ e, r.answers t = [e] ∧ s.Reports (r.taken t) e)

/-! ## What a step may do -/

/-- The submission an entry belongs to. -/
def Ring.submissionOf (r : Ring) (ticket : Option Nat) : Option Submission :=
  ticket.bind (r.submissions[·]?)

/-- A send needs a state of its own, and a count that fits `i32`. The kernel takes something of a send
that has something, and no send to the upstream ends with all its bytes taken; with a short count of
such a send to harvest there is room for what the round queues. -/
def Ring.Step.Fine (r : Ring) : Step → Prop
  | .send s => (s.connId.toNat < kMaxSendState ∧ s.buf.length < 2 ^ 31) ∧
      ∀ x ∈ r.items, ∀ s' ∈ r.submissionOf x.ticket, s'.connId ≠ s.connId
  | .complete i a => ∀ q ∈ r.inflight[i]?, ∀ s ∈ r.submissionOf q.ticket,
      (a.res = 0 → q.bytes = []) ∧ (s.upstream → q.bytes ≠ [] → a.res < q.bytes.length)
  | .harvest _ _ => (∃ c ∈ r.backend.cq, ∃ s ∈ r.submissionOf c.ticket, s.upstream ∧ 0 < c.res) →
      r.backend.sq.length + r.backend.cq.length ≤ r.backend.sqRingEntries
  | .add _ | .enter _ => True

def Ring.Fine (r : Ring) : List Step → Prop
  | [] => True
  | st :: sts => st.Fine r ∧ (r.step st).Fine sts

instance (r : Ring) : (st : Ring.Step) → Decidable (st.Fine r)
  | .send _ => inferInstanceAs (Decidable (_ ∧ _))
  | .complete i _ => inferInstanceAs (Decidable (∀ q ∈ r.inflight[i]?, _))
  | .harvest _ _ => inferInstanceAs (Decidable (_ → _))
  | .add _ => isTrue trivial
  | .enter _ => isTrue trivial

instance Ring.decidableFine (r : Ring) : (steps : List Ring.Step) → Decidable (r.Fine steps)
  | [] => isTrue trivial
  | st :: sts =>
    have := Ring.decidableFine (r.step st) sts
    inferInstanceAs (Decidable (st.Fine r ∧ (r.step st).Fine sts))

/-- `init`: an empty ring of the size the kernel has granted, with the timer read queued. -/
def Ring.start (entries : Nat) : Ring where
  backend := { sqRingEntries := entries : IoUringBackend }.submitTimerRead

/-! ## The invariant -/

variable {s : Submission}

namespace Submission

/-- The state of a connection whose send has `n` bytes behind it. -/
def slot (s : Submission) (n : Nat) : SendState where
  src := s.buf
  fd := s.fd
  offset := .ofNat n
  remaining := .ofNat (s.buf.length - n)

/-- What a completion says about the bytes taken so far. -/
inductive Counted (s : Submission) (ss : SendState) (taken : Str) (res : Int) : Prop where
  | failed (hres : res < 0) (hpart : taken = s.buf → s.buf = [])
  | empty (hres : res = 0) (hbuf : s.buf = []) (htaken : taken = [])
  | some (hres : 0 < res) (hle : res ≤ taken.length) (htaken : taken <+: s.buf)
      (hss : ss = s.slot (taken.length - res.toNat)) (hpart : s.upstream → taken ≠ s.buf)

/-- What the place holds that a send is in. -/
def Carries (s : Submission) (ss : SendState) (taken : Str) : Item → Prop
  | .sqe q => s.Asks taken q ∧ ss = s.slot taken.length ∧ (q.bytes = [] → s.buf = [])
  | .cqe c => c.userData = s.userData ∧ c.buffer = none ∧ c.more = false ∧ s.Counted ss taken c.res

def Settled (s : Submission) (ss : SendState) (taken : Str) (held : Multiset Item)
    (answers : List IoEvent) : Prop :=
  (∃ x, held = {x} ∧ answers = [] ∧ s.Carries ss taken x) ∨
  (held = 0 ∧ ∃ e, answers = [e] ∧ s.Reports taken e)

/-- The state of the connection matters only while the send is on its way. -/
theorem Settled.congr {ss ss' : SendState} {taken : Str} {held : Multiset Item}
    {answers : List IoEvent} (h : s.Settled ss taken held answers) (hss : held ≠ 0 → ss' = ss) :
    s.Settled ss' taken held answers := by
  rcases h with ⟨x, hheld, hanswers, hx⟩ | h
  · left
    rw [hss (by simp [hheld])]
    exact ⟨x, hheld, hanswers, hx⟩
  · right
    exact h

end Submission

def EventType.IsSend (t : EventType) : Prop := t = .send ∨ t = .upstreamSend

instance (t : EventType) : Decidable t.IsSend := inferInstanceAs (Decidable (_ ∨ _))

variable {cq : List Cqe} {q : Sqe}

namespace Ring

structure Inv (r : Ring) : Prop where
  /-- only sends carry tickets, and all of them do -/
  plain : ∀ x ∈ r.items, x.ticket = none → ¬ (decodeUserData x.userData).2.1.IsSend
  fresh : ∀ t, r.submissions.length ≤ t → r.held t = 0 ∧ r.answers t = [] ∧ r.taken t = []
  small : ∀ s ∈ r.submissions, s.connId.toNat < kMaxSendState ∧ s.buf.length < 2 ^ 31
  alone : ∀ (t t' : Nat) (s s' : Submission), r.submissions[t]? = some s → r.submissions[t']? = some s' →
    s.connId = s'.connId → r.held t ≠ 0 → r.held t' ≠ 0 → t = t'
  settled : ∀ (t : Nat) (s : Submission), r.submissions[t]? = some s →
    s.Settled (r.backend.sendState s.connId.toNat) (r.taken t) (r.held t) (r.answers t)

variable {r r' : Ring} {t : Nat} {x : Item} {s : Submission}

/-- The invariant is enough. -/
theorem Inv.accounted (h : r.Inv) : r.Accounted := by
  intro t s hs
  rcases h.settled t s hs with ⟨x, hheld, hanswers, hx⟩ | hdone
  · left
    refine ⟨x, hheld, hanswers, ?_⟩
    rintro q rfl
    exact hx.1
  · right
    exact hdone

theorem mem_held : x ∈ r.held t ↔ x ∈ r.items ∧ x.ticket = some t :=
  Multiset.mem_filter

theorem held_ne_zero (hx : x ∈ r.items) (ht : x.ticket = some t) : r.held t ≠ 0 := by
  intro h0
  have hmem := mem_held.mpr ⟨hx, ht⟩
  rw [h0] at hmem
  exact absurd hmem (Multiset.notMem_zero x)

/-- What is on its way with a ticket belongs to a submission and carries it. -/
theorem Inv.carried (h : r.Inv) (hx : x ∈ r.items) (ht : x.ticket = some t) :
    ∃ s, r.submissions[t]? = some s ∧ r.held t = {x} ∧ r.answers t = [] ∧
      s.Carries (r.backend.sendState s.connId.toNat) (r.taken t) x := by
  have hne := held_ne_zero hx ht
  have hlt : t < r.submissions.length := by
    by_contra hge
    exact hne (h.fresh t (Nat.le_of_not_lt hge)).1
  obtain ⟨s, hs⟩ : ∃ s, r.submissions[t]? = some s := ⟨_, List.getElem?_eq_getElem hlt⟩
  rcases h.settled t s hs with ⟨y, hheld, hanswers, hy⟩ | ⟨h0, -⟩
  · have hxy : x = y := by
      have hmem := mem_held.mpr ⟨hx, ht⟩
      rw [hheld] at hmem
      exact Multiset.mem_singleton.mp hmem
    subst hxy
    exact ⟨s, hs, hheld, hanswers, hy⟩
  · exact absurd h0 hne

/-- A step that no send takes part in. -/
theorem Inv.idle (h : r.Inv) (hsubs : r'.submissions = r.submissions)
    (hplain : ∀ x ∈ r'.items, x.ticket = none → ¬ (decodeUserData x.userData).2.1.IsSend)
    (hheld : ∀ t, r'.held t = r.held t) (hanswers : ∀ t, r'.answers t = r.answers t)
    (htaken : r'.taken = r.taken) (hss : r'.backend.sendState = r.backend.sendState) : r'.Inv where
  plain := hplain
  fresh t ht := by
    rw [hheld, hanswers, htaken]
    exact h.fresh t (hsubs ▸ ht)
  small := hsubs ▸ h.small
  alone t t' s s' := by
    rw [hsubs, hheld, hheld]
    exact h.alone t t' s s'
  settled t s hs := by
    rw [hss, htaken, hheld, hanswers]
    exact h.settled t s (hsubs ▸ hs)

/-- A step that one send takes part in. The others keep the state of their connection, because a
connection has one send on its way. -/
theorem Inv.move (h : r.Inv) (hs : r.submissions[t]? = some s) (hway : r.held t ≠ 0)
    (hsubs : r'.submissions = r.submissions)
    (hplain : ∀ x ∈ r'.items, x.ticket = none → ¬ (decodeUserData x.userData).2.1.IsSend)
    (hother : ∀ t', t' ≠ t →
      r'.held t' = r.held t' ∧ r'.answers t' = r.answers t' ∧ r'.taken t' = r.taken t')
    (hss : ∀ c, c ≠ s.connId.toNat → r'.backend.sendState c = r.backend.sendState c)
    (hsettled : s.Settled (r'.backend.sendState s.connId.toNat) (r'.taken t) (r'.held t)
      (r'.answers t)) : r'.Inv where
  plain := hplain
  fresh t' ht' := by
    have hlt : t < r.submissions.length := (List.getElem?_eq_some_iff.mp hs).1
    have hge : r.submissions.length ≤ t' := hsubs ▸ ht'
    obtain ⟨hheld, hanswers, htaken⟩ := hother t' (by omega)
    rw [hheld, hanswers, htaken]
    exact h.fresh t' hge
  small := hsubs ▸ h.small
  alone t₁ t₂ s₁ s₂ hs₁ hs₂ hconn h₁ h₂ := by
    rw [hsubs] at hs₁ hs₂
    have hheld : ∀ t', r'.held t' ≠ 0 → r.held t' ≠ 0 := by
      intro t' hne
      by_cases ht' : t' = t
      · exact ht' ▸ hway
      · rw [← (hother t' ht').1]
        exact hne
    exact h.alone t₁ t₂ s₁ s₂ hs₁ hs₂ hconn (hheld t₁ h₁) (hheld t₂ h₂)
  settled t' s' hs' := by
    rw [hsubs] at hs'
    by_cases ht' : t' = t
    · subst ht'
      obtain rfl : s' = s := Option.some.inj (hs'.symm.trans hs)
      exact hsettled
    · obtain ⟨hheld, hanswers, htaken⟩ := hother t' ht'
      rw [hheld, hanswers, htaken]
      apply (h.settled t' s' hs').congr
      intro hne
      apply hss
      intro hconn
      exact ht' (h.alone t' t s' s hs' hs (UInt32.toNat_inj.mp hconn) hne hway)

/-! ## Entries put in and taken out -/

theorem held_cons (hitems : r'.items = x ::ₘ r.items) (t : Nat) :
    r'.held t = (if x.ticket = some t then {x} else 0) + r.held t := by
  rw [held, hitems, Multiset.filter_cons, held]

/-- Another entry for no send. -/
theorem Inv.cons_plain (h : r.Inv) (hitems : r'.items = x ::ₘ r.items) (hnone : x.ticket = none)
    (hx : ¬ (decodeUserData x.userData).2.1.IsSend) (hsubs : r'.submissions = r.submissions)
    (hevents : r'.events = r.events) (htaken : r'.taken = r.taken)
    (hss : r'.backend.sendState = r.backend.sendState) : r'.Inv := by
  apply h.idle hsubs _ _ (fun t => by rw [answers, answers, hevents]) htaken hss
  · intro y hy hy0
    rw [hitems] at hy
    rcases Multiset.mem_cons.mp hy with rfl | hy
    · exact hx
    · exact h.plain y hy hy0
  · intro t
    simp [held_cons hitems, hnone]

/-- One entry for no send less, and an event that answers none. -/
theorem Inv.uncons_plain (h : r.Inv) (hitems : r.items = x ::ₘ r'.items) (hnone : x.ticket = none)
    (hsubs : r'.submissions = r.submissions) (hevents : ∀ t, r'.answers t = r.answers t)
    (htaken : r'.taken = r.taken) (hss : r'.backend.sendState = r.backend.sendState) : r'.Inv := by
  apply h.idle hsubs _ _ hevents htaken hss
  · intro y hy hy0
    exact h.plain y (hitems ▸ Multiset.mem_cons_of_mem hy) hy0
  · intro t
    simp [held_cons hitems, hnone]

/-- An entry of a send gives way to another one. -/
theorem Inv.exchange {r₀ : Ring} (h : r.Inv) {y : Item} (hx : r.items = x ::ₘ r₀.items)
    (hy : r'.items = y ::ₘ r₀.items) (hxt : x.ticket = some t) (hyt : y.ticket = some t)
    (hs : r.submissions[t]? = some s) (hsubs : r'.submissions = r.submissions)
    (hevents : r'.events = r.events) (htaken : ∀ t', t' ≠ t → r'.taken t' = r.taken t')
    (hss : ∀ c, c ≠ s.connId.toNat → r'.backend.sendState c = r.backend.sendState c)
    (hcarries : s.Carries (r'.backend.sendState s.connId.toNat) (r'.taken t) y) : r'.Inv := by
  have hmem : x ∈ r.items := hx ▸ Multiset.mem_cons_self x _
  obtain ⟨s', hs', hheld, hanswers, -⟩ := h.carried hmem hxt
  have hrest : r₀.held t = 0 := by
    rw [held_cons hx, if_pos hxt] at hheld
    exact add_eq_left.mp hheld
  apply h.move hs (held_ne_zero hmem hxt) hsubs _ _ hss
  · left
    refine ⟨y, ?_, ?_, hcarries⟩
    · rw [held_cons hy, if_pos hyt, hrest, add_zero]
    · rw [answers, hevents]
      exact hanswers
  · intro z hz hz0
    rw [hy] at hz
    rcases Multiset.mem_cons.mp hz with rfl | hz
    · rw [hyt] at hz0
      cases hz0
    · exact h.plain z (hx ▸ Multiset.mem_cons_of_mem hz) hz0
  · intro t' ht'
    have hne : some t ≠ some t' := fun heq => ht' (Option.some.inj heq).symm
    refine ⟨?_, by rw [answers, hevents, answers], htaken t' ht'⟩
    rw [held_cons hx, held_cons hy, hxt, hyt, if_neg hne, if_neg hne]

/-- The entry of a send goes, and the event comes. -/
theorem Inv.settle (h : r.Inv) {e : IoEvent} (hx : r.items = x ::ₘ r'.items)
    (hxt : x.ticket = some t) (hs : r.submissions[t]? = some s)
    (hsubs : r'.submissions = r.submissions) (hevents : r'.events = r.events ++ [e])
    (he : e.ticket = some t) (htaken : r'.taken = r.taken)
    (hss : ∀ c, c ≠ s.connId.toNat → r'.backend.sendState c = r.backend.sendState c)
    (hreports : s.Reports (r.taken t) e) : r'.Inv := by
  have hmem : x ∈ r.items := hx ▸ Multiset.mem_cons_self x _
  obtain ⟨s', hs', hheld, hanswers, -⟩ := h.carried hmem hxt
  apply h.move hs (held_ne_zero hmem hxt) hsubs _ _ hss
  · right
    refine ⟨?_, e, ?_, htaken ▸ hreports⟩
    · rw [held_cons hx, if_pos hxt] at hheld
      exact add_eq_left.mp hheld
    · have hnil : r.events.filter (·.ticket = some t) = [] := hanswers
      simp [answers, hevents, hnil, he]
  · intro z hz hz0
    exact h.plain z (hx ▸ Multiset.mem_cons_of_mem hz) hz0
  · intro t' ht'
    have hne : some t ≠ some t' := fun heq => ht' (Option.some.inj heq).symm
    refine ⟨?_, ?_, by rw [htaken]⟩
    · rw [held_cons hx, hxt, if_neg hne, zero_add]
    · simp [answers, hevents, he, Ne.symm ht']

theorem items_push (r : Ring) (q : Sqe) :
    { r with backend := { r.backend with sq := r.backend.sq ++ [q] } }.items = .sqe q ::ₘ r.items := by
  simp only [items, map_append, map_cons, map_nil, ← Multiset.coe_add,
    Multiset.coe_singleton, ← Multiset.singleton_add]
  abel

theorem items_pop (r : Ring) {c : Cqe} (hcq : r.backend.cq = c :: cq) :
    r.items = .cqe c ::ₘ { r with backend := { r.backend with cq } }.items := by
  simp only [items, hcq, map_cons, ← Multiset.cons_coe, ← Multiset.singleton_add]
  abel

theorem items_post (r : Ring) (c : Cqe) (ticks : UInt64) :
    { r with backend := { r.backend with cq := r.backend.cq ++ [c], timerTicksBuf := ticks } }.items =
      .cqe c ::ₘ r.items := by
  simp only [items, map_append, map_cons, map_nil, ← Multiset.coe_add,
    Multiset.coe_singleton, ← Multiset.singleton_add]
  abel

theorem items_take (r : Ring) {i : Nat} (hq : r.inflight[i]? = some q) :
    r.items = .sqe q ::ₘ { r with inflight := r.inflight.eraseIdx i }.items := by
  obtain ⟨hi, hq⟩ := List.getElem?_eq_some_iff.mp hq
  have hperm : ((r.inflight.map Item.sqe : List Item) : Multiset Item) =
      ↑((q :: r.inflight.eraseIdx i).map Item.sqe) := by
    apply Multiset.coe_eq_coe.mpr
    apply List.Perm.map
    exact (hq ▸ getElem_cons_eraseIdx_perm hi).symm
  simp only [items, hperm, map_cons, ← Multiset.cons_coe, ← Multiset.singleton_add]
  abel

end Ring

variable {b b' : IoUringBackend}

namespace IoUringBackend

theorem push_eq_some (h : b.push q = some b') :
    b.sq.length < b.sqRingEntries ∧ b' = { b with sq := b.sq ++ [q] } := by
  unfold push at h
  split at h
  · cases h
  · next hroom => exact ⟨Nat.lt_of_not_le hroom, (Option.some.inj h).symm⟩

theorem push_eq_none (h : b.push q = none) :
    b.sqRingEntries ≤ b.sq.length := by
  unfold push at h
  split at h
  · assumption
  · cases h

end IoUringBackend

namespace Ring

variable {r : Ring}

theorem Inv.push_plain (h : r.Inv) (hb : r.backend.push q = some b)
    (hnone : q.ticket = none) (hq : ¬ (decodeUserData q.userData).2.1.IsSend) :
    { r with backend := b }.Inv := by
  obtain ⟨-, rfl⟩ := push_eq_some hb
  exact h.cons_plain (items_push r q) hnone hq rfl rfl rfl rfl

theorem Inv.submitTimerRead (h : r.Inv) : { r with backend := r.backend.submitTimerRead }.Inv := by
  unfold IoUringBackend.submitTimerRead
  split
  · exact h
  · split
    · exact h
    · next b hb =>
      have hpush := h.push_plain hb rfl (by
        show ¬ (decodeUserData (encodeUserData kTimerConnId .timeout 0)).2.1.IsSend
        rw [decode_encodeUserData]
        decide)
      exact hpush.idle rfl hpush.plain (fun _ => rfl) (fun _ => rfl) rfl rfl

/-! ## The steps outside `harvest` -/

theorem Op.add_plain {op : Op} (h : op.add b = some b') :
    ∃ q : Sqe, b.push q = some b' ∧ q.ticket = none ∧
      ¬ (decodeUserData q.userData).2.1.IsSend := by
  cases op <;> exact ⟨_, h, rfl, by rw [decode_encodeUserData]; simp [EventType.IsSend]⟩

theorem Inv.add (h : r.Inv) (op : Op) : (r.add op).Inv := by
  unfold Ring.add
  cases hadd : op.add r.backend with
  | none => exact h
  | some b =>
    obtain ⟨q, hb, hnone, hq⟩ := Op.add_plain hadd
    exact h.push_plain hb hnone hq

theorem Inv.enter (h : r.Inv) (n : Nat) : (r.enter n).Inv := by
  have htimer := h.submitTimerRead
  have hitems : (r.enter n).items = { r with backend := r.backend.submitTimerRead }.items := by
    have hsplit := congrArg (fun l : List Sqe => ((l.map Item.sqe : List Item) : Multiset Item))
      (take_append_drop n r.backend.submitTimerRead.sq)
    simp only [map_append, ← Multiset.coe_add] at hsplit
    simp only [items, Ring.enter, map_append, ← Multiset.coe_add]
    rw [← hsplit]
    abel
  refine htimer.idle ?_ ?_ ?_ ?_ ?_ ?_
  · rfl
  · rw [hitems]
    exact htimer.plain
  · intro t
    rw [held, hitems, held]
  · intro t
    rfl
  · rfl
  · rfl

/-- A new send is queued under its ticket. -/
theorem Inv.send (h : r.Inv) (hfine : (Step.send s).Fine r) : (r.send s).Inv := by
  obtain ⟨hsmall, hfree⟩ := hfine
  unfold Ring.send IoUringBackend.submitSend
  cases hpush : r.backend.push _ with
  | none => exact h
  | some b =>
    obtain ⟨-, rfl⟩ := push_eq_some hpush
    set q : Sqe := ⟨.send, s.fd, s.buf, encodeUserData s.connId s.type 0, some r.submissions.length⟩
      with hq
    set r' : Ring := { r with
      backend := { r.backend with sq := r.backend.sq ++ [q] }.setSendState s.connId
        ⟨s.buf, s.fd, 0, .ofNat s.buf.length⟩
      submissions := r.submissions ++ [s] } with hr'
    show r'.Inv
    have hitems : r'.items = .sqe q ::ₘ r.items := items_push r q
    have hheld : ∀ t, t ≠ r.submissions.length → r'.held t = r.held t := by
      intro t ht
      rw [held_cons hitems, if_neg, zero_add]
      exact fun heq => ht (Option.some.inj heq).symm
    have hold : ∀ t s', (r.submissions ++ [s])[t]? = some s' →
        r.submissions[t]? = some s' ∧ t ≠ r.submissions.length ∨
        t = r.submissions.length ∧ s' = s := by
      intro t s' ht
      rw [List.getElem?_append] at ht
      split at ht
      · next hlt => exact .inl ⟨ht, Nat.ne_of_lt hlt⟩
      · next hge =>
        have h0 : t - r.submissions.length = 0 := by
          have := (List.getElem?_eq_some_iff.mp ht).1
          simpa using this
        rw [h0] at ht
        exact .inr ⟨by omega, (Option.some.inj ht).symm⟩
    -- No send of this connection is on its way.
    have hfree' : ∀ t s', r.submissions[t]? = some s' → s'.connId = s.connId → r.held t = 0 := by
      intro t s' hs' hconn
      by_contra hne
      obtain ⟨x, hx⟩ := Multiset.exists_mem_of_ne_zero hne
      obtain ⟨hx, hxt⟩ := mem_held.mp hx
      apply hfree x hx s' _ hconn
      rw [submissionOf, hxt]
      exact hs'
    have hnew : r'.held r.submissions.length = {.sqe q} := by
      rw [held_cons hitems, (h.fresh _ le_rfl).1, add_zero]
      exact if_pos rfl
    refine ⟨?_, ?_, ?_, ?_, ?_⟩
    · intro x hx hx0
      rw [hitems] at hx
      rcases Multiset.mem_cons.mp hx with rfl | hx
      · cases hx0
      · exact h.plain x hx hx0
    · intro t ht
      have hlt : r.submissions.length + 1 ≤ t := by simpa [hr'] using ht
      rw [hheld t (by omega)]
      exact h.fresh t (by omega)
    · intro s' hs'
      rcases mem_append.mp hs' with hs' | hs'
      · exact h.small s' hs'
      · exact mem_singleton.mp hs' ▸ hsmall
    · intro t₁ t₂ s₁ s₂ hs₁ hs₂ hconn h₁ h₂
      rcases hold t₁ s₁ hs₁ with ⟨hold₁, ht₁⟩ | ⟨ht₁, rfl⟩ <;>
        rcases hold t₂ s₂ hs₂ with ⟨hold₂, ht₂⟩ | ⟨ht₂, rfl⟩
      · rw [hheld _ ht₁] at h₁
        rw [hheld _ ht₂] at h₂
        exact h.alone t₁ t₂ s₁ s₂ hold₁ hold₂ hconn h₁ h₂
      · rw [hheld _ ht₁] at h₁
        exact absurd (hfree' t₁ s₁ hold₁ hconn) h₁
      · rw [hheld _ ht₂] at h₂
        exact absurd (hfree' t₂ s₂ hold₂ hconn.symm) h₂
      · exact ht₁.trans ht₂.symm
    · intro t s' hs'
      rcases hold t s' hs' with ⟨hs', ht⟩ | ⟨rfl, rfl⟩
      · rw [hheld t ht]
        apply (h.settled t s' hs').congr
        intro hne
        have hconn : s'.connId.toNat ≠ s.connId.toNat := by
          intro hconn
          exact hne (hfree' t s' hs' (UInt32.toNat_inj.mp hconn))
        simp [hr', setSendState, hsmall.1, hconn]
      · obtain ⟨-, hanswers, htaken⟩ := h.fresh _ (le_refl r.submissions.length)
        left
        refine ⟨.sqe q, hnew, hanswers, ?_⟩
        show s'.Carries _ (r.taken r.submissions.length) (.sqe q)
        rw [htaken]
        refine ⟨⟨rfl, rfl, rfl, rfl⟩, ?_, id⟩
        simp [hr', setSendState, hsmall.1, slot]

end Ring

/-- A completion of a send, over what was taken before it. -/
theorem Submission.counted_post {taken : Str} {a : Answer}
    (hq : s.Asks taken q) (hbytes : q.bytes = [] → s.buf = []) (hzero : a.res = 0 → q.bytes = [])
    (hpart : s.upstream → q.bytes ≠ [] → a.res < q.bytes.length) :
    s.Counted (s.slot taken.length) (taken ++ q.bytes.take (min a.res q.bytes.length).toNat)
      (min a.res q.bytes.length) := by
  obtain ⟨-, -, -, hbuf⟩ := hq
  rcases lt_trichotomy (min a.res q.bytes.length) 0 with hneg | hnil | hpos
  · apply Submission.Counted.failed hneg
    intro hall
    rw [Int.toNat_of_nonpos hneg.le, take_zero, append_nil] at hall
    apply hbytes
    rw [hall] at hbuf
    exact append_right_eq_self.mp hbuf
  · have hnone : q.bytes = [] := by
      rcases min_choice a.res q.bytes.length with hmin | hmin
      · exact hzero (hmin ▸ hnil)
      · rw [hmin] at hnil
        exact length_eq_zero_iff.mp (Int.natCast_eq_zero.mp hnil)
    refine .empty hnil (hbytes hnone) ?_
    rw [hbytes hnone, hnone, append_nil] at hbuf
    rw [hnone, hbuf, take_nil, append_nil]
  · have hle : (min a.res q.bytes.length).toNat ≤ q.bytes.length := by omega
    have hlen : (taken ++ q.bytes.take (min a.res q.bytes.length).toNat).length =
        taken.length + (min a.res q.bytes.length).toNat := by
      rw [length_append, length_take, min_eq_left hle]
    refine .some hpos (by omega) ?_ ?_ ?_
    · rw [← hbuf]
      exact (prefix_append_right_inj taken).mpr (List.take_prefix _ _)
    · rw [hlen, Nat.add_sub_cancel_right]
    · intro hup hall
      have hne : q.bytes ≠ [] := by
        intro hnil
        simp [hnil] at hpos
      have hlt := hpart hup hne
      have := congrArg List.length (hall.trans hbuf.symm)
      rw [hlen, length_append] at this
      omega

namespace Ring

variable {r : Ring}

/-- A completion takes the place of its entry. -/
theorem Inv.complete (h : r.Inv) {i : Nat} {a : Answer} (hfine : (Step.complete i a).Fine r) :
    (r.complete i a).Inv := by
  unfold Ring.complete
  cases hi : r.inflight[i]? with
  | none => exact h
  | some q =>
    have htake := items_take r hi
    have hmem : Item.sqe q ∈ r.items := htake ▸ Multiset.mem_cons_self _ _
    cases hticket : q.ticket with
    | none =>
      have hq := h.plain _ hmem hticket
      have hpost : (a.post q).ticket = none ∧ (a.post q).userData = q.userData := by
        unfold Answer.post
        split <;> exact ⟨hticket, rfl⟩
      have hrest : { r with
          inflight := if (a.post q).more then r.inflight else r.inflight.eraseIdx i }.Inv := by
        split
        · exact h
        · exact h.uncons_plain htake hticket rfl (fun _ => rfl) rfl rfl
      have hc : ¬ (decodeUserData (Item.cqe (a.post q)).userData).2.1.IsSend := by
        show ¬ (decodeUserData (a.post q).userData).2.1.IsSend
        rw [hpost.2]
        exact hq
      simp only [hticket]
      exact hrest.cons_plain (x := .cqe (a.post q)) (items_post { r with
        inflight := if (a.post q).more then r.inflight else r.inflight.eraseIdx i } _ _)
        hpost.1 hc rfl rfl rfl rfl
    | some t =>
      obtain ⟨s, hs, -, -, hasks, hss, hbytes⟩ := h.carried hmem hticket
      have hsub : s ∈ r.submissionOf q.ticket := by
        rw [submissionOf, hticket]
        exact hs
      obtain ⟨hzero, hpart⟩ := hfine q hi s hsub
      have hpost : a.post q =
          { userData := s.userData, res := min a.res q.bytes.length, ticket := some t } := by
        rw [Answer.post, if_pos hasks.1, hticket, hasks.2.2.1]
      simp only [hpost, hticket]
      refine h.exchange htake (items_post { r with inflight := r.inflight.eraseIdx i } _ _)
        hticket rfl hs rfl rfl ?_ (fun _ _ => rfl) ?_
      · intro t' ht'
        exact Function.update_of_ne ht' _ _
      · refine ⟨rfl, rfl, rfl, ?_⟩
        show s.Counted (r.backend.sendState s.connId.toNat) (Function.update r.taken t _ t) _
        rw [Function.update_self, hss]
        exact counted_post hasks hbytes hzero hpart

/-! ## The rounds of `harvest` -/

/-- An event that answers no send, and whatever was received. -/
theorem Inv.report (h : r.Inv) (conns : Nat → RecvBufs) {event : Option IoEvent}
    (hnone : ∀ e ∈ event, e.ticket = none) :
    { r with conns, events := r.events ++ event.toList }.Inv := by
  refine h.idle ?_ ?_ ?_ ?_ ?_ ?_
  · rfl
  · exact h.plain
  · intro t
    rfl
  · intro t
    cases event with
    | none => simp [answers]
    | some e => simp [answers, hnone e rfl]
  · rfl
  · rfl

theorem harvestBuffer_backend (maxConns : Nat) (b : IoUringBackend) (conns : Nat → RecvBufs)
    (cqe : Cqe) (connId : UInt32) (type : EventType) (bufId : UInt16) (data : Str) :
    (b.harvestBuffer maxConns conns cqe connId type bufId data).backend =
        { b with returned := b.returned ++ [bufId] } ∧
      ∀ e ∈ (b.harvestBuffer maxConns conns cqe connId type bufId data).event, e.ticket = none := by
  unfold harvestBuffer
  dsimp only
  split
  · split <;> simp
  · simp

/-- A completion of something else than a send. -/
theorem Inv.harvest_plain (h : r.Inv) (maxConns : Nat) {cqe : Cqe}
    (hcq : r.backend.cq = cqe :: cq) (hnone : cqe.ticket = none) :
    (r.harvestCqe maxConns cqe cq).Inv := by
  have hpop := items_pop r hcq
  have hplain := h.plain (.cqe cqe) (hpop ▸ Multiset.mem_cons_self _ _) hnone
  have hrest : { r with backend := { r.backend with cq } }.Inv :=
    h.uncons_plain hpop hnone rfl (fun _ => rfl) rfl rfl
  have hkeep : ∀ b : IoUringBackend, b.sq = r.backend.sq → b.cq = cq →
      b.sendState = r.backend.sendState → { r with backend := b }.Inv := by
    intro b hsq hbcq hss
    have hitems : { r with backend := b }.items =
        { r with backend := { r.backend with cq } }.items := by
      rw [items, items, hsq, hbcq]
    refine hrest.idle ?_ ?_ ?_ ?_ ?_ hss
    · rfl
    · rw [hitems]
      exact hrest.plain
    · intro t
      rw [held, hitems, held]
    · intro t
      rfl
    · rfl
  unfold Ring.harvestCqe IoUringBackend.harvestCqe
  change ¬ (decodeUserData cqe.userData).2.1.IsSend at hplain
  generalize decodeUserData cqe.userData = d at hplain ⊢
  obtain ⟨connId, type, aux⟩ := d
  dsimp only at hplain ⊢
  split
  · exact @Inv.report _ hrest r.conns none (by simp)
  split
  · have htimer := (hkeep { r.backend with cq, timerReadArmed := false } rfl rfl rfl).submitTimerRead
    apply htimer.report r.conns
    intro e he
    simp only [IoUringBackend.harvestTimer] at he
    split at he
    · cases he
      rfl
    · cases he
  split
  · next bufId data _ =>
    obtain ⟨hbackend, hevent⟩ := harvestBuffer_backend maxConns { r.backend with cq } r.conns cqe
      connId type bufId data
    rw [hbackend]
    have hgiven := hkeep { r.backend with cq, returned := r.backend.returned ++ [bufId] } rfl rfl rfl
    exact hgiven.report _ hevent
  · rw [if_neg (fun hsend => hplain hsend.1.1)]
    apply hrest.report r.conns
    intro e he
    cases he
    exact hnone

end Ring

namespace Submission

variable {s : Submission}

theorem type_of_not_upstream (h : ¬ s.upstream) : s.type = .send := if_neg h

theorem isSend_type (s : Submission) : s.type.IsSend := by
  unfold type
  split
  · exact .inr rfl
  · exact .inl rfl

theorem slot_advance {n k : Nat} (h : n + k ≤ s.buf.length) :
    { s.slot n with offset := (s.slot n).offset + .ofNat k
                    remaining := (s.slot n).remaining - .ofNat k } = s.slot (n + k) := by
  have hsub : s.buf.length - (n + k) = s.buf.length - n - k := by omega
  simp only [slot, UInt32.ofNat_add, hsub, UInt32.ofNat_sub (show k ≤ s.buf.length - n by omega)]

theorem slot_remaining (hsmall : s.buf.length < 2 ^ 31) (n : Nat) :
    (s.slot n).remaining.toNat = s.buf.length - n := by
  rw [slot, UInt32.toNat_ofNat', Nat.mod_eq_of_lt (by omega)]

theorem slot_offset (hsmall : s.buf.length < 2 ^ 31) {n : Nat} (hn : n ≤ s.buf.length) :
    (s.slot n).offset.toNat = n := by
  rw [slot, UInt32.toNat_ofNat', Nat.mod_eq_of_lt (by omega)]

end Submission

namespace Ring

variable {cqe : Cqe}

theorem harvestSend_eq (conns : Nat → RecvBufs) {connId : UInt32}
    (type : EventType) {ss : SendState} (hss : { b.sendState connId.toNat with
        offset := (b.sendState connId.toNat).offset + .ofNat cqe.res.toNat
        remaining := (b.sendState connId.toNat).remaining - .ofNat cqe.res.toNat } = ss) :
    b.harvestSend conns cqe connId type =
      if 0 < ss.remaining then
        match b.push ⟨.send, ss.fd, (ss.src.drop ss.offset.toNat).take ss.remaining.toNat,
            encodeUserData connId type 0, cqe.ticket⟩ with
        | some b => ⟨b.setSendState connId ss, conns, none⟩
        | none => ⟨b.setSendState connId { ss with remaining := 0 }, conns,
            some ⟨connId, .send, -kENOSPC, false, cqe.ticket⟩⟩
      else ⟨b.setSendState connId ss, conns,
        some ⟨connId, .send, toI32 ss.offset, false, cqe.ticket⟩⟩ := by
  subst hss
  rfl

/-- A count of bytes: the rest in the queue again, a failure for want of room there, or the total. -/
theorem Inv.harvest_count {r : Ring} (h : r.Inv) {t : Nat}
    (hpop : r.items = .cqe cqe ::ₘ { r with backend := { r.backend with cq } }.items)
    (ht : cqe.ticket = some t) (hs : r.submissions[t]? = some s)
    (hroom : s.upstream → r.backend.sq.length < r.backend.sqRingEntries)
    (hpre : r.taken t <+: s.buf) (hpart : s.upstream → r.taken t ≠ s.buf)
    (hadvance : { r.backend.sendState s.connId.toNat with
        offset := (r.backend.sendState s.connId.toNat).offset + .ofNat cqe.res.toNat
        remaining := (r.backend.sendState s.connId.toNat).remaining - .ofNat cqe.res.toNat } =
      s.slot (r.taken t).length) :
    let h := { r.backend with cq }.harvestSend r.conns cqe s.connId s.type
    { r with backend := h.backend, conns := h.conns, events := r.events ++ h.event.toList }.Inv := by
  obtain ⟨hconn, hlen⟩ := h.small s (mem_of_getElem? hs)
  have htaken := hpre.length_le
  have hstate : ∀ (b : IoUringBackend) (ss : SendState) (c : Nat), c ≠ s.connId.toNat →
      (b.setSendState s.connId ss).sendState c = b.sendState c := by
    intro b ss c hc
    simp [setSendState, hconn, hc]
  dsimp only
  rw [harvestSend_eq (b := { r.backend with cq }) r.conns s.type hadvance]
  split
  · next hrem =>
    rw [UInt32.lt_iff_toNat_lt, slot_remaining hlen] at hrem
    change 0 < _ at hrem
    cases hpush : { r.backend with cq }.push _ with
    | some b =>
      obtain ⟨-, rfl⟩ := push_eq_some hpush
      simp only [Option.toList_none, append_nil]
      refine h.exchange hpop (items_push { r with backend := { r.backend with cq } } _) ht ht hs
        rfl rfl (fun _ _ => rfl) (hstate _ _) ⟨⟨rfl, rfl, rfl, ?_⟩, ?_, ?_⟩
      · rw [slot_offset hlen htaken, slot_remaining hlen,
          take_of_length_le (by simp [slot])]
        exact prefix_iff_eq_append.mp hpre
      · simp [setSendState, hconn]
      · intro hnil
        rw [slot_offset hlen htaken, slot_remaining hlen,
          take_of_length_le (by simp [slot]), drop_eq_nil_iff] at hnil
        change s.buf.length ≤ _ at hnil
        omega
    | none =>
      have hfull := push_eq_none (b := { r.backend with cq }) hpush
      have hup : ¬ s.upstream := fun hup => absurd (hroom hup) (not_lt.mpr hfull)
      refine h.settle hpop ht hs rfl rfl ht rfl (hstate _ _) ⟨rfl, ?_, .inr ⟨?_, ?_⟩⟩
      · exact (type_of_not_upstream hup).symm
      · intro hall
        rw [hall] at hrem
        omega
      · show -((kENOSPC : Nat) : Int) < 0
        decide
  · next hrem =>
    rw [UInt32.lt_iff_toNat_lt, slot_remaining hlen] at hrem
    change ¬ 0 < _ at hrem
    have hall : r.taken t = s.buf := hpre.eq_of_length (by omega)
    have hup : ¬ s.upstream := fun hup => hpart hup hall
    refine h.settle hpop ht hs rfl rfl ht rfl (hstate _ _) ⟨rfl, ?_, .inl ⟨hall, ?_⟩⟩
    · exact (type_of_not_upstream hup).symm
    · show toI32 (s.slot (r.taken t).length).offset = s.buf.length
      rw [toI32, slot_offset hlen htaken, hall, if_pos hlen]

/-- A completion of a send: a count, or an event as the completion says. -/
theorem Inv.harvest_send {r : Ring} (h : r.Inv) (maxConns : Nat) {t : Nat}
    (hcq : r.backend.cq = cqe :: cq) (ht : cqe.ticket = some t)
    (hroom : ∀ s ∈ r.submissionOf cqe.ticket, s.upstream → 0 < cqe.res →
      r.backend.sq.length < r.backend.sqRingEntries) : (r.harvestCqe maxConns cqe cq).Inv := by
  have hpop := items_pop r hcq
  obtain ⟨s, hs, -, -, hdata, hbuffer, hmore, hcounted⟩ :=
    h.carried (x := .cqe cqe) (hpop ▸ Multiset.mem_cons_self _ _) ht
  have hsub : s ∈ r.submissionOf cqe.ticket := by
    rw [submissionOf, ht]
    exact hs
  obtain ⟨hconn, hlen⟩ := h.small s (mem_of_getElem? hs)
  have hdecode : decodeUserData cqe.userData = (s.connId, s.type, 0) := by
    rw [hdata]
    exact decode_encodeUserData_of_lt (hconn.trans (by decide)) _ _
  have hcancel : s.connId ≠ kCancelConnId := by
    intro heq
    rw [heq] at hconn
    exact absurd hconn (by decide)
  have htimer : ¬ (s.connId = kTimerConnId ∧ s.type = .timeout) := by
    rintro ⟨heq, -⟩
    rw [heq] at hconn
    exact absurd hconn (by decide)
  have htype : s.type ≠ .handlerTimer := by
    rcases s.isSend_type with heq | heq <;> rw [heq] <;> decide
  unfold Ring.harvestCqe IoUringBackend.harvestCqe
  simp only [hdecode, if_neg hcancel, if_neg htimer, hbuffer]
  -- Reported as it is: a failure, or a send of nothing.
  have hdefault : s.Reports (r.taken t) ⟨s.connId, s.type, cqe.res, cqe.more, cqe.ticket⟩ →
      ({ r with
          backend := { r.backend with cq }
          events := r.events ++ [⟨s.connId, s.type, cqe.res, cqe.more, cqe.ticket⟩] } : Ring).Inv := by
    intro hreports
    exact h.settle hpop ht hs rfl rfl ht rfl (fun _ _ => rfl) hreports
  cases hcounted with
  | failed hres hpart =>
    rw [if_neg (fun hsend => absurd hsend.2.1 (not_lt.mpr hres.le))]
    simp only [IoUringBackend.harvestDefault, if_neg htype]
    exact hdefault ⟨rfl, rfl, .inr ⟨hpart, hres⟩⟩
  | empty hres hbuf htaken =>
    rw [if_neg (fun hsend => absurd hsend.2.1 (not_lt.mpr hres.le))]
    simp only [IoUringBackend.harvestDefault, if_neg htype]
    exact hdefault ⟨rfl, rfl, .inl ⟨htaken.trans hbuf.symm, by simp [hres, hbuf]⟩⟩
  | some hres hle hpre hss hpart =>
    have htaken := hpre.length_le
    have hpos : 0 < (r.backend.sendState s.connId.toNat).remaining := by
      rw [hss, UInt32.lt_iff_toNat_lt, slot_remaining hlen]
      show 0 < _
      omega
    rw [if_pos ⟨⟨s.isSend_type, hconn⟩, hres, hpos⟩]
    apply h.harvest_count hpop ht hs (fun hup => hroom s hsub hup hres) hpre hpart
    have hadvance := slot_advance (s := s) (n := (r.taken t).length - cqe.res.toNat)
      (k := cqe.res.toNat) (by omega)
    rw [← hss, Nat.sub_add_cancel (by omega)] at hadvance
    exact hadvance

end Ring

/-! ## The loop -/

namespace IoUringBackend

/-- A round leaves the completions behind it alone, and queues at most one entry. -/
structure Kept (b b' : IoUringBackend) : Prop where
  cq : b'.cq = b.cq
  sqRingEntries : b'.sqRingEntries = b.sqRingEntries
  sq : b'.sq.length ≤ b.sq.length + 1

theorem Kept.of_push (h : b.push q = some b') : Kept b b' := by
  obtain ⟨-, rfl⟩ := push_eq_some h
  exact ⟨rfl, rfl, by simp⟩

theorem kept_submitTimerRead (b : IoUringBackend) : Kept b b.submitTimerRead := by
  unfold submitTimerRead
  split
  · exact ⟨rfl, rfl, by simp⟩
  · split
    · exact ⟨rfl, rfl, by simp⟩
    · next hpush =>
      obtain ⟨hcq, hentries, hsq⟩ := Kept.of_push hpush
      exact ⟨hcq, hentries, hsq⟩

theorem kept_harvestSend (b : IoUringBackend) (conns : Nat → RecvBufs) (cqe : Cqe) (connId : UInt32)
    (type : EventType) : Kept b (b.harvestSend conns cqe connId type).backend := by
  rw [Ring.harvestSend_eq conns type rfl]
  split
  · cases hpush : b.push _ with
    | some b' =>
      obtain ⟨hcq, hentries, hsq⟩ := Kept.of_push hpush
      exact ⟨hcq, hentries, hsq⟩
    | none => exact ⟨rfl, rfl, by simp [setSendState]⟩
  · exact ⟨rfl, rfl, by simp [setSendState]⟩

theorem kept_harvestCqe (maxConns : Nat) (b : IoUringBackend) (conns : Nat → RecvBufs) (cqe : Cqe) :
    Kept b (b.harvestCqe maxConns conns cqe).backend := by
  unfold harvestCqe
  generalize decodeUserData cqe.userData = d
  obtain ⟨connId, type, aux⟩ := d
  dsimp only
  split
  · exact ⟨rfl, rfl, by simp⟩
  split
  · obtain ⟨hcq, hentries, hsq⟩ := kept_submitTimerRead { b with timerReadArmed := false }
    exact ⟨hcq, hentries, hsq⟩
  split
  · rw [(Ring.harvestBuffer_backend maxConns b conns cqe connId type _ _).1]
    exact ⟨rfl, rfl, by simp⟩
  split
  · exact kept_harvestSend b conns cqe connId type
  · exact ⟨rfl, rfl, by simp [harvestDefault]⟩

end IoUringBackend

namespace Ring

theorem harvestCqe_cq (r : Ring) (maxConns : Nat) (cqe : Cqe) (cq : List Cqe) :
    (r.harvestCqe maxConns cqe cq).backend.cq = cq :=
  (kept_harvestCqe maxConns { r.backend with cq } r.conns cqe).cq

theorem harvestCqe_events (r : Ring) (maxConns : Nat) (cqe : Cqe) (cq : List Cqe) :
    (r.harvestCqe maxConns cqe cq).events.length ≤ r.events.length + 1 := by
  simp only [harvestCqe, length_append]
  cases ({ r.backend with cq }.harvestCqe maxConns r.conns cqe).event <;> simp

variable {r : Ring}

theorem Inv.harvestCqe (h : r.Inv) (maxConns : Nat) {cqe : Cqe}
    (hcq : r.backend.cq = cqe :: cq)
    (hroom : ∀ s ∈ r.submissionOf cqe.ticket, s.upstream → 0 < cqe.res →
      r.backend.sq.length < r.backend.sqRingEntries) : (r.harvestCqe maxConns cqe cq).Inv := by
  cases ht : cqe.ticket with
  | none => exact h.harvest_plain maxConns hcq ht
  | some t => exact h.harvest_send maxConns hcq ht hroom

/-- All rounds of a `wait`. -/
theorem Inv.harvestLoop (h : r.Inv) (maxConns cqes room : Nat)
    (hroom : (∃ c ∈ r.backend.cq, ∃ s ∈ r.submissionOf c.ticket, s.upstream ∧ 0 < c.res) →
      r.backend.sq.length + r.backend.cq.length ≤ r.backend.sqRingEntries) :
    (r.harvestLoop maxConns cqes room).Inv := by
  induction cqes generalizing room r with
  | zero => exact h
  | succ cqes ih =>
    unfold Ring.harvestLoop
    split
    · exact h
    · next cqe cq hcq =>
      split
      · exact h
      -- The round takes one completion off and queues at most one entry, so the room stays.
      · obtain ⟨hcq', hentries, hsq⟩ :=
          kept_harvestCqe maxConns { r.backend with cq } r.conns cqe
        rw [hcq, length_cons] at hroom
        have hround := h.harvestCqe maxConns hcq (fun s hs hup hres => by
          have := hroom ⟨cqe, mem_cons_self, s, hs, hup, hres⟩
          omega)
        apply ih hround
        rintro ⟨c, hc, hup⟩
        rw [harvestCqe_cq] at hc ⊢
        have := hroom ⟨c, mem_cons_of_mem _ hc, hup⟩
        change _ ≤ r.backend.sq.length + 1 at hsq
        show (({ r.backend with cq }.harvestCqe maxConns r.conns cqe).backend.sq.length) + cq.length ≤
          ({ r.backend with cq }.harvestCqe maxConns r.conns cqe).backend.sqRingEntries
        rw [hentries]
        show _ ≤ r.backend.sqRingEntries
        omega

/-- With room for an event for each of them, no completion is left behind. -/
theorem harvestLoop_cq (r : Ring) (maxConns : Nat) {cqes room : Nat}
    (hcqes : r.backend.cq.length ≤ cqes) (hroom : r.backend.cq.length ≤ room) :
    (r.harvestLoop maxConns cqes room).backend.cq = [] := by
  induction cqes generalizing room r with
  | zero => exact length_eq_zero_iff.mp (Nat.le_zero.mp hcqes)
  | succ cqes ih =>
    unfold harvestLoop
    split
    · assumption
    · next cqe cq hcq =>
      rw [hcq, length_cons] at hcqes hroom
      rw [if_neg (by omega)]
      have hevents := r.harvestCqe_events maxConns cqe cq
      apply ih <;> rw [harvestCqe_cq]
      · omega
      · omega

theorem Inv.step (h : r.Inv) {st : Step} (hfine : st.Fine r) : (r.step st).Inv := by
  cases st with
  | send s => exact h.send hfine
  | add op => exact h.add op
  | enter n => exact h.enter n
  | complete i a => exact h.complete hfine
  | harvest maxEvents maxConns => exact h.harvestLoop maxConns _ _ hfine

theorem inv_start (entries : Nat) : (start entries).Inv := by
  have hempty : ({ backend := { sqRingEntries := entries } } : Ring).Inv := by
    refine ⟨?_, ?_, ?_, ?_, ?_⟩ <;> simp [items, held, answers]
  exact hempty.submitTimerRead

/-- The invariant holds in every run. -/
theorem Inv.run (h : r.Inv) {steps : List Step} (hfine : r.Fine steps) : (r.run steps).Inv := by
  induction steps generalizing r with
  | nil => exact h
  | cons st sts ih => exact ih (h.step hfine.1) hfine.2

/-- Over every run whose steps are fine, every send is on its way once, with its entry asking for the
bytes not yet taken, or has one event that answers it; and a `wait` that may report enough leaves no
completion behind. -/
theorem accounted_run (entries : Nat) (steps : List Step) (hfine : (start entries).Fine steps) :
    ((start entries).run steps).Accounted ∧
      ∀ maxEvents maxConns, ((start entries).run steps).backend.cq.length ≤ maxEvents →
        (((start entries).run steps).harvest maxEvents maxConns).backend.cq = [] := by
  refine ⟨((inv_start entries).run hfine).accounted, ?_⟩
  intro maxEvents maxConns hle
  exact harvestLoop_cq _ maxConns le_rfl hle

/-- Four bytes for a client, of which the kernel takes two and then two. -/
def inTwoParts : List Step :=
  [.send ⟨false, 7, 3, [1, 2, 3, 4]⟩, .enter 2, .complete 1 { res := 2 }, .harvest 8 8,
    .enter 1, .complete 1 { res := 2 }, .harvest 8 8]

set_option maxRecDepth 4000 in
theorem accounted_inTwoParts : (start 8).Fine inTwoParts ∧
    ((start 8).run inTwoParts).answers 0 = [⟨3, .send, 4, false, some 0⟩] ∧
    ((start 8).run inTwoParts).Accounted :=
  ⟨by decide, by decide, (accounted_run 8 inTwoParts (by decide)).1⟩

/-- Two bytes for an upstream, which the kernel takes at once. -/
def toUpstream : List Step :=
  [.send ⟨true, 7, 3, [1, 2]⟩, .enter 2, .complete 1 { res := 2 }, .harvest 8 8]

set_option maxRecDepth 4000 in
/-- The send is reported as one for the client. -/
theorem not_accounted_toUpstream :
    ((start 8).run toUpstream).answers 0 = [⟨3, .send, 2, false, some 0⟩] ∧
      ¬ ((start 8).run toUpstream).Accounted := by
  have hanswers : ((start 8).run toUpstream).answers 0 = [⟨3, .send, 2, false, some 0⟩] := by decide
  refine ⟨hanswers, ?_⟩
  intro h
  rcases h 0 ⟨true, 7, 3, [1, 2]⟩ (by decide) with ⟨x, -, hnil, -⟩ | ⟨-, e, he, -, htype, -⟩
  · rw [hanswers] at hnil
    cases hnil
  · rw [hanswers] at he
    cases he
    cases htype

end Ring

end Rut.Io
