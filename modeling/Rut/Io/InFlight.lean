import Rut.Io.SendAccounting
import Rut.Io.Slices

/-!
# What a slot holds, and what is on its way for it

Two things the loop hands out and has to get back. The slices of the pool are each in one place, on
the stack or with one slot (`Lent`). The operations of a slot are counted (`Tally`): its entries that
are queued or with the kernel, and its last completions that are not dispatched. A completion that is
not the last one always has another behind it, so the count is zero only when nothing at all is left
(`Tally.quiet`).
-/

namespace Rut.Io

open List Function

/-! ## Slices -/

namespace SlicePool

/-- The slices the slots hold are out, each of them once. -/
structure Lent (p : SlicePool) (held : Nat → List Nat) : Prop where
  small : p.maxCount ≤ 2 ^ 32 - 256
  nodup : ∀ c, (held c).Nodup
  apart : ∀ c d s, s ∈ held c → s ∈ held d → c = d
  ledger : ∃ out, Ledger p out ∧ ∀ c, ∀ s ∈ held c, s ∈ out

variable {p : SlicePool} {held : Nat → List Nat} {s : Nat}

theorem Lent.notMem_freeStack (h : p.Lent held) {c : Nat} (hs : s ∈ held c) : s ∉ p.freeStack := by
  obtain ⟨out, hl, hout⟩ := h.ledger
  exact fun hfree => (nodup_append.mp hl.nodup).2.2 s (hout c s hs) s hfree rfl

/-- A slice goes from the stack to a slot. -/
theorem Lent.alloc (h : p.Lent held) (mprotect : Bool) (c : Nat) :
    (p.alloc mprotect).1.Lent
      (update held c (held c ++ (p.alloc mprotect).2.toList)) := by
  obtain ⟨out, hl, hout⟩ := h.ledger
  obtain ⟨hmax, hfresh, hl'⟩ := hl.alloc h.small mprotect
  generalize p.alloc mprotect = a at hmax hfresh hl'
  -- Whoever holds a slice now has held it before, or is `c` with the new one.
  have hheld : ∀ d t, t ∈ update held c (held c ++ a.2.toList) d →
      t ∈ held d ∨ (d = c ∧ a.2 = some t) := by
    intro d t ht
    by_cases hd : d = c
    · subst hd
      simpa using ht
    · rw [update_of_ne hd] at ht
      exact .inl ht
  have hnew : ∀ d t, a.2 = some t → t ∉ held d := fun d t ht hd => hfresh t ht (hout d t hd)
  refine ⟨hmax ▸ h.small, fun d => ?_, fun d e t hd he => ?_, _, hl', fun d t ht => ?_⟩
  · by_cases hd : d = c
    · subst hd
      rw [update_self]
      refine nodup_append.mpr ⟨h.nodup d, by cases a.2 <;> simp, ?_⟩
      rintro t ht _ hs rfl
      exact hnew d t (Option.mem_toList.mp hs) ht
    · rw [update_of_ne hd]
      exact h.nodup d
  · obtain hd' | ⟨rfl, hts⟩ := hheld d t hd
    · obtain he' | ⟨rfl, hts⟩ := hheld e t he
      · exact h.apart d e t hd' he'
      · exact absurd hd' (hnew d t hts)
    · obtain he' | ⟨rfl, -⟩ := hheld e t he
      · exact absurd he' (hnew e t hts)
      · rfl
  · obtain ht | ⟨-, hts⟩ := hheld d t ht
    · exact mem_append_right _ (hout d t ht)
    · exact mem_append_left _ (Option.mem_toList.mpr hts)

/-- The guards of `free` let a slice through that is held. -/
theorem Lent.takesBack (h : p.Lent held) {c : Nat} (hs : s ∈ held c) : p.takesBack s := by
  obtain ⟨out, hl, hout⟩ := h.ledger
  exact (hl.free (hout c s hs)).1

/-- A slot gives back the first of its slices. -/
theorem Lent.free (h : p.Lent held) {c : Nat} {rest : List Nat} (hheld : held c = s :: rest) :
    (p.free s).Lent (update held c rest) := by
  obtain ⟨out, hl, hout⟩ := h.ledger
  have hs : s ∈ held c := hheld ▸ mem_cons_self
  have hnodup : s ∉ rest ∧ rest.Nodup := nodup_cons.mp (hheld ▸ h.nodup c)
  have hsub : ∀ d t, t ∈ update held c rest d → t ∈ held d ∧ t ≠ s := by
    intro d t ht
    by_cases hd : d = c
    · subst hd
      rw [update_self] at ht
      exact ⟨hheld ▸ mem_cons_of_mem _ ht, fun hts => hnodup.1 (hts ▸ ht)⟩
    · rw [update_of_ne hd] at ht
      exact ⟨ht, fun hts => hd (h.apart d c s (hts ▸ ht) hs)⟩
  refine ⟨?_, fun d => ?_, fun d e t hd he => h.apart d e t (hsub d t hd).1 (hsub e t he).1,
    _, (hl.free (hout c s hs)).2, fun d t ht => ?_⟩
  · rw [SlicePool.free, if_pos (h.takesBack hs)]
    exact h.small
  · by_cases hd : d = c
    · subst hd
      rw [update_self]
      exact hnodup.2
    · rw [update_of_ne hd]
      exact h.nodup d
  · obtain ⟨ht, hne⟩ := hsub d t ht
    exact (mem_erase_of_ne hne).mpr (hout d t ht)

theorem lent_commit (steps : Nat) (h : p.Lent held) : (commit steps p).Lent held := by
  induction steps generalizing p with
  | zero => exact h
  | succ steps ih =>
    apply ih
    cases hgrow : p.grow true with
    | none => exact h
    | some p' =>
      obtain ⟨out, hl, hout⟩ := h.ledger
      obtain ⟨hl', hmax, -⟩ := hl.grow h.small hgrow
      exact ⟨hmax ▸ h.small, h.nodup, h.apart, out, hl', hout⟩

theorem lent_init {n : Nat} (hn : n ≤ 2 ^ 32 - 256) (prealloc : Nat) :
    (init n prealloc).Lent (fun _ => []) :=
  lent_commit _ ⟨hn, by simp, by simp, [], ledger_nil n, by simp⟩

end SlicePool

/-! ## What is on its way for a slot -/

/-- The kinds of operations that are submitted for a connection. -/
def EventType.ofConn (t : EventType) : Bool := t ≠ .accept && t ≠ .timeout

/-- The kinds with completions before the last one. -/
def EventType.streams (t : EventType) : Bool := t = .recv || t = .upstreamRecv || t = .accept

/-- The kind of the operation an entry or a completion is about. -/
def kindOf (data : UInt64) : EventType := (decodeUserData data).2.1

def isFor (c : Nat) (id : UInt32) (t : EventType) : Bool := id = SlotLoop.connId c && t.ofConn

def ownedBy (c : Nat) (data : UInt64) : Bool := isFor c (decodeUserData data).1 (kindOf data)

variable {c : Nat}

theorem connId_toNat (hc : c < kMaxConns) : (SlotLoop.connId c).toNat = c := by
  have : kMaxConns < 2 ^ 32 := by decide
  simp only [SlotLoop.connId, UInt32.toNat_ofNat']
  omega

theorem decode_connId (hc : c < kMaxConns) (t : EventType) (aux : UInt32) :
    decodeUserData (encodeUserData (SlotLoop.connId c) t aux) = (SlotLoop.connId c, t, aux) := by
  have : kMaxConns < 2 ^ 24 := by decide
  apply decode_encodeUserData_of_lt
  rw [connId_toNat hc]
  omega

theorem connId_inj {d : Nat} (hc : c < kMaxConns) (hd : d < kMaxConns) :
    SlotLoop.connId c = SlotLoop.connId d ↔ c = d := by
  constructor
  · intro h
    rw [← connId_toNat hc, ← connId_toNat hd, h]
  · rintro rfl
    rfl

/-- An id of a slot is for this slot only. -/
theorem isFor_self {d : Nat} (hc : c < kMaxConns) (hd : d < kMaxConns) {t : EventType}
    (ht : t.ofConn) : isFor d (SlotLoop.connId c) t = decide (c = d) := by
  simp [isFor, connId_inj hc hd, ht]

/-- An id no slot has. -/
theorem isFor_of_le {id : UInt32} (hid : kMaxConns ≤ id.toNat) (hc : c < kMaxConns) (t : EventType) :
    isFor c id t = false := by
  have hne : id ≠ SlotLoop.connId c := by
    rintro rfl
    rw [connId_toNat hc] at hid
    omega
  simp [isFor, hne]

theorem isFor_of_not_ofConn {t : EventType} (ht : t.ofConn = false) (c : Nat) (id : UInt32) :
    isFor c id t = false := by simp [isFor, ht]

namespace Ring

def busy (r : Ring) (c : Nat) : Nat :=
  r.backend.sq.countP (ownedBy c ·.userData) + r.inflight.countP (ownedBy c ·.userData)

/-- The events of slot `c`: whether another one follows. -/
def eventsOf (c : Nat) (es : List IoEvent) : List Bool :=
  (es.filter fun e => isFor c e.connId e.type).map (·.more)

def cqesOf (c : Nat) (cq : List Cqe) : List Bool :=
  (cq.filter (ownedBy c ·.userData)).map (·.more)

/-- The completions of slot `c` that are not dispatched, in the order in which they will be. -/
def queue (r : Ring) (d c : Nat) : List Bool := eventsOf c (r.events.drop d) ++ cqesOf c r.backend.cq

/-- Slot `c` has `n` operations that are not over, where `d` events are dispatched. -/
structure Tally (r : Ring) (d c n : Nat) : Prop where
  count : r.busy c + (r.queue d c).count false = n
  /-- with no entry left, the last completion is there -/
  last : r.busy c = 0 → (r.queue d c).getLast? ≠ some true

/-- Only the kinds that stream have completions before the last one. -/
structure Shaped (r : Ring) : Prop where
  entries : ∀ q ∈ r.backend.sq ++ r.inflight,
    SlotLoop.Opcode.multishot q.opcode → (kindOf q.userData).streams
  cq : ∀ q ∈ r.backend.cq, q.more → (kindOf q.userData).streams
  events : ∀ e ∈ r.events, e.more → e.type.streams

variable {r : Ring} {d c n : Nat} {b : IoUringBackend} {cqe : Cqe} {cq : List Cqe}

theorem Tally.congr {r' : Ring} (h : r.Tally d c n) (hbusy : r'.busy c = r.busy c)
    (hqueue : r'.queue d c = r.queue d c) : r'.Tally d c n where
  count := by rw [hbusy, hqueue, h.count]
  last := by rw [hbusy, hqueue]; exact h.last

/-- Nothing is on its way for a slot without operations. -/
theorem Tally.quiet (h : r.Tally d c 0) : r.busy c = 0 ∧ r.queue d c = [] := by
  have hbusy : r.busy c = 0 := Nat.eq_zero_of_add_eq_zero_right h.count
  have hcount : (r.queue d c).count false = 0 := Nat.eq_zero_of_add_eq_zero_left h.count
  refine ⟨hbusy, ?_⟩
  have hlast := h.last hbusy
  -- The last completion would be a last one, which the count rules out.
  by_contra hne
  have hmem := getLast_mem hne
  rw [List.getLast?_eq_some_getLast hne] at hlast
  cases hb : (r.queue d c).getLast hne with
  | true => exact hlast (by rw [hb])
  | false => exact count_eq_zero.mp hcount (hb ▸ hmem)

/-! ### Entries -/

theorem busy_push (r : Ring) (q : Sqe) (c : Nat) :
    busy { r with backend := { r.backend with sq := r.backend.sq ++ [q] } } c =
      r.busy c + if ownedBy c q.userData then 1 else 0 := by
  simp only [busy, countP_append, countP_singleton]
  omega

/-- A backend that has queued an entry, or only changed what the count does not see. -/
theorem Tally.push (h : r.Tally d c n) {q : Sqe} (hsq : b.sq = r.backend.sq ++ [q])
    (hcq : b.cq = r.backend.cq) :
    Tally { r with backend := b } d c (n + if ownedBy c q.userData then 1 else 0) := by
  have hbusy : busy { r with backend := b } c = r.busy c + if ownedBy c q.userData then 1 else 0 := by
    rw [← busy_push]
    simp only [busy, hsq]
  have hqueue : queue { r with backend := b } d c = r.queue d c := by simp only [queue, hcq]
  constructor
  · have := h.count
    rw [hbusy, hqueue]
    omega
  · intro hzero
    rw [hqueue]
    exact h.last (by omega)

theorem Shaped.push (h : r.Shaped) {q : Sqe} (hsq : b.sq = r.backend.sq ++ [q])
    (hcq : b.cq = r.backend.cq)
    (hq : SlotLoop.Opcode.multishot q.opcode → (kindOf q.userData).streams) :
    Shaped { r with backend := b } := by
  refine ⟨?_, ?_, h.events⟩
  · intro x hx
    simp only [hsq, mem_append, mem_singleton] at hx
    obtain (hx | rfl) | hx := hx
    · exact h.entries x (mem_append_left _ hx)
    · exact hq
    · exact h.entries x (mem_append_right _ hx)
  · simp only [hcq]
    exact h.cq

/-- The kernel takes entries. -/
def take (r : Ring) (k : Nat) : Ring :=
  { r with backend := { r.backend with sq := r.backend.sq.drop k }
           inflight := r.inflight ++ r.backend.sq.take k }

theorem busy_take (r : Ring) (k c : Nat) : (r.take k).busy c = r.busy c := by
  have hsplit : (r.backend.sq.take k ++ r.backend.sq.drop k).countP (ownedBy c ·.userData) =
      r.backend.sq.countP (ownedBy c ·.userData) := by rw [take_append_drop]
  rw [countP_append] at hsplit
  simp only [busy, take, countP_append]
  omega

/-- What the kernel takes is still on its way. -/
theorem Tally.take (h : r.Tally d c n) (k : Nat) : (r.take k).Tally d c n :=
  h.congr (busy_take r k c) rfl

theorem Shaped.take (h : r.Shaped) (k : Nat) : (r.take k).Shaped := by
  refine ⟨?_, h.cq, h.events⟩
  intro q hq
  apply h.entries q
  simp only [Ring.take, mem_append] at hq ⊢
  obtain hq | hq | hq := hq
  · exact .inl (mem_of_mem_drop hq)
  · exact .inr hq
  · exact .inl (mem_of_mem_take hq)

/-- The read of the timer belongs to no slot. -/
theorem submitTimerRead_cases (b : IoUringBackend) :
    (b.submitTimerRead.sq = b.sq ∨
      ∃ q, b.submitTimerRead.sq = b.sq ++ [q] ∧ kindOf q.userData = .timeout ∧
        q.opcode = .read) ∧ b.submitTimerRead.cq = b.cq := by
  unfold IoUringBackend.submitTimerRead
  split
  · exact ⟨.inl rfl, rfl⟩
  split
  · exact ⟨.inl rfl, rfl⟩
  · next hpush =>
    obtain ⟨-, rfl⟩ := IoUringBackend.push_eq_some hpush
    refine ⟨.inr ⟨_, rfl, ?_, rfl⟩, rfl⟩
    rw [kindOf, decode_encodeUserData]

theorem ownedBy_of_kind {data : UInt64} {t : EventType} (h : kindOf data = t) (ht : t.ofConn = false)
    (c : Nat) : ownedBy c data = false := by
  rw [ownedBy, h]
  exact isFor_of_not_ofConn ht c _

theorem Tally.sameBackend (h : r.Tally d c n) (hsq : b.sq = r.backend.sq)
    (hcq : b.cq = r.backend.cq) : Tally { r with backend := b } d c n :=
  h.congr (by simp only [busy, hsq]) (by simp only [queue, hcq])

theorem Shaped.sameBackend (h : r.Shaped) (hsq : b.sq = r.backend.sq) (hcq : b.cq = r.backend.cq) :
    Shaped { r with backend := b } :=
  ⟨by rw [hsq]; exact h.entries, by rw [hcq]; exact h.cq, h.events⟩

theorem Tally.timerRead (h : r.Tally d c n) :
    Tally { r with backend := r.backend.submitTimerRead } d c n := by
  obtain ⟨hsq | ⟨q, hsq, hkind, -⟩, hcq⟩ := submitTimerRead_cases r.backend
  · exact h.sameBackend hsq hcq
  · have := h.push hsq hcq
    rwa [ownedBy_of_kind hkind rfl] at this

theorem Shaped.timerRead (h : r.Shaped) :
    Shaped { r with backend := r.backend.submitTimerRead } := by
  obtain ⟨hsq | ⟨q, hsq, -, hop⟩, hcq⟩ := submitTimerRead_cases r.backend
  · exact h.sameBackend hsq hcq
  · exact h.push hsq hcq (by rw [hop]; exact nofun)

/-! ### Completions -/

theorem Tally.complete (h : r.Tally d c n) (i : Nat) (a : Answer) :
    (r.complete i a).Tally d c n := by
  unfold Ring.complete
  split
  · exact h
  next q hq =>
  have hdata : (a.post q).userData = q.userData := by unfold Answer.post; split <;> rfl
  obtain ⟨hi, hget⟩ := List.getElem?_eq_some_iff.mp hq
  -- What the completion adds to the queue is taken off the entries, if it is the last one.
  have hperm : (r.inflight.countP (ownedBy c ·.userData)) =
      (r.inflight.eraseIdx i).countP (ownedBy c ·.userData) +
        if ownedBy c q.userData then 1 else 0 := by
    rw [← (getElem_cons_eraseIdx_perm hi).countP_eq, hget, countP_cons]
  by_cases hown : ownedBy c q.userData
  · cases hmore : (a.post q).more with
    | true =>
      have hpos : r.busy c ≠ 0 := by
        simp only [busy]
        rw [if_pos hown] at hperm
        omega
      constructor
      · simpa [busy, queue, cqesOf, hmore, hdata, hown, filter_append] using h.count
      · intro hzero
        exact absurd (by simpa only [busy, hmore, if_true] using hzero) hpos
    | false =>
      have hcount := h.count
      rw [if_pos hown] at hperm
      simp only [busy, queue, cqesOf] at hcount
      constructor
      · simp [busy, queue, cqesOf, hmore, hdata, hown, filter_append]
        simp at hcount
        omega
      · intro _
        simp [queue, cqesOf, hmore, hdata, hown, filter_append, ← append_assoc]
  · rw [if_neg hown, Nat.add_zero] at hperm
    apply h.congr
    · simp only [busy]
      split <;> omega
    · simp [queue, cqesOf, hdata, hown, filter_append]

theorem Shaped.complete (h : r.Shaped) (i : Nat) {a : Answer}
    (ha : a.more → ∀ q ∈ r.inflight[i]?, SlotLoop.Opcode.multishot q.opcode) :
    (r.complete i a).Shaped := by
  unfold Ring.complete
  split
  · exact h
  next q hq =>
  refine ⟨?_, ?_, h.events⟩
  · intro x hx
    apply h.entries x
    simp only [mem_append] at hx ⊢
    obtain hx | hx := hx
    · exact .inl hx
    · refine .inr ?_
      split at hx
      · exact hx
      · exact mem_of_mem_eraseIdx hx
  · intro x hx hmore
    obtain hx | hx := mem_append.mp hx
    · exact h.cq x hx hmore
    · obtain rfl := mem_singleton.mp hx
      have hmem : q ∈ r.backend.sq ++ r.inflight :=
        mem_append_right _ (mem_of_getElem? hq)
      unfold Answer.post at hmore ⊢
      split at hmore
      · cases hmore
      · rw [if_neg ‹_›]
        exact h.entries q hmem (ha hmore q hq)

/-! ### Harvesting -/

theorem decodeUserData_lt (data : UInt64) : (decodeUserData data).1.toNat < 2 ^ 24 := by
  show ((data >>> 8) &&& 0xFFFFFF).toUInt32.toNat < 2 ^ 24
  rw [UInt64.toNat_toUInt32, UInt64.toNat_and]
  have : (data >>> 8).toNat &&& (0xFFFFFF : UInt64).toNat ≤ 0xFFFFFF := Nat.and_le_right
  omega

/-- What a round of the loop of `wait` can do: nothing a slot would notice, the event of the
completion, or the rest of a send once more. -/
theorem harvestCqe_cases (maxConns : Nat) (b : IoUringBackend) (conns : Nat → RecvBufs)
    (hshape : cqe.more → (kindOf cqe.userData).streams) :
    let h := b.harvestCqe maxConns conns cqe
    (((decodeUserData cqe.userData).1 = kCancelConnId ∨ kindOf cqe.userData = .timeout) ∧
        (h.backend.sq = b.sq ∨ ∃ q, h.backend.sq = b.sq ++ [q] ∧ kindOf q.userData = .timeout ∧
          q.opcode = .read) ∧ ∀ e ∈ h.event, e.type = .timeout ∧ e.more = false) ∨
      (∃ e, h.event = some e ∧ e.connId = (decodeUserData cqe.userData).1 ∧
        e.type.ofConn = (kindOf cqe.userData).ofConn ∧ e.more = cqe.more ∧
        (e.more → e.type.streams) ∧ h.backend.sq = b.sq) ∨
      (h.event = none ∧ cqe.more = false ∧ ∃ q, h.backend.sq = b.sq ++ [q] ∧
        q.opcode = .send ∧ decodeUserData q.userData =
          ((decodeUserData cqe.userData).1, kindOf cqe.userData, 0)) := by
  have hlt := decodeUserData_lt cqe.userData
  unfold kindOf at hshape ⊢
  unfold IoUringBackend.harvestCqe
  generalize decodeUserData cqe.userData = key at hlt hshape
  obtain ⟨id, type, aux⟩ := key
  dsimp only at hlt hshape ⊢
  split
  · next hcancel => exact .inl ⟨.inl hcancel, .inl rfl, by simp⟩
  split
  · next htimer =>
    refine .inl ⟨.inr htimer.2, ?_, ?_⟩
    · exact (submitTimerRead_cases { b with timerReadArmed := false }).1
    · intro e he
      simp only [IoUringBackend.harvestTimer, Option.mem_def] at he
      split at he
      · obtain rfl := Option.some.inj he
        exact ⟨rfl, rfl⟩
      · cases he
  refine .inr ?_
  split
  · next bufId data _ =>
    refine .inl ?_
    unfold IoUringBackend.harvestBuffer
    split
    · split
      · exact ⟨_, rfl, rfl, rfl, rfl, hshape, rfl⟩
      · exact ⟨_, rfl, rfl, rfl, rfl, hshape, rfl⟩
    · exact ⟨_, rfl, rfl, rfl, rfl, hshape, rfl⟩
  split
  · next hsend =>
    -- A send has one completion, and the kind of its event is that of a connection either way.
    obtain ⟨⟨hkind, -⟩, -⟩ := hsend
    have hmore : cqe.more = false := by
      rw [Bool.eq_false_iff]
      intro hmore
      obtain rfl | rfl := hkind <;> exact absurd (hshape hmore) (by decide)
    have hof : EventType.ofConn .send = type.ofConn := by obtain rfl | rfl := hkind <;> rfl
    rw [Ring.harvestSend_eq conns type rfl]
    split
    · cases hpush : b.push _ with
      | some b' =>
        obtain ⟨-, rfl⟩ := IoUringBackend.push_eq_some hpush
        refine .inr ⟨rfl, hmore, _, rfl, rfl, ?_⟩
        exact decode_encodeUserData_of_lt hlt type 0
      | none => exact .inl ⟨_, rfl, rfl, hof, hmore.symm, fun h => absurd h Bool.false_ne_true, rfl⟩
    · exact .inl ⟨_, rfl, rfl, hof, hmore.symm, fun h => absurd h Bool.false_ne_true, rfl⟩
  · exact .inl ⟨_, rfl, rfl, rfl, rfl, hshape, rfl⟩

theorem queue_cons (hcq : r.backend.cq = cqe :: cq) (d c : Nat) :
    r.queue d c = eventsOf c (r.events.drop d) ++
      ((if ownedBy c cqe.userData then [cqe.more] else []) ++ cqesOf c cq) := by
  rw [queue, hcq, cqesOf, filter_cons]
  split <;> simp [cqesOf]

theorem queue_harvestCqe (r : Ring) (maxConns : Nat) (cqe : Cqe) (cq : List Cqe)
    (hd : d ≤ r.events.length) (c : Nat) :
    (r.harvestCqe maxConns cqe cq).queue d c =
      eventsOf c (r.events.drop d) ++
        (eventsOf c ({ r.backend with cq }.harvestCqe maxConns r.conns cqe).event.toList ++
          cqesOf c cq) := by
  rw [queue, harvestCqe_cq, Ring.harvestCqe]
  rw [drop_append_of_le_length hd, eventsOf, filter_append, map_append,
    append_assoc]
  rfl

/-- A completion becomes an event, or is queued again. -/
theorem Tally.harvestCqe (h : r.Tally d c n) (hc : c < kMaxConns) (hshaped : r.Shaped)
    (hd : d ≤ r.events.length) (maxConns : Nat) (hcq : r.backend.cq = cqe :: cq) :
    (r.harvestCqe maxConns cqe cq).Tally d c n := by
  have hshape := hshaped.cq cqe (hcq ▸ mem_cons_self)
  have hqueue := queue_harvestCqe r maxConns cqe cq hd c
  have hbefore := queue_cons hcq d c
  have hbusy : (r.harvestCqe maxConns cqe cq).busy c =
      ({ r.backend with cq }.harvestCqe maxConns r.conns cqe).backend.sq.countP
        (fun q : Sqe => ownedBy c q.userData) + r.inflight.countP (ownedBy c ·.userData) := rfl
  obtain ⟨hkey, hsq, hevent⟩ | ⟨e, hevent, hid, hof, hmore, -, hsq⟩ |
      ⟨hevent, hmore, q, hsq, -, hkey⟩ :=
    harvestCqe_cases maxConns { r.backend with cq } r.conns hshape
  · have hown : ownedBy c cqe.userData = false := by
      obtain hkey | hkey := hkey
      · rw [ownedBy, hkey]
        exact isFor_of_le (by decide) hc _
      · exact ownedBy_of_kind hkey rfl c
    apply h.congr
    · rw [hbusy]
      obtain hsq | ⟨q, hsq, hkind, -⟩ := hsq
      · rw [hsq]
        rfl
      · rw [hsq, countP_append, countP_singleton, ownedBy_of_kind hkind rfl c]
        rfl
    · rw [hqueue, hbefore, hown]
      cases he : ({ r.backend with cq }.harvestCqe maxConns r.conns cqe).event with
      | none => simp [eventsOf]
      | some e =>
        have htype := (hevent e he).1
        simp [eventsOf, isFor, htype, EventType.ofConn]
  · apply h.congr
    · rw [hbusy, hsq]
      rfl
    · have hsame : isFor c e.connId e.type = ownedBy c cqe.userData := by
        simp only [ownedBy, isFor, hid, hof]
      rw [hqueue, hbefore, hevent]
      simp only [eventsOf, Option.toList_some, filter_cons, filter_nil, hsame, ← hmore]
      split <;> rfl
  · have hsame : ownedBy c q.userData = ownedBy c cqe.userData := by
      simp only [ownedBy, kindOf, hkey]
    have hcount : (r.harvestCqe maxConns cqe cq).busy c =
        r.busy c + if ownedBy c cqe.userData then 1 else 0 := by
      rw [hbusy, hsq, countP_append, countP_singleton, hsame]
      exact Nat.add_right_comm _ _ _
    rw [hevent] at hqueue
    by_cases hown : ownedBy c cqe.userData
    · rw [if_pos hown] at hcount hbefore
      constructor
      · have := h.count
        rw [hbefore, hmore] at this
        simp only [count_append, count_singleton_self] at this
        rw [hcount, hqueue]
        simp only [eventsOf, Option.toList_none, filter_nil, map_nil, nil_append,
          count_append] at this ⊢
        omega
      · intro hzero
        omega
    · rw [if_neg hown] at hcount hbefore
      exact h.congr hcount (by rw [hqueue, hbefore]; rfl)

theorem Shaped.harvestCqe (h : r.Shaped) (maxConns : Nat) (hcq : r.backend.cq = cqe :: cq) :
    (r.harvestCqe maxConns cqe cq).Shaped := by
  have hshape := h.cq cqe (hcq ▸ mem_cons_self)
  have hentries : ∀ q ∈ ({ r.backend with cq }.harvestCqe maxConns r.conns cqe).backend.sq,
      SlotLoop.Opcode.multishot q.opcode → (kindOf q.userData).streams := by
    have hold : ∀ q ∈ r.backend.sq, SlotLoop.Opcode.multishot q.opcode → (kindOf q.userData).streams :=
      fun q hq => h.entries q (mem_append_left _ hq)
    have hnew : ∀ q : Sqe, SlotLoop.Opcode.multishot q.opcode = false →
        ({ r.backend with cq }.harvestCqe maxConns r.conns cqe).backend.sq = r.backend.sq ++ [q] →
        ∀ x ∈ ({ r.backend with cq }.harvestCqe maxConns r.conns cqe).backend.sq,
          SlotLoop.Opcode.multishot x.opcode → (kindOf x.userData).streams := by
      intro q hop hsq x hx hx'
      rw [hsq] at hx
      obtain hx | hx := mem_append.mp hx
      · exact hold x hx hx'
      · rw [mem_singleton.mp hx, hop] at hx'
        cases hx'
    obtain ⟨-, hsq | ⟨q, hsq, -, hop⟩, -⟩ | ⟨-, -, -, -, -, -, hsq⟩ | ⟨-, -, q, hsq, hop, -⟩ :=
      harvestCqe_cases maxConns { r.backend with cq } r.conns hshape
    · rw [hsq]
      exact hold
    · exact hnew q (by rw [hop]; rfl) hsq
    · rw [hsq]
      exact hold
    · exact hnew q (by rw [hop]; rfl) hsq
  refine ⟨?_, ?_, ?_⟩
  · intro q hq
    obtain hq | hq := mem_append.mp hq
    · exact hentries q hq
    · exact h.entries q (mem_append_right _ hq)
  · rw [harvestCqe_cq]
    exact fun q hq => h.cq q (hcq ▸ mem_cons_of_mem _ hq)
  · intro e he hmore
    obtain he | he := mem_append.mp he
    · exact h.events e he hmore
    · rw [Option.mem_toList] at he
      obtain ⟨-, -, hevent⟩ | ⟨e', hevent, -, -, -, hstreams, -⟩ | ⟨hevent, -⟩ :=
        harvestCqe_cases maxConns { r.backend with cq } r.conns hshape
      · rw [(hevent e he).2] at hmore
        cases hmore
      · obtain rfl := Option.some.inj (hevent.symm.trans he)
        exact hstreams hmore
      · exact absurd (hevent.symm.trans he) nofun

theorem events_harvestCqe (r : Ring) (maxConns : Nat) (cqe : Cqe) (cq : List Cqe) :
    r.events.length ≤ (r.harvestCqe maxConns cqe cq).events.length := by
  simp only [Ring.harvestCqe, length_append]
  omega

/-- The loop of `wait`, for every slot at once. -/
theorem harvestLoop_kept (maxConns cqes room : Nat) (hshaped : r.Shaped) (hd : d ≤ r.events.length)
    :
    (r.harvestLoop maxConns cqes room).Shaped ∧
      d ≤ (r.harvestLoop maxConns cqes room).events.length ∧
      ∀ c n, c < kMaxConns → r.Tally d c n → (r.harvestLoop maxConns cqes room).Tally d c n := by
  induction cqes generalizing room r with
  | zero => exact ⟨hshaped, hd, fun _ _ _ h => h⟩
  | succ cqes ih =>
    unfold harvestLoop
    split
    · exact ⟨hshaped, hd, fun _ _ _ h => h⟩
    next cqe cq hcq =>
    split
    · exact ⟨hshaped, hd, fun _ _ _ h => h⟩
    · have hevents := Nat.le_trans hd (r.events_harvestCqe maxConns cqe cq)
      obtain ⟨h₁, h₂, h₃⟩ := ih (room - ((r.harvestCqe maxConns cqe cq).events.length -
        r.events.length)) (hshaped.harvestCqe maxConns hcq) hevents
      refine ⟨h₁, h₂, ?_⟩
      intro c n hc h
      exact h₃ c n hc (h.harvestCqe hc hshaped hd maxConns hcq)

/-! ### Dispatch -/

/-- The next event is the first of its slot. -/
theorem queue_next {e : IoEvent} (he : r.events[d]? = some e) (c : Nat) :
    r.queue d c = (if isFor c e.connId e.type then [e.more] else []) ++ r.queue (d + 1) c := by
  obtain ⟨hlt, hget⟩ := List.getElem?_eq_some_iff.mp he
  rw [queue, drop_eq_getElem_cons hlt, hget, eventsOf, filter_cons, queue]
  split <;> rfl

/-- An event is dispatched: one operation less, if it was its last completion. -/
theorem Tally.next (h : r.Tally d c n) {e : IoEvent} (he : r.events[d]? = some e) :
    r.Tally (d + 1) c (if isFor c e.connId e.type ∧ e.more = false then n - 1 else n) := by
  have hqueue := queue_next he c
  constructor
  · have hcount := h.count
    rw [hqueue, count_append] at hcount
    by_cases hown : isFor c e.connId e.type
    · rw [if_pos hown] at hcount
      cases hmore : e.more with
      | true =>
        rw [hmore] at hcount
        simpa [hown] using hcount
      | false =>
        rw [hmore] at hcount
        simp only [hown, count_singleton_self] at hcount ⊢
        simp only [and_self, if_true]
        omega
    · simpa [hown] using hcount
  · intro hbusy hlast
    apply h.last hbusy
    rw [hqueue, List.getLast?_append, hlast]
    rfl

end Ring

end Rut.Io
