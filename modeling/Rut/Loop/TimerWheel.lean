import Rut.Lib.Ring

/-!
# The timer wheel

A wheel has 64 slots, each the head of a circular list of connections (`timer_wheel.h`). A
connection with a timeout of `s` seconds is put into the slot `s` steps ahead of the cursor; every
tick empties the slot under the cursor and calls back for each connection in it, then moves on.

    Holds w lists      the lists of the slots, read off the pointers
    Agenda             what the wheel is for: the tick at which each connection is due
    Tracks w a         the wheel holds exactly what is on the agenda

A callback may put its own connection back. The running tick does not come across it again, whatever
the slot: it has gone past the front of its list, where connections are put.
-/

namespace Rut

open Lib List
open Function (update update_self update_of_ne)

/-- A `ListNode`: the head of a slot, or the `timer_node` of a connection. -/
inductive TimerNode where
  | slot (i : Fin 64)
  | conn (id : Nat)
deriving DecidableEq, Repr

structure TimerWheel where
  links : Links TimerNode := .loose
  cursor : UInt32 := 0

namespace TimerWheel

/-- `n & (kSlots - 1)` -/
def slotOf (n : UInt32) : Fin 64 := ⟨(n &&& 63).toNat, by
  rw [UInt32.toNat_and]
  exact Nat.and_lt_two_pow _ (show (63 : UInt32).toNat < 2 ^ 6 by decide)⟩

def add (w : TimerWheel) (c : Nat) (seconds : UInt32) : TimerWheel :=
  { w with links := w.links.insertAfter (.slot (slotOf (w.cursor + seconds))) (.conn c) }

def remove (w : TimerWheel) (c : Nat) : TimerWheel :=
  { w with links := (w.links.remove (.conn c)).init (.conn c) }

def refresh (w : TimerWheel) (c : Nat) (seconds : UInt32) : TimerWheel := (w.remove c).add c seconds

def linked (w : TimerWheel) (c : Nat) : Bool := !w.links.isLoose (.conn c)

variable {σ : Type}

/-- The loop of `tick`. The callback may change the wheel and the state around it. A slot that is
not the head of the list has no connection around it. -/
def tickLoop (onExpire : Nat → TimerWheel × σ → TimerWheel × σ) (head : TimerNode) :
    Nat → TimerNode → TimerWheel × σ → Nat → Option ((TimerWheel × σ) × Nat)
  | 0, _, _, _ => none
  | fuel + 1, node, st, count =>
    if node = head then some (st, count)
    else
      match node with
      | .slot _ => none
      | .conn c =>
        -- the next node is read before the callback runs
        let next := st.1.links.next node
        tickLoop onExpire head fuel next (onExpire c (st.1.remove c, st.2)) (count + 1)

def tick (onExpire : Nat → TimerWheel × σ → TimerWheel × σ) (fuel : Nat) (st : TimerWheel × σ) :
    Option ((TimerWheel × σ) × Nat) :=
  let head := TimerNode.slot (slotOf st.1.cursor)
  (tickLoop onExpire head fuel (st.1.links.next head) st 0).map fun r =>
    (({ r.1.1 with cursor := r.1.1.cursor + 1 }, r.1.2), r.2)

theorem val_slotOf (n : UInt32) : (slotOf n).val = n.toNat % 64 := by
  exact Nat.and_two_pow_sub_one_eq_mod n.toNat 6

/-! ## The lists of the slots -/

abbrev Lists := Fin 64 → List Nat

/-- The pointers form the given lists, and nothing else. -/
def Holds (w : TimerWheel) (lists : Lists) : Prop :=
  Rings w.links TimerNode.slot fun k => (lists k).map .conn

variable {w : TimerWheel} {lists : Lists} {c : Nat}

theorem conn_inj : Function.Injective TimerNode.conn := fun _ _ h => TimerNode.conn.inj h

theorem mem_map_conn {l : List Nat} : TimerNode.conn c ∈ l.map .conn ↔ c ∈ l :=
  mem_map_of_injective conn_inj

theorem holds_empty : Holds {} fun _ => [] :=
  Rings.of_loose fun _ _ h => TimerNode.slot.inj h

theorem Holds.nodup (h : Holds w lists) (k : Fin 64) : (lists k).Nodup :=
  List.Nodup.of_map _ (Rings.nodup h k)

/-- A node that is linked is in a slot. -/
theorem Holds.linked_iff (h : Holds w lists) : w.linked c = true ↔ ∃ k, c ∈ lists k := by
  have hloose := Rings.isLoose_iff h (n := .conn c) (fun _ => nofun)
  simp only [mem_map_conn] at hloose
  rw [linked, Bool.not_eq_true', ← Bool.not_eq_true, hloose, not_forall_not]

def Free (lists : Lists) (c : Nat) : Prop := ∀ k, c ∉ lists k

/-- A free connection put at the front of a slot, or left out. -/
def place (lists : Lists) (c : Nat) : Option (Fin 64) → Lists
  | none => lists
  | some k => update lists k (c :: lists k)

def without (lists : Lists) (c : Nat) : Lists := fun k => (lists k).erase c

/-- A connection in no slot can be added. -/
theorem Holds.add (h : Holds w lists) (hfree : Free lists c) (seconds : UInt32) :
    Holds (w.add c seconds) (place lists c (some (slotOf (w.cursor + seconds)))) := by
  have hR := Rings.insertAfter h (n := .conn c) (fun _ => nofun)
    (fun k hmem => hfree k (mem_map_conn.mp hmem)) (slotOf (w.cursor + seconds))
  have hmap : (fun k => (place lists c (some (slotOf (w.cursor + seconds))) k).map TimerNode.conn) =
      update (fun k => (lists k).map TimerNode.conn) (slotOf (w.cursor + seconds))
        (.conn c :: (lists (slotOf (w.cursor + seconds))).map .conn) := by
    funext k
    exact Function.apply_update (fun _ => List.map TimerNode.conn) lists _ _ k
  show Rings _ _ _
  rw [hmap]
  exact hR

/-- Any connection can be removed. -/
theorem Holds.remove (h : Holds w lists) (c : Nat) : Holds (w.remove c) (without lists c) := by
  have hR := Rings.unlink h (n := .conn c) (fun _ => nofun)
  have hmap : (fun k => (without lists c k).map TimerNode.conn) =
      fun k => ((lists k).map TimerNode.conn).erase (.conn c) :=
    funext fun k => map_erase conn_inj ..
  show Rings _ _ _
  rw [hmap]
  exact hR

theorem Holds.free_without (h : Holds w lists) (c : Nat) : Free (without lists c) c :=
  fun k => (h.nodup k).not_mem_erase

theorem without_of_free (h : Free lists c) : without lists c = lists :=
  funext fun k => erase_of_not_mem (h k)

theorem without_place (hfree : Free lists c) (o : Option (Fin 64)) :
    without (place lists c o) c = lists := by
  cases o with
  | none => exact without_of_free hfree
  | some k =>
    funext j
    show (update lists k (c :: lists k) j).erase c = _
    by_cases hj : j = k
    · rw [hj, update_self, erase_cons_head]
    · rw [update_of_ne hj]
      exact erase_of_not_mem (hfree j)

theorem mem_place {d : Nat} {k : Fin 64} (hfree : Free lists c) (o : Option (Fin 64)) :
    d ∈ place lists c o k ↔ (d = c ∧ o = some k) ∨ (d ≠ c ∧ d ∈ lists k) := by
  have hne : d ∈ lists k → d ≠ c := fun h e => hfree k (e ▸ h)
  cases o with
  | none =>
    show d ∈ lists k ↔ _
    grind
  | some j =>
    show d ∈ update lists j (c :: lists j) k ↔ _
    by_cases hk : k = j
    · grind
    · grind

/-- The front of a list is all that `place` changes of it. -/
theorem place_eq_append (lists : Lists) (c : Nat) (o : Option (Fin 64)) (k : Fin 64) :
    ∃ zs, place lists c o k = zs ++ lists k := by
  cases o with
  | none => exact ⟨[], rfl⟩
  | some j =>
    show ∃ zs, update lists j (c :: lists j) k = _
    by_cases hk : k = j
    · exact ⟨[c], by rw [hk, update_self]; rfl⟩
    · exact ⟨[], by rw [update_of_ne hk]; rfl⟩

theorem Holds.refresh (h : Holds w lists) (c : Nat) (seconds : UInt32) :
    Holds (w.refresh c seconds)
      (place (without lists c) c (some (slotOf (w.cursor + seconds)))) :=
  (h.remove c).add (h.free_without c) seconds

/-! ## A tick -/

variable {fuel : Nat}

section Tick

variable {onExpire : Nat → TimerWheel × σ → TimerWheel × σ} {k : Fin 64}
  {P : List Nat → TimerWheel × σ → Prop}

/-- The loop rule of `tick`. `P ys st` is the invariant before the connections `ys` are called back
for; they are the rest of the list, and what has been put back is in front of them. -/
theorem tickLoop_spec
    (hlist : ∀ ys st, P ys st → ∃ lists zs, Holds st.1 lists ∧ lists k = zs ++ ys)
    (hstep : ∀ y ys st, P (y :: ys) st → P ys (onExpire y (st.1.remove y, st.2)))
    (ys : List Nat) {st : TimerWheel × σ} (count : Nat) (hP : P ys st)
    (hfuel : ys.length < fuel) :
    ∃ st', tickLoop onExpire (.slot k) fuel ((ys.map TimerNode.conn).headD (.slot k)) st count =
      some (st', count + ys.length) ∧ P [] st' := by
  induction ys generalizing st fuel count with
  | nil =>
    obtain ⟨fuel, rfl⟩ := Nat.exists_eq_succ_of_ne_zero (Nat.ne_of_gt hfuel)
    exact ⟨st, if_pos rfl, hP⟩
  | cons y ys ih =>
    obtain ⟨fuel, rfl⟩ := Nat.exists_eq_succ_of_ne_zero (Nat.ne_of_gt (Nat.zero_lt_of_lt hfuel))
    obtain ⟨lists, zs, hholds, hlist'⟩ := hlist _ _ hP
    have hnodes : (lists k).map TimerNode.conn = zs.map .conn ++ .conn y :: ys.map .conn := by
      rw [hlist', map_append, map_cons]
    have hnext : st.1.links.next (.conn y) = (ys.map TimerNode.conn).headD (.slot k) :=
      Rings.next_eq hholds hnodes
    obtain ⟨st', hrun, hP'⟩ := ih (count + 1) (hstep y ys st hP) (Nat.lt_of_succ_lt_succ hfuel)
    refine ⟨st', ?_, hP'⟩
    show tickLoop onExpire (.slot k) fuel (st.1.links.next (.conn y))
      (onExpire y (st.1.remove y, st.2)) (count + 1) = _
    rw [hnext, hrun, length_cons, Nat.add_right_comm, Nat.add_assoc]

/-- A tick ends and has called back for every connection of the slot under the cursor. -/
theorem tick_spec {st : TimerWheel × σ} (hholds : Holds st.1 lists)
    (hlist : ∀ ys st, P ys st → ∃ lists zs, Holds st.1 lists ∧ lists k = zs ++ ys)
    (hstep : ∀ y ys st, P (y :: ys) st → P ys (onExpire y (st.1.remove y, st.2)))
    (hk : slotOf st.1.cursor = k) (hP : P (lists k) st) (hfuel : (lists k).length < fuel) :
    ∃ st', tick onExpire fuel st =
      some (({ st'.1 with cursor := st'.1.cursor + 1 }, st'.2), (lists k).length) ∧ P [] st' := by
  obtain ⟨st', hrun, hP'⟩ := tickLoop_spec hlist hstep (lists k) 0 hP hfuel
  refine ⟨st', ?_, hP'⟩
  have hfirst : st.1.links.next (.slot k) = ((lists k).map TimerNode.conn).headD (.slot k) :=
    (Rings.ring hholds k).next_eq
  rw [tick]
  rw [hk, hfirst, hrun, Nat.zero_add]
  rfl

end Tick

/-! ## Operations on one connection -/

/-- What is done to the timer of a connection. -/
inductive TimerOp where
  | add (seconds : UInt32)
  | refresh (seconds : UInt32)
  | remove
deriving DecidableEq, Repr

def apply (w : TimerWheel) (c : Nat) : TimerOp → TimerWheel
  | .add seconds => w.add c seconds
  | .refresh seconds => w.refresh c seconds
  | .remove => w.remove c

def applyAll (w : TimerWheel) (c : Nat) (ops : List TimerOp) : TimerWheel :=
  ops.foldl (fun w op => w.apply c op) w

@[simp] theorem cursor_apply (w : TimerWheel) (c : Nat) (op : TimerOp) :
    (w.apply c op).cursor = w.cursor := by
  cases op <;> rfl

/-! ## The agenda -/

/-- When an operation makes its connection due; `at_` is the tick for a number of seconds. -/
def TimerOp.plan (at_ : UInt32 → Nat) : TimerOp → Option Nat
  | .add seconds | .refresh seconds => some (at_ seconds)
  | .remove => none

/-- The last of several operations decides. -/
def plans (at_ : UInt32 → Nat) (d : Option Nat) (ops : List TimerOp) : Option Nat :=
  ops.foldl (fun _ op => op.plan at_) d

/-- Timeouts are below the number of slots, and only an unlinked connection is added. -/
def TimerOp.Allowed (d : Option Nat) : TimerOp → Prop
  | .add seconds => d = none ∧ seconds.toNat ≤ 63
  | .refresh seconds => seconds.toNat ≤ 63
  | .remove => True

def AllowedAll (at_ : UInt32 → Nat) : Option Nat → List TimerOp → Prop
  | _, [] => True
  | d, op :: ops => op.Allowed d ∧ AllowedAll at_ (op.plan at_) ops

/-- An operation of the event loop outside of `tick`, or a tick with what its callback does for each
connection that expires. -/
inductive WheelOp where
  | conn (c : Nat) (op : TimerOp)
  | tick (react : Nat → List TimerOp)

/-- The number of ticks that have passed, and the tick at which each connection is due. -/
structure Agenda where
  ticks : Nat := 0
  due : Nat → Option Nat := fun _ => none

namespace Agenda

/-- Outside of a tick, `s` seconds are over at the tick number `s + 1` from now. -/
def outside (a : Agenda) (seconds : UInt32) : Nat := a.ticks + (seconds.toNat + 1)

/-- In a callback they are over at the tick number `s` after the running one, except that no seconds
take a whole turn of the wheel. -/
def inside (a : Agenda) (seconds : UInt32) : Nat :=
  a.ticks + 1 + if seconds = 0 then 64 else seconds.toNat

def expires (a : Agenda) (c : Nat) : Prop := a.due c = some (a.ticks + 1)

instance (a : Agenda) (c : Nat) : Decidable (a.expires c) := inferInstanceAs (Decidable (_ = _))

def step (a : Agenda) : WheelOp → Agenda
  | .conn c op => { a with due := update a.due c (op.plan a.outside) }
  | .tick react => {
      ticks := a.ticks + 1
      due := fun c => if a.expires c then plans a.inside none (react c) else a.due c }

def Allows (a : Agenda) : WheelOp → Prop
  | .conn c op => op.Allowed (a.due c)
  | .tick react => ∀ c, a.expires c → AllowedAll a.inside none (react c)

/-- Every operation is one that the agenda allows. -/
def Valid : Agenda → List WheelOp → Prop
  | _, [] => True
  | a, op :: ops => a.Allows op ∧ Valid (a.step op) ops

/-- For every tick, the connections that are due. -/
def expirations : Agenda → List WheelOp → List (Nat → Prop)
  | _, [] => []
  | a, .conn c op :: ops => expirations (a.step (.conn c op)) ops
  | a, .tick react :: ops => a.expires :: expirations (a.step (.tick react)) ops

end Agenda

/-- A run of the wheel, with the connections that each tick has called back for. -/
def step (fuel : Nat) (st : TimerWheel × List (List Nat)) :
    WheelOp → Option (TimerWheel × List (List Nat))
  | .conn c op => some (st.1.apply c op, st.2)
  | .tick react =>
    (tick (fun c (st : TimerWheel × List Nat) => (st.1.applyAll c (react c), st.2 ++ [c])) fuel
      (st.1, [])).map fun r => (r.1.1, st.2 ++ [r.1.2])

def run (fuel : Nat) (ops : List WheelOp) : Option (TimerWheel × List (List Nat)) :=
  ops.foldlM (step fuel) ({}, [])

/-! ## The wheel keeps to the agenda -/

/-- The slot that the tick number `t` empties. -/
def dueSlot (t : Nat) : Fin 64 := Fin.ofNat 64 (t - 1)

/-- The lists hold the connections that are due, each in the slot of its tick. -/
def Matches (lists : Lists) (due : Nat → Option Nat) : Prop :=
  ∀ c k, c ∈ lists k ↔ (due c).map dueSlot = some k

/-- The wheel holds exactly what is on the agenda, and nothing is due later than in one turn. -/
structure Tracks (w : TimerWheel) (a : Agenda) : Prop where
  holds : ∃ lists, Holds w lists ∧ Matches lists a.due
  cursor : slotOf w.cursor = dueSlot (a.ticks + 1)
  window : ∀ c t, a.due c = some t → a.ticks < t ∧ t ≤ a.ticks + 64

theorem val_dueSlot (t : Nat) : (dueSlot t).val = (t - 1) % 64 := rfl

/-- Where a connection is put that is due at `t`. -/
theorem slotOf_add {w : TimerWheel} {ticks t : Nat} {seconds : UInt32}
    (hcursor : slotOf w.cursor = dueSlot (ticks + 1)) (ht : (t - 1) % 64 = (ticks + seconds.toNat) % 64) :
    slotOf (w.cursor + seconds) = dueSlot t := by
  have hc := congrArg Fin.val hcursor
  rw [val_slotOf, val_dueSlot] at hc
  apply Fin.ext
  rw [val_slotOf, val_dueSlot, UInt32.toNat_add]
  omega

variable {a : Agenda}

theorem slotOf_outside (hcursor : slotOf w.cursor = dueSlot (a.ticks + 1))
    (seconds : UInt32) : slotOf (w.cursor + seconds) = dueSlot (a.outside seconds) := by
  apply slotOf_add hcursor
  rw [Agenda.outside]
  omega

theorem slotOf_inside (hcursor : slotOf w.cursor = dueSlot (a.ticks + 1))
    (seconds : UInt32) : slotOf (w.cursor + seconds) = dueSlot (a.inside seconds) := by
  apply slotOf_add hcursor
  rw [Agenda.inside]
  split
  · next hzero =>
    subst hzero
    show (a.ticks + 1 + 64 - 1) % 64 = (a.ticks + 0) % 64
    omega
  · omega

/-- An operation on a connection that is free but for the place it has been given. -/
theorem holds_apply {at_ : UInt32 → Nat} {d : Option Nat} {op : TimerOp}
    (hslot : ∀ seconds, slotOf (w.cursor + seconds) = dueSlot (at_ seconds))
    (hfree : Free lists c) (h : Holds w (place lists c (d.map dueSlot))) (hop : op.Allowed d) :
    Holds (w.apply c op) (place lists c ((op.plan at_).map dueSlot)) := by
  have hwithout := without_place hfree (d.map dueSlot)
  cases op with
  | add seconds =>
    obtain ⟨rfl, -⟩ := hop
    have hadd := Holds.add h hfree seconds
    rw [hslot] at hadd
    exact hadd
  | refresh seconds =>
    have hrefresh := Holds.refresh h c seconds
    rw [hwithout, hslot] at hrefresh
    exact hrefresh
  | remove =>
    have hremove := Holds.remove h c
    rw [hwithout] at hremove
    exact hremove

theorem holds_applyAll {at_ : UInt32 → Nat} {d : Option Nat} {ops : List TimerOp}
    (hslot : ∀ seconds, slotOf (w.cursor + seconds) = dueSlot (at_ seconds))
    (hfree : Free lists c) (h : Holds w (place lists c (d.map dueSlot)))
    (hops : AllowedAll at_ d ops) :
    Holds (w.applyAll c ops) (place lists c ((plans at_ d ops).map dueSlot)) ∧
      (w.applyAll c ops).cursor = w.cursor := by
  induction ops generalizing w d with
  | nil => exact ⟨h, rfl⟩
  | cons op ops ih =>
    obtain ⟨hhead, htail⟩ := hops
    have hcursor := cursor_apply w c op
    obtain ⟨hrest, hrest'⟩ := ih (w := w.apply c op) (fun seconds => hcursor ▸ hslot seconds)
      (holds_apply hslot hfree h hhead) htail
    exact ⟨hrest, hrest'.trans hcursor⟩

theorem matches_place {due : Nat → Option Nat} (hfree : Free lists c)
    (hmatch : ∀ d, d ≠ c → ∀ k, d ∈ lists k ↔ (due d).map dueSlot = some k) :
    Matches (place lists c ((due c).map dueSlot)) due := by
  intro d k
  rw [mem_place hfree]
  by_cases hd : d = c
  · subst hd
    simp
  · simp only [hd, false_and, false_or, ne_eq, not_false_eq_true, true_and]
    exact hmatch d hd k

/-- The callbacks of a tick keep to the agenda. `ys` are still to come. -/
structure Expiring (a : Agenda) (react : Nat → List TimerOp) (all ys : List Nat)
    (st : TimerWheel × List Nat) : Prop where
  done : st.2 ++ ys = all
  cursor : slotOf st.1.cursor = dueSlot (a.ticks + 1)
  holds : ∃ lists zs, Holds st.1 lists ∧ lists (dueSlot (a.ticks + 1)) = zs ++ ys ∧
    Matches lists fun c => if c ∈ st.2 then plans a.inside none (react c) else a.due c

theorem Expiring.step {react : Nat → List TimerOp} {all ys : List Nat} {y : Nat}
    {st : TimerWheel × List Nat}
    (hallowed : ∀ c ∈ all, AllowedAll a.inside none (react c))
    (h : Expiring a react all (y :: ys) st) :
    Expiring a react all ys ((st.1.remove y).applyAll y (react y), st.2 ++ [y]) := by
  obtain ⟨lists, zs, hholds, hlist, hmatch⟩ := h.holds
  have hy : y ∈ all := h.done ▸ mem_append_right _ (.head _)
  obtain ⟨hout, hcursor⟩ := holds_applyAll (w := st.1.remove y) (d := none)
    (slotOf_inside h.cursor) (hholds.free_without y) (hholds.remove y) (hallowed y hy)
  have hother : ∀ d, d ≠ y → ∀ k, d ∈ without lists y k ↔
      ((fun c => if c ∈ st.2 ++ [y] then plans a.inside none (react c) else a.due c) d).map dueSlot =
        some k := by
    intro d hd k
    have hmem : d ∈ st.2 ++ [y] ↔ d ∈ st.2 := by simp [hd]
    show d ∈ (lists k).erase y ↔ _
    rw [mem_erase_of_ne hd, hmatch d k]
    simp only [hmem]
  refine ⟨?_, ?_, ?_⟩
  · rw [append_assoc]
    exact h.done
  · rw [hcursor]
    exact h.cursor
  · -- the rest of the list is behind the connections that have been put back
    obtain ⟨front, hfront⟩ := place_eq_append (without lists y) y
      ((plans a.inside none (react y)).map dueSlot) (dueSlot (a.ticks + 1))
    have hyz : y ∉ zs := by
      have hnodup := hholds.nodup (dueSlot (a.ticks + 1))
      rw [hlist] at hnodup
      exact fun hmem => (nodup_append.mp hnodup).2.2 y hmem y (.head _) rfl
    refine ⟨_, front ++ zs, hout, ?_, ?_⟩
    · rw [hfront, without, hlist, erase_append_right _ hyz, erase_cons_head,
        append_assoc]
    · have hnew := matches_place (hholds.free_without y) hother
      rw [if_pos (mem_append_right _ (mem_singleton_self y))] at hnew
      exact hnew

/-- The next slot has what is due. -/
theorem Tracks.due_iff (h : Tracks w a) {lists : Lists}
    (hmatch : Matches lists a.due) :
    c ∈ lists (dueSlot (a.ticks + 1)) ↔ a.expires c := by
  rw [hmatch c, Agenda.expires]
  cases hdue : a.due c with
  | none => exact iff_of_false nofun nofun
  | some t =>
    have hwin := h.window c t hdue
    rw [Option.map_some, Option.some.injEq, Option.some.injEq, Fin.ext_iff, val_dueSlot, val_dueSlot]
    omega

theorem slotOf_succ {ticks : Nat} {cursor : UInt32} (h : slotOf cursor = dueSlot (ticks + 1)) :
    slotOf (cursor + 1) = dueSlot (ticks + 1 + 1) := by
  have hc := congrArg Fin.val h
  rw [val_slotOf, val_dueSlot] at hc
  apply Fin.ext
  rw [val_slotOf, val_dueSlot, UInt32.toNat_add]
  show (cursor.toNat + 1) % 2 ^ 32 % 64 = _
  omega

theorem plans_inside {ops : List TimerOp} {d : Option Nat} {t : Nat}
    (hd : ∀ t, d = some t → a.ticks + 1 < t ∧ t ≤ a.ticks + 1 + 64) (hops : AllowedAll a.inside d ops)
    (h : plans a.inside d ops = some t) : a.ticks + 1 < t ∧ t ≤ a.ticks + 1 + 64 := by
  induction ops generalizing d with
  | nil => exact hd t h
  | cons op ops ih =>
    apply ih _ hops.2 h
    intro t ht
    have hinside : ∀ seconds : UInt32, seconds.toNat ≤ 63 → a.inside seconds = t →
        a.ticks + 1 < t ∧ t ≤ a.ticks + 1 + 64 := by
      intro seconds hseconds he
      rw [Agenda.inside] at he
      split at he
      · omega
      · next hne =>
        have hpos : seconds.toNat ≠ 0 := fun h0 => hne (UInt32.toNat_inj.mp h0)
        omega
    cases op with
    | add seconds => exact hinside seconds hops.1.2 (Option.some.inj ht)
    | refresh seconds => exact hinside seconds hops.1 (Option.some.inj ht)
    | remove => cases ht

/-- A tick expires what is due, each connection once, and then keeps to the agenda. -/
theorem Tracks.tick (h : Tracks w a) {react : Nat → List TimerOp}
    (hallows : a.Allows (.tick react)) {seen : List Nat}
    (hseen : ∀ c, a.due c ≠ none → c ∈ seen) (hfuel : seen.length < fuel) (log : List (List Nat)) :
    ∃ w' expired, step fuel (w, log) (.tick react) = some (w', log ++ [expired]) ∧
      Tracks w' (a.step (.tick react)) ∧ expired.Nodup ∧ ∀ c, c ∈ expired ↔ a.expires c := by
  obtain ⟨lists, hholds, hmatch⟩ := h.holds
  set k := dueSlot (a.ticks + 1) with hk
  have hmem : ∀ c, c ∈ lists k ↔ a.expires c := fun c => h.due_iff hmatch
  have hnodup : (lists k).Nodup := hholds.nodup k
  have hroom : (lists k).length < fuel := by
    have hsub : lists k ⊆ seen := by
      intro c hc
      apply hseen
      rw [(hmem c).mp hc]
      exact nofun
    exact Nat.lt_of_le_of_lt (hnodup.subperm hsub).length_le hfuel
  have hallowed : ∀ c ∈ lists k, AllowedAll a.inside none (react c) :=
    fun c hc => hallows c ((hmem c).mp hc)
  have hstart : Expiring a react (lists k) (lists k) (w, []) :=
    ⟨nil_append _, h.cursor, lists, [], hholds, rfl, fun c k => by simpa using hmatch c k⟩
  have hloop : ∃ st : TimerWheel × List Nat,
      TimerWheel.tick (fun c (st : TimerWheel × List Nat) =>
          (st.1.applyAll c (react c), st.2 ++ [c])) fuel (w, []) =
        some (({ st.1 with cursor := st.1.cursor + 1 }, st.2), (lists k).length) ∧
      Expiring a react (lists k) [] st := by
    apply tick_spec (P := Expiring a react (lists k)) hholds
    · exact fun ys st hst => hst.holds.imp fun _ => .imp fun _ h => ⟨h.1, h.2.1⟩
    · exact fun y ys st hst => hst.step hallowed
    · exact h.cursor
    · exact hstart
    · exact hroom
  obtain ⟨st, hrun, hdone⟩ := hloop
  have hexpired : st.2 = lists k := by
    have := hdone.done
    rwa [append_nil] at this
  obtain ⟨lists', -, hholds', -, hmatch'⟩ := hdone.holds
  refine ⟨{ st.1 with cursor := st.1.cursor + 1 }, st.2, ?_, ⟨⟨lists', hholds', ?_⟩, ?_, ?_⟩, ?_, ?_⟩
  · show (TimerWheel.tick _ fuel (w, [])).map _ = _
    rw [hrun]
    rfl
  · intro c k
    rw [hmatch' c k]
    show Option.map _ (if c ∈ st.2 then _ else _) = _ ↔ Option.map _ (if a.expires c then _ else _) = _
    rw [hexpired]
    simp only [hmem]
  · exact slotOf_succ hdone.cursor
  · intro c t ht
    show a.ticks + 1 < t ∧ t ≤ a.ticks + 1 + 64
    replace ht : (if a.expires c then plans a.inside none (react c) else a.due c) = some t := ht
    split at ht
    · next hc => exact plans_inside (d := none) (fun _ h => nomatch h) (hallows c hc) ht
    · next hc =>
      have hwin := h.window c t ht
      have hne : t ≠ a.ticks + 1 := by
        rintro rfl
        exact hc ht
      omega
  · rw [hexpired]
    exact hnodup
  · intro c
    rw [hexpired]
    exact hmem c

/-- An operation outside of a tick. -/
theorem Tracks.apply (h : Tracks w a) {op : TimerOp} (hallows : op.Allowed (a.due c)) :
    Tracks (w.apply c op) (a.step (.conn c op)) := by
  obtain ⟨lists, hholds, hmatch⟩ := h.holds
  have hslot := slotOf_outside h.cursor
  have hother : ∀ d, d ≠ c → ∀ k, d ∈ without lists c k ↔
      (update a.due c (op.plan a.outside) d).map dueSlot = some k := by
    intro d hd k
    rw [update_of_ne hd]
    exact (mem_erase_of_ne hd).trans (hmatch d k)
  have hout : Holds (w.apply c op)
      (place (without lists c) c ((op.plan a.outside).map dueSlot)) := by
    cases op with
    | add seconds =>
      have hfree : Free lists c := by
        intro k hc
        rw [hmatch c k, hallows.1] at hc
        cases hc
      rw [without_of_free hfree]
      have hadd := hholds.add hfree seconds
      rw [hslot] at hadd
      exact hadd
    | refresh seconds =>
      have hrefresh := hholds.refresh c seconds
      rw [hslot] at hrefresh
      exact hrefresh
    | remove => exact hholds.remove c
  refine ⟨⟨_, hout, ?_⟩, ?_, ?_⟩
  · have hnew := matches_place (hholds.free_without c) hother
    rw [update_self] at hnew
    exact hnew
  · rw [cursor_apply]
    exact h.cursor
  · intro d t ht
    by_cases hd : d = c
    · subst hd
      replace ht : update a.due d (op.plan a.outside) d = some t := ht
      rw [update_self] at ht
      have houtside : ∀ seconds : UInt32, seconds.toNat ≤ 63 → a.outside seconds = t →
          a.ticks < t ∧ t ≤ a.ticks + 64 := by
        intro seconds hseconds he
        rw [Agenda.outside] at he
        omega
      cases op with
      | add seconds => exact houtside seconds hallows.2 (Option.some.inj ht)
      | refresh seconds => exact houtside seconds hallows (Option.some.inj ht)
      | remove => cases ht
    · replace ht : update a.due c (op.plan a.outside) d = some t := ht
      rw [update_of_ne hd] at ht
      exact h.window d t ht

/-! ## Every run -/

/-- A tick has called back for the connections that were due, for each of them once. -/
def OnTime (expired : List Nat) (due : Nat → Prop) : Prop :=
  expired.Nodup ∧ ∀ c, c ∈ expired ↔ due c

/-- The wheel keeps to the agenda in every run. -/
theorem Tracks.run {ops : List WheelOp} {seen : List Nat}
    (h : Tracks w a) (hvalid : a.Valid ops) (hseen : ∀ c, a.due c ≠ none → c ∈ seen)
    (hfuel : seen.length + ops.length < fuel) (log : List (List Nat)) :
    ∃ w' log', ops.foldlM (TimerWheel.step fuel) (w, log) = some (w', log ++ log') ∧
      List.Forall₂ OnTime log' (a.expirations ops) := by
  induction ops generalizing w a seen log with
  | nil => exact ⟨w, [], by rw [append_nil]; rfl, .nil⟩
  | cons op ops ih =>
    obtain ⟨hop, hops⟩ := hvalid
    rw [length_cons] at hfuel
    cases op with
    | conn c op =>
      have hseen' : ∀ d, (a.step (.conn c op)).due d ≠ none → d ∈ c :: seen := by
        intro d hd
        by_cases hdc : d = c
        · exact hdc ▸ .head _
        · apply mem_cons_of_mem _ (hseen d _)
          replace hd : update a.due c (op.plan a.outside) d ≠ none := hd
          rwa [update_of_ne hdc] at hd
      have hfuel' : (c :: seen).length + ops.length < fuel := by
        rw [length_cons]
        omega
      exact ih (h.apply hop) hops hseen' hfuel' log
    | tick react =>
      have hroom : seen.length < fuel := by omega
      obtain ⟨w₁, expired, hstep, htracks, htime⟩ := h.tick hop hseen hroom log
      have hseen' : ∀ c, (a.step (.tick react)).due c ≠ none → c ∈ seen := by
        intro c hc
        apply hseen
        intro hnone
        apply hc
        show (if a.expires c then _ else a.due c) = none
        rw [if_neg (by rw [Agenda.expires, hnone]; exact nofun), hnone]
      obtain ⟨w', log', hrun, hlog⟩ := ih htracks hops hseen' (by omega) (log ++ [expired])
      refine ⟨w', expired :: log', ?_, .cons htime hlog⟩
      rw [foldlM_cons, hstep]
      show ops.foldlM _ _ = _
      rw [hrun, append_assoc]
      rfl

/-- Every tick of a run ends, and expires exactly the connections that the agenda says are due. -/
theorem expires_on_time (ops : List WheelOp) (hvalid : Agenda.Valid {} ops) (fuel : Nat)
    (hfuel : ops.length < fuel) :
    ∃ w log, run fuel ops = some (w, log) ∧
      List.Forall₂ OnTime log (Agenda.expirations {} ops) := by
  have hinit : Tracks {} {} := by
    refine ⟨⟨_, holds_empty, fun c k => ?_⟩, rfl, fun c t h => nomatch h⟩
    exact iff_of_false not_mem_nil nofun
  have hseen : ∀ c, ({} : Agenda).due c ≠ none → c ∈ ([] : List Nat) := fun c h => absurd rfl h
  exact hinit.run hvalid hseen (by rw [length_nil]; omega) []

/-- A connection that is due at once; its callback asks for one second, and then for none. -/
def everySecond : List WheelOp :=
  [.conn 7 (.add 0), .tick fun _ => [.refresh 1], .tick fun _ => [.refresh 0], .tick fun _ => []]

theorem expires_on_time_everySecond :
    Agenda.Valid {} everySecond ∧ ∃ w log, run 5 everySecond = some (w, log) ∧
      List.Forall₂ OnTime log (Agenda.expirations {} everySecond) := by
  have hvalid : Agenda.Valid {} everySecond := by
    refine ⟨⟨rfl, by decide⟩, fun c _ => ⟨?_, trivial⟩, fun c _ => ⟨?_, trivial⟩,
      fun c _ => trivial, trivial⟩
    · show (1 : UInt32).toNat ≤ 63
      decide
    · show (0 : UInt32).toNat ≤ 63
      decide
  exact ⟨hvalid, expires_on_time everySecond hvalid 5 (by decide)⟩

/-- In a callback, one second is over at the first tick that follows, not at the second; and no
seconds are not over at the first. -/
theorem run_everySecond : (run 5 everySecond).map (·.2) = some [[7], [7], []] := by
  decide

end TimerWheel

end Rut
