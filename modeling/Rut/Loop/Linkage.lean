import Rut.Conn.World
import Rut.Loop.TimerWheel

/-!
# Who links a timer

The event loops and the callbacks as far as they touch the timer of a connection: `event_loop.h`
(the legacy loop), `epoll_event_loop.h`, `iouring_event_loop.h` and `callbacks_impl.h`. What a
callback does otherwise is left open: it ends with the connection waiting, closed, or in the hands of
a handler, and has perhaps gone on to a pipelined request before that.

`TimerWheel::add` must not be called for a node that is in a list. The calls are

    on_accept                  after `reset()`, which makes the node of a closed connection point
                               to itself
    schedule_yield_timer       after `timer.remove`, where the precise timer is not to be had
    handle_jit_outcome         where `schedule_yield_timer` has refused a `TimerYield`, trusting
                               that it has removed the node before

The legacy loop refuses without removing anything.
-/

namespace Rut

open TimerWheel List

/-- The event loops. -/
inductive LoopFlavour where
  | legacy | epoll | ioUring
deriving DecidableEq, Repr

/-- `kSupportsEventYieldResume` -/
def LoopFlavour.supportsEventYieldResume : LoopFlavour → Bool
  | .legacy => false
  | _ => true

/-- What is read of a connection where its timer is decided on. -/
structure TimedConn where
  isOpen : Bool := false
  /-- some callback slot is set -/
  hasSlots : Bool := false
  /-- there is a `pending_handler_fn`, which waits for this kind of event -/
  pending : Option YieldKind := none
  yieldArmed : Bool := false
deriving DecidableEq, Repr

/-- The connections of a loop. Closed ones are free, or wait for their last completions. -/
structure ConnTable where
  conns : Nat → TimedConn := fun _ => {}
  freeStack : List Nat := []
  pendingFree : List Nat := []
  /-- for the statements: some node was in a list when it was added -/
  addedLinked : Bool := false

abbrev TimedLoop := TimerWheel × ConnTable

/-- The answers a handler that yields gets from the backend. -/
structure YieldAnswers where
  /-- the connect, send or receive it waits for has been started -/
  started : Bool := true
  /-- the yield heap has room, or a timeout could be submitted -/
  precise : Bool := true
  /-- a receive is armed, or could be, for a yield with a timer and for any yield -/
  recvForTimer : Bool := true
  recvReady : Bool := true
deriving DecidableEq, Repr

/-- A call of a handler that has yielded before. -/
structure Resumption where
  outcome : JitDispatchOutcome := .error
  answers : YieldAnswers := {}
  /-- operations are in flight if the connection is closed -/
  opsInFlight : Bool := false

/-- How a callback ends. -/
inductive CallbackEnd where
  | waits
  | closes
  | handler (outcome : JitDispatchOutcome)

structure CallbackRun where
  /-- the callback has come to a further request by `pipeline_dispatch` -/
  pipelined : Bool := false
  ends : CallbackEnd := .waits
  answers : YieldAnswers := {}
  opsInFlight : Bool := false

def timerSecondsFromMs (ms : Nat) : UInt32 :=
  if ms = 0 then 0
  else
    let secs := (ms + 999) / 1000
    if secs > 0xffffffff then 0xffffffff else UInt32.ofNat secs

namespace TimedLoop

/-! ## Timers and connections -/

def conn (t : TimedLoop) (c : Nat) : TimedConn := t.2.conns c

def setConn (t : TimedLoop) (c : Nat) (x : TimedConn) : TimedLoop :=
  (t.1, { t.2 with conns := Function.update t.2.conns c x })

def timerAdd (t : TimedLoop) (c : Nat) (seconds : UInt32) : TimedLoop :=
  (t.1.add c seconds, { t.2 with addedLinked := t.2.addedLinked || t.1.linked c })

def timerRefresh (t : TimedLoop) (c : Nat) (seconds : UInt32) : TimedLoop :=
  (t.1.refresh c seconds, t.2)

def timerRemove (t : TimedLoop) (c : Nat) : TimedLoop := (t.1.remove c, t.2)

/-- `reset()`, which also initialises the node. -/
def reset (t : TimedLoop) (c : Nat) : TimedLoop :=
  ({ t.1 with links := t.1.links.init (.conn c) }, (t.setConn c {}).2)

/-- `close_conn`, with `free_conn_impl`: the slot is free at once unless operations are in flight. -/
def closeConn (t : TimedLoop) (c : Nat) (opsInFlight : Bool) : TimedLoop :=
  let t := (t.timerRemove c).reset c
  if opsInFlight then (t.1, { t.2 with pendingFree := t.2.pendingFree ++ [c] })
  else (t.1, { t.2 with freeStack := c :: t.2.freeStack })

def park (t : TimedLoop) (c : Nat) (kind : YieldKind) : TimedLoop :=
  t.setConn c { t.conn c with pending := some kind, hasSlots := false }

/-- The callbacks are in charge: there is something to send or to wait for. -/
def await (t : TimedLoop) (c : Nat) : TimedLoop :=
  t.setConn c { t.conn c with pending := none, hasSlots := true }

def setYieldArmed (t : TimedLoop) (c : Nat) (armed : Bool) : TimedLoop :=
  t.setConn c { t.conn c with yieldArmed := armed }

/-! ## Handlers -/

/-- The end of `schedule_yield_timer` where there is no precise timer. -/
def scheduleOnWheel (t : TimedLoop) (c : Nat) (ms : Nat) : TimedLoop × Bool :=
  let secs := timerSecondsFromMs ms
  if secs ≥ 64 then (t, false)
  else ((t.setYieldArmed c true).timerAdd c (if secs = 0 then 1 else secs), true)

def scheduleYieldTimer (f : LoopFlavour) (a : YieldAnswers) (t : TimedLoop) (c : Nat) (ms : Nat) :
    TimedLoop × Bool :=
  match f with
  | .legacy => (t, false)
  | .epoll =>
    let t := t.timerRemove c
    if a.precise then (t.setYieldArmed c true, true) else t.scheduleOnWheel c ms
  | .ioUring =>
    let t := t.timerRemove c
    if !a.recvForTimer then (t, false)
    else if a.precise then (t.setYieldArmed c true, true)
    else t.scheduleOnWheel c ms

/-- `disarm_yield_timer`; the legacy loop has only the flag. -/
def disarmYieldTimer (f : LoopFlavour) (t : TimedLoop) (c : Nat) : TimedLoop :=
  match f with
  | .legacy => t.setYieldArmed c false
  | _ => if (t.conn c).yieldArmed then (t.setYieldArmed c false).timerRemove c else t

/-- The branch `TimerYield` of `handle_jit_outcome`. -/
def timerYield (f : LoopFlavour) (keepalive : UInt32) (a : YieldAnswers) (t : TimedLoop) (c : Nat)
    (ms : Nat) : TimedLoop :=
  let r := scheduleYieldTimer f a (t.park c .timer) c ms
  if r.2 then r.1 else (r.1.await c).timerAdd c keepalive

/-- The timer of an `EventYield`: only a wait for any event has one. -/
def yieldTimer (f : LoopFlavour) (a : YieldAnswers) (t : TimedLoop) (c : Nat) (kind : YieldKind)
    (ms : Nat) : TimedLoop × Bool :=
  if kind = .any ∧ ms ≠ 0 then scheduleYieldTimer f a t c ms else (t, true)

/-- The branch `EventYield`. -/
def eventYield (f : LoopFlavour) (keepalive : UInt32) (a : YieldAnswers) (t : TimedLoop) (c : Nat)
    (kind : YieldKind) (ms : Nat) : TimedLoop :=
  let t := t.park c kind
  if !f.supportsEventYieldResume || kind = .send || !a.started then t.await c
  else
    let r := yieldTimer f a t c kind ms
    if !r.2 then (r.1.await c).timerRefresh c keepalive
    else if (kind = .any ∨ kind = .recv) ∧ !a.recvReady then
      let t := if (r.1.conn c).yieldArmed then (r.1.disarmYieldTimer f c).timerRefresh c keepalive
        else r.1
      t.await c
    else r.1

def handleJitOutcome (f : LoopFlavour) (keepalive : UInt32) (a : YieldAnswers) (t : TimedLoop)
    (c : Nat) : JitDispatchOutcome → TimedLoop
  | .timerYield _ ms => timerYield f keepalive a t c ms
  | .eventYield kind _ ms => eventYield f keepalive a t c kind ms
  | .returnStatus .. | .forward _ | .error => t.await c

def resumeJitHandler (f : LoopFlavour) (keepalive : UInt32) (r : Resumption) (t : TimedLoop)
    (c : Nat) : TimedLoop :=
  handleJitOutcome f keepalive r.answers (t.timerRefresh c keepalive) c r.outcome

/-! ## Events -/

/-- A callback, from the slot of a connection. -/
def runCallback (f : LoopFlavour) (keepalive : UInt32) (r : CallbackRun) (t : TimedLoop) (c : Nat) :
    TimedLoop :=
  let t := if r.pipelined then t.timerRefresh c keepalive else t
  match r.ends with
  | .waits => t.await c
  | .closes => t.closeConn c r.opsInFlight
  | .handler outcome => handleJitOutcome f keepalive r.answers t c outcome

/-- The callback of `timer.tick`. -/
def onExpire (f : LoopFlavour) (keepalive : UInt32) (r : Nat → Resumption) (c : Nat) (t : TimedLoop) :
    TimedLoop :=
  match f with
  | .legacy => t.closeConn c (r c).opsInFlight
  | _ =>
    match (t.conn c).pending with
    | some kind =>
      if kind = .timer ∨ ((t.conn c).yieldArmed ∧ yieldKindMatchesEvent kind .timeout) then
        resumeJitHandler f keepalive (r c) (t.setYieldArmed c false) c
      else t.closeConn c (r c).opsInFlight
    | none => t.closeConn c (r c).opsInFlight

/-- The client has gone while a handler sleeps. -/
def hangsUp (f : LoopFlavour) (type : IoEventType) (result : Int) (more : Bool) : Bool :=
  match f with
  | .ioUring => type = .recv && ((result < 0 && result ≠ -125) || (!more && result = 0))
  | _ => type = .recv && result ≤ 0

/-- What happens to a loop. -/
inductive Event where
  /-- a client; setting up TLS for it may fail -/
  | accept (tlsFails : Bool)
  /-- a completion for a connection: its callback runs, or the handler that waits for it -/
  | completion (c : Nat) (type : IoEventType) (result : Int) (more : Bool) (run : CallbackRun)
      (resume : Resumption)
  /-- the precise timer of a connection, of its current generation -/
  | handlerTimer (c : Nat) (resume : Resumption)
  /-- so many ticks of the wheel -/
  | timeout (ticks : List (Nat → Resumption))
  /-- closed while the loop drains -/
  | drainClose (c : Nat) (opsInFlight : Bool)
  /-- the last completion of a closed connection -/
  | reclaim (c : Nat)

/-- `on_accept` -/
def accept (keepalive : UInt32) (tlsFails : Bool) (t : TimedLoop) : TimedLoop :=
  match t.2.freeStack with
  | [] => t
  | c :: rest =>
    let t := reset (t.1, { t.2 with freeStack := rest }) c
    let t := t.setConn c { isOpen := true }
    if tlsFails then t.closeConn c false else (t.await c).timerAdd c keepalive

/-- `dispatch`, for a completion. -/
def dispatch (f : LoopFlavour) (keepalive : UInt32) (t : TimedLoop) (c : Nat) (type : IoEventType)
    (result : Int) (more : Bool) (run : CallbackRun) (resume : Resumption) : TimedLoop :=
  if (t.conn c).hasSlots then runCallback f keepalive run (t.timerRefresh c keepalive) c
  else
    match f, (t.conn c).pending with
    | .legacy, _ => t
    | _, none => t
    | _, some kind =>
      if yieldKindMatchesEvent kind type then
        resumeJitHandler f keepalive resume (t.disarmYieldTimer f c) c
      else if hangsUp f type result more then t.closeConn c resume.opsInFlight
      else t

/-- The wake-up of a handler by its precise timer. -/
def onHandlerTimer (f : LoopFlavour) (keepalive : UInt32) (t : TimedLoop) (c : Nat)
    (resume : Resumption) : TimedLoop :=
  match f, (t.conn c).pending with
  | .legacy, _ => t
  | _, none => t
  | _, some kind =>
    if kind = .timer ∨ yieldKindMatchesEvent kind .handlerTimer then
      resumeJitHandler f keepalive resume (t.setYieldArmed c false) c
    else t

def step (f : LoopFlavour) (keepalive : UInt32) (fuel : Nat) (t : TimedLoop) :
    Event → Option TimedLoop
  | .accept tlsFails => some (t.accept keepalive tlsFails)
  | .completion c type result more run resume =>
    some (dispatch f keepalive t c type result more run resume)
  | .handlerTimer c resume => some (onHandlerTimer f keepalive t c resume)
  | .timeout ticks =>
    ticks.foldlM (fun t r => (tick (onExpire f keepalive r) fuel t).map (·.1)) t
  | .drainClose c opsInFlight => some (if (t.conn c).isOpen then t.closeConn c opsInFlight else t)
  | .reclaim c =>
    some (if c ∈ t.2.pendingFree then
      (t.1, { t.2 with
        freeStack := c :: t.2.freeStack
        pendingFree := t.2.pendingFree.erase c })
    else t)

def run (f : LoopFlavour) (keepalive : UInt32) (fuel : Nat) (t : TimedLoop) (events : List Event) :
    Option TimedLoop :=
  events.foldlM (step f keepalive fuel) t

/-- A loop with so many connections, all of them free. -/
def start (maxConns : Nat) : TimedLoop := ({}, { freeStack := List.range maxConns })

/-! ## The invariant -/

variable {n : Nat} {f : LoopFlavour} {keepalive : UInt32} {t : TimedLoop} {lists : Lists} {c : Nat}

/-- The wheel holds open connections only, and a closed one has nothing left. -/
structure Inv (n : Nat) (lists : Lists) (t : TimedLoop) : Prop where
  holds : t.1.Holds lists
  live : ∀ c k, c ∈ lists k → (t.conn c).isOpen = true
  closed : ∀ c, (t.conn c).isOpen = false → t.conn c = {}
  spare_nodup : (t.2.freeStack ++ t.2.pendingFree).Nodup
  spare : ∀ c ∈ t.2.freeStack ++ t.2.pendingFree, (t.conn c).isOpen = false ∧ c < n
  bound : ∀ c, (t.conn c).isOpen = true → c < n
  added : t.2.addedLinked = false

theorem conn_setConn (t : TimedLoop) (c d : Nat) (x : TimedConn) :
    (t.setConn c x).conn d = if d = c then x else t.conn d := by
  show Function.update t.2.conns c x d = _
  rw [Function.update_apply]
  rfl

/-- Nothing is linked at the start. -/
theorem inv_start (n : Nat) : Inv n (fun _ => []) (start n) where
  holds := holds_empty
  live _ _ h := nomatch h
  closed _ _ := rfl
  spare_nodup := by
    show (List.range n ++ []).Nodup
    rw [append_nil]
    exact nodup_range
  spare := by
    intro c hc
    replace hc : c ∈ List.range n ++ [] := hc
    rw [append_nil, mem_range] at hc
    exact ⟨rfl, hc⟩
  bound _ h := nomatch h
  added := rfl

/-- The invariant while connection `c` is handled: the other connections are where they were, and `c`
has at most been put at the front of a slot. -/
structure At (n : Nat) (lists : Lists) (c : Nat) (t : TimedLoop) : Prop where
  free : Free lists c
  isOpen : (t.conn c).isOpen = true
  inv : ∃ o, Inv n (place lists c o) t

/-- The node of `c` is in no list. -/
structure Off (n : Nat) (lists : Lists) (c : Nat) (t : TimedLoop) : Prop where
  free : Free lists c
  isOpen : (t.conn c).isOpen = true
  inv : Inv n lists t

theorem Off.at (h : Off n lists c t) : At n lists c t := ⟨h.free, h.isOpen, none, h.inv⟩

/-- A step that only moves the node of `c`. -/
theorem Inv.move (h : Inv n lists t) {w : TimerWheel} {lists' : Lists} (hholds : w.Holds lists')
    (hmem : ∀ d k, d ∈ lists' k → (t.conn d).isOpen = true) : Inv n lists' (w, t.2) :=
  ⟨hholds, hmem, h.closed, h.spare_nodup, h.spare, h.bound, h.added⟩

theorem mem_place_live {base : Lists} {o : Option (Fin 64)} (hfree : Free base c)
    (hopen : (t.conn c).isOpen = true) (hlive : ∀ d k, d ∈ base k → (t.conn d).isOpen = true) :
    ∀ d k, d ∈ place base c o k → (t.conn d).isOpen = true := by
  intro d k hd
  rcases (mem_place hfree o).mp hd with ⟨rfl, -⟩ | ⟨-, hd⟩
  · exact hopen
  · exact hlive d k hd

theorem Inv.at_refresh (h : Inv n lists t) (hopen : (t.conn c).isOpen = true) (seconds : UInt32) :
    At n (without lists c) c (t.timerRefresh c seconds) := by
  refine ⟨h.holds.free_without c, hopen, _, h.move (h.holds.refresh c seconds) ?_⟩
  apply mem_place_live (h.holds.free_without c) hopen
  exact fun d k hd => h.live d k (mem_of_mem_erase hd)

/-- A timer that is removed is in no list. -/
theorem Inv.off_remove (h : Inv n lists t) (hopen : (t.conn c).isOpen = true) :
    Off n (without lists c) c (t.timerRemove c) :=
  ⟨h.holds.free_without c, hopen,
    h.move (h.holds.remove c) fun d k hd => h.live d k (mem_of_mem_erase hd)⟩

theorem At.refresh (h : At n lists c t) (seconds : UInt32) :
    At n lists c (t.timerRefresh c seconds) := by
  obtain ⟨o, hinv⟩ := h.inv
  have hat := hinv.at_refresh h.isOpen seconds
  rwa [without_place h.free] at hat

theorem At.remove (h : At n lists c t) : Off n lists c (t.timerRemove c) := by
  obtain ⟨o, hinv⟩ := h.inv
  have hoff := hinv.off_remove h.isOpen
  rwa [without_place h.free] at hoff

/-- A timer in no list may be added. -/
theorem Off.add (h : Off n lists c t) (seconds : UInt32) : At n lists c (t.timerAdd c seconds) := by
  have hunlinked : t.1.linked c = false := by
    rw [← Bool.not_eq_true, h.inv.holds.linked_iff]
    exact fun ⟨k, hk⟩ => h.free k hk
  have hflag : (t.2.addedLinked || t.1.linked c) = false := by
    rw [hunlinked, h.inv.added]
    rfl
  refine ⟨h.free, h.isOpen, _, ⟨h.inv.holds.add h.free seconds, ?_, h.inv.closed, h.inv.spare_nodup,
    h.inv.spare, h.inv.bound, hflag⟩⟩
  exact mem_place_live h.free h.isOpen h.inv.live

variable {x : TimedConn}

/-- The fields of an open connection may change, as long as it stays open. -/
theorem Inv.setConn (h : Inv n lists t) (hopen : (t.conn c).isOpen = true)
    (hx : x.isOpen = true) : Inv n lists (t.setConn c x) := by
  have hsame : ∀ d, ((t.setConn c x).conn d).isOpen = (t.conn d).isOpen := by
    intro d
    rw [conn_setConn]
    split
    · next hd => rw [hx, hd, hopen]
    · rfl
  refine ⟨h.holds, fun d k hd => ?_, fun d hd => ?_, h.spare_nodup, fun d hd => ?_, fun d hd => ?_,
    h.added⟩
  · rw [hsame]
    exact h.live d k hd
  · have hne : d ≠ c := by
      rintro rfl
      rw [hsame, hopen] at hd
      cases hd
    rw [hsame] at hd
    rw [conn_setConn, if_neg hne]
    exact h.closed d hd
  · rw [hsame]
    exact h.spare d hd
  · rw [hsame] at hd
    exact h.bound d hd

theorem isOpen_setConn (hx : x.isOpen = true) :
    ((t.setConn c x).conn c).isOpen = true := by
  rw [conn_setConn, if_pos rfl]
  exact hx

theorem At.setConn (h : At n lists c t) (hx : x.isOpen = true) :
    At n lists c (t.setConn c x) := by
  obtain ⟨o, hinv⟩ := h.inv
  exact ⟨h.free, isOpen_setConn hx, o, hinv.setConn h.isOpen hx⟩

theorem Off.setConn (h : Off n lists c t) (hx : x.isOpen = true) :
    Off n lists c (t.setConn c x) :=
  ⟨h.free, isOpen_setConn hx, h.inv.setConn h.isOpen hx⟩

theorem At.park (h : At n lists c t) (kind : YieldKind) : At n lists c (t.park c kind) :=
  h.setConn h.isOpen

theorem At.await (h : At n lists c t) : At n lists c (t.await c) := h.setConn h.isOpen

theorem Off.await (h : Off n lists c t) : Off n lists c (t.await c) := h.setConn h.isOpen

theorem At.setYieldArmed (h : At n lists c t) (armed : Bool) : At n lists c (t.setYieldArmed c armed) :=
  h.setConn h.isOpen

theorem Off.setYieldArmed (h : Off n lists c t) (armed : Bool) :
    Off n lists c (t.setYieldArmed c armed) :=
  h.setConn h.isOpen

/-! ## Closing -/

theorem init_of_free (h : t.1.Holds lists) (hfree : Free lists c) :
    { t.1 with links := t.1.links.init (.conn c) } = t.1 := by
  obtain ⟨hnext, hprev⟩ := Lib.Rings.loose h (.conn c) (fun _ => nofun)
    (fun k hk => hfree k (mem_map_conn.mp hk))
  have hinit : t.1.links.init (.conn c) = t.1.links := by
    show Lib.Links.mk _ _ = _
    rw [Function.update_eq_self_iff.mpr hprev.symm, Function.update_eq_self_iff.mpr hnext.symm]
  rw [hinit]

/-- A connection that is in no list and whose slot is not among the spare ones is reset. -/
theorem Inv.reset (h : Inv n lists t) (hfree : Free lists c) : Inv n lists (t.reset c) := by
  have hsame : ∀ d, ((t.reset c).conn d) = if d = c then {} else t.conn d :=
    fun d => conn_setConn t c d {}
  refine ⟨?_, fun d k hd => ?_, fun d hd => ?_, h.spare_nodup, fun d hd => ?_, fun d hd => ?_,
    h.added⟩
  · show TimerWheel.Holds { t.1 with links := t.1.links.init (.conn c) } lists
    rw [init_of_free h.holds hfree]
    exact h.holds
  · have hne : d ≠ c := fun e => hfree k (e ▸ hd)
    rw [hsame, if_neg hne]
    exact h.live d k hd
  · rw [hsame] at hd ⊢
    split
    · rfl
    · next hne =>
      rw [if_neg hne] at hd
      exact h.closed d hd
  · rw [hsame]
    split
    · exact ⟨rfl, (h.spare d hd).2⟩
    · exact h.spare d hd
  · rw [hsame] at hd
    split at hd
    · cases hd
    · exact h.bound d hd

theorem At.close (h : At n lists c t) (opsInFlight : Bool) :
    Inv n lists (t.closeConn c opsInFlight) := by
  have hoff := h.remove
  have hreset := hoff.inv.reset hoff.free
  have hnot : c ∉ t.2.freeStack ++ t.2.pendingFree := by
    intro hc
    have := (hoff.inv.spare c hc).1
    rw [hoff.isOpen] at this
    cases this
  have hc : (((t.timerRemove c).reset c).conn c).isOpen = false ∧ c < n := by
    refine ⟨?_, hoff.inv.bound c hoff.isOpen⟩
    show (((t.timerRemove c).setConn c {}).conn c).isOpen = false
    rw [conn_setConn, if_pos rfl]
  cases opsInFlight with
  | true =>
    refine ⟨hreset.holds, hreset.live, hreset.closed, ?_, ?_, hreset.bound, hreset.added⟩
    · show (t.2.freeStack ++ (t.2.pendingFree ++ [c])).Nodup
      rw [← append_assoc]
      refine nodup_append.mpr ⟨hreset.spare_nodup, nodup_singleton c, ?_⟩
      rintro d hd e he rfl
      exact hnot (mem_singleton.mp he ▸ hd)
    · intro d hd
      replace hd : d ∈ t.2.freeStack ++ (t.2.pendingFree ++ [c]) := hd
      rw [← append_assoc, mem_append, mem_singleton] at hd
      rcases hd with hd | rfl
      · exact hreset.spare d hd
      · exact hc
  | false =>
    refine ⟨hreset.holds, hreset.live, hreset.closed, ?_, ?_, hreset.bound, hreset.added⟩
    · exact nodup_cons.mpr ⟨hnot, hreset.spare_nodup⟩
    · intro d hd
      rcases mem_cons.mp hd with rfl | hd
      · exact hc
      · exact hreset.spare d hd

/-! ## Handlers -/

/-- A handler may sleep on the wheel if its node has been removed. -/
theorem Off.scheduleOnWheel (h : Off n lists c t) (ms : Nat) :
    At n lists c (t.scheduleOnWheel c ms).1 ∧
      ((t.scheduleOnWheel c ms).2 = false → Off n lists c (t.scheduleOnWheel c ms).1) := by
  unfold TimedLoop.scheduleOnWheel
  dsimp only
  split
  · exact ⟨h.at, fun _ => h⟩
  · exact ⟨(h.setYieldArmed true).add _, nofun⟩

/-- Except for the legacy loop, a timer that is refused leaves the node removed. -/
theorem At.scheduleYieldTimer (h : At n lists c t) (a : YieldAnswers) (ms : Nat) :
    At n lists c (TimedLoop.scheduleYieldTimer f a t c ms).1 ∧
      (f ≠ .legacy → (TimedLoop.scheduleYieldTimer f a t c ms).2 = false →
        Off n lists c (TimedLoop.scheduleYieldTimer f a t c ms).1) := by
  have hoff := h.remove
  have hprecise : At n lists c ((t.timerRemove c).setYieldArmed c true) :=
    hoff.at.setYieldArmed true
  obtain ⟨hwheel, hrefused⟩ := hoff.scheduleOnWheel ms
  cases f with
  | legacy => exact ⟨h, fun hne => absurd rfl hne⟩
  | epoll =>
    unfold TimedLoop.scheduleYieldTimer
    dsimp only
    split
    · exact ⟨hprecise, fun _ => nofun⟩
    · exact ⟨hwheel, fun _ => hrefused⟩
  | ioUring =>
    unfold TimedLoop.scheduleYieldTimer
    dsimp only
    split
    · exact ⟨hoff.at, fun _ _ => hoff⟩
    · split
      · exact ⟨hprecise, fun _ => nofun⟩
      · exact ⟨hwheel, fun _ => hrefused⟩

theorem At.disarmYieldTimer (h : At n lists c t) (f : LoopFlavour) :
    At n lists c (t.disarmYieldTimer f c) := by
  have hlegacy := h.setYieldArmed false
  have hother : At n lists c
      (if (t.conn c).yieldArmed then (t.setYieldArmed c false).timerRemove c else t) := by
    split
    · exact hlegacy.remove.at
    · exact h
  cases f with
  | legacy => exact hlegacy
  | epoll => exact hother
  | ioUring => exact hother

/-- Going to sleep is safe, except in the legacy loop. -/
theorem At.timerYield (h : At n lists c t) (hf : f ≠ .legacy) (a : YieldAnswers) (ms : Nat) :
    At n lists c (TimedLoop.timerYield f keepalive a t c ms) := by
  obtain ⟨hat, hrefused⟩ := (h.park .timer).scheduleYieldTimer (f := f) a ms
  unfold TimedLoop.timerYield
  dsimp only
  split
  · exact hat
  · next hno =>
    rw [Bool.not_eq_true] at hno
    exact (hrefused hf hno).await.add keepalive

theorem At.eventYield (h : At n lists c t) (a : YieldAnswers) (kind : YieldKind) (ms : Nat) :
    At n lists c (TimedLoop.eventYield f keepalive a t c kind ms) := by
  have hpark := h.park kind
  have htimer : At n lists c (yieldTimer f a (t.park c kind) c kind ms).1 := by
    unfold yieldTimer
    split
    · exact (hpark.scheduleYieldTimer a ms).1
    · exact hpark
  unfold TimedLoop.eventYield
  dsimp only
  split
  · exact hpark.await
  · split
    · exact htimer.await.refresh keepalive
    · split
      · split
        · exact ((htimer.disarmYieldTimer f).refresh keepalive).await
        · exact htimer.await
      · exact htimer

/-- The legacy loop has no timer for a handler that wants one. -/
def Serves (f : LoopFlavour) (outcome : JitDispatchOutcome) : Prop :=
  f = .legacy → ∀ nextState ms, outcome ≠ .timerYield nextState ms

theorem At.handleJitOutcome (h : At n lists c t) {outcome : JitDispatchOutcome}
    (hserves : Serves f outcome) (a : YieldAnswers) :
    At n lists c (TimedLoop.handleJitOutcome f keepalive a t c outcome) := by
  cases outcome with
  | timerYield nextState ms => exact h.timerYield (fun hf => hserves hf nextState ms rfl) a ms
  | eventYield kind nextState ms => exact h.eventYield a kind ms
  | returnStatus statusCode bodyIdx headersIdx => exact h.await
  | forward upstreamId => exact h.await
  | error => exact h.await

theorem At.resumeJitHandler (h : At n lists c t) (hf : f ≠ .legacy) (r : Resumption) :
    At n lists c (TimedLoop.resumeJitHandler f keepalive r t c) :=
  (h.refresh keepalive).handleJitOutcome (fun e => absurd e hf) r.answers

/-! ## Events -/

theorem At.runCallback (h : At n lists c t) {r : CallbackRun}
    (hserves : ∀ outcome, r.ends = .handler outcome → Serves f outcome) :
    ∃ o, Inv n (place lists c o) (TimedLoop.runCallback f keepalive r t c) := by
  have hcome : At n lists c (if r.pipelined then t.timerRefresh c keepalive else t) := by
    split
    · exact h.refresh keepalive
    · exact h
  unfold TimedLoop.runCallback
  dsimp only
  split
  · exact hcome.await.inv
  · exact ⟨none, hcome.close r.opsInFlight⟩
  · next outcome hends => exact (hcome.handleJitOutcome (hserves outcome hends) r.answers).inv

/-- The callback of a tick puts its connection back, or closes it. -/
theorem Off.onExpire (h : Off n lists c t) (r : Nat → Resumption) :
    ∃ o, Inv n (place lists c o) (TimedLoop.onExpire f keepalive r c t) := by
  have hclose : ∃ o, Inv n (place lists c o) (t.closeConn c (r c).opsInFlight) :=
    ⟨none, h.at.close _⟩
  have hresume : f ≠ .legacy → ∃ o, Inv n (place lists c o)
      (TimedLoop.resumeJitHandler f keepalive (r c) (t.setYieldArmed c false) c) :=
    fun hf => ((h.at.setYieldArmed false).resumeJitHandler hf (r c)).inv
  unfold TimedLoop.onExpire
  cases f with
  | legacy => exact hclose
  | epoll =>
    dsimp only
    split
    · split
      · exact hresume nofun
      · exact hclose
    · exact hclose
  | ioUring =>
    dsimp only
    split
    · split
      · exact hresume nofun
      · exact hclose
    · exact hclose

theorem Inv.accept (h : Inv n lists t) (tlsFails : Bool) :
    ∃ lists', Inv n lists' (t.accept keepalive tlsFails) := by
  unfold TimedLoop.accept
  cases hstack : t.2.freeStack with
  | nil => exact ⟨lists, h⟩
  | cons c rest =>
    have hnodup := h.spare_nodup
    have hspare := h.spare
    rw [hstack] at hnodup hspare
    obtain ⟨hclosed, hc⟩ := hspare c (.head _)
    have hfree : Free lists c := by
      intro k hk
      rw [h.live c k hk] at hclosed
      cases hclosed
    -- taken off the stack, still closed
    have htaken : Inv n lists (t.1, { t.2 with freeStack := rest }) :=
      ⟨h.holds, h.live, h.closed, (nodup_cons.mp hnodup).2,
        fun d hd => hspare d (.tail _ hd), h.bound, h.added⟩
    have hreset := htaken.reset hfree
    set t₁ := TimedLoop.reset (t.1, { t.2 with freeStack := rest }) c with ht₁
    have hopened : Off n lists c (t₁.setConn c { isOpen := true }) := by
      refine ⟨hfree, isOpen_setConn rfl, hreset.holds, fun d k hd => ?_, fun d hd => ?_,
        hreset.spare_nodup, fun d hd => ?_, fun d hd => ?_, hreset.added⟩
      · have hne : d ≠ c := fun e => hfree k (e ▸ hd)
        rw [conn_setConn, if_neg hne]
        exact hreset.live d k hd
      · rw [conn_setConn] at hd ⊢
        split at hd
        · cases hd
        · next hne =>
          rw [if_neg hne]
          exact hreset.closed d hd
      · have hne : d ≠ c := by
          rintro rfl
          exact (nodup_cons.mp hnodup).1 hd
        rw [conn_setConn, if_neg hne]
        exact hreset.spare d hd
      · rw [conn_setConn] at hd
        split at hd
        · next hd' => exact hd' ▸ hc
        · exact hreset.bound d hd
    dsimp only
    split
    · exact ⟨lists, hopened.at.close false⟩
    · obtain ⟨o, hdone⟩ := (hopened.await.add keepalive).inv
      exact ⟨_, hdone⟩

/-- A connection that has something set is open. -/
theorem Inv.isOpen_of (h : Inv n lists t) (hne : t.conn c ≠ {}) : (t.conn c).isOpen = true := by
  by_contra hclosed
  exact hne (h.closed c ((Bool.not_eq_true _).mp hclosed))

theorem Inv.isOpen_of_pending (h : Inv n lists t) {kind : YieldKind}
    (hpending : (t.conn c).pending = some kind) : (t.conn c).isOpen = true := by
  apply h.isOpen_of
  intro he
  rw [he] at hpending
  cases hpending

theorem Inv.resumeJitHandler (h : Inv n lists t) (hopen : (t.conn c).isOpen = true)
    (hf : f ≠ .legacy) (r : Resumption) :
    ∃ lists', Inv n lists' (TimedLoop.resumeJitHandler f keepalive r t c) := by
  have hserves : Serves f r.outcome := fun e => absurd e hf
  obtain ⟨o, hinv⟩ := ((h.at_refresh hopen keepalive).handleJitOutcome hserves r.answers).inv
  exact ⟨_, hinv⟩

theorem Inv.disarmYieldTimer (h : Inv n lists t) (hopen : (t.conn c).isOpen = true)
    (hf : f ≠ .legacy) :
    ∃ lists', Inv n lists' (t.disarmYieldTimer f c) ∧
      ((t.disarmYieldTimer f c).conn c).isOpen = true := by
  have hdisarm : t.disarmYieldTimer f c =
      if (t.conn c).yieldArmed then (t.setYieldArmed c false).timerRemove c else t := by
    cases f with
    | legacy => exact absurd rfl hf
    | epoll => rfl
    | ioUring => rfl
  rw [hdisarm]
  split
  · have hunarmed : Inv n lists (t.setYieldArmed c false) := h.setConn hopen hopen
    have hoff := hunarmed.off_remove (isOpen_setConn hopen)
    exact ⟨_, hoff.inv, hoff.isOpen⟩
  · exact ⟨lists, h, hopen⟩

/-- Closing keeps the invariant. -/
theorem Inv.close (h : Inv n lists t) (hopen : (t.conn c).isOpen = true) (opsInFlight : Bool) :
    ∃ lists', Inv n lists' (t.closeConn c opsInFlight) := by
  -- removing the node twice is removing it once
  have hfree := h.holds.free_without c
  have hclose := (h.off_remove hopen).at.close opsInFlight
  have htwice : (t.timerRemove c).timerRemove c = t.timerRemove c := by
    obtain ⟨hnext, hprev⟩ := Lib.Rings.loose (h.holds.remove c) (.conn c) (fun _ => nofun)
      (fun k hk => hfree k (mem_map_conn.mp hk))
    have hsame : (t.1.remove c).remove c = t.1.remove c :=
      congrArg (fun links => ({ t.1 with links } : TimerWheel)) (Lib.unlink_of_loose hnext hprev)
    show ((t.1.remove c).remove c, t.2) = _
    rw [hsame]
    rfl
  unfold TimedLoop.closeConn at hclose ⊢
  rw [htwice] at hclose
  exact ⟨_, hclose⟩

/-- Every completion keeps the invariant. -/
theorem Inv.dispatch (h : Inv n lists t) {type : IoEventType} {result : Int} {more : Bool}
    {run : CallbackRun} {resume : Resumption}
    (hserves : ∀ outcome, run.ends = .handler outcome → Serves f outcome) :
    ∃ lists', Inv n lists' (TimedLoop.dispatch f keepalive t c type result more run resume) := by
  unfold TimedLoop.dispatch
  split
  · next hslots =>
    have hopen : (t.conn c).isOpen = true := by
      apply h.isOpen_of
      intro he
      rw [he] at hslots
      cases hslots
    obtain ⟨o, hinv⟩ := (h.at_refresh hopen keepalive).runCallback hserves
    exact ⟨_, hinv⟩
  · split
    · exact ⟨lists, h⟩
    · exact ⟨lists, h⟩
    · next kind hf hpending =>
      have hopen := h.isOpen_of_pending hpending
      split
      · obtain ⟨lists', hinv, hopen'⟩ := h.disarmYieldTimer hopen hf
        exact hinv.resumeJitHandler hopen' hf resume
      · split
        · exact h.close hopen _
        · exact ⟨lists, h⟩

theorem Inv.onHandlerTimer (h : Inv n lists t) (resume : Resumption) :
    ∃ lists', Inv n lists' (TimedLoop.onHandlerTimer f keepalive t c resume) := by
  unfold TimedLoop.onHandlerTimer
  split
  · exact ⟨lists, h⟩
  · exact ⟨lists, h⟩
  · next kind hf hpending =>
    have hopen := h.isOpen_of_pending hpending
    split
    · have hunarmed : Inv n lists (t.setYieldArmed c false) := h.setConn hopen hopen
      exact hunarmed.resumeJitHandler (isOpen_setConn hopen) hf resume
    · exact ⟨lists, h⟩

/-- A tick ends, and keeps the invariant. -/
theorem Inv.tick (h : Inv n lists t) {fuel : Nat} (hfuel : n < fuel) (r : Nat → Resumption) :
    ∃ t' lists', (TimerWheel.tick (TimedLoop.onExpire f keepalive r) fuel t).map (·.1) = some t' ∧
      Inv n lists' t' := by
  set k := slotOf t.1.cursor with hk
  have hroom : (lists k).length < fuel := by
    have hsub : lists k ⊆ List.range n := by
      intro c hc
      exact mem_range.mpr (h.bound c (h.live c k hc))
    have hle := ((h.holds.nodup k).subperm hsub).length_le
    rw [length_range] at hle
    exact Nat.lt_of_le_of_lt hle hfuel
  have hloop : ∃ t' : TimedLoop, TimerWheel.tick (TimedLoop.onExpire f keepalive r) fuel t =
        some (({ t'.1 with cursor := t'.1.cursor + 1 }, t'.2), (lists k).length) ∧
      ∃ lists' zs, Inv n lists' t' ∧ lists' k = zs ++ [] := by
    apply tick_spec (P := fun ys t => ∃ lists zs, Inv n lists t ∧ lists k = zs ++ ys) h.holds
    · exact fun ys t ⟨lists, zs, hinv, hlist⟩ => ⟨lists, zs, hinv.holds, hlist⟩
    · rintro y ys t ⟨lists, zs, hinv, hlist⟩
      have hy : y ∈ lists k := hlist ▸ mem_append_right _ (.head _)
      obtain ⟨o, hinv'⟩ := (hinv.off_remove (hinv.live y k hy)).onExpire r
      obtain ⟨front, hfront⟩ := place_eq_append (without lists y) y o k
      have hyz : y ∉ zs := by
        have hnodup := hinv.holds.nodup k
        rw [hlist] at hnodup
        exact fun hmem => (nodup_append.mp hnodup).2.2 y hmem y (.head _) rfl
      refine ⟨_, front ++ zs, hinv', ?_⟩
      rw [hfront, without, hlist, erase_append_right _ hyz, erase_cons_head,
        append_assoc]
    · exact hk.symm
    · exact ⟨lists, [], h, rfl⟩
    · exact hroom
  obtain ⟨t', hrun, lists', -, hinv, -⟩ := hloop
  refine ⟨({ t'.1 with cursor := t'.1.cursor + 1 }, t'.2), lists', ?_, ?_⟩
  · rw [hrun]
    rfl
  · exact hinv.move hinv.holds hinv.live

theorem Inv.reclaim (h : Inv n lists t) (hc : c ∈ t.2.pendingFree) :
    Inv n lists (t.1, { t.2 with
      freeStack := c :: t.2.freeStack
      pendingFree := t.2.pendingFree.erase c }) := by
  have hperm : (t.2.freeStack ++ t.2.pendingFree).Perm
      (c :: t.2.freeStack ++ t.2.pendingFree.erase c) :=
    ((perm_cons_erase hc).append_left _).trans perm_middle
  exact ⟨h.holds, h.live, h.closed, hperm.nodup h.spare_nodup,
    fun d hd => h.spare d (hperm.mem_iff.mpr hd), h.bound, h.added⟩

/-- No handler asks the legacy loop for a timer. -/
def Event.Served (f : LoopFlavour) : Event → Prop
  | .completion _ _ _ _ run _ => ∀ outcome, run.ends = .handler outcome → Serves f outcome
  | _ => True

theorem Inv.step (h : Inv n lists t) {fuel : Nat} (hfuel : n < fuel) {e : Event}
    (hserved : e.Served f) :
    ∃ t' lists', TimedLoop.step f keepalive fuel t e = some t' ∧ Inv n lists' t' := by
  cases e with
  | accept tlsFails =>
    obtain ⟨lists', hinv⟩ : ∃ lists', Inv n lists' (t.accept keepalive tlsFails) :=
      h.accept tlsFails
    exact ⟨_, lists', rfl, hinv⟩
  | completion c type result more run resume =>
    obtain ⟨lists', hinv⟩ := h.dispatch hserved
    exact ⟨_, lists', rfl, hinv⟩
  | handlerTimer c resume =>
    obtain ⟨lists', hinv⟩ := h.onHandlerTimer resume
    exact ⟨_, lists', rfl, hinv⟩
  | timeout ticks =>
    show ∃ t' lists', ticks.foldlM _ t = some t' ∧ _
    induction ticks generalizing t lists with
    | nil => exact ⟨t, lists, rfl, h⟩
    | cons r ticks ih =>
      obtain ⟨t₁, lists₁, htick, hinv⟩ := h.tick hfuel r
      obtain ⟨t', lists', hrun, hinv'⟩ := ih hinv hserved
      refine ⟨t', lists', ?_, hinv'⟩
      rw [foldlM_cons, htick]
      exact hrun
  | drainClose c opsInFlight =>
    show ∃ t' lists', some (if (t.conn c).isOpen then t.closeConn c opsInFlight else t) = _ ∧ _
    split
    · next hopen =>
      obtain ⟨lists', hinv⟩ := h.close hopen opsInFlight
      exact ⟨_, lists', rfl, hinv⟩
    · exact ⟨t, lists, rfl, h⟩
  | reclaim c =>
    show ∃ t' lists', some (if c ∈ t.2.pendingFree then _ else t) = _ ∧ _
    split
    · next hc => exact ⟨_, lists, rfl, h.reclaim hc⟩
    · exact ⟨t, lists, rfl, h⟩

theorem Inv.run (h : Inv n lists t) {fuel : Nat} (hfuel : n < fuel) {events : List Event}
    (hserved : ∀ e ∈ events, e.Served f) :
    ∃ t' lists', TimedLoop.run f keepalive fuel t events = some t' ∧ Inv n lists' t' := by
  induction events generalizing t lists with
  | nil => exact ⟨t, lists, rfl, h⟩
  | cons e events ih =>
    obtain ⟨t₁, lists₁, hstep, hinv⟩ := h.step hfuel (hserved e (.head _))
    obtain ⟨t', lists', hrun, hinv'⟩ := ih hinv fun e he => hserved e (.tail _ he)
    refine ⟨t', lists', ?_, hinv'⟩
    show (e :: events).foldlM _ t = _
    rw [foldlM_cons, hstep]
    exact hrun

/-- In every run in which no handler asks the legacy loop for a timer, every tick ends, no node is
added while it is in a list, and the pointers form circular lists that share no connection. -/
theorem timers_wellFormed (f : LoopFlavour) (keepalive : UInt32) (maxConns : Nat)
    (events : List Event) (hserved : ∀ e ∈ events, e.Served f) (fuel : Nat) (hfuel : maxConns < fuel) :
    ∃ t, run f keepalive fuel (start maxConns) events = some t ∧ t.2.addedLinked = false ∧
      ∃ lists, t.1.Holds lists := by
  obtain ⟨t, lists, hrun, hinv⟩ := (inv_start maxConns).run hfuel hserved
  exact ⟨t, hrun, hinv.added, lists, hinv.holds⟩

/-- A request whose handler wants to sleep. -/
def sleepyRequest : List Event :=
  [.accept false, .completion 0 .recv 40 false { ends := .handler (.timerYield 1 5) } {}]

theorem timers_wellFormed_epoll :
    (∀ e ∈ sleepyRequest, e.Served .epoll) ∧
    ∃ t, run .epoll 60 2 (start 1) sleepyRequest = some t ∧ t.2.addedLinked = false ∧
      ∃ lists, t.1.Holds lists := by
  have hserved : ∀ e ∈ sleepyRequest, e.Served .epoll := by
    intro e he
    cases e with
    | completion c type result more run resume => exact fun _ _ hf => nomatch hf
    | _ => trivial
  exact ⟨hserved, timers_wellFormed .epoll 60 1 sleepyRequest hserved 2 (by decide)⟩

theorem next_closeConn (t : TimedLoop) (c : Nat) (opsInFlight : Bool) :
    (t.closeConn c opsInFlight).1.links.next (.conn c) = .conn c := by
  have hnext : ((t.timerRemove c).reset c).1.links.next (.conn c) = .conn c :=
    Function.update_self ..
  cases opsInFlight with
  | true => exact hnext
  | false => exact hnext

/-- A tick that comes to a node that points to itself closes its connection again and again. -/
theorem tickLoop_stuck {r : Nat → Resumption} {k : Fin 64}
    (hnext : t.1.links.next (.conn c) = .conn c) (fuel count : Nat) :
    tickLoop (onExpire .legacy keepalive r) (.slot k) fuel (.conn c) t count = none := by
  induction fuel generalizing t count with
  | zero => rfl
  | succ fuel ih =>
    show tickLoop _ (.slot k) fuel (t.1.links.next (.conn c))
      (onExpire .legacy keepalive r c (t.1.remove c, t.2)) (count + 1) = none
    rw [hnext]
    exact ih (next_closeConn (t.1.remove c, t.2) c (r c).opsInFlight) (count + 1)

theorem tick_stuck {r : Nat → Resumption}
    (hslot : t.1.links.next (.slot (slotOf t.1.cursor)) = .conn c)
    (hnext : t.1.links.next (.conn c) = .conn c) (fuel : Nat) :
    tick (onExpire .legacy keepalive r) fuel t = none := by
  apply Option.map_eq_none_iff.mpr
  rw [hslot]
  exact tickLoop_stuck hnext fuel 0

/-- The legacy loop refuses the timer and adds the node to the list it is in. After sixty ticks comes
the one at the slot of the connection, and it never ends. -/
theorem timers_legacy :
    ∃ t, run .legacy 60 2 (start 1)
        (sleepyRequest ++ [.timeout (List.replicate 60 fun _ => {})]) = some t ∧
      t.2.addedLinked = true ∧
      ∀ fuel, tick (onExpire .legacy 60 fun _ => {}) fuel t = none := by
  have hrun : (run .legacy 60 2 (start 1)
      (sleepyRequest ++ [.timeout (List.replicate 60 fun _ => {})])).map (fun t =>
        (t.2.addedLinked, t.1.links.next (.slot (slotOf t.1.cursor)), t.1.links.next (.conn 0))) =
      some (true, .conn 0, .conn 0) := by
    decide +kernel
  obtain ⟨t, ht, hend⟩ := Option.map_eq_some_iff.mp hrun
  simp only [Prod.mk.injEq] at hend
  exact ⟨t, ht, hend.1, tick_stuck hend.2.1 hend.2.2⟩

end TimedLoop

end Rut
