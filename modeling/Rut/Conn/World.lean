import Rut.Conn.Callbacks

/-!
# Runs of a connection

The event loop as one connection sees it. Completions are dispatched to the slots of the connection
(`dispatch_event` in `event_loop.h`), or to a handler that waits for them (`dispatch` in
`epoll_event_loop.h`). A run starts with an accepted connection and takes one input after the other:
what the peers do, the timers, and the commands to drain and to reload.

The backend puts received bytes into the buffer and reports them in one step here.
-/

namespace Rut

/-! ## Dispatching completions -/

/-- The kinds of `IoEventType` a connection gets to see. -/
inductive IoEventType where
  | recv | send | upstreamConnect | upstreamSend | upstreamRecv | timeout | handlerTimer
deriving DecidableEq, Repr

def yieldKindMatchesEvent : YieldKind → IoEventType → Bool
  | .any, .recv | .any, .timeout | .any, .handlerTimer => true
  | .recv, .recv | .send, .send => true
  | .upstreamConnect, .upstreamConnect | .upstreamRecv, .upstreamRecv => true
  | .upstreamSend, .upstreamSend => true
  | _, _ => false

def yieldKindFromEvent : IoEventType → YieldKind
  | .recv => .recv
  | .send => .send
  | .upstreamConnect => .upstreamConnect
  | .upstreamRecv => .upstreamRecv
  | .upstreamSend => .upstreamSend
  | .timeout | .handlerTimer => .timer

/-- The four slots of a connection. -/
structure Slots where
  onRecv : Option Callback := none
  onSend : Option Callback := none
  onUpstreamRecv : Option Callback := none
  onUpstreamSend : Option Callback := none
deriving DecidableEq, Repr

namespace Connection

def slots (c : Connection) : Slots := ⟨c.onRecv, c.onSend, c.onUpstreamRecv, c.onUpstreamSend⟩

def handleUnhandledRecv (l : Loop) (c : Connection) (result : Int) : Connection :=
  if result > 0 then
    let c := if c.keepAlive then c else { c with recvBuf := c.recvBuf.reset }
    if !l.backend.recvArmed && c.onSend = none then c.emit .submitRecv else c
  else if result < 0 then c.closeConn
  else c

def dispatchEvent (l : Loop) (c : Connection) (type : IoEventType) (result : Int) : Connection :=
  match type with
  | .recv =>
    match c.onRecv with
    | some callback => callback.run l c result
    | none => c.handleUnhandledRecv l result
  | .send =>
    match c.onSend with
    | some callback => callback.run l c result
    | none => c
  | .upstreamRecv =>
    match c.onUpstreamRecv with
    | some callback => callback.run l c result
    | none => if result < 0 ∧ c.state ≠ .readingHeader then c.closeConn else c
  | .upstreamSend | .upstreamConnect =>
    match c.onUpstreamSend with
    | some callback => callback.run l c result
    | none => c
  | .timeout | .handlerTimer => c

def disarmYieldTimer (c : Connection) : Connection :=
  if c.yieldArmed then { c with yieldArmed := false }.emit .disarmYieldTimer else c

/-- `dispatch`, for a completion of this connection. -/
def dispatch (l : Loop) (c : Connection) (type : IoEventType) (result : Int) : Connection :=
  if c.slots ≠ {} then c.dispatchEvent l type result
  else if c.pendingHandlerFn.isSome then
    if yieldKindMatchesEvent c.pendingYieldKind type then
      c.disarmYieldTimer.resumeJitHandler l (yieldKindFromEvent type) result
    else if type = .recv ∧ result ≤ 0 then c.closeConn
    else c
  else c

/-- An entry of the yield heap has expired. -/
def onHandlerTimer (l : Loop) (c : Connection) : Connection :=
  if c.pendingHandlerFn.isSome ∧
      (c.pendingYieldKind = .timer ∨ yieldKindMatchesEvent c.pendingYieldKind .handlerTimer) then
    { c with yieldArmed := false }.resumeJitHandler l .timer 0
  else c

/-- The timer wheel has reached the connection. -/
def onTimeout (l : Loop) (c : Connection) : Connection :=
  if c.pendingHandlerFn.isSome ∧ (c.pendingYieldKind = .timer ∨
      (c.yieldArmed ∧ yieldKindMatchesEvent c.pendingYieldKind .timeout)) then
    { c with yieldArmed := false }.resumeJitHandler l .timer 0
  else c.closeConn

end Connection

/-! ## Inputs -/

/-- What happens to a connection. Receiving no bytes is the end of the stream. -/
inductive Input where
  | recv (bytes : Str)
  | recvError
  | send (result : Int)
  | upstreamConnect (result : Int)
  | upstreamSend (result : Int)
  | upstreamRecv (bytes : Str)
  | upstreamRecvError
  | handlerTimer
  | timeout
  | forceClose
  | drain
  | reload (config : RouteConfig)

namespace Connection

/-- Bytes of the client go into the receive buffer as far as there is room. -/
def recv (l : Loop) (c : Connection) (bytes : Str) : Connection :=
  let r := c.recvBuf.deliver kSliceSize bytes
  ({ c with recvBuf := r.1 }.emit (.received (bytes.take c.recvBuf.writeAvail))).dispatch l .recv r.2

/-- Bytes of the upstream go into its buffer, which has no room before it is allocated. -/
def upstreamRecv (l : Loop) (c : Connection) (bytes : Str) : Connection :=
  let room := if c.upstreamRecvSlice then kSliceSize else 0
  let r := c.upstreamRecvBuf.deliver room bytes
  ({ c with upstreamRecvBuf := r.1 }.emit
    (.upstreamReceived (bytes.take (room - c.upstreamRecvBuf.len)))).dispatch l .upstreamRecv r.2

def input (l : Loop) (c : Connection) : Input → Connection
  | .recv bytes => c.recv l bytes
  | .recvError => c.dispatch l .recv (-1)
  | .send result => c.dispatch l .send result
  | .upstreamConnect result => c.dispatch l .upstreamConnect result
  | .upstreamSend result => c.dispatch l .upstreamSend result
  | .upstreamRecv bytes => c.upstreamRecv l bytes
  | .upstreamRecvError => c.dispatch l .upstreamRecv (-1)
  | .handlerTimer => c.onHandlerTimer l
  | .timeout => c.onTimeout l
  | .forceClose => c.closeConn
  | .drain | .reload _ => c

end Connection

/-- A connection, and the state of its loop that it reads. -/
structure World where
  draining : Bool := false
  config : Option RouteConfig := none
  conn : Connection := {}

namespace World

/-- `on_accept` -/
def accept (draining : Bool) (config : Option RouteConfig) : World where
  draining := draining
  config := config
  conn := {
    isOpen := true, state := .readingHeader, keepAlive := !draining
    onRecv := some .onHeaderReceived, log := [.submitRecv] }

def loop (w : World) (backend : Backend) : Loop := ⟨w.draining, w.config, backend⟩

/-- One input, with the answers of the backend to what is asked of it meanwhile. -/
def step (w : World) (backend : Backend) (i : Input) : World where
  draining := match i with
    | .drain => true
    | _ => w.draining
  config := match i with
    | .reload config => some config
    | _ => w.config
  conn := if w.conn.isOpen then w.conn.input (w.loop backend) i else w.conn

def run (w : World) (inputs : List (Backend × Input)) : World :=
  inputs.foldl (fun w x => w.step x.1 x.2) w

theorem run_append (w : World) (xs ys : List (Backend × Input)) :
    w.run (xs ++ ys) = (w.run xs).run ys := List.foldl_append

/-- A property that holds at first and is kept by every step holds of every run. -/
theorem run_invariant {P : World → Prop} (hstep : ∀ w backend i, P w → P (w.step backend i))
    {w : World} (h : P w) (inputs : List (Backend × Input)) : P (w.run inputs) := by
  induction inputs generalizing w with
  | nil => exact h
  | cons x inputs ih => exact ih (hstep w x.1 x.2 h)

/-- The states of an accepted connection after any number of inputs. -/
def Reached (w : World) : Prop :=
  ∃ draining config inputs, w = (accept draining config).run inputs

/-- What holds of a fresh connection and is kept by every step holds in every reached state. -/
theorem Reached.invariant {P : World → Prop} (haccept : ∀ draining config, P (accept draining config))
    (hstep : ∀ w backend i, P w → P (w.step backend i)) {w : World} (h : w.Reached) : P w := by
  obtain ⟨draining, config, inputs, rfl⟩ := h
  exact run_invariant hstep (haccept draining config) inputs

/-- Nothing happens on a connection that has been closed. -/
theorem run_conn_of_closed {w : World} (h : w.conn.isOpen = false) (inputs : List (Backend × Input)) :
    (w.run inputs).conn = w.conn := by
  induction inputs generalizing w with
  | nil => rfl
  | cons x inputs ih =>
    have hstep : (w.step x.1 x.2).conn = w.conn := if_neg (by simp [h])
    exact (ih (by rw [hstep, h])).trans hstep

end World

/-- A configuration that forwards `/up` to its only upstream. -/
def proxyConfig : Option RouteConfig :=
  ({ dispatchKind := .segmentTrie, upstreamCount := 1 } : RouteConfig).addAll
    [.proxy (ascii "/up") kRouteMethodAny 0]

end Rut
