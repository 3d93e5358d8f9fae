import Rut.Io.IoUring

/-!
# The connection slots of the io_uring loop

`iouring_event_loop.h` on top of the ring: the free stack, the list of slots that wait for their last
completion, the slices each slot has taken from the pool, and the count of operations in flight by
which a closed slot is held back. Of a connection this is everything the loop itself reads; what a
callback does is the list of calls into the loop it makes.

`set_slots` with no callback at all never stands alone in the callbacks: the same callback goes on to
set one, to park the handler or to close the connection. The calls are therefore taken together.
-/

namespace Rut.Io

/-! ## Slices -/

/-- `SlicePool`; a slice is its index, the top of the stack the head of the list. -/
structure SlicePool where
  freeStack : List Nat := []
  inUse : Nat → Bool := fun _ => false
  count : Nat := 0
  maxCount : Nat

namespace SlicePool

def kGrowStep : Nat := 256

/-- `grow`, with the answer of `mprotect`, in the 32 bits it computes with. -/
def grow (p : SlicePool) (mprotect : Bool) : Option SlicePool :=
  if p.maxCount ≤ p.count then none
  else
    let step := if p.maxCount < (p.count + kGrowStep) % 2 ^ 32 then p.maxCount - p.count else kGrowStep
    if !mprotect then none
    else
      -- the bound of the loop, and the new count
      let stop := (p.count + step) % 2 ^ 32
      some { p with freeStack := (List.range' p.count (stop - p.count)).reverse ++ p.freeStack
                    count := stop }

/-- The stack has a slice, or gets some. -/
def ready (p : SlicePool) (mprotect : Bool) : Option SlicePool :=
  if p.freeStack.isEmpty then p.grow mprotect else some p

/-- `alloc`. In the pools of the loops, of `kMaxConns * 3` slices, the count does not wrap around, and a
step of growth leaves slices on the stack (`Ledger.ready`): it is not empty in the second match. -/
def alloc (p : SlicePool) (mprotect : Bool) : SlicePool × Option Nat :=
  match p.ready mprotect with
  | none => (p, none)
  | some p =>
    match p.freeStack with
    | [] => (p, none)
    | s :: rest => ({ p with freeStack := rest, inUse := Function.update p.inUse s true }, some s)

/-- The guards of `free`, among them the one against a slice that is given back twice. -/
def takesBack (p : SlicePool) (s : Nat) : Bool :=
  s < p.count && p.freeStack.length < p.maxCount && p.inUse s

def free (p : SlicePool) (s : Nat) : SlicePool :=
  if p.takesBack s then
    { p with freeStack := s :: p.freeStack, inUse := Function.update p.inUse s false }
  else p

/-- The loop of `init` that commits slices in advance. -/
def commit : Nat → SlicePool → SlicePool
  | 0, p => p
  | steps + 1, p => commit steps ((p.grow true).getD p)

def init (n prealloc : Nat) : SlicePool :=
  commit ((min prealloc n + kGrowStep - 1) / kGrowStep) { maxCount := n }

end SlicePool

/-! ## The loop -/

def kMaxConns : Nat := 16384

def kMaxDeferredAccepts : Nat := 64

/-- What the loop reads of a connection. -/
structure SlotConn where
  fd : Int := -1
  upstreamFd : Int := -1
  /-- one of the four callbacks is set -/
  hasSlots : Bool := false
  /-- `pending_handler_fn` -/
  pendingHandler : Bool := false
  /-- a `u32`: it counts operations that are under way (`pendingOps_run`), never `2 ^ 32` at a time -/
  pendingOps : Nat := 0
  recvArmed : Bool := false
  sendArmed : Bool := false
  upstreamRecvArmed : Bool := false
  upstreamSendArmed : Bool := false
  yieldArmed : Bool := false
  yieldTimeoutArmed : Bool := false
  yieldTimerGen : UInt32 := 0
  recvSlice : Option Nat := none
  sendSlice : Option Nat := none
  upstreamRecvSlice : Option Nat := none
deriving DecidableEq, Repr

/-- The slices a connection has, in the order in which they are given back. -/
def SlotConn.held (x : SlotConn) : List Nat :=
  x.recvSlice.toList ++ x.sendSlice.toList ++ x.upstreamRecvSlice.toList

structure SlotLoop where
  ring : Ring := {}
  /-- how many of the events that `wait` has reported are dispatched -/
  dispatched : Nat := 0
  conns : Nat → SlotConn := fun _ => {}
  freeStack : List Nat
  pendingFree : List Nat := []
  pool : SlicePool
  deferredAccepts : List Int := []
  /-- for the statements: the slices a slot has taken from the pool since it was last handed out -/
  taken : Nat → List Nat := fun _ => []
  /-- for the statements: the ones of these that the pool has got back -/
  given : Nat → List Nat := fun _ => []

namespace SlotLoop

/-- `init` with `prealloc` slices, and the accept with which `run` begins. -/
def start (prealloc : Nat) : SlotLoop where
  ring := ({} : Ring).add .accept
  freeStack := (List.range kMaxConns).reverse
  pool := .init (kMaxConns * 3) prealloc

def setConn (l : SlotLoop) (c : Nat) (x : SlotConn) : SlotLoop :=
  { l with conns := Function.update l.conns c x }

def setBackend (l : SlotLoop) (b : IoUringBackend) : SlotLoop :=
  { l with ring := { l.ring with backend := b } }

/-! ### Slots -/

def giveBack (c : Nat) (l : SlotLoop) (s : Nat) : SlotLoop :=
  { l with pool := l.pool.free s
           given := if l.pool.takesBack s then Function.update l.given c (l.given c ++ [s])
                    else l.given }

/-- The three conditional calls of `pool.free`. -/
def freeSlices (l : SlotLoop) (c : Nat) : SlotLoop := (l.conns c).held.foldl (giveBack c) l

/-- The slices go back and their fields are cleared, the id is pushed. -/
def recycle (l : SlotLoop) (c : Nat) : SlotLoop :=
  let l := l.freeSlices c
  let l := l.setConn c { l.conns c with
    recvSlice := none, sendSlice := none, upstreamRecvSlice := none }
  { l with freeStack := c :: l.freeStack }

/-- `pending_free[i] = pending_free[--pending_free_count]` at the first place that holds `c`. -/
def swapRemove (c : Nat) (ids : List Nat) : List Nat :=
  if c ∈ ids then (ids.set (ids.idxOf c) (ids.getLastD c)).dropLast else ids

def reclaimSlot (l : SlotLoop) (c : Nat) : SlotLoop :=
  let l := l.recycle c
  { l with pendingFree := swapRemove c l.pendingFree }

/-- One round of the loop of `reclaim_pending`; `pendingFree` is the part that stays. -/
def reclaimOne (l : SlotLoop) (c : Nat) : SlotLoop :=
  if (l.conns c).pendingOps = 0 then l.recycle c else { l with pendingFree := l.pendingFree ++ [c] }

def reclaimPending (l : SlotLoop) : SlotLoop :=
  l.pendingFree.foldl reclaimOne { l with pendingFree := [] }

/-- `alloc_conn_impl`, with the two answers of `mprotect`. -/
def allocConn (l : SlotLoop) (mprotect : Bool × Bool) : SlotLoop × Option Nat :=
  match l.freeStack with
  | [] => (l, none)
  | id :: rest =>
    let (p, rs) := l.pool.alloc mprotect.1
    let (p, ss) := p.alloc mprotect.2
    match rs, ss with
    | some rs, some ss =>
      ({ l with
          pool := p
          freeStack := rest
          conns := Function.update l.conns id { recvSlice := some rs, sendSlice := some ss }
          taken := Function.update l.taken id [rs, ss]
          given := Function.update l.given id [] }, some id)
    | _, _ =>
      ({ l with pool := ss.elim (rs.elim p p.free) (rs.elim p p.free).free }, none)

def freeConn (l : SlotLoop) (c : Nat) : SlotLoop :=
  if (l.conns c).pendingOps = 0 then
    let l := l.freeSlices c
    { l.setConn c {} with freeStack := c :: l.freeStack }
  else
    let x := l.conns c
    { l.setConn c { recvSlice := x.recvSlice, sendSlice := x.sendSlice,
                    upstreamRecvSlice := x.upstreamRecvSlice, pendingOps := x.pendingOps } with
      pendingFree := l.pendingFree ++ [c] }

def allocUpstreamBuf (l : SlotLoop) (c : Nat) (mprotect : Bool) : SlotLoop :=
  let x := l.conns c
  if x.upstreamRecvSlice.isSome then l
  else
    match l.pool.alloc mprotect with
    | (p, none) => { l with pool := p }
    | (p, some s) =>
      { l.setConn c { x with upstreamRecvSlice := some s } with
        pool := p, taken := Function.update l.taken c (l.taken c ++ [s]) }

/-! ### Operations -/

def connId (c : Nat) : UInt32 := .ofNat c

/-- An operation: one more in flight if the backend has taken it. -/
def submit (l : SlotLoop) (c : Nat) (add : IoUringBackend → Option IoUringBackend)
    (arm : SlotConn → SlotConn) : SlotLoop :=
  match add l.ring.backend with
  | none => l
  | some b =>
    let x := l.conns c
    (l.setBackend b).setConn c (arm { x with pendingOps := x.pendingOps + 1 })

def submitRecv (l : SlotLoop) (c : Nat) : SlotLoop :=
  let x := l.conns c
  if x.recvArmed then l
  else l.submit c (·.addRecv x.fd (connId c)) ({ · with recvArmed := true })

def submitSend (l : SlotLoop) (c : Nat) (buf : Str) : SlotLoop :=
  l.submit c (·.addSend (l.conns c).fd (connId c) buf 0) ({ · with sendArmed := true })

def submitConnect (l : SlotLoop) (c : Nat) : SlotLoop :=
  l.submit c (·.addConnect (l.conns c).upstreamFd (connId c)) id

def submitSendUpstream (l : SlotLoop) (c : Nat) (buf : Str) : SlotLoop :=
  l.submit c (·.addSendUpstream (l.conns c).upstreamFd (connId c) buf 0)
    ({ · with upstreamSendArmed := true })

def submitRecvUpstream (l : SlotLoop) (c : Nat) : SlotLoop :=
  let x := l.conns c
  if x.upstreamRecvArmed then l
  else l.submit c (·.addRecvUpstream x.upstreamFd (connId c)) ({ · with upstreamRecvArmed := true })

/-- `io_uring_enter` outside of `wait`, by which the kernel takes `k` entries. -/
def flush (l : SlotLoop) (k : Nat) : SlotLoop :=
  { l with ring := { l.ring with
      backend := { l.ring.backend with sq := l.ring.backend.sq.drop k }
      inflight := l.ring.inflight ++ l.ring.backend.sq.take k } }

/-- Queue an entry; when the ring is full, after a flush that the kernel answers with `k`. -/
def pushOrFlush (l : SlotLoop) (k : Nat) (q : Sqe) : SlotLoop × Bool :=
  match l.ring.backend.push q with
  | some b => (l.setBackend b, true)
  | none =>
    let l := l.flush k
    match l.ring.backend.push q with
    | some b => (l.setBackend b, true)
    | none => (l, false)

/-- `cancel_by_user_data`; the completion of the cancel itself goes to `id`. -/
def cancelByUserData (l : SlotLoop) (k : Nat) (id : UInt32) (type : EventType) (aux : UInt32) :
    SlotLoop × Bool :=
  l.pushOrFlush k { opcode := .asyncCancel, fd := -1, userData := encodeUserData id type aux }

/-- `schedule_yield_timer`, where `fits` says that the wheel can represent the wait. -/
def scheduleYieldTimer (l : SlotLoop) (c k : Nat) (fits : Bool) : SlotLoop :=
  let l := l.submitRecv c
  if !(l.conns c).recvArmed then l
  else
    let gen := (l.conns c).yieldTimerGen + 1
    match l.pushOrFlush k { opcode := .timeout, fd := -1,
                            userData := encodeUserData (connId c) .handlerTimer gen } with
    | (l, true) =>
      let x := l.conns c
      l.setConn c { x with yieldArmed := true, yieldTimeoutArmed := true, yieldTimerGen := gen,
                           pendingOps := x.pendingOps + 1 }
    | (l, false) =>
      if fits then l.setConn c { l.conns c with yieldArmed := true, yieldTimeoutArmed := false }
      else l

/-- `disarm_yield_timer`: the completion of the cancel is not the connection's. -/
def disarmYieldTimer (l : SlotLoop) (c k : Nat) : SlotLoop :=
  let x := l.conns c
  if !x.yieldArmed then l
  else
    let l := l.setConn c { x with
      yieldArmed := false, yieldTimeoutArmed := false, yieldTimerGen := x.yieldTimerGen + 1 }
    if x.yieldTimeoutArmed then (l.cancelByUserData k kCancelConnId .handlerTimer x.yieldTimerGen).1
    else l

/-- The cancels of `cancel`, with the operations they are for. -/
def cancels (x : SlotConn) : List (EventType × UInt32) :=
  let hasUpstream : Bool := 0 ≤ x.upstreamFd
  [(x.recvArmed, .recv, 0), (x.sendArmed, .send, 0),
    (hasUpstream && x.upstreamRecvArmed, .upstreamRecv, 0),
    (hasUpstream && x.upstreamSendArmed, .upstreamSend, 0),
    (hasUpstream, .upstreamConnect, 0),
    (x.yieldTimeoutArmed, .handlerTimer, x.yieldTimerGen)].filterMap
    fun (armed, target) => if armed then some target else none

/-- One cancel of `cancel`, which is counted for the connection if it is queued. Its flush is answered
with the number in `ks` at its place. -/
def cancelOne (c : Nat) (ks : List Nat) (l : SlotLoop) (target : (EventType × UInt32) × Nat) :
    SlotLoop :=
  match l.cancelByUserData (ks.getD target.2 0) (connId c) target.1.1 target.1.2 with
  | (l, true) => l.setConn c { l.conns c with pendingOps := (l.conns c).pendingOps + 1 }
  | (l, false) => l

/-- `close_conn_impl`; `ks` has the answers to the flushes, the last one behind the cancels. -/
def closeConn (l : SlotLoop) (c : Nat) (ks : List Nat) : SlotLoop :=
  let targets := cancels (l.conns c)
  let l := if 0 < (l.conns c).pendingOps then
      (targets.zipIdx.foldl (cancelOne c ks) l).flush (ks.getD targets.length 0)
    else l
  (l.setConn c { l.conns c with fd := -1, upstreamFd := -1 }).freeConn c

/-! ### Callbacks -/

/-- A call of a callback into the loop. -/
inductive Action where
  /-- `set_slots` with a callback, no handler pending -/
  | setSlots
  /-- the handler is pending and no callback is set -/
  | park
  | submitRecv
  | submitSend (buf : Str)
  | submitConnect
  | submitSendUpstream (buf : Str)
  | submitRecvUpstream
  /-- `UpstreamPool::create_socket` -/
  | openUpstream (fd : Int)
  | closeUpstream
  | allocUpstreamBuf (mprotect : Bool)
  | scheduleYieldTimer (k : Nat) (fits : Bool)
  | disarmYieldTimer (k : Nat)
deriving DecidableEq, Repr

def act (c : Nat) (l : SlotLoop) : Action → SlotLoop
  | .setSlots => l.setConn c { l.conns c with hasSlots := true, pendingHandler := false }
  | .park => l.setConn c { l.conns c with hasSlots := false, pendingHandler := true }
  | .submitRecv => l.submitRecv c
  | .submitSend buf => l.submitSend c buf
  | .submitConnect => l.submitConnect c
  | .submitSendUpstream buf => l.submitSendUpstream c buf
  | .submitRecvUpstream => l.submitRecvUpstream c
  | .openUpstream fd => l.setConn c { l.conns c with upstreamFd := fd }
  | .closeUpstream => l.setConn c { l.conns c with
      upstreamFd := -1, upstreamRecvArmed := false, upstreamSendArmed := false }
  | .allocUpstreamBuf mprotect => l.allocUpstreamBuf c mprotect
  | .scheduleYieldTimer k fits => l.scheduleYieldTimer c k fits
  | .disarmYieldTimer k => l.disarmYieldTimer c k

/-- What a callback, or a handler that is resumed, makes of its connection. -/
structure Reaction where
  actions : List Action := []
  /-- the last call is `close_conn`, with what the kernel answers to its flushes -/
  closes : Option (List Nat) := none
deriving DecidableEq, Repr

def react (l : SlotLoop) (c : Nat) (r : Reaction) : SlotLoop :=
  let l := r.actions.foldl (act c) l
  r.closes.elim l (l.closeConn c)

/-! ### Dispatch -/

/-- What one dispatch gets from outside. -/
structure Outside where
  /-- the answers of `mprotect`, for both attempts of an accept -/
  first : Bool × Bool := (true, true)
  second : Bool × Bool := (true, true)
  /-- the event is one the parked handler waits for -/
  awaited : Bool := false
  /-- how many entries each flush hands over -/
  flushed : List Nat := []
  reaction : Reaction := {}
deriving DecidableEq, Repr

/-- The connection is open: `on_accept` behind `alloc_conn`. -/
def openConn (l : SlotLoop) (c : Nat) (fd : Int) : SlotLoop :=
  (l.setConn c { l.conns c with fd, hasSlots := true }).submitRecv c

def onAccept (l : SlotLoop) (result : Int) (o : Outside) : SlotLoop :=
  if result < 0 then l
  else
    match l.allocConn o.first with
    | (l, some c) => l.openConn c result
    | (l, none) =>
      match l.reclaimPending.allocConn o.second with
      | (l, some c) => l.openConn c result
      | (l, none) =>
        if l.deferredAccepts.length < kMaxDeferredAccepts then
          { l with deferredAccepts := l.deferredAccepts ++ [result] }
        else l

def retryAccept (answers : Nat → Bool × Bool) (l : SlotLoop) (a : Int × Nat) : SlotLoop :=
  match l.allocConn (answers a.2) with
  | (l, some c) => l.openConn c a.1
  | (l, none) => l

/-- `retry_deferred_accepts`, with the answers of `mprotect`. -/
def retryDeferredAccepts (l : SlotLoop) (answers : Nat → Bool × Bool) : SlotLoop :=
  l.deferredAccepts.zipIdx.foldl (retryAccept answers) { l with deferredAccepts := [] }

def onHandlerTimer (l : SlotLoop) (c : Nat) (result : Int) (o : Outside) : SlotLoop :=
  let x := l.conns c
  let gen := result = toI32 x.yieldTimerGen
  let l := l.setConn c { x with
    pendingOps := x.pendingOps - 1
    yieldArmed := x.yieldArmed && !gen
    yieldTimeoutArmed := x.yieldTimeoutArmed && !gen }
  if x.pendingHandler ∧ gen ∧ o.awaited then l.react c o.reaction
  else if (l.conns c).pendingOps = 0 ∧ !x.pendingHandler ∧ x.fd < 0 then l.reclaimSlot c
  else l

/-- The accounting of a last completion. -/
def account (x : SlotConn) (e : IoEvent) : SlotConn :=
  if e.more then x
  else { x with
    pendingOps := x.pendingOps - 1
    recvArmed := x.recvArmed && e.type ≠ .recv
    sendArmed := x.sendArmed && e.type ≠ .send
    upstreamSendArmed := x.upstreamSendArmed && e.type ≠ .upstreamSend
    upstreamRecvArmed := x.upstreamRecvArmed && e.type ≠ .upstreamRecv }

def kECANCELED : Nat := 125

/-- A completion while the handler is parked. -/
def onParked (l : SlotLoop) (c : Nat) (e : IoEvent) (o : Outside) : SlotLoop :=
  if o.awaited then (l.disarmYieldTimer c (o.flushed.headD 0)).react c o.reaction
  else if e.type = .recv ∧ (e.result < 0 ∧ e.result ≠ -kECANCELED ∨ !e.more ∧ e.result = 0) then
    l.closeConn c o.flushed
  else if e.type = .recv ∧ !e.more ∧ 0 < e.result then l.submitRecv c
  else l

def onCompletion (l : SlotLoop) (c : Nat) (e : IoEvent) (o : Outside) : SlotLoop :=
  let l := l.setConn c (account (l.conns c) e)
  if (l.conns c).hasSlots then l.react c o.reaction
  else if (l.conns c).pendingHandler then l.onParked c e o
  else if (l.conns c).pendingOps = 0 then l.reclaimSlot c
  else l

/-- `dispatch`. The tick of the wheel and the drain are steps of their own. -/
def dispatch (l : SlotLoop) (e : IoEvent) (o : Outside) : SlotLoop :=
  match e.type with
  | .accept => l.onAccept e.result o
  | .timeout => l
  | .handlerTimer =>
    if e.connId.toNat < kMaxConns then l.onHandlerTimer e.connId.toNat e.result o else l
  | _ => if e.connId.toNat < kMaxConns then l.onCompletion e.connId.toNat e o else l

def dispatchNext (l : SlotLoop) (o : Outside) : SlotLoop :=
  match l.ring.events[l.dispatched]? with
  | none => l
  | some e => { l with dispatched := l.dispatched + 1 }.dispatch e o

/-! ### Runs -/

/-- The operations that are submitted as multishot: only these have completions before the last. -/
def Opcode.multishot (o : Opcode) : Bool := o = .recv || o = .accept

/-- The kernel answers one of the entries it works on. -/
def complete (l : SlotLoop) (i : Nat) (a : Answer) : SlotLoop :=
  let multishot := l.ring.inflight[i]?.any (Opcode.multishot ·.opcode)
  { l with ring := l.ring.complete i { a with more := a.more && multishot } }

inductive Step where
  /-- the first half of `wait` -/
  | enter (n : Nat)
  | complete (i : Nat) (a : Answer)
  /-- the second half of `wait` -/
  | harvest (maxEvents : Nat)
  | dispatch (o : Outside)
  /-- `reclaim_pending` and `retry_deferred_accepts` behind the events of one `wait` -/
  | endBatch (answers : Nat → Bool × Bool)
  /-- a tick of the wheel resumes a parked handler -/
  | wake (c : Nat) (r : Reaction)
  /-- a tick of the wheel or the drain closes a connection -/
  | close (c : Nat) (ks : List Nat)
  /-- `close_listen` -/
  | closeListen (k : Nat)

/-- The cancel of the accept, which nobody waits for. -/
def cancelAccept (l : SlotLoop) (k : Nat) : SlotLoop :=
  match l.ring.backend.push { opcode := .asyncCancel, fd := l.ring.backend.listenFd,
                              userData := encodeUserData kCancelConnId .accept 0 } with
  | none => l
  | some b => (l.setBackend b).flush k

/-- The wheel holds open connections only, and the drain and `force_close_all` look at the file
descriptor. -/
def isOpen (l : SlotLoop) (c : Nat) : Bool := c < kMaxConns && 0 ≤ (l.conns c).fd

def step (l : SlotLoop) : Step → SlotLoop
  | .enter n => { l with ring := l.ring.enter n }
  | .complete i a => l.complete i a
  | .harvest maxEvents => { l with ring := l.ring.harvest maxEvents kMaxConns }
  | .dispatch o => l.dispatchNext o
  | .endBatch answers => l.reclaimPending.retryDeferredAccepts answers
  | .wake c r =>
    if l.isOpen c && (l.conns c).pendingHandler then
      (l.setConn c { l.conns c with yieldArmed := false, yieldTimeoutArmed := false }).react c r
    else l
  | .close c ks => if l.isOpen c then l.closeConn c ks else l
  | .closeListen k => l.cancelAccept k

def run (l : SlotLoop) (steps : List Step) : SlotLoop := steps.foldl step l

end SlotLoop

end Rut.Io
