import Rut.Lib.Ir
import Rut.Route.Art.Basic

/-!
# Specialising the radix trie

A translation of `art_jit_codegen.cc`: a depth-first walk over a trie that emits one function
deciding `match_canonical_key` for this trie, with every edge and terminal baked in as a constant.
The function takes the path, its length and the method key; its blocks are

    entry, return_best, return_invalid      the frame
    method_*                                key to slot
    child, edge_*, term_*                   one group per node

The recursion over the trie carries fuel. A walk that runs out of it, or that meets a reference to
no node, emits nothing.
-/

namespace Rut.Jit

open Lib.Ir

/-- What the emission of a node refers to. The path and its length are the first two parameters. -/
structure EmitCtx where
  trie : ArtTrie
  methodSlot : Operand
  bestAlloca : Operand
  returnBest : Nat

def effPtr : Operand := .param 0

def effLen : Operand := .param 1

def constI8 (n : UInt8) : Operand := .const (.i8 n)

def constI16 (n : UInt16) : Operand := .const (.i16 n)

def constI32 (n : UInt32) : Operand := .const (.i32 n)

/-- `emit_load_byte`: the caller has checked the bound. -/
def emitLoadByte (b : Builder) (offset : Operand) : Operand × Builder :=
  let (gep, b) := b.build (.gep effPtr offset)
  b.build (.load gep)

/-- `emit_check_or_break`: go on in a fresh block if the condition holds. -/
def emitCheckOrBreak (c : EmitCtx) (b : Builder) (cond : Operand) : Builder :=
  b.branch (.condBr cond b.blocks.length c.returnBest)

/-- A comparison followed by the check on its result. -/
def emitCompareOrBreak (c : EmitCtx) (b : Builder) (pred : Pred) (x y : Operand) : Builder :=
  let (cond, b) := b.build (.icmp pred x y)
  emitCheckOrBreak c b cond

/-! ## Terminals -/

/-- The slots `1 .. kMethodSlots - 1`. -/
def specificSlots : List MethodSlot := [1, 2, 3, 4, 5, 6, 7, 8, 9]

/-- A case of the switch that stores the route `v` of slot `s`. -/
def emitSpecificCase (c : EmitCtx) (sw contBb : Nat) (s : MethodSlot) (v : UInt16) (b : Builder) :
    Builder :=
  let (caseBb, b) := b.appendCase sw (.i32 (UInt32.ofNat s))
  let (_, b) := (b.positionAtEnd caseBb).build (.store (constI16 v) c.bestAlloca)
  b.terminate (.br contBb)

/-- The loop over the method-specific slots: a case for every valid one. -/
def emitSpecific (c : EmitCtx) (t : Vector UInt16 kMethodSlots) (sw contBb : Nat) :
    List MethodSlot → Builder → Builder
  | [], b => b
  | s :: slots, b =>
    if getElem t s s.isLt = kInvalidRoute then emitSpecific c t sw contBb slots b
    else emitSpecific c t sw contBb slots (emitSpecificCase c sw contBb s (getElem t s s.isLt) b)

/-- The switch on the method slot, after the blocks `term_done` and `term_any` have been appended
in this order, with its cases. -/
def emitMixed (c : EmitCtx) (t : Vector UInt16 kMethodSlots) (b : Builder) : Builder :=
  emitSpecific c t b.cur b.blocks.length specificSlots
    (b.appendBlock.2.appendBlock.2.terminate (.switch c.methodSlot (b.blocks.length + 1) []))

/-- The block `term_any`, for requests without a specific terminal. -/
def emitAny (c : EmitCtx) (t : Vector UInt16 kMethodSlots) (contBb : Nat) (b : Builder) : Builder :=
  (if getElem t (0 : Nat) kMethodSlots_pos ≠ kInvalidRoute then
      (b.build (.store (constI16 (getElem t (0 : Nat) kMethodSlots_pos)) c.bestAlloca)).2
    else b).terminate (.br contBb)

/-- The case of specific terminals as a whole; it goes on in `term_done`. -/
def emitSwitch (c : EmitCtx) (t : Vector UInt16 kMethodSlots) (b : Builder) : Builder :=
  (emitAny c t b.blocks.length
    ((emitMixed c t b).positionAtEnd (b.blocks.length + 1))).positionAtEnd b.blocks.length

/-- `emit_terminal_pickup`: update `best` from the terminals of a node. -/
def emitTerminalPickup (c : EmitCtx) (b : Builder) (hdr : ArtNodeHeader) : Builder :=
  let t := hdr.routeIdxByMethod
  let anySpecificValid := specificSlots.any (fun s => getElem t s s.isLt ≠ kInvalidRoute)
  let validAny := decide (getElem t (0 : Nat) kMethodSlots_pos ≠ kInvalidRoute)
  if !validAny && !anySpecificValid then b
  else if !anySpecificValid then
    (b.build (.store (constI16 (getElem t (0 : Nat) kMethodSlots_pos)) c.bestAlloca)).2
  else emitSwitch c t b

/-! ## Nodes -/

/-- The comparison of one byte of an edge with the path. -/
def emitEdgeByte (c : EmitCtx) (b : Builder) (depth : UInt32) (e : UInt8) : Builder :=
  let (pByte, b) := emitLoadByte b (constI32 depth)
  emitCompareOrBreak c b .eq pByte (constI8 e)

/-- The loop over the bytes of an edge, `depth` being the offset of the first. -/
def emitEdge (c : EmitCtx) : Builder → UInt32 → Str → Builder
  | b, _, [] => b
  | b, depth, e :: edge => emitEdge c (emitEdgeByte c b depth e) (depth + 1) edge

/-- `emit_child_descent`; `emitNode` emits the dispatch for the child's own children. -/
def emitChildDescent (c : EmitCtx) (emitNode : Builder → ArtChildRef → UInt32 → Option Builder)
    (b : Builder) (childRef : ArtChildRef) (depth : UInt32) : Option Builder :=
  let hdr := c.trie.header childRef
  let edgeEnd := depth + UInt32.ofNat hdr.edge.length
  let b := emitCompareOrBreak c b .ule (constI32 edgeEnd) effLen
  let b := emitEdge c b depth hdr.edge
  let b := emitTerminalPickup c b hdr
  emitNode b childRef edgeEnd

/-- The first loop over the children: a block and a case of the switch for each. -/
def emitCases (sw : Nat) : List (UInt8 × ArtChildRef) → Builder →
    List (Nat × ArtChildRef) × Builder
  | [], b => ([], b)
  | (key, ref) :: children, b =>
    let (childBb, b) := b.appendCase sw (.i8 key)
    let (blocks, b) := emitCases sw children b
    ((childBb, ref) :: blocks, b)

/-- The second loop: fill the blocks. -/
def emitChildren (emitChild : Builder → ArtChildRef → Option Builder) :
    List (Nat × ArtChildRef) → Builder → Option Builder
  | [], b => some b
  | (childBb, ref) :: children, b =>
    match emitChild (b.positionAtEnd childBb) ref with
    | none => none
    | some b => emitChildren emitChild children b

/-- `emit_node_dispatch`: switch on the next byte to one of the children. -/
def emitNodeDispatch (c : EmitCtx) : Nat → Builder → ArtChildRef → UInt32 → Option Builder
  | 0, _, _, _ => none
  | fuel + 1, b, nodeRef, depth =>
    match c.trie.node nodeRef with
    | none => none
    | some n =>
      if n.entries = [] then some (b.terminate (.br c.returnBest))
      else
        let b := emitCompareOrBreak c b .ult (constI32 depth) effLen
        let (nextByte, b) := emitLoadByte b (constI32 depth)
        let sw := b.cur
        let b := b.terminate (.switch nextByte c.returnBest [])
        let (children, b) := emitCases sw n.entries b
        emitChildren (emitChildDescent c (emitNodeDispatch c fuel) · · depth) children b

/-! ## The function -/

/-- `kCases`: a method key and its slot. -/
def methodCases : List (UInt8 × UInt32) :=
  [(0, 0), (1, 1), (2, 2), (3, 3), (4, 4), (5, 5), (6, 6), (7, 7), (8, 8), (9, 9)]

/-- The loop of `emit_method_to_slot`, with the incoming values of the merge. -/
def emitMethodCases (sw contBb : Nat) : List (UInt8 × UInt32) → Builder →
    List (Operand × Nat) × Builder
  | [], b => ([], b)
  | (byte, slot) :: cases, b =>
    let (caseBb, b) := b.appendCase sw (.i8 byte)
    let b := (b.positionAtEnd caseBb).terminate (.br contBb)
    let (incoming, b) := emitMethodCases sw contBb cases b
    ((constI32 slot, caseBb) :: incoming, b)

/-- `emit_method_to_slot`: an unknown key leaves the function. -/
def emitMethodToSlot (b : Builder) (methodKey : Operand) (returnInvalid : Nat) :
    Operand × Builder :=
  let (invalidBb, b) := b.appendBlock
  let (contBb, b) := b.appendBlock
  let sw := b.cur
  let b := b.terminate (.switch methodKey invalidBb [])
  let (incoming, b) := emitMethodCases sw contBb methodCases b
  let b := (b.positionAtEnd invalidBb).terminate (.br returnInvalid)
  (b.positionAtEnd contBb).build (.phi incoming)

/-- Everything before the root: the frame of the function, `best` and the method slot. -/
def emitPrologue (trie : ArtTrie) : EmitCtx × Nat × Builder :=
  let b : Builder := {}
  let (entryBb, b) := b.appendBlock
  let (returnBest, b) := b.appendBlock
  let (returnInvalid, b) := b.appendBlock
  let b := b.positionAtEnd entryBb
  let (bestAlloca, b) := b.build .alloca
  let (_, b) := b.build (.store (constI16 kInvalidRoute) bestAlloca)
  let (methodSlot, b) := emitMethodToSlot b (.param 2) returnInvalid
  (⟨trie, methodSlot, bestAlloca, returnBest⟩, returnInvalid, b)

def emitReturnBest (c : EmitCtx) (b : Builder) : Builder :=
  let (bestVal, b) := (b.positionAtEnd c.returnBest).build (.load c.bestAlloca)
  b.terminate (.ret bestVal)

def emitReturnInvalid (returnInvalid : Nat) (b : Builder) : Builder :=
  (b.positionAtEnd returnInvalid).terminate (.ret (constI16 kInvalidRoute))

/-- `art_jit_specialize`, up to the blocks handed to the compiler. -/
def artJitSpecialize (fuel : Nat) (trie : ArtTrie) : Option (List Block) :=
  let (c, returnInvalid, b) := emitPrologue trie
  let b := emitTerminalPickup c b (trie.header trie.rootRef)
  match emitNodeDispatch c fuel b trie.rootRef 0 with
  | none => none
  | some b => some (emitReturnInvalid returnInvalid (emitReturnBest c b)).blocks

/-- A call of the specialised function: the result within `steps` steps. -/
def callMatchFn (blocks : List Block) (steps : Nat) (path : Str) (methodKey : UInt8) : Option Val :=
  run ⟨blocks, [.buf 0, .i32 (UInt32.ofNat path.length), .i8 methodKey], path⟩ steps .initial

end Rut.Jit
