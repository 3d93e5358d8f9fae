import Rut.Route.Basic

/-!
# The segment trie

A translation of `route_trie.h` and `route_trie.cc`. Paths are split on `'/'` with
empty segments dropped; a node stands for a list of segments, and a segment that
starts with `':'` matches any one request segment. The lookup is a depth-first
search with an explicit stack of fixed capacity, which keeps the best terminal seen
so far and its parameters.
-/

namespace Rut

def kMaxPathSegments : Nat := 64

def kMaxRouteParams : Nat := 16

/-! ## Segments -/

/-- The loop of `tokenize_segments`: `seg` is the segment being read, `out` the segments
pushed so far. The count is one more than the capacity when a segment does not fit. -/
def tokenizeLoop : Str → Str → List Str → List Str × Nat
  | [], seg, out =>
    if seg = [] then (out, out.length)
    else if out.length < kMaxPathSegments then (out ++ [seg], out.length + 1)
    else (out, kMaxPathSegments + 1)
  | b :: rest, seg, out =>
    if b = slash then
      if seg = [] then tokenizeLoop rest [] out
      else if out.length < kMaxPathSegments then tokenizeLoop rest [] (out ++ [seg])
      else (out, kMaxPathSegments + 1)
    else tokenizeLoop rest (seg ++ [b]) out

/-- `tokenize_segments`: the segments that fit, and their number or the overflow mark. -/
def tokenizeSegments (path : Str) : List Str × Nat := tokenizeLoop path [] []

def isParamSegment (segment : Str) : Bool := segment.head? = some colon

/-! ## Nodes -/

structure TrieNode where
  segment : Str := []
  children : List Nat := []
  routeIdxByMethod : Vector UInt16 kMethodSlots := Vector.replicate _ kInvalidRoute
deriving DecidableEq

def TrieNode.kMaxChildren : Nat := 128

/-- The node pool; node 0 is the root. -/
structure RouteTrie where
  nodes : List TrieNode
deriving DecidableEq

/-- A captured parameter: name without the `':'`, and the request segment. -/
structure RouteParam where
  name : Str
  value : Str
deriving DecidableEq, Repr

namespace RouteTrie

def kMaxNodes : Nat := 4097

def clear : RouteTrie := ⟨[{}]⟩

def node (t : RouteTrie) (i : Nat) : TrieNode := t.nodes.getD i {}

def setNode (t : RouteTrie) (i : Nat) (n : TrieNode) : RouteTrie := ⟨t.nodes.set i n⟩

/-- `find_child`; `none` is `kInvalidNodeIdx`. -/
def findChild (t : RouteTrie) (parent : Nat) (segment : Str) : Option Nat :=
  if segment = [] then none
  else (t.node parent).children.find? (fun c => (t.node c).segment = segment)

/-! ## Insertion -/

/-- Append a node for `segment` below `cur`. -/
def appendChild (t : RouteTrie) (cur : Nat) (segment : Str) : RouteTrie :=
  let child := t.nodes.length
  let t' : RouteTrie := ⟨t.nodes ++ [{ segment := segment }]⟩
  t'.setNode cur { t'.node cur with children := (t'.node cur).children ++ [child] }

/-- The loop of `insert` over the segments. `none` is a failed capacity check, after which the
source undoes every push of this call. -/
def insertLoop (t : RouteTrie) (cur : Nat) : List Str → Option (RouteTrie × Nat)
  | [] => some (t, cur)
  | s :: segs =>
    match t.findChild cur s with
    | some child => insertLoop t child segs
    | none =>
      if t.nodes.length ≥ kMaxNodes ∨
          (t.node cur).children.length ≥ TrieNode.kMaxChildren then none
      else insertLoop (t.appendChild cur s) t.nodes.length segs

def setTerminal (t : RouteTrie) (i : Nat) (slot : MethodSlot) (routeIdx : UInt16) : RouteTrie :=
  let n := t.node i
  if getElem n.routeIdxByMethod slot slot.isLt = kInvalidRoute then
    t.setNode i { n with routeIdxByMethod := n.routeIdxByMethod.set slot routeIdx slot.isLt }
  else t

def insert (t : RouteTrie) (path : Str) (methodChar : UInt8) (routeIdx : UInt16) :
    RouteTrie × Bool :=
  match routeMethodSlot methodChar with
  | none => (t, false)
  | some slot =>
    let (segs, n) := tokenizeSegments path
    if n > kMaxPathSegments then (t, false)
    else
      match t.insertLoop 0 segs with
      | none => (t, false)
      | some (t', cur) => (t'.setTerminal cur slot routeIdx, true)

/-! ## Lookup -/

structure Terminal where
  routeIdx : UInt16
  methodSpecific : Bool
deriving DecidableEq, Repr

/-- Prefer a method-specific slot; fall back to "any". -/
def pickTerminal (n : TrieNode) (slot : MethodSlot) : Terminal :=
  if slot ≠ 0 ∧ getElem n.routeIdxByMethod slot slot.isLt ≠ kInvalidRoute then
    ⟨getElem n.routeIdxByMethod slot slot.isLt, true⟩
  else ⟨getElem n.routeIdxByMethod (0 : Nat) kMethodSlots_pos, false⟩

/-- A node still to be visited, with what the way to it has collected. -/
structure Frame where
  node : Nat := 0
  segI : Nat := 0
  depth : Nat := 0
  staticSegments : Nat := 0
  staticMask : Nat := 0
  params : List RouteParam := []
deriving DecidableEq, Repr

/-- The best terminal so far; `kInvalidRoute` while there is none. -/
structure Candidate where
  routeIdx : UInt16 := kInvalidRoute
  depth : Nat := 0
  staticSegments : Nat := 0
  staticMask : Nat := 0
  methodSpecific : Bool := false
  params : List RouteParam := []
deriving DecidableEq, Repr

/-- Replace the best candidate by a strictly better one. -/
def consider (best : Candidate) (terminal : Terminal) (f : Frame) : Candidate :=
  if terminal.routeIdx = kInvalidRoute then best
  else if best.routeIdx = kInvalidRoute ∨ f.depth > best.depth ∨
      (f.depth = best.depth ∧ f.staticSegments > best.staticSegments) ∨
      (f.depth = best.depth ∧ f.staticSegments = best.staticSegments ∧
        f.staticMask > best.staticMask) ∨
      (f.depth = best.depth ∧ f.staticSegments = best.staticSegments ∧
        f.staticMask = best.staticMask ∧ terminal.methodSpecific ∧ ¬ best.methodSpecific) then
    ⟨terminal.routeIdx, f.depth, f.staticSegments, f.staticMask, terminal.methodSpecific, f.params⟩
  else best

/-- `stack.push`: a full stack drops the frame. The head of the list is the top. -/
def pushFrame (stack : List Frame) (f : Frame) : List Frame :=
  if stack.length < kMaxNodes then f :: stack else stack

/-- The frame for a parameter child. -/
def paramFrame (f : Frame) (child : Nat) (name seg : Str) : Frame :=
  { f with
    node := child
    segI := f.segI + 1
    depth := f.depth + 1
    params := if f.params.length < kMaxRouteParams then f.params ++ [⟨name.drop 1, seg⟩]
      else f.params }

/-- The frame for the child with the request's own segment. -/
def literalFrame (f : Frame) (child : Nat) : Frame :=
  { f with
    node := child
    segI := f.segI + 1
    depth := f.depth + 1
    staticSegments := f.staticSegments + 1
    staticMask := if f.depth + 1 < 64 then f.staticMask ||| 1 <<< (63 - (f.depth + 1))
      else f.staticMask }

/-- Push the frames for the children of `f` that match the request segment `seg`: parameter
children from the last to the first, then the literal child, so that the latter is on top. -/
def pushChildren (t : RouteTrie) (f : Frame) (seg : Str) (stack : List Frame) : List Frame :=
  let stack := (t.node f.node).children.reverse.foldl (fun stack c =>
    let name := (t.node c).segment
    if isParamSegment name then pushFrame stack (paramFrame f c name seg) else stack) stack
  match t.findChild f.node seg with
  | some c =>
    if isParamSegment (t.node c).segment then stack else pushFrame stack (literalFrame f c)
  | none => stack

/-- The search loop. Running out of fuel is `none`. -/
def searchLoop (t : RouteTrie) (slot : MethodSlot) (segs : List Str) :
    Nat → List Frame → Candidate → Option Candidate
  | _, [], best => some best
  | 0, _ :: _, _ => none
  | fuel + 1, f :: stack, best =>
    let best := consider best (pickTerminal (t.node f.node) slot) f
    match segs[f.segI]? with
    | none => searchLoop t slot segs fuel stack best
    | some seg => searchLoop t slot segs fuel (t.pushChildren f seg stack) best

/-- `match_key`: the route and the parameters written for it. The search visits a node at most
once, so the size of the pool is fuel enough. -/
def matchKey (t : RouteTrie) (path : Str) (methodKey : UInt8) (outParamCap : Nat) :
    Option (UInt16 × List RouteParam) :=
  match routeMethodSlotFromKey methodKey with
  | none => some (kInvalidRoute, [])
  | some slot =>
    (searchLoop t slot (tokenizeSegments path).1 t.nodes.length [{}] {}).map
      (fun best => (best.routeIdx, best.params.take outParamCap))

end RouteTrie
end Rut
