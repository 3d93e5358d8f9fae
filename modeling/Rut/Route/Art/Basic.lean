import Rut.Route.Basic

/-!
# The adaptive radix trie

A translation of `route_art.h` and `route_art.cc`: four node kinds of growing
fan-out, each in a pool of fixed capacity, and two operations,

    insert            : register a route under its canonical path
    matchCanonicalKey : the route of the longest registered byte prefix

Pools are kept as their live prefix, so a node's index is its position in the
list and allocating appends. A child reference is the pair of node kind and
index that the source packs into 16 bits; `none` is `kArtInvalidChildRef`.
Loops that the source bounds by the length of the path carry fuel, and running
out of it is a result of its own, `ArtFault.fuel`, never a made-up answer.
-/

namespace Rut

/-! ## Nodes -/

inductive ArtNodeType where
  | n4 | n16 | n48 | n256
deriving DecidableEq, Repr

/-- A reference to a node: `art_type(ref)` and `art_idx(ref)`. -/
structure ArtChildRef where
  type : ArtNodeType
  idx : Nat
deriving DecidableEq, Repr

/-- Capacity of each pool: `kMaxN4`, `kMaxN16`, `kMaxN48`, `kMaxN256`. -/
def ArtNodeType.maxNodes : ArtNodeType → Nat
  | .n4 => 256
  | .n16 => 64
  | .n48 => 32
  | .n256 => 8

/-- `art_pack`: the kind in the two upper bits, the index in the other fourteen. -/
def ArtChildRef.pack (r : ArtChildRef) : Nat :=
  (match r.type with | .n4 => 0 | .n16 => 1 | .n48 => 2 | .n256 => 3) * 2 ^ 14 + r.idx % 2 ^ 14

/-- Within the pools' capacities nothing is lost by packing, and no packed reference is
`kArtInvalidChildRef`: pairs with `none` on the side stand for the source's 16-bit values. -/
theorem ArtChildRef.pack_inj {r r' : ArtChildRef} (hr : r.idx < r.type.maxNodes)
    (hr' : r'.idx < r'.type.maxNodes) : (r.pack = r'.pack ↔ r = r') ∧ r.pack < 0xffff := by
  obtain ⟨ty, i⟩ := r
  obtain ⟨ty', i'⟩ := r'
  refine ⟨⟨fun h => ?_, fun h => by rw [h]⟩, ?_⟩
  · cases ty <;> cases ty' <;> simp only [pack, ArtNodeType.maxNodes] at * <;>
      first | omega | (congr; omega)
  · cases ty <;> simp only [pack, ArtNodeType.maxNodes] at * <;> omega

/-- What every node kind begins with: the edge leading to the node and one route
index per method slot. -/
structure ArtNodeHeader where
  edge : Str := []
  routeIdxByMethod : Vector UInt16 kMethodSlots := Vector.replicate _ kInvalidRoute
deriving DecidableEq

theorem nil_fits4 : ([] : List (UInt8 × ArtChildRef)).length ≤ 4 := by decide

theorem nil_fits16 : ([] : List (UInt8 × ArtChildRef)).length ≤ 16 := by decide

/-- `Node4` and `Node16`: parallel arrays of keys and children in insertion
order, up to `cap` of them. -/
structure ArtKeyedNode (cap : Nat) where
  hdr : ArtNodeHeader := {}
  slots : List (UInt8 × ArtChildRef) := []
  fits : slots.length ≤ cap := by first | exact nil_fits4 | exact nil_fits16 | simp

abbrev ArtNode4 := ArtKeyedNode 4

abbrev ArtNode16 := ArtKeyedNode 16

/-- `Node48`: a 256-entry table of 1-based positions in `children`; 0 is absent. -/
structure ArtNode48 where
  hdr : ArtNodeHeader := {}
  childIndex : UInt8 → Nat := fun _ => 0
  children : List ArtChildRef := []

/-- `Node256`: one child slot per byte, and how many of them are taken. -/
structure ArtNode256 where
  hdr : ArtNodeHeader := {}
  children : UInt8 → Option ArtChildRef := fun _ => none
  childCount : Nat := 0

/-- A node of any kind, as a reference resolves to it. -/
inductive ArtNode where
  | n4 (n : ArtNode4)
  | n16 (n : ArtNode16)
  | n48 (n : ArtNode48)
  | n256 (n : ArtNode256)

/-- All byte values in increasing order, as the loops `for byte < 256` visit them. -/
def allBytes : List UInt8 := (List.range 256).map UInt8.ofNat

/-- Overwrite the child stored under the first key equal to `b`. -/
def setSlot (b : UInt8) (c : ArtChildRef) :
    List (UInt8 × ArtChildRef) → List (UInt8 × ArtChildRef)
  | [] => []
  | kc :: rest => if kc.1 = b then (kc.1, c) :: rest else kc :: setSlot b c rest

theorem length_setSlot (b : UInt8) (c : ArtChildRef) (l : List (UInt8 × ArtChildRef)) :
    (setSlot b c l).length = l.length := by
  induction l with
  | nil => rfl
  | cons kc rest ih =>
    simp only [setSlot]
    split <;> simp [ih]

namespace ArtKeyedNode

variable {cap : Nat}

/-- `find_in_n4`, `find_in_n16`: linear scan of the keys. -/
def find (n : ArtKeyedNode cap) (b : UInt8) : Option ArtChildRef :=
  (n.slots.find? (fun kc => kc.1 = b)).map (·.2)

/-- Append a key and its child to a node that still has room. -/
def push (n : ArtKeyedNode cap) (b : UInt8) (c : ArtChildRef) (h : n.slots.length < cap) :
    ArtKeyedNode cap where
  hdr := n.hdr
  slots := n.slots ++ [(b, c)]
  fits := by simp only [List.length_append, List.length_singleton]; omega

/-- Write a child through the address of the slot that holds key `b`. -/
def setChild (n : ArtKeyedNode cap) (b : UInt8) (c : ArtChildRef) : ArtKeyedNode cap where
  hdr := n.hdr
  slots := setSlot b c n.slots
  fits := by rw [length_setSlot]; exact n.fits

/-- The `Node16` a full `Node4` is promoted to, with one more child. -/
def toNode16 (n : ArtNode4) (b : UInt8) (c : ArtChildRef) : ArtNode16 where
  hdr := n.hdr
  slots := n.slots ++ [(b, c)]
  fits := by
    have := n.fits
    simp only [List.length_append, List.length_singleton]
    omega

/-- The `child_index` table a `Node48` gets from the keys of a `Node16`. -/
def indexTable (slots : List (UInt8 × ArtChildRef)) : UInt8 → Nat :=
  slots.zipIdx.foldl (fun table kck => Function.update table kck.1.1 (kck.2 + 1)) (fun _ => 0)

/-- The `Node48` a full `Node16` is promoted to, with a seventeenth child. -/
def toNode48 (n : ArtNode16) (b : UInt8) (c : ArtChildRef) : ArtNode48 where
  hdr := n.hdr
  childIndex := Function.update (indexTable n.slots) b 17
  children := n.slots.map (·.2) ++ [c]

end ArtKeyedNode

namespace ArtNode48

/-- `find_in_n48` -/
def find (n : ArtNode48) (b : UInt8) : Option ArtChildRef :=
  if n.childIndex b = 0 then none else n.children[n.childIndex b - 1]?

def push (n : ArtNode48) (b : UInt8) (c : ArtChildRef) : ArtNode48 where
  hdr := n.hdr
  childIndex := Function.update n.childIndex b (n.children.length + 1)
  children := n.children ++ [c]

def setChild (n : ArtNode48) (b : UInt8) (c : ArtChildRef) : ArtNode48 where
  hdr := n.hdr
  childIndex := n.childIndex
  children := n.children.set (n.childIndex b - 1) c

/-- The `Node256` a full `Node48` is promoted to, with one more child. -/
def toNode256 (n : ArtNode48) (b : UInt8) (c : ArtChildRef) : ArtNode256 where
  hdr := n.hdr
  children := Function.update n.find b (some c)
  childCount := 49

end ArtNode48

def ArtNode256.push (n : ArtNode256) (b : UInt8) (c : ArtChildRef) : ArtNode256 where
  hdr := n.hdr
  children := Function.update n.children b (some c)
  childCount := n.childCount + 1

namespace ArtNode

def type : ArtNode → ArtNodeType
  | .n4 _ => .n4
  | .n16 _ => .n16
  | .n48 _ => .n48
  | .n256 _ => .n256

def hdr : ArtNode → ArtNodeHeader
  | .n4 n => n.hdr
  | .n16 n => n.hdr
  | .n48 n => n.hdr
  | .n256 n => n.hdr

def setHdr (h : ArtNodeHeader) : ArtNode → ArtNode
  | .n4 n => .n4 { n with hdr := h }
  | .n16 n => .n16 { n with hdr := h }
  | .n48 n => .n48 { n with hdr := h }
  | .n256 n => .n256 { n with hdr := h }

def empty : ArtNodeType → ArtNode
  | .n4 => .n4 {}
  | .n16 => .n16 {}
  | .n48 => .n48 {}
  | .n256 => .n256 {}

def find : ArtNode → UInt8 → Option ArtChildRef
  | .n4 n, b => n.find b
  | .n16 n, b => n.find b
  | .n48 n, b => n.find b
  | .n256 n, b => n.children b

/-- `*site = c` for the slot that holds the child under `b`. -/
def setChild (b : UInt8) (c : ArtChildRef) : ArtNode → ArtNode
  | .n4 n => .n4 (n.setChild b c)
  | .n16 n => .n16 (n.setChild b c)
  | .n48 n => .n48 (n.setChild b c)
  | .n256 n => .n256 { n with children := Function.update n.children b (some c) }

/-- The (key, child) pairs in the order in which an edge split moves them. -/
def entries : ArtNode → List (UInt8 × ArtChildRef)
  | .n4 n => n.slots
  | .n16 n => n.slots
  | .n48 n => allBytes.filterMap (fun b => (n.find b).map (b, ·))
  | .n256 n => allBytes.filterMap (fun b => (n.children b).map (b, ·))

end ArtNode

/-! ## Pools -/

/-- The trie: four pools, the root and the flag that selects the `Node4`-only
fast path of the lookup. -/
structure ArtTrie where
  n4Pool : List ArtNode4
  n16Pool : List ArtNode16
  n48Pool : List ArtNode48
  n256Pool : List ArtNode256
  rootRef : ArtChildRef
  isUniformN4 : Bool

/-- Why a step of `insert` does not deliver a trie: a pool is full (the source
rolls back and reports failure), or one of two things that would be undefined
or endless in the source and that are shown never to happen. -/
inductive ArtFault where
  | full
  | dangling
  | fuel
deriving DecidableEq, Repr

namespace ArtTrie

/-- `clear()`: only a `Node4` root. -/
def clear : ArtTrie where
  n4Pool := [{}]
  n16Pool := []
  n48Pool := []
  n256Pool := []
  rootRef := ⟨.n4, 0⟩
  isUniformN4 := true

/-- The node a reference resolves to; `none` outside the live part of the pool. -/
def node (t : ArtTrie) (ref : ArtChildRef) : Option ArtNode :=
  match ref.type with
  | .n4 => t.n4Pool[ref.idx]?.map .n4
  | .n16 => t.n16Pool[ref.idx]?.map .n16
  | .n48 => t.n48Pool[ref.idx]?.map .n48
  | .n256 => t.n256Pool[ref.idx]?.map .n256

def write (t : ArtTrie) (i : Nat) : ArtNode → ArtTrie
  | .n4 n => { t with n4Pool := t.n4Pool.set i n }
  | .n16 n => { t with n16Pool := t.n16Pool.set i n }
  | .n48 n => { t with n48Pool := t.n48Pool.set i n }
  | .n256 n => { t with n256Pool := t.n256Pool.set i n }

def append (t : ArtTrie) : ArtNode → ArtTrie
  | .n4 n => { t with n4Pool := t.n4Pool ++ [n] }
  | .n16 n => { t with n16Pool := t.n16Pool ++ [n] }
  | .n48 n => { t with n48Pool := t.n48Pool ++ [n] }
  | .n256 n => { t with n256Pool := t.n256Pool ++ [n] }

def poolLen (t : ArtTrie) : ArtNodeType → Nat
  | .n4 => t.n4Pool.length
  | .n16 => t.n16Pool.length
  | .n48 => t.n48Pool.length
  | .n256 => t.n256Pool.length

/-- Take the next entry of a pool. Any kind but `Node4` ends the uniform state. -/
def alloc (t : ArtTrie) (type : ArtNodeType) : Except ArtFault (ArtTrie × ArtChildRef) :=
  if t.poolLen type ≥ type.maxNodes then .error .full
  else
    let t' := t.append (.empty type)
    .ok ({ t' with isUniformN4 := t.isUniformN4 && type = .n4 }, ⟨type, t.poolLen type⟩)

def allocN4 (t : ArtTrie) := t.alloc .n4

def allocN16 (t : ArtTrie) := t.alloc .n16

def allocN48 (t : ArtTrie) := t.alloc .n48

def allocN256 (t : ArtTrie) := t.alloc .n256

def header (t : ArtTrie) (ref : ArtChildRef) : ArtNodeHeader :=
  match t.node ref with
  | some n => n.hdr
  | none => {}

def setHeader (t : ArtTrie) (ref : ArtChildRef) (h : ArtNodeHeader) : ArtTrie :=
  match t.node ref with
  | some n => t.write ref.idx (n.setHdr h)
  | none => t

def findChild (t : ArtTrie) (parent : ArtChildRef) (b : UInt8) : Option ArtChildRef :=
  match t.node parent with
  | some n => n.find b
  | none => none

/-! ## Insertion -/

/-- Append `child` to `parent` under the unseen byte `b`. A full node is copied
into a fresh one of the next kind; the result is the reference the parent now
has, which the caller has to store where the old one was. -/
def addChild (t : ArtTrie) (parent : ArtChildRef) (b : UInt8) (child : ArtChildRef) :
    Except ArtFault (ArtTrie × ArtChildRef) :=
  match t.node parent with
  | none => .error .dangling
  | some (.n4 n) =>
    if h : n.slots.length < 4 then .ok (t.write parent.idx (.n4 (n.push b child h)), parent)
    else do
      let (t', ref) ← t.allocN16
      return (t'.write ref.idx (.n16 (n.toNode16 b child)), ref)
  | some (.n16 n) =>
    if h : n.slots.length < 16 then .ok (t.write parent.idx (.n16 (n.push b child h)), parent)
    else do
      let (t', ref) ← t.allocN48
      return (t'.write ref.idx (.n48 (n.toNode48 b child)), ref)
  | some (.n48 n) =>
    if n.children.length < 48 then .ok (t.write parent.idx (.n48 (n.push b child)), parent)
    else do
      let (t', ref) ← t.allocN256
      return (t'.write ref.idx (.n256 (n.toNode256 b child)), ref)
  | some (.n256 n) =>
    .ok (t.write parent.idx (.n256 (n.push b child)), parent)

/-- Where the reference to the current node is stored: `cur_patch_site`. -/
inductive PatchSite where
  | root
  | slot (parent : ArtChildRef) (b : UInt8)
deriving DecidableEq, Repr

def patch (t : ArtTrie) (site : PatchSite) (ref : ArtChildRef) : ArtTrie :=
  match site with
  | .root => { t with rootRef := ref }
  | .slot parent b =>
    match t.node parent with
    | some n => t.write parent.idx (n.setChild b ref)
    | none => t

/-- Length of the common prefix of an edge and the rest of the path. -/
def commonLen : Str → Str → Nat
  | a :: e, b :: p => if a = b then commonLen e p + 1 else 0
  | _, _ => 0

/-- The first branch of the loop: no child under `b`, so the rest of the path
becomes the edge of a new leaf. -/
def addLeaf (t : ArtTrie) (cur : ArtChildRef) (site : PatchSite) (b : UInt8) (rest : Str) :
    Except ArtFault (ArtTrie × ArtChildRef) := do
  let (t, leaf) ← t.allocN4
  let t := t.setHeader leaf { edge := rest }
  let (t, newParent) ← t.addChild cur b leaf
  return (if newParent ≠ cur then t.patch site newParent else t, leaf)

/-- Move (key, child) pairs onto `tail`, whose reference changes with its kind. -/
def addChildren (t : ArtTrie) (tail : ArtChildRef) :
    List (UInt8 × ArtChildRef) → Except ArtFault (ArtTrie × ArtChildRef)
  | [] => .ok (t, tail)
  | (b, c) :: entries => do
    let (t, tail) ← t.addChild tail b c
    t.addChildren tail entries

/-- Reset a node in place to an empty one of its own kind with the given edge. -/
def resetNode (t : ArtTrie) (ref : ArtChildRef) (edge : Str) : ArtTrie :=
  t.write ref.idx ((ArtNode.empty ref.type).setHdr { edge := edge })

/-- The last branch of the loop: only `shared` of the child's edge matches. The child
keeps that part and nothing else; a new tail under `d`, the first byte of the remaining
edge `rest`, takes the child's terminals and children. -/
def splitEdge (t : ArtTrie) (child : ArtChildRef) (site : PatchSite) (shared : Str)
    (d : UInt8) (rest : Str) : Except ArtFault (ArtTrie × ArtChildRef) := do
  let (t, tail) ← t.allocN4
  let t := t.setHeader tail
    { edge := rest, routeIdxByMethod := (t.header child).routeIdxByMethod }
  let some n := t.node child | .error .dangling
  let (t, tailRef) ← t.addChildren tail n.entries
  let t := t.resetNode child shared
  let (t, newChildRef) ← t.addChild child d tailRef
  return (if newChildRef ≠ child then t.patch site newChildRef else t, newChildRef)

/-- The descent of `insert`: `rest` is what is left of the path at node `cur`. -/
def insertLoop : Nat → ArtTrie → ArtChildRef → PatchSite → Str →
    Except ArtFault (ArtTrie × ArtChildRef)
  | _, t, cur, _, [] => .ok (t, cur)
  | 0, _, _, _, _ :: _ => .error .fuel
  | fuel + 1, t, cur, site, b :: rest =>
    match t.findChild cur b with
    | none => t.addLeaf cur site b (b :: rest)
    | some child =>
      let e := (t.header child).edge
      let k := commonLen e (b :: rest)
      match e.drop k with
      | [] => insertLoop fuel t child (.slot cur b) ((b :: rest).drop k)
      | d :: _ => do
        let (t, newChildRef) ← t.splitEdge child site (e.take k) d (e.drop k)
        -- the site is left alone: it still holds the reference to the split child
        insertLoop fuel t newChildRef site ((b :: rest).drop k)

/-- First insert wins: a terminal slot that is already taken keeps its route. -/
def setTerminal (t : ArtTrie) (ref : ArtChildRef) (slot : MethodSlot) (routeIdx : UInt16) :
    ArtTrie :=
  let h := t.header ref
  if h.routeIdxByMethod[slot] = kInvalidRoute then
    t.setHeader ref { h with routeIdxByMethod := h.routeIdxByMethod.set slot routeIdx }
  else t

/-- `insert`. A full pool rolls every change back and reports `false`; `none` would be
a run with no result. -/
def insert (t : ArtTrie) (path : Str) (methodChar : UInt8) (routeIdx : UInt16) :
    Option (ArtTrie × Bool) :=
  match routeMethodSlot methodChar with
  | none => some (t, false)
  | some slot =>
    let p := finalizePathCanonical path
    match insertLoop p.length t t.rootRef .root p with
    | .ok (t', cur) => some (t'.setTerminal cur slot routeIdx, true)
    | .error .full => some (t, false)
    | .error _ => none

/-! ## Lookup -/

/-- The route a terminal offers to a request: its own slot before "any". -/
def pickTerminal (h : ArtNodeHeader) (slot : MethodSlot) : UInt16 :=
  if slot ≠ 0 ∧ h.routeIdxByMethod[slot] ≠ kInvalidRoute then h.routeIdxByMethod[slot]
  else h.routeIdxByMethod[0]

/-- The fast path over a trie that holds only `Node4`: kinds are never looked at. -/
def uniformLoop (t : ArtTrie) (slot : MethodSlot) : Nat → Nat → UInt16 → Str → Option UInt16
  | _, _, best, [] => some best
  | 0, _, _, _ :: _ => none
  | fuel + 1, curIdx, best, b :: rest =>
    match (t.n4Pool.getD curIdx {}).find b with
    | none => some best
    | some child =>
      let cn := t.n4Pool.getD child.idx {}
      if cn.hdr.edge.isPrefixOf (b :: rest) then
        let cand := pickTerminal cn.hdr slot
        uniformLoop t slot fuel child.idx (if cand ≠ kInvalidRoute then cand else best)
          ((b :: rest).drop cn.hdr.edge.length)
      else some best

/-- The general path over nodes of all kinds. -/
def generalLoop (t : ArtTrie) (slot : MethodSlot) :
    Nat → ArtChildRef → UInt16 → Str → Option UInt16
  | _, _, best, [] => some best
  | 0, _, _, _ :: _ => none
  | fuel + 1, cur, best, b :: rest =>
    match t.findChild cur b with
    | none => some best
    | some child =>
      let h := t.header child
      if h.edge.isPrefixOf (b :: rest) then
        let cand := pickTerminal h slot
        generalLoop t slot fuel child (if cand ≠ kInvalidRoute then cand else best)
          ((b :: rest).drop h.edge.length)
      else some best

/-- `match_canonical_key`; `none` would be a lookup that does not return. -/
def matchCanonicalKey (t : ArtTrie) (path : Str) (methodKey : UInt8) : Option UInt16 :=
  match routeMethodSlotFromKey methodKey with
  | none => some kInvalidRoute
  | some slot =>
    if t.isUniformN4 then
      uniformLoop t slot path.length t.rootRef.idx
        (pickTerminal (t.n4Pool.getD t.rootRef.idx {}).hdr slot) path
    else
      generalLoop t slot path.length t.rootRef (pickTerminal (t.header t.rootRef) slot) path

end ArtTrie

end Rut
