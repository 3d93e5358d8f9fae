import Rut.Lib.Arena
import Rut.Route.Art.Verified

/-!
# The trie in memory

`ArtTrie` keeps the pools as lists and gives up a trie when an insertion fails. Here the pools are
what they are in `route_art.h`, arrays of which a prefix is in use, and an edge is a pointer into the
path that was inserted. An insertion changes them step by step, also one that fails in the end: it
has then taken nodes, split an edge, promoted a parent or moved children, and undoes it by writing the
saved prefixes and lengths back.

    load    : what a lookup finds in memory
    insert  : the insertion, with the snapshot and `rollback`

`load_insert` says that the two agree: what is loaded after an insertion is what `ArtTrie.insert` makes
of what was loaded before. So a failing insertion leaves nothing behind that anyone could see
(`observe_of_insert_false`).
-/

namespace Rut

open Lib Option Arena

/-! ## Memory -/

/-- The bytes outside of the trie that edges point to. -/
abbrev Bytes := Nat → UInt8

/-- A node with the edge as it is stored. The edge in the header of `node` is not used. -/
structure Stored (ν : Type) where
  node : ν
  edge : View := {}

structure ArtMem where
  n4Pool : Arena (Stored ArtNode4)
  n16Pool : Arena (Stored ArtNode16)
  n48Pool : Arena (Stored ArtNode48)
  n256Pool : Arena (Stored ArtNode256)
  rootRef : ArtChildRef
  isUniformN4 : Bool

/-- A node of any kind with its edge read. -/
def Stored.resolve (bytes : Bytes) (s : Stored ArtNode) : ArtNode :=
  s.node.setHdr { s.node.hdr with edge := s.edge.read bytes }

def Stored.resolve4 (bytes : Bytes) (s : Stored ArtNode4) : ArtNode4 :=
  { s.node with hdr := { s.node.hdr with edge := s.edge.read bytes } }

def Stored.resolve16 (bytes : Bytes) (s : Stored ArtNode16) : ArtNode16 :=
  { s.node with hdr := { s.node.hdr with edge := s.edge.read bytes } }

def Stored.resolve48 (bytes : Bytes) (s : Stored ArtNode48) : ArtNode48 :=
  { s.node with hdr := { s.node.hdr with edge := s.edge.read bytes } }

def Stored.resolve256 (bytes : Bytes) (s : Stored ArtNode256) : ArtNode256 :=
  { s.node with hdr := { s.node.hdr with edge := s.edge.read bytes } }

namespace ArtMem

/-- What is in use, with the edges read. -/
def load (bytes : Bytes) (m : ArtMem) : ArtTrie where
  n4Pool := m.n4Pool.live.map (·.resolve4 bytes)
  n16Pool := m.n16Pool.live.map (·.resolve16 bytes)
  n48Pool := m.n48Pool.live.map (·.resolve48 bytes)
  n256Pool := m.n256Pool.live.map (·.resolve256 bytes)
  rootRef := m.rootRef
  isUniformN4 := m.isUniformN4

def clear (m : ArtMem) : ArtMem where
  n4Pool := { m.n4Pool with used := 0 }.push { node := {} }
  n16Pool := { m.n16Pool with used := 0 }
  n48Pool := { m.n48Pool with used := 0 }
  n256Pool := { m.n256Pool with used := 0 }
  rootRef := ⟨.n4, 0⟩
  isUniformN4 := true

def poolLen (m : ArtMem) : ArtNodeType → Nat
  | .n4 => m.n4Pool.used
  | .n16 => m.n16Pool.used
  | .n48 => m.n48Pool.used
  | .n256 => m.n256Pool.used

/-- The entry a reference resolves to; `none` outside the part in use. -/
def node (m : ArtMem) (ref : ArtChildRef) : Option (Stored ArtNode) :=
  match ref.type with
  | .n4 => (m.n4Pool.get? ref.idx).map fun s => ⟨.n4 s.node, s.edge⟩
  | .n16 => (m.n16Pool.get? ref.idx).map fun s => ⟨.n16 s.node, s.edge⟩
  | .n48 => (m.n48Pool.get? ref.idx).map fun s => ⟨.n48 s.node, s.edge⟩
  | .n256 => (m.n256Pool.get? ref.idx).map fun s => ⟨.n256 s.node, s.edge⟩

def write (m : ArtMem) (i : Nat) (s : Stored ArtNode) : ArtMem :=
  match s.node with
  | .n4 n => { m with n4Pool := m.n4Pool.set i ⟨n, s.edge⟩ }
  | .n16 n => { m with n16Pool := m.n16Pool.set i ⟨n, s.edge⟩ }
  | .n48 n => { m with n48Pool := m.n48Pool.set i ⟨n, s.edge⟩ }
  | .n256 n => { m with n256Pool := m.n256Pool.set i ⟨n, s.edge⟩ }

def findChild (m : ArtMem) (parent : ArtChildRef) (b : UInt8) : Option ArtChildRef :=
  (m.node parent).bind (·.node.find b)

def edge (m : ArtMem) (ref : ArtChildRef) : View := (m.node ref).elim {} (·.edge)

def terminals (m : ArtMem) (ref : ArtChildRef) : Vector UInt16 kMethodSlots :=
  (m.node ref).elim (Vector.replicate _ kInvalidRoute) (·.node.hdr.routeIdxByMethod)

/-- Write the edge and the terminals of a node. -/
def setHeader (m : ArtMem) (ref : ArtChildRef) (edge : View)
    (terminals : Vector UInt16 kMethodSlots) : ArtMem :=
  match m.node ref with
  | some s => m.write ref.idx ⟨s.node.setHdr { routeIdxByMethod := terminals }, edge⟩
  | none => m

/-! ## Insertion -/

/-- A step of `insert`. One that fails leaves the memory as it is at that point. -/
abbrev ArtM := EStateM ArtFault ArtMem

/-- `alloc_n4`, `alloc_n16`, `alloc_n48`, `alloc_n256` -/
def alloc (type : ArtNodeType) : ArtM ArtChildRef := fun m =>
  if m.poolLen type ≥ type.maxNodes then .error .full m
  else
    let flag := m.isUniformN4 && type = .n4
    .ok ⟨type, m.poolLen type⟩ <|
      match type with
      | .n4 => { m with n4Pool := m.n4Pool.push { node := {} }, isUniformN4 := flag }
      | .n16 => { m with n16Pool := m.n16Pool.push { node := {} }, isUniformN4 := flag }
      | .n48 => { m with n48Pool := m.n48Pool.push { node := {} }, isUniformN4 := flag }
      | .n256 => { m with n256Pool := m.n256Pool.push { node := {} }, isUniformN4 := flag }

/-- The promotion of a full node: take an entry of the next kind and fill it. -/
def promote (type : ArtNodeType) (s : Stored ArtNode) : ArtM ArtChildRef := do
  let ref ← alloc type
  modify (·.write ref.idx s)
  return ref

def addChild (parent : ArtChildRef) (b : UInt8) (child : ArtChildRef) : ArtM ArtChildRef := do
  let inPlace (s : Stored ArtNode) : ArtM ArtChildRef := do
    modify (·.write parent.idx s)
    return parent
  match (← get).node parent with
  | none => throw .dangling
  | some ⟨.n4 n, e⟩ =>
    if h : n.slots.length < 4 then inPlace ⟨.n4 (n.push b child h), e⟩
    else promote .n16 ⟨.n16 (n.toNode16 b child), e⟩
  | some ⟨.n16 n, e⟩ =>
    if h : n.slots.length < 16 then inPlace ⟨.n16 (n.push b child h), e⟩
    else promote .n48 ⟨.n48 (n.toNode48 b child), e⟩
  | some ⟨.n48 n, e⟩ =>
    if n.children.length < 48 then inPlace ⟨.n48 (n.push b child), e⟩
    else promote .n256 ⟨.n256 (n.toNode256 b child), e⟩
  | some ⟨.n256 n, e⟩ =>
    inPlace ⟨.n256 (n.push b child), e⟩

def patch (m : ArtMem) (site : ArtTrie.PatchSite) (ref : ArtChildRef) : ArtMem :=
  match site with
  | .root => { m with rootRef := ref }
  | .slot parent b =>
    match m.node parent with
    | some s => m.write parent.idx ⟨s.node.setChild b ref, s.edge⟩
    | none => m

/-- The promoted node is stored where the old one was. -/
def repatch (m : ArtMem) (old : ArtChildRef) (site : ArtTrie.PatchSite) (ref : ArtChildRef) : ArtMem :=
  if ref ≠ old then m.patch site ref else m

/-- The first branch of the loop. -/
def addLeaf (cur : ArtChildRef) (site : ArtTrie.PatchSite) (b : UInt8) (rest : View) :
    ArtM ArtChildRef := do
  let leaf ← alloc .n4
  modify (·.setHeader leaf rest (Vector.replicate _ kInvalidRoute))
  let newParent ← addChild cur b leaf
  modify (·.repatch cur site newParent)
  return leaf

def addChildren (tail : ArtChildRef) : List (UInt8 × ArtChildRef) → ArtM ArtChildRef
  | [] => return tail
  | (b, c) :: entries => do
    let tail ← addChild tail b c
    addChildren tail entries

/-- The last branch of the loop. -/
def splitEdge (child : ArtChildRef) (site : ArtTrie.PatchSite) (shared : View) (d : UInt8)
    (rest : View) : ArtM ArtChildRef := do
  let tail ← alloc .n4
  modify fun m => m.setHeader tail rest (m.terminals child)
  match (← get).node child with
  | none => throw .dangling
  | some s => do
    let tailRef ← addChildren tail s.node.entries
    modify (·.write child.idx ⟨.empty child.type, shared⟩)
    let newChildRef ← addChild child d tailRef
    modify (·.repatch child site newChildRef)
    return newChildRef

def insertLoop (bytes : Bytes) : Nat → ArtChildRef → ArtTrie.PatchSite → View → ArtM ArtChildRef
  | fuel, cur, site, rest =>
    if rest.len = 0 then return cur
    else
      match fuel with
      | 0 => throw .fuel
      | fuel + 1 => do
        let b := bytes rest.ptr
        match (← get).findChild cur b with
        | none => addLeaf cur site b rest
        | some child =>
          let e := (← get).edge child
          let k := ArtTrie.commonLen (e.read bytes) (rest.read bytes)
          if k = e.len then insertLoop bytes fuel child (.slot cur b) (rest.drop k)
          else
            let ref ← splitEdge child site (e.take k) (bytes (e.ptr + k)) (e.drop k)
            insertLoop bytes fuel ref site (rest.drop k)

def setTerminal (m : ArtMem) (ref : ArtChildRef) (slot : MethodSlot) (routeIdx : UInt16) : ArtMem :=
  if getElem (m.terminals ref) slot slot.isLt = kInvalidRoute then
    m.setHeader ref (m.edge ref) ((m.terminals ref).set slot routeIdx slot.isLt)
  else m

/-- The lambda `rollback`, where `saved` is the trie at the begin of the call. -/
def rollback (saved m : ArtMem) : ArtMem where
  n4Pool := .restore saved.n4Pool m.n4Pool
  n16Pool := .restore saved.n16Pool m.n16Pool
  n48Pool := .restore saved.n48Pool m.n48Pool
  n256Pool := .restore saved.n256Pool m.n256Pool
  rootRef := saved.rootRef
  isUniformN4 := saved.isUniformN4

end ArtMem

/-- `finalize_path_canonical` on the view itself. -/
def finalizeView (bytes : Bytes) (path : View) : View :=
  let lo := ((path.read bytes).takeWhile (· = slash)).length
  let p := path.drop lo
  p.take (p.len - ((p.read bytes).reverse.takeWhile (· = slash)).length)

namespace ArtMem

/-- `insert`; `none` would be a run with no result. -/
def insert (bytes : Bytes) (m : ArtMem) (path : View) (methodChar : UInt8) (routeIdx : UInt16) :
    Option (ArtMem × Bool) :=
  match routeMethodSlot methodChar with
  | none => some (m, false)
  | some slot =>
    let p := finalizeView bytes path
    match insertLoop bytes p.len m.rootRef .root p m with
    | .ok cur m' => some (m'.setTerminal cur slot routeIdx, true)
    | .error .full m' => some (m.rollback m', false)
    | .error _ _ => none

/-- `match_canonical_key` reads what is in use. -/
def matchCanonicalKey (bytes : Bytes) (m : ArtMem) (path : Str) (methodKey : UInt8) : Option UInt16 :=
  (m.load bytes).matchCanonicalKey path methodKey

/-! ## What is loaded -/

variable {bytes : Bytes} {m : ArtMem}

/-- A cleared trie is empty. -/
theorem load_clear (bytes : Bytes) (m : ArtMem) : (m.clear).load bytes = ArtTrie.clear := by
  rfl

theorem poolLen_load (bytes : Bytes) (m : ArtMem) (type : ArtNodeType) :
    (m.load bytes).poolLen type = m.poolLen type := by
  cases type <;> simp [load, poolLen, ArtTrie.poolLen]

/-- A node is loaded with its edge read. -/
theorem node_load (bytes : Bytes) (m : ArtMem) (ref : ArtChildRef) :
    (m.load bytes).node ref = (m.node ref).map (·.resolve bytes) := by
  obtain ⟨type, idx⟩ := ref
  cases type <;> simp only [ArtTrie.node, node, load, get?_eq, List.getElem?_map,
    map_map] <;> rfl

/-- Writing commutes with loading. -/
theorem load_write (bytes : Bytes) (m : ArtMem) (i : Nat) (s : Stored ArtNode) :
    (m.write i s).load bytes = (m.load bytes).write i (s.resolve bytes) := by
  obtain ⟨n, e⟩ := s
  cases n <;> simp only [write, load, live_set, List.map_set] <;> rfl

theorem findChild_load (bytes : Bytes) (m : ArtMem) (parent : ArtChildRef) (b : UInt8) :
    (m.load bytes).findChild parent b = m.findChild parent b := by
  rw [ArtTrie.findChild, findChild, node_load]
  cases m.node parent with
  | none => rfl
  | some s =>
    obtain ⟨n, e⟩ := s
    cases n <;> rfl

theorem header_load (bytes : Bytes) (m : ArtMem) (ref : ArtChildRef) :
    (m.load bytes).header ref = ⟨(m.edge ref).read bytes, m.terminals ref⟩ := by
  rw [ArtTrie.header, edge, terminals, node_load]
  cases m.node ref with
  | none => rfl
  | some s =>
    obtain ⟨n, e⟩ := s
    cases n <;> rfl

theorem load_setHeader (bytes : Bytes) (m : ArtMem) (ref : ArtChildRef) (edge : View)
    (terminals : Vector UInt16 kMethodSlots) :
    (m.setHeader ref edge terminals).load bytes =
      (m.load bytes).setHeader ref ⟨edge.read bytes, terminals⟩ := by
  rw [ArtTrie.setHeader, setHeader, node_load]
  cases m.node ref with
  | none => rfl
  | some s =>
    obtain ⟨n, e⟩ := s
    rw [load_write]
    cases n <;> rfl

theorem load_patch (bytes : Bytes) (m : ArtMem) (site : ArtTrie.PatchSite) (ref : ArtChildRef) :
    (m.patch site ref).load bytes = (m.load bytes).patch site ref := by
  cases site with
  | root => rfl
  | slot parent b =>
    rw [patch, ArtTrie.patch, node_load]
    cases m.node parent with
    | none => rfl
    | some s =>
      obtain ⟨n, e⟩ := s
      rw [load_write]
      cases n <;> rfl

theorem load_repatch (bytes : Bytes) (m : ArtMem) (old : ArtChildRef) (site : ArtTrie.PatchSite)
    (ref : ArtChildRef) :
    (m.repatch old site ref).load bytes =
      if ref ≠ old then (m.load bytes).patch site ref else m.load bytes := by
  unfold repatch
  split
  · exact load_patch bytes m site ref
  · rfl

/-- Whatever has happened since, the saved part is there again. -/
theorem load_rollback (bytes : Bytes) (saved m : ArtMem) :
    (saved.rollback m).load bytes = saved.load bytes := by
  simp only [load, rollback, live_restore]

/-! ## The steps -/

/-- What a step of `insert` means for the trie that is loaded. -/
def outcome {α : Type} (bytes : Bytes) : EStateM.Result ArtFault ArtMem α → Except ArtFault (ArtTrie × α)
  | .ok a m => .ok (m.load bytes, a)
  | .error e _ => .error e

/-- Steps follow each other in memory as in the model. -/
theorem outcome_bind {α β : Type} {x : ArtM α} {f : α → ArtM β}
    {y : Except ArtFault (ArtTrie × α)} {g : ArtTrie × α → Except ArtFault (ArtTrie × β)}
    (hx : outcome bytes (x m) = y)
    (hf : ∀ a m', outcome bytes (f a m') = g (m'.load bytes, a)) :
    outcome bytes ((x >>= f) m) = y >>= g := by
  subst hx
  show outcome bytes (EStateM.bind x f m) = _
  unfold EStateM.bind
  cases x m with
  | ok a m' => exact hf a m'
  | error e m' => rfl

theorem outcome_alloc (m : ArtMem) (type : ArtNodeType) :
    outcome bytes (alloc type m) = (m.load bytes).alloc type := by
  rw [ArtTrie.alloc, poolLen_load, alloc]
  split
  · rfl
  · cases type <;> simp only [outcome, load, live_push, List.map_append] <;> rfl

theorem outcome_promote (m : ArtMem) (type : ArtNodeType) (s : Stored ArtNode) :
    outcome bytes (promote type s m) = (do
      let (t, ref) ← (m.load bytes).alloc type
      return (t.write ref.idx (s.resolve bytes), ref)) := by
  apply outcome_bind (outcome_alloc m type)
  intro ref m'
  exact congrArg (fun t => Except.ok (t, ref)) (load_write bytes m' ref.idx s)

theorem outcome_addChild (m : ArtMem) (parent : ArtChildRef) (b : UInt8) (child : ArtChildRef) :
    outcome bytes (addChild parent b child m) = (m.load bytes).addChild parent b child := by
  -- Both read the node of the parent and then either write in place or promote.
  have hplace : ∀ s : Stored ArtNode, Except.ok ((m.write parent.idx s).load bytes, parent) =
      (.ok ((m.load bytes).write parent.idx (s.resolve bytes), parent) : Except ArtFault _) :=
    fun s => congrArg (fun t => Except.ok (t, parent)) (load_write bytes m parent.idx s)
  rw [ArtTrie.addChild, node_load]
  show outcome bytes ((match m.node parent with
    | none => _
    | some ⟨.n4 n, e⟩ => _
    | some ⟨.n16 n, e⟩ => _
    | some ⟨.n48 n, e⟩ => _
    | some ⟨.n256 n, e⟩ => _ : ArtM ArtChildRef) m) = _
  cases m.node parent with
  | none => rfl
  | some s =>
    obtain ⟨n, e⟩ := s
    cases n with
    | n4 n =>
      dsimp only [map_some, Stored.resolve, ArtNode.setHdr]
      split
      · exact hplace _
      · exact outcome_promote m .n16 _
    | n16 n =>
      dsimp only [map_some, Stored.resolve, ArtNode.setHdr]
      split
      · exact hplace _
      · exact outcome_promote m .n48 _
    | n48 n =>
      dsimp only [map_some, Stored.resolve, ArtNode.setHdr]
      split
      · exact hplace _
      · exact outcome_promote m .n256 _
    | n256 n => exact hplace _

theorem outcome_addLeaf (m : ArtMem) (cur : ArtChildRef) (site : ArtTrie.PatchSite) (b : UInt8)
    (rest : View) :
    outcome bytes (addLeaf cur site b rest m) =
      (m.load bytes).addLeaf cur site b (rest.read bytes) := by
  apply outcome_bind (outcome_alloc m .n4)
  intro leaf m'
  show outcome bytes ((addChild cur b leaf >>= fun newParent => _ : ArtM ArtChildRef)
    (m'.setHeader leaf rest _)) = _
  apply outcome_bind
  · rw [outcome_addChild, load_setHeader]
  intro newParent m''
  exact congrArg (fun t => Except.ok (t, leaf)) (load_repatch bytes m'' cur site newParent)

theorem outcome_addChildren (m : ArtMem) (tail : ArtChildRef) (entries : List (UInt8 × ArtChildRef)) :
    outcome bytes (addChildren tail entries m) = (m.load bytes).addChildren tail entries := by
  induction entries generalizing m tail with
  | nil => rfl
  | cons kc entries ih =>
    apply outcome_bind (outcome_addChild m tail kc.1 kc.2)
    intro tail' m'
    exact ih m' tail'

theorem outcome_splitEdge (m : ArtMem) (child : ArtChildRef) (site : ArtTrie.PatchSite) (shared : View)
    (d : UInt8) (rest : View) :
    outcome bytes (splitEdge child site shared d rest m) =
      (m.load bytes).splitEdge child site (shared.read bytes) d (rest.read bytes) := by
  apply outcome_bind (outcome_alloc m .n4)
  intro tail m₁
  have hload : (m₁.setHeader tail rest (m₁.terminals child)).load bytes =
      (m₁.load bytes).setHeader tail
        ⟨rest.read bytes, ((m₁.load bytes).header child).routeIdxByMethod⟩ := by
    rw [load_setHeader, header_load]
  dsimp only
  rw [← hload]
  generalize hm₂ : m₁.setHeader tail rest (m₁.terminals child) = m₂
  show outcome bytes ((match (m₁.setHeader tail rest (m₁.terminals child)).node child with
    | none => _
    | some s => _ : ArtM ArtChildRef) (m₁.setHeader tail rest (m₁.terminals child))) = _
  rw [hm₂, node_load]
  cases m₂.node child with
  | none => rfl
  | some s =>
    have hentries : (s.resolve bytes).entries = s.node.entries := by
      obtain ⟨n, e⟩ := s
      cases n <;> rfl
    dsimp only [map_some]
    rw [hentries]
    apply outcome_bind (outcome_addChildren m₂ tail s.node.entries)
    intro tailRef m₃
    show outcome bytes ((addChild child d tailRef >>= fun newChildRef => _ : ArtM ArtChildRef)
      (m₃.write child.idx ⟨.empty child.type, shared⟩)) = _
    have hreset : Stored.resolve bytes ⟨.empty child.type, shared⟩ =
        (ArtNode.empty child.type).setHdr { edge := shared.read bytes } := by
      cases child.type <;> rfl
    apply outcome_bind
    · rw [outcome_addChild, load_write, hreset]
      rfl
    intro newChildRef m₄
    exact congrArg (fun t => Except.ok (t, newChildRef))
      (load_repatch bytes m₄ child site newChildRef)

theorem commonLen_le (e p : Str) : ArtTrie.commonLen e p ≤ e.length := by
  induction e generalizing p with
  | nil => exact Nat.le_refl 0
  | cons a e ih =>
    cases p with
    | nil => exact Nat.zero_le _
    | cons b p =>
      rw [ArtTrie.commonLen]
      split
      · exact Nat.succ_le_succ (ih p)
      · exact Nat.zero_le _

/-- The descent in memory is that of the model. -/
theorem outcome_insertLoop (bytes : Bytes) (fuel : Nat) (m : ArtMem) (cur : ArtChildRef) (site : ArtTrie.PatchSite)
    (rest : View) :
    outcome bytes (insertLoop bytes fuel cur site rest m) =
      ArtTrie.insertLoop fuel (m.load bytes) cur site (rest.read bytes) := by
  induction fuel generalizing m cur site rest with
  | zero =>
    unfold insertLoop
    split
    · next hlen => rw [View.read_eq_nil hlen]; rfl
    · next hlen => rw [View.read_cons (Nat.pos_of_ne_zero hlen)]; rfl
  | succ fuel ih =>
    unfold insertLoop
    split
    · next hlen => rw [View.read_eq_nil hlen]; rfl
    next hlen =>
    have hread : rest.read bytes = bytes rest.ptr :: (rest.drop 1).read bytes :=
      View.read_cons (Nat.pos_of_ne_zero hlen)
    rw [hread, ArtTrie.insertLoop, findChild_load, ← hread]
    show outcome bytes ((match m.findChild cur (bytes rest.ptr) with
      | none => _
      | some child => _ : ArtM ArtChildRef) m) = _
    cases m.findChild cur (bytes rest.ptr) with
    | none => exact outcome_addLeaf m cur site (bytes rest.ptr) rest
    | some child =>
      dsimp only
      rw [header_load]
      generalize hk : ArtTrie.commonLen ((m.edge child).read bytes) (rest.read bytes) = k
      have hle : k ≤ (m.edge child).len := by
        have hlen : ((m.edge child).read bytes).length = (m.edge child).len := View.length_read
        rw [← hk, ← hlen]
        exact commonLen_le _ _
      show outcome bytes ((if ArtTrie.commonLen ((m.edge child).read bytes) (rest.read bytes) =
        (m.edge child).len then _ else _ : ArtM ArtChildRef) m) = _
      rw [hk]
      split
      · next heq =>
        have hnil : ((m.edge child).read bytes).drop k = [] :=
          List.drop_eq_nil_of_le (by rw [View.length_read, heq])
        rw [hnil]
        rw [ih, View.read_drop]
      · next hne =>
        have hcons : ((m.edge child).read bytes).drop k =
            bytes ((m.edge child).ptr + k) :: (((m.edge child).drop k).drop 1).read bytes := by
          rw [← View.read_drop]
          exact View.read_cons (v := (m.edge child).drop k) (by
            show 0 < (m.edge child).len - k
            omega)
        rw [hcons]
        dsimp only
        rw [← hcons, ← View.read_drop, ← View.read_take]
        apply outcome_bind (outcome_splitEdge m child site _ _ _)
        intro ref m'
        rw [ih, View.read_drop]

theorem load_setTerminal (bytes : Bytes) (m : ArtMem) (ref : ArtChildRef) (slot : MethodSlot)
    (routeIdx : UInt16) :
    (m.setTerminal ref slot routeIdx).load bytes =
      (m.load bytes).setTerminal ref slot routeIdx := by
  unfold setTerminal ArtTrie.setTerminal
  rw [header_load]
  dsimp only
  split
  · rw [load_setHeader]
  · rfl

end ArtMem

/-- The canonical path is a view of the path. -/
theorem read_finalizeView (bytes : Bytes) (path : View) :
    (finalizeView bytes path).read bytes = finalizePathCanonical (path.read bytes) := by
  have hdrop : ∀ l : Str, l.dropWhile (· = slash) = l.drop (l.takeWhile (· = slash)).length := by
    intro l
    induction l with
    | nil => rfl
    | cons b l ih =>
      by_cases hb : b = slash
      · simp [hb, ih]
      · simp [hb]
  have hlen : (path.drop ((path.read bytes).takeWhile (· = slash)).length).len =
      ((path.read bytes).dropWhile (· = slash)).length := by
    rw [hdrop, ← View.read_drop, View.length_read]
  rw [finalizeView, finalizePathCanonical, View.read_take, View.read_drop, ← hdrop, hlen]
  generalize (path.read bytes).dropWhile (· = slash) = p
  rw [List.rdropWhile, hdrop, List.reverse_drop, List.reverse_reverse, List.length_reverse]

namespace ArtMem

variable {bytes : Bytes} {m : ArtMem}

/-- An insertion into memory is the insertion into what is loaded, whether it succeeds or not. -/
theorem load_insert (bytes : Bytes) (m : ArtMem) (path : View) (methodChar : UInt8)
    (routeIdx : UInt16) :
    (m.insert bytes path methodChar routeIdx).map (fun r => (r.1.load bytes, r.2)) =
      (m.load bytes).insert (path.read bytes) methodChar routeIdx := by
  unfold insert ArtTrie.insert
  cases routeMethodSlot methodChar with
  | none => rfl
  | some slot =>
    have houtcome := outcome_insertLoop bytes (finalizeView bytes path).len m m.rootRef .root
      (finalizeView bytes path)
    dsimp only
    rw [← read_finalizeView, View.length_read]
    change _ = ArtTrie.insertLoop _ _ (m.load bytes).rootRef _ _ at houtcome
    rw [← houtcome]
    cases insertLoop bytes _ m.rootRef .root _ m with
    | ok cur m' =>
      show some ((m'.setTerminal cur slot routeIdx).load bytes, true) = _
      rw [load_setTerminal]
      rfl
    | error e m' =>
      cases e with
      | full =>
        show some ((m.rollback m').load bytes, false) = _
        rw [load_rollback]
        rfl
      | dangling => rfl
      | fuel => rfl

/-! ## Where the edges point -/

/-- No edge of a node in use points to `bound` or behind. -/
def Within (m : ArtMem) (bound : Nat) : Prop := ∀ ref s, m.node ref = some s → s.edge.Below bound

variable {bound : Nat}

/-- So what is written there later does not change what is loaded. -/
theorem Within.load_congr (h : m.Within bound) {bytes' : Bytes}
    (hbytes : ∀ a < bound, bytes a = bytes' a) : m.load bytes = m.load bytes' := by
  have hpool : ∀ {ν ν' : Type} {pool : Arena (Stored ν)} {f g : Stored ν → ν'},
      (∀ i s, pool.get? i = some s → f s = g s) → pool.live.map f = pool.live.map g := by
    intro ν ν' pool f g hsame
    apply List.map_congr_left
    intro s hs
    obtain ⟨i, hi⟩ := List.mem_iff_getElem?.mp hs
    exact hsame i s (get?_eq.trans hi)
  unfold load
  congr 1
  · apply hpool
    intro i s hs
    have hedge := (h ⟨.n4, i⟩ ⟨.n4 s.node, s.edge⟩ (by rw [node, hs]; rfl)).read_congr hbytes
    exact congrArg (fun e => { s.node with hdr := { s.node.hdr with edge := e } }) hedge
  · apply hpool
    intro i s hs
    have hedge := (h ⟨.n16, i⟩ ⟨.n16 s.node, s.edge⟩ (by rw [node, hs]; rfl)).read_congr hbytes
    exact congrArg (fun e => { s.node with hdr := { s.node.hdr with edge := e } }) hedge
  · apply hpool
    intro i s hs
    have hedge := (h ⟨.n48, i⟩ ⟨.n48 s.node, s.edge⟩ (by rw [node, hs]; rfl)).read_congr hbytes
    exact congrArg (fun e => { s.node with hdr := { s.node.hdr with edge := e } }) hedge
  · apply hpool
    intro i s hs
    have hedge := (h ⟨.n256, i⟩ ⟨.n256 s.node, s.edge⟩ (by rw [node, hs]; rfl)).read_congr hbytes
    exact congrArg (fun e => { s.node with hdr := { s.node.hdr with edge := e } }) hedge

theorem within_clear (m : ArtMem) (bound : Nat) : m.clear.Within bound := by
  have hnone : ∀ {ν : Type} {pool : Arena (Stored ν)} {i : Nat},
      get? { pool with used := 0 } i = none := fun {_ _ _} => if_neg (Nat.not_lt_zero _)
  have hroot : ∀ {i : Nat} {s : Stored ArtNode4},
      (push { m.n4Pool with used := 0 } ⟨{}, {}⟩).get? i = some s → s.edge = {} := by
    intro i s hs
    rw [get?_eq, live_push] at hs
    exact congrArg Stored.edge (List.mem_singleton.mp (List.mem_of_getElem? hs))
  rintro ⟨type, i⟩ s hs
  suffices hedge : s.edge = {} by
    rw [hedge]
    exact View.below_empty bound
  cases type <;> simp only [node, clear, map_eq_some_iff, hnone] at hs
  · obtain ⟨x, hx, rfl⟩ := hs
    exact hroot hx
  all_goals
    obtain ⟨x, hx, -⟩ := hs
    cases hx

theorem Within.mono {bound' : Nat} (h : m.Within bound) (hle : bound ≤ bound') : m.Within bound' :=
  fun ref s hs => (h ref s hs).mono hle

/-- A write changes one node at most. -/
theorem node_write {i : Nat} {s s' : Stored ArtNode} {ref : ArtChildRef}
    (h : (m.write i s).node ref = some s') : s' = s ∨ m.node ref = some s' := by
  have hset : ∀ {ν : Type} {pool : Arena (Stored ν)} {x y : Stored ν} {j : Nat},
      (pool.set i x).get? j = some y → y = x ∨ pool.get? j = some y := by
    intro ν pool x y j hy
    rw [get?_eq, live_set, List.getElem?_set] at hy
    split at hy
    · split at hy
      · exact .inl (Option.some.inj hy).symm
      · cases hy
    · exact .inr (get?_eq.trans hy)
  obtain ⟨n, e⟩ := s
  obtain ⟨type, idx⟩ := ref
  cases n <;> cases type <;> simp only [write, node, map_eq_some_iff] at h ⊢ <;>
    first
    | exact .inr h
    | (obtain ⟨y, hy, rfl⟩ := h
       obtain rfl | hy := hset hy
       · exact .inl rfl
       · exact .inr ⟨y, hy, rfl⟩)

theorem Within.write (h : m.Within bound) (i : Nat) {s : Stored ArtNode} (hs : s.edge.Below bound) :
    (m.write i s).Within bound := by
  intro ref s' hs'
  obtain rfl | hs' := node_write hs'
  · exact hs
  · exact h ref s' hs'

theorem Within.setHeader (h : m.Within bound) (ref : ArtChildRef) {edge : View}
    (hedge : edge.Below bound) (terminals : Vector UInt16 kMethodSlots) :
    (m.setHeader ref edge terminals).Within bound := by
  unfold ArtMem.setHeader
  split
  · exact h.write _ hedge
  · exact h

theorem Within.patch (h : m.Within bound) (site : ArtTrie.PatchSite) (ref : ArtChildRef) :
    (m.patch site ref).Within bound := by
  unfold ArtMem.patch
  split
  · exact h
  · next parent b =>
    split
    · next s hs => exact h.write _ (h parent s hs)
    · exact h

theorem Within.repatch (h : m.Within bound) (old : ArtChildRef) (site : ArtTrie.PatchSite)
    (ref : ArtChildRef) : (m.repatch old site ref).Within bound := by
  unfold ArtMem.repatch
  split
  · exact h.patch site ref
  · exact h

theorem Within.edge (h : m.Within bound) (ref : ArtChildRef) : (m.edge ref).Below bound := by
  unfold ArtMem.edge
  cases hs : m.node ref with
  | none => exact View.below_empty bound
  | some s => exact h ref s hs

/-- A step that succeeds keeps the edges below the bound. -/
def Confined {α : Type} (bound : Nat) (x : ArtM α) : Prop :=
  ∀ m a m', m.Within bound → x m = .ok a m' → m'.Within bound

/-- Confinement composes. -/
theorem Confined.bind {α β : Type} {x : ArtM α} {f : α → ArtM β} (hx : Confined bound x)
    (hf : ∀ a, Confined bound (f a)) : Confined bound (x >>= f) := by
  intro m b m' h hrun
  change EStateM.bind x f m = _ at hrun
  unfold EStateM.bind at hrun
  split at hrun
  · next a m₁ hm₁ => exact hf a m₁ b m' (hx m a m₁ h hm₁) hrun
  · cases hrun

theorem confined_pure {α : Type} (a : α) : Confined bound (pure a : ArtM α) := by
  intro m b m' h hrun
  cases hrun
  exact h

theorem confined_throw {α : Type} (e : ArtFault) : Confined bound (throw e : ArtM α) := by
  intro m b m' _ hrun
  cases hrun

theorem confined_modify {f : ArtMem → ArtMem} (hf : ∀ m, m.Within bound → (f m).Within bound) :
    Confined bound (modify f : ArtM PUnit) := by
  intro m b m' h hrun
  cases hrun
  exact hf m h

/-- What is read from memory may be used in the argument. -/
theorem Confined.get_bind {α : Type} {f : ArtMem → ArtM α}
    (hf : ∀ m a m', m.Within bound → f m m = .ok a m' → m'.Within bound) :
    Confined bound (get >>= f : ArtM α) :=
  fun m a m' h hrun => hf m a m' h hrun

theorem confined_alloc (type : ArtNodeType) : Confined bound (alloc type) := by
  have hpush : ∀ {ν : Type} {pool : Arena (Stored ν)} {x y : Stored ν} {j : Nat},
      (pool.push x).get? j = some y → y = x ∨ pool.get? j = some y := by
    intro ν pool x y j hy
    rw [get?_eq, live_push, List.getElem?_append] at hy
    split at hy
    · exact .inr (get?_eq.trans hy)
    · exact .inl (List.mem_singleton.mp (List.mem_of_getElem? hy))
  intro m ref m' h hrun
  unfold alloc at hrun
  split at hrun
  · cases hrun
  cases hrun
  intro ref s hs
  by_cases hold : m.node ref = some s
  · exact h ref s hold
  -- A node that was not there is the new one, whose edge is empty.
  suffices hedge : s.edge = {} by
    rw [hedge]
    exact View.below_empty bound
  obtain ⟨type', idx⟩ := ref
  cases type <;> cases type' <;> simp only [node, map_eq_some_iff] at hs hold <;>
    first
    | exact absurd hs hold
    | (obtain ⟨y, hy, rfl⟩ := hs
       obtain rfl | hy := hpush hy
       · rfl
       · exact absurd ⟨y, hy, rfl⟩ hold)

theorem confined_promote (type : ArtNodeType) (n : ArtNode) {e : View} (he : e.Below bound) :
    Confined bound (promote type ⟨n, e⟩) := by
  apply (confined_alloc type).bind
  intro ref
  apply (confined_modify fun m h => h.write ref.idx (s := ⟨n, e⟩) he).bind
  exact fun _ => confined_pure ref

theorem confined_addChild (parent : ArtChildRef) (b : UInt8) (child : ArtChildRef) :
    Confined bound (addChild parent b child) := by
  have hplace : ∀ (n : ArtNode) (e : View), e.Below bound →
      Confined bound (do modify (·.write parent.idx ⟨n, e⟩); return parent : ArtM ArtChildRef) := by
    intro n e he
    apply (confined_modify fun m h => h.write parent.idx (s := ⟨n, e⟩) he).bind
    exact fun _ => confined_pure parent
  apply Confined.get_bind
  intro m ref m' h hrun
  cases hs : m.node parent with
  | none =>
    rw [hs] at hrun
    exact confined_throw .dangling m ref m' h hrun
  | some s =>
    have hedge := h parent s hs
    rw [hs] at hrun
    obtain ⟨n, e⟩ := s
    cases n with
    | n4 n =>
      dsimp only at hrun
      split at hrun
      · exact hplace _ e hedge m ref m' h hrun
      · exact confined_promote .n16 _ hedge m ref m' h hrun
    | n16 n =>
      dsimp only at hrun
      split at hrun
      · exact hplace _ e hedge m ref m' h hrun
      · exact confined_promote .n48 _ hedge m ref m' h hrun
    | n48 n =>
      dsimp only at hrun
      split at hrun
      · exact hplace _ e hedge m ref m' h hrun
      · exact confined_promote .n256 _ hedge m ref m' h hrun
    | n256 n => exact hplace _ e hedge m ref m' h hrun

theorem confined_addLeaf (cur : ArtChildRef) (site : ArtTrie.PatchSite) (b : UInt8) {rest : View}
    (hrest : rest.Below bound) : Confined bound (addLeaf cur site b rest) := by
  apply (confined_alloc .n4).bind
  intro leaf
  apply (confined_modify fun m h => h.setHeader leaf hrest _).bind
  intro _
  apply (confined_addChild cur b leaf).bind
  intro newParent
  exact (confined_modify fun m h => h.repatch cur site newParent).bind fun _ => confined_pure leaf

theorem confined_addChildren (tail : ArtChildRef) (entries : List (UInt8 × ArtChildRef)) :
    Confined bound (addChildren tail entries) := by
  induction entries generalizing tail with
  | nil => exact confined_pure tail
  | cons kc entries ih => exact (confined_addChild tail kc.1 kc.2).bind fun tail' => ih tail'

theorem confined_splitEdge (child : ArtChildRef) (site : ArtTrie.PatchSite) {shared : View} (d : UInt8)
    {rest : View} (hshared : shared.Below bound) (hrest : rest.Below bound) :
    Confined bound (splitEdge child site shared d rest) := by
  apply (confined_alloc .n4).bind
  intro tail
  apply (confined_modify fun m h => h.setHeader tail hrest _).bind
  intro _
  apply Confined.get_bind
  intro m ref m' h hrun
  cases hs : m.node child with
  | none =>
    rw [hs] at hrun
    exact confined_throw .dangling m ref m' h hrun
  | some s =>
    rw [hs] at hrun
    refine Confined.bind (confined_addChildren tail s.node.entries) ?_ m ref m' h hrun
    intro tailRef
    apply (confined_modify fun m h => h.write child.idx hshared).bind
    intro _
    apply (confined_addChild child d tailRef).bind
    intro newChildRef
    exact (confined_modify fun m h => h.repatch child site newChildRef).bind
      fun _ => confined_pure newChildRef

/-- The descent stores no edge above the bound. -/
theorem confined_insertLoop (bytes : Bytes) (fuel : Nat) (cur : ArtChildRef) (site : ArtTrie.PatchSite)
    {rest : View} (hrest : rest.Below bound) : Confined bound (insertLoop bytes fuel cur site rest) := by
  induction fuel generalizing cur site rest with
  | zero =>
    unfold insertLoop
    split
    · exact confined_pure cur
    · exact confined_throw .fuel
  | succ fuel ih =>
    unfold insertLoop
    split
    · exact confined_pure cur
    apply Confined.get_bind
    intro m ref m' h hrun
    cases hchild : m.findChild cur (bytes rest.ptr) with
    | none =>
      rw [hchild] at hrun
      exact confined_addLeaf cur site _ hrest m ref m' h hrun
    | some child =>
      rw [hchild] at hrun
      change (if _ then _ else _ : ArtM ArtChildRef) m = _ at hrun
      split at hrun
      · exact ih child (.slot cur _) (hrest.drop _) m ref m' h hrun
      · refine Confined.bind (confined_splitEdge child site _ ((h.edge child).take _)
          ((h.edge child).drop _)) ?_ m ref m' h hrun
        exact fun newRef => ih newRef site (hrest.drop _)

/-- An insertion that fails leaves no pointer into the path it was given. -/
theorem Within.insert (h : m.Within bound) (bytes : Bytes) {path : View} {methodChar : UInt8}
    {routeIdx : UInt16} {m' : ArtMem} {ok : Bool}
    (hinsert : m.insert bytes path methodChar routeIdx = some (m', ok))
    (hpath : ok = true → path.Below bound) : m'.Within bound := by
  unfold ArtMem.insert at hinsert
  split at hinsert
  · cases hinsert
    exact h
  next slot _ =>
  dsimp only at hinsert
  split at hinsert
  · next cur m₁ hloop =>
    cases hinsert
    have h₁ := confined_insertLoop bytes _ _ _ (((hpath rfl).drop _).take _) m cur m₁ h hloop
    unfold setTerminal
    split
    · exact h₁.setHeader cur (h₁.edge cur) _
    · exact h₁
  · next m₁ _ =>
    cases hinsert
    have hrestore : ∀ {ν : Type} {saved pool : Arena (Stored ν)} {j : Nat},
        (restore saved pool).get? j = saved.get? j := by
      intro ν saved pool j
      rw [get?_eq, live_restore, get?_eq]
    intro ref s hs
    apply h ref s
    simpa only [node, rollback, hrestore] using hs
  · cases hinsert

/-! ## What can be seen of a trie -/

/-- A call of `insert`. -/
structure Call where
  path : View
  methodChar : UInt8
  routeIdx : UInt16

/-- A sequence of calls, failing ones among them. -/
def insertAll (bytes : Bytes) (m : ArtMem) (calls : List Call) : Option ArtMem :=
  calls.foldlM (fun m c => (m.insert bytes c.path c.methodChar c.routeIdx).map (·.1)) m

inductive Op where
  | insert (c : Call)
  | lookup (path : Str) (methodKey : UInt8)

/-- What a call shows to the outside. -/
inductive Seen where
  /-- whether the insertion has succeeded, and what it has left: the number of nodes in each pool and
  the flag -/
  | inserted (ok : Bool) (nodes : ArtNodeType → Nat) (isUniformN4 : Bool)
  | found (routeIdx : Option UInt16)

/-- A sequence of calls, with what each of them shows. -/
def observe (bytes : Bytes) : ArtMem → List Op → List Seen
  | _, [] => []
  | m, .insert c :: ops =>
    match m.insert bytes c.path c.methodChar c.routeIdx with
    | none => []
    | some (m', ok) => .inserted ok m'.poolLen m'.isUniformN4 :: observe bytes m' ops
  | m, .lookup path methodKey :: ops =>
    .found (m.matchCanonicalKey bytes path methodKey) :: observe bytes m ops

theorem poolLen_congr {m m' : ArtMem} (h : m.load bytes = m'.load bytes) : m.poolLen = m'.poolLen := by
  funext type
  rw [← poolLen_load bytes, h, poolLen_load]

/-- All of this depends on what is loaded only. -/
theorem observe_congr {m m' : ArtMem} (h : m.load bytes = m'.load bytes) (ops : List Op) :
    m.observe bytes ops = m'.observe bytes ops := by
  induction ops generalizing m m' with
  | nil => rfl
  | cons op ops ih =>
    cases op with
    | lookup path methodKey =>
      rw [observe, observe, matchCanonicalKey, matchCanonicalKey, h, ih h]
    | insert c =>
      have hinsert := load_insert bytes m c.path c.methodChar c.routeIdx
      rw [h, ← load_insert] at hinsert
      rw [observe, observe]
      cases hm : m.insert bytes c.path c.methodChar c.routeIdx with
      | none =>
        rw [hm, map_none, eq_comm, map_eq_none_iff] at hinsert
        rw [hinsert]
      | some r =>
        rw [hm, map_some, eq_comm, map_eq_some_iff] at hinsert
        obtain ⟨r', hr', heq⟩ := hinsert
        obtain ⟨hload, hok⟩ := Prod.mk.inj heq
        rw [hr']
        obtain ⟨n, ok⟩ := r
        obtain ⟨n', ok'⟩ := r'
        subst hok
        dsimp only at hload ⊢
        have hflag : n'.isUniformN4 = n.isUniformN4 := congrArg ArtTrie.isUniformN4 hload
        rw [poolLen_congr hload, hflag, ih hload.symm]

/-- The insertion returns. -/
theorem insert_returns (hI : ArtTrie.Inv (m.load bytes)) (c : Call) :
    ∃ m' ok, m.insert bytes c.path c.methodChar c.routeIdx = some (m', ok) ∧
      ArtTrie.Inv (m'.load bytes) ∧ (ok = false → m'.load bytes = m.load bytes) := by
  have hinsert := load_insert bytes m c.path c.methodChar c.routeIdx
  obtain hf | ⟨t', slot, hok, -, hins⟩ :=
    ArtTrie.insert_spec hI (c.path.read bytes) c.methodChar c.routeIdx
  · rw [hf] at hinsert
    obtain ⟨⟨m', ok⟩, hm, heq⟩ := map_eq_some_iff.mp hinsert
    obtain ⟨hload, rfl⟩ := Prod.mk.inj heq
    exact ⟨m', false, hm, hload ▸ hI, fun _ => hload⟩
  · rw [hok] at hinsert
    obtain ⟨⟨m', ok⟩, hm, heq⟩ := map_eq_some_iff.mp hinsert
    obtain ⟨hload, rfl⟩ := Prod.mk.inj heq
    exact ⟨m', true, hm, hload ▸ hins.inv, nofun⟩

/-- A sequence of insertions returns. -/
theorem insertAll_returns (hI : ArtTrie.Inv (m.load bytes)) (calls : List Call) :
    ∃ m', m.insertAll bytes calls = some m' ∧ ArtTrie.Inv (m'.load bytes) := by
  induction calls generalizing m with
  | nil => exact ⟨m, rfl, hI⟩
  | cons c calls ih =>
    obtain ⟨m', ok, hm, hI', -⟩ := insert_returns hI c
    obtain ⟨m'', hrun, hI''⟩ := ih hI'
    refine ⟨m'', ?_, hI''⟩
    rw [insertAll, List.foldlM_cons, hm]
    exact hrun

/-- For every trie that insertions into a cleared one lead to, and every insertion that reports
failure: the pools and the flag are as before, and no sequence of later calls can tell that it was
made. -/
theorem observe_of_insert_false (bytes : Bytes) (array : ArtMem) (calls : List Call) (c : Call) :
    ∃ m m' ok, (array.clear).insertAll bytes calls = some m ∧
      m.insert bytes c.path c.methodChar c.routeIdx = some (m', ok) ∧
      (ok = false → m'.poolLen = m.poolLen ∧ m'.isUniformN4 = m.isUniformN4 ∧
        ∀ ops, m'.observe bytes ops = m.observe bytes ops) := by
  obtain ⟨m, hrun, hI⟩ := insertAll_returns (load_clear bytes array ▸ ArtTrie.clear_inv) calls
  obtain ⟨m', ok, hm, -, hfail⟩ := insert_returns hI c
  refine ⟨m, m', ok, hrun, hm, fun hok => ?_⟩
  have hload := hfail hok
  exact ⟨poolLen_congr hload, congrArg ArtTrie.isUniformN4 hload, observe_congr hload⟩

/-- The trie in the pools refines the trie of strings: after every sequence of calls, failed and
rolled back ones among them, it loads to the trie the calls on the strings build. -/
theorem load_insertAll (bytes : Bytes) (array : ArtMem) (calls : List Call) :
    ∃ m es, array.clear.insertAll bytes calls = some m ∧
      ArtTrie.insertAll (calls.map fun c => ⟨c.path.read bytes, c.methodChar, c.routeIdx⟩) =
        some (m.load bytes, es) := by
  have hI := ArtTrie.clear_inv
  rw [ArtTrie.insertAll]
  rw [← load_clear bytes array] at hI ⊢
  generalize array.clear = m, ([] : List ArtEntry) = es at hI ⊢
  induction calls generalizing m es with
  | nil => exact ⟨m, es, rfl, rfl⟩
  | cons c calls ih =>
    obtain ⟨m', ok, hm, hI', -⟩ := insert_returns hI c
    have hload := load_insert bytes m c.path c.methodChar c.routeIdx
    rw [hm, map_some] at hload
    obtain ⟨es', hstep⟩ : ∃ es', ArtTrie.insertStep (m.load bytes, es)
        ⟨c.path.read bytes, c.methodChar, c.routeIdx⟩ = some (m'.load bytes, es') := by
      unfold ArtTrie.insertStep
      rw [← hload]
      cases ok with
      | false => exact ⟨es, rfl⟩
      | true => cases routeMethodSlot c.methodChar <;> exact ⟨_, rfl⟩
    rw [insertAll, List.foldlM_cons, hm, List.map_cons, List.foldlM_cons, hstep]
    exact ih m' es' hI'

end ArtMem

end Rut
