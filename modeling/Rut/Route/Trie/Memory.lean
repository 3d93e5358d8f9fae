import Rut.Lib.Arena
import Rut.Route.Trie.Basic

/-!
# The segment trie in memory

The pool of `route_trie.h` as an array of which a prefix is in use, the children of a node as another
such array inside the node, and segments as pointers into the path that was inserted. An insertion
that finds a capacity exhausted has pushed nodes and children by then, and takes them back one by one:
`rollback` pops a child off every parent that got one, the last first, and cuts the pool at its old
length. `load_insert` says that what a lookup then finds is what it found before.
-/

namespace Rut

open Lib

/-- `TrieNode` as it is stored. -/
structure TrieCell where
  segment : View := {}
  children : Arena Nat := .empty 0
  routeIdxByMethod : Vector UInt16 kMethodSlots := Vector.replicate _ kInvalidRoute

structure TrieMem where
  nodes : Arena TrieCell

def TrieCell.resolve (bytes : Nat → UInt8) (c : TrieCell) : TrieNode :=
  ⟨c.segment.read bytes, c.children.live, c.routeIdxByMethod⟩

/-- The loop of `tokenize_segments` over the `n` bytes from `i` on; `start` is where the segment
begins. -/
def tokenizeViewsLoop (bytes : Nat → UInt8) : Nat → Nat → Nat → List View → List View × Nat
  | 0, i, start, out =>
    if i ≤ start then (out, out.length)
    else if out.length < kMaxPathSegments then (out ++ [⟨start, i - start⟩], out.length + 1)
    else (out, kMaxPathSegments + 1)
  | n + 1, i, start, out =>
    if bytes i = slash then
      if i ≤ start then tokenizeViewsLoop bytes n (i + 1) (i + 1) out
      else if out.length < kMaxPathSegments then
        tokenizeViewsLoop bytes n (i + 1) (i + 1) (out ++ [⟨start, i - start⟩])
      else (out, kMaxPathSegments + 1)
    else tokenizeViewsLoop bytes n (i + 1) start out

def tokenizeViews (bytes : Nat → UInt8) (path : View) : List View × Nat :=
  tokenizeViewsLoop bytes path.len path.ptr path.ptr []

namespace TrieMem

def load (bytes : Nat → UInt8) (m : TrieMem) : RouteTrie := ⟨m.nodes.live.map (·.resolve bytes)⟩

def clear (m : TrieMem) : TrieMem := ⟨{ m.nodes with used := 0 }.push {}⟩

def node (m : TrieMem) (i : Nat) : TrieCell := (m.nodes.get? i).getD {}

def setNode (m : TrieMem) (i : Nat) (c : TrieCell) : TrieMem := ⟨m.nodes.set i c⟩

def findChild (bytes : Nat → UInt8) (m : TrieMem) (parent : Nat) (segment : Str) : Option Nat :=
  if segment = [] then none
  else (m.node parent).children.live.find? fun c => (m.node c).segment.read bytes = segment

def appendChild (m : TrieMem) (cur : Nat) (segment : View) : TrieMem :=
  let child := m.nodes.used
  let m : TrieMem := ⟨m.nodes.push { segment }⟩
  m.setNode cur { m.node cur with children := (m.node cur).children.push child }

def popChild (m : TrieMem) (parent : Nat) : TrieMem :=
  let c := m.nodes.cells parent
  m.setNode parent { c with children := c.children.pop }

/-- The lambda `rollback`: `pushedParents` has the last parent first. -/
def rollback (m : TrieMem) (pushedParents : List Nat) (savedNodesLen : Nat) : TrieMem :=
  ⟨{ (pushedParents.foldl popChild m).nodes with used := savedNodesLen }⟩

/-- The loop of `insert`; no node is a failed capacity check. Of the pushes behind that check none can
fail: it has looked at both capacities, and a path has no more segments than `pushed_parents` can
hold. -/
def insertLoop (bytes : Nat → UInt8) (m : TrieMem) (cur : Nat) (pushedParents : List Nat) :
    List View → TrieMem × List Nat × Option Nat
  | [] => (m, pushedParents, some cur)
  | s :: segs =>
    match m.findChild bytes cur (s.read bytes) with
    | some child => insertLoop bytes m child pushedParents segs
    | none =>
      if m.nodes.used ≥ RouteTrie.kMaxNodes ∨
          (m.node cur).children.used ≥ TrieNode.kMaxChildren then (m, pushedParents, none)
      else insertLoop bytes (m.appendChild cur s) m.nodes.used (cur :: pushedParents) segs

def setTerminal (m : TrieMem) (i : Nat) (slot : MethodSlot) (routeIdx : UInt16) : TrieMem :=
  let c := m.node i
  if getElem c.routeIdxByMethod slot slot.isLt = kInvalidRoute then
    m.setNode i { c with routeIdxByMethod := c.routeIdxByMethod.set slot routeIdx slot.isLt }
  else m

def insert (bytes : Nat → UInt8) (m : TrieMem) (path : View) (methodChar : UInt8)
    (routeIdx : UInt16) : TrieMem × Bool :=
  match routeMethodSlot methodChar with
  | none => (m, false)
  | some slot =>
    let (segs, n) := tokenizeViews bytes path
    if n > kMaxPathSegments then (m, false)
    else
      match m.insertLoop bytes 0 [] segs with
      | (m', pushedParents, none) => (m'.rollback pushedParents m.nodes.used, false)
      | (m', _, some cur) => (m'.setTerminal cur slot routeIdx, true)

/-! ## What is loaded -/

variable {bytes : Nat → UInt8} {m m' : TrieMem}

theorem load_clear (bytes : Nat → UInt8) (m : TrieMem) : m.clear.load bytes = RouteTrie.clear := by
  rfl

/-- A node is loaded with its segment read. -/
theorem node_load (bytes : Nat → UInt8) (m : TrieMem) (i : Nat) :
    (m.load bytes).node i = (m.node i).resolve bytes := by
  rw [RouteTrie.node, node, load, Arena.get?_eq, List.getD_eq_getElem?_getD, List.getElem?_map]
  cases m.nodes.live[i]? <;> rfl

theorem length_load (bytes : Nat → UInt8) (m : TrieMem) :
    (m.load bytes).nodes.length = m.nodes.used := by
  simp [load]

theorem load_setNode (bytes : Nat → UInt8) (m : TrieMem) (i : Nat) (c : TrieCell) :
    (m.setNode i c).load bytes = (m.load bytes).setNode i (c.resolve bytes) := by
  rw [load, setNode, RouteTrie.setNode, load, Arena.live_set, List.map_set]

theorem findChild_load (bytes : Nat → UInt8) (m : TrieMem) (parent : Nat) (segment : Str) :
    (m.load bytes).findChild parent segment = m.findChild bytes parent segment := by
  unfold RouteTrie.findChild findChild
  simp only [node_load]
  rfl

theorem load_appendChild (bytes : Nat → UInt8) (m : TrieMem) (cur : Nat) (segment : View) :
    (m.appendChild cur segment).load bytes =
      (m.load bytes).appendChild cur (segment.read bytes) := by
  have hpush : load bytes ⟨m.nodes.push { segment }⟩ =
      ⟨(m.load bytes).nodes ++ [{ segment := segment.read bytes }]⟩ := by
    rw [load, Arena.live_push, List.map_append]
    rfl
  unfold appendChild RouteTrie.appendChild
  dsimp only
  rw [load_setNode, hpush, ← hpush, node_load, length_load]
  congr 1
  simp only [TrieCell.resolve, Arena.live_push]

theorem load_setTerminal (bytes : Nat → UInt8) (m : TrieMem) (i : Nat) (slot : MethodSlot)
    (routeIdx : UInt16) :
    (m.setTerminal i slot routeIdx).load bytes = (m.load bytes).setTerminal i slot routeIdx := by
  unfold setTerminal RouteTrie.setTerminal
  rw [node_load]
  by_cases hfirst : (m.node i).routeIdxByMethod[slot] = kInvalidRoute
  · rw [if_pos hfirst, if_pos (show ((m.node i).resolve bytes).routeIdxByMethod[slot] = _ from hfirst),
      load_setNode]
    rfl
  · rw [if_neg hfirst, if_neg (show ¬ ((m.node i).resolve bytes).routeIdxByMethod[slot] = _ from hfirst)]

/-! ## Taking it back -/

/-- The two agree on the first `n` nodes. -/
def AgreeBelow (bytes : Nat → UInt8) (n : Nat) (m m' : TrieMem) : Prop :=
  ∀ i < n, (m.nodes.cells i).resolve bytes = (m'.nodes.cells i).resolve bytes

theorem cells_setNode_self (m : TrieMem) (i : Nat) (c : TrieCell) :
    (m.setNode i c).nodes.cells i = c :=
  Function.update_self ..

theorem cells_setNode_of_ne (m : TrieMem) {i j : Nat} (h : j ≠ i) (c : TrieCell) :
    (m.setNode i c).nodes.cells j = m.nodes.cells j :=
  Function.update_of_ne h ..

/-- What is read after a pop depends on what was read before it. -/
theorem resolve_pop (bytes : Nat → UInt8) (c : TrieCell) :
    ({ c with children := c.children.pop } : TrieCell).resolve bytes =
      { c.resolve bytes with children := (c.resolve bytes).children.dropLast } := by
  rw [TrieCell.resolve, Arena.live_pop]
  rfl

theorem AgreeBelow.popChild {n : Nat} (h : AgreeBelow bytes n m m') (parent : Nat) :
    AgreeBelow bytes n (m.popChild parent) (m'.popChild parent) := by
  intro i hi
  unfold TrieMem.popChild
  by_cases hip : i = parent
  · subst hip
    rw [cells_setNode_self, cells_setNode_self, resolve_pop, resolve_pop, h i hi]
  · rw [cells_setNode_of_ne _ hip, cells_setNode_of_ne _ hip]
    exact h i hi

theorem AgreeBelow.foldl_popChild {n : Nat} (h : AgreeBelow bytes n m m') (parents : List Nat) :
    AgreeBelow bytes n (parents.foldl TrieMem.popChild m) (parents.foldl TrieMem.popChild m') := by
  induction parents generalizing m m' with
  | nil => exact h
  | cons p parents ih => exact ih (h.popChild p)

/-- A child that is appended and popped again: only a node behind the others is new. -/
theorem agreeBelow_popChild_appendChild (bytes : Nat → UInt8) (m : TrieMem) (cur : Nat)
    (segment : View) : AgreeBelow bytes m.nodes.used ((m.appendChild cur segment).popChild cur) m := by
  intro i hi
  have hpushed : ∀ j < m.nodes.used, (m.nodes.push { segment }).cells j = m.nodes.cells j :=
    fun j hj => (Arena.extends_push m.nodes { segment }).keeps j hj
  unfold popChild appendChild
  by_cases hic : i = cur
  · subst hic
    have hnode : node ⟨m.nodes.push { segment }⟩ i = m.nodes.cells i := by
      show (if i < m.nodes.used + 1 then some ((m.nodes.push { segment }).cells i) else none).getD {} = _
      rw [if_pos (by omega), hpushed i hi]
      rfl
    rw [cells_setNode_self, resolve_pop, cells_setNode_self, hnode]
    simp only [TrieCell.resolve, Arena.live_push, List.dropLast_concat]
  · rw [cells_setNode_of_ne _ hic, cells_setNode_of_ne _ hic]
    exact congrArg _ (hpushed i hi)

/-- The loop, when it fails: popping the parents it has pushed brings the first `n` nodes back. -/
theorem insertLoop_undone {n : Nat} (segs : List View) {cur : Nat} {pushed pushed' : List Nat}
    (hn : n ≤ m.nodes.used)
    (hloop : m.insertLoop bytes cur pushed segs = (m', pushed', none)) :
    AgreeBelow bytes n (pushed'.foldl popChild m') (pushed.foldl popChild m) := by
  induction segs generalizing m cur pushed with
  | nil => exact absurd (congrArg (·.2.2) hloop) nofun
  | cons s segs ih =>
    unfold insertLoop at hloop
    split at hloop
    · exact ih hn hloop
    split at hloop
    · obtain ⟨rfl, hrest⟩ := Prod.mk.inj hloop
      obtain ⟨rfl, -⟩ := Prod.mk.inj hrest
      exact fun _ _ => rfl
    · have hused : n ≤ (m.appendChild cur s).nodes.used := Nat.le_succ_of_le hn
      have hrest := ih hused hloop
      have hfirst : AgreeBelow bytes n ((m.appendChild cur s).popChild cur) m := fun i hi =>
        agreeBelow_popChild_appendChild bytes m cur s i (Nat.lt_of_lt_of_le hi hn)
      intro i hi
      exact (hrest i hi).trans (hfirst.foldl_popChild pushed i hi)

/-- What was added is gone. -/
theorem load_rollback {pushed : List Nat}
    (h : AgreeBelow bytes m.nodes.used (pushed.foldl popChild m') m) :
    (m'.rollback pushed m.nodes.used).load bytes = m.load bytes := by
  unfold load rollback
  congr 1
  apply List.ext_getElem?
  intro i
  rw [List.getElem?_map, List.getElem?_map, Arena.getElem?_live, Arena.getElem?_live]
  split
  · next hi => exact congrArg some (h i hi)
  · rfl

/-- The loop, when it succeeds. -/
theorem load_insertLoop (segs : List View) (cur : Nat) (pushed : List Nat) :
    (m.load bytes).insertLoop cur (segs.map (·.read bytes)) =
      (m.insertLoop bytes cur pushed segs).2.2.map
        fun cur' => ((m.insertLoop bytes cur pushed segs).1.load bytes, cur') := by
  induction segs generalizing m cur pushed with
  | nil => rfl
  | cons s segs ih =>
    rw [List.map_cons, RouteTrie.insertLoop, insertLoop, findChild_load]
    cases m.findChild bytes cur (s.read bytes) with
    | some child => exact ih child pushed
    | none =>
      have hchildren : ((m.load bytes).node cur).children.length = (m.node cur).children.used := by
        rw [node_load]
        exact Arena.length_live
      dsimp only
      rw [length_load, hchildren, ← load_appendChild]
      split
      · rfl
      · exact ih _ _

/-! ## Segments -/

theorem read_tokenizeViewsLoop (n i start : Nat) (hstart : start ≤ i) (out : List View) :
    ((tokenizeViewsLoop bytes n i start out).1.map (·.read bytes),
        (tokenizeViewsLoop bytes n i start out).2) =
      tokenizeLoop (View.read bytes ⟨i, n⟩) (View.read bytes ⟨start, i - start⟩)
        (out.map (·.read bytes)) := by
  have hseg : ∀ {i start : Nat}, View.read bytes ⟨start, i - start⟩ = [] ↔ i ≤ start := by
    intro i start
    rw [← List.length_eq_zero_iff, View.length_read]
    exact Nat.sub_eq_zero_iff_le
  induction n generalizing i start out with
  | zero =>
    rw [View.read_eq_nil rfl, tokenizeLoop, tokenizeViewsLoop]
    simp only [hseg, List.length_map]
    split
    · rfl
    split
    · rw [List.map_append]
      rfl
    · rfl
  | succ n ih =>
    have hcons : View.read bytes ⟨i, n + 1⟩ = bytes i :: View.read bytes ⟨i + 1, n⟩ :=
      View.read_cons (Nat.succ_pos n)
    have hnil : View.read bytes ⟨i + 1, i + 1 - (i + 1)⟩ = [] := hseg.mpr (Nat.le_refl _)
    rw [hcons, tokenizeLoop, tokenizeViewsLoop]
    simp only [hseg, List.length_map]
    split
    · split
      · rw [ih (i + 1) (i + 1) (Nat.le_refl _), hnil]
      split
      · rw [ih (i + 1) (i + 1) (Nat.le_refl _), hnil, List.map_append]
        rfl
      · rfl
    · rw [ih (i + 1) start (by omega)]
      -- The segment that is being read gets the byte.
      have hgrow : View.read bytes ⟨start, i + 1 - start⟩ =
          View.read bytes ⟨start, i - start⟩ ++ [bytes i] := by
        have hlen : i + 1 - start = i - start + 1 := by omega
        rw [hlen]
        show Arena.slice _ _ _ = _
        rw [Arena.slice_succ]
        rw [Nat.add_sub_cancel' hstart]
        rfl
      rw [hgrow]

/-- The views are those of the segments. -/
theorem read_tokenizeViews (bytes : Nat → UInt8) (path : View) :
    ((tokenizeViews bytes path).1.map (·.read bytes), (tokenizeViews bytes path).2) =
      tokenizeSegments (path.read bytes) := by
  rw [tokenizeViews, read_tokenizeViewsLoop _ _ _ (Nat.le_refl _), tokenizeSegments]
  congr 1
  exact View.read_eq_nil (Nat.sub_self _)

/-- An insertion into memory is the insertion into what is loaded, whether it succeeds or not. -/
theorem load_insert (bytes : Nat → UInt8) (m : TrieMem) (path : View) (methodChar : UInt8)
    (routeIdx : UInt16) :
    ((m.insert bytes path methodChar routeIdx).1.load bytes,
        (m.insert bytes path methodChar routeIdx).2) =
      (m.load bytes).insert (path.read bytes) methodChar routeIdx := by
  unfold insert RouteTrie.insert
  cases routeMethodSlot methodChar with
  | none => rfl
  | some slot =>
    rw [← read_tokenizeViews]
    obtain ⟨segs, n⟩ := tokenizeViews bytes path
    dsimp only
    split
    · rfl
    rw [load_insertLoop segs 0 []]
    generalize hloop : m.insertLoop bytes 0 [] segs = out
    obtain ⟨m', pushed, found⟩ := out
    cases found with
    | none =>
      have hback := insertLoop_undone segs (Nat.le_refl _) hloop
      exact congrArg (·, false) (load_rollback hback)
    | some cur => exact congrArg (·, true) (load_setTerminal bytes m' cur slot routeIdx)

/-! ## Where the segments point -/

/-- No segment of a node in use points to `bound` or behind. -/
def Within (m : TrieMem) (bound : Nat) : Prop :=
  ∀ i < m.nodes.used, (m.nodes.cells i).segment.Below bound

variable {bound : Nat}

/-- So what is written there later does not change what is loaded. -/
theorem Within.load_congr (h : m.Within bound) {bytes' : Nat → UInt8}
    (hbytes : ∀ a < bound, bytes a = bytes' a) : m.load bytes = m.load bytes' := by
  unfold load
  congr 1
  apply List.map_congr_left
  intro c hc
  obtain ⟨i, hi⟩ := List.mem_iff_getElem?.mp hc
  rw [Arena.getElem?_live] at hi
  split at hi
  · next hlt =>
    obtain rfl := Option.some.inj hi
    rw [TrieCell.resolve, TrieCell.resolve, (h i hlt).read_congr hbytes]
  · cases hi

theorem Within.mono {bound' : Nat} (h : m.Within bound) (hle : bound ≤ bound') : m.Within bound' :=
  fun i hi => (h i hi).mono hle

theorem within_clear (m : TrieMem) (bound : Nat) : m.clear.Within bound := by
  intro i hi
  have hzero : i = 0 := Nat.lt_one_iff.mp hi
  have hroot : m.clear.nodes.cells 0 = {} := Function.update_self 0 _ m.nodes.cells
  rw [hzero, hroot]
  exact View.below_empty bound

/-- What is written over a node in use keeps its segment. -/
theorem segment_setNode {i : Nat} (c : TrieCell) (hc : c.segment = (m.node i).segment) {j : Nat}
    (hj : j < m.nodes.used) :
    ((m.setNode i c).nodes.cells j).segment = (m.nodes.cells j).segment := by
  by_cases hji : j = i
  · subst hji
    rw [cells_setNode_self, hc, node, Arena.get?, if_pos hj]
    rfl
  · rw [cells_setNode_of_ne _ hji]

theorem segment_appendChild (cur : Nat) (segment : View) {j : Nat} (hj : j < m.nodes.used + 1) :
    ((m.appendChild cur segment).nodes.cells j).segment =
      if j < m.nodes.used then (m.nodes.cells j).segment else segment := by
  have hcell : ((m.nodes.push { segment }).cells j).segment =
      if j < m.nodes.used then (m.nodes.cells j).segment else segment := by
    split
    · next hlt => rw [(Arena.extends_push m.nodes { segment }).keeps j hlt]
    · next hge =>
      have hlast : j = m.nodes.used := by omega
      rw [hlast]
      exact congrArg TrieCell.segment (Function.update_self m.nodes.used _ m.nodes.cells)
  rw [← hcell]
  exact segment_setNode (m := ⟨m.nodes.push { segment }⟩) _ (by rfl) hj

/-- The loop leaves the segments alone that were there. -/
theorem segment_insertLoop (bytes : Nat → UInt8) (m : TrieMem) (segs : List View) (cur : Nat)
    (pushed : List Nat) :
    m.nodes.used ≤ (m.insertLoop bytes cur pushed segs).1.nodes.used ∧
      ∀ j < m.nodes.used, ((m.insertLoop bytes cur pushed segs).1.nodes.cells j).segment =
        (m.nodes.cells j).segment := by
  induction segs generalizing m cur pushed with
  | nil => exact ⟨Nat.le_refl _, fun _ _ => rfl⟩
  | cons s segs ih =>
    unfold insertLoop
    split
    · exact ih _ _ _
    split
    · exact ⟨Nat.le_refl _, fun _ _ => rfl⟩
    · have hused : (m.appendChild cur s).nodes.used = m.nodes.used + 1 := rfl
      obtain ⟨hle, hkeep⟩ := ih (m.appendChild cur s) m.nodes.used (cur :: pushed)
      refine ⟨by omega, fun j hj => ?_⟩
      rw [hkeep j (by omega), segment_appendChild cur s (by omega), if_pos hj]

theorem Within.insertLoop (h : m.Within bound) (segs : List View) (hsegs : ∀ s ∈ segs, s.Below bound)
    (bytes : Nat → UInt8) (cur : Nat) (pushed : List Nat) : (m.insertLoop bytes cur pushed segs).1.Within bound := by
  induction segs generalizing m cur pushed with
  | nil => exact h
  | cons s segs ih =>
    have hrest : ∀ s ∈ segs, s.Below bound := fun s hs => hsegs s (List.mem_cons_of_mem _ hs)
    unfold TrieMem.insertLoop
    split
    · exact ih h hrest _ _
    split
    · exact h
    · apply ih _ hrest
      intro j hj
      rw [segment_appendChild cur s hj]
      split
      · next hlt => exact h j hlt
      · exact hsegs s (List.mem_cons_self ..)

theorem segment_foldl_popChild (parents : List Nat) (j : Nat) :
    ((parents.foldl popChild m).nodes.cells j).segment = (m.nodes.cells j).segment := by
  induction parents generalizing m with
  | nil => rfl
  | cons p parents ih =>
    rw [List.foldl_cons, ih, popChild]
    by_cases hjp : j = p
    · subst hjp
      rw [cells_setNode_self]
    · rw [cells_setNode_of_ne _ hjp]

/-- The segments of a path lie in the path. -/
theorem below_tokenizeViewsLoop {n i start : Nat} {out : List View} (hend : i + n ≤ bound)
    (hout : ∀ s ∈ out, s.Below bound) :
    ∀ s ∈ (tokenizeViewsLoop bytes n i start out).1, s.Below bound := by
  have hseg : ∀ {i start : Nat} {out : List View}, i ≤ bound → (∀ s ∈ out, s.Below bound) →
      ∀ s ∈ out ++ [⟨start, i - start⟩], s.Below bound := by
    intro i start out hi hout s hs
    obtain hs | hs := List.mem_append.mp hs
    · exact hout s hs
    · rw [List.mem_singleton.mp hs]
      intro k hk
      have hk : k < i - start := hk
      show start + k < bound
      omega
  induction n generalizing i start out with
  | zero =>
    unfold tokenizeViewsLoop
    split
    · exact hout
    split
    · exact hseg hend hout
    · exact hout
  | succ n ih =>
    have hnext : i + 1 + n ≤ bound := by omega
    unfold tokenizeViewsLoop
    split
    · split
      · exact ih hnext hout
      split
      · exact ih hnext (hseg (by omega) hout)
      · exact hout
    · exact ih hnext hout

/-- An insertion that fails leaves no pointer into the path it was given. -/
theorem Within.insert (h : m.Within bound) {path : View} {methodChar : UInt8} {routeIdx : UInt16}
    (hpath : (m.insert bytes path methodChar routeIdx).2 = true → path.ptr + path.len ≤ bound) :
    (m.insert bytes path methodChar routeIdx).1.Within bound := by
  unfold TrieMem.insert at hpath ⊢
  split
  · exact h
  next slot hslot =>
  rw [hslot] at hpath
  dsimp only at hpath ⊢
  split
  · exact h
  next hcount =>
  rw [if_neg hcount] at hpath
  generalize htok : (tokenizeViews bytes path).1 = segs at hpath ⊢
  split
  · next m' pushed hloop =>
    have hkeep := (segment_insertLoop bytes m segs 0 []).2
    rw [hloop] at hkeep
    intro j hj
    show ((pushed.foldl popChild m').nodes.cells j).segment.Below bound
    rw [segment_foldl_popChild, hkeep j hj]
    exact h j hj
  · next m' pushed cur hloop =>
    rw [hloop] at hpath
    have hsegs : ∀ s ∈ segs, s.Below bound := by
      rw [← htok]
      exact below_tokenizeViewsLoop (hpath rfl) nofun
    have h' : m'.Within bound := by
      have hkeep := h.insertLoop segs hsegs bytes 0 []
      rwa [hloop] at hkeep
    unfold setTerminal
    dsimp only
    split
    · intro j hj
      rw [segment_setNode (m := m') (i := cur) _ (by rfl) hj]
      exact h' j hj
    · exact h'

end TrieMem

end Rut
