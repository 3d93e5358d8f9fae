import Rut.Lib.Arena
import Rut.Route.Config.Responses
import Rut.Sim.Basic

/-!
# The response tables in memory

The pools behind `add_response_body` and `add_response_header_set` of `route_table.h`, and
`populate_route_config` of `compile_to_config.h`, which fills them from a compiled module.

    response_bodies        pointer and length into body_pool
    response_header_sets   offset and count into header_keys and header_values
    header_keys, _values   pointer and length into header_bytes_pool

A pointer is an offset into its pool. `Holds t cfg` says that the pools of `t` hold the bodies and
header sets that `cfg` lists, with every pointer inside the part in use; the calls on the pools keep
step with the calls on the lists. That an index means the same forever is then a fact about lists
that are only appended to.
-/

namespace Rut

open Lib List Arena

/-- A pointer into a pool of bytes with a length. -/
structure Span where
  off : Nat
  len : Nat
deriving DecidableEq, Repr, Inhabited

structure HeaderSetRef where
  offset : Nat
  count : Nat
deriving DecidableEq, Repr, Inhabited

/-- `header_pool_used` is the number of entries in use of both `header_keys` and `header_values`. -/
structure ResponseTables where
  responseBodies : Arena Span := .empty default
  bodyPool : Arena UInt8 := .empty 0
  headerKeys : Arena Span := .empty default
  headerValues : Arena Span := .empty default
  responseHeaderSets : Arena HeaderSetRef := .empty default
  headerBytesPool : Arena UInt8 := .empty 0

/-- A call of one of the two functions that fill the tables. -/
inductive TableCall where
  | body (data : Str)
  | headerSet (pairs : List (Str × Str))
deriving DecidableEq, Repr

/-- The lists with what a call adds. -/
def TableCall.added (cfg : RouteConfig) : TableCall → RouteConfig
  | body data => { cfg with responseBodies := cfg.responseBodies ++ [data] }
  | headerSet pairs => { cfg with responseHeaderSets := cfg.responseHeaderSets ++ [pairs] }

/-- The index of what a call adds. -/
def TableCall.index (cfg : RouteConfig) : TableCall → Nat
  | body _ => cfg.responseBodies.length + 1
  | headerSet _ => cfg.responseHeaderSets.length + 1

namespace ResponseTables

open RouteConfig

/-! ## Adding -/

/-- The index counts from 1; a call that fails returns 0. -/
def addResponseBody (t : ResponseTables) (data : Str) : ResponseTables × Nat :=
  if t.responseBodies.used ≥ kMaxResponseBodies then (t, 0)
  else if data.length > kResponseBodyPoolBytes - t.bodyPool.used then (t, 0)
  else
    ({ t with
      bodyPool := t.bodyPool.append data
      responseBodies := t.responseBodies.push ⟨t.bodyPool.used, data.length⟩ },
      t.responseBodies.used + 1)

def storePair (t : ResponseTables) (p : Str × Str) : ResponseTables :=
  let pool := t.headerBytesPool.append p.1
  { t with
    headerBytesPool := pool.append p.2
    headerKeys := t.headerKeys.push ⟨t.headerBytesPool.used, p.1.length⟩
    headerValues := t.headerValues.push ⟨pool.used, p.2.length⟩ }

/-- All pairs are looked at before the first byte is copied. The checks of the sum of the lengths
against an overflow of 32 bits refuse only what the pool has no room for. -/
def addResponseHeaderSet (t : ResponseTables) (pairs : List (Str × Str)) : ResponseTables × Nat :=
  if pairs.length = 0 then (t, 0)
  else if t.responseHeaderSets.used ≥ kMaxResponseHeaderSets then (t, 0)
  else if pairs.length > kMaxHeadersPerSet then (t, 0)
  else if pairs.length > kMaxHeaderPoolEntries - t.headerKeys.used then (t, 0)
  else if !headerPairsOk [] pairs then (t, 0)
  else if headerBytes pairs > kResponseHeaderBytesPoolBytes - t.headerBytesPool.used then (t, 0)
  else
    let t' := pairs.foldl storePair t
    ({ t' with
      responseHeaderSets := t'.responseHeaderSets.push ⟨t.headerKeys.used, pairs.length⟩ },
      t.responseHeaderSets.used + 1)

def step (t : ResponseTables) : TableCall → ResponseTables × Nat
  | .body data => t.addResponseBody data
  | .headerSet pairs => t.addResponseHeaderSet pairs

def run (t : ResponseTables) (calls : List TableCall) : ResponseTables :=
  calls.foldl (fun t c => (t.step c).1) t

/-! ## What the indices denote -/

def read (pool : Arena UInt8) (s : Span) : Str := pool.slice s.off s.len

def bodies (t : ResponseTables) : List Str := t.responseBodies.live.map (read t.bodyPool)

/-- The pairs of a set, as the response formatter walks over them. -/
def pairsOf (t : ResponseTables) (r : HeaderSetRef) : List (Str × Str) :=
  ((t.headerKeys.slice r.offset r.count).map (read t.headerBytesPool)).zip
    ((t.headerValues.slice r.offset r.count).map (read t.headerBytesPool))

def headerSets (t : ResponseTables) : List (List (Str × Str)) :=
  t.responseHeaderSets.live.map t.pairsOf

/-- The body with a 1-based index; 0 stands for no body. -/
def body (t : ResponseTables) (idx : Nat) : Option Str :=
  if idx = 0 then none else t.bodies[idx - 1]?

def headerSet (t : ResponseTables) (idx : Nat) : Option (List (Str × Str)) :=
  if idx = 0 then none else t.headerSets[idx - 1]?

/-! ## Tables and lists -/

/-- Every pointer stays inside the part of its pool that is in use. -/
structure Sound (t : ResponseTables) : Prop where
  bodies : ∀ s ∈ t.responseBodies.live, s.off + s.len ≤ t.bodyPool.used
  keys : ∀ s ∈ t.headerKeys.live, s.off + s.len ≤ t.headerBytesPool.used
  values : ∀ s ∈ t.headerValues.live, s.off + s.len ≤ t.headerBytesPool.used
  paired : t.headerKeys.used = t.headerValues.used
  sets : ∀ r ∈ t.responseHeaderSets.live, r.offset + r.count ≤ t.headerKeys.used

structure Holds (t : ResponseTables) (cfg : RouteConfig) : Prop extends Sound t where
  bodies_eq : t.bodies = cfg.responseBodies
  headerSets_eq : t.headerSets = cfg.responseHeaderSets
  bodyPool_used : t.bodyPool.used = cfg.bodyPoolUsed
  headerPool_used : t.headerKeys.used = cfg.headerPoolUsed
  headerBytes_used : t.headerBytesPool.used = cfg.headerBytesPoolUsed

theorem holds_empty : Holds {} {} where
  bodies := nofun
  keys := nofun
  values := nofun
  paired := rfl
  sets := nofun
  bodies_eq := rfl
  headerSets_eq := rfl
  bodyPool_used := rfl
  headerPool_used := rfl
  headerBytes_used := rfl

theorem read_of_extends {pool pool' : Arena UInt8} {s : Span} (h : Arena.Extends pool pool')
    (hs : s.off + s.len ≤ pool.used) : read pool' s = read pool s :=
  h.slice_eq hs

theorem map_read_of_extends {pool pool' : Arena UInt8} {ss : List Span}
    (h : Arena.Extends pool pool') (hs : ∀ s ∈ ss, s.off + s.len ≤ pool.used) :
    ss.map (read pool') = ss.map (read pool) :=
  map_congr_left fun s hmem => read_of_extends h (hs s hmem)

variable {t t' : ResponseTables} {cfg : RouteConfig}

/-- Spans still fit, and so does one more, in a pool that has grown. -/
theorem fits_push {spans : Arena Span} {pool pool' : Arena UInt8} {s : Span}
    (hs : ∀ s ∈ spans.live, s.off + s.len ≤ pool.used) (h : Arena.Extends pool pool')
    (hnew : s.off + s.len ≤ pool'.used) :
    ∀ s' ∈ (spans.push s).live, s'.off + s'.len ≤ pool'.used := by
  intro s' hmem
  rw [live_push, mem_append, mem_singleton] at hmem
  rcases hmem with hmem | rfl
  · exact Nat.le_trans (hs s' hmem) h.used_le
  · exact hnew

/-! ### Bodies -/

theorem addResponseBody_spec (h : Holds t cfg) (data : Str) :
    (cfg.addResponseBody data = none ∧ t.addResponseBody data = (t, 0)) ∨
    ∃ t', cfg.addResponseBody data = some ((TableCall.body data).added cfg,
        (TableCall.body data).index cfg) ∧
      t.addResponseBody data = (t', (TableCall.body data).index cfg) ∧
      Holds t' ((TableCall.body data).added cfg) := by
  have hcount : t.responseBodies.used = cfg.responseBodies.length := by
    rw [← h.bodies_eq, bodies, length_map, length_live]
  unfold addResponseBody RouteConfig.addResponseBody
  rw [hcount, h.bodyPool_used]
  split
  · exact .inl ⟨rfl, rfl⟩
  split
  · exact .inl ⟨rfl, rfl⟩
  refine .inr ⟨_, rfl, rfl, ?_⟩
  have hgrow := extends_append t.bodyPool data
  refine ⟨⟨?_, h.keys, h.values, h.paired, h.sets⟩, ?_, h.headerSets_eq, ?_, h.headerPool_used,
    h.headerBytes_used⟩
  · apply fits_push h.bodies hgrow
    rw [used_append, h.bodyPool_used]
  · show (t.responseBodies.push _).live.map (read (t.bodyPool.append data)) =
      cfg.responseBodies ++ [data]
    rw [live_push, map_append, map_read_of_extends hgrow h.bodies, ← h.bodies_eq]
    congr 1
    rw [← h.bodyPool_used]
    exact congrArg (fun x => [x]) (slice_append t.bodyPool data)
  · show (t.bodyPool.append data).used = ((cfg.responseBodies ++ [data]).map List.length).sum
    rw [used_append, h.bodyPool_used]
    simp [bodyPoolUsed]

/-! ### Header sets -/

/-- What copying pairs leaves as it was, and what it adds. -/
structure Copied (t t' : ResponseTables) (pairs : List (Str × Str)) : Prop where
  sound : Sound t'
  bodies : t'.responseBodies = t.responseBodies ∧ t'.bodyPool = t.bodyPool
  sets : t'.responseHeaderSets = t.responseHeaderSets
  pool : Arena.Extends t.headerBytesPool t'.headerBytesPool
  keys : Arena.Extends t.headerKeys t'.headerKeys
  values : Arena.Extends t.headerValues t'.headerValues
  pool_used : t'.headerBytesPool.used = t.headerBytesPool.used + headerBytes pairs
  keys_used : t'.headerKeys.used = t.headerKeys.used + pairs.length
  copy : t'.pairsOf ⟨t.headerKeys.used, pairs.length⟩ = pairs

theorem pairsOf_eq (h : Sound t) (hpool : Arena.Extends t.headerBytesPool t'.headerBytesPool)
    (hkeys : Arena.Extends t.headerKeys t'.headerKeys)
    (hvalues : Arena.Extends t.headerValues t'.headerValues) {r : HeaderSetRef}
    (hr : r.offset + r.count ≤ t.headerKeys.used) : t'.pairsOf r = t.pairsOf r := by
  have hmem : ∀ {spans : Arena Span} {s : Span}, r.offset + r.count ≤ spans.used →
      s ∈ spans.slice r.offset r.count → s ∈ spans.live := by
    intro spans s hle hs
    obtain ⟨i, hi⟩ := mem_iff_getElem?.mp hs
    rw [getElem?_slice] at hi
    split at hi
    · next hlt =>
      refine mem_iff_getElem?.mpr ⟨r.offset + i, ?_⟩
      rw [getElem?_live, if_pos (by omega), hi]
    · cases hi
  rw [pairsOf, pairsOf, hkeys.slice_eq hr, hvalues.slice_eq (h.paired ▸ hr)]
  rw [map_read_of_extends hpool fun s hs => h.keys s (hmem hr hs),
    map_read_of_extends hpool fun s hs => h.values s (hmem (h.paired ▸ hr) hs)]

theorem copied_storePair (h : Sound t) (p : Str × Str) : Copied t (t.storePair p) [p] := by
  have hpool : Arena.Extends t.headerBytesPool (t.storePair p).headerBytesPool :=
    (extends_append _ _).trans (extends_append _ _)
  have hused : (t.storePair p).headerBytesPool.used =
      t.headerBytesPool.used + p.1.length + p.2.length := by
    show ((t.headerBytesPool.append p.1).append p.2).used = _
    rw [used_append, used_append]
  refine ⟨⟨h.bodies, ?_, ?_, ?_, ?_⟩, ⟨rfl, rfl⟩, rfl, hpool, extends_push .., 
    extends_push .., ?_, rfl, ?_⟩
  · exact fits_push h.keys hpool (by rw [hused]; dsimp only; omega)
  · apply fits_push h.values hpool
    rw [hused, used_append]
  · exact congrArg (· + 1) h.paired
  · exact fun r hr => Nat.le_succ_of_le (h.sets r hr)
  · simp [headerBytes]
    omega
  · have hkey : read (t.storePair p).headerBytesPool ⟨t.headerBytesPool.used, p.1.length⟩ = p.1 :=
      (read_of_extends (extends_append _ p.2) (by simp)).trans (slice_append _ _)
    have hvalue : read (t.storePair p).headerBytesPool
        ⟨(t.headerBytesPool.append p.1).used, p.2.length⟩ = p.2 := slice_append _ _
    have hcell : ∀ (spans : Arena Span) (s : Span), (spans.push s).slice spans.used 1 = [s] :=
      fun spans s => slice_append spans [s]
    show (((t.headerKeys.push _).slice t.headerKeys.used 1).map _).zip
      (((t.headerValues.push _).slice t.headerKeys.used 1).map _) = _
    rw [hcell, h.paired, hcell, map_singleton, map_singleton, hkey, hvalue]
    rfl

theorem pairsOf_add (t : ResponseTables) (off m n : Nat) :
    t.pairsOf ⟨off, m + n⟩ = t.pairsOf ⟨off, m⟩ ++ t.pairsOf ⟨off + m, n⟩ := by
  simp only [pairsOf, slice_add, map_append]
  exact zip_append (by simp)

theorem copied_nil (h : Sound t) : Copied t t [] :=
  ⟨h, ⟨rfl, rfl⟩, rfl, .refl _, .refl _, .refl _, rfl, rfl, rfl⟩

theorem Copied.trans {t'' : ResponseTables} {pairs pairs' : List (Str × Str)} (h : Copied t t' pairs)
    (h' : Copied t' t'' pairs') : Copied t t'' (pairs ++ pairs') where
  sound := h'.sound
  bodies := ⟨h'.bodies.1.trans h.bodies.1, h'.bodies.2.trans h.bodies.2⟩
  sets := h'.sets.trans h.sets
  pool := h.pool.trans h'.pool
  keys := h.keys.trans h'.keys
  values := h.values.trans h'.values
  pool_used := by
    rw [h'.pool_used, h.pool_used]
    simp [headerBytes, Nat.add_assoc]
  keys_used := by rw [h'.keys_used, h.keys_used, length_append, Nat.add_assoc]
  copy := by
    have hold : t''.pairsOf ⟨t.headerKeys.used, pairs.length⟩ = pairs := by
      rw [pairsOf_eq h.sound h'.pool h'.keys h'.values h.keys_used.ge, h.copy]
    rw [length_append, pairsOf_add, hold, ← h.keys_used, h'.copy]

/-- All pairs of a set are copied. -/
theorem copied_foldl (h : Sound t) (pairs : List (Str × Str)) :
    Copied t (pairs.foldl storePair t) pairs := by
  induction pairs generalizing t with
  | nil => exact copied_nil h
  | cons p pairs ih => exact (copied_storePair h p).trans (ih (copied_storePair h p).sound)

theorem addResponseHeaderSet_spec (h : Holds t cfg) (pairs : List (Str × Str)) :
    (cfg.addResponseHeaderSet pairs = none ∧ t.addResponseHeaderSet pairs = (t, 0)) ∨
    ∃ t', cfg.addResponseHeaderSet pairs = some ((TableCall.headerSet pairs).added cfg,
        (TableCall.headerSet pairs).index cfg) ∧
      t.addResponseHeaderSet pairs = (t', (TableCall.headerSet pairs).index cfg) ∧
      Holds t' ((TableCall.headerSet pairs).added cfg) := by
  have hcount : t.responseHeaderSets.used = cfg.responseHeaderSets.length := by
    rw [← h.headerSets_eq, headerSets, length_map, length_live]
  unfold addResponseHeaderSet RouteConfig.addResponseHeaderSet
  rw [hcount, h.headerPool_used, h.headerBytes_used]
  split
  · exact .inl ⟨rfl, rfl⟩
  split
  · exact .inl ⟨rfl, rfl⟩
  split
  · exact .inl ⟨rfl, rfl⟩
  split
  · exact .inl ⟨rfl, rfl⟩
  split
  · exact .inl ⟨rfl, rfl⟩
  split
  · exact .inl ⟨rfl, rfl⟩
  refine .inr ⟨_, rfl, rfl, ?_⟩
  have hcopy := copied_foldl h.toSound pairs
  generalize pairs.foldl storePair t = t' at hcopy ⊢
  refine ⟨⟨hcopy.sound.bodies, hcopy.sound.keys, hcopy.sound.values, hcopy.sound.paired, ?_⟩,
    ?_, ?_, ?_, ?_, ?_⟩
  · intro r hr
    have hr : r ∈ (t'.responseHeaderSets.push _).live := hr
    rw [live_push, mem_append, mem_singleton] at hr
    rcases hr with hr | rfl
    · exact hcopy.sound.sets r hr
    · rw [← h.headerPool_used]
      exact hcopy.keys_used.ge
  · rw [hcopy.bodies.1, hcopy.bodies.2]
    exact h.bodies_eq
  · show (t'.responseHeaderSets.push _).live.map t'.pairsOf = cfg.responseHeaderSets ++ [pairs]
    rw [live_push, map_append, hcopy.sets, ← h.headerSets_eq]
    congr 1
    · exact map_congr_left fun r hr =>
        pairsOf_eq h.toSound hcopy.pool hcopy.keys hcopy.values (h.sets r hr)
    · rw [← h.headerPool_used, map_singleton, hcopy.copy]
  · rw [hcopy.bodies.2]
    exact h.bodyPool_used
  · show t'.headerKeys.used = ((cfg.responseHeaderSets ++ [pairs]).map List.length).sum
    rw [hcopy.keys_used, h.headerPool_used]
    simp [headerPoolUsed]
  · show t'.headerBytesPool.used = ((cfg.responseHeaderSets ++ [pairs]).map headerBytes).sum
    rw [hcopy.pool_used, h.headerBytes_used]
    simp [headerBytesPoolUsed]

/-! ## Any sequence of calls -/

/-- A call either fails and changes nothing, or adds what it was given. -/
theorem step_spec (h : Holds t cfg) (c : TableCall) :
    t.step c = (t, 0) ∨ ∃ t', t.step c = (t', c.index cfg) ∧ Holds t' (c.added cfg) := by
  cases c with
  | body data =>
    rcases addResponseBody_spec h data with ⟨-, hfail⟩ | ⟨t', -, hstep, ht'⟩
    · exact .inl hfail
    · exact .inr ⟨t', hstep, ht'⟩
  | headerSet pairs =>
    rcases addResponseHeaderSet_spec h pairs with ⟨-, hfail⟩ | ⟨t', -, hstep, ht'⟩
    · exact .inl hfail
    · exact .inr ⟨t', hstep, ht'⟩

/-- The lists only grow. -/
theorem run_spec (h : Holds t cfg) (calls : List TableCall) :
    ∃ cfg', Holds (t.run calls) cfg' ∧ cfg.responseBodies <+: cfg'.responseBodies ∧
      cfg.responseHeaderSets <+: cfg'.responseHeaderSets := by
  induction calls generalizing t cfg with
  | nil => exact ⟨cfg, h, prefix_rfl, prefix_rfl⟩
  | cons c calls ih =>
    show ∃ cfg', Holds ((t.step c).1.run calls) cfg' ∧ _
    rcases step_spec h c with hstep | ⟨t', hstep, ht'⟩
    · rw [hstep]
      exact ih h
    · rw [hstep]
      obtain ⟨cfg', hrun, hbodies, hsets⟩ := ih ht'
      refine ⟨cfg', hrun, ?_, ?_⟩
      · refine List.IsPrefix.trans ?_ hbodies
        cases c with
        | body data => exact prefix_append ..
        | headerSet pairs => exact prefix_rfl
      · refine List.IsPrefix.trans ?_ hsets
        cases c with
        | body data => exact prefix_rfl
        | headerSet pairs => exact prefix_append ..

theorem exists_holds (calls : List TableCall) : ∃ cfg, Holds (run {} calls) cfg := by
  obtain ⟨cfg, h, -⟩ := run_spec holds_empty calls
  exact ⟨cfg, h⟩

/-- The index stands for what the call was given. -/
def Denotes (t : ResponseTables) (idx : Nat) : TableCall → Prop
  | .body data => t.body idx = some data
  | .headerSet pairs => t.headerSet idx = some pairs

theorem getElem?_of_concat_prefix {α : Type} {l l' : List α} {x : α} (h : l ++ [x] <+: l') :
    l'[l.length]? = some x := by
  obtain ⟨rest, rfl⟩ := h
  simp

theorem denotes_of_prefix {c : TableCall} {cfg' : RouteConfig} (h : Holds t cfg')
    (hbodies : (c.added cfg).responseBodies <+: cfg'.responseBodies)
    (hsets : (c.added cfg).responseHeaderSets <+: cfg'.responseHeaderSets) :
    t.Denotes (c.index cfg) c := by
  cases c with
  | body data =>
    show t.bodies[cfg.responseBodies.length]? = some data
    rw [h.bodies_eq]
    exact getElem?_of_concat_prefix hbodies
  | headerSet pairs =>
    show t.headerSets[cfg.responseHeaderSets.length]? = some pairs
    rw [h.headerSets_eq]
    exact getElem?_of_concat_prefix hsets

end ResponseTables

/-! ## Filling the tables from a module -/

structure RirUpstream where
  name : Str
  hasAddress : Bool
  ip : UInt32
  port : UInt16
deriving DecidableEq, Repr

/-- The tables of a `rir::Module`. Header sets are slices of two arrays of which `headerPoolUsed`
entries are in use. -/
structure RirModule where
  upstreams : List RirUpstream := []
  responseBodies : List Str := []
  headerKeys : Nat → Str := fun _ => []
  headerValues : Nat → Str := fun _ => []
  headerPoolUsed : Nat := 0
  headerSets : List HeaderSetRef := []

namespace RirModule

def kMaxUpstreams : Nat := 32

def kMaxResponseBodies : Nat := 128

def kMaxHeaderSets : Nat := 128

def kMaxHeaderPoolEntries : Nat := 512

/-- The pairs of a header set of the module. -/
def literal (m : RirModule) (r : HeaderSetRef) : List (Str × Str) :=
  (List.range r.count).map fun j => (m.headerKeys (r.offset + j), m.headerValues (r.offset + j))

end RirModule

structure UpstreamTarget where
  name : Str
  ip : UInt32
  port : UInt16
deriving DecidableEq, Repr

/-- The part of a `RouteConfig` that is filled from the declarations of a module. -/
structure DeclaredConfig where
  routeCount : Nat := 0
  upstreams : List UpstreamTarget := []
  tables : ResponseTables := {}

namespace DeclaredConfig

def kMaxUpstreams : Nat := 64

def kMaxUpstreamNameLen : Nat := 32

/-- `add_upstream`; `set_name` cuts the name to the size of its array. -/
def addUpstream (c : DeclaredConfig) (name : Str) (ip : UInt32) (port : UInt16) :
    Option (DeclaredConfig × Nat) :=
  if c.upstreams.length ≥ kMaxUpstreams then none
  else some ({ c with upstreams := c.upstreams ++
    [⟨(cstr name).take (kMaxUpstreamNameLen - 1), ip, port⟩] }, c.upstreams.length)

/-- The loop that adds the upstreams of the module. -/
def bindUpstreams : DeclaredConfig → Nat → List RirUpstream → Option DeclaredConfig
  | c, _, [] => some c
  | c, i, up :: ups =>
    match c.addUpstream (up.name.take (kMaxUpstreamNameLen - 1)) up.ip up.port with
    | none => none
    | some (c', idx) => if idx ≠ i then none else bindUpstreams c' (i + 1) ups

/-- The comparison with upstreams the caller has added. -/
def preBound (c : DeclaredConfig) (m : RirModule) : Bool :=
  (c.upstreams.zip m.upstreams).all fun x =>
    x.2.name.length < kMaxUpstreamNameLen && x.1.name = x.2.name

/-- The upstreams are added, or have been by the caller. -/
def withUpstreams (c : DeclaredConfig) (m : RirModule) : Option DeclaredConfig :=
  if c.upstreams.length = 0 then
    if m.upstreams.any (fun up => !up.hasAddress) then none else c.bindUpstreams 0 m.upstreams
  else if c.preBound m then some c else none

/-- Add entries one after the other; each has to get the next index. -/
def addEach {α : Type} (add : ResponseTables → α → ResponseTables × Nat) :
    ResponseTables → Nat → List α → Option ResponseTables
  | t, _, [] => some t
  | t, i, x :: xs =>
    if (add t x).2 = 0 then none
    else if (add t x).2 ≠ i + 1 then none
    else addEach add (add t x).1 (i + 1) xs

def populateRouteConfig (c : DeclaredConfig) (m : RirModule) : Option DeclaredConfig :=
  if c.routeCount ≠ 0 ∨ c.tables.responseBodies.used ≠ 0 ∨ c.tables.responseHeaderSets.used ≠ 0 then
    none
  else if c.upstreams.length ≠ 0 ∧ c.upstreams.length ≠ m.upstreams.length then none
  else if m.upstreams.length > RirModule.kMaxUpstreams then none
  else if m.responseBodies.length > RirModule.kMaxResponseBodies then none
  else if m.headerSets.length > RirModule.kMaxHeaderSets then none
  else if m.headerPoolUsed > RirModule.kMaxHeaderPoolEntries then none
  else if m.headerSets.any (fun r =>
      r.offset + r.count > m.headerPoolUsed || r.count > RouteConfig.kMaxHeadersPerSet) then none
  else do
    let c ← c.withUpstreams m
    let t ← addEach ResponseTables.addResponseBody c.tables 0 m.responseBodies
    let t ← addEach (fun t r => t.addResponseHeaderSet (m.literal r)) t 0 m.headerSets
    return { c with tables := t }

open ResponseTables

theorem bindUpstreams_tables : {ups : List RirUpstream} → {c c' : DeclaredConfig} → {i : Nat} →
    c.bindUpstreams i ups = some c' → c'.tables = c.tables
  | [], c, c', _, h => by rw [Option.some.inj h]
  | up :: ups, c, c', i, h => by
    rw [bindUpstreams, addUpstream] at h
    split at h
    · cases h
    · next c₁ idx hadd =>
      split at h
      · cases h
      · rw [bindUpstreams_tables h]
        split at hadd
        · cases hadd
        · rw [← (Prod.mk.inj (Option.some.inj hadd)).1]

theorem withUpstreams_tables {c c' : DeclaredConfig} {m : RirModule}
    (h : c.withUpstreams m = some c') : c'.tables = c.tables := by
  unfold withUpstreams at h
  split at h
  · split at h
    · cases h
    · exact bindUpstreams_tables h
  · split at h
    · rw [Option.some.inj h]
    · cases h

/-- If every call succeeds, each has added what it was given. -/
theorem addEach_spec {α : Type} {add : ResponseTables → α → ResponseTables × Nat}
    {call : α → TableCall} (hadd : ∀ t x, add t x = t.step (call x)) :
    {xs : List α} → {t t' : ResponseTables} → {cfg : RouteConfig} → {i : Nat} →
    addEach add t i xs = some t' → ResponseTables.Holds t cfg →
    ResponseTables.Holds t' (xs.foldl (fun cfg x => (call x).added cfg) cfg)
  | [], _, _, _, _, h, ht => Option.some.inj h ▸ ht
  | x :: xs, t, t', cfg, i, h, ht => by
    rw [addEach] at h
    split at h
    · cases h
    · next hidx =>
      split at h
      · cases h
      · rw [hadd] at h hidx
        rcases step_spec ht (call x) with hstep | ⟨t₁, hstep, ht₁⟩
        · exact absurd (congrArg Prod.snd hstep) hidx
        · rw [hstep] at h
          show ResponseTables.Holds t' (xs.foldl _ ((call x).added cfg))
          exact addEach_spec hadd h ht₁

theorem foldl_added_body (bodies : List Str) (cfg : RouteConfig) :
    bodies.foldl (fun cfg data => (TableCall.body data).added cfg) cfg =
      { cfg with responseBodies := cfg.responseBodies ++ bodies } := by
  induction bodies generalizing cfg with
  | nil => rw [foldl_nil, append_nil]
  | cons data bodies ih =>
    rw [foldl_cons, ih]
    simp [TableCall.added]

theorem foldl_added_headerSet (m : RirModule) (sets : List HeaderSetRef) (cfg : RouteConfig) :
    sets.foldl (fun cfg r => (TableCall.headerSet (m.literal r)).added cfg) cfg =
      { cfg with responseHeaderSets := cfg.responseHeaderSets ++ sets.map m.literal } := by
  induction sets generalizing cfg with
  | nil => rw [foldl_nil, map_nil, append_nil]
  | cons r sets ih =>
    rw [foldl_cons, ih]
    simp [TableCall.added]

/-- A successful call leaves the bodies and header sets of the module in the tables, in order and
nothing else. -/
theorem populateRouteConfig_spec {c c' : DeclaredConfig} {m : RirModule} {cfg : RouteConfig}
    (h : c.populateRouteConfig m = some c') (ht : ResponseTables.Holds c.tables cfg) :
    c'.tables.bodies = m.responseBodies ∧ c'.tables.headerSets = m.headerSets.map m.literal := by
  unfold populateRouteConfig at h
  split at h
  · cases h
  next hempty =>
  iterate 6
    split at h
    · cases h
  obtain ⟨c₁, hc₁, h⟩ := Option.bind_eq_some_iff.mp h
  obtain ⟨t₁, ht₁, h⟩ := Option.bind_eq_some_iff.mp h
  obtain ⟨t₂, ht₂, h⟩ := Option.bind_eq_some_iff.mp h
  obtain rfl := Option.some.inj h
  rw [not_or, not_or, not_ne_iff, not_ne_iff, not_ne_iff] at hempty
  have hbodies : cfg.responseBodies = [] := by
    rw [← ht.bodies_eq, ← length_eq_zero_iff, ResponseTables.bodies, length_map,
      Lib.Arena.length_live, hempty.2.1]
  have hsets : cfg.responseHeaderSets = [] := by
    rw [← ht.headerSets_eq, ← length_eq_zero_iff, ResponseTables.headerSets, length_map,
      Lib.Arena.length_live, hempty.2.2]
  rw [withUpstreams_tables hc₁] at ht₁
  have h₁ := @addEach_spec _ _ TableCall.body (fun _ _ => rfl) _ _ _ _ _ ht₁ ht
  have h₂ := @addEach_spec _ _ (fun r => TableCall.headerSet (m.literal r)) (fun _ _ => rfl) _ _ _ _ _ ht₂ h₁
  rw [foldl_added_headerSet, foldl_added_body, hbodies, hsets] at h₂
  exact ⟨h₂.bodies_eq, h₂.headerSets_eq⟩

/-- Indices mean the same forever, calls that fail change nothing, and the indices of a module mean
the literals of the module. -/
theorem tables_append_only (before after : List TableCall) (call : TableCall) :
    ((((run {} before).step call).2 = 0 → ((run {} before).step call).1 = run {} before) ∧
      (((run {} before).step call).2 ≠ 0 →
        (((run {} before).step call).1.run after).Denotes ((run {} before).step call).2 call)) ∧
    ∀ (c c' : DeclaredConfig) (m : RirModule), c.tables = run {} before →
      c.populateRouteConfig m = some c' →
      (∀ i data, m.responseBodies[i]? = some data → c'.tables.body (i + 1) = some data) ∧
      ∀ i r, m.headerSets[i]? = some r → c'.tables.headerSet (i + 1) = some (m.literal r) := by
  obtain ⟨cfg, ht⟩ := exists_holds before
  refine ⟨⟨?_, ?_⟩, ?_⟩
  · intro hzero
    rcases step_spec ht call with hstep | ⟨t', hstep, -⟩
    · rw [hstep]
    · rw [hstep] at hzero
      cases call <;> exact absurd hzero (Nat.succ_ne_zero _)
  · intro hidx
    rcases step_spec ht call with hstep | ⟨t', hstep, ht'⟩
    · exact absurd (congrArg Prod.snd hstep) hidx
    · rw [hstep]
      obtain ⟨cfg', hrun, hbodies, hsets⟩ := run_spec ht' after
      exact denotes_of_prefix hrun hbodies hsets
  · intro c c' m htables hpopulate
    obtain ⟨hbodies, hsets⟩ := populateRouteConfig_spec hpopulate (htables ▸ ht)
    constructor
    · intro i data hdata
      show c'.tables.bodies[i]? = some data
      rw [hbodies, hdata]
    · intro i r hr
      show c'.tables.headerSets[i]? = _
      rw [hsets, List.getElem?_map, hr]
      rfl

def sampleTables : RirModule where
  responseBodies := [ascii "hello"]
  headerKeys := fun _ => ascii "X-Id"
  headerValues := fun _ => ascii "7"
  headerPoolUsed := 1
  headerSets := [⟨0, 1⟩]

theorem tables_append_only_sampleTables :
    ((run {} []).step (.body (ascii "hello"))).2 ≠ 0 ∧
    (((run {} []).step (.body (ascii "hello"))).1.run [.body (ascii "bye")]).Denotes
      ((run {} []).step (.body (ascii "hello"))).2 (.body (ascii "hello")) ∧
    ∃ c', populateRouteConfig {} sampleTables = some c' ∧
      c'.tables.body 1 = some (ascii "hello") ∧
      c'.tables.headerSet 1 = some [(ascii "X-Id", ascii "7")] := by
  have hidx : ((run {} []).step (.body (ascii "hello"))).2 ≠ 0 := by decide
  have hsome : (populateRouteConfig {} sampleTables).isSome = true := by decide
  obtain ⟨c', hc'⟩ := Option.isSome_iff_exists.mp hsome
  have h := tables_append_only [] [.body (ascii "bye")] (.body (ascii "hello"))
  obtain ⟨hbody, hset⟩ := h.2 {} c' sampleTables rfl hc'
  exact ⟨hidx, h.1.2 hidx, c', hc', hbody 0 _ rfl, hset 0 _ rfl⟩

end DeclaredConfig

end Rut
