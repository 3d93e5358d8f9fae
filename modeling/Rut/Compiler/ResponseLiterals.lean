import Rut.Compiler.Rir
import Rut.Jit.Result
import Rut.Route.Config.Tables

/-!
# Response literals

`return response(N, body: "…", headers: { … })` on its way through the compiler. The parser reads the
keyword arguments, analysis checks the status, and the lowering puts the body and the header set into
the tables of the module, where equal ones are found again, and hands the indices to the builder.

    parser.cc       parseResponse      each keyword at most once, no empty set of headers
    analyze.cc      analyzeTerm        a status of three digits
    mir_build.cc    setTermFromHir
    lower_rir.cc    emitTerm           an index for the body, an index for the headers

That there is no body is a null pointer in the first three, and an index of zero in the last. A body
of no bytes is told apart from none by the first three, and is taken for none by the last.
-/

namespace Rut.Compiler

open Rut.Jit List RirModule

/-- A keyword argument. -/
inductive Kwarg where
  | body (text : Str)
  | headers (pairs : List (Str × Str))
  | other (name : Str)
deriving DecidableEq, Repr

structure ResponseLiteral where
  /-- the digits of the status -/
  status : Str
  kwargs : List Kwarg := []
deriving DecidableEq, Repr

/-! ## The parser -/

/-- The fields of `AstStatement` for a returned status. A null pointer is `none`. -/
structure AstResponse where
  statusCode : Int32 := 0
  responseBody : Option Str := none
  hasResponseBody : Bool := false
  responseHeaders : List (Str × Str) := []
deriving DecidableEq, Repr

/-- `AstStatement::kMaxResponseHeaders`, and `kMaxHeaders` of the terminators. -/
def kMaxResponseHeaders : Nat := 16

/-- The loop of `parse_status_i32`; a token of this kind is digits. -/
def parseStatusFrom : Nat → Str → Except FrontendError Nat
  | value, [] => .ok value
  | value, c :: rest =>
    let digit := (c - 0x30).toNat
    if value > (0x7fffffff - digit) / 10 then .error .invalidInteger
    else parseStatusFrom (value * 10 + digit) rest

def parseStatusI32 (text : Str) : Except FrontendError Int32 :=
  (parseStatusFrom 0 text).map Int32.ofNat

def parseHeaders : List (Str × Str) → List (Str × Str) → Except FrontendError (List (Str × Str))
  | headers, [] => .ok headers
  | headers, pair :: pairs =>
    if validateResponseHeader pair.1 pair.2 ≠ .Ok then .error .unsupportedSyntax
    else if headers.any (fun h => httpHeaderNameEqCi h.1 pair.1) then .error .unexpectedToken
    else if headers.length ≥ kMaxResponseHeaders then .error .tooManyItems
    else parseHeaders (headers ++ [pair]) pairs

def parseKwargs (seenHeaders : Bool) (stmt : AstResponse) : List Kwarg → Except FrontendError AstResponse
  | [] => .ok stmt
  | .body text :: kwargs =>
    if stmt.hasResponseBody then .error .unexpectedToken
    else parseKwargs seenHeaders { stmt with responseBody := some text, hasResponseBody := true } kwargs
  | .headers pairs :: kwargs =>
    if seenHeaders then .error .unexpectedToken
    else if pairs = [] then .error .unsupportedSyntax
    else
      match parseHeaders stmt.responseHeaders pairs with
      | .error e => .error e
      | .ok headers => parseKwargs true { stmt with responseHeaders := headers } kwargs
  | .other _ :: _ => .error .unexpectedToken

def parseResponse (l : ResponseLiteral) : Except FrontendError AstResponse :=
  match parseStatusI32 l.status with
  | .error e => .error e
  | .ok statusCode => parseKwargs false { statusCode } l.kwargs

/-! ## Analysis and MIR -/

/-- `HirTerminator`, and `MirTerminator` with the same fields, for a returned status. -/
structure Terminator where
  statusCode : Int32 := 0
  responseBody : Option Str := none
  responseHeaders : List (Str × Str) := []
deriving DecidableEq, Repr

/-- `analyze_term`. The pushes of the headers cannot fail, as the parser has the same bound. -/
def analyzeTerm (stmt : AstResponse) : Except FrontendError Terminator :=
  if stmt.statusCode.toUInt32 < 100 ∨ stmt.statusCode.toUInt32 > 999 then .error .invalidStatusCode
  else .ok {
    statusCode := stmt.statusCode
    responseBody := if stmt.hasResponseBody then stmt.responseBody else none
    responseHeaders := stmt.responseHeaders }

/-- The lambda `set_term_from_hir` of `build_mir`. -/
def setTermFromHir (term : Terminator) : Terminator where
  statusCode := term.statusCode
  responseBody := term.responseBody
  responseHeaders := term.responseHeaders

/-! ## Interning -/

/-- `intern_response_body`; zero is a failure. -/
def internResponseBody (m : RirModule) (body : Str) : RirModule × Nat :=
  match m.responseBodies.findIdx? (fun b => b = body) with
  | some i => (m, i + 1)
  | none =>
    if m.responseBodies.length ≥ kMaxResponseBodies then (m, 0)
    else ({ m with responseBodies := m.responseBodies ++ [body] }, m.responseBodies.length + 1)

/-- One pass of the loop that copies pairs. -/
def storeHeader (m : RirModule) (pair : Str × Str) : RirModule :=
  { m with
    headerKeys := Function.update m.headerKeys m.headerPoolUsed pair.1
    headerValues := Function.update m.headerValues m.headerPoolUsed pair.2
    headerPoolUsed := m.headerPoolUsed + 1 }

/-- `intern_response_headers`; zero is a failure. -/
def internResponseHeaders (m : RirModule) (pairs : List (Str × Str)) : RirModule × Nat :=
  if pairs.length = 0 then (m, 0)
  else
    match m.headerSets.findIdx? (fun r => r.count = pairs.length && m.literal r = pairs) with
    | some i => (m, i + 1)
    | none =>
      if m.headerSets.length ≥ kMaxHeaderSets then (m, 0)
      else if pairs.length > kMaxHeaderPoolEntries - m.headerPoolUsed then (m, 0)
      else
        let stored := pairs.foldl storeHeader m
        ({ stored with headerSets := stored.headerSets ++ [⟨m.headerPoolUsed, pairs.length⟩] },
          m.headerSets.length + 1)

/-! ## Lowering -/

def bodyIndex (m : RirModule) (term : Terminator) : Except FrontendError (RirModule × Nat) :=
  match term.responseBody with
  | none => .ok (m, 0)
  | some body =>
    if body.length > 0 then
      let (m', idx) := internResponseBody m body
      if idx = 0 then .error .tooManyItems else .ok (m', idx)
    else .ok (m, 0)

def headersIndex (m : RirModule) (term : Terminator) : Except FrontendError (RirModule × Nat) :=
  if term.responseHeaders.length > 0 then
    let (m', idx) := internResponseHeaders m term.responseHeaders
    if idx = 0 then .error .tooManyItems else .ok (m', idx)
  else .ok (m, 0)

/-- `emit_term` on a literal status. -/
def emitTerm (m : RirModule) (term : Terminator) : Except FrontendError (RirModule × RetInst) := do
  let (m, bodyIdx) ← bodyIndex m term
  let (m, headersIdx) ← headersIndex m term
  return (m, emitRetStatus term.statusCode (UInt16.ofNat bodyIdx) (UInt16.ofNat headersIdx))

/-- The terminators of a program, in the order they are lowered. Other terminators leave the tables
alone. -/
def lowerTerms : RirModule → List Terminator → Except FrontendError (RirModule × List RetInst)
  | m, [] => .ok (m, [])
  | m, term :: terms => do
    let (m, inst) ← emitTerm m term
    let (m, insts) ← lowerTerms m terms
    return (m, inst :: insts)

/-- The passes before the lowering. -/
def toTerminator (l : ResponseLiteral) : Except FrontendError Terminator :=
  match parseResponse l with
  | .error e => .error e
  | .ok stmt => (analyzeTerm stmt).map setTermFromHir

/-- All passes, on the literals of a program in the order they are lowered. -/
def compileLiterals (ls : List ResponseLiteral) : Except FrontendError (RirModule × List RetInst) := do
  let terms ← ls.mapM toTerminator
  lowerTerms {} terms

/-! ## What a literal says -/

def ResponseLiteral.body? (l : ResponseLiteral) : Option Str :=
  l.kwargs.findSome? fun | .body text => some text | _ => none

def ResponseLiteral.headers? (l : ResponseLiteral) : Option (List (Str × Str)) :=
  l.kwargs.findSome? fun | .headers pairs => some pairs | _ => none

/-- The indices of a return instruction, as the code generator takes them out of the immediate. -/
def bodyIdxOf : RetInst → Nat
  | .retStatus imm => ((imm >>> 16) &&& 0xffff).toNat
  | _ => 0

def headersIdxOf : RetInst → Nat
  | .retStatus imm => ((imm >>> 32) &&& 0xffff).toNat
  | _ => 0

/-- An index stands for an entry of a table, counted from 1, and zero for none. -/
def Denotes {α : Type} (table : List α) (idx : Nat) (x : Option α) : Prop :=
  if idx = 0 then x = none else x ≠ none ∧ table[idx - 1]? = x

/-- The body without the ones that are empty. -/
def nonempty? (body : Option Str) : Option Str := body.filter fun b => b ≠ []

/-- The indices of an instruction stand for what the literal says; `m` are the tables at any later
time. -/
structure Faithful (m : RirModule) (l : ResponseLiteral) (inst : RetInst) : Prop where
  body : Denotes m.responseBodies (bodyIdxOf inst) (nonempty? l.body?)
  headers : Denotes (m.headerSets.map m.literal) (headersIdxOf inst) l.headers?

/-! ## The first three passes -/

theorem parseHeaders_eq {headers pairs out : List (Str × Str)}
    (h : parseHeaders headers pairs = .ok out) : out = headers ++ pairs := by
  induction pairs generalizing headers with
  | nil =>
    cases h
    rw [append_nil]
  | cons pair pairs ih =>
    unfold parseHeaders at h
    split at h
    · cases h
    split at h
    · cases h
    split at h
    · cases h
    rw [ih h, append_assoc, singleton_append]

/-- What a statement holds, with no set of headers or one that is not empty. -/
structure Parsed (stmt : AstResponse) (body : Option Str) (headers : Option (List (Str × Str))) :
    Prop where
  flag : stmt.hasResponseBody = body.isSome
  bodyEq : stmt.responseBody = body
  headersEq : stmt.responseHeaders = headers.getD []
  nonempty : headers ≠ some []

theorem parsed_start (code : Int32) : Parsed { statusCode := code } none none :=
  ⟨rfl, rfl, rfl, nofun⟩

/-- The loop over keyword arguments. What has been read is not read again. -/
theorem parsed_parseKwargs {seen : Bool} {stmt out : AstResponse} {kwargs : List Kwarg}
    {body : Option Str} {headers : Option (List (Str × Str))} (hp : Parsed stmt body headers)
    (hseen : seen = headers.isSome) (h : parseKwargs seen stmt kwargs = .ok out) :
    Parsed out (body.or (ResponseLiteral.body? ⟨[], kwargs⟩))
      (headers.or (ResponseLiteral.headers? ⟨[], kwargs⟩)) := by
  induction kwargs generalizing seen stmt body headers with
  | nil =>
    cases h
    simpa [ResponseLiteral.body?, ResponseLiteral.headers?] using hp
  | cons kwarg kwargs ih =>
    cases kwarg with
    | body text =>
      rw [parseKwargs] at h
      split at h
      · cases h
      next hflag =>
      have hnone : body = none := by
        rw [hp.flag, Bool.not_eq_true, Option.isSome_eq_false_iff, Option.isNone_iff_eq_none]
          at hflag
        exact hflag
      have hp' : Parsed { stmt with responseBody := some text, hasResponseBody := true }
          (some text) headers := ⟨rfl, rfl, hp.headersEq, hp.nonempty⟩
      rw [hnone]
      exact ih hp' hseen h
    | headers pairs =>
      rw [parseKwargs] at h
      split at h
      · cases h
      next hflag =>
      have hnone : headers = none := by
        rw [hseen, Bool.not_eq_true, Option.isSome_eq_false_iff, Option.isNone_iff_eq_none]
          at hflag
        exact hflag
      subst hnone
      split at h
      · cases h
      next hne =>
      split at h
      · cases h
      next out' hout =>
      have hout' : out' = pairs := by
        rw [parseHeaders_eq hout, hp.headersEq]
        rfl
      have hp' : Parsed { stmt with responseHeaders := out' } body (some pairs) :=
        ⟨hp.flag, hp.bodyEq, hout', fun he => hne (Option.some.inj he)⟩
      exact ih hp' rfl h
    | other name => cases h

/-- What the lowering is handed. -/
structure Handed (l : ResponseLiteral) (term : Terminator) : Prop where
  body : term.responseBody = l.body?
  headers : term.responseHeaders = l.headers?.getD []
  nonempty : l.headers? ≠ some []

variable {l : ResponseLiteral} {term : Terminator} {m m' : RirModule} {α : Type} {idx : Nat}

theorem handed_toTerminator (h : toTerminator l = .ok term) : Handed l term := by
  unfold toTerminator at h
  split at h
  · cases h
  next stmt hparse =>
  unfold parseResponse at hparse
  split at hparse
  · cases hparse
  have hp : Parsed stmt l.body? l.headers? := by
    have hp := parsed_parseKwargs (parsed_start _) rfl hparse
    simpa [ResponseLiteral.body?, ResponseLiteral.headers?] using hp
  unfold analyzeTerm at h
  split at h
  · cases h
  cases h
  refine ⟨?_, hp.headersEq, hp.nonempty⟩
  rw [hp.flag, hp.bodyEq]
  cases l.body? <;> rfl

/-! ## The tables -/

/-- Header sets lie in the part of the pool that is in use, and the tables have their sizes. -/
structure Sound (m : RirModule) : Prop where
  slices : ∀ r ∈ m.headerSets, r.offset + r.count ≤ m.headerPoolUsed
  bodies : m.responseBodies.length ≤ kMaxResponseBodies
  sets : m.headerSets.length ≤ kMaxHeaderSets

/-- Indices into the tables of `m` mean the same in `m'`. -/
structure Grows (m m' : RirModule) : Prop where
  sound : Sound m'
  bodies : m.responseBodies <+: m'.responseBodies
  headers : m.headerSets.map m.literal <+: m'.headerSets.map m'.literal

theorem Grows.refl (h : Sound m) : Grows m m :=
  ⟨h, prefix_rfl, prefix_rfl⟩

theorem Grows.trans {m'' : RirModule} (h : Grows m m') (h' : Grows m' m'') : Grows m m'' :=
  ⟨h'.sound, h.bodies.trans h'.bodies, h.headers.trans h'.headers⟩

theorem Denotes.of_prefix {table table' : List α} {x : Option α} (h : Denotes table idx x)
    (hpre : table <+: table') : Denotes table' idx x := by
  unfold Denotes at h ⊢
  split
  · next hidx => rwa [if_pos hidx] at h
  · next hidx =>
    rw [if_neg hidx] at h
    refine ⟨h.1, ?_⟩
    obtain ⟨y, hy⟩ := Option.ne_none_iff_exists'.mp h.1
    rw [hy] at h ⊢
    obtain ⟨rest, rfl⟩ := hpre
    have hlt := (List.getElem?_eq_some_iff.mp h.2).1
    exact (List.getElem?_append_left hlt).trans h.2

/-- An interned body is found under its index. -/
theorem internResponseBody_spec (h : Sound m) {body : Str}
    (hintern : internResponseBody m body = (m', idx)) (hidx : idx ≠ 0) :
    Grows m m' ∧ m'.responseBodies[idx - 1]? = some body ∧ idx ≤ kMaxResponseBodies := by
  unfold internResponseBody at hintern
  split at hintern
  · next i hi =>
    cases hintern
    obtain ⟨hlt, hbody, -⟩ := List.findIdx?_eq_some_iff_getElem.mp hi
    refine ⟨.refl h, ?_, Nat.le_trans hlt h.bodies⟩
    rw [Nat.add_sub_cancel, List.getElem?_eq_getElem hlt, of_decide_eq_true hbody]
  · split at hintern
    · cases hintern
      exact absurd rfl hidx
    · next hroom =>
      cases hintern
      have hfits : (m.responseBodies ++ [body]).length ≤ kMaxResponseBodies := by
        rw [length_append]
        exact Nat.not_le.mp hroom
      refine ⟨⟨⟨h.slices, hfits, h.sets⟩, prefix_append .., prefix_rfl⟩, ?_, ?_⟩
      · simp
      · exact Nat.not_le.mp hroom

/-- What is read in the part of the pool that was in use does not change. -/
theorem literal_storeHeader {r : HeaderSetRef} (pair : Str × Str)
    (hr : r.offset + r.count ≤ m.headerPoolUsed) :
    (storeHeader m pair).literal r = m.literal r := by
  apply map_congr_left
  intro j hj
  have hne : r.offset + j ≠ m.headerPoolUsed := by
    have := mem_range.mp hj
    omega
  exact Prod.ext (Function.update_of_ne hne ..) (Function.update_of_ne hne ..)

/-- The loop that copies pairs: they stand behind what was there. -/
theorem foldl_storeHeader (pairs : List (Str × Str)) :
    (pairs.foldl storeHeader m).headerPoolUsed = m.headerPoolUsed + pairs.length ∧
      (pairs.foldl storeHeader m).headerSets = m.headerSets ∧
      (pairs.foldl storeHeader m).responseBodies = m.responseBodies ∧
      (∀ r : HeaderSetRef, r.offset + r.count ≤ m.headerPoolUsed →
        (pairs.foldl storeHeader m).literal r = m.literal r) ∧
      (pairs.foldl storeHeader m).literal ⟨m.headerPoolUsed, pairs.length⟩ = pairs := by
  induction pairs generalizing m with
  | nil => exact ⟨rfl, rfl, rfl, fun _ _ => rfl, rfl⟩
  | cons pair pairs ih =>
    obtain ⟨hused, hsets, hbodies, hkeep, hnew⟩ := ih (m := storeHeader m pair)
    refine ⟨?_, hsets, hbodies, ?_, ?_⟩
    · rw [foldl_cons, hused, length_cons]
      show m.headerPoolUsed + 1 + pairs.length = _
      omega
    · intro r hr
      rw [foldl_cons, hkeep r (Nat.le_succ_of_le hr), literal_storeHeader pair hr]
    · -- The first pair is kept by the rest of the loop, the others are its work.
      have hfirst := hkeep ⟨m.headerPoolUsed, 1⟩ (Nat.le_refl _)
      have hsplit : ∀ m' : RirModule, m'.literal ⟨m.headerPoolUsed, pairs.length + 1⟩ =
          m'.literal ⟨m.headerPoolUsed, 1⟩ ++ m'.literal ⟨m.headerPoolUsed + 1, pairs.length⟩ := by
        intro m'
        unfold literal
        rw [Nat.add_comm pairs.length 1, range_add, map_append, map_map]
        congr 1
        apply map_congr_left
        intro j _
        simp only [Function.comp_apply, Nat.add_assoc]
      have hone : (storeHeader m pair).literal ⟨m.headerPoolUsed, 1⟩ = [pair] := by
        show [(Function.update m.headerKeys m.headerPoolUsed pair.1 m.headerPoolUsed,
          Function.update m.headerValues m.headerPoolUsed pair.2 m.headerPoolUsed)] = _
        rw [Function.update_self, Function.update_self]
      rw [foldl_cons, length_cons, hsplit, hfirst, hone]
      exact congrArg (pair :: ·) hnew

theorem internResponseHeaders_spec (h : Sound m) {pairs : List (Str × Str)}
    (hintern : internResponseHeaders m pairs = (m', idx)) (hidx : idx ≠ 0) :
    Grows m m' ∧ (m'.headerSets.map m'.literal)[idx - 1]? = some pairs ∧
      idx ≤ kMaxHeaderSets := by
  unfold internResponseHeaders at hintern
  split at hintern
  · cases hintern
    exact absurd rfl hidx
  split at hintern
  · next i hi =>
    cases hintern
    obtain ⟨hlt, hpairs, -⟩ := List.findIdx?_eq_some_iff_getElem.mp hi
    refine ⟨.refl h, ?_, Nat.le_trans hlt h.sets⟩
    rw [Bool.and_eq_true] at hpairs
    rw [Nat.add_sub_cancel, List.getElem?_map, List.getElem?_eq_getElem hlt, Option.map_some,
      of_decide_eq_true hpairs.2]
  split at hintern
  · cases hintern
    exact absurd rfl hidx
  next hroom =>
  split at hintern
  · cases hintern
    exact absurd rfl hidx
  cases hintern
  obtain ⟨hused, hsets, hbodies, hkeep, hnew⟩ := foldl_storeHeader pairs (m := m)
  have hmap : (m.headerSets ++ [(⟨m.headerPoolUsed, pairs.length⟩ : HeaderSetRef)]).map
      (literal (pairs.foldl storeHeader m)) = m.headerSets.map m.literal ++ [pairs] := by
    rw [map_append, map_singleton, hnew]
    congr 1
    exact map_congr_left fun r hr => hkeep r (h.slices r hr)
  have hmap' : (headerSets { pairs.foldl storeHeader m with
      headerSets := (pairs.foldl storeHeader m).headerSets ++
        [⟨m.headerPoolUsed, pairs.length⟩] }).map
      (literal { pairs.foldl storeHeader m with
        headerSets := (pairs.foldl storeHeader m).headerSets ++
          [⟨m.headerPoolUsed, pairs.length⟩] }) = m.headerSets.map m.literal ++ [pairs] := by
    rw [hsets]
    exact hmap
  refine ⟨⟨⟨?_, ?_, ?_⟩, ?_, ?_⟩, ?_, ?_⟩
  · intro r hr
    rw [hsets] at hr
    rw [hused]
    obtain hr | hr := mem_append.mp hr
    · have := h.slices r hr
      omega
    · rw [mem_singleton.mp hr]
  · rw [hbodies]
    exact h.bodies
  · rw [hsets, length_append]
    exact Nat.not_le.mp hroom
  · rw [hbodies]
  · rw [hmap']
    exact prefix_append ..
  · rw [hmap', Nat.add_sub_cancel]
    simp
  · exact Nat.not_le.mp hroom

/-! ## The lowering -/

theorem bodyIdxOf_emitRetStatus {code : Int32} {b h : Nat} (hb : b ≤ kMaxResponseBodies) :
    bodyIdxOf (emitRetStatus code (UInt16.ofNat b) (UInt16.ofNat h)) = b := by
  have hlt : b < 2 ^ 16 := Nat.lt_of_le_of_lt hb (by decide)
  show (statusImm code (UInt16.ofNat b) (UInt16.ofNat h) >>> 16 &&& 0xffff).toNat = b
  rw [body_statusImm, UInt16.toNat_toUInt64, UInt16.toNat_ofNat', Nat.mod_eq_of_lt hlt]

theorem headersIdxOf_emitRetStatus {code : Int32} {b h : Nat} (hh : h ≤ kMaxHeaderSets) :
    headersIdxOf (emitRetStatus code (UInt16.ofNat b) (UInt16.ofNat h)) = h := by
  have hlt : h < 2 ^ 16 := Nat.lt_of_le_of_lt hh (by decide)
  show (statusImm code (UInt16.ofNat b) (UInt16.ofNat h) >>> 32 &&& 0xffff).toNat = h
  rw [headers_statusImm, UInt16.toNat_toUInt64, UInt16.toNat_ofNat', Nat.mod_eq_of_lt hlt]

theorem bodyIndex_spec (h : Sound m) (hidx : bodyIndex m term = .ok (m', idx)) :
    Grows m m' ∧ idx ≤ kMaxResponseBodies ∧
      Denotes m'.responseBodies idx (nonempty? term.responseBody) := by
  unfold bodyIndex at hidx
  split at hidx
  · next hnone =>
    cases hidx
    rw [hnone]
    exact ⟨.refl h, Nat.zero_le _, rfl⟩
  next body hbody =>
  rw [hbody]
  split at hidx
  · next hlen =>
    generalize hintern : internResponseBody m body = out at hidx
    dsimp only at hidx
    split at hidx
    · cases hidx
    next hi =>
    cases hidx
    obtain ⟨hgrows, hget, hle⟩ := internResponseBody_spec h hintern hi
    have hgiven : nonempty? (some body) = some body := by
      rw [nonempty?, Option.filter_some, if_pos (decide_eq_true (ne_nil_of_length_pos hlen))]
    refine ⟨hgrows, hle, ?_⟩
    rw [hgiven, Denotes, if_neg hi]
    exact ⟨nofun, hget⟩
  · next hlen =>
    cases hidx
    have hempty : body = [] := eq_nil_of_length_eq_zero (Nat.eq_zero_of_not_pos hlen)
    subst hempty
    exact ⟨.refl h, Nat.zero_le _, rfl⟩

theorem headersIndex_spec (h : Sound m) {headers : Option (List (Str × Str))}
    (hheaders : term.responseHeaders = headers.getD []) (hne : headers ≠ some [])
    (hidx : headersIndex m term = .ok (m', idx)) :
    Grows m m' ∧ idx ≤ kMaxHeaderSets ∧
      Denotes (m'.headerSets.map m'.literal) idx headers := by
  unfold headersIndex at hidx
  rw [hheaders] at hidx
  split at hidx
  · next hlen =>
    obtain ⟨pairs, rfl⟩ : ∃ pairs, headers = some pairs := by
      cases headers with
      | none => exact absurd hlen (Nat.lt_irrefl 0)
      | some pairs => exact ⟨pairs, rfl⟩
    generalize hintern : internResponseHeaders m ((some pairs).getD []) = out at hidx
    dsimp only at hidx
    split at hidx
    · cases hidx
    next hi =>
    cases hidx
    obtain ⟨hgrows, hget, hle⟩ := internResponseHeaders_spec h hintern hi
    refine ⟨hgrows, hle, ?_⟩
    rw [Denotes, if_neg hi]
    exact ⟨nofun, hget⟩
  · next hlen =>
    cases hidx
    refine ⟨.refl h, Nat.zero_le _, ?_⟩
    cases headers with
    | none => rfl
    | some pairs =>
      have hempty : pairs = [] := eq_nil_of_length_eq_zero (Nat.eq_zero_of_not_pos hlen)
      exact absurd (congrArg some hempty) hne

theorem Faithful.grows {inst : RetInst} (h : Faithful m l inst) (hgrows : Grows m m') :
    Faithful m' l inst :=
  ⟨h.body.of_prefix hgrows.bodies, h.headers.of_prefix hgrows.headers⟩

/-- A literal is lowered faithfully. -/
theorem emitTerm_spec (h : Sound m) {inst : RetInst} (hl : Handed l term)
    (hemit : emitTerm m term = .ok (m', inst)) : Grows m m' ∧ Faithful m' l inst := by
  unfold emitTerm at hemit
  cases hb : bodyIndex m term with
  | error e =>
    rw [hb] at hemit
    cases hemit
  | ok out =>
    obtain ⟨m₁, b⟩ := out
    rw [hb] at hemit
    obtain ⟨hgrows₁, hble, hbody⟩ := bodyIndex_spec h hb
    cases hh : headersIndex m₁ term with
    | error e =>
      change (do let x ← headersIndex m₁ term; _) = _ at hemit
      rw [hh] at hemit
      cases hemit
    | ok out =>
      change (do let x ← headersIndex m₁ term; _) = _ at hemit
      rw [hh] at hemit
      cases hemit
      obtain ⟨hgrows₂, hhle, hheaders⟩ :=
        headersIndex_spec hgrows₁.sound hl.headers hl.nonempty hh
      rw [hl.body] at hbody
      refine ⟨hgrows₁.trans hgrows₂, ?_, ?_⟩
      · rw [bodyIdxOf_emitRetStatus hble]
        exact hbody.of_prefix hgrows₂.bodies
      · rw [headersIdxOf_emitRetStatus hhle]
        exact hheaders

/-- So are all of them, one after the other. -/
theorem lowerTerms_spec (h : Sound m) {ls : List ResponseLiteral} {terms : List Terminator}
    {insts : List RetInst} (hls : List.Forall₂ Handed ls terms)
    (hlower : lowerTerms m terms = .ok (m', insts)) :
    Grows m m' ∧ List.Forall₂ (Faithful m') ls insts := by
  induction hls generalizing m insts with
  | nil =>
    cases hlower
    exact ⟨.refl h, .nil⟩
  | @cons l term ls terms hl _ ih =>
    rw [lowerTerms] at hlower
    cases he : emitTerm m term with
    | error e =>
      rw [he] at hlower
      cases hlower
    | ok out =>
      obtain ⟨m₁, inst⟩ := out
      rw [he] at hlower
      change (do let x ← lowerTerms m₁ terms; _) = _ at hlower
      cases hr : lowerTerms m₁ terms with
      | error e =>
        rw [hr] at hlower
        cases hlower
      | ok out =>
        rw [hr] at hlower
        cases hlower
        obtain ⟨hgrows, hinst⟩ := emitTerm_spec h hl he
        obtain ⟨hgrows', hrest⟩ := ih hgrows.sound hr
        exact ⟨hgrows.trans hgrows', .cons (hinst.grows hgrows') hrest⟩

theorem forall₂_of_mapM {ε β : Type} {f : α → Except ε β} {xs : List α} {ys : List β}
    (h : xs.mapM f = .ok ys) : List.Forall₂ (fun x y => f x = .ok y) xs ys := by
  induction xs generalizing ys with
  | nil =>
    cases h
    exact .nil
  | cons x xs ih =>
    rw [mapM_cons] at h
    cases hx : f x with
    | error e =>
      rw [hx] at h
      cases h
    | ok y =>
      rw [hx] at h
      cases hxs : xs.mapM f with
      | error e =>
        rw [hxs] at h
        cases h
      | ok zs =>
        rw [hxs] at h
        cases h
        exact .cons hx (ih hxs)

theorem faithful_of_compileLiterals {ls : List ResponseLiteral} {insts : List RetInst}
    (h : compileLiterals ls = .ok (m, insts)) : List.Forall₂ (Faithful m) ls insts := by
  unfold compileLiterals at h
  cases hterms : ls.mapM toTerminator with
  | error e =>
    rw [hterms] at h
    cases h
  | ok terms =>
    rw [hterms] at h
    have hempty : Sound {} := ⟨fun _ hr => absurd hr not_mem_nil, Nat.zero_le _, Nat.zero_le _⟩
    have hhanded : List.Forall₂ Handed ls terms :=
      (forall₂_of_mapM hterms).imp fun _ _ => handed_toTerminator
    exact (lowerTerms_spec hempty hhanded h).2

/-! ## The round trip -/

/-- An index stands for one thing only. -/
theorem Denotes.unique {table : List α} {x y : Option α} (hx : Denotes table idx x)
    (hy : Denotes table idx y) : x = y := by
  unfold Denotes at hx hy
  split at hx
  · next hidx =>
    rw [if_pos hidx] at hy
    rw [hx, hy]
  · next hidx =>
    rw [if_neg hidx] at hy
    exact hx.2.symm.trans hy.2

/-- For every program that is lowered: the indices of every return instruction stand for the body and
the headers of its literal, zero for none and for an empty body, and literals share an index only if
they agree. -/
theorem compileLiterals_faithful {ls : List ResponseLiteral} {m : RirModule} {insts : List RetInst}
    (h : compileLiterals ls = .ok (m, insts)) :
    List.Forall₂ (Faithful m) ls insts ∧
      ∀ (i j : Nat) (l l' : ResponseLiteral) (inst inst' : RetInst), ls[i]? = some l →
        insts[i]? = some inst → ls[j]? = some l' → insts[j]? = some inst' →
        (bodyIdxOf inst = bodyIdxOf inst' → nonempty? l.body? = nonempty? l'.body?) ∧
        (headersIdxOf inst = headersIdxOf inst' → l.headers? = l'.headers?) := by
  have hfaithful := faithful_of_compileLiterals h
  refine ⟨hfaithful, ?_⟩
  intro i j l l' inst inst' hl hinst hl' hinst'
  have hat : ∀ {k : Nat} {l : ResponseLiteral} {inst : RetInst}, ls[k]? = some l →
      insts[k]? = some inst → Faithful m l inst := by
    intro k l inst hl hinst
    obtain ⟨hlt, rfl⟩ := List.getElem?_eq_some_iff.mp hl
    obtain ⟨hlt', rfl⟩ := List.getElem?_eq_some_iff.mp hinst
    exact hfaithful.get hlt hlt'
  have hf := hat hl hinst
  have hf' := hat hl' hinst'
  refine ⟨fun hidx => ?_, fun hidx => ?_⟩
  · exact hf.body.unique (hidx ▸ hf'.body)
  · exact hf.headers.unique (hidx ▸ hf'.headers)

/-- Two literals with one body, one of them with a header. -/
def sampleLiterals : List ResponseLiteral :=
  [⟨ascii "200", [.body (ascii "hello")]⟩,
    ⟨ascii "404", [.headers [(ascii "X-Id", ascii "7")], .body (ascii "hello")]⟩,
    ⟨ascii "204", []⟩]

theorem compileLiterals_faithful_sampleLiterals :
    ∃ m insts, compileLiterals sampleLiterals = .ok (m, insts) ∧
      List.Forall₂ (Faithful m) sampleLiterals insts := by
  obtain ⟨⟨m, insts⟩, h⟩ : ∃ out, compileLiterals sampleLiterals = .ok out := ⟨_, rfl⟩
  exact ⟨m, insts, h, (compileLiterals_faithful h).1⟩

/-- `return response(200, body: "")` gets the index that says that there is no body. -/
theorem compileLiterals_empty_body :
    ∃ m insts, compileLiterals [⟨ascii "200", [.body []]⟩, ⟨ascii "200", []⟩] = .ok (m, insts) ∧
      insts.map bodyIdxOf = [0, 0] :=
  ⟨_, _, rfl, by decide⟩

end Rut.Compiler
