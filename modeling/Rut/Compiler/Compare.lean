import Rut.Compiler.Shape

/-!
# Lowering comparisons

A translation of `emit_eq_for_shape` and `emit_ord_for_shape` of `lower_rir.cc`. Comparing is
straight-line code: every component of both sides is compared, whatever the outcome of the others,
and `select`s fold the outcomes together.

The emitted code is read back as a function on lowered values, `eqVal` and `ordVal`; everything else
about comparisons is said of these.
-/

namespace Rut.Compiler

open Rir Lib.Ssa

namespace Shape

mutual

/-- `emit_eq_for_shape`. -/
def emitEq : Shape → ValueId → ValueId → Emit ValueId
  | .unknown, _, _ => fail .unsupportedSyntax
  | .bool, lhs, rhs => op (.cmp .eq lhs rhs)
  | .i32, lhs, rhs => op (.cmp .eq lhs rhs)
  | .str, lhs, rhs => op (.cmp .eq lhs rhs)
  | .method, lhs, rhs => op (.cmp .eq lhs rhs)
  | .byteSize, lhs, rhs => op (.cmp .eq lhs rhs)
  | .ip, lhs, rhs => op (.cmp .eq lhs rhs)
  | .tuple elems, lhs, rhs => do
    let result ← op (.constBool true)
    emitEqSlots elems (tupleFieldNames elems.length) lhs rhs result
  | .struct _ names elems, lhs, rhs => do
    let result ← op (.constBool true)
    emitEqSlots elems names lhs rhs result
  | .variant _ cases, lhs, rhs => do
    let lhsTag ← op (.structField lhs "tag" .i32)
    let rhsTag ← op (.structField rhs "tag" .i32)
    let result ← op (.cmp .eq lhsTag rhsTag)
    emitEqCases (payloadTy · cases) cases 0 lhs rhs lhsTag result

/-- The loop over slots or fields, from the first to the last. -/
def emitEqSlots : List Shape → List String → ValueId → ValueId → ValueId → Emit ValueId
  | s :: ss, name :: names, lhs, rhs, result => do
    let lhsField ← op (.structField lhs name s.ty)
    let rhsField ← op (.structField rhs name s.ty)
    let eq ← emitEq s lhsField rhsField
    let next ← op (.select result eq result)
    emitEqSlots ss names lhs rhs next
  | _, _, _, _, result => pure result

/-- The loop over cases, from the first to the last. The tag of the right side is not looked at
again. -/
def emitEqCases (payload : Carrier → Ty) :
    List (Option Shape) → Nat → ValueId → ValueId → ValueId → ValueId → Emit ValueId
  | [], _, _, _, _, result => pure result
  | none :: cs, i, lhs, rhs, lhsTag, result =>
    emitEqCases payload cs (i + 1) lhs rhs lhsTag result
  | some s :: cs, i, lhs, rhs, lhsTag, result => do
    let caseTag ← op (.constI32 i)
    let caseMatch ← op (.cmp .eq lhsTag caseTag)
    let lhsPayloadOpt ←
      op (.structField lhs s.carrier.fieldName (.optional (payload s.carrier)))
    let rhsPayloadOpt ←
      op (.structField rhs s.carrier.fieldName (.optional (payload s.carrier)))
    let lhsPayload ← op (.optUnwrap lhsPayloadOpt (payload s.carrier))
    let rhsPayload ← op (.optUnwrap rhsPayloadOpt (payload s.carrier))
    let payloadEq ← emitEq s lhsPayload rhsPayload
    let next ← op (.select caseMatch payloadEq result)
    emitEqCases payload cs (i + 1) lhs rhs lhsTag next

end

mutual

/-- `emit_ord_for_shape`: `lt` for less than, otherwise greater than. -/
def emitOrd (lt : Bool) : Shape → ValueId → ValueId → Emit ValueId
  | .i32, lhs, rhs => op (.cmp (if lt then .lt else .gt) lhs rhs)
  | .str, lhs, rhs => op (.cmp (if lt then .lt else .gt) lhs rhs)
  | .tuple elems, lhs, rhs => do
    let result ← op (.constBool false)
    emitOrdSlots lt elems (tupleFieldNames elems.length) lhs rhs result
  | .struct _ names elems, lhs, rhs => do
    let result ← op (.constBool false)
    emitOrdSlots lt elems names lhs rhs result
  | .variant _ cases, lhs, rhs => do
    let lhsTag ← op (.structField lhs "tag" .i32)
    let rhsTag ← op (.structField rhs "tag" .i32)
    let initial ← op (.cmp (if lt then .lt else .gt) lhsTag rhsTag)
    emitOrdCases lt (payloadTy · cases) cases 0 lhs rhs lhsTag initial
  | _, _, _ => fail .unsupportedSyntax

/-- The loop over slots or fields, from the last to the first. -/
def emitOrdSlots (lt : Bool) :
    List Shape → List String → ValueId → ValueId → ValueId → Emit ValueId
  | s :: ss, name :: names, lhs, rhs, result => do
    let result ← emitOrdSlots lt ss names lhs rhs result
    if s.isErrorType then fail .unsupportedSyntax else do
    let lhsField ← op (.structField lhs name s.ty)
    let rhsField ← op (.structField rhs name s.ty)
    let eq ← emitEq s lhsField rhsField
    let ord ← emitOrd lt s lhsField rhsField
    op (.select eq result ord)
  | _, _, _, _, result => pure result

/-- The loop over cases, from the last to the first. -/
def emitOrdCases (lt : Bool) (payload : Carrier → Ty) :
    List (Option Shape) → Nat → ValueId → ValueId → ValueId → ValueId → Emit ValueId
  | [], _, _, _, _, result => pure result
  | none :: cs, i, lhs, rhs, lhsTag, result =>
    emitOrdCases lt payload cs (i + 1) lhs rhs lhsTag result
  | some s :: cs, i, lhs, rhs, lhsTag, result => do
    let result ← emitOrdCases lt payload cs (i + 1) lhs rhs lhsTag result
    let caseTag ← op (.constI32 i)
    let caseMatch ← op (.cmp .eq lhsTag caseTag)
    let lhsPayloadOpt ←
      op (.structField lhs s.carrier.fieldName (.optional (payload s.carrier)))
    let rhsPayloadOpt ←
      op (.structField rhs s.carrier.fieldName (.optional (payload s.carrier)))
    let lhsPayload ← op (.optUnwrap lhsPayloadOpt (payload s.carrier))
    let rhsPayload ← op (.optUnwrap rhsPayloadOpt (payload s.carrier))
    let payloadOrd ← emitOrd lt s lhsPayload rhsPayload
    op (.select caseMatch payloadOrd result)

end

/-! ## What the code computes -/

mutual

def eqVal : Shape → Val → Val → Val
  | .unknown, _, _ => .undefined
  | .bool, x, y => x.cmpEq y
  | .i32, x, y => x.cmpEq y
  | .str, x, y => x.cmpEq y
  | .method, x, y => x.cmpEq y
  | .byteSize, x, y => x.cmpEq y
  | .ip, x, y => x.cmpEq y
  | .tuple elems, x, y => eqSlots elems (tupleFieldNames elems.length) x y (.bool true)
  | .struct _ names elems, x, y => eqSlots elems names x y (.bool true)
  | .variant _ cases, x, y => eqCases cases 0 x y ((x.field "tag").cmpEq (y.field "tag"))

def eqSlots : List Shape → List String → Val → Val → Val → Val
  | s :: ss, name :: names, x, y, acc =>
    eqSlots ss names x y (acc.select (s.eqVal (x.field name) (y.field name)) acc)
  | _, _, _, _, acc => acc

def eqCases : List (Option Shape) → Nat → Val → Val → Val → Val
  | [], _, _, _, acc => acc
  | none :: cs, i, x, y, acc => eqCases cs (i + 1) x y acc
  | some s :: cs, i, x, y, acc =>
    eqCases cs (i + 1) x y
      (((x.field "tag").cmpEq (.i32 i)).select
        (s.eqVal (x.field s.carrier.fieldName).unwrap (y.field s.carrier.fieldName).unwrap) acc)

end

/-- The sign of the difference that makes a comparison true. -/
def sign (lt : Bool) (d : Int) : Bool := if lt then d < 0 else 0 < d

mutual

def ordVal (lt : Bool) : Shape → Val → Val → Val
  | .i32, x, y => x.cmpOrd (sign lt) y
  | .str, x, y => x.cmpOrd (sign lt) y
  | .tuple elems, x, y => ordSlots lt elems (tupleFieldNames elems.length) x y (.bool false)
  | .struct _ names elems, x, y => ordSlots lt elems names x y (.bool false)
  | .variant _ cases, x, y =>
    ordCases lt cases 0 x y ((x.field "tag").cmpOrd (sign lt) (y.field "tag"))
  | _, _, _ => .undefined

def ordSlots (lt : Bool) : List Shape → List String → Val → Val → Val → Val
  | s :: ss, name :: names, x, y, acc =>
    (s.eqVal (x.field name) (y.field name)).select (ordSlots lt ss names x y acc)
      (s.ordVal lt (x.field name) (y.field name))
  | _, _, _, _, acc => acc

def ordCases (lt : Bool) : List (Option Shape) → Nat → Val → Val → Val → Val
  | [], _, _, _, acc => acc
  | none :: cs, i, x, y, acc => ordCases lt cs (i + 1) x y acc
  | some s :: cs, i, x, y, acc =>
    ((x.field "tag").cmpEq (.i32 i)).select
      (s.ordVal lt (x.field s.carrier.fieldName).unwrap (y.field s.carrier.fieldName).unwrap)
      (ordCases lt cs (i + 1) x y acc)

end

section computes

variable {c : HandlerCtx}

mutual

/-- The code for an equality computes `eqVal`, wherever it is emitted. -/
theorem computes_emitEq : (s : Shape) → s.Known → ∀ {n : Nat} {env : ValueId → Val}
    {lhs rhs : ValueId} {x y : Val}, Holds n env lhs x → Holds n env rhs y →
    Computes (eval c) (emitEq s lhs rhs) n env (eqVal s x y)
  | .unknown, hs, _, _, _, _, _, _, _, _ => hs.elim
  | .bool, _, _, _, _, _, _, _, hl, hr => computes_cmp .eq hl hr
  | .i32, _, _, _, _, _, _, _, hl, hr => computes_cmp .eq hl hr
  | .str, _, _, _, _, _, _, _, hl, hr => computes_cmp .eq hl hr
  | .method, _, _, _, _, _, _, _, hl, hr => computes_cmp .eq hl hr
  | .byteSize, _, _, _, _, _, _, _, hl, hr => computes_cmp .eq hl hr
  | .ip, _, _, _, _, _, _, _, hl, hr => computes_cmp .eq hl hr
  | .tuple elems, hs, _, _, _, _, _, _, hl, hr =>
    (computes_const _ rfl).bind fun _ _ _ h hv =>
      computes_emitEqSlots elems hs _ (hl.later h) (hr.later h) hv
  | .struct _ names elems, hs, _, _, _, _, _, _, hl, hr =>
    (computes_const _ rfl).bind fun _ _ _ h hv =>
      computes_emitEqSlots elems hs names (hl.later h) (hr.later h) hv
  | .variant _ cases, hs, _, _, _, _, _, _, hl, hr => by
    refine (computes_structField _ _ hl).bind fun _ _ _ h₁ ht => ?_
    refine (computes_structField _ _ (hr.later h₁)).bind fun _ _ _ h₂ ht' => ?_
    refine (computes_cmp .eq (ht.later h₂) ht').bind fun _ _ _ h₃ hv => ?_
    exact computes_emitEqCases _ cases hs 0 (hl.later ((h₁.trans h₂).trans h₃))
      (hr.later ((h₁.trans h₂).trans h₃)) (ht.later (h₂.trans h₃)) hv

theorem computes_emitEqSlots : (ss : List Shape) → KnownAll ss → ∀ (names : List String) {n : Nat}
    {env : ValueId → Val} {lhs rhs result : ValueId} {x y acc : Val}, Holds n env lhs x →
    Holds n env rhs y → Holds n env result acc →
    Computes (eval c) (emitEqSlots ss names lhs rhs result) n env (eqSlots ss names x y acc)
  | [], _, [], _, _, _, _, _, _, _, _, _, _, ha => ha.computes_pure
  | [], _, _ :: _, _, _, _, _, _, _, _, _, _, _, ha => ha.computes_pure
  | _ :: _, _, [], _, _, _, _, _, _, _, _, _, _, ha => ha.computes_pure
  | s :: ss, hs, name :: names, _, _, _, _, _, _, _, _, hl, hr, ha => by
    refine (computes_structField _ _ hl).bind fun _ _ _ h₁ hx => ?_
    refine (computes_structField _ _ (hr.later h₁)).bind fun _ _ _ h₂ hy => ?_
    refine (computes_emitEq s hs.1 (hx.later h₂) hy).bind fun _ _ _ h₃ he => ?_
    have h₁₃ := (h₁.trans h₂).trans h₃
    refine (computes_select (ha.later h₁₃) he (ha.later h₁₃)).bind fun _ _ _ h₄ hv => ?_
    exact computes_emitEqSlots ss hs.2 names (hl.later (h₁₃.trans h₄)) (hr.later (h₁₃.trans h₄)) hv

theorem computes_emitEqCases (payload : Carrier → Ty) : (cs : List (Option Shape)) → KnownCases cs →
    ∀ (i : Nat) {n : Nat} {env : ValueId → Val} {lhs rhs lhsTag result : ValueId} {x y acc : Val},
    Holds n env lhs x → Holds n env rhs y → Holds n env lhsTag (x.field "tag") →
    Holds n env result acc →
    Computes (eval c) (emitEqCases payload cs i lhs rhs lhsTag result) n env (eqCases cs i x y acc)
  | [], _, _, _, _, _, _, _, _, _, _, _, _, _, _, ha => ha.computes_pure
  | none :: cs, hs, i, _, _, _, _, _, _, _, _, _, hl, hr, ht, ha =>
    computes_emitEqCases payload cs hs (i + 1) hl hr ht ha
  | some s :: cs, hs, i, _, _, _, _, _, _, _, _, _, hl, hr, ht, ha => by
    refine (computes_const _ rfl).bind fun _ _ _ h₁ hi => ?_
    refine (computes_cmp .eq (ht.later h₁) hi).bind fun _ _ _ h₂ hm => ?_
    have h₁₂ := h₁.trans h₂
    refine (computes_structField _ _ (hl.later h₁₂)).bind fun _ _ _ h₃ hlo => ?_
    have h₁₃ := h₁₂.trans h₃
    refine (computes_structField _ _ (hr.later h₁₃)).bind fun _ _ _ h₄ hro => ?_
    refine (computes_optUnwrap _ (hlo.later h₄)).bind fun _ _ _ h₅ hlp => ?_
    refine (computes_optUnwrap _ (hro.later h₅)).bind fun _ _ _ h₆ hrp => ?_
    refine (computes_emitEq s hs.1 (hlp.later h₆) hrp).bind fun _ _ _ h₇ he => ?_
    have h₃₇ := ((h₃.trans h₄).trans (h₅.trans h₆)).trans h₇
    refine (computes_select (hm.later h₃₇) he (ha.later (h₁₂.trans h₃₇))).bind
      fun _ _ _ h₈ hv => ?_
    have h₁₈ := (h₁₂.trans h₃₇).trans h₈
    exact computes_emitEqCases payload cs hs.2 (i + 1) (hl.later h₁₈) (hr.later h₁₈)
      (ht.later h₁₈) hv

end

theorem cmp_sign (lt : Bool) (x y : Val) :
    Val.cmp (if lt then .lt else .gt) x y = x.cmpOrd (sign lt) y := by
  cases lt <;> rfl

theorem computes_sign (lt : Bool) {n : Nat} {env : ValueId → Val} {v w : ValueId} {x y : Val}
    (hv : Holds n env v x) (hw : Holds n env w y) :
    Computes (eval c) (op (.cmp (if lt then .lt else .gt) v w) : Emit ValueId) n env
      (x.cmpOrd (sign lt) y) :=
  cmp_sign lt x y ▸ computes_cmp _ hv hw

mutual

/-- The code for an order computes `ordVal`, wherever it is emitted. -/
theorem computes_emitOrd (lt : Bool) : (s : Shape) → s.Orderable → ∀ {n : Nat}
    {env : ValueId → Val} {lhs rhs : ValueId} {x y : Val}, Holds n env lhs x → Holds n env rhs y →
    Computes (eval c) (emitOrd lt s lhs rhs) n env (ordVal lt s x y)
  | .i32, _, _, _, _, _, _, _, hl, hr => computes_sign lt hl hr
  | .str, _, _, _, _, _, _, _, hl, hr => computes_sign lt hl hr
  | .tuple elems, hs, _, _, _, _, _, _, hl, hr =>
    (computes_const _ rfl).bind fun _ _ _ h hv =>
      computes_emitOrdSlots lt elems hs _ (hl.later h) (hr.later h) hv
  | .struct _ names elems, hs, _, _, _, _, _, _, hl, hr =>
    (computes_const _ rfl).bind fun _ _ _ h hv =>
      computes_emitOrdSlots lt elems hs names (hl.later h) (hr.later h) hv
  | .variant _ cases, hs, _, _, _, _, _, _, hl, hr => by
    refine (computes_structField _ _ hl).bind fun _ _ _ h₁ ht => ?_
    refine (computes_structField _ _ (hr.later h₁)).bind fun _ _ _ h₂ ht' => ?_
    refine (computes_sign lt (ht.later h₂) ht').bind fun _ _ _ h₃ hv => ?_
    exact computes_emitOrdCases lt _ cases hs 0 (hl.later ((h₁.trans h₂).trans h₃))
      (hr.later ((h₁.trans h₂).trans h₃)) (ht.later (h₂.trans h₃)) hv

theorem computes_emitOrdSlots (lt : Bool) : (ss : List Shape) → OrderableAll ss →
    ∀ (names : List String) {n : Nat} {env : ValueId → Val} {lhs rhs result : ValueId}
    {x y acc : Val}, Holds n env lhs x → Holds n env rhs y → Holds n env result acc →
    Computes (eval c) (emitOrdSlots lt ss names lhs rhs result) n env (ordSlots lt ss names x y acc)
  | [], _, [], _, _, _, _, _, _, _, _, _, _, ha => ha.computes_pure
  | [], _, _ :: _, _, _, _, _, _, _, _, _, _, _, ha => ha.computes_pure
  | _ :: _, _, [], _, _, _, _, _, _, _, _, _, _, ha => ha.computes_pure
  | s :: ss, hs, name :: names, _, _, _, _, _, _, _, _, hl, hr, ha => by
    rw [emitOrdSlots]
    refine (computes_emitOrdSlots lt ss hs.2.2 names hl hr ha).bind fun _ _ _ h₁ hv => ?_
    rw [if_neg (by simp [hs.1])]
    refine (computes_structField _ _ (hl.later h₁)).bind fun _ _ _ h₂ hx => ?_
    refine (computes_structField _ _ (hr.later (h₁.trans h₂))).bind fun _ _ _ h₃ hy => ?_
    refine (computes_emitEq s hs.2.1.known (hx.later h₃) hy).bind fun _ _ _ h₄ he => ?_
    refine (computes_emitOrd lt s hs.2.1 (hx.later (h₃.trans h₄)) (hy.later h₄)).bind
      fun _ _ _ h₅ ho => ?_
    exact computes_select (he.later h₅) (hv.later ((h₂.trans h₃).trans (h₄.trans h₅))) ho

theorem computes_emitOrdCases (lt : Bool) (payload : Carrier → Ty) : (cs : List (Option Shape)) →
    OrderableCases cs → ∀ (i : Nat) {n : Nat} {env : ValueId → Val}
    {lhs rhs lhsTag result : ValueId} {x y acc : Val}, Holds n env lhs x → Holds n env rhs y →
    Holds n env lhsTag (x.field "tag") → Holds n env result acc →
    Computes (eval c) (emitOrdCases lt payload cs i lhs rhs lhsTag result) n env
      (ordCases lt cs i x y acc)
  | [], _, _, _, _, _, _, _, _, _, _, _, _, _, _, ha => ha.computes_pure
  | none :: cs, hs, i, _, _, _, _, _, _, _, _, _, hl, hr, ht, ha =>
    computes_emitOrdCases lt payload cs hs (i + 1) hl hr ht ha
  | some s :: cs, hs, i, _, _, _, _, _, _, _, _, _, hl, hr, ht, ha => by
    refine (computes_emitOrdCases lt payload cs hs.2 (i + 1) hl hr ht ha).bind
      fun _ _ _ h₁ hv => ?_
    refine (computes_const _ rfl).bind fun _ _ _ h₂ hi => ?_
    have h₁₂ := h₁.trans h₂
    refine (computes_cmp .eq (ht.later h₁₂) hi).bind fun _ _ _ h₃ hm => ?_
    have h₁₃ := h₁₂.trans h₃
    refine (computes_structField _ _ (hl.later h₁₃)).bind fun _ _ _ h₄ hlo => ?_
    refine (computes_structField _ _ (hr.later (h₁₃.trans h₄))).bind fun _ _ _ h₅ hro => ?_
    refine (computes_optUnwrap _ (hlo.later h₅)).bind fun _ _ _ h₆ hlp => ?_
    refine (computes_optUnwrap _ (hro.later h₆)).bind fun _ _ _ h₇ hrp => ?_
    refine (computes_emitOrd lt s hs.1 (hlp.later h₇) hrp).bind fun _ _ _ h₈ ho => ?_
    have h₄₈ := ((h₄.trans h₅).trans (h₆.trans h₇)).trans h₈
    exact computes_select (hm.later h₄₈) ho (hv.later ((h₂.trans h₃).trans h₄₈))

end

end computes

end Shape

end Rut.Compiler
