import Rut.Lib.Ssa

/-!
# The route IR

The values and the side-effect free operations of the IR that routes are lowered to (`rir.h`), the
types its builder checks (`rir_builder.h`), and what the generated code computes for each operation
(`codegen.cc`).

A value that the generated code leaves undefined is `Val.undefined`. It arises where the payload of a
nil optional is read: only the payloads of a nil integer and of a nil string are set, to zero and to
the empty string. An operation on an undefined operand is undefined, except that a `select` ignores
the branch it does not take.
-/

namespace Rut.Compiler

abbrev Str := List UInt8

inductive FrontendError where
  | outOfMemory
  | unsupportedSyntax
  | tooManyItems
  | unexpectedToken
  | invalidInteger
  | invalidStatusCode
  | unexpectedChar
  | unterminatedString
  | tooManyTokens
deriving DecidableEq, Repr

namespace Rir

abbrev ValueId := Nat

/-- A struct type is known by the name of its definition. -/
inductive Ty where
  | bool
  | i32
  | str
  | method
  | byteSize
  | ip
  | optional (inner : Ty)
  | struct (name : String) (fields : List (String × Ty))

def typesEqual : Ty → Ty → Bool
  | .bool, .bool => true
  | .i32, .i32 => true
  | .str, .str => true
  | .method, .method => true
  | .byteSize, .byteSize => true
  | .ip, .ip => true
  | .optional a, .optional b => typesEqual a b
  | .struct n _, .struct m _ => n == m
  | _, _ => false

def Ty.fields : Ty → List (String × Ty)
  | .struct _ fields => fields
  | _ => []

inductive Val where
  | undefined
  | bool (b : Bool)
  | i32 (n : Int)
  | str (s : Str)
  | method (m : Nat)
  | byteSize (n : Nat)
  | ip (n : Nat)
  | opt (has : Bool) (payload : Val)
  | struct (fields : List (String × Val))
deriving Inhabited

/-- What a handler can read of its request. -/
inductive ReqField where
  | header (name : Str)
  | param (name : Str)
  | cookie (name : Str)
  | query (name : Str)
  | queryString
  | path
  | pathOnly
  | body
  | keepAlive
  | chunked
  | hasContentLength
  | http10
  | http11
  | httpVersion
  | contentLength
  | remoteAddr
  | method
deriving DecidableEq, Repr

def ReqField.ty : ReqField → Ty
  | .header _ | .cookie _ | .query _ | .queryString => .optional .str
  | .param _ | .path | .pathOnly | .body | .httpVersion => .str
  | .keepAlive | .chunked | .hasContentLength | .http10 | .http11 => .bool
  | .contentLength => .byteSize
  | .remoteAddr => .ip
  | .method => .method

inductive Cmp where
  | eq | lt | gt | ge
deriving DecidableEq, Repr

inductive Op where
  | constBool (b : Bool)
  | constI32 (n : Int)
  | constStr (s : Str)
  | constMethod (m : Nat)
  | req (field : ReqField)
  | resumeEventKind
  | resumeEventResult
  | ctxLoadSlotI32 (slot : Nat)
  | strRegexMatch (s : ValueId) (pattern : Str)
  | cmp (c : Cmp) (lhs rhs : ValueId)
  | structField (s : ValueId) (name : String) (ty : Ty)
  | structCreate (ty : Ty) (values : List ValueId)
  | optNil (inner : Ty)
  | optWrap (v : ValueId)
  | optIsNil (v : ValueId)
  | optUnwrap (v : ValueId) (inner : Ty)
  | select (cond thenVal elseVal : ValueId)

abbrev Emit := Lib.Ssa.Emit Op FrontendError

export Lib.Ssa.Emit (op fail)

/-! ## What the operations compute -/

/-- `rut_helper_str_cmp`: bytes are compared as unsigned numbers, then the lengths. -/
def strCmp : Str → Str → Int
  | [], [] => 0
  | [], _ :: _ => -1
  | _ :: _, [] => 1
  | a :: as, b :: bs => if a < b then -1 else if b < a then 1 else strCmp as bs

namespace Val

def field (v : Val) (name : String) : Val :=
  match v with
  | .struct fields => (fields.lookup name).getD .undefined
  | _ => .undefined

/-- The payload, whether it is set or not. -/
def unwrap : Val → Val
  | .opt _ payload => payload
  | _ => .undefined

def isNil : Val → Val
  | .opt has _ => .bool !has
  | _ => .undefined

def nil : Ty → Val
  | .i32 => .opt false (.i32 0)
  | .str => .opt false (.str [])
  | _ => .opt false .undefined

def select : Val → Val → Val → Val
  | .bool true, t, _ => t
  | .bool false, _, e => e
  | _, _, _ => .undefined

def cmpEq : Val → Val → Val
  | .bool a, .bool b => .bool (a == b)
  | .i32 a, .i32 b => .bool (a == b)
  | .str a, .str b => .bool (a == b)
  | .method a, .method b => .bool (a == b)
  | .byteSize a, .byteSize b => .bool (a == b)
  | .ip a, .ip b => .bool (a == b)
  | _, _ => .undefined

/-- Ordered comparisons of integers and strings; `p` reads the sign of the difference. -/
def cmpOrd (p : Int → Bool) : Val → Val → Val
  | .i32 a, .i32 b => .bool (p (a - b))
  | .str a, .str b => .bool (p (strCmp a b))
  | _, _ => .undefined

def cmp : Cmp → Val → Val → Val
  | .eq => cmpEq
  | .lt => cmpOrd (· < 0)
  | .gt => cmpOrd (0 < ·)
  | .ge => cmpOrd (0 ≤ ·)

end Val

/-- The request and the frame of a handler, as the generated code reads them. -/
structure HandlerCtx where
  request : ReqField → Val
  regex : Str → Str → Bool
  resumeEventKind : Int
  resumeEventResult : Int
  slots : List Int
deriving Inhabited

/-- A slot the frame does not have reads the event that resumed the handler. -/
def HandlerCtx.loadSlot (c : HandlerCtx) (slot : Nat) : Int :=
  match c.slots[slot]? with
  | some n => n
  | none => if slot % 2 = 0 then c.resumeEventKind else c.resumeEventResult

def eval (c : HandlerCtx) (env : ValueId → Val) : Op → Val
  | .constBool b => .bool b
  | .constI32 n => .i32 n
  | .constStr s => .str s
  | .constMethod m => .method m
  | .req field => c.request field
  | .resumeEventKind => .i32 c.resumeEventKind
  | .resumeEventResult => .i32 c.resumeEventResult
  | .ctxLoadSlotI32 slot => .i32 (c.loadSlot slot)
  | .strRegexMatch s pattern =>
    match env s with
    | .str text => .bool (c.regex text pattern)
    | _ => .undefined
  | .cmp o lhs rhs => Val.cmp o (env lhs) (env rhs)
  | .structField s name _ => (env s).field name
  | .structCreate ty values => .struct ((ty.fields.map (·.1)).zip (values.map env))
  | .optNil inner => Val.nil inner
  | .optWrap v => .opt true (env v)
  | .optIsNil v => (env v).isNil
  | .optUnwrap v _ => (env v).unwrap
  | .select cond thenVal elseVal => Val.select (env cond) (env thenVal) (env elseVal)

section rules

open Lib.Ssa

variable {c : HandlerCtx} {n : Nat} {env : ValueId → Val} {v w u : ValueId} {x y z : Val}

/-- The value of an operation is what `eval` gives for it where it is emitted. -/
theorem computes_const (o : Op) (h : eval c env o = x) :
    Computes (eval c) (op o : Emit ValueId) n env x :=
  computes_op h

theorem computes_cmp (o : Cmp) (hv : Holds n env v x) (hw : Holds n env w y) :
    Computes (eval c) (op (.cmp o v w) : Emit ValueId) n env (Val.cmp o x y) := by
  apply computes_op
  show Val.cmp o (env v) (env w) = _
  rw [hv.means, hw.means]

theorem computes_structField (name : String) (ty : Ty) (hv : Holds n env v x) :
    Computes (eval c) (op (.structField v name ty) : Emit ValueId) n env (x.field name) := by
  apply computes_op
  show (env v).field name = _
  rw [hv.means]

theorem computes_optWrap (hv : Holds n env v x) :
    Computes (eval c) (op (.optWrap v) : Emit ValueId) n env (.opt true x) := by
  apply computes_op
  show Val.opt true (env v) = _
  rw [hv.means]

theorem computes_optUnwrap (ty : Ty) (hv : Holds n env v x) :
    Computes (eval c) (op (.optUnwrap v ty) : Emit ValueId) n env x.unwrap := by
  apply computes_op
  show (env v).unwrap = _
  rw [hv.means]

theorem computes_select (hv : Holds n env v x) (hw : Holds n env w y) (hu : Holds n env u z) :
    Computes (eval c) (op (.select v w u) : Emit ValueId) n env (Val.select x y z) := by
  apply computes_op
  show Val.select (env v) (env w) (env u) = _
  rw [hv.means, hw.means, hu.means]

end rules

/-! ## What the builder accepts -/

def Ty.orderable : Ty → Bool
  | .i32 | .str | .byteSize => true
  | _ => false

/-- The type the builder gives to the value of an operation; `none` where it refuses it. -/
def typeOf (types : ValueId → Option Ty) : Op → Option Ty
  | .constBool _ => some .bool
  | .constI32 _ => some .i32
  | .constStr _ => some .str
  | .constMethod _ => some .method
  | .req field => some field.ty
  | .resumeEventKind | .resumeEventResult | .ctxLoadSlotI32 _ => some .i32
  | .strRegexMatch s _ =>
    match types s with
    | some .str => some .bool
    | _ => none
  | .cmp o lhs rhs =>
    match types lhs, types rhs with
    | some a, some b =>
      if typesEqual a b && (o == .eq || a.orderable) then some .bool else none
    | _, _ => none
  | .structField s name ty =>
    match types s with
    | some (.struct _ fields) =>
      match fields.lookup name with
      | some fieldTy => if typesEqual fieldTy ty then some ty else none
      | none => none
    | _ => none
  | .structCreate ty values =>
    match ty with
    | .struct _ fields =>
      if values.length == fields.length &&
          (values.zip fields).all (fun x => (types x.1).any (typesEqual · x.2.2)) then
        some ty
      else none
    | _ => none
  | .optNil inner => some (.optional inner)
  | .optWrap v => (types v).map .optional
  | .optIsNil v =>
    match types v with
    | some (.optional _) => some .bool
    | _ => none
  | .optUnwrap v inner =>
    match types v with
    | some (.optional ty) => if typesEqual ty inner then some inner else none
    | _ => none
  | .select cond thenVal elseVal =>
    match types cond, types thenVal, types elseVal with
    | some .bool, some a, some b => if typesEqual a b then some a else none
    | _, _, _ => none

/-- The builder accepts every operation of a piece of code. -/
def accepts (types : ValueId → Option Ty) (n : Nat) (ops : List Op) : Bool :=
  (List.range ops.length).all fun k => (Lib.Ssa.exec typeOf n ops types (n + k)).isSome

end Rir

end Rut.Compiler
