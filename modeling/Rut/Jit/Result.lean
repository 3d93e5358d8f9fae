import Rut.Conn.Basic
import Rut.Lib.Ssa
import Rut.Sim.Drive

/-!
# Results of handlers

A handler returns one 64-bit word. The word is put together three times over: by the builder of the
route IR, which packs the fields of a terminator into its immediate (`rir_builder.h`); by the code
generator, which takes them out again and emits the code that shifts them into place (`codegen.cc`);
and the runtime takes that word apart (`handler_abi.h`, `jit_dispatch.h`).

    immediate of a status     status 0..16, body 16..32, header set 32..48
    immediate of a yield      payload 0..32, next state 32..48, kind 48..56
    result                    action 0..8, status 8..24, upstream 24..40, next state 40..56, kind 56..64

A word is read as a number: fields that do not overlap add up (`toNat_or_shiftLeft`), and to take one
out is to divide.
-/

namespace Rut.Jit

open Lib.Ssa Sim UInt16

/-! ## Integer code

What the code generator emits here are constants and four operations of LLVM. -/

/-- An integer, or a value without a meaning. -/
inductive LVal where
  | i1 (b : Bool)
  | i8 (n : UInt8)
  | i16 (n : UInt16)
  | i32 (n : UInt32)
  | i64 (n : UInt64)
  | undefined
deriving DecidableEq, Repr

inductive LOp where
  | const32 (n : UInt32)
  | const64 (n : UInt64)
  | zext32 (v : Nat)
  | zext64 (v : Nat)
  | and32 (a b : Nat)
  | shl64 (a b : Nat)
  | or64 (a b : Nat)
deriving DecidableEq, Repr

def evalOp (env : Nat → LVal) : LOp → LVal
  | .const32 n => .i32 n
  | .const64 n => .i64 n
  | .zext32 v =>
    match env v with
    | .i1 b => .i32 (if b then 1 else 0)
    | .i8 n => .i32 n.toUInt32
    | .i16 n => .i32 n.toUInt32
    | _ => .undefined
  | .zext64 v =>
    match env v with
    | .i32 n => .i64 n.toUInt64
    | _ => .undefined
  | .and32 a b =>
    match env a, env b with
    | .i32 m, .i32 n => .i32 (m &&& n)
    | _, _ => .undefined
  | .shl64 a b =>
    match env a, env b with
    | .i64 m, .i64 n => if n < 64 then .i64 (m <<< n) else .undefined
    | _, _ => .undefined
  | .or64 a b =>
    match env a, env b with
    | .i64 m, .i64 n => .i64 (m ||| n)
    | _, _ => .undefined

abbrev EmitL := Emit LOp Empty

def const32 (n : UInt32) : EmitL Nat := Emit.op (.const32 n)

def const64 (n : UInt64) : EmitL Nat := Emit.op (.const64 n)

/-! ## Terminators of the route IR -/

/-- The instructions that end a handler, with a value operand or with an immediate. -/
inductive RetInst where
  | retStatus (imm : UInt64)
  | retStatusValue (code : Nat)
  | retForward (upstream : Nat)
  | yieldTimer (imm : UInt64)
deriving DecidableEq, Repr

/-- `static_cast<u64>` of an `i32`. -/
def signExtend (code : Int32) : UInt64 := code.toInt64.toUInt64

def statusImm (code : Int32) (bodyIdx headersIdx : UInt16) : UInt64 :=
  (signExtend code &&& (0xffff : UInt64)) ||| (bodyIdx.toUInt64 <<< 16) |||
    (headersIdx.toUInt64 <<< 32)

/-- `emit_ret_status` with a literal. -/
def emitRetStatus (code : Int32) (bodyIdx headersIdx : UInt16) : RetInst :=
  .retStatus (statusImm code bodyIdx headersIdx)

/-- `emit_yield_event`: the next state has to be one of the yields of the function. -/
def emitYieldEvent (yieldCount : Nat) (kind : UInt8) (payload : UInt32) (nextState : UInt16) :
    Option RetInst :=
  if yieldCount = 0 ∨ nextState = 0 ∨ nextState.toNat > yieldCount then none
  else some (.yieldTimer ((kind.toUInt64 <<< 48) ||| (nextState.toUInt64 <<< 32) |||
    payload.toUInt64))

/-! ## Generated code -/

/-- `HandlerAction` -/
def actionReturnStatus : UInt64 := 0

def actionForward : UInt64 := 1

def actionYield : UInt64 := 2

def kindTimer : UInt8 := 3

def makeResultYield (nextState : UInt16) (yieldKind : UInt8) (payload : UInt32) : UInt64 :=
  actionYield ||| (payload.toUInt64 <<< 8) ||| (nextState.toUInt64 <<< 40) |||
    (yieldKind.toUInt64 <<< 56)

/-- No kind has been recorded: it is a timer. -/
def recordedKind (kind : UInt8) : UInt8 := if kind = 0 then kindTimer else kind

/-- An operand as an `i32`; `isI32` is what its LLVM type says. -/
def asI32 (isI32 : Nat → Bool) (v : Nat) : EmitL Nat :=
  if isI32 v then pure v else Emit.op (.zext32 v)

/-- A slot of the word that is zero is left out. -/
def orSlot (result : Nat) (idx amount : UInt64) : EmitL Nat :=
  if idx ≠ 0 then do
    let slot ← const64 (idx <<< amount)
    Emit.op (.or64 result slot)
  else pure result

/-- `RetStatus` from where the status is an `i32` value. -/
def emitStatusResult (status : Nat) (bodyIdx headersIdx : UInt64) : EmitL Nat := do
  let action ← const64 actionReturnStatus
  let statusExt ← Emit.op (.zext64 status)
  let eight ← const64 8
  let statusShifted ← Emit.op (.shl64 statusExt eight)
  let result ← Emit.op (.or64 action statusShifted)
  let result ← orSlot result bodyIdx 24
  orSlot result headersIdx 40

/-- `emit_instruction` on these; the value is the one that `ret` returns. -/
def emitInstruction (isI32 : Nat → Bool) : RetInst → EmitL Nat
  | .retStatus imm => do
    let status ← const32 (imm &&& 0xffff).toUInt32
    emitStatusResult status ((imm >>> 16) &&& 0xffff) ((imm >>> 32) &&& 0xffff)
  | .retStatusValue code => do
    let status ← asI32 isI32 code
    let mask ← const32 0xffff
    let status ← Emit.op (.and32 status mask)
    emitStatusResult status 0 0
  | .retForward upstream => do
    let upstream ← asI32 isI32 upstream
    let action ← const64 actionForward
    let upExt ← Emit.op (.zext64 upstream)
    let amount ← const64 24
    let shifted ← Emit.op (.shl64 upExt amount)
    Emit.op (.or64 action shifted)
  | .yieldTimer imm =>
    const64 (makeResultYield ((imm >>> 32) &&& 0xffff).toUInt16
      (recordedKind ((imm >>> 48) &&& 0xff).toUInt8) (imm &&& 0xffffffff).toUInt32)

/-- The block of the dispatch prologue that yields for the wait with index `si`. -/
def emitPrologueYield (si : Nat) (kind : UInt8) (payload : UInt32) : EmitL Nat :=
  const64 (makeResultYield (UInt16.ofNat (si + 1)) (recordedKind kind) payload)

/-! ## The runtime -/

/-- The kinds that the event loop waits for. -/
def eventKind : Sim.YieldKind → Option Rut.YieldKind
  | .any => some .any
  | .recv => some .recv
  | .send => some .send
  | .upstreamConnect => some .upstreamConnect
  | .upstreamRecv => some .upstreamRecv
  | .upstreamSend => some .upstreamSend
  | _ => none

def yieldOutcome (kind : Sim.YieldKind) (nextState : UInt16) (payload : Nat) : JitDispatchOutcome :=
  if kind = .timer then .timerYield nextState payload
  else
    match eventKind kind with
    | some kind => .eventYield kind nextState payload
    | none => .error

/-- `invoke_jit_handler`, from the unpacked word on. -/
def dispatchOutcome (r : HandlerResult) : JitDispatchOutcome :=
  match r.action with
  | .returnStatus => .returnStatus r.statusCode r.upstreamId.toNat r.nextState.toNat
  | .forward => .forward r.upstreamId
  | .yield => yieldOutcome r.yieldKind r.nextState r.yieldPayload
  | .other _ => .error

/-! ## Words as numbers -/

theorem toNat_or_shiftLeft {x y : UInt64} {k n : Nat} (hk : k < 64) (hx : x.toNat < 2 ^ k)
    (hy : y.toNat < 2 ^ n) (hn : n + k ≤ 64) :
    (x ||| (y <<< UInt64.ofNat k)).toNat = x.toNat + y.toNat * 2 ^ k := by
  have hamount : (UInt64.ofNat k).toNat % 64 = k := by
    rw [UInt64.toNat_ofNat']
    omega
  have hfits : y.toNat * 2 ^ k < 2 ^ 64 :=
    calc y.toNat * 2 ^ k < 2 ^ n * 2 ^ k := Nat.mul_lt_mul_of_pos_right hy (Nat.two_pow_pos k)
      _ = 2 ^ (n + k) := (Nat.pow_add ..).symm
      _ ≤ 2 ^ 64 := Nat.pow_le_pow_right (by decide) hn
  rw [UInt64.toNat_or, UInt64.toNat_shiftLeft, hamount, Nat.shiftLeft_eq, Nat.mod_eq_of_lt hfits,
    Nat.or_comm, ← Nat.shiftLeft_eq, ← Nat.shiftLeft_add_eq_or_of_lt hx, Nat.add_comm,
    Nat.shiftLeft_eq]

/-- A word is taken apart into what it was put together from. -/
theorem unpack_eq {x : UInt64} (action kind : UInt8) {status upstream next : UInt16}
    (h : x.toNat = action.toNat + status.toNat * 2 ^ 8 + upstream.toNat * 2 ^ 24 +
      next.toNat * 2 ^ 40 + kind.toNat * 2 ^ 56) :
    HandlerResult.unpack x = ⟨.ofByte action, status, upstream, next, .ofByte kind⟩ := by
  have haction := action.toNat_lt
  have hstatus := status.toNat_lt
  have hupstream := upstream.toNat_lt
  have hnext := next.toNat_lt
  have hkind := kind.toNat_lt
  have h₁ : x.toUInt8 = action := by
    apply UInt8.toNat_inj.mp
    rw [UInt64.toNat_toUInt8, h]
    omega
  have h₂ : (x >>> 8).toUInt16 = status := by
    apply UInt16.toNat_inj.mp
    rw [UInt64.toNat_toUInt16, UInt64.toNat_shiftRight, h, Nat.shiftRight_eq_div_pow]
    show _ / 2 ^ 8 % _ = _
    omega
  have h₃ : (x >>> 24).toUInt16 = upstream := by
    apply UInt16.toNat_inj.mp
    rw [UInt64.toNat_toUInt16, UInt64.toNat_shiftRight, h, Nat.shiftRight_eq_div_pow]
    show _ / 2 ^ 24 % _ = _
    omega
  have h₄ : (x >>> 40).toUInt16 = next := by
    apply UInt16.toNat_inj.mp
    rw [UInt64.toNat_toUInt16, UInt64.toNat_shiftRight, h, Nat.shiftRight_eq_div_pow]
    show _ / 2 ^ 40 % _ = _
    omega
  have h₅ : (x >>> 56).toUInt8 = kind := by
    apply UInt8.toNat_inj.mp
    rw [UInt64.toNat_toUInt8, UInt64.toNat_shiftRight, h, Nat.shiftRight_eq_div_pow]
    show _ / 2 ^ 56 % _ = _
    omega
  rw [HandlerResult.unpack, h₁, h₂, h₃, h₄, h₅]

/-! ## What the code computes -/

def statusWord (status : UInt32) (bodyIdx headersIdx : UInt64) : UInt64 :=
  (actionReturnStatus ||| status.toUInt64 <<< 8) ||| bodyIdx <<< 24 ||| headersIdx <<< 40

variable {n : Nat} {env : Nat → LVal}

theorem computes_or {a b : Nat} {x y : UInt64} (ha : Lib.Ssa.Holds n env a (.i64 x))
    (hb : Lib.Ssa.Holds n env b (.i64 y)) :
    Computes evalOp (Emit.op (.or64 a b) : EmitL Nat) n env (.i64 (x ||| y)) := by
  apply computes_op
  simp only [evalOp, ha.means, hb.means]

theorem computes_orSlot {v : Nat} {x idx k : UInt64} (hv : Lib.Ssa.Holds n env v (.i64 x)) :
    Computes evalOp (orSlot v idx k) n env (.i64 (x ||| idx <<< k)) := by
  unfold orSlot
  by_cases hidx : idx = 0
  · rw [if_neg (not_not_intro hidx), hidx, UInt64.zero_shiftLeft, UInt64.or_zero]
    exact hv.computes_pure
  · rw [if_pos hidx]
    apply (computes_op (x := .i64 (idx <<< k)) rfl).bind
    intro slot n' env' hl hslot
    exact computes_or (hv.later hl) hslot

theorem computes_emitStatusResult {status : Nat} {code : UInt32} {bodyIdx headersIdx : UInt64}
    (h : Lib.Ssa.Holds n env status (.i32 code)) :
    Computes evalOp (emitStatusResult status bodyIdx headersIdx) n env
      (.i64 (statusWord code bodyIdx headersIdx)) := by
  apply (computes_op (x := .i64 actionReturnStatus) rfl).bind
  intro action n₁ env₁ hl₁ haction
  apply (computes_op (x := .i64 code.toUInt64) (by simp only [evalOp, (h.later hl₁).means])).bind
  intro ext n₂ env₂ hl₂ hext
  apply (computes_op (x := .i64 8) rfl).bind
  intro eight n₃ env₃ hl₃ height
  apply (computes_op (x := .i64 (code.toUInt64 <<< 8))
    (by simp only [evalOp, (hext.later hl₃).means, height.means]; rfl)).bind
  intro shifted n₄ env₄ hl₄ hshifted
  have haction₄ := haction.later ((hl₂.trans hl₃).trans hl₄)
  apply (computes_or haction₄ hshifted).bind
  intro result n₅ env₅ _ hresult
  apply (computes_orSlot hresult).bind
  intro result' n₆ env₆ _ hresult'
  exact computes_orSlot hresult'

/-- An operand of 1, 8, 16 or 32 bits, as `asI32` reads it. -/
def asI32Val : LVal → Option UInt32
  | .i1 b => some (if b then 1 else 0)
  | .i8 m => some m.toUInt32
  | .i16 m => some m.toUInt32
  | .i32 m => some m
  | _ => none

/-- The LLVM types say which operands are 32 bits wide. -/
def Typed (isI32 : Nat → Bool) (env : Nat → LVal) (v : Nat) : Prop :=
  isI32 v = true ↔ ∃ m, env v = .i32 m

/-- Narrow operands are extended. -/
theorem computes_asI32 {isI32 : Nat → Bool} {v : Nat} {x : LVal} {m : UInt32}
    (h : Lib.Ssa.Holds n env v x) (hty : Typed isI32 env v) (hx : asI32Val x = some m) :
    Computes evalOp (asI32 isI32 v) n env (.i32 m) := by
  obtain ⟨hlt, rfl⟩ := h
  unfold asI32
  split
  · next hi =>
    obtain ⟨k, hk⟩ := hty.mp hi
    rw [hk] at hx
    cases hx
    exact Lib.Ssa.Holds.computes_pure ⟨hlt, hk⟩
  · next hi =>
    apply computes_op
    have hwide : ∀ k, env v ≠ .i32 k := fun k hk => hi (hty.mpr ⟨k, hk⟩)
    show evalOp env (.zext32 v) = _
    cases hv : env v with
    | i32 k => exact absurd hv (hwide k)
    | i1 b | i8 k | i16 k =>
      rw [hv] at hx
      simp only [evalOp, hv]
      exact congrArg LVal.i32 (Option.some.inj hx)
    | i64 k | undefined =>
      rw [hv] at hx
      cases hx

/-! ## What the runtime reads -/

theorem toNat_statusWord (bodyIdx headersIdx : UInt16) {code : UInt32} {status : UInt16}
    (hcode : code.toNat = status.toNat) :
    (statusWord code bodyIdx.toUInt64 headersIdx.toUInt64).toNat =
      status.toNat * 2 ^ 8 + bodyIdx.toNat * 2 ^ 24 + headersIdx.toNat * 2 ^ 40 := by
  have hstatus := status.toNat_lt
  have hbody := bodyIdx.toNat_lt
  have hheaders := headersIdx.toNat_lt
  have h₁ : (actionReturnStatus ||| code.toUInt64 <<< 8).toNat = status.toNat * 2 ^ 8 := by
    have := toNat_or_shiftLeft (x := actionReturnStatus) (y := code.toUInt64) (k := 8) (n := 16)
      (by decide) (by decide) (by rw [UInt32.toNat_toUInt64, hcode]; exact hstatus) (by decide)
    rw [UInt32.toNat_toUInt64, hcode] at this
    exact this.trans (Nat.zero_add _)
  have h₂ := toNat_or_shiftLeft (x := actionReturnStatus ||| code.toUInt64 <<< 8)
    (y := bodyIdx.toUInt64) (k := 24) (n := 16) (by decide) (by rw [h₁]; omega)
    (by rw [toNat_toUInt64]; exact hbody) (by decide)
  rw [h₁, toNat_toUInt64] at h₂
  have h₃ := toNat_or_shiftLeft
    (x := actionReturnStatus ||| code.toUInt64 <<< 8 ||| bodyIdx.toUInt64 <<< UInt64.ofNat 24)
    (y := headersIdx.toUInt64) (k := 40) (n := 16) (by decide) (by rw [h₂]; omega)
    (by rw [toNat_toUInt64]; exact hheaders) (by decide)
  rw [h₂, toNat_toUInt64] at h₃
  exact h₃

theorem toNat_makeResultYield (nextState : UInt16) (kind : UInt8) (payload : UInt32) :
    (makeResultYield nextState kind payload).toNat =
      2 + payload.toNat * 2 ^ 8 + nextState.toNat * 2 ^ 40 + kind.toNat * 2 ^ 56 := by
  have hpayload := payload.toNat_lt
  have hnext := nextState.toNat_lt
  have hkind := kind.toNat_lt
  have h₁ := toNat_or_shiftLeft (x := actionYield) (y := payload.toUInt64) (k := 8) (n := 32)
    (by decide) (by decide) (by rw [UInt32.toNat_toUInt64]; exact hpayload) (by decide)
  rw [UInt32.toNat_toUInt64, show actionYield.toNat = 2 from rfl] at h₁
  have h₂ := toNat_or_shiftLeft (x := actionYield ||| payload.toUInt64 <<< UInt64.ofNat 8)
    (y := nextState.toUInt64) (k := 40) (n := 16) (by decide) (by rw [h₁]; omega)
    (by rw [toNat_toUInt64]; exact hnext) (by decide)
  rw [h₁, toNat_toUInt64] at h₂
  have h₃ := toNat_or_shiftLeft (x := actionYield ||| payload.toUInt64 <<< UInt64.ofNat 8 |||
      nextState.toUInt64 <<< UInt64.ofNat 40)
    (y := kind.toUInt64) (k := 56) (n := 8) (by decide) (by rw [h₂]; omega)
    (by rw [UInt8.toNat_toUInt64]; exact hkind) (by decide)
  rw [h₂, UInt8.toNat_toUInt64] at h₃
  exact h₃

/-- The code returns a word that the runtime unpacks to `r`. -/
def Returns (e : EmitL Nat) (n : Nat) (env : Nat → LVal) (r : HandlerResult) : Prop :=
  ∃ x, result evalOp e n env = .ok (.i64 x) ∧ HandlerResult.unpack x = r

theorem Returns.of_computes {e : EmitL Nat} {x : UInt64} {r : HandlerResult}
    (h : Computes evalOp e n env (.i64 x)) (hr : HandlerResult.unpack x = r) : Returns e n env r :=
  ⟨x, h.result_eq, hr⟩

variable {isI32 : Nat → Bool}

theorem and_ffff (x : UInt64) : x &&& 0xffff = x.toUInt16.toUInt64 := by
  apply UInt64.toNat_inj.mp
  exact Nat.and_two_pow_sub_one_eq_mod x.toNat 16

theorem toNat_toUInt16_shiftRight (x : UInt64) {k : Nat} (hk : k < 64) :
    (x >>> UInt64.ofNat k).toUInt16.toNat = x.toNat / 2 ^ k % 2 ^ 16 := by
  have hamount : (UInt64.ofNat k).toNat % 64 = k := by
    rw [UInt64.toNat_ofNat']
    omega
  rw [UInt64.toNat_toUInt16, UInt64.toNat_shiftRight, hamount, Nat.shiftRight_eq_div_pow]

/-- The fields of an immediate add up. -/
theorem toNat_statusImm (code : Int32) (bodyIdx headersIdx : UInt16) :
    (statusImm code bodyIdx headersIdx).toNat =
      (signExtend code).toUInt16.toNat + bodyIdx.toNat * 2 ^ 16 + headersIdx.toNat * 2 ^ 32 := by
  have hs := (signExtend code).toUInt16.toNat_lt
  have hb := bodyIdx.toNat_lt
  have hh := headersIdx.toNat_lt
  have h₀ : (signExtend code &&& (0xffff : UInt64)).toNat = (signExtend code).toUInt16.toNat := by
    rw [and_ffff, toNat_toUInt64]
  have h₁ := toNat_or_shiftLeft (x := signExtend code &&& (0xffff : UInt64))
    (y := bodyIdx.toUInt64) (k := 16) (n := 16) (by decide) (by rw [h₀]; exact hs)
    (by rw [toNat_toUInt64]; exact hb) (by decide)
  rw [h₀, toNat_toUInt64] at h₁
  have h₂ := toNat_or_shiftLeft (x := signExtend code &&& (0xffff : UInt64) |||
      bodyIdx.toUInt64 <<< UInt64.ofNat 16)
    (y := headersIdx.toUInt64) (k := 32) (n := 16) (by decide) (by rw [h₁]; omega)
    (by rw [toNat_toUInt64]; exact hh) (by decide)
  rw [h₁, toNat_toUInt64] at h₂
  exact h₂

theorem body_statusImm (code : Int32) (bodyIdx headersIdx : UInt16) :
    statusImm code bodyIdx headersIdx >>> 16 &&& 0xffff = bodyIdx.toUInt64 := by
  have hs := (signExtend code).toUInt16.toNat_lt
  have hb := bodyIdx.toNat_lt
  rw [and_ffff]
  congr 1
  apply UInt16.toNat_inj.mp
  rw [show (16 : UInt64) = UInt64.ofNat 16 from rfl, toNat_toUInt16_shiftRight _ (by decide),
    toNat_statusImm]
  omega

theorem headers_statusImm (code : Int32) (bodyIdx headersIdx : UInt16) :
    statusImm code bodyIdx headersIdx >>> 32 &&& 0xffff = headersIdx.toUInt64 := by
  have hs := (signExtend code).toUInt16.toNat_lt
  have hb := bodyIdx.toNat_lt
  have hh := headersIdx.toNat_lt
  rw [and_ffff]
  congr 1
  apply UInt16.toNat_inj.mp
  rw [show (32 : UInt64) = UInt64.ofNat 32 from rfl, toNat_toUInt16_shiftRight _ (by decide),
    toNat_statusImm]
  omega

/-- A literal status, from the immediate of the builder to the runtime. -/
theorem returns_emitRetStatus (code : Int32) (bodyIdx headersIdx : UInt16) :
    Returns (emitInstruction isI32 (emitRetStatus code bodyIdx headersIdx)) n env
      ⟨.returnStatus, (signExtend code).toUInt16, bodyIdx, headersIdx, .httpGet⟩ := by
  set imm := statusImm code bodyIdx headersIdx with himm
  have hcode : (imm &&& 0xffff).toUInt32.toNat = (signExtend code).toUInt16.toNat := by
    have hs := (signExtend code).toUInt16.toNat_lt
    rw [and_ffff, UInt64.toNat_toUInt32, toNat_toUInt64, UInt64.toNat_toUInt16, himm,
      toNat_statusImm]
    omega
  have hcomputes : Computes evalOp (emitInstruction isI32 (.retStatus imm)) n env
      (.i64 (statusWord (imm &&& 0xffff).toUInt32 bodyIdx.toUInt64 headersIdx.toUInt64)) := by
    unfold emitInstruction
    apply (computes_op (x := .i32 (imm &&& 0xffff).toUInt32) rfl).bind
    intro v n' env' _ hv
    rw [himm, body_statusImm, headers_statusImm]
    exact computes_emitStatusResult hv
  apply Returns.of_computes hcomputes
  apply unpack_eq 0 0
  rw [toNat_statusWord bodyIdx headersIdx hcode]
  show _ = 0 + _ + _ + _ + 0 * 2 ^ 56
  omega

/-- A status that is a value of the handler: its low 16 bits. -/
theorem returns_retStatusValue {v : Nat} {m : UInt32} (hv : v < n) (hty : Typed isI32 env v)
    (hm : asI32Val (env v) = some m) :
    Returns (emitInstruction isI32 (.retStatusValue v)) n env
      ⟨.returnStatus, m.toUInt16, 0, 0, .httpGet⟩ := by
  have hcode : (m &&& 0xffff).toNat = m.toUInt16.toNat := by
    exact Nat.and_two_pow_sub_one_eq_mod m.toNat 16
  have hcomputes : Computes evalOp (emitInstruction isI32 (.retStatusValue v)) n env
      (.i64 (statusWord (m &&& 0xffff) 0 0)) := by
    apply (computes_asI32 ⟨hv, rfl⟩ hty hm).bind
    intro status n₁ env₁ _ hstatus
    apply (computes_op (x := .i32 0xffff) rfl).bind
    intro mask n₂ env₂ hl₂ hmask
    apply (computes_op (x := .i32 (m &&& 0xffff))
      (by simp only [evalOp, (hstatus.later hl₂).means, hmask.means])).bind
    intro masked n₃ env₃ _ hmasked
    exact computes_emitStatusResult hmasked
  apply Returns.of_computes hcomputes
  apply unpack_eq 0 0
  have hword := toNat_statusWord 0 0 hcode
  refine hword.trans ?_
  generalize m.toUInt16.toNat = status
  show status * 2 ^ 8 + 0 * 2 ^ 24 + 0 * 2 ^ 40 =
    0 + status * 2 ^ 8 + 0 * 2 ^ 24 + 0 * 2 ^ 40 + 0 * 2 ^ 56
  omega

/-- An upstream id. -/
theorem returns_retForward {v : Nat} {id : UInt16} (hv : v < n) (hty : Typed isI32 env v)
    (hid : asI32Val (env v) = some id.toUInt32) :
    Returns (emitInstruction isI32 (.retForward v)) n env ⟨.forward, 0, id, 0, .httpGet⟩ := by
  have hcomputes : Computes evalOp (emitInstruction isI32 (.retForward v)) n env
      (.i64 (actionForward ||| id.toUInt32.toUInt64 <<< 24)) := by
    apply (computes_asI32 ⟨hv, rfl⟩ hty hid).bind
    intro upstream n₁ env₁ _ hupstream
    apply (computes_op (x := .i64 actionForward) rfl).bind
    intro action n₂ env₂ hl₂ haction
    apply (computes_op (x := .i64 id.toUInt32.toUInt64)
      (by simp only [evalOp, (hupstream.later hl₂).means])).bind
    intro ext n₃ env₃ hl₃ hext
    apply (computes_op (x := .i64 24) rfl).bind
    intro amount n₄ env₄ hl₄ hamount
    apply (computes_op (x := .i64 (id.toUInt32.toUInt64 <<< 24))
      (by simp only [evalOp, (hext.later hl₄).means, hamount.means]; rfl)).bind
    intro shifted n₅ env₅ hl₅ hshifted
    exact computes_or (haction.later ((hl₃.trans hl₄).trans hl₅)) hshifted
  apply Returns.of_computes hcomputes
  have hword := toNat_or_shiftLeft (x := actionForward) (y := id.toUInt32.toUInt64) (k := 24)
    (n := 16) (by decide) (by decide) (by simpa using id.toNat_lt) (by decide)
  rw [UInt32.toNat_toUInt64, toNat_toUInt32] at hword
  apply unpack_eq 1 0
  rw [show (24 : UInt64) = UInt64.ofNat 24 from rfl, hword]
  show 1 + _ = 1 + 0 * 2 ^ 8 + _ + 0 * 2 ^ 40 + 0 * 2 ^ 56
  omega

def lowHalf (payload : UInt32) : UInt16 := payload.toUInt16

def highHalf (payload : UInt32) : UInt16 := (payload >>> 16).toUInt16

/-- A payload is its two halves. -/
theorem toNat_halves (payload : UInt32) :
    (lowHalf payload).toNat + (highHalf payload).toNat * 2 ^ 16 = payload.toNat := by
  have h := payload.toNat_lt
  rw [lowHalf, highHalf, UInt32.toNat_toUInt16, UInt32.toNat_toUInt16, UInt32.toNat_shiftRight,
    Nat.shiftRight_eq_div_pow]
  show payload.toNat % 2 ^ 16 + payload.toNat / 2 ^ 16 % 2 ^ 16 * 2 ^ 16 = _
  omega

theorem unpack_makeResultYield (nextState : UInt16) (kind : UInt8) (payload : UInt32) :
    HandlerResult.unpack (makeResultYield nextState kind payload) =
      ⟨.yield, lowHalf payload, highHalf payload, nextState, .ofByte kind⟩ := by
  apply unpack_eq 2 kind
  rw [toNat_makeResultYield, ← toNat_halves payload]
  show _ = 2 + _ + _ + _ + _
  omega

/-- A yield that the builder accepts. -/
theorem returns_emitYieldEvent {yieldCount : Nat} {kind : UInt8} {payload : UInt32}
    {nextState : UInt16} {inst : RetInst}
    (h : emitYieldEvent yieldCount kind payload nextState = some inst) :
    Returns (emitInstruction isI32 inst) n env
      ⟨.yield, lowHalf payload, highHalf payload, nextState, .ofByte (recordedKind kind)⟩ := by
  unfold emitYieldEvent at h
  split at h
  · cases h
  cases h
  set imm := (kind.toUInt64 <<< 48) ||| (nextState.toUInt64 <<< 32) ||| payload.toUInt64 with himm
  have hk := kind.toNat_lt
  have hs := nextState.toNat_lt
  have hp := payload.toNat_lt
  have himmNat : imm.toNat = payload.toNat + nextState.toNat * 2 ^ 32 + kind.toNat * 2 ^ 48 := by
    -- The fields are or-ed together from the highest on.
    have hswap : imm = payload.toUInt64 ||| nextState.toUInt64 <<< UInt64.ofNat 32 |||
        kind.toUInt64 <<< UInt64.ofNat 48 := by
      rw [himm, UInt64.or_comm, UInt64.or_comm (kind.toUInt64 <<< 48), ← UInt64.or_assoc]
      rfl
    have h₁ := toNat_or_shiftLeft (x := payload.toUInt64) (y := nextState.toUInt64) (k := 32)
      (n := 16) (by decide) (by rw [UInt32.toNat_toUInt64]; exact hp)
      (by rw [UInt16.toNat_toUInt64]; exact hs) (by decide)
    rw [UInt32.toNat_toUInt64, UInt16.toNat_toUInt64] at h₁
    have h₂ := toNat_or_shiftLeft (x := payload.toUInt64 ||| nextState.toUInt64 <<< UInt64.ofNat 32)
      (y := kind.toUInt64) (k := 48) (n := 8) (by decide) (by rw [h₁]; omega)
      (by rw [UInt8.toNat_toUInt64]; exact hk) (by decide)
    rw [h₁, UInt8.toNat_toUInt64] at h₂
    rw [hswap, h₂]
  have hnext : (imm >>> 32 &&& 0xffff).toUInt16 = nextState := by
    apply UInt16.toNat_inj.mp
    rw [and_ffff, UInt64.toNat_toUInt16, UInt16.toNat_toUInt64,
      show (32 : UInt64) = UInt64.ofNat 32 from rfl, toNat_toUInt16_shiftRight _ (by decide), himmNat]
    omega
  have hkind : (imm >>> 48 &&& 0xff).toUInt8 = kind := by
    apply UInt8.toNat_inj.mp
    rw [UInt64.toNat_toUInt8, UInt64.toNat_and, UInt64.toNat_shiftRight, himmNat,
      Nat.shiftRight_eq_div_pow]
    have hmask := Nat.and_two_pow_sub_one_eq_mod
      ((payload.toNat + nextState.toNat * 2 ^ 32 + kind.toNat * 2 ^ 48) / 2 ^ 48) 8
    show (_ / 2 ^ 48 &&& (2 ^ 8 - 1)) % 2 ^ 8 = _
    omega
  have hpayload : (imm &&& 0xffffffff).toUInt32 = payload := by
    apply UInt32.toNat_inj.mp
    rw [UInt64.toNat_toUInt32, UInt64.toNat_and, himmNat]
    have hmask := Nat.and_two_pow_sub_one_eq_mod
      (payload.toNat + nextState.toNat * 2 ^ 32 + kind.toNat * 2 ^ 48) 32
    show (_ &&& (2 ^ 32 - 1)) % 2 ^ 32 = _
    omega
  refine Returns.of_computes (computes_op rfl) ?_
  rw [hnext, hkind, hpayload]
  exact unpack_makeResultYield ..

theorem returns_emitPrologueYield (si : Nat) (kind : UInt8) (payload : UInt32) :
    Returns (emitPrologueYield si kind payload) n env
      ⟨.yield, lowHalf payload, highHalf payload, UInt16.ofNat (si + 1),
        .ofByte (recordedKind kind)⟩ :=
  Returns.of_computes (computes_op rfl) (unpack_makeResultYield ..)

/-- A status of 16 bits is not touched by the extension of its sign. -/
theorem toUInt16_signExtend (status : UInt16) :
    (signExtend status.toUInt32.toInt32).toUInt16 = status := by
  apply UInt16.toBitVec_inj.mp
  show ((status.toBitVec.setWidth 32).signExtend 64).setWidth 16 = status.toBitVec
  apply BitVec.eq_of_getLsbD_eq
  intro i hi
  have h64 : i < 64 := by omega
  have h32 : i < 32 := by omega
  rw [BitVec.getLsbD_setWidth, BitVec.getLsbD_signExtend, if_pos h32, BitVec.getLsbD_setWidth]
  simp only [hi, h64, h32, decide_true, Bool.true_and]

/-- The round trip, through the immediate, the emitted code and the runtime: of a status with its
indices, of an upstream id, and of a yield with its whole payload, in a terminator or in the
prologue. A kind of zero stands for a timer. -/
theorem unpack_emitted (isI32 : Nat → Bool) (n : Nat) (env : Nat → LVal) :
    (∀ status bodyIdx headersIdx : UInt16,
      Returns (emitInstruction isI32 (emitRetStatus status.toUInt32.toInt32 bodyIdx headersIdx)) n env
        ⟨.returnStatus, status, bodyIdx, headersIdx, .httpGet⟩ ∧
      dispatchOutcome ⟨.returnStatus, status, bodyIdx, headersIdx, .httpGet⟩ =
        .returnStatus status bodyIdx.toNat headersIdx.toNat) ∧
    (∀ (v : Nat) (m : UInt32), v < n → Typed isI32 env v → asI32Val (env v) = some m →
      Returns (emitInstruction isI32 (.retStatusValue v)) n env
        ⟨.returnStatus, m.toUInt16, 0, 0, .httpGet⟩) ∧
    (∀ (v : Nat) (id : UInt16), v < n → Typed isI32 env v → asI32Val (env v) = some id.toUInt32 →
      Returns (emitInstruction isI32 (.retForward v)) n env ⟨.forward, 0, id, 0, .httpGet⟩ ∧
      dispatchOutcome ⟨.forward, 0, id, 0, .httpGet⟩ = .forward id) ∧
    (∀ (kind : UInt8) (payload : UInt32) (nextState : UInt16),
      ∃ r : HandlerResult, r.action = .yield ∧ r.nextState = nextState ∧
        r.yieldKind = .ofByte (if kind = 0 then 3 else kind) ∧ r.yieldPayload = payload.toNat ∧
        dispatchOutcome r =
          yieldOutcome (.ofByte (if kind = 0 then 3 else kind)) nextState payload.toNat ∧
        (∀ yieldCount inst, emitYieldEvent yieldCount kind payload nextState = some inst →
          Returns (emitInstruction isI32 inst) n env r) ∧
        (∀ si, nextState.toNat = si + 1 → Returns (emitPrologueYield si kind payload) n env r)) := by
  refine ⟨?_, ?_, ?_, ?_⟩
  · intro status bodyIdx headersIdx
    refine ⟨?_, rfl⟩
    have h : Returns (emitInstruction isI32 _) n env _ :=
      returns_emitRetStatus status.toUInt32.toInt32 bodyIdx headersIdx
    rwa [toUInt16_signExtend] at h
  · intro v m hv hty hm
    exact returns_retStatusValue hv hty hm
  · intro v id hv hty hid
    exact ⟨returns_retForward hv hty hid, rfl⟩
  · intro kind payload nextState
    have hpayload : HandlerResult.yieldPayload ⟨.yield, lowHalf payload, highHalf payload, nextState,
        .ofByte (recordedKind kind)⟩ = payload.toNat := toNat_halves payload
    refine ⟨⟨.yield, lowHalf payload, highHalf payload, nextState, .ofByte (recordedKind kind)⟩,
      rfl, rfl, rfl, hpayload, ?_, ?_, ?_⟩
    · rw [dispatchOutcome, hpayload]
      rfl
    · intro yieldCount inst hinst
      exact returns_emitYieldEvent hinst
    · intro si hsi
      have hstate : UInt16.ofNat (si + 1) = nextState := by
        rw [← hsi, UInt16.ofNat_toNat]
      rw [← hstate]
      exact returns_emitPrologueYield si kind payload

theorem unpack_emitted_sample :
    Returns (emitInstruction (fun _ => true) (.retStatusValue 0)) 1 (fun _ => .i32 404)
      ⟨.returnStatus, 404, 0, 0, .httpGet⟩ ∧
    Returns (emitInstruction (fun _ => true) (.retForward 0)) 1 (fun _ => .i32 404)
      ⟨.forward, 0, 404, 0, .httpGet⟩ ∧
    ∃ inst r, emitYieldEvent 2 3 90000 1 = some inst ∧
      Returns (emitInstruction (fun _ => true) inst) 1 (fun _ => .i32 404) r ∧
      r.yieldPayload = 90000 := by
  have hty : Typed (fun _ => true) (fun _ => .i32 404) 0 := ⟨fun _ => ⟨404, rfl⟩, fun _ => rfl⟩
  obtain ⟨-, hvalue, hforward, hyield⟩ := unpack_emitted (fun _ => true) 1 fun _ => .i32 404
  obtain ⟨r, -, -, -, hpayload, -, hevent, -⟩ := hyield 3 90000 1
  exact ⟨hvalue 0 404 (by decide) hty rfl, (hforward 0 404 (by decide) hty rfl).1,
    _, r, rfl, hevent 2 _ rfl, hpayload⟩

/-- The builder accepts a yield of the kind `HttpGet`, which is zero; the runtime reads a timer. -/
theorem yieldKind_httpGet_lost :
    Sim.YieldKind.ofByte 0 = .httpGet ∧ ∃ inst, emitYieldEvent 1 0 250 1 = some inst ∧
      Returns (emitInstruction (fun _ => true) inst) 0 (fun _ => .undefined)
        ⟨.yield, 250, 0, 1, .timer⟩ :=
  ⟨rfl, _, rfl, _, rfl, by decide⟩

end Rut.Jit
