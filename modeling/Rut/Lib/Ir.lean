import Mathlib

/-!
# A control-flow IR and its builder

A function is a list of basic blocks, named by their position. A block is a list of instructions,
each with the number of the register it defines, and a terminator. `step` executes one instruction
or terminator; an operation with no defined result (a load outside the buffer, a read of an unset
register, a comparison of different types, a switch with two cases of one value) has no step.

Code is produced through a `Builder`, which appends to the block it is positioned at. Emission and
execution meet in two relations:

    Grows S b b'     : the emission from b to b' has only added blocks and extended those in S
    Completes F b    : the function F extends what the builder b holds

An emitter is verified piece by piece: whatever function completes the builder after a piece, it
executes that piece from the position of the builder before it (`step_build`, `step_terminate`).
-/

namespace Rut.Lib.Ir

/-- Integers, pointers into the argument buffer and pointers to stack cells. -/
inductive Val where
  | i1 (b : Bool)
  | i8 (n : UInt8)
  | i16 (n : UInt16)
  | i32 (n : UInt32)
  | buf (offset : Int)
  | cell (i : Nat)
deriving DecidableEq, Repr

inductive Operand where
  | const (v : Val)
  | param (i : Nat)
  | reg (r : Nat)
deriving DecidableEq, Repr

/-- Unsigned comparisons. -/
inductive Pred where
  | eq | ult | ule
deriving DecidableEq, Repr

inductive Inst where
  | alloca
  | store (value ptr : Operand)
  | load (ptr : Operand)
  | gep (ptr index : Operand)
  | icmp (pred : Pred) (a b : Operand)
  | phi (incoming : List (Operand × Nat))
deriving DecidableEq, Repr

inductive Terminator where
  | br (l : Nat)
  | condBr (cond : Operand) (onTrue onFalse : Nat)
  | switch (v : Operand) (default : Nat) (cases : List (Val × Nat))
  | ret (v : Operand)
deriving DecidableEq, Repr

structure Block where
  insts : List (Nat × Inst) := []
  term : Option Terminator := none
deriving DecidableEq, Repr

/-! ## Execution -/

/-- A function applied to its arguments; `buffer` is what `Val.buf` points into. -/
structure Machine where
  blocks : List Block
  params : List Val
  buffer : List UInt8

structure Config where
  label : Nat
  pc : Nat
  prev : Nat
  env : Nat → Option Val
  cells : List (Option UInt16)

def Machine.block (m : Machine) (l : Nat) : Block := m.blocks.getD l {}

def eval (m : Machine) (c : Config) : Operand → Option Val
  | .const v => some v
  | .param i => m.params[i]?
  | .reg r => c.env r

def evalPred : Pred → Val → Val → Option Bool
  | .eq, .i8 a, .i8 b => some (decide (a = b))
  | .ult, .i32 a, .i32 b => some (decide (a < b))
  | .ule, .i32 a, .i32 b => some (decide (a ≤ b))
  | _, _, _ => none

/-- The value an instruction defines and the stack cells after it. An index of an address
computation is signed. -/
def evalInst (m : Machine) (c : Config) : Inst → Option (Option Val × List (Option UInt16))
  | .alloca => some (some (.cell c.cells.length), c.cells ++ [none])
  | .store value ptr =>
    match eval m c value, eval m c ptr with
    | some (.i16 n), some (.cell i) =>
      if i < c.cells.length then some (none, c.cells.set i (some n)) else none
    | _, _ => none
  | .load ptr =>
    match eval m c ptr with
    | some (.buf offset) =>
      if 0 ≤ offset then (m.buffer[offset.toNat]?).map (fun b => (some (.i8 b), c.cells))
      else none
    | some (.cell i) =>
      match c.cells[i]? with
      | some (some n) => some (some (.i16 n), c.cells)
      | _ => none
    | _ => none
  | .gep ptr index =>
    match eval m c ptr, eval m c index with
    | some (.buf offset), some (.i32 n) =>
      some (some (.buf (offset + n.toBitVec.toInt)), c.cells)
    | _, _ => none
  | .icmp pred a b =>
    match eval m c a, eval m c b with
    | some v, some w => (evalPred pred v w).map (fun r => (some (.i1 r), c.cells))
    | _, _ => none
  | .phi incoming =>
    match incoming.find? (fun x => x.2 = c.prev) with
    | some (v, _) => (eval m c v).map (fun v => (some v, c.cells))
    | none => none

def Config.goto (c : Config) (l : Nat) : Config := { c with label := l, pc := 0, prev := c.label }

/-- Where a terminator leads: to a block, or out of the function with a value. -/
def evalTerm (m : Machine) (c : Config) : Terminator → Option (Config ⊕ Val)
  | .br l => some (.inl (c.goto l))
  | .condBr cond onTrue onFalse =>
    match eval m c cond with
    | some (.i1 b) => some (.inl (c.goto (if b then onTrue else onFalse)))
    | _ => none
  | .switch v default cases =>
    match eval m c v with
    | some x =>
      if (cases.map (·.1)).Nodup then
        some (.inl (c.goto (((cases.find? (fun p => p.1 = x)).map (·.2)).getD default)))
      else none
    | none => none
  | .ret v => (eval m c v).map .inr

def step (m : Machine) (c : Config) : Option (Config ⊕ Val) :=
  match (m.block c.label).insts[c.pc]? with
  | some (r, inst) =>
    (evalInst m c inst).map (fun x =>
      .inl { c with pc := c.pc + 1, env := Function.update c.env r x.1, cells := x.2 })
  | none =>
    match (m.block c.label).term with
    | some t => evalTerm m c t
    | none => none

/-- Execute at most `n` steps; `none` when there is no result by then. -/
def run (m : Machine) : Nat → Config → Option Val
  | 0, _ => none
  | n + 1, c =>
    match step m c with
    | some (.inl c') => run m n c'
    | some (.inr v) => some v
    | none => none

def Config.initial : Config := ⟨0, 0, 0, fun _ => none, []⟩

def Step (m : Machine) (c c' : Config) : Prop := step m c = some (.inl c')

abbrev Steps (m : Machine) : Config → Config → Prop := Relation.ReflTransGen (Step m)

/-- An execution that returns has a result as soon as it is given enough steps. -/
theorem run_of_steps {m : Machine} {c c' : Config} {v : Val} (h : Steps m c c')
    (hret : step m c' = some (.inr v)) : ∃ n₀, ∀ n, n₀ ≤ n → run m n c = some v := by
  induction h using Relation.ReflTransGen.head_induction_on with
  | refl =>
    refine ⟨1, fun n hn => ?_⟩
    obtain ⟨k, rfl⟩ := Nat.exists_eq_add_of_le hn
    rw [Nat.add_comm, run, hret]
  | head hstep _ ih =>
    obtain ⟨n₀, hrun⟩ := ih
    refine ⟨n₀ + 1, fun n hn => ?_⟩
    obtain ⟨k, rfl⟩ : ∃ k, n = k + 1 := ⟨n - 1, by omega⟩
    rw [run, hstep]
    exact hrun k (by omega)

/-! ## The builder -/

structure Builder where
  blocks : List Block := []
  cur : Nat := 0
  nextReg : Nat := 0
deriving DecidableEq

namespace Builder

def block (b : Builder) (l : Nat) : Block := b.blocks.getD l {}

def setBlock (b : Builder) (l : Nat) (blk : Block) : Builder :=
  { b with blocks := b.blocks.set l blk }

/-- A new empty block at the end of the function. -/
def appendBlock (b : Builder) : Nat × Builder :=
  (b.blocks.length, { b with blocks := b.blocks ++ [{}] })

def positionAtEnd (b : Builder) (l : Nat) : Builder := { b with cur := l }

def build (b : Builder) (inst : Inst) : Operand × Builder :=
  (.reg b.nextReg,
    { b.setBlock b.cur { b.block b.cur with
        insts := (b.block b.cur).insts ++ [(b.nextReg, inst)] } with nextReg := b.nextReg + 1 })

def terminate (b : Builder) (t : Terminator) : Builder :=
  b.setBlock b.cur { b.block b.cur with term := some t }

/-- End the current block and go on in a fresh one. -/
def branch (b : Builder) (t : Terminator) : Builder :=
  (b.appendBlock.2.terminate t).positionAtEnd b.appendBlock.1

def addCase (b : Builder) (sw : Nat) (v : Val) (l : Nat) : Builder :=
  match (b.block sw).term with
  | some (.switch x default cases) =>
    b.setBlock sw { b.block sw with term := some (.switch x default (cases ++ [(v, l)])) }
  | _ => b

/-- A new block, reached by a new case of the switch. -/
def appendCase (b : Builder) (sw : Nat) (v : Val) : Nat × Builder :=
  (b.blocks.length, b.appendBlock.2.addCase sw v b.blocks.length)

variable {b b' b'' : Builder} {l l' : Nat} {blk : Block} {inst : Inst} {t : Terminator}

theorem block_setBlock_self (h : l < b.blocks.length) : (b.setBlock l blk).block l = blk := by
  simp [block, setBlock, List.getD_eq_getElem?_getD, h]

theorem block_setBlock_ne (h : l' ≠ l) : (b.setBlock l blk).block l' = b.block l' := by
  simp [block, setBlock, List.getD_eq_getElem?_getD, List.getElem?_set_ne (Ne.symm h)]

/-- A block that does not exist yet reads as empty. -/
theorem block_of_length_le (h : b.blocks.length ≤ l) : b.block l = {} := by
  simp [block, List.getD_eq_getElem?_getD, h]

/-- A new block changes nothing that can be read. -/
theorem block_appendBlock (l : Nat) : b.appendBlock.2.block l = b.block l := by
  rcases Nat.lt_trichotomy l b.blocks.length with h | h | h
  · simp [block, appendBlock, List.getD_eq_getElem?_getD, List.getElem?_append_left h]
  · simp [block, appendBlock, h]
  · rw [block_of_length_le h.le, block_of_length_le]
    rw [appendBlock, List.length_append]
    exact h

@[simp] theorem length_setBlock : (b.setBlock l blk).blocks.length = b.blocks.length := by
  simp [setBlock]

@[simp] theorem length_appendBlock : b.appendBlock.2.blocks.length = b.blocks.length + 1 := by
  simp [appendBlock]

@[simp] theorem length_build : (b.build inst).2.blocks.length = b.blocks.length := by
  simp [build]

@[simp] theorem length_terminate : (b.terminate t).blocks.length = b.blocks.length := by
  simp [terminate]

/-- One instruction and the end of its block. -/
theorem block_build_terminate (h : b.cur < b.blocks.length) :
    ((b.build inst).2.terminate t).block b.cur =
      ⟨(b.block b.cur).insts ++ [(b.nextReg, inst)], some t⟩ := by
  have hblk : (b.build inst).2.block b.cur =
      { b.block b.cur with insts := (b.block b.cur).insts ++ [(b.nextReg, inst)] } :=
    block_setBlock_self h
  have hlive : (b.build inst).2.cur < (b.build inst).2.blocks.length := by
    rw [length_build]
    exact h
  refine (block_setBlock_self hlive).trans ?_
  show Block.mk ((b.build inst).2.block b.cur).insts (some t) = _
  rw [hblk]

theorem block_build_terminate_ne (h : l ≠ b.cur) :
    ((b.build inst).2.terminate t).block l = b.block l :=
  (block_setBlock_ne h).trans (block_setBlock_ne h)

@[simp] theorem length_addCase (v : Val) : (b.addCase l v l').blocks.length = b.blocks.length := by
  unfold addCase
  split <;> simp

section appendCase

variable {x : Operand} {default sw : Nat} {cases : List (Val × Nat)} {v : Val}

/-- The switch has its new case, which leads to the new block. -/
theorem block_appendCase_self (hsw : sw < b.blocks.length)
    (ht : (b.block sw).term = some (.switch x default cases)) :
    (b.appendCase sw v).2.block sw =
      { b.block sw with term := some (.switch x default (cases ++ [(v, b.blocks.length)])) } := by
  have hlive : sw < b.appendBlock.2.blocks.length := by
    rw [length_appendBlock]
    omega
  rw [appendCase, addCase, block_appendBlock, ht]
  exact block_setBlock_self hlive

theorem block_appendCase_ne (hl : l ≠ sw) : (b.appendCase sw v).2.block l = b.block l := by
  unfold appendCase addCase
  split
  · exact (block_setBlock_ne hl).trans (block_appendBlock l)
  · exact block_appendBlock l

@[simp] theorem length_appendCase :
    (b.appendCase sw v).2.blocks.length = b.blocks.length + 1 := by
  rw [appendCase, length_addCase, length_appendBlock]

@[simp] theorem nextReg_appendCase : (b.appendCase sw v).2.nextReg = b.nextReg := by
  rw [appendCase, addCase]
  split <;> rfl

end appendCase

end Builder

/-! ## Emission only adds -/

/-- `blk'` goes on where `blk` stops; a terminated block is final. -/
structure Block.Le (blk blk' : Block) : Prop where
  insts : blk.insts <+: blk'.insts
  term : blk.term ≠ none → blk' = blk

theorem Block.Le.refl (blk : Block) : blk.Le blk := ⟨List.prefix_rfl, fun _ => rfl⟩

theorem Block.Le.trans {x y z : Block} (h : x.Le y) (h' : y.Le z) : x.Le z where
  insts := h.insts.trans h'.insts
  term hx := by
    have hyx := h.term hx
    rw [h'.term (hyx ▸ hx), hyx]

theorem Block.empty_le (blk : Block) : ({} : Block).Le blk :=
  ⟨List.nil_prefix, fun h => absurd rfl h⟩

/-- Only blocks in `S` have been extended, the others that exist are as they were. -/
structure Grows (S : Nat → Prop) (b b' : Builder) : Prop where
  size : b.blocks.length ≤ b'.blocks.length
  regs : b.nextReg ≤ b'.nextReg
  frame : ∀ l < b.blocks.length, ¬ S l → b'.block l = b.block l
  grow : ∀ l, (b.block l).Le (b'.block l)

/-- The current block exists and is not terminated. -/
structure Builder.Open (b : Builder) : Prop where
  live : b.cur < b.blocks.length
  term : (b.block b.cur).term = none

section Grows

variable {S S' : Nat → Prop} {b b' b'' : Builder} {t : Terminator}

theorem Grows.refl (b : Builder) : Grows S b b :=
  ⟨le_rfl, le_rfl, fun _ _ _ => rfl, fun _ => .refl _⟩

/-- The second emission may also extend the blocks that the first one has made. -/
theorem Grows.trans (h : Grows S b b') (h' : Grows S' b' b'')
    (hS : ∀ l, S' l → S l ∨ b.blocks.length ≤ l) : Grows S b b'' where
  size := h.size.trans h'.size
  regs := h.regs.trans h'.regs
  frame l hl hS' := by
    have hnot : ¬ S' l := fun hl' => (hS l hl').elim hS' (fun hge => absurd hl hge.not_gt)
    rw [h'.frame l (hl.trans_le h.size) hnot, h.frame l hl hS']
  grow l := (h.grow l).trans (h'.grow l)

theorem Grows.mono (h : Grows S b b') (hS : ∀ l, S l → S' l) : Grows S' b b' :=
  ⟨h.size, h.regs, fun l hl hl' => h.frame l hl fun hs => hl' (hS l hs), h.grow⟩

/-- A block may be replaced by one that goes on from it. -/
theorem grows_setBlock {l : Nat} {blk : Block} (hl : l < b.blocks.length)
    (hle : (b.block l).Le blk) : Grows (· = l) b (b.setBlock l blk) where
  size := by simp
  regs := le_rfl
  frame l' _ hne := Builder.block_setBlock_ne hne
  grow l' := by
    by_cases h : l' = l
    · rw [h, Builder.block_setBlock_self hl]
      exact hle
    · rw [Builder.block_setBlock_ne h]
      exact .refl _

/-- Emission that extends one block and leaves the others alone. -/
theorem grows_of_frame {x : Nat} (hsize : b.blocks.length ≤ b'.blocks.length)
    (hregs : b.nextReg ≤ b'.nextReg)
    (hframe : ∀ l < b.blocks.length, l ≠ x → b'.block l = b.block l)
    (hx : (b.block x).Le (b'.block x)) : Grows (· = x) b b' where
  size := hsize
  regs := hregs
  frame := hframe
  grow l := by
    by_cases hl : l = x
    · rw [hl]
      exact hx
    · rcases Nat.lt_or_ge l b.blocks.length with hlt | hge
      · rw [hframe l hlt hl]
        exact .refl _
      · rw [Builder.block_of_length_le hge]
        exact Block.empty_le _

/-- An instruction extends the current block. -/
theorem grows_build (ho : b.Open) (inst : Inst) : Grows (· = b.cur) b (b.build inst).2 := by
  have h : Grows (· = b.cur) b (b.setBlock b.cur { b.block b.cur with
      insts := (b.block b.cur).insts ++ [(b.nextReg, inst)] }) :=
    grows_setBlock ho.live ⟨List.prefix_append .., fun hne => absurd ho.term hne⟩
  exact ⟨h.size, Nat.le_succ _, h.frame, h.grow⟩

/-- So does a terminator. -/
theorem grows_terminate (ho : b.Open) : Grows (· = b.cur) b (b.terminate t) :=
  grows_setBlock ho.live ⟨List.prefix_rfl, fun hne => absurd ho.term hne⟩

theorem grows_appendBlock : Grows S b b.appendBlock.2 where
  size := by simp
  regs := le_rfl
  frame l _ _ := Builder.block_appendBlock l
  grow l := by
    rw [Builder.block_appendBlock]
    exact .refl _

/-- Moving the builder emits nothing. -/
theorem Grows.positionAtEnd (h : Grows S b b') (l : Nat) : Grows S b (b'.positionAtEnd l) :=
  ⟨h.size, h.regs, h.frame, h.grow⟩

theorem open_appendBlock (ho : b.Open) : b.appendBlock.2.Open where
  live := by
    rw [Builder.length_appendBlock]
    exact ho.live.trans (Nat.lt_succ_self _)
  term := by
    rw [Builder.block_appendBlock]
    exact ho.term

/-- The block stays open. -/
theorem open_build (ho : b.Open) (inst : Inst) : (b.build inst).2.Open where
  live := by
    rw [Builder.length_build]
    exact ho.live
  term := by
    show ((b.setBlock b.cur _).block b.cur).term = none
    rw [Builder.block_setBlock_self ho.live]
    exact ho.term

end Grows

/-! ## Emissions -/

/-- The emission from `b` to `b'`, which ends in a block that is still open. -/
structure Emits (b b' : Builder) : Prop where
  grows : Grows (· = b.cur) b b'
  cur : b'.cur = b.cur ∨ b.blocks.length ≤ b'.cur
  isOpen : b'.Open

section Emits

variable {b b' b'' : Builder}

theorem Emits.refl (ho : b.Open) : Emits b b := ⟨.refl b, .inl rfl, ho⟩

theorem Emits.grows_trans (h : Emits b b') (h' : Grows (· = b'.cur) b' b'') :
    Grows (· = b.cur) b b'' :=
  h.grows.trans h' fun l hl => by
    rcases h.cur with heq | hge
    · exact .inl (hl.trans heq)
    · exact .inr (hl ▸ hge)

/-- Emissions follow each other. -/
theorem Emits.trans (h : Emits b b') (h' : Emits b' b'') : Emits b b'' where
  grows := h.grows_trans h'.grows
  cur := by
    have hsize := h.grows.size
    rcases h'.cur with h1 | h1
    · rw [h1]
      exact h.cur
    · exact .inr (hsize.trans h1)
  isOpen := h'.isOpen

theorem emits_build (ho : b.Open) (inst : Inst) : Emits b (b.build inst).2 :=
  ⟨grows_build ho inst, .inl rfl, open_build ho inst⟩

/-- The block after a branch is fresh. -/
theorem Builder.block_branch (ho : b.Open) (t : Terminator) :
    (b.branch t).block b.blocks.length = {} := by
  show (b.appendBlock.2.setBlock b.cur _).block b.blocks.length = {}
  rw [block_setBlock_ne ho.live.ne', block_appendBlock, block_of_length_le le_rfl]

/-- A branch ends the current block, and the fresh one is open. -/
theorem emits_branch (ho : b.Open) (t : Terminator) : Emits b (b.branch t) where
  grows := (grows_appendBlock.trans (grows_terminate (open_appendBlock ho))
    fun _ hl => .inl hl).positionAtEnd _
  cur := .inr le_rfl
  isOpen := by
    refine ⟨?_, ?_⟩
    · show b.blocks.length < (b.appendBlock.2.terminate t).blocks.length
      simp
    · show ((b.branch t).block b.blocks.length).term = none
      rw [Builder.block_branch ho]

end Emits

/-! ## Executing what has been emitted -/

/-- The function of the machine extends what the builder holds. -/
def Completes (m : Machine) (b : Builder) : Prop := ∀ l, (b.block l).Le (m.block l)

/-- The machine is where the builder is positioned. -/
structure At (b : Builder) (c : Config) : Prop where
  label : c.label = b.cur
  pc : c.pc = (b.block b.cur).insts.length

/-- The state after an instruction that defines `r`. -/
def Config.define (c : Config) (r : Nat) (v : Option Val) (cells : List (Option UInt16)) : Config :=
  { c with pc := c.pc + 1, env := Function.update c.env r v, cells := cells }

variable {cells : List (Option UInt16)}

section Execution

variable {m : Machine} {S : Nat → Prop} {b b' : Builder} {c c' : Config} {inst : Inst}
  {t : Terminator}

/-- What completes a later state of the builder completes an earlier one. -/
theorem Completes.mono (hF : Completes m b') (h : Grows S b b') : Completes m b :=
  fun l => (h.grow l).trans (hF l)

/-- The machine executes the instruction it is at. -/
theorem step_inst {r : Nat} (hget : (m.block c.label).insts[c.pc]? = some (r, inst))
    {v : Option Val} (he : evalInst m c inst = some (v, cells)) :
    Step m c (c.define r v cells) := by
  rw [Step, step, hget]
  simp only [he, Option.map_some]
  rfl

/-- It executes an instruction that is emitted where it stands, and stands behind it. -/
theorem step_build (ho : b.Open) (hF : Completes m (b.build inst).2) (hc : At b c)
    {v : Option Val} (he : evalInst m c inst = some (v, cells)) :
    Step m c (c.define b.nextReg v cells) ∧ At (b.build inst).2 (c.define b.nextReg v cells) := by
  have hblk : (b.build inst).2.block b.cur = { b.block b.cur with
      insts := (b.block b.cur).insts ++ [(b.nextReg, inst)] } :=
    Builder.block_setBlock_self ho.live
  constructor
  · obtain ⟨rest, hrest⟩ := (hF b.cur).insts
    have hget : (m.block c.label).insts[c.pc]? = some (b.nextReg, inst) := by
      rw [hc.label, hc.pc, ← hrest, hblk]
      simp
    exact step_inst hget he
  · refine ⟨hc.label, ?_⟩
    show c.pc + 1 = ((b.build inst).2.block b.cur).insts.length
    rw [hblk, hc.pc]
    simp

/-- At the end of a terminated block the terminator is executed. -/
theorem step_block (blk : Block) (hF : blk.Le (m.block c.label)) (ht : blk.term = some t)
    (hpc : c.pc = blk.insts.length) : step m c = evalTerm m c t := by
  have hblk : m.block c.label = blk := hF.term (by simp [ht])
  have hend : blk.insts[c.pc]? = none := by simp [hpc]
  rw [step, hblk, hend]
  rw [ht]

/-- A terminator that is emitted where the machine stands. -/
theorem step_terminate (ho : b.Open) (hF : Completes m (b.terminate t)) (hc : At b c) :
    step m c = evalTerm m c t := by
  have hblk : (b.terminate t).block b.cur = { b.block b.cur with term := some t } :=
    Builder.block_setBlock_self ho.live
  have hle := hF b.cur
  rw [hblk] at hle
  apply step_block { b.block b.cur with term := some t } _ rfl hc.pc
  rw [hc.label]
  exact hle

/-- At the start of a block that is still empty. -/
theorem at_goto {l : Nat} (hcur : b.cur = l) (hempty : b.block l = {}) : At b (c.goto l) :=
  ⟨hcur.symm, by rw [hcur, hempty]; rfl⟩

theorem step_branch (ho : b.Open) (hF : Completes m (b.branch t)) (hc : At b c) :
    step m c = evalTerm m c t := by
  have hat : At b.appendBlock.2 c := ⟨hc.label, by rw [hc.pc, Builder.block_appendBlock]; rfl⟩
  exact step_terminate (open_appendBlock ho) (fun l => hF l) hat

/-- Behind a branch the builder stands where the machine gets to. -/
theorem at_branch (ho : b.Open) (t : Terminator) (c : Config) :
    At (b.branch t) (c.goto b.blocks.length) :=
  at_goto rfl (Builder.block_branch ho t)

end Execution

/-! ## Operands -/

/-- The value of an operand does not depend on registers from `n` on. -/
def Operand.Below (n : Nat) : Operand → Prop
  | .reg r => r < n
  | _ => True

theorem Operand.Below.mono {n k : Nat} {o : Operand} (h : o.Below n) (hk : n ≤ k) : o.Below k := by
  cases o with
  | reg r => exact lt_of_lt_of_le h hk
  | const v => trivial
  | param i => trivial

/-- A new register does not change the operands from before. -/
theorem eval_define {m : Machine} {c : Config} {n r : Nat} {o : Operand} {v : Option Val}
    (h : o.Below n) (hr : n ≤ r) :
    eval m (c.define r v cells) o = eval m c o := by
  cases o with
  | reg x => exact Function.update_of_ne (lt_of_lt_of_le h hr).ne _ _
  | const v => rfl
  | param i => rfl

@[simp] theorem eval_goto {m : Machine} {c : Config} {l : Nat} {o : Operand} :
    eval m (c.goto l) o = eval m c o := by
  cases o <;> rfl

end Rut.Lib.Ir
