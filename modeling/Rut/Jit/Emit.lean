import Rut.Jit.Codegen

/-!
# What each piece of emitted code does

One spec per emitting function, in two parts: what the emission leaves of the builder (`Emits`),
and what a machine that completes it executes. During the descent a machine state is `Ready`: the
method slot is in its register and `best` in its stack cell. A piece ends at the position of the
builder after it, or it breaks off to `return_best`.
-/

namespace Rut.Jit

open Lib.Ir Builder

/-- The arguments of a call on the path `p`. -/
structure Args (m : Machine) (p : Str) : Prop where
  ptr : m.params[0]? = some (.buf 0)
  len : m.params[1]? = some (.i32 (UInt32.ofNat p.length))
  buffer : m.buffer = p
  bound : p.length < 2 ^ 32

/-- The registers of the context were defined before the builder got here. -/
structure EmitCtx.Below (c : EmitCtx) (n : Nat) : Prop where
  slot : c.methodSlot.Below n
  best : c.bestAlloca.Below n

theorem EmitCtx.Below.mono {c : EmitCtx} {n k : Nat} (h : c.Below n) (hk : n ≤ k) : c.Below k :=
  ⟨h.slot.mono hk, h.best.mono hk⟩

/-- The state of the descent: the method slot and the best route so far. -/
structure Ready (c : EmitCtx) (m : Machine) (slot : MethodSlot) (best : UInt16) (s : Config) :
    Prop where
  slot : eval m s c.methodSlot = some (.i32 (UInt32.ofNat slot))
  best : ∃ i, eval m s c.bestAlloca = some (.cell i) ∧ s.cells[i]? = some (some best)

/-- The descent has ended with `best`. -/
structure Broke (c : EmitCtx) (m : Machine) (slot : MethodSlot) (best : UInt16) (s : Config) :
    Prop where
  label : s.label = c.returnBest
  pc : s.pc = 0
  ready : Ready c m slot best s

section Pieces

variable {c : EmitCtx} {m : Machine} {slot : MethodSlot} {best : UInt16} {s : Config} {p : Str}
  {b : Builder}

theorem Ready.goto (h : Ready c m slot best s) (l : Nat) : Ready c m slot best (s.goto l) where
  slot := by rw [eval_goto, h.slot]
  best := by
    obtain ⟨i, hi, hcell⟩ := h.best
    exact ⟨i, by rw [eval_goto, hi], hcell⟩

theorem Ready.broke (h : Ready c m slot best s) : Broke c m slot best (s.goto c.returnBest) :=
  ⟨rfl, rfl, h.goto _⟩

/-- A new register does not disturb the descent. -/
theorem Ready.define {n r : Nat} (h : Ready c m slot best s) (hb : c.Below n) (hr : n ≤ r)
    (v : Option Val) : Ready c m slot best (s.define r v s.cells) where
  slot := by rw [eval_define hb.slot hr, h.slot]
  best := by
    obtain ⟨i, hi, hcell⟩ := h.best
    exact ⟨i, by rw [eval_define hb.best hr, hi], hcell⟩

/-! ## Checks and loads -/

theorem emitCompareOrBreak_emits (ho : b.Open) (pred : Pred) (x y : Operand) :
    Emits b (emitCompareOrBreak c b pred x y) :=
  have h := emits_build ho (.icmp pred x y)
  h.trans (emits_branch h.isOpen _)

/-- A comparison that has a result goes on or breaks off. -/
theorem emitCompareOrBreak_run (ho : b.Open) (hb : c.Below b.nextReg) {pred : Pred}
    {x y : Operand} {v w : Val} {r : Bool} (hF : Completes m (emitCompareOrBreak c b pred x y))
    (hc : At b s) (hx : eval m s x = some v) (hy : eval m s y = some w)
    (hr : evalPred pred v w = some r) (hR : Ready c m slot best s) :
    ∃ s', Steps m s s' ∧
      (r = true ∧ Ready c m slot best s' ∧ At (emitCompareOrBreak c b pred x y) s' ∨
        r = false ∧ Broke c m slot best s') := by
  have h := emits_build ho (.icmp pred x y)
  have hcmp : evalInst m s (.icmp pred x y) = some (some (.i1 r), s.cells) := by
    simp only [evalInst, hx, hy, hr, Option.map_some]
  obtain ⟨hstep, hat⟩ := step_build ho (hF.mono (emits_branch h.isOpen _).grows) hc hcmp
  have hcond : eval m (s.define b.nextReg (some (.i1 r)) s.cells) (.reg b.nextReg) =
      some (.i1 r) := Function.update_self ..
  have hbr := step_branch h.isOpen hF hat
  rw [evalTerm, hcond] at hbr
  have hR' := hR.define hb le_rfl (some (.i1 r))
  refine ⟨_, .tail (.single hstep) hbr, ?_⟩
  cases r with
  | false => exact .inr ⟨rfl, hR'.broke⟩
  | true => exact .inl ⟨rfl, hR'.goto _, at_branch h.isOpen _ _⟩

theorem emitLoadByte_emits (ho : b.Open) (offset : Operand) :
    Emits b (emitLoadByte b offset).2 :=
  (emits_build ho _).trans (emits_build (open_build ho _) _)

theorem toInt_of_lt {n : UInt32} (hn : n.toNat < 2 ^ 31) : n.toBitVec.toInt = n.toNat :=
  BitVec.toInt_eq_toNat_of_lt (by
    show 2 * n.toNat < 2 ^ 32
    omega)

/-- The byte of the path is loaded. -/
theorem emitLoadByte_run (ho : b.Open) (hb : c.Below b.nextReg) (hA : Args m p) {n : UInt32}
    {x : UInt8} (hn : n.toNat < 2 ^ 31) (hx : p[n.toNat]? = some x)
    (hF : Completes m (emitLoadByte b (constI32 n)).2) (hc : At b s)
    (hR : Ready c m slot best s) :
    ∃ s', Steps m s s' ∧ At (emitLoadByte b (constI32 n)).2 s' ∧ Ready c m slot best s' ∧
      eval m s' (emitLoadByte b (constI32 n)).1 = some (.i8 x) := by
  have ho' := open_build ho (.gep effPtr (constI32 n))
  have hF' : Completes m (b.build (.gep effPtr (constI32 n))).2 := hF.mono (grows_build ho' _)
  have hgep : evalInst m s (.gep effPtr (constI32 n)) = some (some (.buf n.toNat), s.cells) := by
    simp only [evalInst, effPtr, constI32, eval, hA.ptr, Int.zero_add, toInt_of_lt hn]
  obtain ⟨hstep, hat⟩ := step_build ho hF' hc hgep
  have hload : evalInst m (s.define b.nextReg (some (.buf n.toNat)) s.cells)
      (.load (.reg b.nextReg)) = some (some (.i8 x), s.cells) := by
    have hptr : eval m (s.define b.nextReg (some (.buf n.toNat)) s.cells) (.reg b.nextReg) =
        some (.buf n.toNat) := Function.update_self ..
    simp only [evalInst, hptr, Int.natCast_nonneg, if_true, Int.toNat_natCast, hA.buffer, hx,
      Option.map_some]
    rfl
  obtain ⟨hstep', hat'⟩ := step_build ho' hF hat hload
  refine ⟨_, .tail (.single hstep) hstep', hat', ?_, Function.update_self ..⟩
  exact (hR.define hb le_rfl _).define (hb.mono (Nat.le_succ _)) le_rfl _

/-! ## Edges -/

theorem emitEdgeByte_emits (ho : b.Open) (depth : UInt32) (e : UInt8) :
    Emits b (emitEdgeByte c b depth e) :=
  have h := emitLoadByte_emits ho (constI32 depth)
  h.trans (emitCompareOrBreak_emits h.isOpen ..)

/-- One byte of an edge: go on, or break off. -/
theorem emitEdgeByte_run (ho : b.Open) (hb : c.Below b.nextReg) (hA : Args m p) {n : UInt32}
    {x e : UInt8} (hn : n.toNat < 2 ^ 31) (hx : p[n.toNat]? = some x)
    (hF : Completes m (emitEdgeByte c b n e)) (hc : At b s) (hR : Ready c m slot best s) :
    ∃ s', Steps m s s' ∧
      (x = e ∧ Ready c m slot best s' ∧ At (emitEdgeByte c b n e) s' ∨
        x ≠ e ∧ Broke c m slot best s') := by
  have h := emitLoadByte_emits ho (constI32 n)
  have h' := emitCompareOrBreak_emits (c := c) h.isOpen .eq (emitLoadByte b (constI32 n)).1
    (constI8 e)
  obtain ⟨s₁, hs₁, hat, hR₁, hbyte⟩ := emitLoadByte_run ho hb hA hn hx (hF.mono h'.grows) hc hR
  obtain ⟨s₂, hs₂, hend⟩ := emitCompareOrBreak_run h.isOpen (hb.mono h.grows.regs) hF hat hbyte
    (y := constI8 e) rfl (r := decide (x = e)) rfl hR₁
  refine ⟨s₂, hs₁.trans hs₂, ?_⟩
  rw [decide_eq_true_eq, decide_eq_false_iff_not] at hend
  exact hend

theorem emitEdge_emits : ∀ {b : Builder} (depth : UInt32) (edge : Str), b.Open →
    Emits b (emitEdge c b depth edge)
  | _, _, [], ho => .refl ho
  | _, depth, e :: edge, ho =>
    have h := emitEdgeByte_emits ho depth e
    h.trans (emitEdge_emits (depth + 1) edge h.isOpen)

/-- The comparison of an edge that fits goes on if the path goes on with the edge. -/
theorem emitEdge_run (hA : Args m p) : ∀ {b : Builder} {s : Config} (edge : Str) {n : Nat}, b.Open →
    c.Below b.nextReg → n + edge.length ≤ p.length → n + edge.length < 2 ^ 31 →
    Completes m (emitEdge c b (UInt32.ofNat n) edge) → At b s → Ready c m slot best s →
    ∃ s', Steps m s s' ∧
      (edge <+: p.drop n ∧ Ready c m slot best s' ∧ At (emitEdge c b (UInt32.ofNat n) edge) s' ∨
        ¬ edge <+: p.drop n ∧ Broke c m slot best s')
  | _, s, [], _, _, _, _, _, _, hc, hR => ⟨s, .refl, .inl ⟨List.nil_prefix, hR, hc⟩⟩
  | b, s, e :: edge, n, ho, hb, hfit, hlt, hF, hc, hR => by
    rw [List.length_cons] at hfit hlt
    have hn : (UInt32.ofNat n).toNat = n := UInt32.toNat_ofNat_of_lt' (by
      show n < 2 ^ 32
      omega)
    have hsucc : UInt32.ofNat n + 1 = UInt32.ofNat (n + 1) := by
      rw [UInt32.ofNat_add]
      rfl
    have hdrop : p.drop n = p[n] :: p.drop (n + 1) := List.drop_eq_getElem_cons (by omega)
    have h := emitEdgeByte_emits (c := c) ho (UInt32.ofNat n) e
    have h' := emitEdge_emits (c := c) (UInt32.ofNat n + 1) edge h.isOpen
    rw [emitEdge] at hF ⊢
    obtain ⟨s₁, hs₁, hend⟩ := emitEdgeByte_run (x := p[n]) ho hb hA (by rw [hn]; omega)
      (by rw [hn]; exact List.getElem?_eq_getElem (by omega)) (hF.mono h'.grows) hc hR
    rw [hdrop, List.cons_prefix_cons]
    obtain ⟨heq, hR₁, hat⟩ | ⟨hne, hbroke⟩ := hend
    · rw [hsucc] at hF ⊢
      obtain ⟨s₂, hs₂, hend₂⟩ := emitEdge_run hA edge (n := n + 1) h.isOpen (hb.mono h.grows.regs)
        (by omega) (by omega) hF hat hR₁
      refine ⟨s₂, hs₁.trans hs₂, ?_⟩
      simpa only [heq, true_and] using hend₂
    · exact ⟨s₁, hs₁, .inr ⟨fun hpre => hne hpre.1.symm, hbroke⟩⟩

/-! ## Terminals -/

/-- A constant can be stored into `best`. -/
theorem store_best (hR : Ready c m slot best s) (v : UInt16) {n : Nat} (hb : c.Below n) :
    ∃ cells, evalInst m s (.store (constI16 v) c.bestAlloca) = some (none, cells) ∧
      ∀ r, n ≤ r → Ready c m slot v (s.define r none cells) := by
  obtain ⟨i, hi, hcell⟩ := hR.best
  obtain ⟨hlt, -⟩ := List.getElem?_eq_some_iff.mp hcell
  refine ⟨s.cells.set i (some v), ?_, fun r hr => ⟨?_, i, ?_, ?_⟩⟩
  · have hv : eval m s (constI16 v) = some (.i16 v) := rfl
    simp only [evalInst, hv, hi, hlt, if_true]
  · rw [eval_define hb.slot hr, hR.slot]
  · rw [eval_define hb.best hr, hi]
  · exact List.getElem?_set_self hlt

/-- What the loop over the specific slots leaves behind: the cases of the switch, each with a
block that stores its route. -/
structure SpecificCases (c : EmitCtx) (t : Vector UInt16 kMethodSlots) (contBb : Nat)
    (slots : List MethodSlot) (b b' : Builder) (sw : Nat) (new : List (Val × Nat)) : Prop where
  size : b.blocks.length ≤ b'.blocks.length
  regs : b.nextReg ≤ b'.nextReg
  frame : ∀ l < b.blocks.length, l ≠ sw → b'.block l = b.block l
  keys : new.map (·.1) =
    (slots.filter (fun s => t[s] ≠ kInvalidRoute)).map
      (fun s : MethodSlot => Val.i32 (UInt32.ofNat s))
  stores : ∀ x ∈ new, b.blocks.length ≤ x.2 ∧ x.2 < b'.blocks.length ∧ ∃ (s : MethodSlot) (r : Nat),
    x.1 = .i32 (UInt32.ofNat s) ∧ b.nextReg ≤ r ∧
    b'.block x.2 = ⟨[(r, .store (constI16 t[s]) c.bestAlloca)], some (.br contBb)⟩

section Specific

variable {sw contBb default : Nat} {v : Operand} {cases : List (Val × Nat)}

theorem length_emitSpecificCase (x : MethodSlot) (r : UInt16) :
    (emitSpecificCase c sw contBb x r b).blocks.length = b.blocks.length + 1 := by
  show ((build (positionAtEnd _ _) _).2.terminate _).blocks.length = _
  rw [length_terminate, length_build]
  exact length_appendCase

theorem nextReg_emitSpecificCase (x : MethodSlot) (r : UInt16) :
    (emitSpecificCase c sw contBb x r b).nextReg = b.nextReg + 1 :=
  congrArg (· + 1) nextReg_appendCase

/-- The new block stores the route and goes on. -/
theorem block_emitSpecificCase_new (hsw : sw < b.blocks.length) (x : MethodSlot) (r : UInt16) :
    (emitSpecificCase c sw contBb x r b).block b.blocks.length =
      ⟨[(b.nextReg, .store (constI16 r) c.bestAlloca)], some (.br contBb)⟩ := by
  have hempty : (b.appendCase sw (.i32 (UInt32.ofNat x))).2.block b.blocks.length = {} := by
    rw [block_appendCase_ne hsw.ne', block_of_length_le le_rfl]
  have hlive : b.blocks.length < (b.appendCase sw (.i32 (UInt32.ofNat x))).2.blocks.length := by
    simp
  refine (block_build_terminate hlive).trans ?_
  show Block.mk (((b.appendCase sw _).2.block b.blocks.length).insts ++
    [((b.appendCase sw _).2.nextReg, _)]) _ = _
  rw [hempty, nextReg_appendCase]
  rfl

theorem block_emitSpecificCase_sw (hsw : sw < b.blocks.length) (x : MethodSlot) (r : UInt16)
    (ht : (b.block sw).term = some (.switch v default cases)) :
    (emitSpecificCase c sw contBb x r b).block sw = { b.block sw with
      term := some (.switch v default
        (cases ++ [(.i32 (UInt32.ofNat x), b.blocks.length)])) } :=
  (block_build_terminate_ne hsw.ne).trans (block_appendCase_self hsw ht)

theorem block_emitSpecificCase_ne {l : Nat} (x : MethodSlot) (r : UInt16) (hl : l ≠ sw)
    (hnew : l ≠ b.blocks.length) : (emitSpecificCase c sw contBb x r b).block l = b.block l :=
  (block_build_terminate_ne hnew).trans (block_appendCase_ne hl)

/-- The cases of all slots. -/
theorem emitSpecific_spec (t : Vector UInt16 kMethodSlots) (contBb : Nat) :
    ∀ (slots : List MethodSlot) {b : Builder} {cases : List (Val × Nat)},
    sw < b.blocks.length → (b.block sw).term = some (.switch v default cases) →
    ∃ new, SpecificCases c t contBb slots b (emitSpecific c t sw contBb slots b) sw new ∧
      (emitSpecific c t sw contBb slots b).block sw =
        { b.block sw with term := some (.switch v default (cases ++ new)) }
  | [], b, cases, _, ht => by
    refine ⟨[], ⟨le_rfl, le_rfl, fun _ _ _ => rfl, rfl, by simp⟩, ?_⟩
    rw [List.append_nil, ← ht]
    rfl
  | s :: slots, b, cases, hsw, ht => by
    rw [emitSpecific]
    split
    · next hinv =>
      obtain ⟨new, hnew, hblk⟩ := emitSpecific_spec t contBb slots hsw ht
      refine ⟨new, ⟨hnew.size, hnew.regs, hnew.frame, ?_, hnew.stores⟩, hblk⟩
      rw [hnew.keys, List.filter_cons_of_neg (by simpa using hinv)]
    · next hval =>
      have hne : b.blocks.length ≠ sw := hsw.ne'
      have hlen : (emitSpecificCase c sw contBb s t[s] b).blocks.length = b.blocks.length + 1 :=
        length_emitSpecificCase s t[s]
      have hreg : (emitSpecificCase c sw contBb s t[s] b).nextReg = b.nextReg + 1 :=
        nextReg_emitSpecificCase s t[s]
      have hsw' : (emitSpecificCase c sw contBb s t[s] b).block sw = _ :=
        block_emitSpecificCase_sw hsw s t[s] ht
      have hlive : sw < (emitSpecificCase c sw contBb s t[s] b).blocks.length := by omega
      obtain ⟨new, hnew, hblk⟩ := emitSpecific_spec t contBb slots hlive (by rw [hsw'])
      have hsize := hnew.size
      have hregs := hnew.regs
      refine ⟨(.i32 (UInt32.ofNat s), b.blocks.length) :: new,
        ⟨by omega, by omega, ?_, ?_, ?_⟩, ?_⟩
      · intro l hl hlsw
        rw [hnew.frame l (by omega) hlsw, block_emitSpecificCase_ne s t[s] hlsw hl.ne]
      · rw [List.map_cons, hnew.keys, List.filter_cons_of_pos (by simpa using hval),
          List.map_cons]
      · intro x hx
        rcases List.mem_cons.mp hx with rfl | hx
        · refine ⟨le_rfl, by omega, s, b.nextReg, rfl, le_rfl, ?_⟩
          rw [hnew.frame _ (by omega) hne, block_emitSpecificCase_new hsw]
        · obtain ⟨hge, hlt, s', r, hkey, hr, hx⟩ := hnew.stores x hx
          exact ⟨by omega, hlt, s', r, hkey, by omega, hx⟩
      · rw [hblk, hsw']
        simp

end Specific

theorem emitMixed_spec (t : Vector UInt16 kMethodSlots) (ho : b.Open) :
    ∃ new, (emitMixed c t b).block b.cur =
        { b.block b.cur with term := some (.switch c.methodSlot (b.blocks.length + 1) new) } ∧
      SpecificCases c t b.blocks.length specificSlots b.appendBlock.2.appendBlock.2
        (emitMixed c t b) b.cur new := by
  have ho' := open_appendBlock (open_appendBlock ho)
  have hblk : (b.appendBlock.2.appendBlock.2.terminate
      (.switch c.methodSlot (b.blocks.length + 1) [])).block b.cur =
      { b.block b.cur with term := some (.switch c.methodSlot (b.blocks.length + 1) []) } := by
    refine (block_setBlock_self ho'.live).trans ?_
    show Block.mk (b.appendBlock.2.appendBlock.2.block b.cur).insts _ = _
    rw [block_appendBlock, block_appendBlock]
  have hlen : (b.appendBlock.2.appendBlock.2.terminate
      (.switch c.methodSlot (b.blocks.length + 1) [])).blocks.length =
      b.appendBlock.2.appendBlock.2.blocks.length := length_terminate
  have hlive : b.cur < (b.appendBlock.2.appendBlock.2.terminate
      (.switch c.methodSlot (b.blocks.length + 1) [])).blocks.length := hlen ▸ ho'.live
  have hterm : ((b.appendBlock.2.appendBlock.2.terminate
      (.switch c.methodSlot (b.blocks.length + 1) [])).block b.cur).term =
      some (.switch c.methodSlot (b.blocks.length + 1) []) := by rw [hblk]
  obtain ⟨new, hnew, hsw⟩ := emitSpecific_spec (c := c) t b.blocks.length specificSlots hlive hterm
  refine ⟨new, ?_, ⟨hlen ▸ hnew.size, hnew.regs, ?_, hnew.keys, ?_⟩⟩
  · rw [emitMixed, hsw, hblk]
    rfl
  · intro l hl hne
    exact (hnew.frame l (hlen ▸ hl) hne).trans (block_setBlock_ne hne)
  · intro x hx
    rw [← hlen]
    exact hnew.stores x hx

theorem emitMixed_grows (t : Vector UInt16 kMethodSlots) (ho : b.Open) :
    Grows (· = b.cur) b (emitMixed c t b) := by
  obtain ⟨new, hblk, hnew⟩ := emitMixed_spec (c := c) t ho
  have hsize := hnew.size
  rw [length_appendBlock, length_appendBlock] at hsize
  have hregs : b.nextReg ≤ (emitMixed c t b).nextReg := hnew.regs
  apply grows_of_frame (by omega) hregs
  · intro l hl hne
    rw [hnew.frame l (by simp; omega) hne, block_appendBlock, block_appendBlock]
  · rw [hblk]
    exact ⟨List.prefix_rfl, fun h => absurd ho.term h⟩

theorem emitAny_grows (t : Vector UInt16 kMethodSlots) (contBb : Nat) (ho : b.Open) :
    Grows (· = b.cur) b (emitAny c t contBb b) := by
  unfold emitAny
  split
  · exact (emits_build ho _).grows_trans (grows_terminate (open_build ho _))
  · exact grows_terminate ho

/-- The terminal for any method. -/
theorem emitAny_run (t : Vector UInt16 kMethodSlots) {contBb : Nat} (ho : b.Open)
    (hb : c.Below b.nextReg) (hF : Completes m (emitAny c t contBb b)) (hc : At b s)
    (hR : Ready c m slot best s) :
    ∃ s', Steps m s (s'.goto contBb) ∧
      Ready c m slot (if t[0] ≠ kInvalidRoute then t[0] else best) s' := by
  unfold emitAny at hF
  split at hF
  · next hval =>
    obtain ⟨cells, he, hR'⟩ := store_best hR t[0] hb
    obtain ⟨hstep, hat⟩ := step_build ho (hF.mono (grows_terminate (open_build ho _))) hc he
    have hbr := step_terminate (open_build ho _) hF hat
    rw [if_pos hval]
    exact ⟨_, .tail (.single hstep) hbr, hR' _ le_rfl⟩
  · next hinv =>
    rw [if_neg hinv]
    exact ⟨s, .single (step_terminate ho hF hc), hR⟩

/-- The two blocks appended first are still empty after the switch. -/
theorem block_emitMixed {l : Nat} (t : Vector UInt16 kMethodSlots) (ho : b.Open)
    (hl : l = b.blocks.length ∨ l = b.blocks.length + 1) : (emitMixed c t b).block l = {} := by
  obtain ⟨new, -, hnew⟩ := emitMixed_spec (c := c) t ho
  have hlive := ho.live
  have hne : l ≠ b.cur := by omega
  rw [hnew.frame l (by simp; omega) hne, block_appendBlock, block_appendBlock,
    block_of_length_le (by omega)]

theorem open_any (t : Vector UInt16 kMethodSlots) (ho : b.Open) :
    ((emitMixed c t b).positionAtEnd (b.blocks.length + 1)).Open := by
  obtain ⟨new, -, hnew⟩ := emitMixed_spec (c := c) t ho
  have hsize := hnew.size
  rw [length_appendBlock, length_appendBlock] at hsize
  refine ⟨?_, ?_⟩
  · show b.blocks.length + 1 < (emitMixed c t b).blocks.length
    omega
  · show ((emitMixed c t b).block (b.blocks.length + 1)).term = none
    rw [block_emitMixed t ho (.inr rfl)]

theorem block_emitSwitch (t : Vector UInt16 kMethodSlots) (ho : b.Open) :
    (emitSwitch c t b).block b.blocks.length = {} := by
  have hgrow := emitAny_grows (c := c) t b.blocks.length (open_any (c := c) t ho)
  have hlt : b.blocks.length < ((emitMixed c t b).positionAtEnd (b.blocks.length + 1)).blocks.length :=
    (Nat.lt_succ_self _).trans (open_any (c := c) t ho).live
  refine (hgrow.frame _ hlt ?_).trans (block_emitMixed t ho (.inl rfl))
  exact (Nat.lt_succ_self _).ne

theorem emitSwitch_emits (t : Vector UInt16 kMethodSlots) (ho : b.Open) :
    Emits b (emitSwitch c t b) := by
  have hany := emitAny_grows (c := c) t b.blocks.length (open_any (c := c) t ho)
  have hgrow : Grows (· = b.cur) b (emitSwitch c t b) :=
    (((emitMixed_grows t ho).positionAtEnd _).trans hany fun l hl =>
      .inr (by rw [hl]; exact Nat.le_succ _)).positionAtEnd _
  refine ⟨hgrow, .inr le_rfl, ?_, ?_⟩
  · have hlt := (open_any (c := c) t ho).live
    exact (Nat.lt_succ_self _).trans (lt_of_lt_of_le hlt hany.size)
  · show ((emitSwitch c t b).block b.blocks.length).term = none
    rw [block_emitSwitch t ho]

theorem mem_specificSlots : ∀ slot : MethodSlot, slot ∈ specificSlots ↔ slot ≠ 0 := by decide

theorem i32_slot_inj : ∀ x y : MethodSlot,
    Val.i32 (UInt32.ofNat x) = Val.i32 (UInt32.ofNat y) → x = y := by decide

/-- The cases of the switch are the slots with a specific terminal, each once. -/
theorem SpecificCases.find {t : Vector UInt16 kMethodSlots} {contBb sw : Nat} {b b' : Builder}
    {new : List (Val × Nat)} (h : SpecificCases c t contBb specificSlots b b' sw new)
    (slot : MethodSlot) :
    (new.map (·.1)).Nodup ∧
      ((slot ≠ 0 ∧ getElem t slot slot.isLt ≠ kInvalidRoute) ∧ (∃ x r, x ∈ new ∧
          new.find? (fun p => p.1 = .i32 (UInt32.ofNat slot)) = some x ∧ b.nextReg ≤ r ∧
          b'.block x.2 =
            ⟨[(r, .store (constI16 (getElem t slot slot.isLt)) c.bestAlloca)], some (.br contBb)⟩) ∨
        ¬ (slot ≠ 0 ∧ getElem t slot slot.isLt ≠ kInvalidRoute) ∧
          new.find? (fun p => p.1 = .i32 (UInt32.ofNat slot)) = none) := by
  have hmem : Val.i32 (UInt32.ofNat slot) ∈ new.map (·.1) ↔
      slot ≠ 0 ∧ t[slot] ≠ kInvalidRoute := by
    rw [h.keys, List.mem_map]
    constructor
    · rintro ⟨x, hx, heq⟩
      obtain rfl := i32_slot_inj _ _ heq
      simpa [mem_specificSlots] using hx
    · intro hs
      exact ⟨slot, by simpa [mem_specificSlots] using hs, rfl⟩
  refine ⟨?_, ?_⟩
  · rw [h.keys]
    exact List.Nodup.map (fun x y => i32_slot_inj x y) (List.Nodup.filter _ (by decide))
  · cases hf : new.find? (fun p => p.1 = .i32 (UInt32.ofNat slot)) with
    | none =>
      refine .inr ⟨fun hs => ?_, rfl⟩
      obtain ⟨x, hx, hkey⟩ := List.mem_map.mp (hmem.mpr hs)
      exact absurd (decide_eq_true hkey) (List.find?_eq_none.mp hf x hx)
    | some x =>
      have hx := List.mem_of_find?_eq_some hf
      have hkey : x.1 = .i32 (UInt32.ofNat slot) := by simpa using List.find?_some hf
      obtain ⟨-, -, s', r, hkey', hr, hblk⟩ := h.stores x hx
      obtain rfl := i32_slot_inj _ _ (hkey.symm.trans hkey')
      exact .inl ⟨hmem.mp (hkey ▸ List.mem_map_of_mem hx), x, r, hx, rfl, hr, hblk⟩

/-- The switch picks the terminal that the node offers. -/
theorem emitSwitch_run (hdr : ArtNodeHeader) (ho : b.Open) (hb : c.Below b.nextReg)
    (hF : Completes m (emitSwitch c hdr.routeIdxByMethod b)) (hc : At b s)
    (hR : Ready c m slot best s) :
    ∃ s', Steps m s s' ∧ At (emitSwitch c hdr.routeIdxByMethod b) s' ∧
      Ready c m slot (if ArtTrie.pickTerminal hdr slot ≠ kInvalidRoute then
        ArtTrie.pickTerminal hdr slot else best) s' := by
  have hany := open_any (c := c) hdr.routeIdxByMethod ho
  have hend : ∀ s' : Config, At (emitSwitch c hdr.routeIdxByMethod b) (s'.goto b.blocks.length) :=
    fun s' => at_goto rfl (block_emitSwitch _ ho)
  obtain ⟨new, hblk, hnew⟩ := emitMixed_spec (c := c) hdr.routeIdxByMethod ho
  have hgrow := emitAny_grows (c := c) hdr.routeIdxByMethod b.blocks.length hany
  have hFany : Completes m (emitAny c hdr.routeIdxByMethod b.blocks.length
      ((emitMixed c hdr.routeIdxByMethod b).positionAtEnd (b.blocks.length + 1))) := fun l => hF l
  have hFmixed : Completes m (emitMixed c hdr.routeIdxByMethod b) := fun l => hFany.mono hgrow l
  -- the switch itself
  have hsw : step m s = evalTerm m s (.switch c.methodSlot (b.blocks.length + 1) new) := by
    apply step_block ((emitMixed c hdr.routeIdxByMethod b).block b.cur)
    · rw [hc.label]
      exact hFmixed b.cur
    · rw [hblk]
    · rw [hblk, hc.pc]
  obtain ⟨hnodup, hcases⟩ := hnew.find slot
  simp only [evalTerm, hR.slot, hnodup, if_true] at hsw
  rw [ArtTrie.pickTerminal]
  rcases hcases with ⟨hs, x, r, hx, hfind, hr, hblkx⟩ | ⟨hs, hfind⟩
  · -- a specific terminal: its block stores the route
    rw [hfind] at hsw
    rw [if_pos hs, if_pos hs.2]
    have hmx : m.block x.2 = (emitMixed c hdr.routeIdxByMethod b).block x.2 :=
      (hFmixed x.2).term (by rw [hblkx]; simp)
    rw [hblkx] at hmx
    obtain ⟨cells, he, hR'⟩ := store_best (hR.goto x.2) hdr.routeIdxByMethod[slot] hb
    have hst : Step m (s.goto x.2) ((s.goto x.2).define r none cells) := by
      refine step_inst ?_ he
      show (m.block x.2).insts[0]? = _
      rw [hmx]
      rfl
    have hbr : step m ((s.goto x.2).define r none cells) =
        some (.inl (((s.goto x.2).define r none cells).goto b.blocks.length)) := by
      refine (step_block (t := .br b.blocks.length) (m.block x.2) (.refl _) ?_ ?_).trans rfl
      · rw [hmx]
      · rw [hmx]
        rfl
    exact ⟨_, .tail (.tail (.single hsw) hst) hbr, hend _, (hR' r hr).goto _⟩
  · rw [hfind] at hsw
    rw [if_neg hs]
    have hat : At ((emitMixed c hdr.routeIdxByMethod b).positionAtEnd (b.blocks.length + 1))
        (s.goto (b.blocks.length + 1)) := at_goto rfl (block_emitMixed _ ho (.inr rfl))
    obtain ⟨s', hs', hR'⟩ := emitAny_run hdr.routeIdxByMethod hany
      (hb.mono (emitMixed_grows _ ho).regs) hFany hat (hR.goto _)
    exact ⟨_, .trans (.single hsw) hs', hend _, hR'.goto _⟩

theorem emitTerminalPickup_emits (ho : b.Open) (hdr : ArtNodeHeader) :
    Emits b (emitTerminalPickup c b hdr) := by
  unfold emitTerminalPickup
  dsimp only
  split
  · exact .refl ho
  · split
    · exact emits_build ho _
    · exact emitSwitch_emits _ ho

/-- The terminals of a node update `best` as the scalar code does. -/
theorem emitTerminalPickup_run (hdr : ArtNodeHeader) (ho : b.Open) (hb : c.Below b.nextReg)
    (hF : Completes m (emitTerminalPickup c b hdr)) (hc : At b s) (hR : Ready c m slot best s) :
    ∃ s', Steps m s s' ∧ At (emitTerminalPickup c b hdr) s' ∧
      Ready c m slot (if ArtTrie.pickTerminal hdr slot ≠ kInvalidRoute then
        ArtTrie.pickTerminal hdr slot else best) s' := by
  by_cases hspec : specificSlots.any (fun s => hdr.routeIdxByMethod[s] ≠ kInvalidRoute) = true
  · have heq : emitTerminalPickup c b hdr = emitSwitch c hdr.routeIdxByMethod b := by
      simp only [emitTerminalPickup, hspec, Bool.not_true, Bool.and_false, Bool.false_eq_true,
        if_false]
    rw [heq] at hF ⊢
    exact emitSwitch_run hdr ho hb hF hc hR
  · have hnone : ¬ (slot ≠ 0 ∧ hdr.routeIdxByMethod[slot] ≠ kInvalidRoute) := fun hs =>
      hspec (List.any_eq_true.mpr ⟨slot, (mem_specificSlots slot).mpr hs.1, decide_eq_true hs.2⟩)
    rw [ArtTrie.pickTerminal, if_neg hnone]
    by_cases hval : hdr.routeIdxByMethod[0] ≠ kInvalidRoute
    · have heq : emitTerminalPickup c b hdr =
          (b.build (.store (constI16 hdr.routeIdxByMethod[0]) c.bestAlloca)).2 := by
        simp only [emitTerminalPickup, hspec, decide_eq_true hval, Bool.not_true, Bool.not_false,
          Bool.false_and, Bool.false_eq_true, if_false, if_true]
      rw [heq] at hF ⊢
      obtain ⟨cells, he, hR'⟩ := store_best hR hdr.routeIdxByMethod[0] hb
      obtain ⟨hstep, hat⟩ := step_build ho hF hc he
      rw [if_pos hval]
      exact ⟨_, .single hstep, hat, hR' _ le_rfl⟩
    · have heq : emitTerminalPickup c b hdr = b := by
        simp only [emitTerminalPickup, hspec, decide_eq_false hval, Bool.not_false, Bool.and_self,
          if_true]
      rw [heq, if_neg hval]
      exact ⟨s, .refl, hc, hR⟩

end Pieces

end Rut.Jit
