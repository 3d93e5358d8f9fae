import Rut.Jit.Emit
import Rut.Route.Art.Verified

/-!
# The specialised function decides as the trie does

The walk emits, for every node, code that ends the descent with the route the loop of the scalar
lookup returns from there. `emitChildDescent_spec` and `emitNodeDispatch_spec` say two things: the
emission only adds to the builder, and every machine that completes it decides.
-/

namespace Rut.Jit

open Lib Lib.Ir List ArtTrie

/-- The machine ends the descent with a route that `post` holds of. -/
def Ends (c : EmitCtx) (m : Machine) (slot : MethodSlot) (s : Config) (post : UInt16 → Prop) :
    Prop :=
  ∃ s' best, Steps m s s' ∧ Broke c m slot best s' ∧ post best

/-- From `s` the machine ends the descent as the scalar loop does at the node `ref`, `depth` bytes
into the path. -/
def Decides (c : EmitCtx) (m : Machine) (ref : ArtChildRef) (depth : Nat) (s : Config) : Prop :=
  ∀ p slot best, Args m p → depth ≤ p.length → Ready c m slot best s →
    Ends c m slot s fun r => ∀ fuel, p.length - depth ≤ fuel →
      c.trie.generalLoop slot fuel ref best (p.drop depth) = some r

/-- From `s` the machine ends the descent as the scalar loop does once it has chosen the child
`ref`. -/
def Descends (c : EmitCtx) (m : Machine) (ref : ArtChildRef) (depth : Nat) (s : Config) : Prop :=
  ∀ p slot best, Args m p → depth ≤ p.length → Ready c m slot best s →
    Ends c m slot s fun r => ∀ fuel, p.length - (depth + (c.trie.header ref).edge.length) ≤ fuel →
      (if (c.trie.header ref).edge.isPrefixOf (p.drop depth) then
        c.trie.generalLoop slot fuel ref
          (if pickTerminal (c.trie.header ref) slot ≠ kInvalidRoute then
            pickTerminal (c.trie.header ref) slot else best)
          ((p.drop depth).drop (c.trie.header ref).edge.length)
      else some best) = some r

section Walk

variable {c : EmitCtx} {m : Machine} {slot : MethodSlot} {best : UInt16} {s s' : Config} {p : Str}
  {b : Builder}

theorem Ends.of_steps {post : UInt16 → Prop} (h : Ends c m slot s' post) (hs : Steps m s s') :
    Ends c m slot s post := by
  obtain ⟨s'', r, hs', hbroke, hpost⟩ := h
  exact ⟨s'', r, hs.trans hs', hbroke, hpost⟩

theorem Broke.ends {post : UInt16 → Prop} (h : Broke c m slot best s) (hpost : post best) :
    Ends c m slot s post :=
  ⟨s, best, .refl, h, hpost⟩

theorem toNat_ofNat {n : Nat} (hn : n < 2 ^ 32) : (UInt32.ofNat n).toNat = n :=
  UInt32.toNat_ofNat_of_lt' hn

theorem eval_effLen (hA : Args m p) : eval m s effLen = some (.i32 (UInt32.ofNat p.length)) :=
  hA.len

/-! ## Children -/

/-- The emission for one child, given the emission for its own children. -/
theorem emitChildDescent_spec {emitNode : Builder → ArtChildRef → UInt32 → Option Builder}
    {ref : ArtChildRef} {depth : Nat} (hlt : depth + (c.trie.header ref).edge.length < 2 ^ 31)
    (hnode : ∀ b : Builder, b.Open → c.Below b.nextReg →
      ∃ b', emitNode b ref (UInt32.ofNat (depth + (c.trie.header ref).edge.length)) = some b' ∧
        Grows (· = b.cur) b b' ∧ ∀ m, Completes m b' → ∀ s, At b s →
          Decides c m ref (depth + (c.trie.header ref).edge.length) s)
    (ho : b.Open) (hb : c.Below b.nextReg) :
    ∃ b', emitChildDescent c emitNode b ref (UInt32.ofNat depth) = some b' ∧
      Grows (· = b.cur) b b' ∧ ∀ m, Completes m b' → ∀ s, At b s → Descends c m ref depth s := by
  have hend : UInt32.ofNat depth + UInt32.ofNat (c.trie.header ref).edge.length =
      UInt32.ofNat (depth + (c.trie.header ref).edge.length) := (UInt32.ofNat_add ..).symm
  unfold emitChildDescent
  dsimp only
  rw [hend]
  -- the builder after the length check, after the edge and after the terminals
  have h₁ := emitCompareOrBreak_emits (c := c) ho .ule
    (constI32 (UInt32.ofNat (depth + (c.trie.header ref).edge.length))) effLen
  have h₂ := emitEdge_emits (c := c) (UInt32.ofNat depth) (c.trie.header ref).edge h₁.isOpen
  have h₃ := emitTerminalPickup_emits (c := c) h₂.isOpen (c.trie.header ref)
  have hb₁ := hb.mono h₁.grows.regs
  have hb₂ := hb₁.mono h₂.grows.regs
  obtain ⟨b', hb', hgrow, hdec⟩ := hnode _ h₃.isOpen (hb₂.mono h₃.grows.regs)
  refine ⟨b', hb', ((h₁.trans h₂).trans h₃).grows_trans hgrow, ?_⟩
  intro m hF s hat p slot best hA hle hR
  have hF₃ := hF.mono hgrow
  have hF₂ := hF₃.mono h₃.grows
  have hF₁ := hF₂.mono h₂.grows
  have hbound := hA.bound
  obtain ⟨s₁, hs₁, hend₁⟩ := emitCompareOrBreak_run ho hb hF₁ hat rfl (eval_effLen hA) rfl hR
  rw [decide_eq_true_eq, decide_eq_false_iff_not, UInt32.le_iff_toNat_le, toNat_ofNat (by omega),
    toNat_ofNat hbound] at hend₁
  refine Ends.of_steps ?_ hs₁
  obtain ⟨hfit, hR₁, hat₁⟩ | ⟨hfit, hbroke⟩ := hend₁
  · obtain ⟨s₂, hs₂, hend₂⟩ := emitEdge_run hA _ h₁.isOpen hb₁ hfit hlt hF₂ hat₁ hR₁
    refine Ends.of_steps ?_ hs₂
    obtain ⟨hpre, hR₂, hat₂⟩ | ⟨hpre, hbroke⟩ := hend₂
    · obtain ⟨s₃, hs₃, hat₃, hR₃⟩ := emitTerminalPickup_run _ h₂.isOpen hb₂ hF₃ hat₂ hR₂
      refine Ends.of_steps ?_ hs₃
      simp only [List.isPrefixOf_iff_prefix, hpre, if_true, drop_drop]
      exact hdec m hF s₃ hat₃ p slot _ hA hfit hR₃
    · refine hbroke.ends fun fuel _ => ?_
      rw [if_neg (by rwa [List.isPrefixOf_iff_prefix])]
  · -- the path ends inside the edge
    refine hbroke.ends fun fuel _ => if_neg fun hpre => hfit ?_
    have hlen := (List.isPrefixOf_iff_prefix.mp hpre).length_le
    rw [length_drop] at hlen
    omega

/-! ## The switch over the children -/

/-- What the first loop over the children leaves behind. -/
structure ChildCases (sw default : Nat) (v : Operand) (cases : List (Val × Nat))
    (children : List (UInt8 × ArtChildRef)) (b b' : Builder) : Prop where
  size : b'.blocks.length = b.blocks.length + children.length
  regs : b'.nextReg = b.nextReg
  frame : ∀ l, l ≠ sw → b'.block l = b.block l
  switch : b'.block sw = { b.block sw with term := some (.switch v default
    (cases ++ (children.zipIdx b.blocks.length).map fun x => (.i8 x.1.1, x.2))) }

theorem emitCases_spec {sw default : Nat} {v : Operand} :
    ∀ (children : List (UInt8 × ArtChildRef)) {b : Builder} {cases : List (Val × Nat)},
    sw < b.blocks.length → (b.block sw).term = some (.switch v default cases) →
    (emitCases sw children b).1 = (children.zipIdx b.blocks.length).map (fun x => (x.2, x.1.2)) ∧
      ChildCases sw default v cases children b (emitCases sw children b).2
  | [], b, cases, _, ht => by
    refine ⟨rfl, rfl, rfl, fun _ _ => rfl, ?_⟩
    rw [zipIdx_nil, map_nil, append_nil, ← ht]
    rfl
  | (key, ref) :: children, b, cases, hsw, ht => by
    have hsw' := Builder.block_appendCase_self (v := .i8 key) hsw ht
    have hlen : (b.appendCase sw (.i8 key)).2.blocks.length = b.blocks.length + 1 :=
      Builder.length_appendCase
    have hlive : sw < (b.appendCase sw (.i8 key)).2.blocks.length := by omega
    obtain ⟨hblocks, h⟩ := emitCases_spec children hlive (by rw [hsw'])
    have hcons : emitCases sw ((key, ref) :: children) b =
      ((b.blocks.length, ref) :: (emitCases sw children (b.appendCase sw (.i8 key)).2).1,
        (emitCases sw children (b.appendCase sw (.i8 key)).2).2) := rfl
    rw [hcons, hblocks, hlen]
    refine ⟨rfl, ⟨?_, ?_, ?_, ?_⟩⟩
    · rw [h.size, hlen, length_cons]
      omega
    · rw [h.regs, Builder.nextReg_appendCase]
    · exact fun l hl => (h.frame l hl).trans (Builder.block_appendCase_ne hl)
    · rw [h.switch, hsw', hlen]
      simp

/-- The second loop, for any property `R` that the emission for a child establishes of the machines
that complete it. -/
theorem emitChildren_spec (emitChild : Builder → ArtChildRef → Option Builder)
    {R : Nat × ArtChildRef → Machine → Prop} : ∀ (children : List (Nat × ArtChildRef)) {b : Builder},
    (children.map (·.1)).Nodup → (∀ x ∈ children, x.1 < b.blocks.length ∧ b.block x.1 = {}) →
    c.Below b.nextReg →
    (∀ x ∈ children, ∀ b : Builder, b.Open → c.Below b.nextReg → b.cur = x.1 → b.block x.1 = {} →
      ∃ b', emitChild b x.2 = some b' ∧ Grows (· = b.cur) b b' ∧ ∀ m, Completes m b' → R x m) →
    ∃ b', emitChildren emitChild children b = some b' ∧ Grows (· ∈ children.map (·.1)) b b' ∧
      ∀ m, Completes m b' → ∀ x ∈ children, R x m
  | [], b, _, _, _, _ => ⟨b, rfl, .refl b, fun _ _ _ hx => absurd hx (not_mem_nil)⟩
  | x :: children, b, hnodup, hempty, hb, hchild => by
    rw [map_cons, nodup_cons] at hnodup
    obtain ⟨hlive, hblk⟩ := hempty x (mem_cons_self ..)
    have ho : (b.positionAtEnd x.1).Open := ⟨hlive, by
      show (b.block x.1).term = none
      rw [hblk]⟩
    obtain ⟨b₁, hb₁, hgrow, hR⟩ := hchild x (mem_cons_self ..) (b.positionAtEnd x.1) ho hb rfl
      hblk
    have hgrow₁ : Grows (· = x.1) b b₁ := ⟨hgrow.size, hgrow.regs, hgrow.frame, hgrow.grow⟩
    -- the blocks of the other children are as they were
    have hempty₁ : ∀ y ∈ children, y.1 < b₁.blocks.length ∧ b₁.block y.1 = {} := by
      intro y hy
      obtain ⟨hlt, hy'⟩ := hempty y (mem_cons_of_mem _ hy)
      have hne : y.1 ≠ x.1 := fun h => hnodup.1 (h ▸ mem_map_of_mem hy)
      exact ⟨hlt.trans_le hgrow₁.size, (hgrow₁.frame y.1 hlt hne).trans hy'⟩
    obtain ⟨b₂, hb₂, hgrow₂, hR₂⟩ := emitChildren_spec emitChild children hnodup.2 hempty₁
      (hb.mono hgrow₁.regs) fun y hy => hchild y (mem_cons_of_mem _ hy)
    refine ⟨b₂, ?_, ?_, ?_⟩
    · rw [emitChildren, hb₁]
      exact hb₂
    · refine (hgrow₁.mono fun l hl => ?_).trans hgrow₂ fun l hl => .inl ?_
      · rw [hl]
        exact mem_cons_self ..
      · exact mem_cons_of_mem _ hl
    · intro m hF y hy
      rcases mem_cons.mp hy with rfl | hy
      · exact hR m (hF.mono hgrow₂)
      · exact hR₂ m hF y hy

/-- The switch finds the block of the child with the byte, if there is one. -/
theorem find_childCase (children : List (UInt8 × ArtChildRef)) (n : Nat) (x : UInt8) :
    (∃ l ref, (x, ref) ∈ children ∧
        (l, ref) ∈ (children.zipIdx n).map (fun y => (y.2, y.1.2)) ∧
        ((children.zipIdx n).map fun y => (Val.i8 y.1.1, y.2)).find? (fun y => y.1 = .i8 x) =
          some (.i8 x, l)) ∨
      (∀ ref, (x, ref) ∉ children) ∧
        ((children.zipIdx n).map fun y => (Val.i8 y.1.1, y.2)).find? (fun y => y.1 = .i8 x) =
          none := by
  have hfst : (children.zipIdx n).map Prod.fst = children := zipIdx_map_fst ..
  rw [List.find?_map]
  cases hf : (children.zipIdx n).find? ((fun y => decide (y.1 = Val.i8 x)) ∘
      fun y => (Val.i8 y.1.1, y.2)) with
  | some y =>
    obtain ⟨⟨key, ref⟩, l⟩ := y
    have hy := mem_of_find?_eq_some hf
    have hkey : key = x := by simpa using List.find?_some hf
    subst hkey
    refine .inl ⟨l, ref, ?_, mem_map.mpr ⟨_, hy, rfl⟩, rfl⟩
    rw [← hfst]
    exact mem_map_of_mem hy
  | none =>
    refine .inr ⟨fun ref hmem => ?_, rfl⟩
    rw [← hfst, mem_map] at hmem
    obtain ⟨y, hy, heq⟩ := hmem
    have := List.find?_eq_none.mp hf y hy
    simp [heq] at this

/-- The switch with the code for the children behind it. `R` is what the emission for a child
establishes. -/
theorem emitSwitchChildren_spec {v : Operand} {entries : List (UInt8 × ArtChildRef)}
    {emitChild : Builder → ArtChildRef → Option Builder} {R : ArtChildRef → Machine → Config → Prop}
    (hkeys : (entries.map (·.1)).Nodup)
    (hchild : ∀ key ref, (key, ref) ∈ entries → ∀ b : Builder, b.Open → c.Below b.nextReg →
      ∃ b', emitChild b ref = some b' ∧ Grows (· = b.cur) b b' ∧
        ∀ m, Completes m b' → ∀ s, At b s → R ref m s)
    (ho : b.Open) (hb : c.Below b.nextReg) :
    ∃ b', emitChildren emitChild
        (emitCases b.cur entries (b.terminate (.switch v c.returnBest []))).1
        (emitCases b.cur entries (b.terminate (.switch v c.returnBest []))).2 = some b' ∧
      Grows (· = b.cur) b b' ∧
      ∀ m, Completes m b' → ∀ s x, At b s → eval m s v = some (.i8 x) →
        (∃ ref l, (x, ref) ∈ entries ∧ Step m s (s.goto l) ∧ R ref m (s.goto l)) ∨
          (∀ ref, (x, ref) ∉ entries) ∧ Step m s (s.goto c.returnBest) := by
  have hlen : (b.terminate (.switch v c.returnBest [])).blocks.length = b.blocks.length :=
    Builder.length_terminate
  have hsw : (b.terminate (.switch v c.returnBest [])).block b.cur =
      { b.block b.cur with term := some (.switch v c.returnBest []) } :=
    Builder.block_setBlock_self ho.live
  have hlive := ho.live
  obtain ⟨hblocks, hcases⟩ := emitCases_spec (v := v) entries
    (b := b.terminate (.switch v c.returnBest [])) (hlen ▸ hlive) (by rw [hsw])
  rw [hblocks, hlen]
  generalize (emitCases b.cur entries (b.terminate (.switch v c.returnBest []))).2 = b₁ at hcases
  have hsize := hcases.size
  have hswitch := hcases.switch
  rw [hlen, hsw, nil_append] at hswitch
  rw [hlen] at hsize
  have hframe : ∀ l, l ≠ b.cur → b₁.block l = b.block l := fun l hl =>
    (hcases.frame l hl).trans (Builder.block_setBlock_ne hl)
  have hgrow : Grows (· = b.cur) b b₁ := by
    have hregs : b.nextReg ≤ b₁.nextReg := hcases.regs.ge
    apply grows_of_frame (by omega) hregs fun l _ hl => hframe l hl
    rw [hswitch]
    exact ⟨prefix_rfl, fun h => absurd ho.term h⟩
  -- the new blocks exist, are distinct and empty
  have hlabels : ((entries.zipIdx b.blocks.length).map fun x => (x.2, x.1.2)).map (·.1) =
      List.range' b.blocks.length entries.length := by
    rw [map_map]
    exact zipIdx_map_snd ..
  have hnew : ∀ x ∈ (entries.zipIdx b.blocks.length).map (fun x => (x.2, x.1.2)),
      b.blocks.length ≤ x.1 ∧ x.1 < b₁.blocks.length ∧ b₁.block x.1 = {} := by
    intro x hx
    have hmem := mem_map_of_mem (f := (·.1)) hx
    rw [hlabels, mem_range'_1] at hmem
    refine ⟨hmem.1, by omega, ?_⟩
    rw [hframe _ (by omega), Builder.block_of_length_le hmem.1]
  obtain ⟨b', hb', hgrow', hR⟩ := emitChildren_spec (c := c) emitChild
    (R := fun x m => ∀ s : Config, s.label = x.1 → s.pc = 0 → R x.2 m s) _
    (hlabels ▸ nodup_range' ..) (fun x hx => (hnew x hx).2) (hb.mono hgrow.regs) (by
      intro x hx b₂ ho₂ hb₂ hcur hempty
      obtain ⟨y, hy, rfl⟩ := mem_map.mp hx
      obtain ⟨b', hb', hg, hR⟩ := hchild _ _ (fst_mem_of_mem_zipIdx hy) b₂ ho₂ hb₂
      refine ⟨b', hb', hg, fun m hF s hl hpc => hR m hF s ⟨hl.trans hcur.symm, ?_⟩⟩
      rw [hcur, hempty, hpc]
      rfl)
  refine ⟨b', hb', hgrow.trans hgrow' fun l hl => .inr ?_, ?_⟩
  · obtain ⟨x, hx, rfl⟩ := mem_map.mp hl
    exact (hnew x hx).1
  · intro m hF s x hat hv
    have hstep := step_block (c := s) (m := m) (b₁.block b.cur)
      (by rw [hat.label]; exact hF.mono hgrow' _) (by rw [hswitch]) (by rw [hswitch]; exact hat.pc)
    have hnodup : (((entries.zipIdx b.blocks.length).map fun x => (Val.i8 x.1.1, x.2)).map
        (·.1)).Nodup := by
      have heq : ((entries.zipIdx b.blocks.length).map fun x => (Val.i8 x.1.1, x.2)).map (·.1) =
          (((entries.zipIdx b.blocks.length).map Prod.fst).map (·.1)).map Val.i8 := by
        simp only [map_map]
        rfl
      rw [heq, zipIdx_map_fst]
      exact hkeys.map fun _ _ h => Val.i8.inj h
    simp only [evalTerm, hv, hnodup, if_true] at hstep
    obtain ⟨l, ref, hmem, hl, hfind⟩ | ⟨hno, hfind⟩ := find_childCase entries b.blocks.length x
    · rw [hfind] at hstep
      exact .inl ⟨ref, l, hmem, hstep, hR m hF _ hl _ rfl rfl⟩
    · rw [hfind] at hstep
      exact .inr ⟨hno, hstep⟩

/-- A loop that finds no child keeps its route. -/
theorem generalLoop_stop {t : ArtTrie} {ref : ArtChildRef} {depth : Nat}
    (h : ∀ x, (p.drop depth).head? = some x → t.findChild ref x = none) :
    ∀ fuel, p.length - depth ≤ fuel → t.generalLoop slot fuel ref best (p.drop depth) = some best := by
  intro fuel hfuel
  rw [← length_drop] at hfuel
  cases hrest : p.drop depth with
  | nil => cases fuel <;> rfl
  | cons x rest =>
    rw [hrest] at h hfuel
    cases fuel with
    | zero => exact absurd hfuel (by simp)
    | succ fuel => rw [generalLoop, h x rfl]

theorem generalLoop_child {t : ArtTrie} {ref child : ArtChildRef} {x : UInt8} {rest : Str}
    (h : t.findChild ref x = some child) (fuel : Nat) :
    t.generalLoop slot (fuel + 1) ref best (x :: rest) =
      if (t.header child).edge.isPrefixOf (x :: rest) then
        t.generalLoop slot fuel child
          (if pickTerminal (t.header child) slot ≠ kInvalidRoute then
            pickTerminal (t.header child) slot else best)
          ((x :: rest).drop (t.header child).edge.length)
      else some best := by
  rw [generalLoop, h]

/-! ## Nodes -/

/-- With more fuel than the words below the node are long, the walk emits code that decides from
there on. -/
theorem emitNodeDispatch_spec {L : Nat} (hI : c.trie.Inv)
    (hL : ∀ {r w}, RadixGraph.At c.trie.graph r w → w.length < L) (hL31 : L ≤ 2 ^ 31) :
    ∀ (fuel : Nat) {b : Builder} {ref : ArtChildRef} {w : Str}, RadixGraph.At c.trie.graph ref w →
    L ≤ w.length + fuel → b.Open → c.Below b.nextReg →
    ∃ b', emitNodeDispatch c fuel b ref (UInt32.ofNat w.length) = some b' ∧
      Grows (· = b.cur) b b' ∧ ∀ m, Completes m b' → ∀ s, At b s → Decides c m ref w.length s := by
  intro fuel
  induction fuel with
  | zero =>
    intro b ref w hw hfuel
    exact absurd (hL hw) (by omega)
  | succ fuel ih =>
    intro b ref w hw hfuel ho hb
    obtain ⟨n, hn, hwf⟩ := hI.live hw
    obtain ⟨hkeys, hmem⟩ := ArtNode.entries_spec hwf
    have hlt := hL hw
    have hfind : ∀ x, c.trie.findChild ref x = n.find x := by
      intro x
      rw [findChild, hn]
    rw [emitNodeDispatch, hn]
    dsimp only
    by_cases hnil : n.entries = []
    · -- a leaf: nothing left to compare
      rw [if_pos hnil]
      refine ⟨_, rfl, grows_terminate ho, fun m hF s hat p slot best hA hle hR => ?_⟩
      refine Ends.of_steps (hR.broke.ends ?_) (.single (step_terminate ho hF hat))
      refine generalLoop_stop fun x _ => ?_
      rw [hfind, Option.eq_none_iff_forall_ne_some]
      intro child hchild
      have := (hmem x child).mpr hchild
      rw [hnil] at this
      exact absurd this (not_mem_nil)
    · rw [if_neg hnil]
      have h₁ := emitCompareOrBreak_emits (c := c) ho .ult (constI32 (UInt32.ofNat w.length)) effLen
      have h₂ := emitLoadByte_emits h₁.isOpen (constI32 (UInt32.ofNat w.length))
      have hb₁ := hb.mono h₁.grows.regs
      -- every child has a longer word, so the induction hypothesis applies to it
      have hchild : ∀ key child, (key, child) ∈ n.entries → ∀ b : Builder, b.Open →
          c.Below b.nextReg →
          ∃ b', emitChildDescent c (emitNodeDispatch c fuel) b child (UInt32.ofNat w.length) =
              some b' ∧ Grows (· = b.cur) b b' ∧
            ∀ m, Completes m b' → ∀ s, At b s → Descends c m child w.length s := by
        intro key child hin b hob hbb
        have hfx : c.trie.findChild ref key = some child := (hfind _).trans ((hmem _ _).mp hin)
        have hat : RadixGraph.At c.trie.graph child (w ++ (c.trie.header child).edge) :=
          hw.step hfx
        obtain ⟨l, hl⟩ : ∃ l, (c.trie.header child).edge = key :: l := hI.shape.key hw hfx
        have hpos : 0 < (c.trie.header child).edge.length := by simp [hl]
        have hlen := hL hat
        rw [length_append] at hlen
        refine emitChildDescent_spec (by omega) (fun b₂ ho₂ hb₂ => ?_) hob hbb
        rw [← length_append]
        refine ih hat ?_ ho₂ hb₂
        rw [length_append]
        omega
      obtain ⟨b', hb', hgrow, hrun⟩ := emitSwitchChildren_spec (v := (emitLoadByte _ _).1) hkeys
        hchild h₂.isOpen (hb₁.mono h₂.grows.regs)
      refine ⟨b', hb', (h₁.trans h₂).grows_trans hgrow, ?_⟩
      intro m hF s hat p slot best hA hle hR
      have hF₂ := hF.mono hgrow
      have hn32 : (UInt32.ofNat w.length).toNat = w.length := toNat_ofNat (by omega)
      obtain ⟨s₁, hs₁, hend₁⟩ := emitCompareOrBreak_run ho hb (hF₂.mono h₂.grows) hat rfl
        (eval_effLen hA) rfl hR
      rw [decide_eq_true_eq, decide_eq_false_iff_not, UInt32.lt_iff_toNat_lt, hn32,
        toNat_ofNat hA.bound] at hend₁
      refine Ends.of_steps ?_ hs₁
      obtain ⟨hmore, hR₁, hat₁⟩ | ⟨hdone, hbroke⟩ := hend₁
      · have hdrop : p.drop w.length = p[w.length] :: p.drop (w.length + 1) :=
          drop_eq_getElem_cons hmore
        have hx : p[(UInt32.ofNat w.length).toNat]? = some p[w.length] := by
          rw [hn32]
          exact List.getElem?_eq_getElem hmore
        obtain ⟨s₂, hs₂, hat₂, hR₂, hbyte⟩ := emitLoadByte_run h₁.isOpen hb₁ hA
          (by rw [hn32]; omega) hx hF₂ hat₁ hR₁
        refine Ends.of_steps ?_ hs₂
        obtain ⟨child, l, hin, hstep, hdesc⟩ | ⟨hno, hstep⟩ := hrun m hF s₂ _ hat₂ hbyte
        · have hfx : c.trie.findChild ref p[w.length] = some child :=
            (hfind _).trans ((hmem _ _).mp hin)
          obtain ⟨e, he⟩ : ∃ e, (c.trie.header child).edge = p[w.length] :: e :=
            hI.shape.key hw hfx
          have hpos : 0 < (c.trie.header child).edge.length := by simp [he]
          refine Ends.of_steps ?_ (.single hstep)
          obtain ⟨s₃, r, hs₃, hbroke, hr⟩ := hdesc p slot best hA hle (hR₂.goto l)
          refine ⟨s₃, r, hs₃, hbroke, fun k hk => ?_⟩
          obtain ⟨k, rfl⟩ : ∃ k', k = k' + 1 := ⟨k - 1, by omega⟩
          rw [hdrop, generalLoop_child hfx, ← hdrop]
          exact hr k (by omega)
        · refine Ends.of_steps (hR₂.broke.ends ?_) (.single hstep)
          refine generalLoop_stop fun x hx => ?_
          rw [hdrop, List.head?_cons, Option.some_inj] at hx
          rw [← hx, hfind, Option.eq_none_iff_forall_ne_some]
          exact fun child hchild => hno child ((hmem _ _).mpr hchild)
      · refine hbroke.ends (generalLoop_stop fun x hx => ?_)
        rw [drop_eq_nil_of_le (by omega)] at hx
        exact absurd hx (by simp)

end Walk

/-! ## The frame of the function -/

/-- The blocks before the root, which are the same for every trie. -/
def prologue : Builder := (emitPrologue .clear).2.2

def emitCtx (trie : ArtTrie) : EmitCtx := ⟨trie, .reg 2, .reg 0, 1⟩

theorem emitPrologue_eq (trie : ArtTrie) : emitPrologue trie = (emitCtx trie, 2, prologue) := rfl

theorem open_prologue : prologue.Open := ⟨by decide, by decide⟩

theorem below_prologue (trie : ArtTrie) : (emitCtx trie).Below prologue.nextReg :=
  ⟨(by decide : 2 < 3), (by decide : 0 < 3)⟩

/-- The switch on the method key: a case block per slot, and the block for unknown keys. -/
def keySwitch : List (Val × Nat) :=
  methodCases.zipIdx.map fun x => (.i8 x.1.1, 5 + x.2)

theorem block_prologue_entry : prologue.block 0 =
    ⟨[(0, .alloca), (1, .store (constI16 kInvalidRoute) (.reg 0))],
      some (.switch (.param 2) 3 keySwitch)⟩ := by
  decide

theorem find_keySwitch (key : UInt8) :
    ((keySwitch.find? (fun x => x.1 = .i8 key)).map (·.2)).getD 3 =
      if key.toNat < kMethodSlots then 5 + key.toNat else 3 := by
  have h : ∀ k : Fin 256, ((keySwitch.find? (fun x => x.1 = .i8 (UInt8.ofNat k))).map (·.2)).getD 3 =
      if (UInt8.ofNat k).toNat < kMethodSlots then 5 + (UInt8.ofNat k).toNat else 3 := by
    decide +kernel
  have := h ⟨key.toNat, key.toNat_lt⟩
  rwa [UInt8.ofNat_toNat] at this

section Frame

variable {m : Machine} {key : UInt8}

/-- The state when the method key is looked at: `best` is allocated and set to "no route". -/
def entryEnd : Config :=
  (Config.initial.define 0 (some (.cell 0)) [none]).define 1 none [some kInvalidRoute]

theorem entry_run (hF : Completes m prologue) (hkey : m.params[2]? = some (.i8 key)) :
    Steps m .initial
      (entryEnd.goto (if key.toNat < kMethodSlots then 5 + key.toNat else 3)) := by
  have hblk : m.block 0 = _ := ((hF 0).term (by decide)).trans block_prologue_entry
  have hget₁ : (m.block 0).insts[0]? = some (0, .alloca) := by rw [hblk]; rfl
  have hget₂ : (m.block 0).insts[1]? = some (1, .store (constI16 kInvalidRoute) (.reg 0)) := by
    rw [hblk]
    rfl
  have h₁ : Step m .initial (Config.initial.define 0 (some (.cell 0)) [none]) :=
    step_inst hget₁ rfl
  have h₂ : Step m (Config.initial.define 0 (some (.cell 0)) [none]) entryEnd :=
    step_inst hget₂ rfl
  have h₃ := step_block (c := entryEnd) (m := m) (m.block 0) (.refl _) (by rw [hblk])
    (by rw [hblk]; rfl)
  have hnodup : (keySwitch.map (·.1)).Nodup := by decide
  have hval : eval m entryEnd (.param 2) = some (.i8 key) := hkey
  simp only [evalTerm, hval, hnodup, if_true, find_keySwitch] at h₃
  exact .tail (.tail (.single h₁) h₂) h₃

/-- A known method key leads to the root with its slot. -/
theorem prologue_run (trie : ArtTrie) {slot : MethodSlot} (hF : Completes m prologue)
    (hkey : m.params[2]? = some (.i8 key)) (hslot : routeMethodSlotFromKey key = some slot) :
    ∃ s, Steps m .initial s ∧ At prologue s ∧ Ready (emitCtx trie) m slot kInvalidRoute s := by
  have hval : key.toNat = slot := by
    rw [routeMethodSlotFromKey] at hslot
    split at hslot
    · rw [← Option.some_inj.mp hslot]
    · cases hslot
  have hcase := entry_run hF hkey
  rw [hval, if_pos slot.isLt] at hcase
  -- the block of the case goes on to `method_done`, where the slot is picked by predecessor
  have hbr : Step m (entryEnd.goto (5 + slot)) ((entryEnd.goto (5 + slot)).goto 4) := by
    have hblk : ∀ slot : MethodSlot, prologue.block (5 + slot) = ⟨[], some (.br 4)⟩ := by decide
    exact step_block (t := .br 4) _ (hF (5 + slot)) (by rw [hblk]) (by rw [hblk]; rfl)
  obtain ⟨incoming, hphi, hin⟩ : ∃ incoming, (prologue.block 4).insts = [(2, .phi incoming)] ∧
      ∀ slot : MethodSlot, incoming.find? (fun x => x.2 = 5 + (slot : Nat)) =
        some (constI32 (UInt32.ofNat slot), 5 + (slot : Nat)) := ⟨_, rfl, by decide⟩
  have hpick : Step m ((entryEnd.goto (5 + slot)).goto 4)
      (((entryEnd.goto (5 + slot)).goto 4).define 2 (some (.i32 (UInt32.ofNat slot)))
        entryEnd.cells) := by
    have hget : (m.block 4).insts[0]? = some (2, .phi incoming) := by
      obtain ⟨rest, hrest⟩ := (hF 4).insts
      rw [← hrest, hphi]
      rfl
    refine step_inst hget ?_
    have hprev : ((entryEnd.goto (5 + slot)).goto 4).prev = 5 + slot := rfl
    rw [evalInst, hprev, hin slot]
    rfl
  refine ⟨_, .tail (.tail hcase hbr) hpick, ⟨rfl, ?_⟩, ⟨rfl, 0, rfl, rfl⟩⟩
  rfl

/-- An unknown method key leads to `return_invalid`. -/
theorem prologue_run_invalid (hF : Completes m prologue) (hkey : m.params[2]? = some (.i8 key))
    (hslot : routeMethodSlotFromKey key = none) :
    Steps m .initial ((entryEnd.goto 3).goto 2) := by
  have hval : ¬ key.toNat < kMethodSlots := by
    intro h
    rw [routeMethodSlotFromKey, dif_pos h] at hslot
    cases hslot
  have hcase := entry_run hF hkey
  rw [if_neg hval] at hcase
  have hblk : prologue.block 3 = ⟨[], some (.br 2)⟩ := by decide
  exact .tail hcase (step_block (t := .br 2) _ (hF 3) (by rw [hblk]) (by rw [hblk]; rfl))

/-! ## The return blocks -/

theorem emitReturnBest_spec {c : EmitCtx} {b : Builder} (hlive : c.returnBest < b.blocks.length)
    (hempty : b.block c.returnBest = {}) :
    Grows (· = c.returnBest) b (emitReturnBest c b) ∧
      (emitReturnBest c b).block c.returnBest =
        ⟨[(b.nextReg, .load c.bestAlloca)], some (.ret (.reg b.nextReg))⟩ := by
  have ho : (b.positionAtEnd c.returnBest).Open := ⟨hlive, by
    show (b.block c.returnBest).term = none
    rw [hempty]⟩
  have hg := (emits_build ho (.load c.bestAlloca)).grows_trans
    (grows_terminate (t := .ret (.reg b.nextReg)) (open_build ho _))
  refine ⟨⟨hg.size, hg.regs, hg.frame, hg.grow⟩, (Builder.block_build_terminate ho.live).trans ?_⟩
  show Block.mk ((b.block c.returnBest).insts ++ _) _ = _
  rw [hempty]
  rfl

theorem emitReturnInvalid_spec {l : Nat} {b : Builder} (hlive : l < b.blocks.length)
    (hempty : b.block l = {}) :
    Grows (· = l) b (emitReturnInvalid l b) ∧
      (emitReturnInvalid l b).block l = ⟨[], some (.ret (constI16 kInvalidRoute))⟩ := by
  have ho : (b.positionAtEnd l).Open := ⟨hlive, by
    show (b.block l).term = none
    rw [hempty]⟩
  have hg := grows_terminate (t := .ret (constI16 kInvalidRoute)) ho
  refine ⟨⟨hg.size, hg.regs, hg.frame, hg.grow⟩, (Builder.block_setBlock_self ho.live).trans ?_⟩
  show Block.mk (b.block l).insts _ = _
  rw [hempty]

/-- At `return_best` the function returns what `best` holds. -/
theorem returnBest_run {c : EmitCtx} {slot : MethodSlot} {best : UInt16} {s : Config} {n : Nat}
    (hblk : m.block c.returnBest = ⟨[(n, .load c.bestAlloca)], some (.ret (.reg n))⟩)
    (h : Broke c m slot best s) :
    ∃ s', Step m s s' ∧ step m s' = some (.inr (.i16 best)) := by
  obtain ⟨i, hi, hcell⟩ := h.ready.best
  have hget : (m.block s.label).insts[s.pc]? = some (n, .load c.bestAlloca) := by
    rw [h.label, h.pc, hblk]
    rfl
  have hload : evalInst m s (.load c.bestAlloca) = some (some (.i16 best), s.cells) := by
    simp only [evalInst, hi, hcell]
  refine ⟨_, step_inst hget hload, ?_⟩
  have hval : eval m (s.define n (some (.i16 best)) s.cells) (.reg n) = some (.i16 best) :=
    Function.update_self ..
  have hle : (m.block c.returnBest).Le (m.block s.label) := h.label ▸ .refl _
  refine (step_block (c := s.define n (some (.i16 best)) s.cells) _ hle (by rw [hblk]) ?_).trans ?_
  · show s.pc + 1 = _
    rw [h.pc, hblk]
    rfl
  · rw [evalTerm, hval]
    rfl

end Frame

/-! ## The function as a whole -/

/-- The function specialised for a trie with short words returns what the scalar lookup returns. -/
theorem artJitSpecialize_spec {L fuel : Nat} {t : ArtTrie} (hI : t.Inv)
    (hL : ∀ {r w}, RadixGraph.At t.graph r w → w.length < L) (hL31 : L ≤ 2 ^ 31) (hfuel : L ≤ fuel) :
    ∃ f, artJitSpecialize fuel t = some f ∧ ∀ p : Str, p.length < 2 ^ 32 → ∀ key : UInt8,
      ∃ r, t.matchCanonicalKey p key = some r ∧
        ∃ n₀, ∀ n, n₀ ≤ n → callMatchFn f n p key = some (.i16 r) := by
  have hroot : RadixGraph.At (emitCtx t).trie.graph t.rootRef [] := .root
  have h₁ := emitTerminalPickup_emits (c := emitCtx t) open_prologue (t.header t.rootRef)
  have hb₁ := (below_prologue t).mono h₁.grows.regs
  obtain ⟨b, hb, hgrow, hdec⟩ := emitNodeDispatch_spec (c := emitCtx t) hI hL hL31 fuel hroot
    (by simpa using hfuel) h₁.isOpen hb₁
  -- the return blocks are still empty after the walk
  have hwalk := h₁.grows_trans hgrow
  have hsize : 15 ≤ b.blocks.length := hwalk.size
  have hempty : ∀ l, l = 1 ∨ l = 2 → b.block l = {} := by
    intro l hl
    have hpro : prologue.block l = {} := by rcases hl with rfl | rfl <;> decide
    refine (hwalk.frame l ?_ ?_).trans hpro
    · show l < 15
      omega
    · show l ≠ 4
      omega
  obtain ⟨hg₂, hbest⟩ := emitReturnBest_spec (c := emitCtx t) (b := b)
    (by show 1 < b.blocks.length; omega) (hempty 1 (.inl rfl))
  have hsize₂ := hg₂.size
  obtain ⟨hg₃, hinv⟩ := emitReturnInvalid_spec (l := 2) (b := emitReturnBest (emitCtx t) b)
    (by omega) ((hg₂.frame 2 (by omega) (by show 2 ≠ 1; omega)).trans (hempty 2 (.inr rfl)))
  rw [← hg₃.frame (emitCtx t).returnBest (by show 1 < _; omega) (by show 1 ≠ 2; omega)] at hbest
  refine ⟨(emitReturnInvalid 2 (emitReturnBest (emitCtx t) b)).blocks, ?_, ?_⟩
  · rw [artJitSpecialize, emitPrologue_eq]
    dsimp only
    rw [show (0 : UInt32) = UInt32.ofNat ([] : Str).length from rfl, hb]
  intro p hp key
  let m : Machine := ⟨(emitReturnInvalid 2 (emitReturnBest (emitCtx t) b)).blocks,
    [.buf 0, .i32 (UInt32.ofNat p.length), .i8 key], p⟩
  have hA : Args m p := ⟨rfl, rfl, rfl, hp⟩
  have hF : Completes m (emitReturnInvalid 2 (emitReturnBest (emitCtx t) b)) := fun l => .refl _
  have hFb : Completes m b := (hF.mono hg₃).mono hg₂
  have hFp : Completes m prologue := hFb.mono hwalk
  cases hslot : routeMethodSlotFromKey key with
  | none =>
    refine ⟨kInvalidRoute, by rw [matchCanonicalKey, hslot], ?_⟩
    apply run_of_steps (prologue_run_invalid hFp rfl hslot)
    exact step_block (t := .ret (constI16 kInvalidRoute)) _ (hF 2) (by rw [hinv])
      (by rw [hinv]; rfl)
  | some slot =>
    obtain ⟨s₁, hs₁, hat₁, hR₁⟩ := prologue_run t hFp rfl hslot
    obtain ⟨s₂, hs₂, hat₂, hR₂⟩ := emitTerminalPickup_run _ open_prologue (below_prologue t)
      (hFb.mono hgrow) hat₁ hR₁
    obtain ⟨s₃, r, hs₃, hbroke, hr⟩ := hdec m hFb s₂ hat₂ p slot _ hA (Nat.zero_le _) hR₂
    obtain ⟨s₄, hs₄, hret⟩ := returnBest_run (m := m) hbest hbroke
    refine ⟨r, ?_, run_of_steps (.tail ((hs₁.trans hs₂).trans hs₃) hs₄) hret⟩
    rw [matchCanonicalKey_eq_generalLoop hI p hslot, ← hr p.length (Nat.sub_le _ _)]
    congr 1
    split
    · rfl
    · next h => exact not_not.mp h

theorem length_finalizePathCanonical_le (path : Str) :
    (finalizePathCanonical path).length ≤ path.length :=
  ((List.rdropWhile_prefix ..).length_le).trans (dropWhile_suffix _).length_le

/-- For every sequence of `insert` calls, every path and every method key: enough fuel specialises
the trie, and the function returns the route that `match_canonical_key` returns. Registered paths are
shorter than `2 ^ 31` bytes, since the function indexes the path by signed 32-bit offsets. -/
theorem artJitSpecialize_eq (calls : List InsertCall) (hlen : ∀ c ∈ calls, c.path.length < 2 ^ 31) :
    ∃ t es, insertAll calls = some (t, es) ∧ ∃ fuel₀, ∀ fuel, fuel₀ ≤ fuel →
      ∃ f, artJitSpecialize fuel t = some f ∧ ∀ p : Str, p.length < 2 ^ 32 → ∀ key : UInt8,
        ∃ r, t.matchCanonicalKey p key = some r ∧
          ∃ n₀, ∀ n, n₀ ≤ n → callMatchFn f n p key = some (.i16 r) := by
  obtain ⟨t, es, hrun, hI, hwords⟩ := insertAll_run calls
    (fun t _ => ∀ r w, RadixGraph.At t.graph r w → w.length < 2 ^ 31)
    (fun r w h => by
      rw [(clear_at h).2]
      exact Nat.two_pow_pos 31)
    (fun t t' es c slot hc h hins r w hw => by
      rcases hins.words hw with hpre | ⟨y, hy⟩
      · exact ((hpre.length_le).trans (length_finalizePathCanonical_le _)).trans_lt (hlen c hc)
      · exact h y w hy)
  exact ⟨t, es, hrun, 2 ^ 31, fun fuel hfuel =>
    artJitSpecialize_spec hI (fun h => hwords _ _ h) le_rfl hfuel⟩

theorem artJitSpecialize_eq_sampleCalls :
    (∀ c ∈ sampleCalls, c.path.length < 2 ^ 31) ∧
      ∃ t es, insertAll sampleCalls = some (t, es) ∧ ∃ fuel₀, ∀ fuel, fuel₀ ≤ fuel →
        ∃ f, artJitSpecialize fuel t = some f ∧ ∀ p : Str, p.length < 2 ^ 32 → ∀ key : UInt8,
          ∃ r, t.matchCanonicalKey p key = some r ∧
            ∃ n₀, ∀ n, n₀ ≤ n → callMatchFn f n p key = some (.i16 r) :=
  ⟨by decide, artJitSpecialize_eq sampleCalls (by decide)⟩

example : (((insertAll sampleCalls).bind fun s => artJitSpecialize 6 s.1).bind
    fun f => callMatchFn f 60 (ascii "apple/x") 1) = some (.i16 7) := by decide +kernel

end Rut.Jit
