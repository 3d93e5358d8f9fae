import Rut.Io.Slots

/-!
# Slices and their addresses

`slice_pool.h` as its callers see it: they are given addresses, and may give back any address. The
stack and the slices that are out are together the slices that are committed, each once (`Ledger`),
and this is all there is to say about the pool. It is kept because the number of committed slices does
not wrap around: the pools of the loops have `kMaxConns * 3` slices, and up to `2 ^ 32 - 256` would do.
-/

namespace Rut.Io

open List

namespace SlicePool

def address (base s : Nat) : Nat := base + s * kSliceSize

/-- `alloc`, with the address it returns. -/
def allocPtr (base : Nat) (p : SlicePool) (mprotect : Bool) : SlicePool × Option Nat :=
  ((p.alloc mprotect).1, (p.alloc mprotect).2.map (address base))

/-- `free` of an address; `none` if it returns before it has done anything. -/
def freePtr (base : Nat) (p : SlicePool) (ptr : Nat) : Option SlicePool :=
  if ptr = 0 ∨ base = 0 ∨ p.count = 0 then none
  else if ptr < base ∨ base + p.count * kSliceSize ≤ ptr then none
  else if (ptr - base) % kSliceSize ≠ 0 then none
  else if p.takesBack ((ptr - base) / kSliceSize) then some (p.free ((ptr - base) / kSliceSize))
  else none

/-! ## The books of the pool -/

/-- The slices that are out and those on the stack are the ones that are committed. -/
structure Ledger (p : SlicePool) (out : List Nat) : Prop where
  count_le : p.count ≤ p.maxCount
  perm : (out ++ p.freeStack).Perm (List.range p.count)
  inUse : ∀ s, p.inUse s ↔ s ∈ out

variable {p p' : SlicePool} {out rest : List Nat} {s : Nat}

theorem ledger_nil (n : Nat) : Ledger { maxCount := n } [] :=
  ⟨Nat.zero_le n, List.Perm.refl [], by simp⟩

theorem Ledger.nodup (h : Ledger p out) : (out ++ p.freeStack).Nodup :=
  h.perm.nodup_iff.mpr nodup_range

theorem Ledger.lt (h : Ledger p out) (hs : s ∈ out) : s < p.count :=
  mem_range.mp (h.perm.mem_iff.mp (mem_append_left _ hs))

theorem Ledger.length (h : Ledger p out) : out.length + p.freeStack.length = p.count := by
  simpa using h.perm.length_eq

/-- A step of growth commits slices, and puts them on the stack. -/
theorem Ledger.grow (h : Ledger p out) (hmax : p.maxCount ≤ 2 ^ 32 - 256) {mprotect : Bool}
    (hgrow : p.grow mprotect = some p') :
    Ledger p' out ∧ p'.maxCount = p.maxCount ∧ p.count < p'.count := by
  unfold SlicePool.grow at hgrow
  split at hgrow
  · cases hgrow
  next hlt =>
    have hk : kGrowStep = 256 := rfl
    have hsum : (p.count + kGrowStep) % 2 ^ 32 = p.count + kGrowStep := Nat.mod_eq_of_lt (by omega)
    rw [hsum] at hgrow
    dsimp only at hgrow
    generalize hstep : (if p.maxCount < p.count + kGrowStep then p.maxCount - p.count else kGrowStep) =
      step at hgrow
    have hle : p.count + step ≤ p.maxCount ∧ 0 < step := by
      split at hstep <;> omega
    rw [Nat.mod_eq_of_lt (by omega : p.count + step < 2 ^ 32), Nat.add_sub_cancel_left] at hgrow
    split at hgrow
    · cases hgrow
    obtain rfl := Option.some.inj hgrow
    refine ⟨⟨hle.1, ?_, h.inUse⟩, rfl, Nat.lt_add_of_pos_right hle.2⟩
    have hnew : List.range (p.count + step) = List.range p.count ++ List.range' p.count step := by
      rw [range_add, List.range'_eq_map_range]
    show (out ++ ((List.range' p.count step).reverse ++ p.freeStack)).Perm (List.range (p.count + step))
    rw [hnew]
    refine ((perm_append_comm.trans ((reverse_perm _).append_left _)).append_left out).trans ?_
    rw [← append_assoc]
    exact h.perm.append_right _

theorem Ledger.take (h : Ledger p out) (hstack : p.freeStack = s :: rest) :
    Ledger { p with freeStack := rest, inUse := Function.update p.inUse s true } (s :: out) where
  count_le := h.count_le
  perm := perm_middle.symm.trans (hstack ▸ h.perm)
  inUse t := by
    by_cases ht : t = s
    · simp [ht]
    · simp [ht, h.inUse]

theorem Ledger.free (h : Ledger p out) (hs : s ∈ out) :
    p.takesBack s ∧ Ledger (p.free s) (out.erase s) := by
  have hlen := h.length
  have hpos := length_pos_of_mem hs
  have hle := h.count_le
  have hnodup := nodup_append.mp h.nodup
  have hback : p.takesBack s := by
    have huse := (h.inUse s).mpr hs
    simp only [takesBack, huse, Bool.and_true, Bool.and_eq_true, decide_eq_true_eq]
    exact ⟨h.lt hs, by omega⟩
  refine ⟨hback, ?_⟩
  rw [SlicePool.free, if_pos hback]
  refine ⟨h.count_le, ?_, fun t => ?_⟩
  · exact (perm_middle.trans ((perm_cons_erase hs).symm.append_right _)).trans h.perm
  · rw [hnodup.1.mem_erase_iff, ← h.inUse]
    by_cases ht : t = s
    · simp [ht]
    · simp [ht]

/-- Only slices that are out are taken back. -/
theorem Ledger.takesBack_iff (h : Ledger p out) : p.takesBack s ↔ s ∈ out := by
  refine ⟨fun hback => ?_, fun hs => (h.free hs).1⟩
  simp only [takesBack, Bool.and_eq_true] at hback
  exact (h.inUse s).mp hback.2

/-- Where `alloc` goes on there is a slice to be had. -/
theorem Ledger.ready (h : Ledger p out) (hmax : p.maxCount ≤ 2 ^ 32 - 256) {mprotect : Bool}
    (hready : p.ready mprotect = some p') :
    Ledger p' out ∧ p'.maxCount = p.maxCount ∧ p'.freeStack ≠ [] := by
  unfold SlicePool.ready at hready
  split at hready
  next =>
    obtain ⟨h', hmax', hlt⟩ := h.grow hmax hready
    have := h.length
    have := h'.length
    exact ⟨h', hmax', ne_nil_of_length_pos (by omega)⟩
  next hstack =>
    obtain rfl := Option.some.inj hready
    exact ⟨h, rfl, fun hnil => hstack (by rw [hnil]; rfl)⟩

/-- What is handed out was not out. -/
theorem Ledger.alloc (h : Ledger p out) (hmax : p.maxCount ≤ 2 ^ 32 - 256) (mprotect : Bool) :
    (p.alloc mprotect).1.maxCount = p.maxCount ∧ (∀ s ∈ (p.alloc mprotect).2, s ∉ out) ∧
      Ledger (p.alloc mprotect).1 ((p.alloc mprotect).2.toList ++ out) := by
  unfold SlicePool.alloc
  split
  · exact ⟨rfl, by simp, h⟩
  next q hq =>
    obtain ⟨hl, hq, hne⟩ := h.ready hmax hq
    split
    next hnil => exact absurd hnil hne
    next s rest hstack =>
      refine ⟨hq, ?_, hl.take hstack⟩
      rintro t ⟨⟩ ht
      exact (nodup_append.mp hl.nodup).2.2 s ht s (by simp [hstack]) rfl

end SlicePool

open SlicePool

/-! ## Runs -/

inductive PoolCall where
  | alloc (mprotect : Bool)
  | grow (mprotect : Bool)
  | free (ptr : Nat)

/-- The pool, and the addresses it has given out and not taken back. -/
structure Lending where
  pool : SlicePool
  out : List Nat

namespace Lending

def init (n : Nat) : Lending := ⟨{ maxCount := n }, []⟩

def step (base : Nat) (l : Lending) : PoolCall → Lending
  | .alloc mprotect =>
    let (pool, ptr) := l.pool.allocPtr base mprotect
    ⟨pool, ptr.toList ++ l.out⟩
  | .grow mprotect => { l with pool := (l.pool.grow mprotect).getD l.pool }
  | .free ptr =>
    match l.pool.freePtr base ptr with
    | none => l
    | some pool => ⟨pool, l.out.erase ptr⟩

def run (base n : Nat) (calls : List PoolCall) : Lending := calls.foldl (step base) (init n)

/-- What is given out is not out already, exactly what is out is taken back, and `in_use` counts it. -/
structure Right (base : Nat) (l : Lending) : Prop where
  once : ∀ mprotect ptr, (l.pool.allocPtr base mprotect).2 = some ptr → ptr ∉ l.out
  takes : ∀ ptr, l.pool.freePtr base ptr ≠ none ↔ ptr ∈ l.out
  inUse : (l.out.length : Int) = l.pool.count - l.pool.freeStack.length

/-! ## Addresses -/

variable {p p' : SlicePool} {base n s : Nat}

/-- No two slices have one address. -/
theorem address_inj (base : Nat) : Function.Injective (address base) := by
  intro s t h
  have : s * kSliceSize = t * kSliceSize := Nat.add_left_cancel h
  exact Nat.eq_of_mul_eq_mul_right (by decide) this

/-- The guards of `free` let through the addresses of the slices that are in use. -/
theorem freePtr_eq_some (hbase : 0 < base) {ptr : Nat} :
    p.freePtr base ptr = some p' ↔ ∃ s, ptr = address base s ∧ p.takesBack s ∧ p' = p.free s := by
  constructor
  · intro h
    unfold freePtr at h
    split_ifs at h with h₀ h₁ h₂ h₃
    refine ⟨(ptr - base) / kSliceSize, ?_, h₃, (Option.some.inj h).symm⟩
    rw [address, Nat.div_mul_cancel (Nat.dvd_of_mod_eq_zero (not_not.mp h₂))]
    omega
  · rintro ⟨s, rfl, hback, rfl⟩
    have hlt : s < p.count := by
      simp only [takesBack, Bool.and_eq_true, decide_eq_true_eq] at hback
      exact hback.1.1
    have hoff : address base s - base = s * kSliceSize := Nat.add_sub_cancel_left ..
    have hmul : s * kSliceSize < p.count * kSliceSize := Nat.mul_lt_mul_of_pos_right hlt (by decide)
    rw [freePtr, hoff, Nat.mul_mod_left, Nat.mul_div_cancel _ (by decide), if_neg, if_neg,
      if_neg (by simp), if_pos hback]
    · unfold address
      omega
    · unfold address
      omega

/-! ## Every run -/

structure Inv (base n : Nat) (l : Lending) (slices : List Nat) : Prop where
  maxCount : l.pool.maxCount = n
  out : l.out = slices.map (address base)
  ledger : Ledger l.pool slices

variable {l : Lending} {slices : List Nat}

theorem Inv.right (hbase : 0 < base) (hn : n ≤ 2 ^ 32 - 256) (h : Inv base n l slices) :
    Right base l where
  once mprotect ptr hptr := by
    have hfresh := (h.ledger.alloc (h.maxCount ▸ hn) mprotect).2.1
    obtain ⟨s, hs, rfl⟩ := Option.map_eq_some_iff.mp hptr
    rw [h.out, mem_map_of_injective (address_inj base)]
    exact hfresh s hs
  takes ptr := by
    rw [Option.ne_none_iff_exists', h.out, mem_map]
    constructor
    · rintro ⟨p', hp'⟩
      obtain ⟨s, rfl, hback, -⟩ := (freePtr_eq_some hbase).mp hp'
      exact ⟨s, h.ledger.takesBack_iff.mp hback, rfl⟩
    · rintro ⟨s, hs, rfl⟩
      exact ⟨_, (freePtr_eq_some hbase).mpr ⟨s, rfl, (h.ledger.free hs).1, rfl⟩⟩
  inUse := by
    have := h.ledger.length
    rw [h.out, length_map]
    omega

theorem Inv.step (hbase : 0 < base) (hn : n ≤ 2 ^ 32 - 256) (h : Inv base n l slices)
    (call : PoolCall) : ∃ slices', Inv base n (l.step base call) slices' := by
  cases call with
  | alloc mprotect =>
    obtain ⟨hmax, -, hl⟩ := h.ledger.alloc (h.maxCount ▸ hn) mprotect
    refine ⟨_, hmax.trans h.maxCount, ?_, hl⟩
    show ((l.pool.alloc mprotect).2.map (address base)).toList ++ l.out = _
    rw [h.out, map_append, Option.toList_map]
  | grow mprotect =>
    cases hgrow : l.pool.grow mprotect with
    | none => exact ⟨slices, by simpa [Lending.step, hgrow] using h⟩
    | some p' =>
      obtain ⟨hl, hmax, -⟩ := h.ledger.grow (h.maxCount ▸ hn) hgrow
      refine ⟨slices, ?_⟩
      simp only [Lending.step, hgrow, Option.getD_some]
      exact ⟨hmax.trans h.maxCount, h.out, hl⟩
  | free ptr =>
    simp only [Lending.step]
    split
    · exact ⟨slices, h⟩
    next pool hpool =>
      obtain ⟨s, rfl, hback, rfl⟩ := (freePtr_eq_some hbase).mp hpool
      refine ⟨slices.erase s, ?_, ?_, (h.ledger.free (h.ledger.takesBack_iff.mp hback)).2⟩
      · rw [SlicePool.free, if_pos hback]
        exact h.maxCount
      · rw [h.out, map_erase (address_inj base)]

/-- The books are right in every run. -/
theorem inv_run (hbase : 0 < base) (hn : n ≤ 2 ^ 32 - 256) (calls : List PoolCall) :
    ∃ slices, Inv base n (run base n calls) slices := by
  have hinit : Inv base n (init n) [] := ⟨rfl, rfl, ledger_nil n⟩
  refine List.foldlRecOn calls (step base) (motive := fun l => ∃ slices, Inv base n l slices)
    ⟨[], hinit⟩ ?_
  rintro l ⟨slices, hl⟩ call -
  exact hl.step hbase hn call

/-- The pool keeps its books, whatever it is asked for: nothing is given out twice, and what is given
back without being out changes nothing. The slices that `init` commits in advance are steps of growth
as well. -/
theorem right_run (base n : Nat) (hbase : 0 < base) (hn : n ≤ 2 ^ 32 - 256) (calls : List PoolCall) :
    Right base (run base n calls) := by
  obtain ⟨slices, h⟩ := inv_run hbase hn calls
  exact h.right hbase hn

/-- The pools of the event loops. -/
theorem right_run_kMaxConns : 0 < 4096 ∧ kMaxConns * 3 ≤ 2 ^ 32 - 256 ∧
    ∀ calls, Right 4096 (run 4096 (kMaxConns * 3) calls) :=
  ⟨by decide, by decide, right_run 4096 (kMaxConns * 3) (by decide) (by decide)⟩

end Lending

end Rut.Io
