import Rut.Lib.BinaryHeap

/-!
# The yield heap

The deadlines of sleeping handlers (`YieldHeap` in `epoll_event_loop.h`). A handler that waits for a
timer has an entry in a binary heap; the loop pops the entries that are due, and the entries of a
connection are taken out when it is closed.

The heap is an array of which `size` entries count. As an abstract object it is a multiset of entries
(`contents`), and `Spec` says what the three operations are to do with it. They do, except for one
case of `remove_by_conn`: the entry that is swapped into the hole can sift up, to a position that the
scan has passed. If it is itself an entry of the connection, it stays.
-/

namespace Rut

open Lib.BinaryHeap Multiset
open Function (update update_self update_of_ne)

def kMaxConns : Nat := 16384

namespace YieldHeap

structure Entry where
  deadlineNs : UInt64
  handlerGen : UInt32
  connId : UInt32
deriving DecidableEq, Repr

def kCap : Nat := kMaxConns + 256

end YieldHeap

open YieldHeap in
structure YieldHeap where
  entries : Nat → Entry := fun _ => ⟨0, 0, 0⟩
  size : Nat := 0

namespace YieldHeap

/-! ## Operations -/

def deadline (e : Entry) : Nat := e.deadlineNs.toNat

def top (h : YieldHeap) : Entry := h.entries 0

def push (h : YieldHeap) (e : Entry) : YieldHeap × Bool :=
  if h.size ≥ kCap then (h, false)
  else
    let i := h.size
    ({ entries := siftUp deadline i (update h.entries i e) i, size := h.size + 1 }, true)

def pop (h : YieldHeap) : YieldHeap :=
  if h.size = 0 then h
  else
    let size := h.size - 1
    { entries := siftDown deadline size size (update h.entries 0 (h.entries size)) 0
      size := size }

def sift (size : Nat) (entries : Nat → Entry) (i : Nat) : Nat → Entry :=
  siftDown deadline size size (siftUp deadline i entries i) i

/-- The loop of `remove_by_conn`. Every round moves on or removes an entry. -/
def removeLoop (connId : UInt32) : Nat → YieldHeap → Nat → Nat → YieldHeap × Nat
  | 0, h, _, removed => (h, removed)
  | fuel + 1, h, i, removed =>
    if i < h.size then
      if (h.entries i).connId ≠ connId then removeLoop connId fuel h (i + 1) removed
      else
        let size := h.size - 1
        let entries := update h.entries i (h.entries size)
        removeLoop connId fuel
          { entries := if i < size then sift size entries i else entries, size := size } i
          (removed + 1)
    else (h, removed)

/-- `remove_by_conn`, with the number of removed entries. -/
def removeByConn (h : YieldHeap) (connId : UInt32) : YieldHeap × Nat :=
  removeLoop connId h.size h 0 0

/-! ## The abstract heap -/

def contents (h : YieldHeap) : Multiset Entry := Lib.BinaryHeap.contents h.size h.entries

/-- The array is a binary min-heap by deadline. -/
def IsMinHeap (h : YieldHeap) : Prop := IsHeap deadline h.size h.entries

def entriesOf (h : YieldHeap) (connId : UInt32) : Nat := h.contents.countP (·.connId = connId)

inductive Op where
  | push (e : Entry)
  | pop
  | removeByConn (connId : UInt32)

def step (h : YieldHeap) : Op → YieldHeap
  | .push e => (h.push e).1
  | .pop => h.pop
  | .removeByConn connId => (h.removeByConn connId).1

def run (h : YieldHeap) (ops : List Op) : YieldHeap := ops.foldl step h

/-- What an operation is to do with the entries. -/
inductive Spec : Multiset Entry → Op → Multiset Entry → Prop
  | push (m : Multiset Entry) (e : Entry) : card m < kCap → Spec m (.push e) (e ::ₘ m)
  | full (m : Multiset Entry) (e : Entry) : kCap ≤ card m → Spec m (.push e) m
  | pop (m : Multiset Entry) (e : Entry) :
      (∀ x ∈ m, e.deadlineNs ≤ x.deadlineNs) → Spec (e ::ₘ m) .pop m
  | empty : Spec 0 .pop 0
  | remove (m : Multiset Entry) (connId : UInt32) :
      Spec m (.removeByConn connId) (m.filter (·.connId ≠ connId))

variable {h : YieldHeap}

theorem card_contents (h : YieldHeap) : card h.contents = h.size := by
  simp [contents, Lib.BinaryHeap.contents]

/-! ## Push and pop -/

theorem push_spec (hheap : h.IsMinHeap) (e : Entry) :
    (h.push e).1.IsMinHeap ∧ Spec h.contents (.push e) (h.push e).1.contents := by
  unfold push
  split
  · next hfull => exact ⟨hheap, .full _ _ (by rw [card_contents]; exact hfull)⟩
  · next hroom =>
    have hold : ∀ k < h.size, update h.entries h.size e k = h.entries k :=
      fun k hk => update_of_ne (by omega) _ _
    refine ⟨?_, ?_⟩
    · apply siftUp_isHeap _ (Nat.lt_succ_self _) le_rfl
      · intro c hc hchild
        have := hchild.lt
        omega
      · refine ⟨fun j hj hpos hne _ => ?_, fun _ c hc hchild => ?_⟩
        · have hjlt : j < h.size := by omega
          rw [hold j hjlt, hold _ ((parent_lt hpos).trans hjlt)]
          exact hheap j hjlt
        · have := hchild.lt
          omega
    · have hcontents : contents (YieldHeap.mk (siftUp deadline h.size
          (update h.entries h.size e) h.size) (h.size + 1)) = e ::ₘ h.contents := by
        rw [contents, contents_siftUp (Nat.lt_succ_self _), contents_succ, update_self,
          contents_congr hold]
        rfl
      show Spec _ _ (contents _)
      rw [hcontents]
      exact .push _ _ (by rw [card_contents]; omega)

/-- Overwriting one entry with the last leaves the order of the others alone. -/
theorem hole_replace {n i : Nat} {a : Nat → Entry} (hheap : IsHeap deadline (n + 1) a) (hi : i < n) :
    Hole deadline n (update a i (a n)) i := by
  have hhole := hheap.hole i (by omega)
  refine ⟨fun j hj hpos hne hpne => ?_, fun hpos c hc hchild => ?_⟩
  · rw [update_of_ne hne, update_of_ne hpne]
    exact hhole.off j (by omega) hpos hne hpne
  · have := hchild.lt
    have := parent_lt hpos
    rw [update_of_ne (by omega), update_of_ne (by omega)]
    exact hhole.across hpos c (by omega) hchild

theorem pop_isMinHeap (hheap : h.IsMinHeap) : h.pop.IsMinHeap := by
  unfold pop
  split
  · exact hheap
  · next hpos =>
    obtain ⟨n, hn⟩ := Nat.exists_eq_succ_of_ne_zero hpos
    rw [IsMinHeap, hn] at hheap
    simp only [IsMinHeap, hn, Nat.succ_sub_one]
    rcases Nat.eq_zero_or_pos n with rfl | hpos
    · intro j hj
      omega
    · exact siftDown_isHeap (hole_replace hheap hpos) hpos (by omega) (by omega)

/-- Popping takes out the entry at the top. -/
theorem top_cons_contents_pop (hpos : 0 < h.size) : h.top ::ₘ h.pop.contents = h.contents := by
  unfold pop
  rw [if_neg (by omega)]
  obtain ⟨n, hn⟩ := Nat.exists_eq_succ_of_ne_zero (Nat.pos_iff_ne_zero.mp hpos)
  simp only [contents, hn, Nat.succ_sub_one, top]
  have hsift : Lib.BinaryHeap.contents n (siftDown deadline n n
      (update h.entries 0 (h.entries n)) 0) =
      Lib.BinaryHeap.contents n (update h.entries 0 (h.entries n)) := by
    rcases Nat.eq_zero_or_pos n with rfl | hpos
    · rfl
    · exact contents_siftDown hpos n
  rw [hsift]
  exact contents_replace h.entries (by omega)

theorem top_le (hheap : h.IsMinHeap) {e : Entry} (he : e ∈ h.contents) :
    h.top.deadlineNs ≤ e.deadlineNs := by
  obtain ⟨i, hi, rfl⟩ := mem_contents.mp he
  exact UInt64.le_iff_toNat_le.mpr (hheap.root_le i hi)

theorem pop_spec (hheap : h.IsMinHeap) : Spec h.contents .pop h.pop.contents := by
  rcases Nat.eq_zero_or_pos h.size with hzero | hpos
  · have hempty : h.contents = 0 := by
      rw [← card_eq_zero, card_contents]
      exact hzero
    rw [pop, if_pos hzero, hempty]
    exact .empty
  · rw [← top_cons_contents_pop hpos]
    refine .pop _ _ fun x hx => top_le hheap ?_
    rw [← top_cons_contents_pop hpos]
    exact mem_cons_of_mem hx

/-! ## Removing the entries of a connection -/

/-- One removal: the last entry takes the place of the one at `i`. -/
theorem remove_one {n i : Nat} {a : Nat → Entry} (hheap : IsHeap deadline (n + 1) a) (hi : i < n + 1) :
    IsHeap deadline n
        (if i < n then sift n (update a i (a n)) i else update a i (a n)) ∧
      a i ::ₘ Lib.BinaryHeap.contents n
        (if i < n then sift n (update a i (a n)) i else update a i (a n)) =
        Lib.BinaryHeap.contents (n + 1) a := by
  split
  · next hlt =>
    refine ⟨sift_isHeap (hole_replace hheap hlt) hlt le_rfl (by omega), ?_⟩
    rw [sift, contents_siftDown hlt, contents_siftUp hlt]
    exact contents_replace a hi
  · next hge =>
    have hin : i = n := by omega
    subst hin
    rw [Function.update_eq_self]
    refine ⟨fun j hj => hheap j (by omega), (contents_succ i a).symm⟩

/-- The loop keeps the heap and all entries of other connections. If the connection has at most one
entry, and none of it lies before `i`, then the loop removes it. -/
theorem removeLoop_spec (connId : UInt32) (fuel i removed : Nat) (hheap : h.IsMinHeap)
    (hfuel : h.size ≤ i + fuel) :
    (removeLoop connId fuel h i removed).1.IsMinHeap ∧
      (removeLoop connId fuel h i removed).1.contents ≤ h.contents ∧
      (removeLoop connId fuel h i removed).1.contents.filter (·.connId ≠ connId) =
        h.contents.filter (·.connId ≠ connId) ∧
      (h.entriesOf connId ≤ 1 → (∀ j < i, j < h.size → (h.entries j).connId ≠ connId) →
        ∀ e ∈ (removeLoop connId fuel h i removed).1.contents, e.connId ≠ connId) := by
  -- the fuel decreases with the distance of `i` from the end
  induction fuel generalizing h i removed with
  | zero =>
    refine ⟨hheap, le_rfl, rfl, fun _ hbefore e he => ?_⟩
    obtain ⟨j, hj, rfl⟩ := mem_contents.mp he
    exact hbefore j (lt_of_lt_of_le hj hfuel) hj
  | succ fuel ih =>
    rw [removeLoop]
    split
    · next hi =>
      split
      · next hne =>
        obtain ⟨h₁, h₂, h₃, h₄⟩ := ih removed hheap (i := i + 1) (by omega)
        refine ⟨h₁, h₂, h₃, fun hone hbefore => h₄ hone fun j hj hjs => ?_⟩
        rcases Nat.lt_succ_iff_lt_or_eq.mp hj with hlt | rfl
        · exact hbefore j hlt hjs
        · exact hne
      · next heq =>
        have heq : (h.entries i).connId = connId := not_not.mp heq
        obtain ⟨n, hn⟩ := Nat.exists_eq_succ_of_ne_zero (by omega : h.size ≠ 0)
        rw [IsMinHeap, hn] at hheap
        obtain ⟨hheap', hcons⟩ := remove_one hheap (by omega : i < n + 1)
        simp only [hn, Nat.succ_sub_one]
        generalize hg : (if i < n then sift n (update h.entries i (h.entries n)) i
          else update h.entries i (h.entries n)) = a at *
        have hold : h.contents = h.entries i ::ₘ contents ⟨a, n⟩ := by
          rw [contents, hn]
          exact hcons.symm
        obtain ⟨h₁, h₂, h₃, -⟩ := ih (removed + 1) (h := ⟨a, n⟩) (i := i) hheap' (by
          show n ≤ i + fuel
          omega)
        refine ⟨h₁, ?_, ?_, fun hone _ e he => ?_⟩
        · rw [hold]
          exact h₂.trans (le_cons_self _ _)
        · rw [h₃, hold, filter_cons_of_neg]
          exact not_not.mpr heq
        · -- the entry found was the only one
          have hnone : (contents ⟨a, n⟩).countP (·.connId = connId) = 0 := by
            rw [entriesOf, hold, countP_cons, if_pos heq] at hone
            omega
          rw [countP_eq_zero] at hnone
          exact hnone e (mem_of_le h₂ he)
    · next hi =>
      refine ⟨hheap, le_rfl, rfl, fun _ hbefore e he => ?_⟩
      obtain ⟨j, hj, rfl⟩ := mem_contents.mp he
      have hj : j < h.size := hj
      exact hbefore j (by omega) hj

theorem removeByConn_spec (hheap : h.IsMinHeap) (connId : UInt32) :
    (h.removeByConn connId).1.IsMinHeap ∧ (h.removeByConn connId).1.contents ≤ h.contents ∧
      (h.entriesOf connId ≤ 1 →
        (h.removeByConn connId).1.contents = h.contents.filter (·.connId ≠ connId)) := by
  obtain ⟨hheap', hle, hkeep, hgone⟩ :=
    removeLoop_spec connId h.size 0 0 hheap (by omega)
  refine ⟨hheap', hle, fun hone => ?_⟩
  rw [← hkeep]
  exact (filter_eq_self.mpr (hgone hone (by omega))).symm

/-! ## Every run -/

theorem step_isMinHeap (hheap : h.IsMinHeap) (op : Op) : (h.step op).IsMinHeap := by
  cases op with
  | push e => exact (push_spec hheap e).1
  | pop => exact pop_isMinHeap hheap
  | removeByConn connId => exact (removeByConn_spec hheap connId).1

theorem run_isMinHeap (hheap : h.IsMinHeap) (ops : List Op) : (h.run ops).IsMinHeap := by
  induction ops generalizing h with
  | nil => exact hheap
  | cons op ops ih => exact ih (step_isMinHeap hheap op)

/-- Only a push brings an entry. -/
theorem mem_contents_step (hheap : h.IsMinHeap) {op : Op} {e : Entry}
    (he : e ∈ (h.step op).contents) : e ∈ h.contents ∨ op = .push e := by
  cases op with
  | push x =>
    have he : e ∈ (h.push x).1.contents := he
    have hspec := (push_spec hheap x).2
    generalize (h.push x).1.contents = m' at hspec he
    generalize h.contents = m at hspec ⊢
    cases hspec with
    | push =>
      rcases mem_cons.mp he with rfl | he
      · exact .inr rfl
      · exact .inl he
    | full => exact .inl he
  | pop =>
    have he : e ∈ h.pop.contents := he
    rcases Nat.eq_zero_or_pos h.size with hzero | hpos
    · rw [pop, if_pos hzero] at he
      exact .inl he
    · rw [← top_cons_contents_pop hpos]
      exact .inl (mem_cons_of_mem he)
  | removeByConn connId => exact .inl (mem_of_le (removeByConn_spec hheap connId).2.1 he)

/-- A connection without entries stays without until one is pushed for it. -/
theorem connId_ne_run {connId : UInt32} (hheap : h.IsMinHeap)
    (hnone : ∀ e ∈ h.contents, e.connId ≠ connId) {ops : List Op}
    (hops : ∀ e, .push e ∈ ops → e.connId ≠ connId) :
    ∀ e ∈ (h.run ops).contents, e.connId ≠ connId := by
  induction ops generalizing h with
  | nil => exact hnone
  | cons op ops ih =>
    apply ih (step_isMinHeap hheap op)
    · intro e he
      rcases mem_contents_step hheap he with hold | rfl
      · exact hnone e hold
      · exact hops e (List.mem_cons_self ..)
    · exact fun e he => hops e (List.mem_cons_of_mem _ he)

/-- In every run from the empty heap the array is a min-heap, and an operation does what it is to do
with the entries, if it is not `remove_by_conn` for a connection with several of them. Popping takes
the entry at the top. Once the entries of a connection have been removed, none of it is in the heap
before another one is pushed. -/
theorem step_refines (ops : List Op) (op : Op) {h : YieldHeap} (hrun : h = run {} ops)
    (hone : ∀ connId, op = .removeByConn connId → h.entriesOf connId ≤ 1) :
    h.IsMinHeap ∧ (h.step op).IsMinHeap ∧ Spec h.contents op (h.step op).contents ∧
      (op = .pop → 0 < h.size → h.top ::ₘ (h.step op).contents = h.contents) ∧
      ∀ connId, op = .removeByConn connId → ∀ later : List Op,
        (∀ e, .push e ∈ later → e.connId ≠ connId) →
          ∀ e ∈ ((h.step op).run later).contents, e.connId ≠ connId := by
  have hheap : h.IsMinHeap := hrun ▸ run_isMinHeap (fun i hi => absurd hi (Nat.not_lt_zero i)) ops
  have hheap' := step_isMinHeap hheap op
  refine ⟨hheap, hheap', ?_, ?_, ?_⟩
  · cases op with
    | push e => exact (push_spec hheap e).2
    | pop => exact pop_spec hheap
    | removeByConn connId =>
      have hexact := (removeByConn_spec hheap connId).2.2 (hone connId rfl)
      show Spec _ _ (h.removeByConn connId).1.contents
      rw [hexact]
      exact .remove _ _
  · rintro rfl hpos
    exact top_cons_contents_pop hpos
  · rintro connId rfl later hlater
    apply connId_ne_run hheap' _ hlater
    intro e he
    have he : e ∈ (h.removeByConn connId).1.contents := he
    rw [(removeByConn_spec hheap connId).2.2 (hone connId rfl)] at he
    exact (mem_filter.mp he).2

theorem step_refines_remove :
    let h := run {} [.push ⟨5, 0, 1⟩, .push ⟨3, 0, 2⟩, .push ⟨4, 0, 3⟩]
    h.entriesOf 2 ≤ 1 ∧ Spec h.contents (.removeByConn 2) (h.step (.removeByConn 2)).contents := by
  have hone : (run {} [.push ⟨5, 0, 1⟩, .push ⟨3, 0, 2⟩, .push ⟨4, 0, 3⟩]).entriesOf 2 ≤ 1 := by
    decide
  refine ⟨hone, (step_refines _ (.removeByConn 2) rfl ?_).2.2.1⟩
  rintro connId ⟨⟩
  exact hone

/-- The last entry, of connection 7, takes the place of the other one and sifts up past the scan. It
is at the top after two pops. -/
theorem removeByConn_leaves_entry :
    let h := run {} [.push ⟨1, 0, 1⟩, .push ⟨10, 0, 2⟩, .push ⟨2, 0, 3⟩, .push ⟨11, 0, 7⟩,
      .push ⟨12, 0, 4⟩, .push ⟨3, 0, 7⟩]
    h.entriesOf 7 = 2 ∧ (h.removeByConn 7).2 = 1 ∧ (h.removeByConn 7).1.entriesOf 7 = 1 ∧
      ((h.removeByConn 7).1.pop.pop.top).connId = 7 := by
  decide

end YieldHeap
end Rut
