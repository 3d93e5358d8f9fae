import Mathlib

/-!
# Intrusive circular lists

Nodes carry the pointers `prev` and `next` of a doubly linked list, and a list is a ring of nodes
through a head. A node in no list points to itself.

    Path L a xs b       the pointers lead from `a` over `xs` to `b`, and back
    Rings L head lists  there is a ring for every head, and every other node is loose

The operations are the usual pointer writes. `Rings.insertAfter` and `Rings.unlink` say what they do
to the lists, under the one condition that an inserted node is loose.
-/

namespace Rut.Lib

open List

open Function (update update_self update_of_ne)

variable {ν κ : Type}

/-- The pointers of all nodes. -/
structure Links (ν : Type) where
  prev : ν → ν
  next : ν → ν

namespace Links

def loose : Links ν := ⟨id, id⟩

variable [DecidableEq ν]

def init (L : Links ν) (n : ν) : Links ν :=
  ⟨update L.prev n n, update L.next n n⟩

/-- The neighbours of `n` point to each other; the pointers of `n` stay. -/
def remove (L : Links ν) (n : ν) : Links ν :=
  let L₁ : Links ν := { L with next := update L.next (L.prev n) (L.next n) }
  { L₁ with prev := update L₁.prev (L₁.next n) (L₁.prev n) }

def unlink (L : Links ν) (n : ν) : Links ν := (L.remove n).init n

/-- Four writes that put `n` between `h` and its successor. -/
def insertAfter (L : Links ν) (h n : ν) : Links ν :=
  let L₁ : Links ν := { L with prev := update L.prev n h }
  let L₂ : Links ν := { L₁ with next := update L₁.next n (L₁.next h) }
  let L₃ : Links ν := { L₂ with prev := update L₂.prev (L₂.next h) n }
  { L₃ with next := update L₃.next h n }

def isLoose (L : Links ν) (n : ν) : Bool := L.next n = n

end Links

open Links

/-! ## Paths -/

/-- The pointers lead from `a` over `xs` to `b`, and back. -/
def Path (L : Links ν) : ν → List ν → ν → Prop
  | a, [], b => L.next a = b ∧ L.prev b = a
  | a, x :: xs, b => (L.next a = x ∧ L.prev x = a) ∧ Path L x xs b

variable {L L' : Links ν} {a b b' n h : ν} {xs ys : List ν}

theorem path_append {y : ν} :
    Path L a (xs ++ y :: ys) b ↔ Path L a xs y ∧ Path L y ys b := by
  induction xs generalizing a with
  | nil => exact Iff.rfl
  | cons x xs ih =>
    show (_ ∧ Path L x (xs ++ y :: ys) b) ↔ (_ ∧ Path L x xs y) ∧ _
    rw [ih]
    exact and_assoc.symm

/-- A path is made of the successors of its nodes but the last and the predecessors of its nodes but
the first. -/
theorem Path.congr (hp : Path L a xs b) (hnext : ∀ x ∈ a :: xs, L'.next x = L.next x)
    (hprev : ∀ x ∈ b :: xs, L'.prev x = L.prev x) : Path L' a xs b := by
  induction xs generalizing a with
  | nil =>
    refine ⟨(hnext a (.head _)).trans hp.1, (hprev b (.head _)).trans hp.2⟩
  | cons x xs ih =>
    refine ⟨⟨(hnext a (.head _)).trans hp.1.1, ?_⟩, ?_⟩
    · exact (hprev x (.tail _ (.head _))).trans hp.1.2
    · apply ih hp.2
      · exact fun y hy => hnext y (.tail _ hy)
      · intro y hy
        apply hprev y
        rcases mem_cons.mp hy with rfl | hy
        · exact .head _
        · exact .tail _ (.tail _ hy)

theorem Path.prev_mem (hp : Path L a xs b) : L.prev b ∈ a :: xs := by
  induction xs generalizing a with
  | nil => exact hp.2 ▸ .head _
  | cons x xs ih => exact .tail _ (ih hp.2)

theorem Path.next_mem (hp : Path L a xs b) : L.next a ∈ b :: xs := by
  cases xs with
  | nil => exact hp.1 ▸ .head _
  | cons x xs => exact .tail _ (hp.1.1 ▸ .head _)

/-- A path to `b` becomes one to `b'` if its last node and `b'` point to each other. -/
theorem Path.retarget (hp : Path L a xs b) (hnodup : (a :: xs).Nodup)
    (hnext : ∀ x ∈ a :: xs, x ≠ L.prev b → L'.next x = L.next x)
    (hprev : ∀ x ∈ xs, L'.prev x = L.prev x)
    (hlast : L'.next (L.prev b) = b') (hback : L'.prev b' = L.prev b) : Path L' a xs b' := by
  induction xs generalizing a with
  | nil =>
    have ha : L.prev b = a := hp.2
    exact ⟨ha ▸ hlast, hback.trans ha⟩
  | cons x xs ih =>
    have hne : a ≠ L.prev b := by
      intro ha
      exact (nodup_cons.mp hnodup).1 (ha ▸ hp.2.prev_mem)
    refine ⟨⟨(hnext a (.head _) hne).trans hp.1.1, (hprev x (.head _)).trans hp.1.2⟩, ?_⟩
    apply ih hp.2 (nodup_cons.mp hnodup).2
    · exact fun y hy => hnext y (.tail _ hy)
    · exact fun y hy => hprev y (.tail _ hy)

/-- The node after `a`. -/
theorem Path.next_eq (hp : Path L a xs b) : L.next a = xs.headD b := by
  cases xs with
  | nil => exact hp.1
  | cons x xs => exact hp.1.1

/-! ## The operations -/

section Operations

variable [DecidableEq ν]

theorem prev_remove (L : Links ν) (n : ν) :
    (L.remove n).prev = update L.prev (L.next n) (L.prev n) := by
  -- the second write reads `next` of `n` after the first one, which may have been to `n` itself
  have hread : update L.next (L.prev n) (L.next n) n = L.next n := by
    by_cases h : n = L.prev n
    · rw [← h, update_self]
    · exact update_of_ne h ..
  show update L.prev (update L.next (L.prev n) (L.next n) n) (L.prev n) = _
  rw [hread]

theorem next_unlink (L : Links ν) (n : ν) :
    (L.unlink n).next = update (update L.next (L.prev n) (L.next n)) n n := rfl

theorem prev_unlink (L : Links ν) (n : ν) :
    (L.unlink n).prev = update (update L.prev (L.next n) (L.prev n)) n n := by
  show update (L.remove n).prev n n = _
  rw [prev_remove]

theorem unlink_of_loose (hnext : L.next n = n) (hprev : L.prev n = n) : L.unlink n = L := by
  have hn : update L.next n n = L.next := by
    apply Function.update_eq_self_iff.mpr
    exact hnext.symm
  have hp : update L.prev n n = L.prev := by
    apply Function.update_eq_self_iff.mpr
    exact hprev.symm
  show Links.mk (L.unlink n).prev (L.unlink n).next = L
  rw [next_unlink, prev_unlink, hnext, hprev, hn, hp, hn, hp]

theorem next_insertAfter (L : Links ν) (h n : ν) :
    (L.insertAfter h n).next = update (update L.next n (L.next h)) h n := rfl

theorem prev_insertAfter (L : Links ν) (hne : h ≠ n) :
    (L.insertAfter h n).prev = update (update L.prev n h) (L.next h) n := by
  show update (update L.prev n h) (update L.next n (L.next h) h) n = _
  rw [update_of_ne hne]

/-- A loose node goes to the front of a ring. -/
theorem Path.insertAfter (hp : Path L h xs h) (hnodup : (h :: xs).Nodup) (hn : n ∉ h :: xs) :
    Path (L.insertAfter h n) h (n :: xs) h := by
  have hne : h ≠ n := fun e => hn (e ▸ .head _)
  have hfirst : L.next h ≠ n := by
    intro e
    have := hp.next_mem
    rw [e] at this
    exact hn this
  have h₁ : (L.insertAfter h n).next h = n := by
    rw [next_insertAfter, update_self]
  have h₂ : (L.insertAfter h n).prev n = h := by
    rw [prev_insertAfter L hne, update_of_ne hfirst.symm, update_self]
  have h₃ : (L.insertAfter h n).next n = L.next h := by
    rw [next_insertAfter, update_of_ne hne.symm, update_self]
  have h₄ : (L.insertAfter h n).prev (L.next h) = n := by
    rw [prev_insertAfter L hne, update_self]
  refine ⟨⟨h₁, h₂⟩, ?_⟩
  cases xs with
  | nil => exact ⟨h₃.trans hp.1, (congrArg _ hp.1.symm).trans h₄⟩
  | cons x xs =>
    refine ⟨⟨h₃.trans hp.1.1, (congrArg _ hp.1.1.symm).trans h₄⟩, hp.2.congr ?_ ?_⟩
    · intro y hy
      rw [next_insertAfter, update_of_ne, update_of_ne]
      · exact fun e => hn (e ▸ .tail _ hy)
      · exact fun e => (nodup_cons.mp hnodup).1 (e ▸ hy)
    · intro y hy
      rw [prev_insertAfter L hne, hp.1.1, update_of_ne, update_of_ne] <;> grind

/-- A node is taken out of a ring. -/
theorem Path.unlink (hp : Path L h (xs ++ n :: ys) h) (hnodup : (h :: (xs ++ n :: ys)).Nodup) :
    Path (L.unlink n) h (xs ++ ys) h := by
  obtain ⟨hbefore, hafter⟩ := path_append.mp hp
  have hlast : L.prev n ∈ h :: xs := hbefore.prev_mem
  have hfirst : L.next n ∈ h :: ys := hafter.next_mem
  have hsplit : (h :: xs).Nodup ∧ ys.Nodup ∧ n ∉ h :: xs ∧ n ∉ h :: ys ∧
      (∀ x ∈ xs, x ∉ h :: ys) ∧ ∀ y ∈ ys, y ∉ h :: xs := by
    grind
  obtain ⟨hnodup₁, hnodup₂, hn₁, hn₂, hxs, hys⟩ := hsplit
  have hln : L.prev n ≠ n := fun e => hn₁ (e ▸ hlast)
  have hfn : L.next n ≠ n := fun e => hn₂ (e ▸ hfirst)
  -- the part before `n` now leads to what comes after it
  have hshort : Path (L.unlink n) h xs (L.next n) := by
    apply hbefore.retarget hnodup₁
    · intro x hx hx'
      have hxn : x ≠ n := fun e => hn₁ (e ▸ hx)
      rw [next_unlink, update_of_ne hxn, update_of_ne hx']
    · intro x hx
      have hxn : x ≠ n := fun e => hn₁ (e ▸ .tail _ hx)
      have hxf : x ≠ L.next n := fun e => hxs x hx (e ▸ hfirst)
      rw [prev_unlink, update_of_ne hxn, update_of_ne hxf]
    · rw [next_unlink, update_of_ne hln, update_self]
    · rw [prev_unlink, update_of_ne hfn, update_self]
  cases ys with
  | nil =>
    rw [append_nil]
    exact hafter.1 ▸ hshort
  | cons y ys =>
    refine path_append.mpr ⟨hafter.1.1 ▸ hshort, hafter.2.congr ?_ ?_⟩
    · intro x hx
      have hxn : x ≠ n := fun e => hn₂ (e ▸ .tail _ hx)
      have hxl : x ≠ L.prev n := fun e => hys x hx (e ▸ hlast)
      rw [next_unlink, update_of_ne hxn, update_of_ne hxl]
    · intro x hx
      rw [prev_unlink, hafter.1.1, update_of_ne, update_of_ne] <;> grind

end Operations

/-! ## Rings -/

/-- Every head starts a ring, the rings have no node in common, and every other node is loose. -/
structure Rings (L : Links ν) (head : κ → ν) (lists : κ → List ν) : Prop where
  ring : ∀ k, Path L (head k) (lists k) (head k)
  loose : ∀ n, (∀ k, n ≠ head k) → (∀ k, n ∉ lists k) → L.next n = n ∧ L.prev n = n
  head_inj : Function.Injective head
  head_fresh : ∀ j k, head j ∉ lists k
  nodup : ∀ k, (lists k).Nodup
  apart : ∀ j k n, n ∈ lists j → n ∈ lists k → j = k

namespace Rings

variable {head : κ → ν} {lists : κ → List ν}

theorem of_loose (hinj : Function.Injective head) : Rings Links.loose head fun _ => [] where
  ring _ := ⟨rfl, rfl⟩
  loose _ _ _ := ⟨rfl, rfl⟩
  head_inj := hinj
  head_fresh _ _ := not_mem_nil
  nodup _ := nodup_nil
  apart _ _ _ h := nomatch h

theorem nodup_ring (hR : Rings L head lists) (k : κ) : (head k :: lists k).Nodup :=
  nodup_cons.mpr ⟨hR.head_fresh k k, hR.nodup k⟩

/-- Rings of different heads have no node in common. -/
theorem ring_apart (hR : Rings L head lists) {j k : κ} (hjk : j ≠ k) {x : ν}
    (hj : x ∈ head j :: lists j) : x ∉ head k :: lists k := by
  intro hk
  rcases mem_cons.mp hj with rfl | hj <;> rcases mem_cons.mp hk with h | hk
  · exact hjk (hR.head_inj h)
  · exact hR.head_fresh j k hk
  · exact hR.head_fresh k j (h ▸ hj)
  · exact hjk (hR.apart j k x hj hk)

/-- The node that follows in a list, or the head. -/
theorem next_eq (hR : Rings L head lists) {k : κ} (hlist : lists k = xs ++ n :: ys) :
    L.next n = ys.headD (head k) := by
  have hp := hR.ring k
  rw [hlist] at hp
  exact (path_append.mp hp).2.next_eq

variable [DecidableEq ν]

/-- Exactly the nodes in no list are loose. -/
theorem isLoose_iff (hR : Rings L head lists) (hn : ∀ k, n ≠ head k) :
    L.isLoose n = true ↔ ∀ k, n ∉ lists k := by
  rw [isLoose, decide_eq_true_eq]
  constructor
  · intro hnext k hmem
    obtain ⟨xs, ys, hlist⟩ := append_of_mem hmem
    have hnodup := hR.nodup k
    rw [hlist] at hnodup
    have hafter := hR.next_eq hlist
    rw [hnext] at hafter
    cases ys with
    | nil => exact hn k hafter
    | cons y ys =>
      have hy : n = y := hafter
      exact (nodup_cons.mp (nodup_append.mp hnodup).2.1).1 (hy ▸ .head _)
  · exact fun h => (hR.loose n hn h).1

variable [DecidableEq κ]

/-- One ring is changed at one node, and nothing is written outside of it. -/
theorem rebuild (hR : Rings L head lists) {k : κ} {zs : List ν} (hhead : ∀ j, n ≠ head j)
    (honly : ∀ j, j ≠ k → n ∉ lists j) (hmem : ∀ x, x ≠ n → (x ∈ zs ↔ x ∈ lists k))
    (hnodup : zs.Nodup) (hring : Path L' (head k) zs (head k))
    (hloose : n ∉ zs → L'.next n = n ∧ L'.prev n = n)
    (hsame : ∀ x, x ≠ n → x ∉ head k :: lists k → L'.next x = L.next x ∧ L'.prev x = L.prev x) :
    Rings L' head (update lists k zs) := by
  -- a list of the new family, up to the node `n`
  have hold : ∀ j x, x ≠ n → (x ∈ update lists k zs j ↔ x ∈ lists j) := by
    intro j x hx
    by_cases hj : j = k
    · subst hj
      rw [update_self]
      exact hmem x hx
    · rw [update_of_ne hj]
  have hnew : ∀ j, n ∈ update lists k zs j → j = k := by
    intro j hj
    by_contra hne
    rw [update_of_ne hne] at hj
    exact honly j hne hj
  refine ⟨fun j => ?_, fun x hx hx' => ?_, hR.head_inj, fun i j hi => ?_, fun j => ?_,
    fun i j x hi hj => ?_⟩
  · by_cases hj : j = k
    · subst hj
      rw [update_self]
      exact hring
    · rw [update_of_ne hj]
      have hother : ∀ x ∈ head j :: lists j, L'.next x = L.next x ∧ L'.prev x = L.prev x := by
        intro x hx
        apply hsame x _ (hR.ring_apart hj hx)
        rintro rfl
        rcases mem_cons.mp hx with h | h
        · exact hhead j h
        · exact honly j hj h
      exact (hR.ring j).congr (fun x hx => (hother x hx).1) (fun x hx => (hother x hx).2)
  · by_cases hxn : x = n
    · subst hxn
      have := hx' k
      rw [update_self] at this
      exact hloose this
    · have hfree : ∀ j, x ∉ lists j := fun j hj => hx' j ((hold j x hxn).mpr hj)
      have hout : x ∉ head k :: lists k := by
        intro h
        rcases mem_cons.mp h with h | h
        · exact hx k h
        · exact hfree k h
      rw [(hsame x hxn hout).1, (hsame x hxn hout).2]
      exact hR.loose x hx hfree
  · exact hR.head_fresh i j ((hold j _ (hhead i).symm).mp hi)
  · by_cases hj : j = k
    · subst hj
      rw [update_self]
      exact hnodup
    · rw [update_of_ne hj]
      exact hR.nodup j
  · by_cases hxn : x = n
    · subst hxn
      exact (hnew i hi).trans (hnew j hj).symm
    · exact hR.apart i j x ((hold i x hxn).mp hi) ((hold j x hxn).mp hj)

/-- A loose node goes to the front of a list. -/
theorem insertAfter (hR : Rings L head lists) (hhead : ∀ k, n ≠ head k) (hfree : ∀ k, n ∉ lists k)
    (k : κ) :
    Rings (L.insertAfter (head k) n) head (update lists k (n :: lists k)) := by
  have hout : n ∉ head k :: lists k := by
    intro h
    rcases mem_cons.mp h with h | h
    · exact hhead k h
    · exact hfree k h
  apply hR.rebuild hhead (fun j _ => hfree j)
  · intro x hx
    rw [mem_cons]
    exact or_iff_right hx
  · exact nodup_cons.mpr ⟨hfree k, hR.nodup k⟩
  · exact (hR.ring k).insertAfter (hR.nodup_ring k) hout
  · exact fun h => absurd (mem_cons_self ..) h
  · intro x hx hx'
    have hne : x ≠ head k := fun e => hx' (e ▸ .head _)
    have hfirst : x ≠ L.next (head k) := fun e => hx' (e ▸ (hR.ring k).next_mem)
    rw [next_insertAfter, prev_insertAfter L (hhead k).symm, update_of_ne hne,
      update_of_ne hx, update_of_ne hfirst, update_of_ne hx]
    exact ⟨rfl, rfl⟩

/-- A node is taken out of the list it is in, if it is in one. -/
theorem unlink (hR : Rings L head lists) (hhead : ∀ k, n ≠ head k) :
    Rings (L.unlink n) head fun k => (lists k).erase n := by
  by_cases hfree : ∀ k, n ∉ lists k
  · obtain ⟨hnext, hprev⟩ := hR.loose n hhead hfree
    have herase : (fun k => (lists k).erase n) = lists :=
      funext fun k => erase_of_not_mem (hfree k)
    rw [unlink_of_loose hnext hprev, herase]
    exact hR
  · obtain ⟨k, hk⟩ := not_forall_not.mp hfree
    obtain ⟨xs, ys, hlist⟩ := append_of_mem hk
    have honly : ∀ j, j ≠ k → n ∉ lists j := fun j hj hmem => hj (hR.apart j k n hmem hk)
    have hring := hR.ring k
    have hnodup := hR.nodup_ring k
    rw [hlist] at hring hnodup
    have hout : n ∉ xs := by
      intro hmem
      exact (nodup_append.mp (nodup_cons.mp hnodup).2).2.2 n hmem n (.head _) rfl
    have herase : (lists k).erase n = xs ++ ys := by
      rw [hlist, erase_append_right _ hout, erase_cons_head]
    have hlists : (fun j => (lists j).erase n) =
        update lists k ((lists k).erase n) := by
      funext j
      by_cases hj : j = k
      · rw [hj, update_self]
      · rw [update_of_ne hj]
        exact erase_of_not_mem (honly j hj)
    rw [hlists]
    apply hR.rebuild hhead honly
    · exact fun x hx => mem_erase_of_ne hx
    · exact (hR.nodup k).erase n
    · rw [herase]
      exact hring.unlink hnodup
    · intro _
      rw [next_unlink, prev_unlink]
      exact ⟨update_self .., update_self ..⟩
    · intro x hx hx'
      obtain ⟨hbefore, hafter⟩ := path_append.mp hring
      have hp : x ≠ L.prev n := by
        rintro rfl
        apply hx'
        rw [hlist]
        rcases mem_cons.mp hbefore.prev_mem with h | h
        · exact h ▸ .head _
        · exact .tail _ (mem_append_left _ h)
      have hq : x ≠ L.next n := by
        rintro rfl
        apply hx'
        rw [hlist]
        rcases mem_cons.mp hafter.next_mem with h | h
        · exact h ▸ .head _
        · exact .tail _ (mem_append_right _ (.tail _ h))
      rw [next_unlink, prev_unlink, update_of_ne hx, update_of_ne hp,
        update_of_ne hx, update_of_ne hq]
      exact ⟨rfl, rfl⟩

end Rings

end Rut.Lib
