import Mathlib

/-!
# Arenas

An array of which a prefix is in use. Cells are taken from the front and are never given back one by
one; what the others hold is whatever was written to them last. So two arenas that agree on the part
in use are the same to everyone who allocates before writing, and to say what an arena holds is to
say what this part is.

A `slice` of the part in use is what a pointer into the arena refers to, and later allocations leave
it alone (`Extends.slice_eq`).
-/

namespace Rut.Lib

open List Function

structure Arena (α : Type) where
  cells : Nat → α
  used : Nat

namespace Arena

variable {α : Type}

def slice (a : Arena α) (off len : Nat) : List α := (range len).map fun i => a.cells (off + i)

/-- The part in use. -/
def live (a : Arena α) : List α := a.slice 0 a.used

def empty (x : α) : Arena α := ⟨fun _ => x, 0⟩

/-- Take the next cell. -/
def push (a : Arena α) (x : α) : Arena α := ⟨update a.cells a.used x, a.used + 1⟩

/-- Copy into the next cells, one after the other. -/
def append (a : Arena α) (xs : List α) : Arena α := xs.foldl push a

def set (a : Arena α) (i : Nat) (x : α) : Arena α := { a with cells := update a.cells i x }

def pop (a : Arena α) : Arena α := { a with used := a.used - 1 }

def get? (a : Arena α) (i : Nat) : Option α := if i < a.used then some (a.cells i) else none

/-- Write back the cells that were in use, and forget the ones taken since. -/
def restore (saved a : Arena α) : Arena α :=
  ⟨fun i => if i < saved.used then saved.cells i else a.cells i, saved.used⟩

/-! ## Slices -/

variable {a b : Arena α} {off len i : Nat} {x : α}

@[simp] theorem length_slice : (a.slice off len).length = len := by simp [slice]

theorem getElem?_slice : (a.slice off len)[i]? = if i < len then some (a.cells (off + i)) else none := by
  rw [slice, getElem?_map]
  split
  · next h => rw [getElem?_range h]; rfl
  · next h => rw [getElem?_eq_none (by simpa using h)]; rfl

/-- A slice depends on its own cells only. -/
theorem slice_congr (h : ∀ i < len, a.cells (off + i) = b.cells (off + i)) :
    a.slice off len = b.slice off len := by
  apply map_congr_left
  intro i hi
  exact h i (mem_range.mp hi)

/-- A slice in two parts. -/
theorem slice_add {m n : Nat} : a.slice off (m + n) = a.slice off m ++ a.slice (off + m) n := by
  rw [slice, range_add, map_append, map_map]
  congr 1
  apply map_congr_left
  intro i _
  exact congrArg a.cells (Nat.add_assoc ..).symm

theorem slice_succ : a.slice off (len + 1) = a.slice off len ++ [a.cells (off + len)] :=
  slice_add

theorem slice_succ_left : a.slice off (len + 1) = a.cells off :: a.slice (off + 1) len := by
  rw [Nat.add_comm, slice_add]
  rfl

/-! ## The part in use -/

@[simp] theorem length_live : a.live.length = a.used := length_slice

/-- The part in use, cell by cell. -/
theorem getElem?_live : a.live[i]? = if i < a.used then some (a.cells i) else none := by
  rw [live, getElem?_slice, Nat.zero_add]

theorem get?_eq : a.get? i = a.live[i]? := getElem?_live.symm

/-- The next cell is behind all others. -/
theorem live_push (a : Arena α) (x : α) : (a.push x).live = a.live ++ [x] := by
  show (a.push x).slice 0 (a.used + 1) = _
  rw [slice_succ, Nat.zero_add]
  congr 1
  · apply slice_congr
    intro i hi
    exact update_of_ne (by omega) ..
  · exact congrArg (fun y => [y]) (update_self ..)

/-- A write beyond the part in use does not show in it. -/
theorem live_set (a : Arena α) (x : α) : (a.set i x).live = a.live.set i x := by
  apply ext_getElem?
  intro j
  rw [getElem?_set, getElem?_live, getElem?_live]
  show (if j < a.used then some (update a.cells i x j) else none) = _
  by_cases hij : i = j
  · subst hij
    simp
  · rw [if_neg hij, update_of_ne (Ne.symm hij)]

theorem live_pop (a : Arena α) : a.pop.live = a.live.dropLast := by
  obtain ⟨cells, used⟩ := a
  cases used with
  | zero => rfl
  | succ n =>
    show slice _ 0 n = (slice _ 0 (n + 1)).dropLast
    rw [slice_succ, dropLast_concat]
    rfl

/-- Whatever has happened since, what was in use is back. -/
theorem live_restore (saved a : Arena α) : (restore saved a).live = saved.live := by
  apply slice_congr
  intro i hi
  rw [Nat.zero_add]
  exact if_pos hi

/-! ## Growing -/

/-- What was in use is still there. -/
structure Extends (a b : Arena α) : Prop where
  used_le : a.used ≤ b.used
  keeps : ∀ i < a.used, b.cells i = a.cells i

theorem Extends.refl (a : Arena α) : Extends a a := ⟨Nat.le_refl _, fun _ _ => rfl⟩

theorem Extends.trans {c : Arena α} (h : Extends a b) (h' : Extends b c) : Extends a c :=
  ⟨Nat.le_trans h.used_le h'.used_le, fun i hi =>
    (h'.keeps i (Nat.lt_of_lt_of_le hi h.used_le)).trans (h.keeps i hi)⟩

/-- Taking a cell writes to no other in use. -/
theorem extends_push (a : Arena α) (x : α) : Extends a (a.push x) :=
  ⟨Nat.le_succ _, fun _ hi => update_of_ne (Nat.ne_of_lt hi) ..⟩

/-- What a pointer into the part in use refers to stays. -/
theorem Extends.slice_eq (h : Extends a b) (hlen : off + len ≤ a.used) :
    b.slice off len = a.slice off len :=
  slice_congr fun i hi => h.keeps (off + i) (by omega)

/-! ## Copying -/

/-- A copy takes as many cells as it has elements. -/
@[simp] theorem used_append (a : Arena α) (xs : List α) : (a.append xs).used = a.used + xs.length := by
  induction xs generalizing a with
  | nil => rfl
  | cons x xs ih =>
    show ((a.push x).append xs).used = _
    rw [ih, length_cons]
    show a.used + 1 + xs.length = _
    omega

/-- Copying writes to no cell in use. -/
theorem extends_append (a : Arena α) (xs : List α) : Extends a (a.append xs) := by
  induction xs generalizing a with
  | nil => exact Extends.refl a
  | cons x xs ih => exact (extends_push a x).trans (ih (a.push x))

/-- A pointer to where the copy begins refers to the copy. -/
theorem slice_append (a : Arena α) (xs : List α) : (a.append xs).slice a.used xs.length = xs := by
  induction xs generalizing a with
  | nil => rfl
  | cons x xs ih =>
    show ((a.push x).append xs).slice a.used (xs.length + 1) = _
    rw [slice_succ_left, (extends_append (a.push x) xs).keeps a.used (Nat.lt_succ_self _)]
    congr 1
    · exact update_self ..
    · exact ih (a.push x)

end Arena

/-! ## Views -/

/-- A stretch of memory that somebody else owns: where it begins, and how long it is. -/
structure View where
  ptr : Nat := 0
  len : Nat := 0
deriving DecidableEq, Repr

namespace View

variable {α : Type} {mem mem' : Nat → α} {v : View} {k : Nat}

/-- What a memory holds there. -/
def read (mem : Nat → α) (v : View) : List α := Arena.slice ⟨mem, 0⟩ v.ptr v.len

def take (v : View) (k : Nat) : View := ⟨v.ptr, min k v.len⟩

def drop (v : View) (k : Nat) : View := ⟨v.ptr + k, v.len - k⟩

@[simp] theorem length_read : (v.read mem).length = v.len := Arena.length_slice

theorem getElem?_read {i : Nat} :
    (v.read mem)[i]? = if i < v.len then some (mem (v.ptr + i)) else none :=
  Arena.getElem?_slice

theorem read_congr (h : ∀ i < v.len, mem (v.ptr + i) = mem' (v.ptr + i)) :
    v.read mem = v.read mem' :=
  Arena.slice_congr h

/-! ## Where a view lies -/

/-- Nothing of the view lies at `n` or behind. -/
def Below (v : View) (n : Nat) : Prop := ∀ i < v.len, v.ptr + i < n

/-- What is written above a view does not show in it. -/
theorem Below.read_congr {n : Nat} (h : v.Below n) (hmem : ∀ a < n, mem a = mem' a) :
    v.read mem = v.read mem' :=
  View.read_congr fun i hi => hmem _ (h i hi)

theorem Below.mono {n n' : Nat} (h : v.Below n) (hn : n ≤ n') : v.Below n' :=
  fun i hi => Nat.lt_of_lt_of_le (h i hi) hn

theorem Below.take {n : Nat} (h : v.Below n) (k : Nat) : (v.take k).Below n :=
  fun i hi => h i (Nat.lt_of_lt_of_le hi (Nat.min_le_right ..))

theorem Below.drop {n : Nat} (h : v.Below n) (k : Nat) : (v.drop k).Below n := by
  intro i hi
  have hi : i < v.len - k := hi
  show v.ptr + k + i < n
  rw [Nat.add_assoc]
  exact h (k + i) (by omega)

theorem below_empty (n : Nat) : ({} : View).Below n := nofun

/-! ## Parts of a view -/

/-- Cutting a view off cuts what it reads off. -/
theorem read_take : (v.take k).read mem = (v.read mem).take k := by
  apply ext_getElem?
  intro i
  rw [getElem?_read, getElem?_take, getElem?_read]
  show (if i < min k v.len then _ else none) = _
  split <;> split <;> first | rfl | omega | split <;> first | rfl | omega

/-- So does moving its beginning. -/
theorem read_drop : (v.drop k).read mem = (v.read mem).drop k := by
  apply ext_getElem?
  intro i
  rw [getElem?_read, getElem?_drop, getElem?_read, drop, Nat.add_assoc]
  dsimp only
  split <;> split <;> first | rfl | omega

/-- The first byte and the rest. -/
theorem read_cons (h : 0 < v.len) : v.read mem = mem v.ptr :: (v.drop 1).read mem := by
  obtain ⟨ptr, len⟩ := v
  cases len with
  | zero => exact absurd h (Nat.lt_irrefl 0)
  | succ len => exact Arena.slice_succ_left

theorem read_eq_nil (h : v.len = 0) : v.read mem = [] :=
  length_eq_zero_iff.mp (length_read.trans h)

end View

end Rut.Lib
