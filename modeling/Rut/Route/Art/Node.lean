import Rut.Lib.Census
import Rut.Route.Art.Basic

/-!
# Nodes and pools of the radix trie

What one node does, whatever its kind: a child appended under an unseen byte is
found there and nothing else changes, also when the node is promoted to the next
kind. At the end `addChild_spec` says so for a node in its pool; everything
above this module goes through that one statement.
-/

namespace Rut

open List Function ArtNode

open Lib (length_filter_insert)

/-! ## One node -/

theorem find_setSlot {l : List (UInt8 × ArtChildRef)} {b b' : UInt8} {c : ArtChildRef}
    (h : ∃ kc ∈ l, kc.1 = b) :
    ((setSlot b c l).find? (fun kc => kc.1 = b')).map (·.2) =
      if b' = b then some c else (l.find? (fun kc => kc.1 = b')).map (·.2) := by
  induction l with
  | nil => simp at h
  | cons kc rest ih =>
    simp only [setSlot]
    by_cases hk : kc.1 = b
    · by_cases hb : b' = b
      · simp [hk, hb]
      · simp [hk, hb, Ne.symm hb]
    · have hrest : ∃ kc ∈ rest, kc.1 = b := by
        obtain ⟨x, hx, rfl⟩ := h
        rcases mem_cons.mp hx with rfl | hx
        · exact absurd rfl hk
        · exact ⟨x, hx, rfl⟩
      by_cases hb : kc.1 = b'
      · have : b' ≠ b := fun h => hk (hb.trans h)
        simp [hb, this]
      · simp [hk, hb, ih hrest]

theorem map_fst_setSlot (l : List (UInt8 × ArtChildRef)) (b : UInt8) (c : ArtChildRef) :
    (setSlot b c l).map (·.1) = l.map (·.1) := by
  induction l with
  | nil => rfl
  | cons kc rest ih =>
    simp only [setSlot]
    split <;> simp [ih]

/-! ## Nodes with keys -/

namespace ArtKeyedNode

variable {cap : Nat} {n : ArtKeyedNode cap} {b b' : UInt8} {c : ArtChildRef}

theorem find_eq_none : n.find b = none ↔ b ∉ n.slots.map (·.1) := by
  simp only [find, Option.map_eq_none_iff, List.find?_eq_none, decide_eq_true_eq, mem_map,
    not_exists, not_and]

/-- A byte that is appended is found. -/
theorem find_append (hb : n.find b = none) :
    ((n.slots ++ [(b, c)]).find? (fun kc => kc.1 = b')).map (·.2) =
      if b' = b then some c else n.find b' := by
  by_cases h : b' = b
  · subst h
    have hnone : n.slots.find? (fun kc => kc.1 = b') = none := by simpa [find] using hb
    simp [List.find?_append, hnone]
  · simp [List.find?_append, h, Ne.symm h, find]

theorem nodup_append (hn : (n.slots.map (·.1)).Nodup) (hb : n.find b = none) :
    ((n.slots ++ [(b, c)]).map (·.1)).Nodup := by
  rw [List.map_append, List.nodup_append]
  refine ⟨hn, by simp, ?_⟩
  rintro x hx y hy rfl
  simp only [List.map_cons, List.map_nil, List.mem_singleton] at hy
  exact find_eq_none.mp hb (hy ▸ hx)

end ArtKeyedNode

/-! ## Nodes with an index -/

namespace ArtNode48

/-- Positions point into `children`, and no two keys share one. -/
structure WF (n : ArtNode48) : Prop where
  bound : ∀ b, n.childIndex b ≤ n.children.length
  inj : ∀ b b', n.childIndex b ≠ 0 → n.childIndex b = n.childIndex b' → b = b'

variable {n : ArtNode48} {b b' : UInt8} {c : ArtChildRef}

theorem find_eq_none (hn : n.WF) : n.find b = none ↔ n.childIndex b = 0 := by
  have := hn.bound b
  unfold find
  split
  · simp [*]
  · next h0 =>
    simp only [List.getElem?_eq_none_iff, h0, iff_false]
    omega

theorem find_push (hn : n.WF) :
    (n.push b c).find b' = if b' = b then some c else n.find b' := by
  by_cases h : b' = b
  · subst h; simp [find, push]
  · have := hn.bound b'
    simp only [find, push, update_of_ne h, h, if_false]
    split
    · rfl
    · rw [List.getElem?_append_left (by omega)]

theorem WF.push (hn : n.WF) : (n.push b c).WF where
  bound x := by
    have := hn.bound x
    by_cases h : x = b
    · subst h; simp [ArtNode48.push]
    · simp only [ArtNode48.push, update_of_ne h, length_append,
        length_singleton]
      omega
  inj x y hx hxy := by
    have := hn.bound x
    have := hn.bound y
    by_cases h : x = b <;> by_cases h' : y = b
    · rw [h, h']
    · simp only [ArtNode48.push, h, update_self, update_of_ne h'] at hxy
      omega
    · simp only [ArtNode48.push, h', update_self, update_of_ne h] at hxy
      omega
    · simp only [ArtNode48.push, update_of_ne h, update_of_ne h'] at hx hxy
      exact hn.inj x y hx hxy

theorem find_setChild (hn : n.WF) (hb : n.find b ≠ none) :
    (n.setChild b c).find b' = if b' = b then some c else n.find b' := by
  have hb0 : n.childIndex b ≠ 0 := fun h => hb ((find_eq_none hn).mpr h)
  have := hn.bound b
  by_cases h : b' = b
  · subst h
    simp only [find, setChild, hb0, if_false, if_true]
    rw [List.getElem?_set_self (by omega)]
  · by_cases h0 : n.childIndex b' = 0
    · simp [find, setChild, h, h0]
    · -- distinct keys have distinct positions, so the write misses the slot of `b'`
      have hne : n.childIndex b ≠ n.childIndex b' := fun he => h (hn.inj b b' hb0 he).symm
      have hne' : n.childIndex b - 1 ≠ n.childIndex b' - 1 := by omega
      simp [find, setChild, h, h0, List.getElem?_set_ne hne']

theorem WF.setChild (hn : n.WF) : (n.setChild b c).WF where
  bound x := by simpa [ArtNode48.setChild] using hn.bound x
  inj := hn.inj

/-- The table filled from the slots of a keyed node. -/
def ofSlots (h : ArtNodeHeader) (slots : List (UInt8 × ArtChildRef)) : ArtNode48 where
  hdr := h
  childIndex := ArtKeyedNode.indexTable slots
  children := slots.map (·.2)

theorem ofSlots_append (h : ArtNodeHeader) (l : List (UInt8 × ArtChildRef)) (b : UInt8)
    (c : ArtChildRef) : ofSlots h (l ++ [(b, c)]) = (ofSlots h l).push b c := by
  simp [ofSlots, push, ArtKeyedNode.indexTable, zipIdx_append]

/-- Filling the table slot by slot keeps it well formed, and looking a key up in it is
the linear scan of the slots. -/
theorem ofSlots_spec (h : ArtNodeHeader) (l : List (UInt8 × ArtChildRef))
    (hl : (l.map (·.1)).Nodup) :
    (ofSlots h l).WF ∧
      ∀ x, (ofSlots h l).find x = (l.find? (fun kc => kc.1 = x)).map (·.2) := by
  induction l using List.reverseRecOn with
  | nil => exact ⟨⟨fun _ => by simp [ofSlots, ArtKeyedNode.indexTable],
      fun _ _ h => by simp [ofSlots, ArtKeyedNode.indexTable] at h⟩,
      fun _ => by simp [ofSlots, ArtKeyedNode.indexTable, find]⟩
  | append_singleton l kc ih =>
    obtain ⟨b, c⟩ := kc
    rw [map_append, nodup_append] at hl
    obtain ⟨hwf, hfind⟩ := ih hl.1
    have hb : l.find? (fun kc => kc.1 = b) = none := by
      simp only [List.find?_eq_none, decide_eq_true_eq]
      intro kc hkc hk
      exact hl.2.2 kc.1 (mem_map_of_mem hkc) b (by simp) hk
    rw [ofSlots_append]
    refine ⟨hwf.push, fun x => ?_⟩
    rw [find_push hwf, hfind]
    by_cases hx : x = b
    · subst hx; simp [List.find?_append, hb]
    · simp [List.find?_append, hx, Ne.symm hx]

end ArtNode48

theorem ArtKeyedNode.toNode48_eq (n : ArtNode16) (b : UInt8) (c : ArtChildRef)
    (h : ¬ n.slots.length < 16) : n.toNode48 b c = (ArtNode48.ofSlots n.hdr n.slots).push b c := by
  have hlen : n.slots.length = 16 := by have := n.fits; omega
  simp [toNode48, ArtNode48.ofSlots, ArtNode48.push, hlen]

/-! ## Nodes of any kind -/

namespace ArtNode

theorem mem_allBytes (b : UInt8) : b ∈ allBytes := by
  refine mem_map.mpr ⟨b.toNat, mem_range.mpr b.toNat_lt, ?_⟩
  simp

theorem nodup_allBytes : allBytes.Nodup := by
  refine List.Nodup.map_on ?_ nodup_range
  intro x hx y hy h
  have := congrArg UInt8.toNat h
  simpa [Nat.mod_eq_of_lt (mem_range.mp hx), Nat.mod_eq_of_lt (mem_range.mp hy)] using this

def fanout (n : ArtNode) : Nat := (allBytes.filter (fun b => (n.find b).isSome)).length

/-- A key occurs once, and there are as many children as are counted. -/
def WF : ArtNode → Prop
  | .n4 n => (n.slots.map (·.1)).Nodup
  | .n16 n => (n.slots.map (·.1)).Nodup
  | .n48 n => n.WF ∧ n.children.length = fanout (.n48 n) ∧ n.children.length ≤ 48
  | .n256 n => n.childCount = fanout (.n256 n)

variable {n n' : ArtNode} {b b' : UInt8} {c : ArtChildRef}

@[simp] theorem type_setHdr (h : ArtNodeHeader) (n : ArtNode) : (n.setHdr h).type = n.type := by
  cases n <;> rfl

@[simp] theorem hdr_setHdr (h : ArtNodeHeader) (n : ArtNode) : (n.setHdr h).hdr = h := by
  cases n <;> rfl

@[simp] theorem find_setHdr (h : ArtNodeHeader) (n : ArtNode) : (n.setHdr h).find = n.find := by
  cases n <;> rfl

@[simp] theorem wf_setHdr (h : ArtNodeHeader) (n : ArtNode) : (n.setHdr h).WF ↔ n.WF := by
  cases n with
  | n48 n => exact ⟨fun h => ⟨⟨h.1.1, h.1.2⟩, h.2⟩, fun h => ⟨⟨h.1.1, h.1.2⟩, h.2⟩⟩
  | n4 | n16 | n256 => exact Iff.rfl

@[simp] theorem type_empty (ty : ArtNodeType) : (empty ty).type = ty := by
  cases ty <;> rfl

@[simp] theorem find_empty (ty : ArtNodeType) (b : UInt8) : (empty ty).find b = none := by
  cases ty <;> rfl

theorem fanout_empty (ty : ArtNodeType) (h : ArtNodeHeader) : ((empty ty).setHdr h).fanout = 0 := by
  simp [fanout]

theorem wf_empty (ty : ArtNodeType) : (empty ty).WF := by
  have hcount : (empty ty).fanout = 0 := by simp [fanout]
  cases ty with
  | n4 => simp [empty, WF]
  | n16 => simp [empty, WF]
  | n48 => exact ⟨⟨fun _ => by simp, fun _ _ h => by simp at h⟩, hcount.symm, Nat.zero_le _⟩
  | n256 => exact hcount.symm

/-- Filing a child under a new byte makes one more. -/
theorem fanout_file (h : ∀ x, n'.find x = if x = b then some c else n.find x)
    (hb : n.find b = none) : n'.fanout = n.fanout + 1 :=
  length_filter_insert nodup_allBytes (mem_allBytes b) (by simp [hb]) (by simp [h])
    (fun x hx => by rw [h, if_neg hx])

@[simp] theorem type_setChild (b : UInt8) (c : ArtChildRef) (n : ArtNode) :
    (n.setChild b c).type = n.type := by
  cases n <;> rfl

@[simp] theorem hdr_setChild (b : UInt8) (c : ArtChildRef) (n : ArtNode) :
    (n.setChild b c).hdr = n.hdr := by
  cases n <;> rfl

/-- Writing through a child slot changes that child only. -/
theorem find_setChild (hn : n.WF) (hb : n.find b ≠ none) :
    (n.setChild b c).find b' = if b' = b then some c else n.find b' := by
  have keyed : ∀ {cap : Nat} {m : ArtKeyedNode cap}, m.find b ≠ none →
      (m.setChild b c).find b' = if b' = b then some c else m.find b' := by
    intro cap m hm
    refine find_setSlot ?_
    simpa [ArtKeyedNode.find] using hm
  cases n with
  | n4 n => exact keyed hb
  | n16 n => exact keyed hb
  | n48 n => exact ArtNode48.find_setChild hn.1 hb
  | n256 n =>
    simp only [setChild, find, update_apply]

theorem wf_setChild (hn : n.WF) (hb : n.find b ≠ none) : (n.setChild b c).WF := by
  have hcount : (n.setChild b c).fanout = n.fanout := by
    simp only [fanout, find_setChild hn hb]
    congr 2
    funext x
    split
    · next hx => rw [hx, Option.isSome_some, Option.isSome_iff_ne_none.mpr hb]
    · rfl
  cases n with
  | n4 n => simpa [WF, setChild, ArtKeyedNode.setChild, map_fst_setSlot] using hn
  | n16 n => simpa [WF, setChild, ArtKeyedNode.setChild, map_fst_setSlot] using hn
  | n48 n =>
    have hlen : (n.setChild b c).children.length = n.children.length := by
      simp [ArtNode48.setChild]
    exact ⟨hn.1.setChild, by rw [hlen, hn.2.1]; exact hcount.symm, hlen ▸ hn.2.2⟩
  | n256 n => exact hn.trans hcount.symm

/-- Number of occupied slots; a `Node256` always has room. -/
def fill : ArtNode → Nat
  | .n4 n => n.slots.length
  | .n16 n => n.slots.length
  | .n48 n => n.children.length
  | .n256 _ => 0

theorem fill_empty (ty : ArtNodeType) (h : ArtNodeHeader) : ((empty ty).setHdr h).fill = 0 := by
  cases ty <;> rfl

theorem map_fst_filterMap (f : UInt8 → Option ArtChildRef) (l : List UInt8) :
    (l.filterMap (fun b => (f b).map (b, ·))).map (·.1) = l.filter (fun b => (f b).isSome) := by
  induction l with
  | nil => rfl
  | cons b l ih =>
    cases h : f b <;> simp [h, ih]

/-- The pairs a split moves are exactly the children, each once. -/
theorem entries_spec (hn : n.WF) :
    (n.entries.map (·.1)).Nodup ∧ ∀ b c, (b, c) ∈ n.entries ↔ n.find b = some c := by
  have keyed : ∀ {cap : Nat} {m : ArtKeyedNode cap}, (m.slots.map (·.1)).Nodup →
      ∀ b c, (b, c) ∈ m.slots ↔ m.find b = some c := by
    intro cap m hm b c
    constructor
    · intro hmem
      obtain ⟨kc, hkc⟩ : ∃ kc, m.slots.find? (fun kc => kc.1 = b) = some kc := by
        rw [← Option.isSome_iff_exists, List.find?_isSome]
        exact ⟨(b, c), hmem, by simp⟩
      have hkey : kc.1 = b := by simpa using List.find?_some hkc
      have : kc = (b, c) := inj_on_of_nodup_map hm (mem_of_find?_eq_some hkc) hmem hkey
      simp [ArtKeyedNode.find, hkc, this]
    · intro hfind
      simp only [ArtKeyedNode.find, Option.map_eq_some_iff] at hfind
      obtain ⟨⟨k, c'⟩, hf, rfl⟩ := hfind
      have hk := List.find?_some hf
      simp only [decide_eq_true_eq] at hk
      exact hk ▸ mem_of_find?_eq_some hf
  have table : ∀ f : UInt8 → Option ArtChildRef,
      ((allBytes.filterMap (fun b => (f b).map (b, ·))).map (·.1)).Nodup ∧
      ∀ b c, (b, c) ∈ allBytes.filterMap (fun b => (f b).map (b, ·)) ↔ f b = some c := by
    intro f
    refine ⟨?_, fun b c => ?_⟩
    · rw [map_fst_filterMap]
      exact nodup_allBytes.filter _
    · simp [mem_allBytes]
  cases n with
  | n4 n => exact ⟨hn, keyed hn⟩
  | n16 n => exact ⟨hn, keyed hn⟩
  | n48 n => exact table _
  | n256 n => exact table _

/-- A node moves as many children as it has. -/
theorem length_entries (hn : n.WF) : n.entries.length = n.fanout := by
  obtain ⟨hnd, hmem⟩ := entries_spec hn
  have hperm : (n.entries.map (·.1)).Perm (allBytes.filter (fun b => (n.find b).isSome)) := by
    rw [perm_ext_iff_of_nodup hnd (nodup_allBytes.filter _)]
    intro b
    simp only [mem_map, Prod.exists, exists_and_right, exists_eq_right, hmem, mem_filter,
      mem_allBytes, true_and, Option.isSome_iff_exists]
  rw [fanout, ← hperm.length_eq, length_map]

end ArtNode

/-! ## Nodes in their pools -/

namespace ArtTrie

variable {t t' t'' : ArtTrie} {r r' x : ArtChildRef} {n n' : ArtNode}

theorem type_of_node (h : t.node r = some n) : n.type = r.type := by
  unfold node at h
  split at h <;> next hr =>
    obtain ⟨m, -, rfl⟩ := Option.map_eq_some_iff.mp h
    rw [hr]
    rfl

theorem node_write_self (h : t.node r = some n) (hty : n'.type = r.type) :
    (t.write r.idx n').node r = some n' := by
  unfold node at h ⊢
  cases n' <;> rw [← hty] at h ⊢ <;>
    obtain ⟨m, hm, -⟩ := Option.map_eq_some_iff.mp h <;>
    simp [write, type, List.getElem?_set_self (List.getElem?_eq_some_iff.mp hm).1]

/-- Writing a node leaves the others alone. -/
theorem node_write_ne (hty : n'.type = r.type) (hx : x ≠ r) :
    (t.write r.idx n').node x = t.node x := by
  obtain ⟨ty, i⟩ := x
  have hi : ty = n'.type → r.idx ≠ i := by
    rintro rfl rfl
    exact hx (by rw [hty])
  cases n' <;> cases ty <;> simp only [node, write] <;>
    rw [List.getElem?_set_ne (hi rfl)]

@[simp] theorem rootRef_write (t : ArtTrie) (i : Nat) (n : ArtNode) :
    (t.write i n).rootRef = t.rootRef := by
  cases n <;> rfl

@[simp] theorem isUniformN4_write (t : ArtTrie) (i : Nat) (n : ArtNode) :
    (t.write i n).isUniformN4 = t.isUniformN4 := by
  cases n <;> rfl

/-- The flag of the fast path is only ever set while all nodes are `Node4`. -/
def UniformOk (t : ArtTrie) : Prop :=
  t.isUniformN4 = true → ∀ r, t.node r ≠ none → r.type = .n4

/-- `t'` is `t` with the node at `r` replaced by `n`, stored at `r'`: either in place or in a
fresh entry of another pool. Other live nodes are untouched. -/
structure Regrown (t t' : ArtTrie) (r r' : ArtChildRef) (n : ArtNode) : Prop where
  moved : r' = r ∨ t.node r' = none
  node : t'.node r' = some n
  other : ∀ x, x ≠ r → t.node x ≠ none → t'.node x = t.node x
  live : ∀ x, t.node x ≠ none → t'.node x ≠ none
  root : t'.rootRef = t.rootRef
  uniform : t.UniformOk → t'.UniformOk

theorem Regrown.trans {r'' : ArtChildRef} (h : Regrown t t' r r' n) (h' : Regrown t' t'' r' r'' n') :
    Regrown t t'' r r'' n' where
  moved := by
    rcases h'.moved with rfl | hfresh
    · exact h.moved
    · exact .inr (by_contra fun hx => h.live _ hx hfresh)
  node := h'.node
  other x hx hlive := by
    have hxr' : x ≠ r' := by
      rintro rfl
      exact h.moved.elim hx hlive
    rw [h'.other x hxr' (h.live x hlive), h.other x hx hlive]
  live x hx := h'.live x (h.live x hx)
  root := h'.root.trans h.root
  uniform := h'.uniform ∘ h.uniform

/-- Overwriting a node by one of the same kind. -/
theorem regrown_write (h : t.node r = some n) (hty : n'.type = r.type) :
    Regrown t (t.write r.idx n') r r n' where
  moved := .inl rfl
  node := node_write_self h hty
  other x hx _ := node_write_ne hty hx
  live x hx := by
    by_cases hxr : x = r
    · subst hxr; simp [node_write_self h hty]
    · rwa [node_write_ne hty hxr]
  root := rootRef_write ..
  uniform hu hflag x hx := by
    rw [isUniformN4_write] at hflag
    by_cases hxr : x = r
    · subst hxr; exact hu hflag x (by simp [h])
    · rw [node_write_ne hty hxr] at hx
      exact hu hflag x hx

theorem getElem?_concat_ne {α : Type} {l : List α} {a : α} {i : Nat} (h : i ≠ l.length) :
    (l ++ [a])[i]? = l[i]? := by
  rcases Nat.lt_or_gt_of_ne h with h | h
  · exact List.getElem?_append_left h
  · rw [List.getElem?_eq_none h.le, List.getElem?_eq_none (by simp; omega)]

theorem node_append_ne (t : ArtTrie) (type : ArtNodeType) (hx : x ≠ ⟨type, t.poolLen type⟩) :
    (t.append (.empty type)).node x = t.node x := by
  obtain ⟨ty, i⟩ := x
  have hi : ty = type → i ≠ t.poolLen type := by
    rintro rfl rfl
    exact hx rfl
  cases type <;> cases ty <;> simp only [append, empty, node] <;>
    rw [getElem?_concat_ne (hi rfl)]

/-! ## Allocation -/

/-- A fresh empty node at the end of a pool. -/
structure Allocated (t t' : ArtTrie) (r : ArtChildRef) (type : ArtNodeType) : Prop where
  fresh : t.node r = none
  kind : r.type = type
  node : t'.node r = some (.empty type)
  other : ∀ x, x ≠ r → t'.node x = t.node x
  root : t'.rootRef = t.rootRef
  uniform : t.UniformOk → t'.UniformOk

/-- There is room, or the pool is full. -/
theorem alloc_spec (t : ArtTrie) (type : ArtNodeType) :
    t.alloc type = .error .full ∨
      ∃ t' r, t.alloc type = .ok (t', r) ∧ Allocated t t' r type := by
  unfold alloc
  split
  · exact .inl rfl
  · refine .inr ⟨_, _, rfl, ?_⟩
    have hother : ∀ x : ArtChildRef, x ≠ ⟨type, t.poolLen type⟩ →
        (t.append (.empty type)).node x = t.node x := fun x hx => node_append_ne t type hx
    refine ⟨?_, rfl, ?_, hother, ?_, ?_⟩
    · cases type <;> simp [node, poolLen]
    · cases type <;> simp [node, poolLen, append, empty]
    · cases type <;> rfl
    · intro hu hflag x hx
      simp only [Bool.and_eq_true, decide_eq_true_eq] at hflag
      by_cases hxr : x = ⟨type, t.poolLen type⟩
      · rw [hxr]; exact hflag.2
      · exact hu hflag.1 x (by rw [← hother x hxr]; exact hx)

/-- A node promoted into a fresh entry. -/
theorem Allocated.regrown {type : ArtNodeType} (h : Allocated t t' r' type)
    (hty : n'.type = type) : Regrown t (t'.write r'.idx n') r r' n' := by
  have hty' : n'.type = r'.type := hty.trans h.kind.symm
  have hne : ∀ x, t.node x ≠ none → x ≠ r' := by
    rintro x hx rfl
    exact hx h.fresh
  have hw := regrown_write h.node hty'
  exact {
    moved := .inr h.fresh
    node := hw.node
    other := fun x _ hx => by rw [node_write_ne hty' (hne x hx), h.other x (hne x hx)]
    live := fun x hx => by rwa [node_write_ne hty' (hne x hx), h.other x (hne x hx)]
    root := hw.root.trans h.root
    uniform := hw.uniform ∘ h.uniform }

/-! ## Adding children -/

/-- `n'` is `n` with `c` filed under `b`. -/
structure Grown (n n' : ArtNode) (b : UInt8) (c : ArtChildRef) : Prop where
  wf : n'.WF
  hdr : n'.hdr = n.hdr
  find : ∀ x, n'.find x = if x = b then some c else n.find x

variable {b : UInt8} {c : ArtChildRef}

/-- The promoting branch of `addChild`, for any target kind. -/
theorem promote_spec {type : ArtNodeType} {m : ArtNode} (hty : m.type = type)
    (hgr : Grown n m b c) :
    (do let (t', ref) ← t.alloc type
        return (t'.write ref.idx m, ref) : Except ArtFault (ArtTrie × ArtChildRef)) =
        .error .full ∨
      ∃ t' r' n', (do let (t', ref) ← t.alloc type
                      return (t'.write ref.idx m, ref) : Except ArtFault (ArtTrie × ArtChildRef)) =
          .ok (t', r') ∧ Regrown t t' r r' n' ∧ Grown n n' b c := by
  obtain hf | ⟨t', r', hok, ha⟩ := t.alloc_spec type
  · exact .inl (by rw [hf]; rfl)
  · exact .inr ⟨t'.write r'.idx m, r', m, by rw [hok]; rfl, ha.regrown hty, hgr⟩

/-- Promotion adds the one child. -/
theorem grown_toNode48 {n : ArtNode16} (hwf : (n.slots.map (·.1)).Nodup) (hb : n.find b = none)
    (hlen : ¬ n.slots.length < 16) : Grown (.n16 n) (.n48 (n.toNode48 b c)) b c := by
  obtain ⟨hwf', hfind⟩ := ArtNode48.ofSlots_spec n.hdr n.slots hwf
  have hpush := ArtKeyedNode.toNode48_eq n b c hlen
  have hfind' : ∀ x, (n48 (n.toNode48 b c)).find x =
      if x = b then some c else (n16 n).find x := by
    intro x
    rw [hpush]
    show ((ArtNode48.ofSlots n.hdr n.slots).push b c).find x = _
    rw [ArtNode48.find_push hwf', hfind]
    rfl
  have hlen' : (n.toNode48 b c).children.length = n.slots.length + 1 := by
    simp [ArtKeyedNode.toNode48]
  have hfits := n.fits
  have hentries : n.slots.length = fanout (.n16 n) :=
    length_entries (n := .n16 n) hwf
  refine ⟨⟨hpush ▸ hwf'.push, ?_, by omega⟩, rfl, hfind'⟩
  rw [hlen', hentries, fanout_file hfind' hb]

theorem grown_push {n : ArtNode48} (hwf : (n48 n).WF) (hb : n.find b = none)
    (hlt : n.children.length < 48) : Grown (.n48 n) (.n48 (n.push b c)) b c := by
  have hfind : ∀ x, (n48 (n.push b c)).find x =
      if x = b then some c else (n48 n).find x := fun x => ArtNode48.find_push hwf.1
  have hlen : (n.push b c).children.length = n.children.length + 1 := by simp [ArtNode48.push]
  refine ⟨⟨hwf.1.push, ?_, by omega⟩, rfl, hfind⟩
  rw [hlen, hwf.2.1, fanout_file hfind hb]

theorem grown_toNode256 {n : ArtNode48} (hwf : (n48 n).WF) (hb : n.find b = none)
    (hlen : ¬ n.children.length < 48) : Grown (.n48 n) (.n256 (n.toNode256 b c)) b c := by
  have hfind : ∀ x, (n256 (n.toNode256 b c)).find x =
      if x = b then some c else (n48 n).find x := fun x => update_apply ..
  have hfull : n.children.length = 48 := by have := hwf.2.2; omega
  refine ⟨?_, rfl, hfind⟩
  show 49 = _
  rw [fanout_file hfind hb, ← hwf.2.1, hfull]

/-- What `addChild` does to a live, well-formed node without a child under `b`: it fails on a
full pool, or files the child there, in place or in a promoted copy. -/
theorem addChild_spec (h : t.node r = some n) (hwf : n.WF) (hb : n.find b = none) :
    t.addChild r b c = .error .full ∨
      ∃ t' r' n', t.addChild r b c = .ok (t', r') ∧ Regrown t t' r r' n' ∧ Grown n n' b c := by
  have hty : n.type = r.type := type_of_node h
  unfold addChild
  rw [h]
  cases n with
  | n4 n =>
    dsimp only
    split
    · exact .inr ⟨_, _, _, rfl, regrown_write h hty, ArtKeyedNode.nodup_append hwf hb, rfl,
        fun x => ArtKeyedNode.find_append hb⟩
    · exact promote_spec (m := .n16 (n.toNode16 b c)) rfl
        ⟨ArtKeyedNode.nodup_append hwf hb, rfl, fun x => ArtKeyedNode.find_append hb⟩
  | n16 n =>
    dsimp only
    split
    · exact .inr ⟨_, _, _, rfl, regrown_write h hty, ArtKeyedNode.nodup_append hwf hb, rfl,
        fun x => ArtKeyedNode.find_append hb⟩
    · next hlen =>
      exact promote_spec (m := .n48 (n.toNode48 b c)) rfl (grown_toNode48 hwf hb hlen)
  | n48 n =>
    dsimp only
    split
    · next hlt => exact .inr ⟨_, _, _, rfl, regrown_write h hty, grown_push hwf hb hlt⟩
    · next hlen =>
      exact promote_spec (m := .n256 (n.toNode256 b c)) rfl (grown_toNode256 hwf hb hlen)
  | n256 n =>
    have hfind : ∀ x, (n256 (n.push b c)).find x =
        if x = b then some c else (n256 n).find x := fun x => update_apply ..
    refine .inr ⟨_, _, _, rfl, regrown_write h hty, ?_, rfl, hfind⟩
    show n.childCount + 1 = _
    rw [fanout_file hfind hb, hwf]

/-- Every kind holds four children, so a node with fewer is never promoted. -/
theorem addChild_inPlace (h : t.node r = some n) (hwf : n.WF) (hb : n.find b = none)
    (hfill : n.fill < 4) :
    ∃ t' n', t.addChild r b c = .ok (t', r) ∧ Regrown t t' r r n' ∧ Grown n n' b c ∧
      n'.fill ≤ n.fill + 1 := by
  have hwrite : ∃ n', t.addChild r b c = .ok (t.write r.idx n', r) ∧ n'.type = n.type ∧
      n'.fill ≤ n.fill + 1 := by
    unfold addChild
    rw [h]
    cases n with
    | n4 n =>
      exact ⟨.n4 (n.push b c hfill), dif_pos hfill, rfl, by simp [fill, ArtKeyedNode.push]⟩
    | n16 n =>
      have hlt : n.slots.length < 16 := lt_trans hfill (by decide)
      exact ⟨.n16 (n.push b c hlt), dif_pos hlt, rfl, by simp [fill, ArtKeyedNode.push]⟩
    | n48 n =>
      have hlt : n.children.length < 48 := lt_trans hfill (by decide)
      exact ⟨.n48 (n.push b c), if_pos hlt, rfl, by simp [fill, ArtNode48.push]⟩
    | n256 n => exact ⟨_, rfl, rfl, by simp [fill]⟩
  obtain ⟨n', hok', hty, hfill'⟩ := hwrite
  have hnode : (t.write r.idx n').node r = some n' :=
    node_write_self h (hty.trans (type_of_node h))
  obtain hf | ⟨t', r', n'', hok, hre, hgr⟩ := addChild_spec (c := c) h hwf hb
  · rw [hok'] at hf
    cases hf
  · rw [hok'] at hok
    cases hok
    have : n'' = n' := by
      have := hre.node
      rw [hnode] at this
      exact (Option.some.inj this).symm
    subst this
    exact ⟨_, _, hok', hre, hgr, hfill'⟩

/-- A freshly reset node takes its first child in place. -/
theorem addChild_resetNode (h : t.node r = some n) (edge : Str) :
    ∃ t' n', (t.resetNode r edge).addChild r b c = .ok (t', r) ∧ Regrown t t' r r n' ∧
      Grown ((empty r.type).setHdr { edge := edge }) n' b c ∧ n'.fill < 4 := by
  have hw : Regrown t (t.resetNode r edge) r r _ := regrown_write h (by simp)
  obtain ⟨t', n', hok, hre, hgr, hfill⟩ := addChild_inPlace (b := b) (c := c) hw.node
    (by rw [wf_setHdr]; exact wf_empty _) (by simp)
    (by rw [fill_empty]; decide)
  rw [fill_empty] at hfill
  exact ⟨t', n', hok, hw.trans hre, hgr, by omega⟩

/-- Moving a list of children with distinct keys onto a node that has none of them. -/
theorem addChildren_spec : ∀ {l : List (UInt8 × ArtChildRef)} {t : ArtTrie} {r : ArtChildRef}
    {n : ArtNode}, t.node r = some n → n.WF → (l.map (·.1)).Nodup →
    (∀ kc ∈ l, n.find kc.1 = none) →
    t.addChildren r l = .error .full ∨
      ∃ t' r' n', t.addChildren r l = .ok (t', r') ∧ Regrown t t' r r' n' ∧ n'.WF ∧
        n'.hdr = n.hdr ∧
        ∀ x c, n'.find x = some c ↔ (x, c) ∈ l ∨ n.find x = some c
  | [], t, r, n, h, hwf, _, _ =>
    .inr ⟨t, r, n, rfl, ⟨.inl rfl, h, fun _ _ _ => rfl, fun _ => id, rfl, id⟩, hwf, rfl,
      fun x c => by simp⟩
  | (b, c) :: l, t, r, n, h, hwf, hnd, hnone => by
    rw [map_cons, nodup_cons] at hnd
    obtain hf | ⟨t₁, r₁, n₁, hok, hre, hgr⟩ :=
      addChild_spec (c := c) h hwf (hnone (b, c) (mem_cons_self ..))
    · exact .inl (by rw [addChildren, hf]; rfl)
    · have hne : ∀ kc ∈ l, kc.1 ≠ b := by
        rintro kc hkc rfl
        exact hnd.1 (mem_map.mpr ⟨kc, hkc, rfl⟩)
      obtain hf | ⟨t₂, r₂, n₂, hok₂, hre₂, hwf₂, hhdr, hfind⟩ :=
        addChildren_spec (l := l) hre.node hgr.wf hnd.2 (fun kc hkc => by
          rw [hgr.find, if_neg (hne kc hkc)]
          exact hnone kc (mem_cons_of_mem _ hkc))
      · exact .inl (by rw [addChildren, hok]; exact hf)
      · refine .inr ⟨t₂, r₂, n₂, by rw [addChildren, hok]; exact hok₂, hre.trans hre₂, hwf₂,
          hhdr.trans hgr.hdr, fun x d => ?_⟩
        rw [hfind, hgr.find, mem_cons, Prod.mk.injEq]
        by_cases hx : x = b
        · subst hx
          have hd : (x, d) ∉ l := fun hmem => hne _ hmem rfl
          have hn : n.find x = none := hnone (x, c) (mem_cons_self ..)
          simp [hd, hn, eq_comm]
        · simp [hx]

end ArtTrie

end Rut
