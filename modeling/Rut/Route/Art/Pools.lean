import Rut.Route.Art.Verified
import Rut.Route.Config.Basic

/-!
# How far the pools reach

Entries of a pool are never given back, so what a route list needs depends on the order in which
it is inserted. Two operations take entries:

    addLeaf     a `Node4` for the leaf, and an entry of the next kind when the parent is promoted
    splitEdge   a `Node4` for the tail, which then grows anew through every kind up to the one its
                children need; the node it leaves behind keeps its own kind, now almost empty

The promotions are paid for by the children that caused them (`Account`), and 128 routes pay for few
of them. The regrowth in a split is paid for by nobody: a node with many children can be split over
and over, and each time takes new entries. `insertsAll_of_wideSplits` bounds how often that may happen;
`wideThenSplit` is a route list that does it too often.
-/

namespace Rut

open Lib Lib.RadixGraph ArtNodeType List

/-! ## Costs -/

namespace ArtNodeType

/-- The number of children with which a node first needs this kind; nothing grows into a `Node4`. -/
def threshold : ArtNodeType → Nat
  | .n4 => 0
  | .n16 => 5
  | .n48 => 17
  | .n256 => 49

/-- Entries of pool `ty` that growing from `c` to `d` children takes. -/
def passes (ty : ArtNodeType) (c d : Nat) : Nat :=
  if c < ty.threshold ∧ ty.threshold ≤ d then 1 else 0

def one (ty : ArtNodeType) : ArtNodeType → Nat := fun ty' => if ty' = ty then 1 else 0

/-- How many splits of nodes wide enough for kind `ty` the pool leaves room for beside the
promotions of 128 routes. For `Node4` it is the pool itself. -/
def spare : ArtNodeType → Nat
  | .n4 => 256
  | .n16 => 33
  | .n48 => 25
  | .n256 => 6

variable {ty : ArtNodeType} {c d e : Nat}

theorem passes_add (hcd : c ≤ d) (hde : d ≤ e) : ty.passes c d + ty.passes d e = ty.passes c e := by
  unfold passes
  split <;> split <;> split <;> omega

theorem passes_one (ty : ArtNodeType) : ty.passes 0 1 = 0 := by
  cases ty <;> rfl

theorem passes_zero (hty : ty ≠ .n4) (c : Nat) :
    ty.passes 0 c = if ty.threshold ≤ c then 1 else 0 := by
  have hpos : 0 < ty.threshold := by
    cases ty with
    | n4 => exact absurd rfl hty
    | n16 => decide
    | n48 => decide
    | n256 => decide
  exact if_congr (and_iff_right hpos) rfl rfl

theorem one_le_passes (h : c + 1 = ty.threshold) (ty' : ArtNodeType) :
    ty.one ty' ≤ ty'.passes c (c + 1) := by
  unfold one passes
  split
  · next heq =>
    subst heq
    rw [if_pos (by omega)]
  · exact Nat.zero_le _

end ArtNodeType

/-! ## How many children a node has -/

namespace ArtNode

variable {n n' : ArtNode} {b : UInt8} {c : ArtChildRef}

theorem fanout_grown (h : ArtTrie.Grown n n' b c) (hb : n.find b = none) :
    n'.fanout = n.fanout + 1 :=
  fanout_file h.find hb

end ArtNode

namespace ArtTrie

variable {t t' t₁ t₂ : ArtTrie} {r r' cur child : ArtChildRef} {n n' : ArtNode} {b : UInt8}
  {c : ArtChildRef} {d d' : ArtNodeType → Nat} {ty : ArtNodeType}

/-- `t'` came from `t` by taking at most `d` entries of the pools. -/
structure Spent (t t' : ArtTrie) (d : ArtNodeType → Nat) : Prop where
  len : ∀ ty, t'.poolLen ty ≤ t.poolLen ty + d ty

/-- `d` entries are left. -/
def Fits (t : ArtTrie) (d : ArtNodeType → Nat) : Prop := ∀ ty, t.poolLen ty + d ty ≤ ty.maxNodes

theorem Spent.trans (h : Spent t t₁ d) (h' : Spent t₁ t' d') :
    Spent t t' (fun ty => d ty + d' ty) :=
  ⟨fun ty => by have := h.len ty; have := h'.len ty; omega⟩

theorem Spent.mono (h : Spent t t' d) (hd : ∀ ty, d ty ≤ d' ty) : Spent t t' d' :=
  ⟨fun ty => (h.len ty).trans (Nat.add_le_add_left (hd ty) _)⟩

theorem Fits.after (h : Fits t (fun ty => d ty + d' ty)) (hs : Spent t t₁ d) : Fits t₁ d' := by
  intro ty
  have hfit : t.poolLen ty + (d ty + d' ty) ≤ ty.maxNodes := h ty
  have := hs.len ty
  omega

theorem Fits.mono (h : Fits t d') (hd : ∀ ty, d ty ≤ d' ty) : Fits t d :=
  fun ty => by have := h ty; have := hd ty; omega

theorem Spent.refl (t : ArtTrie) (d : ArtNodeType → Nat) : Spent t t d :=
  ⟨fun _ => Nat.le_add_right _ _⟩

theorem spent_write (t : ArtTrie) (i : Nat) (n : ArtNode) : Spent t (t.write i n) (fun _ => 0) := by
  refine ⟨fun ty => ?_⟩
  cases n <;> cases ty <;> simp [write, poolLen]

theorem spent_setHeader (t : ArtTrie) (r : ArtChildRef) (h : ArtNodeHeader) :
    Spent t (t.setHeader r h) (fun _ => 0) := by
  unfold setHeader
  split
  · exact spent_write ..
  · exact .refl ..

theorem spent_patch (t : ArtTrie) (site : PatchSite) (r : ArtChildRef) :
    Spent t (t.patch site r) (fun _ => 0) := by
  unfold patch
  split
  · exact ⟨fun ty => by cases ty <;> exact le_rfl⟩
  · split
    · exact spent_write ..
    · exact .refl ..

/-! ## What each operation costs -/

theorem alloc_room (hfit : Fits t ty.one) :
    ∃ t' r, t.alloc ty = .ok (t', r) ∧ Allocated t t' r ty ∧ Spent t t' ty.one := by
  have hroom : ¬ t.poolLen ty ≥ ty.maxNodes := by
    have := hfit ty
    simp only [one, if_pos] at this
    omega
  obtain hf | ⟨t', r, hok, ha⟩ := t.alloc_spec ty
  · rw [alloc, if_neg hroom] at hf
    cases hf
  refine ⟨t', r, hok, ha, ?_⟩
  rw [alloc, if_neg hroom] at hok
  cases hok
  refine ⟨fun ty' => ?_⟩
  cases ty <;> cases ty' <;> simp [append, poolLen, ArtNode.empty, one]

/-- The promoting branch of `addChild`. -/
theorem promote_room {m : ArtNode} {k : Nat} (hk : k + 1 = ty.threshold)
    (hfit : Fits t (fun ty => ty.passes k (k + 1))) :
    ∃ t' r', (do let (t', ref) ← t.alloc ty
                 return (t'.write ref.idx m, ref) : Except ArtFault (ArtTrie × ArtChildRef)) =
        .ok (t', r') ∧ Spent t t' (fun ty => ty.passes k (k + 1)) := by
  obtain ⟨t', r', hok, -, hs⟩ := alloc_room (hfit.mono (one_le_passes hk))
  refine ⟨t'.write r'.idx m, r', by rw [hok]; rfl, ?_⟩
  exact (hs.trans (spent_write t' r'.idx m)).mono
    (fun ty => by simpa using one_le_passes hk ty)

/-- Adding a child to a node with `k` costs at most the entry of the kind that `k + 1` children
need. A node left behind by a split may have that kind already. -/
theorem addChild_room (h : t.node r = some n) (hwf : n.WF) (hb : n.find b = none)
    (hfit : Fits t (fun ty => ty.passes n.fanout (n.fanout + 1))) :
    ∃ t' r' n', t.addChild r b c = .ok (t', r') ∧ Regrown t t' r r' n' ∧ Grown n n' b c ∧
      Spent t t' (fun ty => ty.passes n.fanout (n.fanout + 1)) := by
  have hcost : ∃ t' r', t.addChild r b c = .ok (t', r') ∧
      Spent t t' (fun ty => ty.passes n.fanout (n.fanout + 1)) := by
    have inPlace : ∀ m : ArtNode,
        Spent t (t.write r.idx m) (fun ty => ty.passes n.fanout (n.fanout + 1)) :=
      fun m => (spent_write t r.idx m).mono (fun _ => Nat.zero_le _)
    have hentries := ArtNode.length_entries hwf
    unfold addChild
    rw [h]
    cases n with
    | n4 n =>
      dsimp only
      split
      · exact ⟨_, _, rfl, inPlace _⟩
      · refine promote_room ?_ hfit
        have hfits := n.fits
        change n.slots.length = _ at hentries
        rw [← hentries, threshold]
        omega
    | n16 n =>
      dsimp only
      split
      · exact ⟨_, _, rfl, inPlace _⟩
      · refine promote_room ?_ hfit
        have hfits := n.fits
        change n.slots.length = _ at hentries
        rw [← hentries, threshold]
        omega
    | n48 n =>
      dsimp only
      split
      · exact ⟨_, _, rfl, inPlace _⟩
      · refine promote_room ?_ hfit
        rw [← hwf.2.1, threshold]
        have := hwf.2.2
        omega
    | n256 n => exact ⟨_, _, rfl, inPlace _⟩
  obtain ⟨t', r', hok, hs⟩ := hcost
  obtain hf | ⟨t'', r'', n', hok', hre, hgr⟩ := addChild_spec (c := c) h hwf hb
  · rw [hok] at hf
    cases hf
  · rw [hok] at hok'
    cases hok'
    exact ⟨t', r', n', hok, hre, hgr, hs⟩

/-- Moving children onto a node costs what it grows through. -/
theorem addChildren_room : ∀ {l : List (UInt8 × ArtChildRef)} {t : ArtTrie} {r : ArtChildRef}
    {n : ArtNode}, t.node r = some n → n.WF → (l.map (·.1)).Nodup →
    (∀ kc ∈ l, n.find kc.1 = none) →
    Fits t (fun ty => ty.passes n.fanout (n.fanout + l.length)) →
    ∃ t' r', t.addChildren r l = .ok (t', r') ∧
      Spent t t' (fun ty => ty.passes n.fanout (n.fanout + l.length))
  | [], t, r, n, _, _, _, _, _ => ⟨t, r, rfl, .refl ..⟩
  | (b, c) :: l, t, r, n, h, hwf, hnd, hnone, hfit => by
    rw [map_cons, nodup_cons] at hnd
    have hsplit : (fun ty : ArtNodeType => ty.passes n.fanout (n.fanout + ((b, c) :: l).length)) =
        fun ty => ty.passes n.fanout (n.fanout + 1) +
          ty.passes (n.fanout + 1) (n.fanout + 1 + l.length) := by
      funext ty
      rw [passes_add (Nat.le_succ _) (Nat.le_add_right _ _), length_cons,
        Nat.succ_add_eq_add_succ]
    rw [hsplit] at hfit ⊢
    have hb : n.find b = none := hnone (b, c) (mem_cons_self ..)
    obtain ⟨t₁, r₁, n₁, hok, hre, hgr, hs⟩ :=
      addChild_room (c := c) h hwf hb (hfit.mono fun ty => Nat.le_add_right _ _)
    have hfan := ArtNode.fanout_grown hgr hb
    have hne : ∀ kc ∈ l, kc.1 ≠ b := by
      rintro kc hkc rfl
      exact hnd.1 (mem_map.mpr ⟨kc, hkc, rfl⟩)
    obtain ⟨t₂, r₂, hok₂, hs₂⟩ :=
      addChildren_room (l := l) hre.node hgr.wf hnd.2
        (fun kc hkc => by
          rw [hgr.find, if_neg (hne kc hkc)]
          exact hnone kc (mem_cons_of_mem _ hkc))
        (by rw [hfan]; exact hfit.after hs)
    rw [hfan] at hs₂
    refine ⟨t₂, r₂, ?_, hs.trans hs₂⟩
    rw [addChildren, hok]
    exact hok₂

/-- A leaf below a node with `k` children costs a `Node4` and at most one promotion. -/
theorem addLeaf_room (site : PatchSite) (rest : Str) (h : t.node cur = some n) (hwf : n.WF)
    (hb : n.find b = none)
    (hfit : Fits t (fun ty => n4.one ty + ty.passes n.fanout (n.fanout + 1))) :
    ∃ t' leaf, t.addLeaf cur site b rest = .ok (t', leaf) ∧
      Spent t t' (fun ty => n4.one ty + ty.passes n.fanout (n.fanout + 1)) := by
  obtain ⟨t₁, leaf, hok₁, ha, hs₁⟩ := alloc_room (hfit.mono fun ty => Nat.le_add_right _ _)
  have hnew := ha.newNode { edge := rest }
  have hs₂ : Spent t (t₁.setHeader leaf { edge := rest }) n4.one :=
    hs₁.trans (spent_setHeader t₁ leaf _)
  have hn₂ : (t₁.setHeader leaf { edge := rest }).node cur = some n := by
    rw [hnew.other cur (hnew.ne_of_live (by simp [h])), h]
  obtain ⟨t₃, cur', n', hok₃, -, -, hs₃⟩ :=
    addChild_room (c := leaf) hn₂ hwf hb (hfit.after hs₂)
  refine ⟨if cur' ≠ cur then t₃.patch site cur' else t₃, leaf, ?_, ?_⟩
  · rw [addLeaf, allocN4, hok₁]
    show ((t₁.setHeader leaf { edge := rest }).addChild cur b leaf >>= _) = _
    rw [hok₃]
    rfl
  · split
    · exact (hs₂.trans hs₃).trans (spent_patch t₃ site cur')
    · exact hs₂.trans hs₃

/-- Splitting the edge into a node with `k` children costs a `Node4` and all that growing to `k`
children takes. -/
theorem splitEdge_room (site : PatchSite) (shared : Str) (x : UInt8) (rest : Str)
    (h : t.node child = some n) (hwf : n.WF)
    (hfit : Fits t (fun ty => n4.one ty + ty.passes 0 n.fanout)) :
    ∃ t' r', t.splitEdge child site shared x rest = .ok (t', r') ∧
      Spent t t' (fun ty => n4.one ty + ty.passes 0 n.fanout) := by
  obtain ⟨t₁, tail, hok₁, ha, hs₁⟩ := alloc_room (hfit.mono fun ty => Nat.le_add_right _ _)
  have hct : child ≠ tail := by
    rintro rfl
    rw [ha.fresh] at h
    cases h
  have hhdr₁ : t₁.header child = n.hdr := header_of_node (by rw [ha.other child hct, h])
  have hnew := ha.newNode { edge := rest, routeIdxByMethod := n.hdr.routeIdxByMethod }
  have hs₂ : Spent t (t₁.setHeader tail ⟨rest, n.hdr.routeIdxByMethod⟩) n4.one :=
    hs₁.trans (spent_setHeader t₁ tail _)
  have hn₂ : (t₁.setHeader tail ⟨rest, n.hdr.routeIdxByMethod⟩).node child = some n := by
    rw [hnew.other child hct, h]
  obtain ⟨hnodup, -⟩ := ArtNode.entries_spec hwf
  have hwf₀ := (ArtNode.wf_setHdr ⟨rest, n.hdr.routeIdxByMethod⟩ _).mpr (ArtNode.wf_empty .n4)
  have hcost : ∀ ty : ArtNodeType,
      ty.passes ((ArtNode.empty .n4).setHdr ⟨rest, n.hdr.routeIdxByMethod⟩).fanout
        (((ArtNode.empty .n4).setHdr ⟨rest, n.hdr.routeIdxByMethod⟩).fanout + n.entries.length) =
      ty.passes 0 n.fanout := by
    intro ty
    rw [ArtNode.fanout_empty, Nat.zero_add, ArtNode.length_entries hwf]
  obtain ⟨t₃, tailRef, hok₃, hs₃⟩ :=
    addChildren_room (l := n.entries) hnew.node hwf₀ hnodup (fun _ _ => by simp)
      (by simp only [hcost]; exact hfit.after hs₂)
  simp only [hcost] at hs₃
  obtain hf | ⟨t₃', tailRef', n₃, hok₃', hre, -⟩ :=
    addChildren_spec (l := n.entries) hnew.node hwf₀ hnodup (fun _ _ => by simp)
  · rw [hok₃] at hf
    cases hf
  rw [hok₃] at hok₃'
  cases hok₃'
  have hn₃ : t₃.node child = some n := by rw [hre.other child hct (by simp [hn₂]), hn₂]
  -- the emptied child has room for the tail whatever its kind
  have hs₄ : Spent t₃ (t₃.resetNode child shared) (fun _ => 0) :=
    spent_write ..
  have hn₄ : (t₃.resetNode child shared).node child =
      some ((ArtNode.empty child.type).setHdr { edge := shared }) :=
    node_write_self hn₃ (by simp)
  obtain ⟨t₅, r₅, n₅, hok₅, -, -, hs₅⟩ := addChild_room (b := x) (c := tailRef) hn₄
    ((ArtNode.wf_setHdr ..).mpr (ArtNode.wf_empty _)) (by simp) (by
      intro ty
      have hlen := ((hs₂.trans hs₃).trans hs₄).len ty
      simp only [ArtNode.fanout_empty, Nat.zero_add, passes_one]
      exact hlen.trans (hfit ty))
  simp only [ArtNode.fanout_empty, Nat.zero_add, passes_one] at hs₅
  refine ⟨if r₅ ≠ child then t₅.patch site r₅ else t₅, r₅, ?_, ?_⟩
  · simp only [splitEdge, allocN4, hok₁, bind, Except.bind, hhdr₁, hn₂, hok₃, hok₅]
    rfl
  · have hs := ((hs₂.trans hs₃).trans hs₄).trans hs₅
    split
    · exact hs.trans (spent_patch t₅ site r₅)
    · exact hs

/-! ## Who pays -/

/-- The books for the census `l`: each child after a node's first is worth a credit, and the entries
in use are covered by the nodes that need their kind, but for `s`. -/
structure Ledger (t : ArtTrie) (l : List ArtChildRef) (credit : Nat) (s : ArtNodeType → Nat) :
    Prop where
  census : Census t.graph l
  credit_le : total allBytes (fun k => k - 1) t.graph l ≤ credit
  pools : ∀ ty, t.poolLen ty ≤ total allBytes (ty.passes 0) t.graph l + s ty

def Account (t : ArtTrie) (credit : Nat) (s : ArtNodeType → Nat) : Prop :=
  ∃ l, Ledger t l credit s

variable {credit : Nat} {s s' : ArtNodeType → Nat} {w rest : Str}

theorem Account.mono {credit' : Nat} (h : Account t credit s) (hc : credit ≤ credit')
    (hs : ∀ ty, s ty ≤ s' ty) : Account t credit' s' := by
  obtain ⟨l, hl⟩ := h
  exact ⟨l, hl.census, hl.credit_le.trans hc,
    fun ty => (hl.pools ty).trans (Nat.add_le_add_left (hs ty) _)⟩

theorem graph_fanout (h : t.node r = some n) : fanout allBytes t.graph r = n.fanout := by
  rw [fanout, (graph_of_node h).2.2]
  rfl

/-- Credits are scarce, so few nodes are wide: the census of a node with `k` children and of the
nodes in `m` leaves the spare entries of every pool untouched. -/
theorem passes_add_total_le {g : RadixGraph ArtChildRef UInt8 RouteTable} {m : List ArtChildRef}
    {k : Nat} (h : k - 1 + total allBytes (fun k => k - 1) g m ≤ 127) (ty : ArtNodeType) :
    ty.passes 0 k + total allBytes (ty.passes 0) g m + ty.spare ≤ ty.maxNodes := by
  have wide : ∀ j, ty.passes 0 = (fun c => if j + 2 ≤ c then 1 else 0) →
      (j + 1) * (ty.passes 0 k + total allBytes (ty.passes 0) g m) ≤ 127 := by
    intro j hj
    have hm := mul_total_le allBytes j g m
    rw [hj, Nat.mul_add]
    refine le_trans (Nat.add_le_add ?_ hm) h
    dsimp only
    split
    · omega
    · simp
  cases ty with
  | n4 =>
    have h0 : n4.passes 0 = fun _ => 0 := rfl
    simp [h0, total, spare, maxNodes]
  | n16 =>
    have := wide 3 (by funext c; simp [passes, threshold])
    simp only [spare, maxNodes]
    omega
  | n48 =>
    have := wide 15 (by funext c; simp [passes, threshold])
    simp only [spare, maxNodes]
    omega
  | n256 =>
    have := wide 47 (by funext c; simp [passes, threshold])
    simp only [spare, maxNodes]
    omega

/-- A ledger read with the node at hand first. -/
theorem Account.front (h : Account t credit s) (hcur : At t.graph cur w)
    (hn : t.node cur = some n) :
    ∃ m, Census t.graph (cur :: m) ∧
      n.fanout - 1 + total allBytes (fun k => k - 1) t.graph m ≤ credit ∧
      ∀ ty, t.poolLen ty ≤ ty.passes 0 n.fanout + total allBytes (ty.passes 0) t.graph m + s ty := by
  obtain ⟨l, hl⟩ := h
  obtain ⟨m, hm, htotal⟩ := hl.census.front hcur
  have hcredit := hl.credit_le
  have hpools := hl.pools
  simp only [htotal, total_cons, graph_fanout hn] at hcredit hpools
  exact ⟨m, hm, hcredit, hpools⟩

/-- A new leaf brings a credit, unless it is the first child of its node, and costs a `Node4`. -/
theorem addLeaf_account (site : PatchSite) (rest : Str) (hI : Inv t) (hcur : At t.graph cur w) (hn : t.node cur = some n)
    (hb : t.findChild cur b = none)
    (hsite : SiteOk t site cur ∨ ∃ n, t.node cur = some n ∧ n.fill < 4)
    (ha : Account t credit s) (hcredit : credit + min n.fanout 1 ≤ 127)
    (hs : ∀ ty, s ty + n4.one ty ≤ ty.spare) :
    ∃ t' leaf, t.addLeaf cur site b (b :: rest) = .ok (t', leaf) ∧ Inv t' ∧
      Account t' (credit + min n.fanout 1) (fun ty => s ty + n4.one ty) := by
  obtain ⟨m', hm', hwf⟩ := hI.live hcur
  obtain rfl : n = m' := Option.some.inj (hn.symm.trans hm')
  obtain ⟨m, hm, hcr, hpools⟩ := ha.front hcur hn
  have hstep : ∀ ty : ArtNodeType, ty.passes 0 n.fanout + ty.passes n.fanout (n.fanout + 1) =
      ty.passes 0 (n.fanout + 1) :=
    fun ty => passes_add (Nat.zero_le _) (Nat.le_succ _)
  have hcr' : n.fanout + 1 - 1 + total allBytes (fun k => k - 1) t.graph m ≤
      credit + min n.fanout 1 := by omega
  have hfit : Fits t (fun ty => n4.one ty + ty.passes n.fanout (n.fanout + 1)) := by
    intro ty
    have hmax := passes_add_total_le (hcr'.trans hcredit) ty
    have hstep := hstep ty
    have hpools := hpools ty
    have hs := hs ty
    dsimp only
    omega
  obtain ⟨t', leaf, hok, hspent⟩ := addLeaf_room site (b :: rest) hn hwf
    (by rw [← findChild_of_node hn]; exact hb) hfit
  obtain hf | ⟨t'', leaf', cur', hok', hI', hadd, -⟩ := addLeaf_spec site hI hcur hb hsite
  · rw [hok] at hf
    cases hf
  rw [hok] at hok'
  cases hok'
  refine ⟨t', leaf, hok, hI', leaf :: cur' :: m, hadd.census hI.shape hm, ?_, ?_⟩
  · rw [hadd.total ArtNode.nodup_allBytes (ArtNode.mem_allBytes b) hm, graph_fanout hn]
    simpa using hcr'
  · intro ty
    have hlen := hspent.len ty
    have hstep := hstep ty
    have hpools := hpools ty
    rw [hadd.total ArtNode.nodup_allBytes (ArtNode.mem_allBytes b) hm, graph_fanout hn]
    omega

/-- A split moves the credits of the child to its tail; the entries the tail takes are left to `s`. -/
theorem splitEdge_account (site : PatchSite) {e₁ e₂ : Str} {x : UInt8} (hI : Inv t) (hcur : At t.graph cur w)
    (hc : t.findChild cur b = some child) (he : (t.header child).edge = e₁ ++ x :: e₂)
    (hne : e₁ ≠ []) (hn : t.node child = some n) (ha : Account t credit s) (hcredit : credit ≤ 127)
    (hs : ∀ ty, s ty + (n4.one ty + ty.passes 0 n.fanout) ≤ ty.spare) :
    ∃ t' tail, t.splitEdge child site e₁ x (x :: e₂) = .ok (t', child) ∧ Inv t' ∧
      Split t.graph t'.graph child tail w e₁ x e₂ ∧
      Account t' credit (fun ty => s ty + (n4.one ty + ty.passes 0 n.fanout)) ∧
      ∃ n, t'.node child = some n ∧ n.fill < 4 := by
  have hat : At t.graph child (w ++ (e₁ ++ x :: e₂)) := he ▸ hcur.step hc
  obtain ⟨m', hm', hwf⟩ := hI.live hat
  obtain rfl : n = m' := Option.some.inj (hn.symm.trans hm')
  obtain ⟨m, hm, hcr, hpools⟩ := ha.front hat hn
  have hfit : Fits t (fun ty => n4.one ty + ty.passes 0 n.fanout) := by
    intro ty
    have hmax := passes_add_total_le (hcr.trans hcredit) ty
    have hpools := hpools ty
    have hs := hs ty
    dsimp only
    omega
  obtain ⟨t', r', hok, hspent⟩ := splitEdge_room site e₁ x (x :: e₂) hn hwf hfit
  obtain hf | ⟨t'', tail, hok', hI', hsplit, -, hroom⟩ := splitEdge_spec site hI hcur hc he hne
  · rw [hok] at hf
    cases hf
  rw [hok] at hok'
  cases hok'
  refine ⟨t', tail, hok, hI', hsplit,
    ⟨tail :: child :: m, hsplit.census hI.shape hm, ?_, fun ty => ?_⟩, hroom⟩
  · rw [hsplit.total ArtNode.nodup_allBytes (ArtNode.mem_allBytes x) hm, total_cons,
      graph_fanout hn]
    simpa using hcr
  · have hlen := hspent.len ty
    have hpools := hpools ty
    rw [hsplit.total ArtNode.nodup_allBytes (ArtNode.mem_allBytes x) hm, total_cons,
      graph_fanout hn]
    omega

/-! ## One insertion -/

/-- The number of children of the node whose edge the descent of `insert` splits; 0 if it splits
none. -/
def cutFanout (t : ArtTrie) : Nat → ArtChildRef → Str → Nat
  | _, _, [] => 0
  | 0, _, _ :: _ => 0
  | fuel + 1, cur, b :: rest =>
    match t.findChild cur b with
    | none => 0
    | some child =>
      let e := (t.header child).edge
      let k := commonLen e (b :: rest)
      match e.drop k with
      | [] => t.cutFanout fuel child ((b :: rest).drop k)
      | _ :: _ => fanout allBytes t.graph child

/-- The same for a call of `insert` on `t`. -/
def splitFanout (t : ArtTrie) (path : Str) : Nat :=
  t.cutFanout (finalizePathCanonical path).length t.rootRef (finalizePathCanonical path)

/-- What a descent that splits a node with `k` children takes beside its promotions. -/
def outlay (k : Nat) (ty : ArtNodeType) : Nat := 2 * n4.one ty + ty.passes 0 k

/-- The promotions of a descent are paid for. -/
theorem insertLoop_account : ∀ {fuel : Nat} {t : ArtTrie} {cur : ArtChildRef} (site : PatchSite)
    {w rest : Str} {s : ArtNodeType → Nat}, Inv t → At t.graph cur w → SiteOk t site cur →
    rest.length ≤ fuel → Account t credit s → credit + 1 ≤ 127 →
    (∀ ty, s ty + outlay (t.cutFanout fuel cur rest) ty ≤ ty.spare) →
    ∃ t' r, insertLoop fuel t cur site rest = .ok (t', r) ∧
      Account t' (credit + 1) (fun ty => s ty + outlay (t.cutFanout fuel cur rest) ty)
  | fuel, t, cur, site, w, [], s, _, _, _, _, ha, _, _ =>
    ⟨t, cur, by cases fuel <;> rfl, ha.mono (Nat.le_succ _) (fun _ => Nat.le_add_right _ _)⟩
  | fuel + 1, t, cur, site, w, b :: rest, s, hI, hcur, hsite, hfuel, ha, hcredit, hs => by
    obtain ⟨n, hn, -⟩ := hI.live hcur
    cases hc : t.findChild cur b with
    | none =>
      have hcut : t.cutFanout (fuel + 1) cur (b :: rest) = 0 := by rw [cutFanout, hc]
      rw [hcut] at hs ⊢
      rw [insertLoop, hc]
      obtain ⟨t', leaf, hok, -, ha'⟩ := addLeaf_account site rest hI hcur hn hc (.inl hsite) ha
        (by omega) (fun ty => by have := hs ty; unfold outlay at this; omega)
      refine ⟨t', leaf, hok, ha'.mono (by omega) (fun ty => ?_)⟩
      unfold outlay
      omega
    | some child =>
      obtain ⟨l, hl⟩ : ∃ l, (t.header child).edge = b :: l := hI.shape.key hcur hc
      have hat : At t.graph child (w ++ (t.header child).edge) := hcur.step hc
      obtain ⟨nc, hnc, -⟩ := hI.live hat
      obtain ⟨hk, htake, hdiff⟩ := commonLen_spec (t.header child).edge (b :: rest)
      have hpos : 0 < commonLen (t.header child).edge (b :: rest) := by
        rw [hl]; exact commonLen_pos ..
      simp only [cutFanout, hc, insertLoop] at hs ⊢
      generalize commonLen (t.header child).edge (b :: rest) = k at hk htake hdiff hpos hs ⊢
      have hlen : ((b :: rest).drop k).length ≤ fuel := by
        rw [length_drop]
        omega
      cases hd : (t.header child).edge.drop k with
      | nil =>
        simp only [hd] at hs ⊢
        exact insertLoop_account _ hI hat ⟨⟨w, hcur⟩, hc⟩ hlen ha hcredit hs
      | cons x e₂ =>
        simp only [hd, graph_fanout hnc] at hs ⊢
        have he : (t.header child).edge = (t.header child).edge.take k ++ x :: e₂ := by
          rw [← hd, take_append_drop]
        have hne : (t.header child).edge.take k ≠ [] := by
          rw [hl]
          obtain ⟨k, rfl⟩ := Nat.exists_eq_succ_of_ne_zero hpos.ne'
          simp
        obtain ⟨t₁, tail, hok, hI₁, hsp, ha₁, hroom⟩ :=
          splitEdge_account site hI hcur hc he hne hnc ha (by omega)
            (fun ty => by have := hs ty; unfold outlay at this; omega)
        rw [hok]
        have hat₁ := hsp.at_upper hI.shape
        -- the path ends at the branching point, or goes on by a byte without a child there
        cases hrest : (b :: rest).drop k with
        | nil =>
          refine ⟨t₁, child, by cases fuel <;> rfl, ha₁.mono (Nat.le_succ _) (fun ty => ?_)⟩
          unfold outlay
          omega
        | cons b' p₂ =>
          rw [hrest] at hlen
          obtain ⟨fuel, rfl⟩ : ∃ f, fuel = f + 1 := Nat.exists_eq_succ_of_ne_zero (by
            rw [length_cons] at hlen
            omega)
          have hb' : t₁.findChild child b' = none :=
            hsp.child_upper_ne b' (hdiff x e₂ b' p₂ hd hrest)
          obtain ⟨n₁, hn₁, -⟩ := hI₁.live hat₁
          obtain ⟨t', leaf, hok', -, ha'⟩ := addLeaf_account site p₂ hI₁ hat₁ hn₁ hb'
            (.inr hroom) ha₁ (by omega)
            (fun ty => by have := hs ty; unfold outlay at this; omega)
          refine ⟨t', leaf, ?_, ha'.mono (by omega) (fun ty => ?_)⟩
          · show insertLoop (fuel + 1) t₁ child site (b' :: p₂) = _
            rw [insertLoop, hb']
            exact hok'
          · unfold outlay
            omega

theorem findChild_setHeader (t : ArtTrie) (r : ArtChildRef) (h : ArtNodeHeader) (x : ArtChildRef)
    (b : UInt8) : (t.setHeader r h).findChild x b = t.findChild x b := by
  unfold setHeader
  split
  · next n hn =>
    have hty : (n.setHdr h).type = r.type := by simpa using type_of_node hn
    by_cases hx : x = r
    · subst hx
      rw [findChild_of_node (node_write_self hn hty), findChild_of_node hn, ArtNode.find_setHdr]
    · simp only [findChild, node_write_ne hty hx]
  · rfl

/-- Terminals are free. -/
theorem setTerminal_account {p : Str} (hI : Inv t) (hp : At t.graph r p) (slot : MethodSlot)
    (routeIdx : UInt16) (ha : Account t credit s) :
    Account (t.setTerminal r slot routeIdx) credit s := by
  obtain ⟨-, hat, -⟩ := setTerminal_spec hI hp slot routeIdx
  obtain ⟨l, hl⟩ := ha
  have hchild : ∀ x b, (t.setTerminal r slot routeIdx).findChild x b = t.findChild x b := by
    intro x b
    unfold setTerminal
    dsimp only
    split
    · exact findChild_setHeader ..
    · rfl
  have hspent : Spent t (t.setTerminal r slot routeIdx) (fun _ => 0) := by
    unfold setTerminal
    dsimp only
    split
    · exact spent_setHeader ..
    · exact .refl ..
  have htotal : ∀ f, total allBytes f (t.setTerminal r slot routeIdx).graph l =
      total allBytes f t.graph l :=
    fun f => total_congr fun x _ => fanout_congr fun b => congrArg Option.isSome (hchild x b)
  refine ⟨l, ⟨hl.census.nodup, fun x => ?_⟩, ?_, fun ty => ?_⟩
  · rw [hl.census.mem_iff]
    exact exists_congr fun u => (hat x u).symm
  · rw [htotal]
    exact hl.credit_le
  · rw [htotal]
    exact (hspent.len ty).trans (hl.pools ty)

/-- An insertion that is within its means succeeds. -/
theorem insert_account (hI : Inv t) (path : Str) {methodChar : UInt8} (routeIdx : UInt16)
    (hm : routeMethodSlot methodChar ≠ none) (ha : Account t credit s) (hcredit : credit + 1 ≤ 127)
    (hs : ∀ ty, s ty + outlay (t.splitFanout path) ty ≤ ty.spare) :
    ∃ t', t.insert path methodChar routeIdx = some (t', true) ∧ Inv t' ∧
      Account t' (credit + 1) (fun ty => s ty + outlay (t.splitFanout path) ty) := by
  obtain ⟨t₁, r, hok, ha₁⟩ := insertLoop_account .root hI (At.root (g := t.graph)) rfl
    (le_refl (finalizePathCanonical path).length) ha hcredit hs
  obtain ⟨slot, hslot⟩ := Option.ne_none_iff_exists'.mp hm
  have hok' : insertLoop (finalizePathCanonical path).length t t.rootRef .root
      (finalizePathCanonical path) = .ok (t₁, r) := hok
  have heq : t.insert path methodChar routeIdx = some (t₁.setTerminal r slot routeIdx, true) := by
    simp only [insert, hslot, hok']
  obtain hf | ⟨t₂, r₂, hok₂, hpl⟩ := insertLoop_spec .root hI (At.root (g := t.graph)) rfl
    (le_refl (finalizePathCanonical path).length)
  · rw [hok] at hf
    cases hf
  rw [hok] at hok₂
  cases hok₂
  exact ⟨_, heq, (setTerminal_spec hpl.inv hpl.at_end slot routeIdx).1,
    setTerminal_account hpl.inv hpl.at_end slot routeIdx ha₁⟩

theorem clear_account : Account clear 0 n4.one := by
  refine ⟨[⟨.n4, 0⟩], ⟨by simp, fun r => ?_⟩, ?_, fun ty => ?_⟩
  · rw [mem_singleton]
    constructor
    · rintro rfl
      exact ⟨[], At.root⟩
    · rintro ⟨w, hw⟩
      exact (clear_at hw).1
  · have h0 : fanout allBytes clear.graph ⟨.n4, 0⟩ = 0 := by
      exact ArtNode.fanout_empty .n4 {}
    rw [total_cons, h0]
    simp [total]
  · cases ty <;> exact Nat.le_add_left _ _

/-- The first insertion splits nothing and brings no credit: it adds a child to a bare root. -/
theorem insert_clear_account (path : Str) {methodChar : UInt8} (routeIdx : UInt16)
    (hm : routeMethodSlot methodChar ≠ none) :
    ∃ t', clear.insert path methodChar routeIdx = some (t', true) ∧ Inv t' ∧
      Account t' 0 (fun ty => 2 * n4.one ty) := by
  obtain ⟨slot, hslot⟩ := Option.ne_none_iff_exists'.mp hm
  have hroot : At clear.graph clear.rootRef [] := At.root
  have hloop : ∃ t₁ r, insertLoop (finalizePathCanonical path).length clear clear.rootRef .root
      (finalizePathCanonical path) = .ok (t₁, r) ∧
      Account t₁ 0 (fun ty => 2 * n4.one ty) := by
    cases finalizePathCanonical path with
    | nil => exact ⟨clear, _, rfl, clear_account.mono le_rfl (fun ty => by omega)⟩
    | cons b rest =>
      have h0 : (ArtNode.n4 {}).fanout = 0 := ArtNode.fanout_empty .n4 {}
      obtain ⟨t₁, leaf, hok, -, ha⟩ := addLeaf_account (n := .n4 {}) (b := b) .root rest
        clear_inv hroot rfl rfl (.inl rfl) clear_account (by rw [h0]; decide)
        (fun ty => by cases ty <;> decide)
      refine ⟨t₁, leaf, hok, ha.mono (by rw [h0]; decide) (fun ty => by omega)⟩
  obtain ⟨t₁, r, hok, ha⟩ := hloop
  obtain hf | ⟨t₂, r₂, hok₂, hpl⟩ := insertLoop_spec .root clear_inv hroot rfl
    (le_refl (finalizePathCanonical path).length)
  · rw [hok] at hf
    cases hf
  rw [hok] at hok₂
  cases hok₂
  refine ⟨t₁.setTerminal r slot routeIdx, ?_,
    (setTerminal_spec hpl.inv hpl.at_end slot routeIdx).1,
    setTerminal_account hpl.inv hpl.at_end slot routeIdx ha⟩
  simp only [insert, hslot, hok]

/-! ## Lists of routes -/

/-- Does every one of the calls succeed when they are made in order? -/
def insertsAll : ArtTrie → List InsertCall → Bool
  | _, [] => true
  | t, c :: calls =>
    match t.insert c.path c.methodChar c.routeIdx with
    | some (t', true) => insertsAll t' calls
    | _ => false

/-- How many of the calls split the edge into a node with at least `k` children. -/
def wideSplits (k : Nat) : ArtTrie → List InsertCall → Nat
  | _, [] => 0
  | t, c :: calls =>
    (if k ≤ t.splitFanout c.path then 1 else 0) +
      match t.insert c.path c.methodChar c.routeIdx with
      | some (t', _) => wideSplits k t' calls
      | none => 0

/-- What the calls take beside their promotions. -/
def outlays (t : ArtTrie) (calls : List InsertCall) (ty : ArtNodeType) : Nat :=
  2 * calls.length * n4.one ty +
    if ty = .n4 then 0 else wideSplits ty.threshold t calls

theorem wideSplits_cons {x : InsertCall} {ok : Bool}
    (h : t.insert x.path x.methodChar x.routeIdx = some (t', ok)) (k : Nat)
    (calls : List InsertCall) :
    wideSplits k t (x :: calls) =
      (if k ≤ t.splitFanout x.path then 1 else 0) + wideSplits k t' calls := by
  rw [wideSplits, h]

theorem outlays_cons {x : InsertCall} {ok : Bool}
    (h : t.insert x.path x.methodChar x.routeIdx = some (t', ok)) (calls : List InsertCall)
    (ty : ArtNodeType) :
    outlays t (x :: calls) ty = outlay (t.splitFanout x.path) ty + outlays t' calls ty := by
  simp only [outlays, outlay, length_cons]
  by_cases hty : ty = .n4
  · subst hty
    have h0 : n4.passes 0 (t.splitFanout x.path) = 0 := rfl
    rw [h0, if_pos rfl, if_pos rfl, Nat.mul_succ, Nat.add_mul]
    omega
  · have h0 : n4.one ty = 0 := if_neg hty
    rw [h0, if_neg hty, if_neg hty, passes_zero hty, wideSplits_cons h]
    omega

/-- A run within its means: by induction on the calls, each pays for itself. -/
theorem insertsAll_of_account : ∀ {calls : List InsertCall} {t : ArtTrie} {credit : Nat}
    {s : ArtNodeType → Nat}, Inv t → Account t credit s → credit + calls.length ≤ 127 →
    (∀ c ∈ calls, routeMethodSlot c.methodChar ≠ none) →
    (∀ ty, s ty + outlays t calls ty ≤ ty.spare) → insertsAll t calls = true
  | [], _, _, _, _, _, _, _, _ => rfl
  | x :: calls, t, credit, s, hI, ha, hlen, hm, hs => by
    rw [length_cons] at hlen
    -- what this call takes is part of what all of them take, whether it succeeds or not
    have hle : ∀ ty, outlay (t.splitFanout x.path) ty ≤ outlays t (x :: calls) ty := by
      intro ty
      obtain hret | ⟨t', -, hret, -⟩ := insert_spec hI x.path x.methodChar x.routeIdx
      · rw [outlays_cons hret]
        exact Nat.le_add_right _ _
      · rw [outlays_cons hret]
        exact Nat.le_add_right _ _
    obtain ⟨t', hok, hI', ha'⟩ := insert_account hI x.path x.routeIdx
      (hm x (mem_cons_self ..)) ha (by omega)
      (fun ty => (Nat.add_le_add_left (hle ty) _).trans (hs ty))
    rw [insertsAll, hok]
    refine insertsAll_of_account hI' ha' (by omega)
      (fun c hc => hm c (mem_cons_of_mem _ hc)) (fun ty => ?_)
    have := hs ty
    rw [outlays_cons hok] at this
    omega

/-- A list of at most 128 routes fits into the pools if few of its insertions split the edge into a
node with many children: at most 33 with five or more, 25 with seventeen or more, six with
forty-nine or more. -/
theorem insertsAll_of_wideSplits (calls : List InsertCall)
    (hlen : calls.length ≤ RouteConfig.kMaxRoutes)
    (hm : ∀ c ∈ calls, routeMethodSlot c.methodChar ≠ none)
    (h16 : wideSplits 5 clear calls ≤ 33) (h48 : wideSplits 17 clear calls ≤ 25)
    (h256 : wideSplits 49 clear calls ≤ 6) : insertsAll clear calls = true := by
  cases calls with
  | nil => rfl
  | cons x calls =>
    obtain ⟨t', hok, hI', ha'⟩ := insert_clear_account x.path x.routeIdx
      (hm x (mem_cons_self ..))
    rw [insertsAll, hok]
    simp only [length_cons, RouteConfig.kMaxRoutes] at hlen
    refine insertsAll_of_account hI' ha' (by omega)
      (fun c hc => hm c (mem_cons_of_mem _ hc)) (fun ty => ?_)
    rw [wideSplits_cons hok] at h16 h48 h256
    cases ty with
    | n4 =>
      show 2 * 1 + (2 * calls.length * 1 + 0) ≤ 256
      omega
    | n16 =>
      show 2 * 0 + (2 * calls.length * 0 + wideSplits 5 t' calls) ≤ 33
      omega
    | n48 =>
      show 2 * 0 + (2 * calls.length * 0 + wideSplits 17 t' calls) ≤ 25
      omega
    | n256 =>
      show 2 * 0 + (2 * calls.length * 0 + wideSplits 49 t' calls) ≤ 6
      omega

theorem insertsAll_of_wideSplits_split :
    wideSplits 5 clear [⟨ascii "/static", 0, 0⟩, ⟨ascii "/status", 71, 1⟩] ≤ 33 ∧
      insertsAll clear [⟨ascii "/static", 0, 0⟩, ⟨ascii "/status", 71, 1⟩] = true :=
  ⟨by decide +kernel, insertsAll_of_wideSplits _ (by decide) (by decide) (by decide +kernel)
    (by decide +kernel) (by decide +kernel)⟩

/-- Forty-nine siblings far below the root, so that their parent is a `Node256`, and then eight
routes that each leave the way to them one byte later than the one before. -/
def wideThenSplit : List InsertCall :=
  (range 49).map (fun i =>
      ⟨ascii "/aaaaaaaaa" ++ [UInt8.ofNat (65 + i)], 0, UInt16.ofNat i⟩) ++
    (range 8).map (fun k =>
      ⟨ascii "/a" ++ replicate k 97 ++ ascii "z", 0, UInt16.ofNat (49 + k)⟩)

/-- Fifty-seven legal routes that do not fit: each of the last eight rebuilds the wide node in a
fresh `Node256` and strands the old one, and the pool has eight of them. -/
theorem insertsAll_wideThenSplit :
    wideThenSplit.length = 57 ∧
      (∀ c ∈ wideThenSplit, RouteConfig.isRoutablePath c.path = true ∧
        pathHasParamSegment c.path = false ∧ routeMethodSlot c.methodChar ≠ none) ∧
      insertsAll clear wideThenSplit = false :=
  ⟨rfl, by decide +kernel, by decide +kernel⟩

end ArtTrie
end Rut
