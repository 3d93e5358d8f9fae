import Rut.Route.Art.Node
import Rut.Route.Registration

/-!
# Insertion keeps the trie a radix tree

The pools with their references are a `RadixGraph`; `Inv` says that its reachable part is a radix
tree of live, well-formed nodes. The two mutating branches of the descent are instances of the
library's `AddLeaf` and `Split`, and `insertLoop_spec` runs the loop:

    insertLoop … = .ok (t', r)   →   r sits at p, and no terminal table has changed

`sem t u` is the terminal table at the word `u`, whatever nodes spell it.
-/

namespace Rut
namespace ArtTrie

open Lib Lib.RadixGraph ArtNode List

/-- The trie as a graph: what the descents of `insert` and of the lookup see of it. -/
def graph (t : ArtTrie) : RadixGraph ArtChildRef UInt8 RouteTable where
  root := t.rootRef
  edge r := (t.header r).edge
  child := t.findChild
  term r := (t.header r).routeIdxByMethod

structure Inv (t : ArtTrie) : Prop where
  shape : Shape t.graph
  live : ∀ {r w}, At t.graph r w → ∃ n, t.node r = some n ∧ n.WF
  uniform : t.UniformOk

/-- The terminal table at the word `u`. -/
noncomputable def sem (t : ArtTrie) (u : Str) : RouteTable :=
  t.graph.lookD noRoutes u

variable {t t' t₁ t₂ t₃ : ArtTrie} {r cur cur' leaf : ArtChildRef} {n n' : ArtNode}
  {w u rest : Str} {b : UInt8} {site : PatchSite}

theorem header_of_node (h : t.node r = some n) : t.header r = n.hdr := by
  simp only [header, h]

theorem findChild_of_node (h : t.node r = some n) : t.findChild r b = n.find b := by
  simp only [findChild, h]

theorem graph_of_node (h : t.node r = some n) :
    t.graph.edge r = n.hdr.edge ∧ t.graph.term r = n.hdr.routeIdxByMethod ∧
      t.graph.child r = n.find :=
  ⟨congrArg ArtNodeHeader.edge (header_of_node h),
    congrArg ArtNodeHeader.routeIdxByMethod (header_of_node h),
    funext fun _ => findChild_of_node h⟩

/-- Entries that are not allocated are not reachable. -/
theorem Inv.not_at (hI : Inv t) (h : t.node r = none) (u : Str) : ¬ At t.graph r u := by
  intro hat
  obtain ⟨n, hn, -⟩ := hI.live hat
  rw [h] at hn
  cases hn

theorem clear_at (h : At clear.graph r w) : r = ⟨.n4, 0⟩ ∧ w = [] := by
  induction h with
  | root => exact ⟨rfl, rfl⟩
  | step _ hc ih =>
    rw [ih.1] at hc
    cases hc

/-- A cleared trie is a radix tree with nothing in it. -/
theorem clear_inv : Inv clear where
  shape := {
    key := fun h hc => by
      rw [(clear_at h).1] at hc
      cases hc
    word_unique := fun h h' => (clear_at h).2.trans (clear_at h').2.symm }
  live h := by
    rw [(clear_at h).1]
    exact ⟨_, rfl, wf_empty .n4⟩
  uniform := by
    rintro - ⟨ty, i⟩ hr
    cases ty with
    | n4 => rfl
    | n16 => simp [node, clear] at hr
    | n48 => simp [node, clear] at hr
    | n256 => simp [node, clear] at hr

theorem clear_sem (u : Str) : sem clear u = noRoutes := by
  by_cases hu : ∃ r, At clear.graph r u
  · obtain ⟨r, hr⟩ := hu
    rw [sem, lookD_of_at clear_inv.shape _ hr, (clear_at hr).1]
    rfl
  · exact lookD_of_not_at _ (not_exists.mp hu)

/-! ## Writing one reference -/

theorem regrown_setHeader (h : t.node r = some n) (hd : ArtNodeHeader) :
    Regrown t (t.setHeader r hd) r r (n.setHdr hd) := by
  simp only [setHeader, h]
  exact regrown_write h (by simpa using type_of_node h)

/-- The slot a patch site denotes holds the reference to the current node. -/
def SiteOk (t : ArtTrie) (site : PatchSite) (cur : ArtChildRef) : Prop :=
  match site with
  | .root => t.rootRef = cur
  | .slot parent b => (∃ w, At t.graph parent w) ∧ t.findChild parent b = some cur

/-- `t'` is `t₁`, which agrees with `t` away from `cur`, with every reference to `cur` in the
reachable part of `t` turned into one to `cur'`. -/
structure Relinked (t t₁ t' : ArtTrie) (cur cur' : ArtChildRef) : Prop where
  root : t'.rootRef = reloc cur cur' t.rootRef
  kept : ∀ {r u}, At t.graph r u → r ≠ cur → ∃ n n', t.node r = some n ∧ t'.node r = some n' ∧
    n'.WF ∧ n'.hdr = n.hdr ∧ ∀ x, n'.find x = (n.find x).map (reloc cur cur')
  same : ∀ x, t.node x = none → t'.node x = t₁.node x
  uniform : t₁.UniformOk → t'.UniformOk

theorem relinked_refl (hI : Inv t) (hroot : t₁.rootRef = t.rootRef)
    (hother : ∀ x, x ≠ cur → t.node x ≠ none → t₁.node x = t.node x) :
    Relinked t t₁ t₁ cur cur := by
  have hid : ∀ c, reloc cur cur c = c := by
    intro c
    unfold reloc
    split <;> simp_all
  refine ⟨by rw [hroot, hid], fun {r u} hr hne => ?_, fun _ _ => rfl, id⟩
  obtain ⟨n, hn, hwf⟩ := hI.live hr
  refine ⟨n, n, hn, ?_, hwf, rfl, fun x => ?_⟩
  · rw [hother r hne (by simp [hn]), hn]
  · cases n.find x <;> simp [hid]

/-- No reachable slot but the one denoted by the patch site holds the reference to `cur`. -/
theorem patch_relinked (hI : Inv t) (hsite : SiteOk t site cur)
    (hroot : t₁.rootRef = t.rootRef)
    (hother : ∀ x, x ≠ cur → t.node x ≠ none → t₁.node x = t.node x) :
    Relinked t t₁ (t₁.patch site cur') cur cur' := by
  have hreloc : ∀ c, c ≠ cur → reloc cur cur' c = c := fun c hc => by simp [reloc, hc]
  -- a node none of whose slots holds `cur` is kept as it is
  have untouched : ∀ {r u}, At t.graph r u → r ≠ cur → (∀ x, t.findChild r x ≠ some cur) →
      ∃ n, t.node r = some n ∧ t₁.node r = some n ∧ n.WF ∧
        ∀ x, n.find x = (n.find x).map (reloc cur cur') := by
    intro r u hr hne hno
    obtain ⟨n, hn, hwf⟩ := hI.live hr
    refine ⟨n, hn, by rw [hother r hne (by simp [hn]), hn], hwf, fun x => ?_⟩
    cases hc : n.find x with
    | none => rfl
    | some c =>
      have hc' : c ≠ cur := by
        rintro rfl
        exact hno x (by rw [findChild_of_node hn, hc])
      rw [Option.map_some, hreloc c hc']
  cases site with
  | root =>
    have hroot' : t.rootRef = cur := hsite
    refine ⟨by simp [patch, reloc, hroot'], fun {r u} hr hne => ?_, fun _ _ => rfl, id⟩
    have hno : ∀ x, t.findChild r x ≠ some cur := fun x hx =>
      hr.child_ne_root hI.shape hx hroot'.symm
    obtain ⟨n, hn, hn', hwf, hfind⟩ := untouched hr hne hno
    exact ⟨n, n, hn, hn', hwf, rfl, hfind⟩
  | slot parent bp =>
    obtain ⟨⟨wp, hp⟩, hchild⟩ := hsite
    have hpc : parent ≠ cur := (hp.child_ne_self hI.shape hchild).symm
    obtain ⟨np, hnp, hwfp⟩ := hI.live hp
    have hnp₁ : t₁.node parent = some np := by rw [hother parent hpc (by simp [hnp]), hnp]
    have hw : Regrown t₁ (t₁.write parent.idx (np.setChild bp cur')) parent parent _ :=
      regrown_write hnp₁ (by simpa using type_of_node hnp₁)
    have hpatch : t₁.patch (.slot parent bp) cur' =
        t₁.write parent.idx (np.setChild bp cur') := by
      simp only [patch, hnp₁]
    have hne : ∀ x, x ≠ parent →
        (t₁.write parent.idx (np.setChild bp cur')).node x = t₁.node x := fun x hx =>
      node_write_ne (by simpa using type_of_node hnp₁) hx
    have hfindp : np.find bp = some cur := by rw [← findChild_of_node hnp]; exact hchild
    rw [hpatch]
    refine ⟨?_, fun {r u} hr hrc => ?_, fun x hx => ?_, hw.uniform⟩
    · have hne_root : t.rootRef ≠ cur := (hp.child_ne_root hI.shape hchild).symm
      rw [hw.root, hroot, hreloc _ hne_root]
    · by_cases hrp : r = parent
      · subst hrp
        refine ⟨np, _, hnp, hw.node, wf_setChild hwfp (by simp [hfindp]), by simp,
          fun x => ?_⟩
        rw [find_setChild hwfp (by simp [hfindp])]
        by_cases hx : x = bp
        · simp [hx, hfindp, reloc]
        · rw [if_neg hx]
          cases hc : np.find x with
          | none => rfl
          | some c =>
            have hcc : c ≠ cur := by
              rintro rfl
              have hslot : t.findChild r x = some c := by rw [findChild_of_node hnp, hc]
              exact hx (hp.slot_unique hI.shape hslot hp hchild).2
            rw [Option.map_some, hreloc c hcc]
      · have hno : ∀ x, t.findChild r x ≠ some cur := fun x hx =>
          hrp (hr.slot_unique hI.shape hx hp hchild).1
        obtain ⟨n, hn, hn', hwf, hfind⟩ := untouched hr hrc hno
        exact ⟨n, n, hn, by rw [hne r hrp, hn'], hwf, rfl, hfind⟩
    · refine hne x ?_
      rintro rfl
      rw [hnp] at hx
      cases hx

/-! ## The two mutating branches -/

/-- A new `Node4` with header `hd` and no children. -/
structure NewNode (t t' : ArtTrie) (r : ArtChildRef) (hd : ArtNodeHeader) : Prop where
  fresh : t.node r = none
  node : t'.node r = some ((empty .n4).setHdr hd)
  other : ∀ x, x ≠ r → t'.node x = t.node x
  root : t'.rootRef = t.rootRef
  uniform : t.UniformOk → t'.UniformOk

theorem Allocated.newNode (h : Allocated t t₁ r .n4) (hd : ArtNodeHeader) :
    NewNode t (t₁.setHeader r hd) r hd := by
  have hw := regrown_setHeader h.node hd
  have hne : ∀ x, x ≠ r → (t₁.setHeader r hd).node x = t₁.node x := by
    intro x hx
    simp only [setHeader, h.node]
    exact node_write_ne (by simp [h.kind]) hx
  exact ⟨h.fresh, hw.node, fun x hx => by rw [hne x hx, h.other x hx], hw.root.trans h.root,
    hw.uniform ∘ h.uniform⟩

theorem NewNode.ne_of_live {hd : ArtNodeHeader} (h : NewNode t t' r hd) {x : ArtChildRef}
    (hx : t.node x ≠ none) : x ≠ r := by
  rintro rfl
  exact hx h.fresh

/-- The graph side of a new leaf: the pools as they stand afterwards describe an `AddLeaf`. -/
theorem Relinked.addLeaf (hI : Inv t) (hlink : Relinked t t₁ t' cur cur')
    (hcur : At t.graph cur w) (hn : t.node cur = some n) (hb : n.find b = none)
    (hcur' : cur' = cur ∨ t.node cur' = none) (hleaf : t.node leaf = none) (hne : leaf ≠ cur')
    (hnode : t'.node cur' = some n') (hgr : Grown n n' b leaf)
    (hnl : t'.node leaf = some ((empty .n4).setHdr { edge := b :: rest })) :
    AddLeaf t.graph t'.graph cur cur' leaf w b rest := by
  obtain ⟨hedge, hterm, hchild⟩ := graph_of_node hn
  obtain ⟨hedge', hterm', hchild'⟩ := graph_of_node hnode
  obtain ⟨hedgel, -, hchildl⟩ := graph_of_node hnl
  exact {
    at_cur := hcur
    no_child := by rw [hchild, hb]
    leaf_fresh := hI.not_at hleaf
    cur_fresh := hcur'.imp id hI.not_at
    leaf_ne := hne
    root := hlink.root
    edge_cur := by rw [hedge', hedge, hgr.hdr]
    term_cur := by rw [hterm', hterm, hgr.hdr]
    child_same := fun x hx => by rw [hchild', hchild, hgr.find, if_neg hx]
    child_new := by rw [hchild', hgr.find, if_pos rfl]
    edge_leaf := by rw [hedgel, hdr_setHdr]
    child_leaf := fun x => by rw [hchildl, find_setHdr, find_empty]
    edge_other := fun hr hrc => by
      obtain ⟨m, m', hm, hm', -, hhdr, -⟩ := hlink.kept hr hrc
      rw [(graph_of_node hm').1, (graph_of_node hm).1, hhdr]
    term_other := fun hr hrc => by
      obtain ⟨m, m', hm, hm', -, hhdr, -⟩ := hlink.kept hr hrc
      rw [(graph_of_node hm').2.1, (graph_of_node hm).2.1, hhdr]
    child_other := fun hr hrc x => by
      obtain ⟨m, m', hm, hm', -, -, hfind⟩ := hlink.kept hr hrc
      rw [(graph_of_node hm').2.2, (graph_of_node hm).2.2, hfind] }

/-- Adding a leaf: the pool is full, or the graph gains one vertex at the path's end. The patch
site has to be right only if the current node may be promoted. -/
theorem addLeaf_spec (site : PatchSite) (hI : Inv t) (hcur : At t.graph cur w) (hb : t.findChild cur b = none)
    (hsite : SiteOk t site cur ∨ ∃ n, t.node cur = some n ∧ n.fill < 4) :
    t.addLeaf cur site b (b :: rest) = .error .full ∨
      ∃ t' leaf cur', t.addLeaf cur site b (b :: rest) = .ok (t', leaf) ∧ Inv t' ∧
        AddLeaf t.graph t'.graph cur cur' leaf w b rest ∧ t'.graph.term leaf = noRoutes := by
  obtain ⟨n, hn, hwf⟩ := hI.live hcur
  rw [findChild_of_node hn] at hb
  obtain hf | ⟨t₁, leaf, hok₁, ha⟩ := t.alloc_spec .n4
  · exact .inl (by rw [addLeaf, allocN4, hf]; rfl)
  have hnew := ha.newNode { edge := b :: rest }
  set t₂ := t₁.setHeader leaf { edge := b :: rest }
  have hcl : cur ≠ leaf := hnew.ne_of_live (by simp [hn])
  have hn₂ : t₂.node cur = some n := by rw [hnew.other cur hcl, hn]
  have hstep : t₂.addChild cur b leaf = .error .full ∨
      ∃ t₃ cur' n', t₂.addChild cur b leaf = .ok (t₃, cur') ∧ Regrown t₂ t₃ cur cur' n' ∧
        Grown n n' b leaf ∧ (SiteOk t site cur ∨ cur' = cur) := by
    rcases hsite with hsite | ⟨m, hm, hfill⟩
    · exact (addChild_spec hn₂ hwf hb).imp id
        fun ⟨t₃, cur', n', h₁, h₂, h₃⟩ => ⟨t₃, cur', n', h₁, h₂, h₃, .inl hsite⟩
    · rw [hn] at hm
      cases hm
      obtain ⟨t₃, n', h₁, h₂, h₃, -⟩ := addChild_inPlace (c := leaf) hn₂ hwf hb hfill
      exact .inr ⟨t₃, cur, n', h₁, h₂, h₃, .inr rfl⟩
  obtain hf | ⟨t₃, cur', n', hok₃, hre, hgr, hsite'⟩ := hstep
  · refine .inl ?_
    rw [addLeaf, allocN4, hok₁]
    show (t₂.addChild cur b leaf >>= _) = _
    rw [hf]
    rfl
  set t₄ := if cur' ≠ cur then t₃.patch site cur' else t₃ with ht₄
  have hother : ∀ x, x ≠ cur → t.node x ≠ none → t₃.node x = t.node x := by
    intro x hx hlive
    have hxl := hnew.other x (hnew.ne_of_live hlive)
    rw [hre.other x hx (by rwa [hxl]), hxl]
  have hroot₃ : t₃.rootRef = t.rootRef := hre.root.trans hnew.root
  have hnl₃ : t₃.node leaf = some ((empty .n4).setHdr { edge := b :: rest }) := by
    rw [hre.other leaf hcl.symm (by simp [hnew.node]), hnew.node]
  have hlc' : leaf ≠ cur' := by
    rintro rfl
    rcases hre.moved with h | h
    · exact hcl h.symm
    · rw [hnew.node] at h
      cases h
  have hfresh : cur' = cur ∨ t.node cur' = none :=
    hre.moved.imp id fun h => by rw [← hnew.other cur' hlc'.symm, h]
  have hlink : Relinked t t₃ t₄ cur cur' := by
    by_cases hcc : cur' = cur
    · subst hcc
      simp only [ht₄, ne_eq, not_true_eq_false, if_false]
      exact relinked_refl hI hroot₃ hother
    · simp only [ht₄, ne_eq, hcc, not_false_eq_true, if_true]
      exact patch_relinked hI (hsite'.resolve_right hcc) hroot₃ hother
  have hnode : t₄.node cur' = some n' := by
    by_cases hcc : cur' = cur
    · simp only [ht₄, ne_eq, hcc, not_true_eq_false, if_false]
      exact hcc ▸ hre.node
    · rw [hlink.same cur' (hfresh.resolve_left hcc), hre.node]
  have hnl : t₄.node leaf = some ((empty .n4).setHdr { edge := b :: rest }) := by
    rw [hlink.same leaf hnew.fresh, hnl₃]
  have hadd := hlink.addLeaf hI hcur hn hb hfresh hnew.fresh hlc' hnode hgr hnl
  refine .inr ⟨t₄, leaf, cur', ?_, ⟨hadd.shape hI.shape, fun hr => ?_, ?_⟩, hadd, ?_⟩
  · rw [addLeaf, allocN4, hok₁]
    show (t₂.addChild cur b leaf >>= _) = _
    rw [hok₃]
    rfl
  · rcases (hadd.at_iff hI.shape).mp hr with ⟨rfl, -⟩ | ⟨rfl, -⟩ | ⟨hne, hr⟩
    · exact ⟨n', hnode, hgr.wf⟩
    · exact ⟨_, hnl, (wf_setHdr ..).mpr (wf_empty _)⟩
    · obtain ⟨m, m', -, hm', hwf', -⟩ := hlink.kept hr hne
      exact ⟨m', hm', hwf'⟩
  · exact hlink.uniform (hre.uniform (hnew.uniform hI.uniform))
  · rw [(graph_of_node hnl).2.1, hdr_setHdr]
    rfl

/-- Splitting an edge: the pool is full, or the child now branches at the split point and a new
tail stands where it stood. The child never moves, so the patch site is not written. -/
theorem splitEdge_spec {child : ArtChildRef} {e₁ e₂ : Str} {d : UInt8} (site : PatchSite)
    (hI : Inv t) (hcur : At t.graph cur w) (hc : t.findChild cur b = some child)
    (he : (t.header child).edge = e₁ ++ d :: e₂) (hne : e₁ ≠ []) :
    t.splitEdge child site e₁ d (d :: e₂) = .error .full ∨
      ∃ t' tail, t.splitEdge child site e₁ d (d :: e₂) = .ok (t', child) ∧ Inv t' ∧
        Split t.graph t'.graph child tail w e₁ d e₂ ∧ t'.graph.term child = noRoutes ∧
        ∃ n, t'.node child = some n ∧ n.fill < 4 := by
  have hat : At t.graph child (w ++ (e₁ ++ d :: e₂)) := he ▸ hcur.step hc
  obtain ⟨n, hn, hwf⟩ := hI.live hat
  obtain hf | ⟨t₁, tail, hok₁, ha⟩ := t.alloc_spec .n4
  · exact .inl (by rw [splitEdge, allocN4, hf]; rfl)
  have hct : child ≠ tail := by
    rintro rfl
    rw [ha.fresh] at hn
    cases hn
  have hhdr₁ : t₁.header child = n.hdr := header_of_node (by rw [ha.other child hct, hn])
  have hnew := ha.newNode { edge := d :: e₂, routeIdxByMethod := n.hdr.routeIdxByMethod }
  set t₂ := t₁.setHeader tail { edge := d :: e₂, routeIdxByMethod := n.hdr.routeIdxByMethod }
  have hn₂ : t₂.node child = some n := by rw [hnew.other child hct, hn]
  obtain ⟨hnodup, hentries⟩ := entries_spec hwf
  have hunfold : t.splitEdge child site e₁ d (d :: e₂) =
      (t₂.addChildren tail n.entries >>= fun x =>
        (x.1.resetNode child e₁).addChild child d x.2 >>= fun y =>
          return (if y.2 ≠ child then y.1.patch site y.2 else y.1, y.2)) := by
    have hn₂' : (t₁.setHeader tail ⟨d :: e₂, n.hdr.routeIdxByMethod⟩).node child = some n := hn₂
    simp only [splitEdge, allocN4, hok₁, bind, Except.bind, hhdr₁, hn₂']
    rfl
  obtain hf | ⟨t₃, tailRef, n₃, hok₃, hre, hwf₃, hhdr₃, hfind₃⟩ :=
    addChildren_spec (l := n.entries) hnew.node ((wf_setHdr ..).mpr (wf_empty _))
      hnodup (fun _ _ => by simp)
  · exact .inl (by rw [hunfold, hf]; rfl)
  have hn₃ : t₃.node child = some n := by rw [hre.other child hct (by simp [hn₂]), hn₂]
  obtain ⟨t', n', hok', hre', hgr, hfill⟩ :=
    addChild_resetNode (b := d) (c := tailRef) hn₃ e₁
  have hfresh : t.node tailRef = none := by
    rcases hre.moved with rfl | h
    · exact hnew.fresh
    · have : tailRef ≠ tail := by
        rintro rfl
        rw [hnew.node] at h
        cases h
      rw [← hnew.other tailRef this, h]
  have htc : tailRef ≠ child := by
    rintro rfl
    rw [hfresh] at hn
    cases hn
  have hsame : ∀ {r u}, At t.graph r u → r ≠ child → t'.node r = t.node r := by
    intro r u hr hrc
    have hlive : t.node r ≠ none := by
      obtain ⟨m, hm, -⟩ := hI.live hr
      simp [hm]
    have h₂ := hnew.other r (hnew.ne_of_live hlive)
    have h₃ : t₃.node r = t₂.node r := hre.other r (hnew.ne_of_live hlive) (by rwa [h₂])
    rw [hre'.other r hrc (by rwa [h₃, h₂]), h₃, h₂]
  have hnt : t'.node tailRef = some n₃ := by
    rw [hre'.other tailRef htc (by simp [hre.node]), hre.node]
  have hfind : n₃.find = n.find := by
    funext x
    refine Option.ext fun c => ?_
    rw [hfind₃, hentries]
    simp
  obtain ⟨-, hterm, hchild⟩ := graph_of_node hn
  obtain ⟨hedge', hterm', hchild'⟩ := graph_of_node hre'.node
  obtain ⟨hedge₃, hterm₃, hchild₃⟩ := graph_of_node hnt
  have hsplit : Split t.graph t'.graph child tailRef w e₁ d e₂ := {
    at_c := hat
    edge_c := he
    upper_ne := hne
    tail_fresh := hI.not_at hfresh
    root := hre'.root.trans (hre.root.trans hnew.root)
    edge_upper := by rw [hedge', hgr.hdr, hdr_setHdr]
    child_upper := by rw [hchild', hgr.find, if_pos rfl]
    child_upper_ne := fun x hx => by rw [hchild', hgr.find, if_neg hx]; simp
    edge_tail := by rw [hedge₃, hhdr₃, hdr_setHdr]
    child_tail := fun x => by rw [hchild₃, hchild, hfind]
    term_tail := by rw [hterm₃, hterm, hhdr₃, hdr_setHdr]
    edge_other := fun hr hrc => by simp only [graph, header, hsame hr hrc]
    term_other := fun hr hrc => by simp only [graph, header, hsame hr hrc]
    child_other := fun hr hrc x => by simp only [graph, findChild, hsame hr hrc] }
  refine .inr ⟨t', tailRef, ?_, ⟨hsplit.shape hI.shape, fun hr => ?_, ?_⟩, hsplit, ?_, n',
    hre'.node, hfill⟩
  · rw [hunfold, hok₃]
    show ((t₃.resetNode child e₁).addChild child d tailRef >>= _) = _
    rw [hok']
    simp [bind, Except.bind, pure, Except.pure]
  · rcases (hsplit.at_iff hI.shape).mp hr with ⟨rfl, -⟩ | ⟨rfl, -⟩ | ⟨hrc, hr⟩
    · exact ⟨n', hre'.node, hgr.wf⟩
    · exact ⟨n₃, hnt, hwf₃⟩
    · obtain ⟨m, hm, hwfm⟩ := hI.live hr
      exact ⟨m, by rw [hsame hr hrc, hm], hwfm⟩
  · exact hre'.uniform (hre.uniform (hnew.uniform hI.uniform))
  · rw [hterm', hgr.hdr, hdr_setHdr]
    rfl

/-! ## The descent -/

/-- What the length of the common prefix says: the two agree up to there, and differ after it
unless one of them ends. -/
theorem commonLen_spec : ∀ e p : Str,
    commonLen e p ≤ p.length ∧ e.take (commonLen e p) = p.take (commonLen e p) ∧
      ∀ d e₂ b p₂, e.drop (commonLen e p) = d :: e₂ → p.drop (commonLen e p) = b :: p₂ → b ≠ d
  | [], p => by simp [commonLen]
  | a :: e, [] => by simp [commonLen]
  | a :: e, b :: p => by
    simp only [commonLen]
    split
    · next hab =>
      subst hab
      obtain ⟨h₁, h₂, h₃⟩ := commonLen_spec e p
      exact ⟨by simpa using h₁, by simpa using h₂, by simpa using h₃⟩
    · next hab =>
      refine ⟨by simp, by simp, fun d e₂ b' p₂ hd hb => ?_⟩
      simp only [drop_zero, cons.injEq] at hd hb
      rw [← hd.1, ← hb.1]
      exact Ne.symm hab

theorem commonLen_pos (a : UInt8) (e p : Str) : 0 < commonLen (a :: e) (a :: p) := by
  simp [commonLen]

/-- After the descent for `p` a node sits at `p`, no terminal table has changed, and the only new
words are prefixes of `p`. -/
structure Placed (t t' : ArtTrie) (r : ArtChildRef) (p : Str) : Prop where
  inv : Inv t'
  at_end : At t'.graph r p
  sem_eq : ∀ u, t'.sem u = t.sem u
  words : ∀ {x u}, At t'.graph x u → u <+: p ∨ ∃ y, At t.graph y u

theorem Placed.of_addLeaf (hI : Inv t) (hI' : Inv t')
    (h : AddLeaf t.graph t'.graph cur cur' leaf w b rest) (hterm : t'.graph.term leaf = noRoutes) :
    Placed t t' leaf (w ++ b :: rest) where
  inv := hI'
  at_end := h.at_leaf hI.shape
  sem_eq := h.lookD_eq hI.shape hterm
  words hr := by
    rcases (h.at_iff hI.shape).mp hr with ⟨-, rfl⟩ | ⟨-, rfl⟩ | ⟨-, hr⟩
    · exact .inr ⟨cur, h.at_cur⟩
    · exact .inl prefix_rfl
    · exact .inr ⟨_, hr⟩

/-- A split opens a place at the split point and changes nothing else. -/
theorem Placed.of_split {child tail : ArtChildRef} {e₁ e₂ : Str} {d : UInt8} (hI : Inv t)
    (hI' : Inv t') (hcur : At t.graph cur w) (hc : t.findChild cur b = some child)
    (h : Split t.graph t'.graph child tail w e₁ d e₂) (hterm : t'.graph.term child = noRoutes) :
    Placed t t' child (w ++ e₁) where
  inv := hI'
  at_end := h.at_upper hI.shape
  sem_eq := h.lookD_eq hI.shape hcur hc hterm
  words hr := by
    rcases (h.at_iff hI.shape).mp hr with ⟨-, rfl⟩ | ⟨-, rfl⟩ | ⟨-, hr⟩
    · exact .inl prefix_rfl
    · exact .inr ⟨child, h.at_c⟩
    · exact .inr ⟨_, hr⟩

theorem Placed.trans {p p' : Str} {r' : ArtChildRef} (h : Placed t t₁ r p)
    (h' : Placed t₁ t' r' p') (hp : p <+: p') : Placed t t' r' p' where
  inv := h'.inv
  at_end := h'.at_end
  sem_eq u := (h'.sem_eq u).trans (h.sem_eq u)
  words hr := by
    rcases h'.words hr with hu | ⟨y, hy⟩
    · exact .inl hu
    · exact (h.words hy).imp (fun hu => hu.trans hp) id

/-- A path that ends in a fresh branching point, or goes on from it by a byte that has no child
there: the last iteration of a descent that had to split. -/
theorem insertLoop_after_split {child : ArtChildRef} {fuel : Nat} (hI : Inv t)
    (hat : At t.graph child w) (hroom : ∃ n, t.node child = some n ∧ n.fill < 4)
    (hno : ∀ b p₂, rest = b :: p₂ → t.findChild child b = none) (hfuel : rest.length ≤ fuel) :
    insertLoop fuel t child site rest = .error .full ∨
      ∃ t' r, insertLoop fuel t child site rest = .ok (t', r) ∧ Placed t t' r (w ++ rest) := by
  match rest, fuel with
  | [], fuel =>
    refine .inr ⟨t, child, by cases fuel <;> rfl, hI, ?_, fun _ => rfl, fun hr => .inr ⟨_, hr⟩⟩
    rwa [append_nil]
  | b :: p₂, fuel + 1 =>
    have hb := hno b p₂ rfl
    rw [insertLoop, hb]
    obtain hf | ⟨t', leaf, cur', hok, hI', hadd, hterm⟩ :=
      addLeaf_spec site hI hat hb (.inr hroom)
    · exact .inl hf
    · exact .inr ⟨t', leaf, hok, .of_addLeaf hI hI' hadd hterm⟩

/-- The descent from a node at `w` with `rest` of the path left. It stops for lack of pool entries
only: the fuel suffices and no reference dangles. -/
theorem insertLoop_spec : ∀ {fuel : Nat} {t : ArtTrie} {cur : ArtChildRef} (site : PatchSite)
    {w rest : Str}, Inv t → At t.graph cur w → SiteOk t site cur → rest.length ≤ fuel →
    insertLoop fuel t cur site rest = .error .full ∨
      ∃ t' r, insertLoop fuel t cur site rest = .ok (t', r) ∧ Placed t t' r (w ++ rest)
  | fuel, t, cur, site, w, [], hI, hcur, _, _ => by
    refine .inr ⟨t, cur, by cases fuel <;> rfl, hI, ?_, fun _ => rfl, fun hr => .inr ⟨_, hr⟩⟩
    rwa [append_nil]
  | fuel + 1, t, cur, site, w, b :: rest, hI, hcur, hsite, hfuel => by
    cases hc : t.findChild cur b with
    | none =>
      rw [insertLoop, hc]
      obtain hf | ⟨t', leaf, cur', hok, hI', hadd, hterm⟩ :=
        addLeaf_spec site hI hcur hc (.inl hsite)
      · exact .inl hf
      · exact .inr ⟨t', leaf, hok, .of_addLeaf hI hI' hadd hterm⟩
    | some child =>
      obtain ⟨l, hl⟩ : ∃ l, (t.header child).edge = b :: l := hI.shape.key hcur hc
      have hat : At t.graph child (w ++ (t.header child).edge) := hcur.step hc
      obtain ⟨hk, htake, hdiff⟩ := commonLen_spec (t.header child).edge (b :: rest)
      have hpos : 0 < commonLen (t.header child).edge (b :: rest) := by
        rw [hl]; exact commonLen_pos ..
      rw [insertLoop, hc]
      dsimp only
      generalize commonLen (t.header child).edge (b :: rest) = k at hk htake hdiff hpos ⊢
      have hrest : (t.header child).edge.take k ++ (b :: rest).drop k = b :: rest := by
        rw [htake, take_append_drop]
      have hlen : ((b :: rest).drop k).length ≤ fuel := by
        rw [length_drop]
        omega
      cases hd : (t.header child).edge.drop k with
      | nil =>
        -- the whole edge matched: go down, remembering the slot that holds `child`
        have hfull : (t.header child).edge.take k = (t.header child).edge :=
          take_of_length_le (drop_eq_nil_iff.mp hd)
        have hword : w ++ b :: rest = w ++ (t.header child).edge ++ (b :: rest).drop k := by
          rw [append_assoc, ← hfull, hrest]
        rw [hword]
        exact insertLoop_spec _ hI hat ⟨⟨w, hcur⟩, hc⟩ hlen
      | cons d e₂ =>
        dsimp only
        have he : (t.header child).edge = (t.header child).edge.take k ++ d :: e₂ := by
          rw [← hd, take_append_drop]
        have hne : (t.header child).edge.take k ≠ [] := by
          rw [hl]
          obtain ⟨k, rfl⟩ := Nat.exists_eq_succ_of_ne_zero hpos.ne'
          simp
        obtain hf | ⟨t₁, tail, hok, hI₁, hsp, hterm, hroom⟩ :=
          splitEdge_spec site hI hcur hc he hne
        · exact .inl (by rw [hf]; rfl)
        rw [hok]
        have hpl := Placed.of_split hI hI₁ hcur hc hsp hterm
        have hword : w ++ b :: rest =
            w ++ (t.header child).edge.take k ++ (b :: rest).drop k := by
          rw [append_assoc, hrest]
        have hno : ∀ b' p₂, (b :: rest).drop k = b' :: p₂ → t₁.findChild child b' = none :=
          fun b' p₂ hb' => hsp.child_upper_ne b' (hdiff d e₂ b' p₂ hd hb')
        rw [hword]
        exact (insertLoop_after_split hI₁ hpl.at_end hroom hno hlen).imp id
          fun ⟨t', r, hok', hpl'⟩ => ⟨t', r, hok', hpl.trans hpl' (prefix_append ..)⟩

/-! ## Terminals -/

/-- Registering at the node at `p` changes the table at `p`, and only that. -/
theorem setTerminal_spec {p : Str} (hI : Inv t) (hp : At t.graph r p) (slot : MethodSlot)
    (routeIdx : UInt16) :
    Inv (t.setTerminal r slot routeIdx) ∧
      (∀ x u, At (t.setTerminal r slot routeIdx).graph x u ↔ At t.graph x u) ∧
      (t.setTerminal r slot routeIdx).sem p = register (t.sem p) slot routeIdx ∧
      ∀ u, u ≠ p → (t.setTerminal r slot routeIdx).sem u = t.sem u := by
  obtain ⟨n, hn, hwf⟩ := hI.live hp
  have hsem : t.sem p = (t.header r).routeIdxByMethod := lookD_of_at hI.shape _ hp
  by_cases hfree : (t.header r).routeIdxByMethod[slot] = kInvalidRoute
  · set h' : ArtNodeHeader :=
      { t.header r with routeIdxByMethod := (t.header r).routeIdxByMethod.set slot routeIdx } with hh'
    have heq : t.setTerminal r slot routeIdx = t.setHeader r h' := if_pos hfree
    have hw := regrown_setHeader hn h'
    have hset : SetTerm t.graph (t.setHeader r h').graph r := by
      have hnode : ∀ {x u}, At t.graph x u → x ≠ r → (t.setHeader r h').node x = t.node x := by
        intro x u hx hxr
        obtain ⟨m, hm, -⟩ := hI.live hx
        exact hw.other x hxr (by simp [hm])
      obtain ⟨hedge, -, hchild⟩ := graph_of_node hn
      obtain ⟨hedge', -, hchild'⟩ := graph_of_node hw.node
      refine ⟨hw.root, fun {x u} hx => ?_, fun {x u} hx b => ?_, fun {x u} hx hxr => ?_⟩
      · by_cases hxr : x = r
        · rw [hxr, hedge', hedge, hdr_setHdr, hh', header_of_node hn]
        · simp only [graph, header, hnode hx hxr]
      · by_cases hxr : x = r
        · rw [hxr, hchild', hchild, find_setHdr]
        · simp only [graph, findChild, hnode hx hxr]
      · simp only [graph, header, hnode hx hxr]
    have hshape := hset.shape hI.shape
    have hp' : At (t.setHeader r h').graph r p := hset.at_iff.mpr hp
    rw [heq]
    refine ⟨⟨hshape, fun {x u} hx => ?_, hw.uniform hI.uniform⟩, fun x u => hset.at_iff, ?_,
      fun u hu => ?_⟩
    · by_cases hxr : x = r
      · exact ⟨_, by rw [hxr]; exact hw.node, (wf_setHdr ..).mpr hwf⟩
      · obtain ⟨m, hm, hwfm⟩ := hI.live (hset.at_iff.mp hx)
        exact ⟨m, by rw [hw.other x hxr (by simp [hm]), hm], hwfm⟩
    · rw [hsem, register, if_pos hfree, sem, lookD_of_at hshape _ hp',
        (graph_of_node hw.node).2.1, hdr_setHdr]
    · rw [sem, lookD, hset.look_eq hI.shape hp hu]
      rfl
  · have heq : t.setTerminal r slot routeIdx = t := if_neg hfree
    rw [heq, hsem, register, if_neg hfree]
    exact ⟨hI, fun _ _ => Iff.rfl, rfl, fun _ _ => rfl⟩

/-- What a successful `insert` has done: the route is registered at its canonical path, no other
table has changed, and new words are prefixes of that path. -/
structure Inserted (t t' : ArtTrie) (p : Str) (slot : MethodSlot) (routeIdx : UInt16) : Prop where
  inv : Inv t'
  sem_self : t'.sem p = register (t.sem p) slot routeIdx
  sem_other : ∀ u, u ≠ p → t'.sem u = t.sem u
  words : ∀ {x u}, At t'.graph x u → u <+: p ∨ ∃ y, At t.graph y u

/-- `insert` returns, and either leaves the trie alone and reports failure or succeeds. -/
theorem insert_spec (hI : Inv t) (path : Str) (methodChar : UInt8) (routeIdx : UInt16) :
    t.insert path methodChar routeIdx = some (t, false) ∨
      ∃ t' slot, t.insert path methodChar routeIdx = some (t', true) ∧
        routeMethodSlot methodChar = some slot ∧
        Inserted t t' (finalizePathCanonical path) slot routeIdx := by
  unfold insert
  cases hslot : routeMethodSlot methodChar with
  | none => exact .inl rfl
  | some slot =>
    dsimp only
    generalize finalizePathCanonical path = p
    obtain hf | ⟨t₁, r, hok, hpl⟩ :=
      insertLoop_spec .root hI (At.root (g := t.graph)) rfl (le_refl p.length)
    · have hf' : insertLoop p.length t t.rootRef .root p = .error .full := hf
      exact .inl (by rw [hf'])
    · have hok' : insertLoop p.length t t.rootRef .root p = .ok (t₁, r) := hok
      rw [nil_append] at hpl
      obtain ⟨hI', hat, hsem, hother⟩ := setTerminal_spec hpl.inv hpl.at_end slot routeIdx
      refine .inr ⟨_, slot, by rw [hok'], rfl, hI', ?_, fun u hu => ?_, fun {x u} hx => ?_⟩
      · rw [hsem, hpl.sem_eq]
      · rw [hother u hu, hpl.sem_eq]
      · exact hpl.words ((hat x u).mp hx)

end ArtTrie
end Rut
