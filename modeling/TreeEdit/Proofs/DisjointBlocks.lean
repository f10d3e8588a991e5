import TreeEdit.Proofs.Acceptance
import TreeEdit.Proofs.Confinement
import TreeEdit.Proofs.WorkerOrder

/-!
# Disjoint blocks compose

Each of several workers has a block of its own, and no block is at or below another. A worker only
changes and takes out nodes of its block, so no worker loses a change to another. In the merged tree
each block is what its worker has made of it, and the rest is as it was in the view.

`Store.graft` is the tree below a slot with other subtrees in the places of some slots, all at the
same time. A merged tree is such a tree, `Replay.Merges.unfold_eq_graft`. To exchange the subtrees
one after the other gives the same, `View.graft_eq_exchanged`, since a slot stands at its position
as long as nothing above it has been exchanged.
-/

namespace TreeEdit

/-! ### Exchanging several subtrees -/

theorem map_eq_set_idxOf {ids : List NodeId} {f g : NodeId → Rose} {id : NodeId}
    (hids : ids.Nodup) (hid : id ∈ ids) (h : ∀ c ∈ ids, c ≠ id → g c = f c) :
    ids.map g = (ids.map f).set (ids.idxOf id) (g id) := by
  induction ids with
  | nil => cases hid
  | cons a ids ih =>
    obtain ⟨ha, hids⟩ := List.nodup_cons.1 hids
    by_cases hfirst : a = id
    · subst hfirst
      have hrest : ids.map g = ids.map f := List.map_congr_left fun c hc =>
        h c (List.mem_cons_of_mem _ hc) fun heq => ha (heq ▸ hc)
      rw [List.idxOf_cons_self, List.map_cons, List.map_cons, List.set_cons_zero, hrest]
    · rw [List.idxOf_cons_ne _ hfirst, List.map_cons, List.map_cons, List.set_cons_succ,
        h a List.mem_cons_self hfirst, ih hids ((List.mem_cons.1 hid).resolve_left (Ne.symm hfirst))
          fun c hc => h c (List.mem_cons_of_mem _ hc)]

namespace Store

/-- The tree of attributes below a slot, with other subtrees in the places of some slots. -/
def graft (s : Store) (subs : NodeId → Option Rose) (id : NodeId) : Rose :=
  match subs id with
  | some t => t
  | none =>
    match s.get? id with
    | none => .absent
    | some n => .node n.attributes ((s.under id).attach.map fun c => s.graft subs c.1)
termination_by id
decreasing_by exact Store.lt_of_mem_under c.2

variable {s : Store} {subs subs' : NodeId → Option Rose} {id p root : NodeId} {above : List NodeId}
  {n : Node} {t : Rose}

theorem graft_of_some (h : subs id = some t) : s.graft subs id = t := by
  rw [graft, h]

theorem graft_of_get? (h : subs id = none) (hn : s.get? id = some n) :
    s.graft subs id = .node n.attributes ((s.under id).map (s.graft subs)) := by
  rw [graft, h, hn]
  show Rose.node _ _ = _
  rw [List.map_attach_eq_pmap, List.pmap_eq_map]

theorem graft_of_absent (h : subs id = none) (hn : s.get? id = none) :
    s.graft subs id = .absent := by
  rw [graft, h, hn]

theorem Sound.graft_eq (hs : s.Sound) (h : subs id = none) (hn : s.get? id = some n) :
    s.graft subs id = .node n.attributes (n.children.map (s.graft subs)) := by
  rw [graft_of_get? h hn, hs.under_eq hn]

theorem graft_congr (h : ∀ x ∈ s.preorder id, subs x = subs' x) :
    s.graft subs id = s.graft subs' id := by
  induction id using Nat.strong_induction_on with
  | _ id ih =>
    have htop := h id (mem_preorder_self s id)
    cases hsub : subs id with
    | some t => rw [graft_of_some hsub, graft_of_some (htop ▸ hsub)]
    | none =>
      have hrest : (s.under id).map (s.graft subs) = (s.under id).map (s.graft subs') :=
        List.map_congr_left fun c hc => ih c (lt_of_mem_under hc) fun x hx =>
          h x (mem_preorder_iff.2 (Or.inr ⟨c, hc, hx⟩))
      cases hn : s.get? id with
      | none => rw [graft_of_absent hsub hn, graft_of_absent (htop ▸ hsub) hn]
      | some n => rw [graft_of_get? hsub hn, graft_of_get? (htop ▸ hsub) hn, hrest]

/-- With nothing to exchange, the tree is as it is. -/
theorem graft_none (s : Store) (id : NodeId) : s.graft (fun _ => none) id = s.unfold id := by
  induction id using Nat.strong_induction_on with
  | _ id ih =>
    have hrest : (s.under id).map (s.graft fun _ => none) = (s.under id).map s.unfold :=
      List.map_congr_left fun c hc => ih c (lt_of_mem_under hc)
    cases hn : s.get? id with
    | none => rw [graft_of_absent rfl hn, unfold_eq, hn]
    | some n => rw [graft_of_get? rfl hn, unfold_eq, hn, hrest]

/-- A child stands below its lister if the lister is not exchanged. -/
theorem Sound.at?_graft_child (hs : s.Sound) (h : id ∈ s.under p) (hp : subs p = none) :
    (s.graft subs p).at? [(s.children p).idxOf id] = some (s.graft subs id) := by
  obtain ⟨n, hn⟩ := hs.full p (lt_size_of_mem_under h)
  rw [hs.under_eq hn] at h
  rw [hs.graft_eq hp hn, children_of_get? hn, Rose.at?, List.getElem?_map, List.getElem?_idxOf h]
  rfl

/-- A slot stands at its position if nothing above it is exchanged. -/
theorem LinksUp.at?_graft (hs : s.Sound) (h : s.LinksUp id above)
    (kept : ∀ p ∈ above, subs p = none) :
    (s.graft subs (chainTop id above)).at? (s.route (id :: above).reverse) =
      some (s.graft subs id) := by
  induction above generalizing id with
  | nil => exact Rose.at?_nil _
  | cons p above ih =>
    rw [chainTop_cons, route_reverse_cons, Rose.at?_append,
      ih h.2 fun q hq => kept q (List.mem_cons_of_mem _ hq), Option.bind_some]
    exact hs.at?_graft_child (hs.listed id p h.1) (kept p List.mem_cons_self)

/-- Two exchanges that differ at or below one child of a slot. -/
theorem Sound.graft_eq_replaceAt_child (hs : s.Sound) (once : s.UniqueListers p)
    (h : id ∈ s.under p) (same : ∀ x, x ∉ s.preorder id → subs x = subs' x) (hp : subs p = none) :
    s.graft subs' p = (s.graft subs p).replaceAt [(s.children p).idxOf id] (s.graft subs' id) := by
  have hup : p ∉ s.preorder id := fun hmem =>
    absurd (le_of_mem_preorder hmem) (Nat.not_le.2 (lt_of_mem_under h))
  have hp' : subs' p = none := by rw [← same p hup, hp]
  obtain ⟨n, hn⟩ := hs.full p (lt_size_of_mem_under h)
  have hself := mem_preorder_self s p
  have hnodup := once.nodup_under p hself
  have hmem := h
  rw [hs.under_eq hn] at hnodup hmem
  have hchild : (n.children.map (s.graft subs))[n.children.idxOf id]? = some (s.graft subs id) := by
    rw [List.getElem?_map, List.getElem?_idxOf hmem]
    rfl
  rw [hs.graft_eq hp hn, hs.graft_eq hp' hn, children_of_get? hn,
    Rose.replaceAt_cons_of_getElem? _ _ hchild, Rose.replaceAt_nil]
  refine congrArg _ (map_eq_set_idxOf hnodup hmem fun c hc hne => ?_)
  rw [← hs.under_eq hn] at hc
  exact graft_congr fun x hx => (same x (once.disjoint hself hc h hne hx)).symm

/-- Two exchanges that differ at or below one slot, with nothing above it exchanged. -/
theorem LinksUp.graft_eq_replaceAt (hs : s.Sound) (h : s.LinksUp id above)
    (once : s.UniqueListers (chainTop id above))
    (same : ∀ x, x ∉ s.preorder id → subs x = subs' x) (kept : ∀ p ∈ above, subs p = none) :
    s.graft subs' (chainTop id above) =
      (s.graft subs (chainTop id above)).replaceAt (s.route (id :: above).reverse)
        (s.graft subs' id) := by
  induction above generalizing id with
  | nil => exact (Rose.replaceAt_nil _ _).symm
  | cons p above ih =>
    have hchild := hs.listed id p h.1
    have hrest : ∀ q ∈ above, subs q = none := fun q hq => kept q (List.mem_cons_of_mem _ hq)
    have hp : p ∈ s.preorder (chainTop p above) := h.2.mem_preorder hs List.mem_cons_self
    rw [chainTop_cons] at once ⊢
    rw [route_reverse_cons, Rose.replaceAt_append (h.2.at?_graft hs hrest),
      ← hs.graft_eq_replaceAt_child (once.mono hp) hchild same (kept p List.mem_cons_self)]
    exact ih h.2 once (fun x hx => same x fun hmem => hx
      (mem_preorder_trans hmem (mem_preorder_of_mem_under (mem_preorder_self s p) hchild))) hrest

end Store

/-! ### What a worker does inside of its block -/

namespace Overlay

variable {v : View} {P : Overlay → Prop} {o : Overlay} {b y : NodeId}

theorem Confined.resolve_mem (h : Confined v b o) (hs : o.shadow.Sound) :
    o.forward.resolve b ∈ o.shadow.preorder o.root := by
  obtain ⟨above, hup, htop, -⟩ := h.placed
  rw [← htop]
  exact hup.mem_preorder hs List.mem_cons_self

/-- What stands in the block of a worker and goes back to a node of the view has been there in the
view. -/
theorem Confined.origin_mem (h : Confined v b o) (hv : v.tree.Sound) (before : v.Runs P o)
    (hb : b < v.tree.store.size) (reached : ∀ x, x < v.tree.store.size → v.Reaches x)
    (hy : y ∈ o.shadow.preorder (o.forward.resolve b))
    (hview : o.forward.origin y < v.tree.store.size) :
    o.forward.origin y ∈ v.tree.store.preorder b := by
  by_contra hnot
  have hz : v.NotBelow b (o.forward.origin y) :=
    ⟨reached _ hview, fun hmem => absurd hmem hnot⟩
  have hmem := h.steady.mem_preorder_origin (v.upperSet_notBelow b)
    (h.resolve_mem (Sound.of_runs hv before).shadow) hy hz
  rw [origin_resolve_of_lt hv before hb] at hmem
  exact hnot hmem

/-- A worker targets nodes of its block, and takes out nodes below the top of its block. -/
structure Within (v : View) (b : NodeId) (o : Overlay) : Prop where
  targets : ∀ x, o.Targets x → x < v.tree.store.size → x ∈ v.tree.store.preorder b
  out : ∀ c, o.TakesOut c → c < v.tree.store.size → c ∈ v.tree.store.preorder b ∧ c ≠ b

theorem Within.commit (h : Within v b o) (hv : v.tree.Sound) (before : v.Runs P o)
    (hconfined : Confined v b o) (hb : v.tree.isAttached b = true)
    (reached : ∀ x, x < v.tree.store.size → v.Reaches x) {e : Edit} {above : List NodeId}
    {current : Node} {shadow : Store} {r : Rebuilt}
    (hedited : Store.Edited o.shadow o.forward o.root (e.mapIds o.forward.resolve) above current
      shadow r)
    (hmem : o.forward.resolve b ∈ (e.mapIds o.forward.resolve).target :: above)
    (target : StableId) : Within v b (o.commit target e shadow r) := by
  have hsound := Sound.of_runs hv before
  have hs := hsound.shadow
  have hlt := (Tree.isAttached_iff.1 hb).1
  have horigin := (keepsOrigins_of_runs hv before).origin_resolve hsound.ascending
  have htarget := hedited.linksUp.mem_preorder_of_mem hs hmem
  constructor
  · rintro x ⟨record, hrecord, rfl⟩ hx
    rw [records_commit, hsound.mapIds_origin hedited] at hrecord
    rcases List.mem_append.1 hrecord with hrecord | hrecord
    · exact h.targets _ ⟨record, hrecord, rfl⟩ hx
    · rw [List.mem_singleton.1 hrecord, Edit.target_mapIds, ← horigin] at hx ⊢
      rw [Edit.target_mapIds] at htarget
      exact hconfined.origin_mem hv before hlt reached htarget hx
  · rintro c ⟨record, hrecord, hout⟩ hc
    rw [records_commit, hsound.mapIds_origin hedited] at hrecord
    rcases List.mem_append.1 hrecord with hrecord | hrecord
    · exact h.out c ⟨record, hrecord, hout⟩ hc
    · rw [List.mem_singleton.1 hrecord] at hout
      obtain ⟨y, hy, rfl⟩ := Edit.exists_detached?_of_mapIds (f := o.forward.resolve)
        (fun x _ => horigin x) hout
      have hchild := hedited.mem_under_of_detached? hs hy
      refine ⟨hconfined.origin_mem hv before hlt reached
        (Store.mem_preorder_of_mem_under htarget hchild) hc, fun heq => ?_⟩
      refine hconfined.not_notBelow_of_detached hv before hb hedited hmem hy ?_
      rw [heq]
      exact ⟨reached b hlt, fun _ => rfl⟩

theorem within_of_runs (hv : v.tree.Sound) (tree : v.tree.IsTree)
    (reached : ∀ x, x < v.tree.store.size → v.Reaches x) (h : v.Runs P o)
    (hb : o.block = some b) : Within v b o := by
  have hattached := isAttached_of_block h hb
  refine h.induction (I := fun o => o.block = some b → Within v b o) ?_ ?_ hb
  · intro worker block _ _
    constructor
    · rintro x ⟨record, hrecord, -⟩
      simp [View.newOverlay, records] at hrecord
    · rintro c ⟨record, hrecord, -⟩
      simp [View.newOverlay, records] at hrecord
  · intro o o' g _ before ih hstep hb
    have hbo : o.block = some b := hstep.block_eq ▸ hb
    have hwithin := ih hbo
    cases hstep with
    | refused guard limits => exact ⟨hwithin.targets, hwithin.out⟩
    | created m checked room => exact ⟨hwithin.targets, hwithin.out⟩
    | @recorded e node value way shadow r guard limits get_target planned depth rebuilt inside =>
      obtain ⟨above, current, rfl, hedited⟩ := edited_of_plan planned rebuilt
      have hcommit := hwithin.commit hv before (confined_of_runs hv tree before hbo) hattached
        reached hedited (mem_of_checkBlock hbo inside) node.stableId
      exact ⟨hcommit.targets, hcommit.out⟩

end Overlay

/-! ### Batches of blocks -/

/-- Neither of the blocks of two overlays is at or below the other. -/
def View.Apart (v : View) (a o : Overlay) : Prop :=
  ∀ b c, a.block = some b → o.block = some c →
    b ∉ v.tree.store.preorder c ∧ c ∉ v.tree.store.preorder b

instance (v : View) : Std.Symm v.Apart :=
  ⟨fun _ _ h b c hb hc => (h c b hc hb).symm⟩

/-- A batch of overlays of a view all of whose nodes are part of its tree, each for a block of its
own. -/
structure View.Blocks (v : View) (os : List Overlay) : Prop where
  sound : v.tree.Sound
  tree : v.tree.IsTree
  reached : ∀ x, x < v.tree.store.size → v.Reaches x
  runs : ∀ o ∈ os, v.Runs Overlay.IsTree o
  block : ∀ o ∈ os, ∃ b, o.block = some b
  apart : ∀ a ∈ os, ∀ o ∈ os, a ≠ o → v.Apart a o

namespace View.Blocks

variable {v : View} {os : List Overlay} {a o : Overlay} {b c x : NodeId} (h : v.Blocks os)
include h

theorem of_subset {ps : List Overlay} (hsub : ps ⊆ os) : v.Blocks ps :=
  ⟨h.sound, h.tree, h.reached, fun o ho => h.runs o (hsub ho), fun o ho => h.block o (hsub ho),
    fun a ha o ho => h.apart a (hsub ha) o (hsub ho)⟩

theorem isAttached (ho : o ∈ os) (hb : o.block = some b) : v.tree.isAttached b = true :=
  Overlay.isAttached_of_block (h.runs o ho) hb

theorem within (ho : o ∈ os) (hb : o.block = some b) : o.Within v b :=
  Overlay.within_of_runs h.sound h.tree h.reached (h.runs o ho) hb

theorem confined (ho : o ∈ os) (hb : o.block = some b) : Overlay.Confined v b o :=
  Overlay.confined_of_runs h.sound h.tree (h.runs o ho) hb

/-- No node of the view is in two blocks. -/
theorem eq_of_mem (ha : a ∈ os) (ho : o ∈ os) (hb : a.block = some b) (hc : o.block = some c)
    (hxb : x ∈ v.tree.store.preorder b) (hxc : x ∈ v.tree.store.preorder c) : a = o := by
  by_contra hne
  obtain ⟨hbc, hcb⟩ := h.apart a ha o ho hne b c hb hc
  have hrb := View.reaches_of_isAttached h.sound (h.isAttached ha hb)
  have hrc := View.reaches_of_isAttached h.sound (h.isAttached ho hc)
  exact ((Store.uniqueListers_of_nodup h.tree.once).comparable hrb hrc hxb hxc).elim hbc hcb

/-- No worker changes anything at or below what another takes out. -/
theorem remover_eq (ho : o ∈ os) (target : o.Targets x) (hx : x < v.tree.store.size)
    (hc : c ∈ x :: v.tree.ancestors x) {w : WorkerId}
    (hw : (Sealed.removers (os.map Overlay.toSealed))[c]? = some w) : w = o.worker := by
  obtain ⟨a, ha, rfl, out, hlt⟩ := exists_takesOut_of_removers h.runs hw
  obtain ⟨d, hd⟩ := h.block a ha
  obtain ⟨b, hb⟩ := h.block o ho
  have hxc := (Tree.linksUp_ancestors h.sound.store x).mem_preorder_of_mem h.sound.store hc
  have hcd := ((h.within ha hd).out c out hlt).1
  rw [h.eq_of_mem ha ho hd hb (Store.mem_preorder_trans hxc hcd)
    ((h.within ho hb).targets x target hx)]

/-- Only one worker targets a node of a block. -/
theorem eq_of_targets (ho : o ∈ os) (hb : o.block = some b) (hx : x ∈ v.tree.store.preorder b)
    (ha : a ∈ os) (target : a.Targets x) : a = o := by
  obtain ⟨c, hc⟩ := h.block a ha
  have hlt : x < v.tree.store.size := Nat.lt_of_le_of_lt (Store.le_of_mem_preorder hx)
    (Tree.isAttached_iff.1 (h.isAttached ho hb)).1
  exact h.eq_of_mem ha ho hc hb ((h.within ha hc).targets x target hlt) hx

/-- The search for conflicts only finds places that several workers change. -/
theorem conflicts_eq : v.conflicts (os.map Overlay.toSealed) =
    Sealed.sameTargets (os.map Overlay.toSealed) := by
  refine conflicts_eq_sameTargets (List.forall_mem_map.2 fun o ho x hx c hc w hw => ?_)
  obtain ⟨target, hlt⟩ := (Overlay.mem_baseTargets (h.runs o ho)).1 hx
  exact h.remover_eq ho target hlt hc hw

end View.Blocks

/-! ### The merged tree -/

namespace Replay

variable {v : View} {past : List Overlay} {o : Overlay} {ρ : WorkerId → NodeId → NodeId}
  {r : Replay} {b x y : NodeId} (h : Merges v ρ past r) (hblocks : v.Blocks past)
include h hblocks

/-- A node that stands in the block of a worker has the value that it has in the worker's shadow. -/
theorem Merges.valueOf_block (ho : o ∈ past) (hb : o.block = some b)
    (hy : y ∈ o.shadow.preorder (o.forward.resolve b)) :
    ∃ k, o.shadow.get? y = some k ∧ r.valueOf (ρ o.worker (o.forward.origin y)) =
      some (k.mapChildren fun c => ρ o.worker (o.forward.origin c)) := by
  have hruns := (hblocks.runs o ho).mono fun _ here => here.once
  have hsound := Overlay.Sound.of_runs hblocks.sound hruns
  have htraced := Overlay.traced_of_runs hblocks.sound hruns
  have hconfined := hblocks.confined ho hb
  have hroot := Store.mem_preorder_trans hy (hconfined.resolve_mem hsound.shadow)
  have hlt := Nat.lt_of_le_of_lt (Store.le_of_mem_preorder hroot) hsound.root
  obtain ⟨n, hn⟩ := (hsound.named y hlt).exists_startsAs hblocks.sound
  have hvalue := Overlay.valueOf_of_runs hblocks.sound hruns hn
  rw [Overlay.valueOf, Store.valueOf, htraced.coherent.resolve_origin,
    htraced.resolve_eq_self hroot] at hvalue
  obtain ⟨k, hk, hkn⟩ := Option.map_eq_some_iff.1 hvalue
  refine ⟨k, hk, ?_⟩
  rw [← Node.mapChildren_mapChildren k o.forward.origin (ρ o.worker), hkn]
  by_cases hown : o.forward.origin y < v.tree.store.size → o.Targets (o.forward.origin y)
  · exact h.own o ho _ n hn hown
  · -- nobody has changed the node, and its children are nodes of the view
    obtain ⟨hview, hnot⟩ := Classical.not_imp.1 hown
    have hmem := hconfined.origin_mem hblocks.sound (hblocks.runs o ho)
      (Tree.isAttached_iff.1 (hblocks.isAttached ho hb)).1 hblocks.reached hy hview
    obtain ⟨m, hm⟩ := hblocks.sound.store.full _ hview
    obtain rfl : n = m := by
      rcases hn with hn | ⟨c, hc, hid, -⟩
      · exact Option.some.inj (hn.symm.trans hm)
      · exact absurd hview (Nat.not_lt.2 (hid ▸ (hsound.ids c hc).1))
    rw [reviseAll_of_not_target fun record hr heq => hnot ⟨record, hr, heq⟩,
      h.view o ho _ hview, Node.mapChildren_eq_self fun c hc => h.view o ho c
        (Nat.lt_trans (hblocks.sound.store.earlier _ n hm c hc) hview)]
    exact h.untouched _ n hm fun a ha target =>
      hnot (hblocks.eq_of_targets ho hb hmem ha target ▸ target)

/-- The tree below a node that stands in the block of a worker is as it is in the worker's
shadow. -/
theorem Merges.unfold_block (ho : o ∈ past) (hb : o.block = some b)
    (hy : y ∈ o.shadow.preorder (o.forward.resolve b))
    (hreached : r.forward.resolve (ρ o.worker (o.forward.origin y)) ∈ r.store.preorder r.root) :
    r.store.unfold (r.forward.resolve (ρ o.worker (o.forward.origin y))) = o.shadow.unfold y := by
  have hs := (Overlay.Sound.of_runs hblocks.sound (hblocks.runs o ho)).shadow
  obtain ⟨done, hr⟩ := h.sound
  induction y using Nat.strong_induction_on with
  | _ y ih =>
    obtain ⟨k, hk, hvalue⟩ := h.valueOf_block hblocks ho hb hy
    have hget := h.traced.get?_resolve hr.store hreached hvalue
    rw [hr.store.unfold_eq hget, hs.unfold_eq hk, Store.spread, Store.spread]
    simp only [Node.mapChildren, List.map_map]
    refine congrArg _ (List.map_congr_left fun c hc => ?_)
    have hchild : c ∈ o.shadow.under y := by rwa [hs.under_eq hk]
    have hlisted := h.traced.mem_under_of_valueOf hr.store hreached hvalue
      (List.mem_map_of_mem hc)
    exact ih c (Store.lt_of_mem_under hchild) (Store.mem_preorder_of_mem_under hy hchild)
      (Store.mem_preorder_of_mem_under hreached hlisted)

/-- What is not below the top of a block is reached. -/
theorem Merges.reached_outside (hx : v.Reaches x)
    (outside : ∀ o ∈ past, ∀ b, o.block = some b → v.NotBelow b x) :
    r.forward.resolve x ∈ r.store.preorder r.root := by
  refine h.reached_of_leaves hblocks.sound hx fun a ha y hy hxy hout => ?_
  obtain ⟨b, hb⟩ := hblocks.block a ha
  obtain ⟨hyb, hne⟩ := (hblocks.within ha hb).out y hout (hy.lt_size hblocks.sound)
  -- if the node is the top of the block itself, then so is what is above it
  obtain rfl := (outside a ha b hb).2 (Store.mem_preorder_trans hxy hyb)
  exact hne (Nat.le_antisymm (Store.le_of_mem_preorder hyb) (Store.le_of_mem_preorder hxy))

/-- The tree below a node of the view that is not below the top of a block: the blocks are as their
workers have made them, and the rest is as it was. -/
theorem Merges.unfold_eq_graft {subs : NodeId → Option Rose}
    (inside : ∀ o ∈ past, ∀ b, o.block = some b →
      subs b = some (o.shadow.unfold (o.forward.resolve b)))
    (rest : ∀ x, (∀ o ∈ past, o.block ≠ some x) → subs x = none) (hx : v.Reaches x)
    (outside : ∀ o ∈ past, ∀ b, o.block = some b → v.NotBelow b x) :
    r.store.unfold (r.forward.resolve x) = v.tree.store.graft subs x := by
  have hv := hblocks.sound
  have once := Store.uniqueListers_of_nodup hblocks.tree.once
  obtain ⟨done, hr⟩ := h.sound
  induction x using Nat.strong_induction_on with
  | _ x ih =>
    have hreached := h.reached_outside hblocks hx outside
    have hlt := hx.lt_size hv
    by_cases hblock : ∃ o ∈ past, o.block = some x
    · obtain ⟨o, ho, hb⟩ := hblock
      have horigin := Overlay.origin_resolve_of_lt hv (hblocks.runs o ho) hlt
      have hunfold := h.unfold_block hblocks ho hb (Store.mem_preorder_self _ _)
      rw [horigin, h.view o ho x hlt] at hunfold
      rw [Store.graft_of_some (inside o ho x hb), hunfold hreached]
    · have hnone : ∀ o ∈ past, o.block ≠ some x := fun o ho hb => hblock ⟨o, ho, hb⟩
      obtain ⟨n, hn⟩ := hv.store.full x hlt
      have hvalue := h.untouched x n hn fun a ha target => by
        obtain ⟨b, hb⟩ := hblocks.block a ha
        obtain rfl := (outside a ha b hb).2 ((hblocks.within ha hb).targets x target hlt)
        exact hnone a ha hb
      have hget := h.traced.get?_resolve hr.store hreached hvalue
      rw [hv.store.graft_eq (rest x hnone) hn, hr.store.unfold_eq hget, Store.spread]
      simp only [Node.mapChildren, List.map_map]
      refine congrArg _ (List.map_congr_left fun c hc => ?_)
      rw [← hv.store.under_eq hn] at hc
      have hcr := Store.mem_preorder_of_mem_under hx hc
      refine ih c (Store.lt_of_mem_under hc) hcr fun o ho b hb => ⟨hcr, fun hcb => ?_⟩
      by_contra hne
      have hbr := View.reaches_of_isAttached hv (hblocks.isAttached ho hb)
      have hxb := once.lister_mem_preorder hx hbr hc hcb (Ne.symm hne)
      exact hnone o ho ((outside o ho b hb).2 hxb ▸ hb)

end Replay

/-! ### One block after the other -/

/-- What an overlay has made of a slot, if that is its block. -/
def Overlay.subtree? (o : Overlay) (x : NodeId) : Option Rose :=
  if o.block = some x then some (o.shadow.unfold (o.forward.resolve x)) else none

namespace View

variable {v : View} {os : List Overlay} {o : Overlay} {b x : NodeId}

/-- The subtrees that the workers of a batch have made of their blocks. -/
def subtrees (os : List Overlay) (x : NodeId) : Option Rose :=
  os.findSome? (·.subtree? x)

theorem subtrees_eq_none (h : ∀ o ∈ os, o.block ≠ some x) : subtrees os x = none :=
  List.findSome?_eq_none_iff.2 fun o ho => if_neg (h o ho)

theorem subtrees_eq_some (hblocks : v.Blocks os) (ho : o ∈ os) (hb : o.block = some b) :
    subtrees os b = some (o.shadow.unfold (o.forward.resolve b)) := by
  have hself := Store.mem_preorder_self v.tree.store b
  cases hfound : subtrees os b with
  | none =>
    have hnone := List.findSome?_eq_none_iff.1 hfound o ho
    rw [Overlay.subtree?, if_pos hb] at hnone
    cases hnone
  | some t =>
    obtain ⟨a, ha, hat⟩ := List.exists_of_findSome?_eq_some hfound
    rw [Overlay.subtree?] at hat
    split at hat
    · rename_i hab
      rw [← hat, hblocks.eq_of_mem ha ho hab hb hself hself]
    · cases hat

/-- The tree of a view with the subtree of each block exchanged for the one that the block has in
the shadow of its worker. -/
def exchanged (v : View) : List Overlay → Rose
  | [] => v.tree.rose
  | o :: os =>
    match o.block with
    | some b =>
      (v.exchanged os).replaceAt (v.tree.position b) (o.shadow.unfold (o.forward.resolve b))
    | none => v.exchanged os

/-- Nothing above a block is exchanged. -/
theorem Blocks.subtrees_above (h : v.Blocks os) (ho : o ∈ os) (hb : o.block = some b)
    (hx : x ∈ v.tree.ancestors b) : subtrees os x = none := by
  refine subtrees_eq_none fun a ha hax => ?_
  have hup := Tree.linksUp_ancestors h.sound.store b
  have hbx := hup.mem_preorder_of_mem h.sound.store (List.mem_cons_of_mem _ hx)
  have hself := Store.mem_preorder_self v.tree.store b
  rw [h.eq_of_mem ha ho hax hb hbx hself, hb, Option.some.injEq] at hax
  exact (List.nodup_cons.1 (hup.nodup h.sound.store)).1 (hax ▸ hx)

/-- To exchange all blocks at the same time and to exchange one after the other is the same. -/
theorem graft_eq_exchanged (h : v.Blocks os) :
    v.tree.store.graft (subtrees os) v.tree.root = v.exchanged os := by
  induction os with
  | nil => exact v.tree.store.graft_none _
  | cons o os ih =>
    obtain ⟨b, hb⟩ := h.block o List.mem_cons_self
    obtain ⟨-, htop⟩ := Tree.isAttached_iff.1 (h.isAttached List.mem_cons_self hb)
    have hup := Tree.linksUp_ancestors h.sound.store b
    have same : ∀ x, x ∉ v.tree.store.preorder b → subtrees os x = subtrees (o :: os) x := by
      intro x hx
      have hne : o.block ≠ some x := by
        rintro hbx
        obtain rfl := Option.some.inj (hb.symm.trans hbx)
        exact hx (Store.mem_preorder_self _ _)
      rw [subtrees, subtrees, List.findSome?_cons, Overlay.subtree?, if_neg hne]
    have kept : ∀ x ∈ v.tree.ancestors b, subtrees os x = none := by
      intro x hx
      have hall := h.subtrees_above List.mem_cons_self hb hx
      rw [subtrees, List.findSome?_cons] at hall
      split at hall
      · cases hall
      · exact hall
    have once := Store.uniqueListers_of_nodup h.tree.once
    rw [← htop] at once
    have hstep := hup.graft_eq_replaceAt h.sound.store once same kept
    rw [htop, ih (h.of_subset (List.subset_cons_self _ _)),
      Store.graft_of_some (subtrees_eq_some h List.mem_cons_self hb)] at hstep
    rw [hstep, exchanged, hb]
    rfl

/-- Workers with disjoint blocks of a finished tree all of whose nodes are part of the tree. No
worker loses a change to another. If no stable name is targeted by two workers and there is room for
the slots of the merged tree, the batch is merged. The merged tree is the tree of the view with each
block exchanged for what it is in the shadow of its worker. The workers have different numbers, as
those of a session have by `Session.batch_of_run`. -/
theorem disjoint_blocks_merge {nodes : List Node} {root : NodeId}
    (built : (Store.build nodes).finish root = .ok v.tree)
    (reached : ∀ x, x < v.tree.store.size → v.Reaches x)
    (runs : ∀ o ∈ os, v.Runs Overlay.IsTree o) (workers : (os.map (·.worker)).Nodup)
    (block : ∀ o ∈ os, ∃ b, o.block = some b) (apart : os.Pairwise v.Apart) :
    (∀ conflict ∈ v.conflicts (os.map Overlay.toSealed), conflict.reason ≠ .detachedSubtree) ∧
      ((∀ a ∈ os, ∀ r ∈ a.records, ∀ o ∈ os, ∀ q ∈ o.records, r.target = q.target →
          a.worker = o.worker) →
        v.mergedSize os ≤ Store.capacity →
        ∃ outcome, v.merge (os.map Overlay.toSealed) = .ok outcome ∧
          outcome.tree.rose = v.exchanged os ∧
          ∀ o ∈ os, ∀ b, o.block = some b → outcome.tree.rose.at? (v.tree.position b) =
            some (o.shadow.unfold (o.forward.resolve b))) := by
  have hblocks : v.Blocks os :=
    ⟨Store.sound_finish built, Tree.isTree_of_finish built, reached, runs, block,
      fun a ha o ho hne => apart.forall ha ho hne⟩
  refine ⟨fun conflict hmem => ?_, fun targets room => ?_⟩
  · rw [hblocks.conflicts_eq] at hmem
    rw [Sealed.reason_of_mem_sameTargets hmem]
    decide
  · have hconflicts : v.conflicts (os.map Overlay.toSealed) = [] :=
      (conflicts_map_toSealed hblocks.sound runs).2 ⟨targets, fun o ho x target hx c hc w hw =>
        hblocks.remover_eq ho target hx hc hw⟩
    obtain ⟨r, hfold, hmerges, -, -⟩ :=
      exists_merges hblocks.sound hblocks.tree reached runs workers hconflicts room
        (List.append_nil _).symm
    rw [← inWorkerOrder_map_toSealed] at hfold
    obtain ⟨outcome, hmerge, htree⟩ := exists_merge hblocks.sound runs hconflicts hfold
    have hmem : ∀ o, o ∈ os.mergeSort (fun a b => a.worker ≤ b.worker) ↔ o ∈ os := fun _ =>
      List.mem_mergeSort
    have hsorted : v.Blocks (os.mergeSort fun a b => a.worker ≤ b.worker) := hblocks.of_subset
      fun o => (hmem o).1
    have htop : v.Reaches v.tree.root := Store.mem_preorder_self _ _
    have hrose : outcome.tree.rose = v.tree.store.graft (subtrees os) v.tree.root := by
      rw [htree, Tree.rose, ← hmerges.top]
      refine hmerges.unfold_eq_graft hsorted
        (fun o ho b hb => subtrees_eq_some hblocks ((hmem o).1 ho) hb)
        (fun x hx => subtrees_eq_none fun o ho => hx o ((hmem o).2 ho)) htop
        fun o ho b hb => ⟨htop, fun hrb => ?_⟩
      have hbr := View.reaches_of_isAttached hblocks.sound (hsorted.isAttached ho hb)
      exact Nat.le_antisymm (Store.le_of_mem_preorder hrb) (Store.le_of_mem_preorder hbr)
    refine ⟨outcome, hmerge, hrose.trans (graft_eq_exchanged hblocks), fun o ho b hb => ?_⟩
    have hat := (Tree.linksUp_ancestors hblocks.sound.store b).at?_graft hblocks.sound.store
      fun x hx => hblocks.subtrees_above ho hb hx
    rwa [(Tree.isAttached_iff.1 (hblocks.isAttached ho hb)).2,
      Store.graft_of_some (subtrees_eq_some hblocks ho hb), ← hrose] at hat

/-- In the block at slot 3, change slot 3 and fail to change slot 1, which is in the other block. In
the block at slot 1, wrap slot 0 in slot 5, move it out of there, and fail to change slot 2, which
is above the block. -/
def twoBlocks : List Overlay :=
  [View.sample.blockOverlayAfter 1 3
      [.shared (.setWhitespace 3 ⟨" ", ""⟩), .shared (.setWhitespace 1 ⟨" ", ""⟩)],
    View.sample.blockOverlayAfter 0 1
      [.shared (.create (Context.blockAt 6 [0])), .shared (.replace 1 0 5), .shared (.remove 5 0),
        .insertAt 1 0 0, .shared (.setWhitespace 2 ⟨" ", ""⟩)]]

theorem disjoint_blocks_merge_twoBlocks :
    View.sample.conflicts (twoBlocks.map Overlay.toSealed) = [] ∧
      twoBlocks.map (·.recordCount) = [1, 3] ∧
      ∃ outcome, View.sample.merge (twoBlocks.map Overlay.toSealed) = .ok outcome ∧
        outcome.tree.rose = View.sample.exchanged twoBlocks := by
  have hruns : ∀ o ∈ twoBlocks, View.sample.Runs Overlay.IsTree o := by
    refine List.forall_mem_cons.2
      ⟨View.runs_blockOverlayAfter (by decide +kernel) (by decide +kernel), ?_⟩
    exact List.forall_mem_singleton.2
      (View.runs_blockOverlayAfter (by decide +kernel) (by decide +kernel))
  have hblocks : twoBlocks.map (·.block) = [some 3, some 1] := by decide +kernel
  obtain ⟨hfirst, hsecond⟩ := List.cons_eq_cons.1 hblocks
  obtain ⟨hsecond, -⟩ := List.cons_eq_cons.1 hsecond
  have hblock : ∀ o ∈ twoBlocks, ∃ b, o.block = some b :=
    List.forall_mem_cons.2 ⟨⟨3, hfirst⟩, List.forall_mem_singleton.2 ⟨1, hsecond⟩⟩
  have hapart : twoBlocks.Pairwise View.sample.Apart := by
    refine List.pairwise_pair.2 fun b c hb hc => ?_
    obtain rfl : 3 = b := Option.some.inj (hfirst.symm.trans hb)
    obtain rfl : 1 = c := Option.some.inj (hsecond.symm.trans hc)
    decide +kernel
  obtain ⟨-, hmerge⟩ := disjoint_blocks_merge Context.finish_strayNodes (by decide +kernel) hruns
    (by decide +kernel) hblock hapart
  obtain ⟨outcome, hok, hrose, -⟩ := hmerge (by decide +kernel) (by decide +kernel)
  exact ⟨by decide +kernel, by decide +kernel, outcome, hok, hrose⟩

end View

end TreeEdit
