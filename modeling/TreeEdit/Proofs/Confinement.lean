import TreeEdit.Proofs.Fidelity
import TreeEdit.Proofs.Steady
import TreeEdit.Proofs.Unfolding

/-!
# Workers stay inside their blocks

An overlay that was issued for a block only accepts edits whose path passes through the current copy
of the block. `View.NotBelow` is the part of the view that is not below the block. It is steady in
the sense of `Store.Steady`, whatever happens inside the block: nodes may be taken out, brought back
in or reached twice there. So the links from the current copy of the block go the way that they went
in the view, and its position does not move. This is `Overlay.Confined`, and
`Overlay.confined_of_runs` says that it holds after any requests.
-/

namespace TreeEdit

/-! ### Chains of links, seen from above -/

theorem idxOf_set_idxOf {ids : List NodeId} {old new : NodeId} (hold : old ∈ ids)
    (hnew : new ∉ ids) : (ids.set (ids.idxOf old) new).idxOf new = ids.idxOf old := by
  induction ids with
  | nil => cases hold
  | cons a ids ih =>
    by_cases ha : a = old
    · rw [ha, List.idxOf_cons_self, List.set_cons_zero, List.idxOf_cons_self]
    · have hne : a ≠ new := fun h => hnew (h ▸ List.mem_cons_self)
      have hrest : old ∈ ids := (List.mem_cons.1 hold).resolve_left (Ne.symm ha)
      rw [List.idxOf_cons_ne _ ha, List.set_cons_succ, List.idxOf_cons_ne _ hne,
        ih hrest fun h => hnew (List.mem_cons_of_mem _ h)]

namespace Store

variable {s s' : Store} {f : Forward} {root : NodeId} {e : Edit} {above : List NodeId}
  {current : Node} {r : Rebuilt} {id p q x y z : NodeId} {i j : Nat}

/-- The links from a slot lead to the root, and give the slot a position. -/
def Placed (s : Store) (root id : NodeId) (route : List Nat) : Prop :=
  ∃ above, s.LinksUp id above ∧ chainTop id above = root ∧ s.route (id :: above).reverse = route

theorem Placed.child {route : List Nat} (h : s.Placed root p route)
    (hlink : s.parent? id = some p) : s.Placed root id (route ++ [(s.children p).idxOf id]) := by
  obtain ⟨above, hup, htop, rfl⟩ := h
  exact ⟨p :: above, ⟨hlink, hup⟩, by rw [chainTop_cons, htop], s.route_reverse_cons id p above⟩

/-- A placed slot is attached, and this is its position. -/
theorem Placed.position {t : Tree} {route : List Nat} (ht : t.store.Sound)
    (h : t.store.Placed t.root id route) (hid : id < t.store.size) :
    t.isAttached id = true ∧ t.position id = route := by
  obtain ⟨above, hup, htop, rfl⟩ := h
  rw [Tree.isAttached_iff, Tree.position, Tree.ancestors_eq ht hup]
  exact ⟨⟨hid, htop⟩, rfl⟩

theorem drop_of_getElem? {ids : List NodeId} (h : ids[i]? = some id) :
    ids.drop i = id :: ids.drop (i + 1) := by
  obtain ⟨hi, rfl⟩ := List.getElem?_eq_some_iff.1 h
  exact List.drop_eq_getElem_cons hi

/-- The way down a chain, by a slot that it passes through. -/
theorem route_split (s : Store) {ids : List NodeId} (h : ids[i]? = some id) :
    s.route ids.reverse = s.route (ids.drop i).reverse ++ s.route (ids.take (i + 1)).reverse := by
  have hids : ids.reverse = (ids.drop (i + 1)).reverse ++ id :: (ids.take i).reverse := by
    conv_lhs => rw [← List.take_append_drop i ids, drop_of_getElem? h]
    simp
  rw [hids, route_append, reverse_take_succ h, drop_of_getElem? h, List.reverse_cons]

/-! ### The part of the view that stays in place -/

namespace Steady

variable {V : Store} {top : NodeId} {Z : NodeId → Prop}

/-- The latest copy of a steady node of a path is the one that the edit makes. -/
theorem resolve_record (h : Steady V top Z s' (f.record r) r.root)
    (hedited : Edited s f root e above current s' r) (hs : s.Sound) (hf : f.Ascending s.size)
    (horigins : f.KeepsOrigins) (hx : x < s.size) (hzx : Z (f.origin x))
    (hj : (e.target :: above)[j]? = some (f.resolve x)) : (f.record r).resolve x = s.size + j := by
  have hnodup := hedited.linksUp.nodup hs
  have hlt : ∀ a ∈ e.target :: above, a < s.size := fun a ha => hedited.lt_size_of_mem_spine hs ha
  have hf' : (f.record r).Ascending (s.size + (e.target :: above).length) := by
    rw [hedited.record_eq]
    exact hf.recordSpine hnodup hlt
  have horigins' : (f.record r).KeepsOrigins := by
    rw [hedited.record_eq]
    exact horigins.recordSpine hf hnodup hlt
  have hox : (f.record r).origin ((f.record r).resolve x) = f.origin x := by
    rw [horigins'.origin_resolve hf', hedited.origin_old hx]
  have hcopy : (f.record r).origin (s.size + j) = f.origin x := by
    rw [hedited.origin_copy hs hj, horigins.origin_resolve hf]
  exact h.unique _ _ (hox.symm ▸ hzx) (hox.trans hcopy.symm) (Forward.links_resolve hf' x)
    (hedited.links_of_size_le hs hf (Nat.le_add_right _ _))

variable (h : Steady V top Z s f root)
include h

/-- What is reached from a slot and goes back to a steady node stands below it in the view, too. -/
theorem mem_preorder_origin (hZ : UpperSet V top Z) (hq : q ∈ s.preorder root)
    (hx : x ∈ s.preorder q) (hzx : Z (f.origin x)) : f.origin x ∈ V.preorder (f.origin q) := by
  refine preorder_induction (P := fun x => Z (f.origin x) →
    f.origin x ∈ V.preorder (f.origin q)) (fun _ => mem_preorder_self V _) ?_ x hx hzx
  intro p hp ih c hc hzc
  obtain ⟨hpv, hcp⟩ := h.listed p (mem_preorder_trans hp hq) c hc hzc
  exact mem_preorder_of_mem_under (ih (hZ.lister _ hpv _ hcp hzc)) hcp

variable (hedited : Edited s f root e above current s' r) (hs : s.Sound)
include hedited hs

/-- Each link of a path leads to the parent in the view, from a steady node on. -/
theorem spine_lister (hp : (e.target :: above)[i]? = some p)
    (hq : (e.target :: above)[i + 1]? = some q) (hzp : Z (f.origin p)) :
    f.origin q ∈ V.preorder top ∧ f.origin p ∈ V.under (f.origin q) := by
  have hlink := hedited.linksUp.parent?_getElem? hp hq
  have hcurrent := h.links_of_mem_spine hedited hs (List.mem_of_getElem? hp) hzp
  rcases h.linked p hzp hcurrent with ⟨-, hfree⟩ | ⟨b, hb, -, hbv, hpb⟩
  · rw [hfree] at hlink
    cases hlink
  · obtain rfl : b = q := Option.some.inj (hb.symm.trans hlink)
    exact ⟨hbv, hpb⟩

variable (hZ : UpperSet V top Z)
include hZ

theorem steady_of_le (hq : (e.target :: above)[j]? = some q) (hzq : Z (f.origin q)) (hi : j ≤ i)
    (hx : (e.target :: above)[i]? = some x) : Z (f.origin x) := by
  obtain ⟨k, rfl⟩ := Nat.exists_eq_add_of_le hi
  clear hi
  induction k generalizing x with
  | zero =>
    obtain rfl : q = x := Option.some.inj (hq.symm.trans hx)
    exact hzq
  | succ k ih =>
    have hlt := (List.getElem?_eq_some_iff.1 hx).1
    have hp := List.getElem?_eq_getElem (Nat.lt_of_succ_lt hlt)
    obtain ⟨hxv, hpx⟩ := h.spine_lister hedited hs hp hx (ih hp)
    exact hZ.lister _ hxv _ hpx (ih hp)

variable (hV : V.UniqueListers top) (hf : f.Ascending s.size)
  (h' : Steady V top Z s' (f.record r) r.root)
include hV hf h'

/-- The copies of a path are linked as the path was, from a steady node on. -/
theorem parent?_copy (hp : (e.target :: above)[i]? = some p)
    (hq : (e.target :: above)[i + 1]? = some q) (hzp : Z (f.origin p)) :
    s'.parent? (s.size + i) = some (s.size + (i + 1)) := by
  obtain ⟨hqv, hpq⟩ := h.spine_lister hedited hs hp hq hzp
  have hop := hedited.origin_copy hs hp
  have hoq := hedited.origin_copy hs hq
  have hnew : ∀ k, (f.record r).links.get? (s.size + k) = none := fun k =>
    hedited.links_of_size_le hs hf (Nat.le_add_right _ _)
  rcases h'.linked (s.size + i) (hop.symm ▸ hzp) (hnew i) with
    ⟨htop, -⟩ | ⟨b, hlink, hb, hbv, hib⟩
  · rw [hop] at htop
    rw [htop] at hpq
    exact absurd (lt_of_mem_under hpq) (Nat.not_lt.2 (le_of_mem_preorder hqv))
  · rw [hop] at hib
    have hob : (f.record r).origin b = f.origin q := hV.lister_eq _ hbv _ hqv _ hib hpq
    have hzb : Z ((f.record r).origin b) := hob ▸ hZ.lister _ hqv _ hpq hzp
    rw [hlink, h'.unique b _ hzb (hob.trans hoq.symm) hb (hnew (i + 1))]

/-- The copy of a steady node of a path takes the position of the node. -/
theorem placed_copy (hq : (e.target :: above)[j]? = some q) (hzq : Z (f.origin q)) :
    s'.Placed r.root (s.size + j) (s.route ((e.target :: above).drop j).reverse) := by
  have hj : j ≤ above.length := Nat.le_of_lt_succ (List.getElem?_eq_some_iff.1 hq).1
  -- from the new root down to the copy
  obtain ⟨k, hk⟩ := Nat.exists_eq_add_of_le hj
  induction k generalizing j q with
  | zero =>
    obtain rfl : above.length = j := hk
    rw [drop_of_getElem? hq, List.drop_of_length_le (by simp), ← hedited.root_eq]
    exact ⟨[], hedited.parent?_root hs, rfl, rfl⟩
  | succ k ih =>
    have hlt : j + 1 < (e.target :: above).length := by
      rw [List.length_cons]
      omega
    have hp := List.getElem?_eq_getElem hlt
    have hzp := h.steady_of_le hedited hs hZ hq hzq (Nat.le_succ j) hp
    have hplaced := (ih hp hzp (by omega) (by omega)).child
      (h.parent?_copy hedited hs hZ hV hf h' hq hp hzq)
    obtain ⟨hmem, hunder⟩ := hedited.under_copy hs hq hp
    have hfresh : s.size + j ∉ s.under (e.target :: above)[j + 1] := fun hmem =>
      absurd (Nat.lt_trans (lt_of_mem_under hmem) (lt_size_of_mem_under hmem))
        (Nat.not_lt.2 (Nat.le_add_right _ _))
    rw [← (hedited.sound hs).under_eq_children, hunder, idxOf_set_idxOf hmem hfresh,
      hs.under_eq_children, drop_of_getElem? hp, ← route_reverse_cons, ← drop_of_getElem? hp,
      ← drop_of_getElem? hq] at hplaced
    exact hplaced

end Steady

/-! ### Stores with the same nodes -/

theorem LinksUp.of_parent? {t : Store} (hlinks : ∀ x, t.parent? x = s.parent? x)
    (h : s.LinksUp id above) : t.LinksUp id above := by
  induction above generalizing id with
  | nil => exact (hlinks id).trans h
  | cons p above ih => exact ⟨(hlinks id).trans h.1, ih h.2⟩

theorem route_congr {t : Store} {ids : List NodeId} (h : ∀ x ∈ ids, t.get? x = s.get? x) :
    t.route ids = s.route ids := by
  induction ids with
  | nil => rfl
  | cons p ids ih =>
    cases ids with
    | nil => rfl
    | cons c ids =>
      rw [route, route, ih fun x hx => h x (List.mem_cons_of_mem _ hx), children, children,
        h p List.mem_cons_self]

/-- A slot keeps its position as long as links stay as they are and slots keep their values. -/
theorem Placed.of_eq {t : Store} {route : List Nat} (h : s.Placed root id route) (hs : s.Sound)
    (hid : id < s.size) (hlinks : ∀ x, t.parent? x = s.parent? x)
    (hvalues : ∀ x < s.size, t.get? x = s.get? x) : t.Placed root id route := by
  obtain ⟨above, hup, htop, rfl⟩ := h
  refine ⟨above, hup.of_parent? hlinks, htop, route_congr fun x hx => hvalues x ?_⟩
  exact hup.lt_size hs hid (List.mem_reverse.1 hx)

end Store

/-! ### Blocks -/

theorem View.checkBlock_eq_ok {v : View} {b : NodeId} (h : v.checkBlock b = .ok ()) :
    v.tree.isAttached b = true := by
  obtain ⟨node, -, h⟩ := Verdict.bind_eq_ok_iff.1 h
  cases hattached : v.tree.isAttached b with
  | true => rfl
  | false => simp [hattached, throw, throwThe, MonadExceptOf.throw, bind, Except.bind] at h

theorem View.reaches_of_isAttached {v : View} {b : NodeId} (hv : v.tree.Sound)
    (h : v.tree.isAttached b = true) : v.Reaches b :=
  Tree.mem_preorder_of_isAttached hv.store h

/-- A node of the view that does not stand below the top of a block. -/
def View.NotBelow (v : View) (b x : NodeId) : Prop :=
  v.Reaches x ∧ (x ∈ v.tree.store.preorder b → x = b)

theorem View.upperSet_notBelow (v : View) (b : NodeId) :
    v.tree.store.UpperSet v.tree.root (v.NotBelow b) where
  reached _ hx := hx.1
  lister p hp c hc h := by
    refine ⟨hp, fun hpb => absurd (h.2 (Store.mem_preorder_of_mem_under hpb hc)) ?_⟩
    have hle := Store.le_of_mem_preorder hpb
    exact Nat.ne_of_lt (Nat.lt_of_lt_of_le (Store.lt_of_mem_under hc) hle)

namespace Overlay

variable {v : View} {P : Overlay → Prop} {o o' : Overlay} {g : SharedGuard} {b : NodeId}

theorem Step.block_eq (h : Step o g o') : o'.block = o.block := by
  cases h <;> rfl

/-- The block of an overlay was accepted when the overlay was issued. -/
theorem isAttached_of_block (h : v.Runs P o) (hb : o.block = some b) :
    v.tree.isAttached b = true := by
  induction h with
  | issue worker block accepted here => exact View.checkBlock_eq_ok (accepted b hb)
  | @call o g limits request before here ih =>
    exact ih ((o.step_perform g request).block_eq ▸ hb)

theorem mem_of_checkBlock {target : StableId} {way : Path} (hb : o.block = some b)
    (h : o.checkBlock target way = .ok ()) : o.forward.resolve b ∈ way.target :: way.above := by
  unfold checkBlock at h
  rw [hb] at h
  dsimp only at h
  split at h
  · rename_i hmem
    rwa [Path.contains, List.contains_iff_mem] at hmem
  · cases h

/-- What a worker has done to the view, if it was issued a block. -/
structure Confined (v : View) (b : NodeId) (o : Overlay) : Prop where
  steady : Store.Steady v.tree.store v.tree.root (v.NotBelow b) o.shadow o.forward o.root
  placed : o.shadow.Placed o.root (o.forward.resolve b) (v.tree.position b)
  rose : o.tree.rose =
    v.tree.rose.replaceAt (v.tree.position b) (o.shadow.unfold (o.forward.resolve b))

theorem Confined.issue (hv : v.tree.Sound) (tree : v.tree.IsTree)
    (hb : v.tree.isAttached b = true) (worker : WorkerId) (block : Option NodeId) :
    Confined v b { v.newOverlay block with worker } where
  steady := steady_layer tree (v.upperSet_notBelow b)
  placed := by
    obtain ⟨hlt, htop⟩ := Tree.isAttached_iff.1 hb
    exact Store.Placed.of_eq ⟨_, Tree.linksUp_ancestors hv.store b, htop, rfl⟩ hv.store hlt
      (Store.parent?_layer _) fun x _ => Store.get?_layer _ x
  rose := by
    have hunfold : ∀ x, v.tree.store.layer.unfold x = v.tree.store.unfold x := fun x =>
      Store.unfold_congr fun y _ => Store.get?_layer _ y
    show v.tree.store.layer.unfold v.tree.root = _
    rw [hunfold]
    refine (Rose.replaceAt_of_at? ?_).symm
    show _ = some (v.tree.store.layer.unfold b)
    rw [hunfold]
    exact Tree.at?_position hv.store hb

theorem Confined.append (h : Confined v b o) (hsound : Sound v o)
    (hb : o.forward.resolve b < o.shadow.size) (nodes : List Node) (created : List Created) :
    Confined v b { o with shadow := o.shadow.append nodes, created } where
  steady := h.steady.append hsound.root nodes
  placed := h.placed.of_eq hsound.shadow hb (Store.parent?_append _ nodes) fun x hx =>
    Store.get?_append_of_lt nodes hx
  rose := by
    have hunfold : ∀ x < o.shadow.size,
        (o.shadow.append nodes).unfold x = o.shadow.unfold x := fun x hx =>
      Store.unfold_congr fun y hy =>
        Store.get?_append_of_lt nodes (Nat.lt_of_le_of_lt (Store.le_of_mem_preorder hy) hx)
    show (o.shadow.append nodes).unfold o.root =
      v.tree.rose.replaceAt (v.tree.position b) ((o.shadow.append nodes).unfold _)
    rw [hunfold _ hsound.root, hunfold _ hb]
    exact h.rose

/-- The latest copy of a node of the view goes back to it. -/
theorem origin_resolve_of_lt (hv : v.tree.Sound) (h : v.Runs P o) {x : NodeId}
    (hx : x < v.tree.store.size) : o.forward.origin (o.forward.resolve x) = x := by
  have hsound := Sound.of_runs hv h
  rw [(keepsOrigins_of_runs hv h).origin_resolve hsound.ascending]
  exact hsound.original x (Or.inl hx)

/-- The part of a path above the current copy of the block is the chain that gives the block its
position. -/
theorem Confined.route_drop (h : Confined v b o) {id : NodeId} {above : List NodeId} {j : Nat}
    (hup : o.shadow.LinksUp id above) (hj : (id :: above)[j]? = some (o.forward.resolve b)) :
    o.shadow.route ((id :: above).drop j).reverse = v.tree.position b := by
  obtain ⟨chain, hchain, -, hroute⟩ := h.placed
  rw [Store.drop_of_getElem? hj, List.drop_succ_cons, ← hchain.unique (hup.drop hj).1, hroute]

section Edit

variable (hv : v.tree.Sound) (before : v.Runs P o) (h : Confined v b o)
  (hb : v.tree.isAttached b = true) {e : Edit} {above : List NodeId} {current : Node}
  {shadow : Store} {r : Rebuilt}
  (hedited : Store.Edited o.shadow o.forward o.root (e.mapIds o.forward.resolve) above current
    shadow r)
  (hmem : o.forward.resolve b ∈ (e.mapIds o.forward.resolve).target :: above)
include hv before h hb hedited hmem

/-- What an edit inside a block takes out stands below the top of the block. -/
theorem Confined.not_notBelow_of_detached {y : NodeId}
    (hy : (e.mapIds o.forward.resolve).detached? = some y) :
    ¬v.NotBelow b (o.forward.origin y) := by
  intro hz
  have hs := (Sound.of_runs hv before).shadow
  have htop := hedited.reached_of_mem_spine hs hmem
  have htarget := hedited.linksUp.mem_preorder_of_mem hs hmem
  have hchild := hedited.mem_under_of_detached? hs hy
  have hupper := v.upperSet_notBelow b
  obtain ⟨hp, hyp⟩ := h.steady.listed _ (Store.mem_preorder_trans htarget htop) y hchild hz
  have hbelow := h.steady.mem_preorder_origin hupper htop htarget (hupper.lister _ hp _ hyp hz)
  rw [origin_resolve_of_lt hv before (Tree.isAttached_iff.1 hb).1] at hbelow
  -- the target is at or below the block, so its child is properly below it
  have heq := hz.2 (Store.mem_preorder_of_mem_under hbelow hyp)
  have hlt := Nat.lt_of_lt_of_le (Store.lt_of_mem_under hyp) (Store.le_of_mem_preorder hbelow)
  rw [heq] at hlt
  exact Nat.lt_irrefl b hlt

theorem Confined.steady_commit (tree : v.tree.IsTree)
    (hlinks : Store.Relinked o.shadow shadow above r.root) :
    Store.Steady v.tree.store v.tree.root (v.NotBelow b) shadow (o.forward.record r) r.root := by
  have hsound := Sound.of_runs hv before
  exact h.steady.edited hedited hsound.shadow (v.upperSet_notBelow b)
    (fun y hy => h.not_notBelow_of_detached hv before hb hedited hmem hy)
    (Store.uniqueListers_of_nodup tree.once) hsound.ascending hlinks hsound.fresh
    fun x hx => Nat.lt_of_lt_of_le (hx.1.lt_size hv) hsound.base

/-- An edit whose path passes through the current copy of a block changes nothing outside of it. -/
theorem Confined.commit (tree : v.tree.IsTree)
    (hlinks : Store.Relinked o.shadow shadow above r.root) (target : StableId) :
    Confined v b (o.commit target e shadow r) := by
  have hsound := Sound.of_runs hv before
  have hs := hsound.shadow
  have hlt := (Tree.isAttached_iff.1 hb).1
  have hsteady := h.steady_commit hv before hb hedited hmem tree hlinks
  have hz : v.NotBelow b (o.forward.origin b) := by
    rw [hsound.original b (Or.inl hlt)]
    exact ⟨View.reaches_of_isAttached hv hb, fun _ => rfl⟩
  have horigins := keepsOrigins_of_runs hv before
  have hz' : v.NotBelow b (o.forward.origin (o.forward.resolve b)) := by
    rwa [horigins.origin_resolve hsound.ascending]
  obtain ⟨j, hj⟩ := List.mem_iff_getElem?.1 hmem
  have hcopy := hsteady.resolve_record hedited hs hsound.ascending horigins
    (Nat.lt_of_lt_of_le hlt hsound.base) hz hj
  have hposition := h.route_drop hedited.linksUp hj
  have hplaced := h.steady.placed_copy hedited hs (v.upperSet_notBelow b)
    (Store.uniqueListers_of_nodup tree.once) hsound.ascending hsteady hj hz'
  rw [hposition] at hplaced
  have hat : (o.shadow.unfold o.root).at? (v.tree.position b) =
      some (o.shadow.unfold (o.forward.resolve b)) := by
    obtain ⟨hdrop, htop⟩ := hedited.linksUp.drop hj
    have hroute := hdrop.at?_route hs
    rwa [htop, hedited.top_eq, ← List.drop_succ_cons, ← Store.drop_of_getElem? hj, hposition]
      at hroute
  refine ⟨hsteady, ?_, ?_⟩
  · show shadow.Placed r.root ((o.forward.record r).resolve b) _
    rw [hcopy]
    exact hplaced
  · show shadow.unfold r.root =
      v.tree.rose.replaceAt _ (shadow.unfold ((o.forward.record r).resolve b))
    rw [hcopy, hedited.unfold_root hs, hedited.unfold_copy hs hj, o.shadow.route_split hj,
      hposition, Rose.replaceAt_append hat]
    have hrose := h.rose
    rw [Tree.rose, Overlay.tree] at hrose
    rw [hrose, Rose.replaceAt_replaceAt]

end Edit

/-- Whatever is asked of an overlay for a block, it keeps to the block. -/
theorem confined_of_runs (hv : v.tree.Sound) (tree : v.tree.IsTree) (h : v.Runs P o)
    (hb : o.block = some b) : Confined v b o := by
  have hattached := isAttached_of_block h hb
  refine h.induction (I := fun o => o.block = some b → Confined v b o) ?_ ?_ hb
  · intro worker block _ _
    exact .issue hv tree hattached worker block
  · intro o o' g _ before ih hstep hb
    have hbo : o.block = some b := hstep.block_eq ▸ hb
    have hsound := Sound.of_runs hv before
    have hlt := Nat.lt_of_lt_of_le (Tree.isAttached_iff.1 hattached).1 hsound.base
    have hconfined := ih hbo
    cases hstep with
    | refused guard limits => exact ⟨hconfined.steady, hconfined.placed, hconfined.rose⟩
    | created m checked room =>
      exact hconfined.append hsound (Forward.resolve_lt hsound.ascending hlt) _ _
    | @recorded e node value way shadow r guard limits get_target planned depth rebuilt inside =>
      obtain ⟨above, current, rfl, hedited⟩ := edited_of_plan planned rebuilt
      have hcommit := hconfined.commit hv before hattached hedited (mem_of_checkBlock hbo inside)
        tree (Store.relinked_of_rebuild hsound.shadow hedited rebuilt) node.stableId
      exact ⟨hcommit.steady, hcommit.placed, hcommit.rose⟩

end Overlay

/-- The overlay of a worker for a block after some requests. -/
def View.blockOverlayAfter (v : View) (worker : WorkerId) (b : NodeId)
    (calls : List OverlayCall) : Overlay :=
  ({ v.newOverlay (some b) with worker } : Overlay).run v.shared calls

theorem View.runs_blockOverlayAfter {v : View} {P : Overlay → Prop} {worker : WorkerId} {b : NodeId}
    {calls : List OverlayCall} (accepted : (v.checkBlock b).isOk = true)
    (h : ∀ part ∈ calls.inits, P (v.blockOverlayAfter worker b part)) :
    v.Runs P (v.blockOverlayAfter worker b calls) := by
  refine .run rfl (.issue worker (some b) ?_ (h [] (by simp))) calls fun part hpart => ?_
  · rintro c ⟨⟩
    exact (Verdict.exists_eq_ok accepted).elim fun _ hok => hok
  · exact h part ((List.mem_inits _ _).2 hpart)

namespace Overlay

variable {v : View} {o : Overlay} {b : NodeId}

/-- Whatever is asked of an overlay for a block and however it is answered, the tree of the shadow
is the tree of the view with another subtree at the position of the block. The current copy of the
block stays at this position. -/
theorem rose_outside_block {nodes : List Node} {root : NodeId}
    (built : (Store.build nodes).finish root = .ok v.tree) (h : v.Runs (fun _ => True) o)
    (hb : o.block = some b) :
    v.tree.rose.at? (v.tree.position b) = some (v.tree.store.unfold b) ∧
      o.tree.isAttached (o.forward.resolve b) = true ∧
      o.tree.position (o.forward.resolve b) = v.tree.position b ∧
      o.tree.rose.at? (v.tree.position b) = some (o.shadow.unfold (o.forward.resolve b)) ∧
      o.tree.rose =
        v.tree.rose.replaceAt (v.tree.position b) (o.shadow.unfold (o.forward.resolve b)) := by
  have hv := (Lineage.built built).sound
  have hattached := isAttached_of_block h hb
  have hsound := Sound.of_runs hv h
  have hconfined := confined_of_runs hv (Tree.isTree_of_finish built) h hb
  have hlt := Nat.lt_of_lt_of_le (Tree.isAttached_iff.1 hattached).1 hsound.base
  obtain ⟨hcopy, hposition⟩ := Store.Placed.position (t := o.tree) hsound.shadow hconfined.placed
    (Forward.resolve_lt hsound.ascending hlt)
  refine ⟨Tree.at?_position hv.store hattached, hcopy, hposition, ?_, hconfined.rose⟩
  rw [← hposition]
  exact Tree.at?_position hsound.shadow hcopy

end Overlay

/-- In the block at slot 2, wrap slot 1 in slot 5 and take both out, let slot 10 come in with slot 0
and leave again, put slot 5 back, and let slot 17 come in with slot 0, too. On the way, try to
change and to take out slot 3, which is outside. -/
def View.straying : List OverlayCall :=
  [.shared (.create (Context.blockAt 6 [1])), .shared (.replace 2 1 5), .shared (.remove 2 5),
    .shared (.create (Context.blockAt 7 [0])), .insertAt 2 0 10,
    .shared (.setWhitespace 3 ⟨" ", ""⟩), .shared (.remove 2 10), .insertAt 2 0 5,
    .shared (.remove 4 3), .shared (.create (Context.blockAt 8 [0])), .insertAt 2 0 17]

/-- A run with two refusals, after which slot 0 is reached twice. -/
theorem Overlay.rose_outside_block_straying :
    (Store.build Context.strayNodes).finish 4 = .ok View.sample.tree ∧
      View.sample.Runs (fun _ => True) (View.sample.blockOverlayAfter 0 2 View.straying) ∧
      (View.sample.blockOverlayAfter 0 2 View.straying).recordCount = 6 ∧
      (View.sample.blockOverlayAfter 0 2 View.straying).shadow.preorder 19 =
        [19, 18, 17, 0, 5, 1, 0, 3] ∧
      (View.sample.blockOverlayAfter 0 2 View.straying).tree.position 18 = [0] ∧
      (View.sample.blockOverlayAfter 0 2 View.straying).tree.rose =
        View.sample.tree.rose.replaceAt [0]
          ((View.sample.blockOverlayAfter 0 2 View.straying).shadow.unfold 18) := by
  have hruns : View.sample.Runs (fun _ => True)
      (View.sample.blockOverlayAfter 0 2 View.straying) :=
    View.runs_blockOverlayAfter (by decide +kernel) fun _ _ => trivial
  have hblock : (View.sample.blockOverlayAfter 0 2 View.straying).block = some 2 := by
    decide +kernel
  have hcopy : (View.sample.blockOverlayAfter 0 2 View.straying).forward.resolve 2 = 18 := by
    decide +kernel
  have hposition : View.sample.tree.position 2 = [0] := by decide +kernel
  obtain ⟨-, -, hplace, -, hrose⟩ :=
    Overlay.rose_outside_block Context.finish_strayNodes hruns hblock
  rw [hcopy, hposition] at hplace hrose
  exact ⟨Context.finish_strayNodes, hruns, by decide +kernel, by decide +kernel, hplace, hrose⟩

end TreeEdit
