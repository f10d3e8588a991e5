import TreeEdit.Proofs.Composition
import TreeEdit.Proofs.Mirroring

/-!
# A log on a tree that others have changed

The log of a worker is replayed entry by entry. `Replay.Follows` says that the replay is a mirror of
the shadow, and `Replay.carriesOut_of_runs` that every entry can be carried out: what the worker
changes, takes out and brings in is of a part of the view that the others have left alone. Every
request that was granted in the shadow is then granted in the replay, as the mirror of it.
-/

namespace TreeEdit

namespace Replay

variable {v : View} {near own : NodeId → Prop} {r₀ r : Replay} {o : Overlay} {most : Nat}
  {x : NodeId}

/-! ### The slots of a worker and of a replay -/

/-- The slot that mirrors a slot of a worker, if the log begins at `r₀`: for a slot of the view its
current copy, and for the others the slots after those of `r₀` in order. -/
def slotOf (v : View) (r₀ : Replay) (x : NodeId) : NodeId :=
  if x < v.tree.store.size then r₀.forward.resolve x
  else r₀.store.size + (x - v.tree.store.size)

theorem slotOf_of_lt (r₀ : Replay) (hx : x < v.tree.store.size) :
    slotOf v r₀ x = r₀.forward.resolve x :=
  if_pos hx

theorem slotOf_add (v : View) (r₀ : Replay) (i : Nat) :
    slotOf v r₀ (v.tree.store.size + i) = r₀.store.size + i := by
  rw [slotOf, if_neg (Nat.not_lt.2 (Nat.le_add_right _ _)), Nat.add_sub_cancel_left]

/-- A replay on which the log of a worker can begin. The nodes of `own` have the values of the view,
and the nodes of `near` stand where they stand in the view. -/
structure Ready (v : View) (near own : NodeId → Prop) (r : Replay) : Prop where
  standing : r.store.Standing r.forward r.root
  base : v.tree.store.size ≤ r.store.size
  original : ∀ x, x < v.tree.store.size → r.forward.origin x = x
  top : r.forward.resolve v.tree.root = r.root
  value : ∀ x n, own x → v.tree.store.get? x = some n → r.valueOf x = some n
  edge : ∀ p c, near c → c ∈ v.tree.store.under p →
    near p ∧ r.forward.resolve c ∈ r.store.under (r.forward.resolve p)

namespace Ready

theorem slotOf_injective (h : Ready v near own r₀) : Function.Injective (slotOf v r₀) := by
  have hold : ∀ x, x < v.tree.store.size → slotOf v r₀ x < r₀.store.size := by
    intro x hx
    rw [slotOf_of_lt r₀ hx]
    exact Forward.resolve_lt h.standing.traced.coherent.ascending (Nat.lt_of_lt_of_le hx h.base)
  have hnew : ∀ x, v.tree.store.size ≤ x → r₀.store.size ≤ slotOf v r₀ x := by
    intro x hx
    obtain ⟨i, rfl⟩ := Nat.exists_eq_add_of_le hx
    rw [slotOf_add]
    exact Nat.le_add_right _ _
  intro x y heq
  rcases Nat.lt_or_ge x v.tree.store.size with hx | hx <;>
    rcases Nat.lt_or_ge y v.tree.store.size with hy | hy
  · rw [slotOf_of_lt r₀ hx, slotOf_of_lt r₀ hy, h.standing.traced.coherent.resolve_eq_iff,
      h.original x hx, h.original y hy] at heq
    exact heq
  · exact absurd (hold x hx) (Nat.not_lt.2 (heq ▸ hnew y hy))
  · exact absurd (hold y hy) (Nat.not_lt.2 (heq ▸ hnew x hx))
  · obtain ⟨i, rfl⟩ := Nat.exists_eq_add_of_le hx
    obtain ⟨j, rfl⟩ := Nat.exists_eq_add_of_le hy
    rw [slotOf_add, slotOf_add] at heq
    rw [Nat.add_left_cancel heq]

/-- What is near is reached. -/
theorem reached (h : Ready v near own r₀) (hx : v.Reaches x) (hnear : near x) :
    r₀.forward.resolve x ∈ r₀.store.preorder r₀.root := by
  refine Store.preorder_induction (P := fun x => near x →
    r₀.forward.resolve x ∈ r₀.store.preorder r₀.root) (fun _ => ?_) (fun p _ ih c hc hnc => ?_)
    x hx hnear
  · rw [h.top]
    exact Store.mem_preorder_self _ _
  · obtain ⟨hnp, hedge⟩ := h.edge p c hnc hc
    exact Store.mem_preorder_of_mem_under (ih hnp) hedge

/-- The slots of the view are mirrored when a log begins. -/
theorem mirrors (h : Ready v near own r₀) (hv : v.tree.Sound) (tree : v.tree.IsTree)
    (reached : ∀ x, x < v.tree.store.size → v.Reaches x) (hnear : ∀ x, own x → near x) :
    Store.Mirrors (slotOf v r₀) near own v.tree.store.layer {} v.tree.root r₀.store r₀.forward
      r₀.root := by
  have hcoherent := h.standing.traced.coherent
  constructor
  · intro i
    rw [Store.size_layer]
    exact slotOf_add v r₀ i
  · intro x hx
    rw [Store.size_layer] at hx
    rw [slotOf_of_lt r₀ hx]
    exact Forward.resolve_lt hcoherent.ascending (Nat.lt_of_lt_of_le hx h.base)
  · rw [slotOf_of_lt r₀ hv.root]
    exact h.top
  · intro x hx
    rw [Store.size_layer] at hx
    rw [slotOf_of_lt r₀ hx]
    exact Forward.links_resolve hcoherent.ascending x
  · intro x n hx hn
    rw [Store.get?_layer] at hn
    have hlt := Store.lt_size_of_get? hn
    obtain ⟨k, hk, rfl⟩ := Option.map_eq_some_iff.1 (h.value x n hx hn)
    rw [slotOf_of_lt r₀ hlt, hk, Node.mapChildren_mapChildren,
      Node.mapChildren_eq_self fun y hy => ?_]
    -- the children are of the current generation, so they are the current copies of their origins
    have hearly := hv.store.earlier x _ hn _ (List.mem_map_of_mem hy)
    rw [← h.standing.sound.under_eq hk] at hy
    have hreached := Store.mem_preorder_of_mem_under (h.reached (reached x hlt) (hnear x hx)) hy
    rw [slotOf_of_lt r₀ (Nat.lt_trans hearly hlt), hcoherent.resolve_origin,
      h.standing.traced.resolve_eq_self hreached]
  · intro p c hc hmem
    rw [Store.under_layer] at hmem
    have hlt := Store.lt_size_of_mem_under hmem
    rw [slotOf_of_lt r₀ hlt, slotOf_of_lt r₀ (Nat.lt_trans (Store.lt_of_mem_under hmem) hlt)]
    exact h.edge p c hc hmem
  · intro x hx hnx _
    rw [Store.size_layer] at hx
    rw [Store.parent?_layer, slotOf_of_lt r₀ hx]
    rcases Store.eq_or_exists_lister (reached x hx) with rfl | ⟨p, hp, hxp⟩
    · rw [h.top, h.standing.root_free, tree.root_free]
      rfl
    · obtain ⟨hnp, hedge⟩ := h.edge p x hnx hxp
      rw [tree.linked p hp x hxp, h.standing.linked _ (h.reached hp hnp) _ hedge, Option.map_some,
        slotOf_of_lt r₀ (Store.lt_size_of_mem_under hxp)]

end Ready

/-! ### A log in step with its shadow -/

/-- The log of an overlay has been carried out on `r₀`, as the mirror of what it did in the
shadow. -/
structure Follows (v : View) (near own : NodeId → Prop) (r₀ : Replay) (o : Overlay) (r : Replay) :
    Prop where
  mirrors : Store.Mirrors (slotOf v r₀) near own o.shadow o.forward o.root r.store r.forward r.root
  standing : r.store.Standing r.forward r.root
  base : v.tree.store.size ≤ r.store.size
  view : ∀ x, x < v.tree.store.size → r.rename x = x ∧ r.forward.origin x = x ∧
    r.forward.origin (slotOf v r₀ x) = x
  new : ∀ c ∈ o.created, r.rename c.id = slotOf v r₀ c.id

theorem Ready.follows (h : Ready v near own r₀) (hv : v.tree.Sound) (tree : v.tree.IsTree)
    (reached : ∀ x, x < v.tree.store.size → v.Reaches x) (hnear : ∀ x, own x → near x)
    (worker : WorkerId) (block : Option NodeId) :
    Follows v near own r₀ { v.newOverlay block with worker } { r₀ with imported := ∅ } where
  mirrors := h.mirrors hv tree reached hnear
  standing := h.standing
  base := h.base
  view x hx := by
    refine ⟨by simp [rename], h.original x hx, ?_⟩
    rw [slotOf_of_lt r₀ hx]
    exact (h.standing.traced.coherent.origin_resolve x).trans (h.original x hx)
  new c hc := by simp [View.newOverlay] at hc

theorem Follows.withGuard (h : Follows v near own r₀ o r) (guard : Guard) :
    Follows v near own r₀ { o with guard } r :=
  ⟨h.mirrors, h.standing, h.base, h.view, h.new⟩

namespace Follows

variable (h : Follows v near own r₀ o r) (ho : Overlay.Sound v o)
  (ht : o.shadow.Standing o.forward o.root)
include h ho

/-- A replay adds as many slots as the worker did. -/
theorem size_eq : r.store.size + v.tree.store.size = r₀.store.size + o.shadow.size := by
  obtain ⟨i, hi⟩ := Nat.exists_eq_add_of_le ho.base
  have hshift : r₀.store.size + i = r.store.size := by
    rw [← slotOf_add v, ← hi]
    exact h.mirrors.shift 0
  omega

include ht

/-- A name of the log is found at the mirror of its current copy. -/
theorem locate_eq (hx : Named v.tree.store.size o.created x) :
    r.locate x = slotOf v r₀ (o.forward.resolve x) := by
  have hresolve := h.mirrors.resolve_eq ht.traced.coherent.ascending
    h.standing.traced.coherent.ascending (ho.lt_size_of_named hx)
  show r.forward.resolve (r.rename x) = _
  rw [← hresolve]
  rcases hx with hview | ⟨c, hc, rfl⟩
  · obtain ⟨hname, horigin, hslot⟩ := h.view x hview
    rw [hname]
    exact h.standing.traced.coherent.resolve_eq_iff.2 (horigin.trans hslot.symm)
  · rw [h.new c hc]

theorem locate_origin (hx : x < o.shadow.size) :
    r.locate (o.forward.origin x) = slotOf v r₀ (o.forward.resolve x) := by
  rw [h.locate_eq ho ht (ho.named x hx), ht.traced.coherent.resolve_origin]

/-- The next node of the log is brought over as the mirror of the one that the worker made. -/
theorem create (hown : ∀ x, v.tree.store.size ≤ x → own x) (hnear : ∀ x, own x → near x) {n : Node}
    (checked : o.shadow.check (n.mapChildren o.forward.resolve) = .ok ())
    (room : r.store.checkRoom 1 = .ok ()) :
    ∃ r', r.importNode ⟨o.shadow.size, n.mapChildren o.forward.origin, o.recordCount⟩ = .ok r' ∧
      Follows v near own r₀
        { o with
          shadow := o.shadow.append [n.mapChildren o.forward.resolve]
          created := o.created ++
            [⟨o.shadow.size, n.mapChildren o.forward.origin, o.recordCount⟩] } r' := by
  have hchildren := ((Store.check_eq_ok_iff _ _).1 checked).2.1
  have hnode : (n.mapChildren o.forward.origin).mapChildren r.locate =
      (n.mapChildren o.forward.resolve).mapChildren (slotOf v r₀) := by
    rw [Node.mapChildren_mapChildren, Node.mapChildren_mapChildren]
    refine Node.mapChildren_congr fun x hx => h.locate_origin ho ht ?_
    exact Nat.lt_of_le_of_lt (Forward.le_resolve ho.ascending x)
      (hchildren _ (List.mem_map_of_mem hx))
  have hslot : slotOf v r₀ o.shadow.size = r.store.size := h.mirrors.shift 0
  have hbring : r.importNode ⟨o.shadow.size, n.mapChildren o.forward.origin, o.recordCount⟩ =
      .ok { r with
        store := r.store.append [(n.mapChildren o.forward.resolve).mapChildren (slotOf v r₀)]
        imported := r.imported.insert o.shadow.size r.store.size } := by
    rw [importNode, hnode, Store.push, room]
  refine ⟨_, hbring, ?_, ?_, ?_, ?_, ?_⟩
  · exact h.mirrors.append ht h.standing hchildren (hnear _ (hown _ ho.base))
  · exact h.standing.append (List.forall_mem_map.2 fun y hy => h.mirrors.lt y (hchildren y hy))
  · rw [Store.size_append]
    exact Nat.le_trans h.base (Nat.le_add_right _ _)
  · intro x hx
    rw [rename_importNode hbring, if_neg (Nat.ne_of_lt (Nat.lt_of_lt_of_le hx ho.base))]
    exact h.view x hx
  · intro c hc
    rw [rename_importNode hbring]
    rcases List.mem_append.1 hc with hc | hc
    · rw [if_neg (Nat.ne_of_lt (ho.ids c hc).2)]
      exact h.new c hc
    · rw [List.mem_singleton.1 hc, if_pos rfl]
      exact hslot.symm

/-- The next record of the log is carried out as the mirror of what the worker did. -/
theorem commit (hr₀ : Ready v near own r₀) (hnear : ∀ x, own x → near x) {e : Edit}
    {above : List NodeId} {current : Node} {shadow : Store} {rebuilt : Rebuilt}
    (target : StableId)
    (hedited : Store.Edited o.shadow o.forward o.root (e.mapIds o.forward.resolve) above current
      shadow rebuilt)
    (linked' : shadow.Linked rebuilt.root)
    (htarget : own (o.forward.origin (e.mapIds o.forward.resolve).target))
    (henters : ∀ x, (e.mapIds o.forward.resolve).entering? = some x →
      ∀ y ∈ o.shadow.preorder x, own (o.forward.origin y))
    (depth : above.length + 1 ≤ most) (room : r.store.checkRoom (above.length + 1) = .ok ()) :
    ∃ r', r.applyRecord most
        ⟨o.recordCount, target, e.mapIds (o.forward.record rebuilt).origin, o.worker⟩ = .ok r' ∧
      Follows v near own r₀ (o.commit target e shadow rebuilt) r' := by
  have hσ := hr₀.slotOf_injective
  -- the log goes back to the nodes that the worker named, and the replay finds their mirrors
  have hids : (e.mapIds (o.forward.record rebuilt).origin).mapIds r.locate =
      (e.mapIds o.forward.resolve).mapIds (slotOf v r₀) := by
    rw [ho.mapIds_origin hedited, Edit.mapIds_mapIds, Edit.mapIds_mapIds]
    exact Edit.mapIds_congr fun x hx => h.locate_origin ho ht (ho.lt_size_of_mem_ids hedited hx)
  obtain ⟨store, rebuilt', happly, hmirror⟩ :=
    h.mirrors.exists_edited hσ ht h.standing hnear hedited henters htarget depth room
  have hstanding := h.mirrors.standing_edited hσ ht h.standing hnear hedited henters linked' hmirror
  have ht' := ht.edited hedited ((hedited.linked_iff ht.sound ht.once ht.linked).1 linked')
  refine ⟨{ r with
      store, root := rebuilt'.root, forward := r.forward.record rebuilt'
      rebuilt := r.rebuilt + rebuilt'.copies.length }, ?_, ?_, hstanding, ?_, ?_, h.new⟩
  · rw [applyRecord, hids, happly]
  · exact h.mirrors.edited hσ ht h.standing hedited hmirror hnear htarget henters ht' hstanding
  · exact Nat.le_trans h.base hmirror.size_le
  · intro x hx
    obtain ⟨hname, horigin, hslot⟩ := h.view x hx
    refine ⟨hname, ?_, ?_⟩
    · exact (hmirror.origin_old (Nat.lt_of_lt_of_le hx h.base)).trans horigin
    · have hlt := h.mirrors.lt x (Nat.lt_of_lt_of_le hx ho.base)
      exact (hmirror.origin_old hlt).trans hslot

end Follows

end Replay

/-! ### The whole log -/

/-- A layer on top of a tree. -/
theorem Tree.IsTree.standing_layer {t : Tree} (h : t.IsTree) (ht : t.Sound) :
    t.store.layer.Standing {} t.root where
  sound := ht.store.layer
  root_lt := (Store.size_layer _).symm ▸ ht.root
  root_free := (Store.parent?_layer _ _).trans h.root_free
  traced := Store.traced_empty _ _
  once := Store.uniqueListers_of_nodup (by rw [Store.preorder_layer]; exact h.once)
  linked p hp c hc := by
    rw [Store.preorder_layer] at hp
    rw [Store.under_layer] at hc
    rw [Store.parent?_layer]
    exact h.linked p hp c hc

namespace Overlay

variable {v : View} {o : Overlay} {own : NodeId → Prop}

/-- The shadow of an overlay whose generations are trees. -/
theorem standing_of_runs (hv : v.tree.Sound) (tree : v.tree.IsTree) (h : v.Runs IsTree o) :
    o.shadow.Standing o.forward o.root := by
  refine h.induction (I := fun o => o.IsTree → o.shadow.Standing o.forward o.root) ?_ ?_ h.here
  · intro worker block _ _
    exact tree.standing_layer hv
  · intro o o' g _ before ih hstep here
    have ht := ih before.here
    cases hstep with
    | refused guard limits => exact ht
    | created n checked room => exact ht.append ((Store.check_eq_ok_iff _ _).1 checked).2.1
    | recorded guard limits get_target planned depth rebuilt =>
      obtain ⟨above, current, -, hedited⟩ := edited_of_plan planned rebuilt
      exact ht.edited hedited ((hedited.linked_iff ht.sound ht.once ht.linked).1 here.linked)

/-- What a worker targets and what stands at or below a node that the worker takes out is the
worker's own. -/
structure KeepsTo (v : View) (own : NodeId → Prop) (o : Overlay) : Prop where
  targets : ∀ x, o.Targets x → own x
  out : ∀ c x, v.Reaches c → o.TakesOut c → x ∈ v.tree.store.preorder c → own x

theorem KeepsTo.of_commit {target : StableId} {e : Edit} {shadow : Store} {rebuilt : Rebuilt}
    (h : KeepsTo v own (o.commit target e shadow rebuilt)) : KeepsTo v own o where
  targets x hx := h.targets x (hx.commit target e shadow rebuilt)
  out c x hc hout := h.out c x hc (hout.commit target e shadow rebuilt)

section

variable {name : StableId} {e : Edit} {above : List NodeId} {current : Node} {shadow : Store}
  {rebuilt : Rebuilt} (keeps : KeepsTo v own (o.commit name e shadow rebuilt))
  (hv : v.tree.Sound) (before : v.Runs IsTree o)
  (hedited : Store.Edited o.shadow o.forward o.root (e.mapIds o.forward.resolve) above current
    shadow rebuilt)
include keeps hv before hedited

theorem KeepsTo.own_target : own (o.forward.origin (e.mapIds o.forward.resolve).target) := by
  have hsound := Sound.of_runs hv before
  have horigin := (keepsOrigins_of_runs hv before).origin_resolve hsound.ascending
  refine keeps.targets _ ?_
  rw [Targets, records_commit]
  refine ⟨_, List.mem_append_right _ List.mem_cons_self, ?_⟩
  rw [hsound.mapIds_origin hedited, Edit.target_mapIds, Edit.target_mapIds, horigin]

/-- What comes in is a node that the worker made or has taken out. -/
theorem KeepsTo.own_entering (tree : v.tree.IsTree)
    (reached : ∀ x, x < v.tree.store.size → v.Reaches x)
    (hown : ∀ x, v.tree.store.size ≤ x → own x) {x y : NodeId}
    (hx : (e.mapIds o.forward.resolve).entering? = some x) (hy : y ∈ o.shadow.preorder x) :
    own (o.forward.origin y) := by
  rcases Nat.lt_or_ge (o.forward.origin y) v.tree.store.size with hlt | hge
  · have hout : ¬(o.commit name e shadow rebuilt).Stays v (o.forward.origin y) :=
      not_stays_of_entering hv tree before hedited hx hy
    by_contra hnot
    refine hout ⟨reached _ hlt, fun z hz hyz htakes => ?_⟩
    exact hnot (keeps.out z _ hz htakes hyz)
  · exact hown _ hge

end

end Overlay

namespace Replay

variable {v : View} {near own : NodeId → Prop} {r₀ r : Replay} {o : Overlay}

/-- The log of an overlay can be carried out on `r₀`, as the mirror of what it did in the shadow. -/
def CarriesOut (v : View) (near own : NodeId → Prop) (r₀ : Replay) (o : Overlay) : Prop :=
  ∃ r, o.toSealed.events.foldlM (step v.shared.limits.maxDepth) r₀ = .ok r ∧
    Along v.shared.limits.maxDepth ReachesOnce o.toSealed.events r₀ ∧ Follows v near own r₀ o r

/-- One entry more. -/
theorem CarriesOut.concat {o' : Overlay} {r' : Replay} {ev : Event}
    (hfold : o.toSealed.events.foldlM (step v.shared.limits.maxDepth) r₀ = .ok r)
    (halong : Along v.shared.limits.maxDepth ReachesOnce o.toSealed.events r₀)
    (hevents : o'.toSealed.events = o.toSealed.events ++ [ev])
    (hstep : step v.shared.limits.maxDepth r ev = .ok r') (h : Follows v near own r₀ o' r') :
    CarriesOut v near own r₀ o' := by
  rw [CarriesOut, hevents]
  exact ⟨r', foldlM_concat hfold hstep, halong.concat hfold hstep h.standing.once.nodup_preorder, h⟩

/-- The log of a worker who keeps to what the others have left alone can be carried out. -/
theorem carriesOut_of_runs (hr₀ : Ready v near own r₀) (hv : v.tree.Sound) (tree : v.tree.IsTree)
    (reached : ∀ x, x < v.tree.store.size → v.Reaches x) (hnear : ∀ x, own x → near x)
    (hown : ∀ x, v.tree.store.size ≤ x → own x) (h : v.Runs Overlay.IsTree o)
    (keeps : o.KeepsTo v own)
    (room : r₀.store.size + o.shadow.size ≤ Store.capacity + v.tree.store.size) :
    CarriesOut v near own r₀ o := by
  -- premises about the overlay go along, since each holds of all states before it as well
  refine h.induction (I := fun o => o.IsTree → o.KeepsTo v own →
    r₀.store.size + o.shadow.size ≤ Store.capacity + v.tree.store.size →
    CarriesOut v near own r₀ o) ?_ ?_ h.here keeps room
  · intro worker block _ _ _ _
    have honce : r₀.ReachesOnce := hr₀.standing.once.nodup_preorder
    exact ⟨{ r₀ with imported := ∅ }, rfl, (Along.nil honce).concat rfl rfl honce,
      hr₀.follows hv tree reached hnear worker block⟩
  · intro o o' g limits before ih hstep here keeps room
    have hsound := Overlay.Sound.of_runs hv before
    have ht := Overlay.standing_of_runs hv tree before
    cases hstep with
    | refused guard _ =>
      obtain ⟨r, hfold, halong, hfollows⟩ := ih before.here ⟨keeps.targets, keeps.out⟩ room
      exact ⟨r, hfold, halong, hfollows.withGuard guard⟩
    | created n checked _ =>
      rw [Store.size_append, List.length_singleton] at room
      obtain ⟨r, hfold, halong, hfollows⟩ :=
        ih before.here ⟨keeps.targets, keeps.out⟩ (Nat.le_of_succ_le room)
      have hsize := hfollows.size_eq hsound
      obtain ⟨r', hbring, hfollows'⟩ := hfollows.create hsound ht hown hnear checked
        (if_pos (by omega))
      have hevents := events_append_created 0 o.created o.records (c := ⟨o.shadow.size,
        n.mapChildren o.forward.origin, o.recordCount⟩) (by simp)
      exact .concat hfold halong (congrArg (Event.enter :: ·) hevents) hbring hfollows'
    | @recorded e node value way shadow rebuilt guard _ get_target planned depth hrebuild =>
      obtain ⟨above, current, rfl, hedited⟩ := Overlay.edited_of_plan planned hrebuild
      have hgrown : shadow.size = o.shadow.size + (above.length + 1) := hedited.copied.size_eq
      have hlater : r₀.store.size + shadow.size ≤ Store.capacity + v.tree.store.size := room
      have hkeeps : (o.commit node.stableId e shadow rebuilt).KeepsTo v own :=
        ⟨keeps.targets, keeps.out⟩
      obtain ⟨r, hfold, halong, hfollows⟩ := ih before.here hkeeps.of_commit (by omega)
      have hsize := hfollows.size_eq hsound
      rw [limits] at depth
      obtain ⟨r', hredo, hfollows'⟩ := hfollows.commit hsound ht hr₀ hnear node.stableId hedited
        here.linked (hkeeps.own_target hv before hedited)
        (fun x hx y hy => hkeeps.own_entering hv before hedited tree reached hown hx hy) depth
        (if_pos (by omega))
      have hevents := hsound.events_commit node.stableId e shadow rebuilt
      exact .concat hfold halong (congrArg (Event.enter :: ·) hevents) hredo
        (hfollows'.withGuard guard)

end Replay

end TreeEdit
