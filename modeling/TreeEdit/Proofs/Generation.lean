import TreeEdit.Proofs.Building
import TreeEdit.Proofs.Editing

/-!
# Generations as trees

`Context.IsTree` says that the current generation of an editor is a tree: no slot is reached twice,
links and child lists agree, and nothing that is reached has been copied. A finished tree is one,
and `Context.isTree_perform_iff` says when the next generation is one as well: a request must not
bring in a subtree that is not settled. `Context.isTree_run_iff_settled` is the same of whole runs,
from any finished tree.

The condition is not empty. A node that has left the tree keeps its children, another node may adopt
one of them and leave again, and then the links below the first node are wrong where the walk that
sets links does not look. `strayCalls` does this, and gets a slot into the tree at two places.
-/

namespace TreeEdit

namespace Context

variable {c c' : Context} {call : Call}

/-- The current generation is a tree. -/
structure IsTree (c : Context) : Prop where
  once : (c.store.preorder c.root).Nodup
  root_free : c.store.parent? c.root = none
  linked : ∀ x ∈ c.store.preorder c.root, x ≠ c.root →
    ∃ p ∈ c.store.preorder c.root, c.store.parent? x = some p ∧ x ∈ c.store.children p ∧
      ∀ q ∈ c.store.preorder c.root, x ∈ c.store.children q → q = p
  current : ∀ x ∈ c.store.preorder c.root, c.forward.isSuperseded x = false

/-! ### Links of a tree -/

theorem IsTree.links (hs : c.store.Sound) (h : c.IsTree) : c.store.Linked c.root := by
  intro p hp x hx
  have hroot : x ≠ c.root := by
    rintro rfl
    exact absurd (Store.lt_of_mem_under hx) (Nat.not_lt.2 (Store.le_of_mem_preorder hp))
  obtain ⟨q, -, hlink, -, hone⟩ := h.linked x (Store.mem_preorder_of_mem_under hp hx) hroot
  rw [hs.under_eq_children] at hx
  rw [hlink, hone p hp hx]

/-- In place of a lister for each node, the links of all children. -/
theorem isTree_iff (hs : c.store.Sound) :
    c.IsTree ↔ c.store.UniqueListers c.root ∧ c.store.Linked c.root ∧
      c.store.parent? c.root = none ∧
      ∀ x ∈ c.store.preorder c.root, c.forward.isSuperseded x = false := by
  constructor
  · intro h
    exact ⟨Store.uniqueListers_of_nodup h.once, h.links hs, h.root_free, h.current⟩
  · rintro ⟨once, linked, free, current⟩
    refine ⟨once.nodup_preorder, free, fun x hx hroot => ?_, current⟩
    obtain ⟨p, hp, hxp⟩ := (Store.eq_or_exists_lister hx).resolve_left hroot
    refine ⟨p, hp, linked p hp x hxp, by rwa [← hs.under_eq_children], fun q hq hxq => ?_⟩
    rw [← hs.under_eq_children] at hxq
    exact once.lister_eq q hq p hp x hxq hxp

/-! ### The first generation -/

theorem isTree_ofTree {nodes : List Node} {root : NodeId} {t : Tree}
    (h : (Store.build nodes).finish root = .ok t) (limits : Limits) :
    (ofTree t limits).Sound ∧ (ofTree t limits).IsTree := by
  have hs : (ofTree t limits).Sound := .ofTree (Store.sound_finish h) limits
  obtain ⟨rfl, hroot, hnodup, links, hstore, hlisted, hkept⟩ := Store.finish_eq_ok h
  have hunder : ∀ x, (ofTree t limits).store.under x = (Store.build nodes).under x := fun x =>
    Store.under_congr (by simp [ofTree, hstore])
  have hpre : (ofTree t limits).store.preorder t.root = (Store.build nodes).preorder t.root :=
    Store.preorder_congr fun x _ => hunder x
  refine ⟨hs, (isTree_iff hs.store).2 ⟨?_, fun p hp c hc => ?_, ?_, fun _ _ => rfl⟩⟩
  · refine Store.uniqueListers_of_nodup ?_
    show ((ofTree t limits).store.preorder t.root).Nodup
    rwa [hpre]
  · rw [hunder] at hc
    show t.store.layer.parent? c = some p
    rw [Store.parent?_layer]
    exact hlisted p (hpre ▸ hp) c hc
  · show t.store.layer.parent? t.root = none
    rw [Store.parent?_layer, hkept t.root fun p hp hmem => ?_, Store.parent?_build]
    exact absurd (Store.lt_of_mem_under hmem) (Nat.not_lt.2 (Store.le_of_mem_preorder hp))

/-! ### The next generation -/

/-- Nothing is said of a request that is refused or brings nothing in; a subtree that comes in has
to be settled. -/
def BringsSettled (c : Context) (call : Call) : Prop :=
  ∀ x, call.entering? = some x → (c.perform call).2 = .ok none → c.store.Settled x

theorem IsTree.of_eq (h : c.IsTree) (store : c'.store = c.store) (root : c'.root = c.root)
    (forward : c'.forward = c.forward) : c'.IsTree := by
  obtain ⟨once, free, linked, current⟩ := h
  constructor
  · rwa [store, root]
  · rwa [store, root]
  · rwa [store, root]
  · rwa [store, root, forward]

theorem IsTree.create (hs : c.Sound) (h : c.IsTree) {n : Node}
    (store : c'.store = c.store.append [n]) (root : c'.root = c.root)
    (forward : c'.forward = c.forward) : c'.IsTree := by
  have hpre : c'.store.preorder c'.root = c.store.preorder c.root := by
    rw [store, root, Store.preorder_append_of_lt _ hs.root]
  have hchildren : ∀ q ∈ c.store.preorder c.root, c'.store.children q = c.store.children q := by
    intro q hq
    have hlt := Nat.lt_of_le_of_lt (Store.le_of_mem_preorder hq) hs.root
    rw [store, Store.children, Store.children, Store.get?_append_of_lt _ hlt]
  obtain ⟨once, free, linked, current⟩ := h
  constructor
  · rwa [hpre]
  · rwa [store, root, Store.parent?_append]
  · rw [hpre, root]
    intro x hx hroot
    obtain ⟨p, hp, hlink, hmem, hone⟩ := linked x hx hroot
    refine ⟨p, hp, by rwa [store, Store.parent?_append], by rwa [hchildren p hp], fun q hq => ?_⟩
    rw [hchildren q hq]
    exact hone q hq
  · rwa [hpre, forward]

/-- A tree is followed by a tree exactly if no unsettled subtree is brought in. -/
theorem isTree_perform_iff (c : Context) (call : Call) (hs : c.Sound) (h : c.IsTree) :
    (c.perform call).1.IsTree ↔ c.BringsSettled call := by
  have hs' := hs.perform call
  have hstep := step_perform c call
  rw [BringsSettled]
  generalize c.perform call = out at hs' hstep ⊢
  obtain ⟨c', answer⟩ := out
  dsimp only at hs' hstep ⊢
  cases hstep with
  | refused err store root forward limits =>
    simp [h.of_eq store root forward]
  | created n asked checked recent store root forward limits =>
    simp [h.create hs store root forward]
  | @edited e above current r asked found done root forward limits =>
    obtain ⟨once, linked, -, recent⟩ := (isTree_iff hs.store).1 h
    have hfree : c'.store.parent? c'.root = none := by
      rw [root]
      exact done.parent?_root hs.store
    rw [isTree_iff hs'.store, root, forward, ← Call.entering?_of_edit? asked]
    constructor
    · rintro ⟨-, linked', -⟩ x hx -
      exact (done.linked_iff hs.store once linked).1 linked' x hx
    · intro settled
      refine ⟨done.uniqueListers hs.store once linked, ?_, root ▸ hfree, fun x hx => ?_⟩
      · exact (done.linked_iff hs.store once linked).2 fun x hx => settled x hx rfl
      · exact done.isSuperseded_eq_false hs.store once hs.forward recent hx

/-! ### A stray link -/

/-- An identifier on a line. -/
def leafAt (row : Nat) : Node :=
  { attributes := { kind := .identifier, range := ⟨⟨row, 1⟩, ⟨row, 2⟩⟩, text := some "x" } }

/-- A block on a line. -/
def blockAt (row : Nat) (children : List NodeId) : Node :=
  { attributes := { kind := .block, range := ⟨⟨row, 1⟩, ⟨row, 9⟩⟩ }, children }

/-- Slot 4 lists 2 and 3; 2 lists 1, and 1 lists 0. -/
def strayNodes : List Node :=
  [leafAt 3, blockAt 4 [0], blockAt 2 [1], leafAt 5, blockAt 1 [2, 3]]

/-- The tree below slot 4. -/
def strayTree : Tree :=
  ((Store.build strayNodes).finish 4).toOption.getD ⟨.empty, 0⟩

/-- Take out slot 2. Let slot 6 adopt slot 0, come in and leave again. Put slot 2 back, which leaves
the link of slot 0 at slot 6. So slot 10 may come in with slot 0 once more. -/
def strayCalls : List Call :=
  [.remove 4 2, .create (blockAt 6 [0]), .insert .before 5 6 3, .remove 7 6,
    .insert .before 8 2 3, .create (blockAt 7 [0]), .insert .before 9 10 3]

/-- The tree after five of the requests. Slot 9 is the root now, and below it stands what stood
below slot 4 at first, but the link of slot 0 still names slot 6, which has left the tree. The link
of slot 6 names the root of an earlier generation. -/
def strayed : Tree :=
  ((ofTree strayTree .single).run (strayCalls.take 5)).tree

theorem finish_strayNodes : (Store.build strayNodes).finish 4 = .ok strayTree := by
  have hok : ((Store.build strayNodes).finish 4).isOk = true := by decide +kernel
  unfold strayTree
  cases hfinish : (Store.build strayNodes).finish 4 with
  | ok t => rfl
  | error err =>
    rw [hfinish] at hok
    cases hok

/-! ### Runs -/

/-- From any finished tree, every generation of a run is a tree exactly if no request of the run
brings in a subtree that is not settled at that time. -/
theorem isTree_run_iff_settled (nodes : List Node) (root : NodeId) (t : Tree) (limits : Limits)
    (calls : List Call) (h : (Store.build nodes).finish root = .ok t) :
    (∀ earlier, earlier <+: calls → ((ofTree t limits).run earlier).IsTree) ↔
      ∀ earlier call, earlier ++ [call] <+: calls →
        ((ofTree t limits).run earlier).BringsSettled call :=
  have ⟨hs, htree⟩ := isTree_ofTree h limits
  hs.run_iff isTree_perform_iff htree calls

/-- The condition on a run that breaks it. -/
theorem isTree_run_iff_settled_stray :
    (Store.build strayNodes).finish 4 = .ok strayTree ∧
      ((∀ earlier, earlier <+: strayCalls → ((ofTree strayTree .single).run earlier).IsTree) ↔
        ∀ earlier call, earlier ++ [call] <+: strayCalls →
          ((ofTree strayTree .single).run earlier).BringsSettled call) :=
  ⟨finish_strayNodes, isTree_run_iff_settled strayNodes 4 strayTree .single strayCalls
    finish_strayNodes⟩

/-- The link of slot 0 names a slot that is not in the tree, and one edit later slot 0 is reached
twice. -/
theorem not_isTree_strayCalls :
    (Store.build strayNodes).finish 4 = .ok strayTree ∧
      ((ofTree strayTree .single).run (strayCalls.take 5)).store.parent? 0 = some 6 ∧
      ¬((ofTree strayTree .single).run (strayCalls.take 5)).IsTree ∧
      ((ofTree strayTree .single).run strayCalls).store.preorder 11 = [11, 2, 1, 0, 10, 0, 3] ∧
      ¬((ofTree strayTree .single).run strayCalls).IsTree := by
  refine ⟨finish_strayNodes, by decide +kernel, fun h => ?_, by decide +kernel, fun h => ?_⟩
  · obtain ⟨p, hp, hlink, -⟩ := h.linked 0 (by decide +kernel) (by decide +kernel)
    have hsix : p = 6 := Option.some.inj (hlink.symm.trans (by decide +kernel))
    exact absurd (hsix ▸ hp) (by decide +kernel)
  · exact absurd h.once (by decide +kernel)

end Context

end TreeEdit
