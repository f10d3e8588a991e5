import TreeEdit.Proofs.Comparing
import TreeEdit.Proofs.Detection
import TreeEdit.Proofs.Scripts

/-!
# The order of workers cannot be observed

A batch is replayed in the order of its workers. If the same scripts are played by other workers,
then nodes are brought over and copied in another order, and every slot after those of the view may
be another one. `Replay.Twins` pairs the nodes of two such replays: a node of the view with itself,
and a node that a worker made with what the worker of the same script made at that point. The values
of twins have the same attributes and twins for children, whoever else has changed the tree. So the
current copies of twins unfold to the same tree, and from the roots on the merged trees compare as
equal.
-/

namespace TreeEdit

section Lists

variable {α β : Type} {R : α → β → Prop} {xs : List α} {ys : List β}

theorem exists_of_mem_right (h : List.Forall₂ R xs ys) {y : β} (hy : y ∈ ys) :
    ∃ x ∈ xs, R x y := by
  induction h with
  | nil => cases hy
  | @cons x y' xs ys hxy _ ih =>
    rcases List.mem_cons.1 hy with rfl | hy
    · exact ⟨x, List.mem_cons_self, hxy⟩
    · obtain ⟨x', hx', hR⟩ := ih hy
      exact ⟨x', List.mem_cons_of_mem _ hx', hR⟩

theorem exists_of_mem_left (h : List.Forall₂ R xs ys) {x : α} (hx : x ∈ xs) :
    ∃ y ∈ ys, R x y :=
  have hflip : List.Forall₂ (flip R) ys xs := List.Forall₂.flip h
  exists_of_mem_right hflip hx

end Lists

/-! ### Values and current copies -/

namespace Store

variable {s : Store} {f : Forward} {root x : NodeId} {n : Node}

/-- The current copy of a reached node lists the current copies of the children in its value. -/
theorem Traced.get?_resolve (ht : s.Traced f root) (hs : s.Sound)
    (hx : f.resolve x ∈ s.preorder root) (hn : s.valueOf f x = some n) :
    s.get? (f.resolve x) = some (n.mapChildren f.resolve) := by
  obtain ⟨k, hk, rfl⟩ := Option.map_eq_some_iff.1 hn
  rw [hk, Node.mapChildren_mapChildren, Node.mapChildren_eq_self]
  intro c hc
  rw [← hs.under_eq hk] at hc
  rw [ht.coherent.resolve_origin, ht.resolve_eq_self (mem_preorder_of_mem_under hx hc)]

end Store

theorem reviseAll_congr {records records' : List Record}
    (h : records'.map (·.edit) = records.map (·.edit)) (x : NodeId) (n : Node) :
    reviseAll records' x n = reviseAll records x n := by
  have hfold : ∀ rs : List Record, reviseAll rs x n =
      (rs.map (·.edit)).foldl (fun n e => if e.target = x then e.revise n else n) n := by
    intro rs
    rw [List.foldl_map]
    rfl
  rw [hfold, hfold, h]

/-- What a node lists after all records is named by the log. -/
theorem Overlay.Sound.named_of_mem_reviseAll {v : View} {o : Overlay} (h : Sound v o)
    (hv : v.tree.Sound) {x c : NodeId} {n : Node} (hn : StartsAs v o.created x n)
    (hc : c ∈ (reviseAll o.records x n).children) : Named v.tree.store.size o.created c := by
  have hstart := hn.children_named hv h.inOrder (List.prefix_refl _)
  refine mem_children_reviseAll hstart (fun record hrecord y hy => ?_) hc
  obtain ⟨k, hk⟩ := List.mem_iff_getElem?.1 hrecord
  exact (h.recorded k record hk y hy).mono (List.filter_subset_self _)

namespace Overlay.SameWork

variable {a b : Overlay} {x : NodeId}

theorem symm (h : SameWork a b) : SameWork b a :=
  ⟨h.shadow.symm, h.root.symm, h.forward.symm, h.created.symm, h.edits.symm⟩

theorem targets (h : SameWork a b) (ha : a.Targets x) : b.Targets x := by
  obtain ⟨record, hrecord, rfl⟩ := ha
  have hedit : record.edit ∈ b.records.map (·.edit) := by
    rw [h.edits]
    exact List.mem_map_of_mem hrecord
  obtain ⟨record', hrecord', hsame⟩ := List.mem_map.1 hedit
  exact ⟨record', hrecord', by rw [hsame]⟩

end Overlay.SameWork

/-! ### Twins -/

namespace Replay

variable {v w : View} {ρ σ : WorkerId → NodeId → NodeId} {past past' : List Overlay}
  {r r' : Replay} {x y : NodeId}

/-- A replay only depends on the tree of the view. -/
theorem Merges.of_tree (h : Merges w ρ past r) (tree : w.tree = v.tree) : Merges v ρ past r := by
  cases w
  dsimp only at tree
  subst tree
  exact { h with }

/-- One node in two replays: a node of the view, or what two workers made at one point of a
script. -/
def Twins (v : View) (ρ σ : WorkerId → NodeId → NodeId) (past past' : List Overlay)
    (x y : NodeId) : Prop :=
  (x < v.tree.store.size ∧ y = x) ∨ ∃ a ∈ past, ∃ b ∈ past', a.SameWork b ∧
    ∃ c ∈ a.created, x = ρ a.worker c.id ∧ y = σ b.worker c.id

/-- Two batches that have done the same work: no overlay of either is without a match. -/
structure Matched (past past' : List Overlay) : Prop where
  left : ∀ a ∈ past, ∃ b ∈ past', a.SameWork b
  right : ∀ b ∈ past', ∃ a ∈ past, a.SameWork b

theorem Matched.mergeSort (h : Matched past past') :
    Matched (past.mergeSort fun a b => a.worker ≤ b.worker)
      (past'.mergeSort fun a b => a.worker ≤ b.worker) where
  left a ha := by
    obtain ⟨b, hb, same⟩ := h.left a (List.mem_mergeSort.1 ha)
    exact ⟨b, List.mem_mergeSort.2 hb, same⟩
  right b hb := by
    obtain ⟨a, ha, same⟩ := h.right b (List.mem_mergeSort.1 hb)
    exact ⟨a, List.mem_mergeSort.2 ha, same⟩

variable (hv : v.tree.Sound) (h : Merges v ρ past r) (h' : Merges v σ past' r')
  (sound : ∀ a ∈ past, Overlay.Sound v a)

include h h' in
/-- What a log names is renamed to twins. -/
theorem twins_of_named {a b : Overlay} (ha : a ∈ past) (hb : b ∈ past') (same : a.SameWork b)
    (hx : Named v.tree.store.size a.created x) :
    Twins v ρ σ past past' (ρ a.worker x) (σ b.worker x) := by
  rcases hx with hview | ⟨c, hc, rfl⟩
  · rw [h.view a ha x hview, h'.view b hb x hview]
    exact Or.inl ⟨hview, rfl⟩
  · exact Or.inr ⟨a, ha, b, hb, same, c, hc, rfl, rfl⟩

/-- Values with the same attributes whose children are twins. -/
def TwinValues (v : View) (ρ σ : WorkerId → NodeId → NodeId) (past past' : List Overlay)
    (m n : Node) : Prop :=
  m.attributes = n.attributes ∧ List.Forall₂ (Twins v ρ σ past past') m.children n.children

include hv h h' sound in
/-- What two overlays that have done the same work make of a node. -/
theorem exists_values_of_sameWork {a b : Overlay} (ha : a ∈ past) (hb : b ∈ past')
    (same : a.SameWork b) {n : Node} (hn : StartsAs v a.created x n)
    (own : x < v.tree.store.size → a.Targets x) :
    ∃ m k, r.valueOf (ρ a.worker x) = some m ∧ r'.valueOf (σ b.worker x) = some k ∧
      TwinValues v ρ σ past past' m k := by
  have hn' : StartsAs v b.created x n := by rwa [same.created]
  have hvalue := h.own a ha x n hn own
  have hvalue' := h'.own b hb x n hn' fun hx => same.targets (own hx)
  rw [reviseAll_congr same.edits] at hvalue'
  refine ⟨_, _, hvalue, hvalue', rfl, ?_⟩
  simp only [Node.mapChildren, List.forall₂_map_left_iff, List.forall₂_map_right_iff]
  refine List.forall₂_same.2 fun c hc => twins_of_named h h' ha hb same ?_
  exact (sound a ha).named_of_mem_reviseAll hv hn hc

include hv h h' sound in
/-- The values of twins. -/
theorem exists_values_of_twins (matched : Matched past past')
    (twins : Twins v ρ σ past past' x y) :
    ∃ m n, r.valueOf x = some m ∧ r'.valueOf y = some n ∧ TwinValues v ρ σ past past' m n := by
  rcases twins with ⟨hx, rfl⟩ | ⟨a, ha, b, hb, same, c, hc, rfl, rfl⟩
  · obtain ⟨n, hn⟩ := hv.store.full y hx
    by_cases htargets : ∃ a ∈ past, a.Targets y
    · obtain ⟨a, ha, htargets⟩ := htargets
      obtain ⟨b, hb, same⟩ := matched.left a ha
      have hvalues := exists_values_of_sameWork hv h h' sound ha hb same (Or.inl hn) fun _ =>
        htargets
      rwa [h.view a ha y hx, h'.view b hb y hx] at hvalues
    · -- no worker of the one batch targets the node, so none of the other does
      have hnone : ∀ a ∈ past, ¬a.Targets y := fun a ha hta => htargets ⟨a, ha, hta⟩
      have hnone' : ∀ b ∈ past', ¬b.Targets y := by
        intro b hb htb
        obtain ⟨a, ha, same⟩ := matched.right b hb
        exact hnone a ha (same.symm.targets htb)
      refine ⟨n, n, h.untouched y n hn hnone, h'.untouched y n hn hnone', rfl, ?_⟩
      refine List.forall₂_same.2 fun c hc => Or.inl ⟨?_, rfl⟩
      exact Nat.lt_trans (hv.store.earlier y n hn c hc) hx
  · have hnew := ((sound a ha).ids c hc).1
    exact exists_values_of_sameWork hv h h' sound ha hb same (Or.inr ⟨c, hc, rfl, rfl⟩) fun hview =>
      absurd hview (Nat.not_lt.2 hnew)

include hv h h' sound in
/-- The current copies of twins unfold to the same tree. -/
theorem unfold_eq_of_twins (matched : Matched past past') (twins : Twins v ρ σ past past' x y)
    (hx : r.forward.resolve x ∈ r.store.preorder r.root)
    (hy : r'.forward.resolve y ∈ r'.store.preorder r'.root) :
    r.store.unfold (r.forward.resolve x) = r'.store.unfold (r'.forward.resolve y) := by
  obtain ⟨done, hr⟩ := h.sound
  obtain ⟨done', hr'⟩ := h'.sound
  -- the induction is on the slot of the current copy, since children come before their listers
  induction hslot : r.forward.resolve x using Nat.strong_induction_on generalizing x y with
  | _ slot ih =>
    subst hslot
    obtain ⟨m, n, hm, hn, hattributes, hchildren⟩ :=
      exists_values_of_twins hv h h' sound matched twins
    have hget := h.traced.get?_resolve hr.store hx hm
    have hget' := h'.traced.get?_resolve hr'.store hy hn
    rw [hr.store.unfold_eq hget, hr'.store.unfold_eq hget', Store.spread, Store.spread]
    simp only [Node.mapChildren, List.map_map, hattributes]
    congr 1
    obtain ⟨hlength, htwins⟩ := List.forall₂_iff_zip.1 hchildren
    refine (map_eq_map_iff_zip hlength).2 fun p hp => ?_
    obtain ⟨hleft, hright⟩ := List.of_mem_zip hp
    have hunder := h.traced.mem_under_of_valueOf hr.store hx hm hleft
    have hunder' := h'.traced.mem_under_of_valueOf hr'.store hy hn hright
    exact ih _ (Store.lt_of_mem_under hunder) (htwins hp)
      (Store.mem_preorder_of_mem_under hx hunder) (Store.mem_preorder_of_mem_under hy hunder') rfl

end Replay

namespace View

variable {v w : View} {os os' : List Overlay}

/-! ### Batches -/

theorem matched_of_plays {P Q : Overlay → Prop} (tree : w.tree = v.tree)
    {scripts scripts' : List (List (OverlayCall × Bool))} (same : scripts.Perm scripts')
    (plays : List.Forall₂ (v.Plays P) scripts os)
    (plays' : List.Forall₂ (w.Plays Q) scripts' os') : Replay.Matched os os' where
  left a ha := by
    obtain ⟨script, hscript, hplays⟩ := exists_of_mem_right plays ha
    obtain ⟨b, hb, hplays'⟩ := exists_of_mem_left plays' (same.mem_iff.1 hscript)
    exact ⟨b, hb, hplays.sameWork hplays' tree⟩
  right b hb := by
    obtain ⟨script, hscript, hplays'⟩ := exists_of_mem_right plays' hb
    obtain ⟨a, ha, hplays⟩ := exists_of_mem_left plays (same.mem_iff.2 hscript)
    exact ⟨a, ha, hplays.sameWork hplays' tree⟩

theorem runs_of_plays {P : Overlay → Prop} {scripts : List (List (OverlayCall × Bool))}
    (plays : List.Forall₂ (v.Plays P) scripts os) : ∀ o ∈ os, v.Runs P o := by
  intro o ho
  obtain ⟨script, -, hplays⟩ := exists_of_mem_right plays ho
  exact hplays.runs

/-- Two batches of overlays of one tree, possibly of different views, that play the same scripts.
Whatever the numbers of the workers are, and in whatever order the logs are handed in, the merged
trees compare as equal. -/
theorem merge_ignores_worker_order (hv : Lineage v.tree) (tree : w.tree = v.tree)
    {scripts scripts' : List (List (OverlayCall × Bool))} (same : scripts.Perm scripts')
    (plays : List.Forall₂ (v.Plays Overlay.ReachesOnce) scripts os)
    (plays' : List.Forall₂ (w.Plays Overlay.ReachesOnce) scripts' os')
    (workers : (os.map (·.worker)).Nodup) (workers' : (os'.map (·.worker)).Nodup)
    {outcome outcome' : MergeOutcome} (h : v.merge (os.map Overlay.toSealed) = .ok outcome)
    (h' : w.merge (os'.map Overlay.toSealed) = .ok outcome')
    (once : Replay.Along v.shared.limits.maxDepth Replay.ReachesOnce
      (View.script (os.map Overlay.toSealed)) v.replayStart)
    (once' : Replay.Along w.shared.limits.maxDepth Replay.ReachesOnce
      (View.script (os'.map Overlay.toSealed)) w.replayStart) :
    Tree.structurallyEq false outcome.tree outcome.tree.root outcome'.tree outcome'.tree.root =
      true := by
  have hruns := runs_of_plays plays
  have hruns' := runs_of_plays plays'
  obtain ⟨hconflicts, r, hreplay, htree⟩ := View.merge_eq_ok h
  obtain ⟨hconflicts', r', hreplay', htree'⟩ := View.merge_eq_ok h'
  have hmerges := merges_replay hv.sound hruns workers hconflicts once hreplay
  have hmerges' := (merges_replay (tree ▸ hv.sound) hruns' workers' hconflicts' once'
    hreplay').of_tree tree
  have hmatched := (matched_of_plays tree same plays plays').mergeSort
  have hroot : Replay.Twins v (v.importedAs (os.map Overlay.toSealed))
      (w.importedAs (os'.map Overlay.toSealed)) (os.mergeSort fun a b => a.worker ≤ b.worker)
      (os'.mergeSort fun a b => a.worker ≤ b.worker) v.tree.root v.tree.root :=
    Or.inl ⟨hv.sound.root, rfl⟩
  have hunfold := Replay.unfold_eq_of_twins hv.sound hmerges hmerges'
    (fun o ho => .of_runs hv.sound (hruns o (List.mem_mergeSort.1 ho))) hmatched hroot
    (by rw [hmerges.top]; exact Store.mem_preorder_self _ _)
    (by rw [hmerges'.top]; exact Store.mem_preorder_self _ _)
  rw [hmerges.top, hmerges'.top] at hunfold
  obtain ⟨done, hr⟩ := hmerges.sound
  obtain ⟨done', hr'⟩ := hmerges'.sound
  rw [htree, htree']
  exact (Tree.structurallyEq_iff false hr.store hr'.store (by simp) hr.root hr'.root).2 hunfold

/-- Wrap slot 0 and change it in there. -/
def wrappingScript : List (OverlayCall × Bool) :=
  [(.shared (.create (Context.blockAt 6 [0])), true), (.shared (.replace 1 0 5), true),
    (.shared (.setWhitespace 0 ⟨" ", ""⟩), true)]

/-- Be refused, make a new node the last child of slot 4, and change slot 3. -/
def appendingScript : List (OverlayCall × Bool) :=
  [(.shared (.remove 2 3), false), (.shared (.create (Context.leafAt 8)), true),
    (.insertAt 4 2 5, true), (.shared (.setWhitespace 3 ⟨" ", ""⟩), true)]

/-- Another view of the tree of `View.sample`. -/
def sampleAgain : View :=
  .ofTree 1 Context.strayTree {}

/-- The overlays of two scripts, the first one by worker 0 and the second one by worker 1. -/
def playedBy (v : View) (first second : List (OverlayCall × Bool)) : List Overlay :=
  [v.overlayAfter 0 (first.map (·.1)), v.overlayAfter 1 (second.map (·.1))]

theorem merge_ignores_worker_order_swapped :
    ∃ outcome outcome',
      View.sample.merge ((View.sample.playedBy wrappingScript appendingScript).map
        Overlay.toSealed) = .ok outcome ∧
      sampleAgain.merge ((sampleAgain.playedBy appendingScript wrappingScript).map
        Overlay.toSealed) = .ok outcome' ∧
      Tree.structurallyEq false outcome.tree outcome.tree.root outcome'.tree outcome'.tree.root =
        true := by
  have hplays : List.Forall₂ (View.sample.Plays Overlay.ReachesOnce)
      [wrappingScript, appendingScript] (View.sample.playedBy wrappingScript appendingScript) :=
    .cons (plays_overlayAfter (by decide +kernel) (by decide +kernel))
      (.cons (plays_overlayAfter (by decide +kernel) (by decide +kernel)) .nil)
  have hplays' : List.Forall₂ (sampleAgain.Plays Overlay.ReachesOnce)
      [appendingScript, wrappingScript] (sampleAgain.playedBy appendingScript wrappingScript) :=
    .cons (plays_overlayAfter (by decide +kernel) (by decide +kernel))
      (.cons (plays_overlayAfter (by decide +kernel) (by decide +kernel)) .nil)
  have hsorted : ((View.sample.playedBy wrappingScript appendingScript).map
      Overlay.toSealed).Pairwise (·.worker ≤ ·.worker) := by decide +kernel
  have hsorted' : ((sampleAgain.playedBy appendingScript wrappingScript).map
      Overlay.toSealed).Pairwise (·.worker ≤ ·.worker) := by decide +kernel
  have hv : Lineage View.sample.tree := .built Context.finish_strayNodes
  have htree : sampleAgain.tree = View.sample.tree := rfl
  have hw : Lineage sampleAgain.tree := htree ▸ hv
  obtain ⟨outcome, hmerge⟩ := exists_merge_of_sorted hv.sound (runs_of_plays hplays) hsorted
    (by decide +kernel) (by decide +kernel)
  obtain ⟨outcome', hmerge'⟩ := exists_merge_of_sorted hw.sound (runs_of_plays hplays') hsorted'
    (by decide +kernel) (by decide +kernel)
  exact ⟨outcome, outcome', hmerge, hmerge',
    merge_ignores_worker_order hv htree (.swap _ _ []) hplays hplays' (by decide +kernel)
      (by decide +kernel) hmerge hmerge' (along_of_sorted hsorted (by decide +kernel))
      (along_of_sorted hsorted' (by decide +kernel))⟩

end View

end TreeEdit
