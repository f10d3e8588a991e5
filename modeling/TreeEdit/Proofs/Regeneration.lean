import TreeEdit.Proofs.PathCopy

/-!
# What the next generation is made of

After an edit the nodes reached from the new root are of three kinds: copies of the nodes of the
path, nodes kept from beside the path, and nodes of the subtree that enters. `NewNode` and `NewEdge`
say so for nodes and for children, and `Edited.newEdge` that there is nothing else. The path never
meets the subtree that enters, whatever the links are; the kept nodes do not meet it as long as the
links of the old generation are right. So a generation without repetition is followed by one.
-/

namespace TreeEdit

theorem Edit.mem_children_of_detached? {e : Edit} {n : Node} {c : NodeId} (hfits : e.Fits n)
    (h : e.detached? = some c) : c ∈ n.children := by
  cases e with
  | replace parent old new =>
    simp only [detached?] at h
    split at h
    · cases h
    · cases h
      exact hfits
  | remove parent child =>
    cases h
    exact hfits
  | insert parent index new => cases h
  | setWhitespace node whitespace => cases h
  | setComments node leading trailing => cases h

theorem Edit.mem_children_of_entering? {e : Edit} {n : Node} {c : NodeId} (hfits : e.Fits n)
    (h : e.entering? = some c) : c ∈ (e.revise n).children := by
  cases e with
  | replace parent old new =>
    simp only [entering?] at h
    split at h
    · cases h
    · cases h
      exact List.mem_set (List.idxOf_lt_length_of_mem hfits) _
  | insert parent index new =>
    cases h
    exact (List.mem_insertIdx hfits).2 (Or.inl rfl)
  | remove parent child => cases h
  | setWhitespace node whitespace => cases h
  | setComments node leading trailing => cases h

namespace Store

variable {s s' : Store} {f : Forward} {root : NodeId} {e : Edit} {above : List NodeId}
  {current : Node} {r : Rebuilt} {c d p q x y : NodeId} {i : Nat}

/-- The links of what is reached from a slot name the listers. -/
def Linked (s : Store) (root : NodeId) : Prop :=
  ∀ p ∈ s.preorder root, ∀ c ∈ s.under p, s.parent? c = some p

namespace Edited

/-! ### The path -/

theorem target_lt (h : Edited s f root e above current s' r) : e.target < s.size :=
  lt_size_of_get? h.get_target

theorem size_le (h : Edited s f root e above current s' r) : s.size ≤ s'.size :=
  h.copied.size_eq ▸ Nat.le_add_right _ _

theorem root_lt (h : Edited s f root e above current s' r) : r.root < s'.size := by
  rw [h.root_eq, h.copied.size_eq, List.length_cons]
  exact Nat.lt_succ_self _

/-- The new root is in the last slot, and links lead to later slots. -/
theorem parent?_root (h : Edited s f root e above current s' r) (hs : s.Sound) :
    s'.parent? r.root = none := by
  cases hp : s'.parent? r.root with
  | none => rfl
  | some p =>
    have hlast := (h.sound hs).lt_of_parent? hp
    have hsize := (h.sound hs).parent_lt_size hp
    rw [h.root_eq] at hlast
    rw [h.copied.size_eq] at hsize
    exact absurd hsize (Nat.not_lt.2 (Nat.succ_le_of_lt hlast))

theorem lt_size_of_mem_spine (h : Edited s f root e above current s' r) (hs : s.Sound)
    (hx : x ∈ e.target :: above) : x < s.size :=
  h.linksUp.lt_size hs h.target_lt hx

theorem reached_of_mem_spine (h : Edited s f root e above current s' r) (hs : s.Sound)
    (hx : x ∈ e.target :: above) : x ∈ s.preorder root :=
  h.top_eq ▸ h.linksUp.mem_preorder hs hx

theorem target_le_of_mem_spine (h : Edited s f root e above current s' r) (hs : s.Sound)
    (hx : x ∈ e.target :: above) : e.target ≤ x := by
  rcases List.mem_cons.1 hx with rfl | hx
  · exact Nat.le_refl _
  · exact Nat.le_of_lt ((List.pairwise_cons.1 (h.linksUp.pairwise_lt hs)).1 x hx)

theorem under_target (h : Edited s f root e above current s' r) (hs : s.Sound) :
    s.under e.target = current.children :=
  hs.under_eq h.get_target

/-- The child that leaves is listed by the target. -/
theorem mem_under_of_detached? (h : Edited s f root e above current s' r) (hs : s.Sound)
    (hc : e.detached? = some c) : c ∈ s.under e.target := by
  rw [h.under_target hs]
  exact Edit.mem_children_of_detached? h.fits hc

theorem spine_index_inj (h : Edited s f root e above current s' r) (hs : s.Sound) {j : Nat}
    (hi : (e.target :: above)[i]? = some x) (hj : (e.target :: above)[j]? = some x) : i = j :=
  (List.getElem?_inj (List.getElem?_eq_some_iff.1 hi).1 (h.linksUp.nodup hs)).1 (hi.trans hj.symm)

/-- A child of the target comes before every node of the path. -/
theorem not_mem_spine_of_mem_children (h : Edited s f root e above current s' r) (hs : s.Sound)
    (hc : c ∈ current.children) : c ∉ e.target :: above := by
  intro hmem
  have hlt := hs.earlier _ _ h.get_target c hc
  exact absurd hlt (Nat.not_lt.2 (h.target_le_of_mem_spine hs hmem))

/-- The one lister of a node of the path is the next node of the path. -/
theorem lister_of_spine (h : Edited s f root e above current s' r) (hs : s.Sound)
    (once : s.UniqueListers root) (hd : (e.target :: above)[i]? = some d)
    (hp : p ∈ s.preorder root) (hdp : d ∈ s.under p) : (e.target :: above)[i + 1]? = some p := by
  have hi : i < above.length + 1 := (List.getElem?_eq_some_iff.1 hd).1
  rcases Nat.lt_or_ge i above.length with hlt | hge
  · have hnext := List.getElem?_eq_getElem (l := e.target :: above) (Nat.succ_lt_succ hlt)
    have hlink := h.linksUp.parent?_getElem? hd hnext
    have hreached := h.reached_of_mem_spine hs (List.mem_of_getElem? hnext)
    rw [hnext, once.lister_eq _ hreached _ hp d (hs.listed _ _ hlink) hdp]
  · obtain rfl : i = above.length := by omega
    rw [chainTop_eq_getElem?, h.top_eq, Option.some.injEq] at hd
    subst hd
    exact absurd (lt_of_mem_under hdp) (Nat.not_lt.2 (le_of_mem_preorder hp))

theorem not_mem_spine_of_lister (h : Edited s f root e above current s' r) (hs : s.Sound)
    (once : s.UniqueListers root) (hp : p ∈ s.preorder root) (off : p ∉ e.target :: above)
    (hd : d ∈ s.under p) : d ∉ e.target :: above := by
  intro hmem
  obtain ⟨i, hi⟩ := List.mem_iff_getElem?.1 hmem
  exact off (List.mem_of_getElem? (h.lister_of_spine hs once hi hp hd))

/-- The nodes of the path are not what an edit takes out. -/
theorem stays_of_mem_spine (h : Edited s f root e above current s' r) (hs : s.Sound)
    (hx : x ∈ e.target :: above) : e.detached? ≠ some x := fun hleaves =>
  h.not_mem_spine_of_mem_children hs (Edit.mem_children_of_detached? h.fits hleaves) hx

/-- The subtree that enters holds no node of the path. -/
theorem not_mem_spine_of_entering (h : Edited s f root e above current s' r) (hs : s.Sound)
    (hx : e.entering? = some x) (hy : y ∈ s.preorder x) : y ∉ e.target :: above := by
  intro hmem
  have hhangs := h.linksUp.hangs (fun z hz => h.stays_of_mem_spine hs hz) hmem
  rw [h.top_eq] at hhangs
  have hattached := (isAttached_iff hs).2 ⟨h.lt_size_of_mem_spine hs hmem, hhangs⟩
  rw [(h.enters x hx).apart y hy] at hattached
  cases hattached

end Edited

/-! ### Nodes kept -/

/-- A node that is reached from a child beside the path, other than the child that leaves. -/
def Kept (s : Store) (e : Edit) (spine : List NodeId) (x : NodeId) : Prop :=
  ∃ q ∈ spine, ∃ c ∈ s.under q, c ∉ spine ∧ e.detached? ≠ some c ∧ x ∈ s.preorder c

theorem Kept.child {spine : List NodeId} (h : Kept s e spine p) (hc : c ∈ s.under p) :
    Kept s e spine c := by
  obtain ⟨q, hq, d, hd, off, stays, hp⟩ := h
  exact ⟨q, hq, d, hd, off, stays, mem_preorder_of_mem_under hp hc⟩

namespace Edited

theorem reached_of_kept (h : Edited s f root e above current s' r) (hs : s.Sound)
    (hx : Kept s e (e.target :: above) x) : x ∈ s.preorder root := by
  obtain ⟨q, hq, c, hc, -, -, hxc⟩ := hx
  exact mem_preorder_trans hxc (mem_preorder_of_mem_under (h.reached_of_mem_spine hs hq) hc)

theorem not_mem_spine_of_kept (h : Edited s f root e above current s' r) (hs : s.Sound)
    (once : s.UniqueListers root) (hx : Kept s e (e.target :: above) x) :
    x ∉ e.target :: above := by
  obtain ⟨q, hq, c, hc, off, -, hxc⟩ := hx
  have hreached := mem_preorder_of_mem_under (h.reached_of_mem_spine hs hq) hc
  refine preorder_induction (P := fun x => x ∉ e.target :: above) off ?_ x hxc
  intro p hp off d hd
  exact h.not_mem_spine_of_lister hs once (mem_preorder_trans hp hreached) off hd

/-- The child that leaves is listed by the target alone, so it is not listed by a kept node. -/
theorem stays_of_kept (h : Edited s f root e above current s' r) (hs : s.Sound)
    (once : s.UniqueListers root) (hp : Kept s e (e.target :: above) p) (hc : c ∈ s.under p) :
    e.detached? ≠ some c := by
  intro hleaves
  have hlisted := h.mem_under_of_detached? hs hleaves
  have htarget := h.reached_of_mem_spine hs (List.mem_cons_self (a := e.target) (l := above))
  have heq := once.lister_eq _ (h.reached_of_kept hs hp) _ htarget c hc hlisted
  exact h.not_mem_spine_of_kept hs once hp (heq ▸ List.mem_cons_self)

/-- The kept nodes of a generation with right links hang from its root. -/
theorem hangs_of_kept (h : Edited s f root e above current s' r) (hs : s.Sound)
    (once : s.UniqueListers root) (linked : s.Linked root)
    (hx : Kept s e (e.target :: above) x) : Hangs s root e.detached? x := by
  obtain ⟨q, hq, c, hc, off, stays, hxc⟩ := hx
  have hqr := h.reached_of_mem_spine hs hq
  have hqhangs : Hangs s root e.detached? q :=
    h.top_eq ▸ h.linksUp.hangs (fun z hz => h.stays_of_mem_spine hs hz) hq
  refine preorder_induction (P := Hangs s root e.detached?)
    (.up (linked q hqr c hc) stays hqhangs) ?_ x hxc
  intro p hp hphangs d hd
  have hkept : Kept s e (e.target :: above) p := ⟨q, hq, c, hc, off, stays, hp⟩
  exact .up (linked p (h.reached_of_kept hs hkept) d hd) (h.stays_of_kept hs once hkept hd) hphangs

/-- The subtree that enters holds no node that is kept. -/
theorem not_kept_of_entering (h : Edited s f root e above current s' r) (hs : s.Sound)
    (once : s.UniqueListers root) (linked : s.Linked root) (hx : e.entering? = some x)
    (hy : y ∈ s.preorder x) : ¬Kept s e (e.target :: above) y := by
  intro hkept
  obtain ⟨n, hn⟩ := (h.enters x hx).full y hy
  have hattached := (isAttached_iff hs).2
    ⟨lt_size_of_get? hn, h.hangs_of_kept hs once linked hkept⟩
  rw [(h.enters x hx).apart y hy] at hattached
  cases hattached

end Edited

/-! ### Nodes and children of the new generation -/

/-- The nodes reached from the new root. -/
inductive NewNode (s : Store) (e : Edit) (spine : List NodeId) : NodeId → Prop
  | copy {i : Nat} (hi : i < spine.length) : NewNode s e spine (s.size + i)
  | kept {x : NodeId} (hx : Kept s e spine x) : NewNode s e spine x
  | inside {x y : NodeId} (hx : e.entering? = some x) (hy : y ∈ s.preorder x) :
      NewNode s e spine y

/-- The children of the nodes reached from the new root. -/
inductive NewEdge (s : Store) (e : Edit) (spine : List NodeId) : NodeId → NodeId → Prop
  | copy (i : Nat) : NewEdge s e spine (s.size + (i + 1)) (s.size + i)
  | enter {c : NodeId} (hc : e.entering? = some c) : NewEdge s e spine s.size c
  | beside {i : Nat} {q c : NodeId} (hq : spine[i]? = some q) (hc : c ∈ s.under q)
      (off : c ∉ spine) (stays : e.detached? ≠ some c) : NewEdge s e spine (s.size + i) c
  | kept {p c : NodeId} (hp : Kept s e spine p) (hc : c ∈ s.under p) : NewEdge s e spine p c
  | inside {x p c : NodeId} (hx : e.entering? = some x) (hp : p ∈ s.preorder x)
      (hc : c ∈ s.under p) : NewEdge s e spine p c

namespace Edited

theorem under_old (h : Edited s f root e above current s' r) (hx : x < s.size) :
    s'.under x = s.under x :=
  under_congr (h.copied.old x hx)

theorem preorder_old (h : Edited s f root e above current s' r) (hx : x < s.size) :
    s'.preorder x = s.preorder x :=
  preorder_congr fun _ hy => h.under_old (Nat.lt_of_le_of_lt (le_of_mem_preorder hy) hx)

theorem under_bottom (h : Edited s f root e above current s' r) (hs : s.Sound) :
    s'.under s.size = (e.revise current).children :=
  (h.sound hs).under_eq h.copied.bottom

/-- The children of the copy of a node above the target: those of the node, with the copy of the
next node down in the place of that node. -/
theorem under_copy (h : Edited s f root e above current s' r) (hs : s.Sound)
    (hp : (e.target :: above)[i]? = some p) (hq : (e.target :: above)[i + 1]? = some q) :
    p ∈ s.under q ∧
      s'.under (s.size + (i + 1)) = (s.under q).set ((s.under q).idxOf p) (s.size + i) := by
  obtain ⟨n, hn, hmem, hget⟩ := h.copied.above i p q hp hq
  rw [hs.under_eq hn, (h.sound hs).under_eq hget]
  exact ⟨hmem, rfl⟩

theorem lt_size_of_entering (h : Edited s f root e above current s' r) (hx : e.entering? = some x)
    (hy : y ∈ s.preorder x) : y < s.size :=
  (h.enters x hx).lt_size hy

theorem lt_size_of_kept (h : Edited s f root e above current s' r) (hs : s.Sound)
    (hx : Kept s e (e.target :: above) x) : x < s.size := by
  have htop : root ∈ e.target :: above := by
    rw [← h.top_eq]
    exact List.mem_of_getElem? (chainTop_eq_getElem? e.target above)
  exact Nat.lt_of_le_of_lt (le_of_mem_preorder (h.reached_of_kept hs hx))
    (h.lt_size_of_mem_spine hs htop)

theorem newEdge_of_newNode (h : Edited s f root e above current s' r) (hs : s.Sound)
    (once : s.UniqueListers root) (hp : NewNode s e (e.target :: above) p)
    (hc : c ∈ s'.under p) :
    NewEdge s e (e.target :: above) p c ∧ NewNode s e (e.target :: above) c := by
  have htarget := h.reached_of_mem_spine hs (List.mem_cons_self (a := e.target) (l := above))
  cases hp with
  | @copy i hi =>
    cases i with
    | zero =>
      rw [Nat.add_zero] at hc ⊢
      rw [h.under_bottom hs] at hc
      have hnodup : current.children.Nodup := h.under_target hs ▸ once.nodup_under _ htarget
      rcases Edit.mem_children_revise hnodup hc with henter | ⟨hold, stays⟩
      · exact ⟨.enter henter, .inside henter (mem_preorder_self s c)⟩
      · have off := h.not_mem_spine_of_mem_children hs hold
        rw [← h.under_target hs] at hold
        exact ⟨.beside (i := 0) rfl hold off stays,
          .kept ⟨_, List.mem_cons_self, c, hold, off, stays, mem_preorder_self s c⟩⟩
    | succ i =>
      have hq := List.getElem?_eq_getElem hi
      have hd := List.getElem?_eq_getElem (Nat.lt_of_succ_lt hi)
      obtain ⟨-, hunder⟩ := h.under_copy hs hd hq
      have hreached := h.reached_of_mem_spine hs (List.mem_of_getElem? hq)
      rw [hunder] at hc
      rcases mem_set_idxOf (once.nodup_under _ hreached) hc with rfl | ⟨hold, hne⟩
      · exact ⟨.copy i, .copy (Nat.lt_of_succ_lt hi)⟩
      · -- a child on the path would be listed one step up, and that is the child that was replaced
        have off : c ∉ e.target :: above := by
          intro hmem
          obtain ⟨j, hj⟩ := List.mem_iff_getElem?.1 hmem
          have hnext := h.lister_of_spine hs once hj hreached hold
          obtain rfl : i = j := Nat.succ.inj (h.spine_index_inj hs hq hnext)
          exact hne (Option.some.inj (hj.symm.trans hd))
        have stays : e.detached? ≠ some c := by
          intro hleaves
          have hlisted := h.mem_under_of_detached? hs hleaves
          have heq := once.lister_eq _ hreached _ htarget c hold hlisted
          rw [heq] at hq
          exact Nat.succ_ne_zero i (h.spine_index_inj hs hq rfl)
        exact ⟨.beside hq hold off stays,
          .kept ⟨_, List.mem_of_getElem? hq, c, hold, off, stays, mem_preorder_self s c⟩⟩
  | kept hp =>
    rw [h.under_old (h.lt_size_of_kept hs hp)] at hc
    exact ⟨.kept hp hc, .kept (hp.child hc)⟩
  | inside hx hp =>
    rw [h.under_old (h.lt_size_of_entering hx hp)] at hc
    exact ⟨.inside hx hp hc, .inside hx (mem_preorder_of_mem_under hp hc)⟩

theorem newNode (h : Edited s f root e above current s' r) (hs : s.Sound)
    (once : s.UniqueListers root) (hx : x ∈ s'.preorder r.root) :
    NewNode s e (e.target :: above) x := by
  refine preorder_induction (P := NewNode s e (e.target :: above)) ?_
    (fun p _ hp c hc => (h.newEdge_of_newNode hs once hp hc).2) x hx
  rw [h.root_eq]
  exact .copy (by simp)

/-- The children in the new generation. -/
theorem newEdge (h : Edited s f root e above current s' r) (hs : s.Sound)
    (once : s.UniqueListers root) (hp : p ∈ s'.preorder r.root) (hc : c ∈ s'.under p) :
    NewEdge s e (e.target :: above) p c :=
  (h.newEdge_of_newNode hs once (h.newNode hs once hp) hc).1

/-! ### Repetition -/

/-- Where a child of the new generation comes from tells its lister: a copy is listed by the next
copy, a kept node by its old lister or by the copy of that, and a node of the subtree that enters
from within or, at its top, by the copy of the target. -/
theorem newEdge_lister (h : Edited s f root e above current s' r) (hs : s.Sound)
    (once : s.UniqueListers root) (hpc : NewEdge s e (e.target :: above) p c) :
    (s.size ≤ c ∧ p = c + 1) ∨
      (Kept s e (e.target :: above) c ∧ ∃ q ∈ s.preorder root, c ∈ s.under q ∧
        ((p = q ∧ q ∉ e.target :: above) ∨
          ∃ i, (e.target :: above)[i]? = some q ∧ p = s.size + i)) ∨
      ∃ x, e.entering? = some x ∧ c ∈ s.preorder x ∧
        ((c = x ∧ p = s.size) ∨ (p ∈ s.preorder x ∧ c ∈ s.under p)) := by
  cases hpc with
  | copy i => exact Or.inl ⟨Nat.le_add_right _ _, rfl⟩
  | enter hc => exact Or.inr (Or.inr ⟨c, hc, mem_preorder_self s c, Or.inl ⟨rfl, rfl⟩⟩)
  | @beside i q _ hq hc off stays =>
    have hmem := List.mem_of_getElem? hq
    exact Or.inr (Or.inl ⟨⟨q, hmem, c, hc, off, stays, mem_preorder_self s c⟩, q,
      h.reached_of_mem_spine hs hmem, hc, Or.inr ⟨i, hq, rfl⟩⟩)
  | kept hp hc =>
    exact Or.inr (Or.inl ⟨hp.child hc, p, h.reached_of_kept hs hp, hc,
      Or.inl ⟨rfl, h.not_mem_spine_of_kept hs once hp⟩⟩)
  | @inside x _ _ hx hp hc =>
    exact Or.inr (Or.inr ⟨x, hx, mem_preorder_of_mem_under hp hc, Or.inr ⟨hp, hc⟩⟩)

theorem newEdge_lister_eq (h : Edited s f root e above current s' r) (hs : s.Sound)
    (once : s.UniqueListers root) (linked : s.Linked root)
    (hp : NewEdge s e (e.target :: above) p c) (hq : NewEdge s e (e.target :: above) q c) :
    p = q := by
  have old : ∀ y, Kept s e (e.target :: above) y → ¬s.size ≤ y := fun y hy =>
    Nat.not_le.2 (h.lt_size_of_kept hs hy)
  have inside : ∀ x y, e.entering? = some x → y ∈ s.preorder x → ¬s.size ≤ y := fun x y hx hy =>
    Nat.not_le.2 (h.lt_size_of_entering hx hy)
  -- copies, kept nodes and the subtree that enters are apart, so both edges are of one kind
  rcases h.newEdge_lister hs once hp with ⟨hc, rfl⟩ | ⟨hc, a, ha, hca, hpa⟩ | ⟨x, hx, hc, hpx⟩ <;>
    rcases h.newEdge_lister hs once hq with ⟨hc', rfl⟩ | ⟨hc', b, hb, hcb, hqb⟩ | ⟨y, hy, hc', hqy⟩
  · rfl
  · exact absurd hc (old c hc')
  · exact absurd hc (inside y c hy hc')
  · exact absurd hc' (old c hc)
  · obtain rfl := once.lister_eq a ha b hb c hca hcb
    rcases hpa with ⟨rfl, off⟩ | ⟨i, hi, rfl⟩ <;> rcases hqb with ⟨rfl, off'⟩ | ⟨j, hj, rfl⟩
    · rfl
    · exact absurd (List.mem_of_getElem? hj) off
    · exact absurd (List.mem_of_getElem? hi) off'
    · rw [h.spine_index_inj hs hi hj]
  · exact absurd hc (h.not_kept_of_entering hs once linked hy hc')
  · exact absurd hc' (inside x c hx hc)
  · exact absurd hc' (h.not_kept_of_entering hs once linked hx hc)
  · obtain rfl : x = y := Option.some.inj (hx.symm.trans hy)
    have top : ∀ d, d ∈ s.preorder x → x ∉ s.under d := fun d hd hmem =>
      absurd (lt_of_mem_under hmem) (Nat.not_lt.2 (le_of_mem_preorder hd))
    rcases hpx with ⟨rfl, rfl⟩ | ⟨hpx, hcp⟩ <;> rcases hqy with ⟨hcx, rfl⟩ | ⟨hqx, hcq⟩
    · rfl
    · exact absurd hcq (top q hqx)
    · exact absurd (hcx ▸ hcp) (top p hpx)
    · exact (uniqueListers_of_nodup (h.enters _ hx).once).lister_eq p hpx q hqx c hcp hcq

/-- A generation with right links and without repetition is followed by one without repetition. -/
theorem uniqueListers (h : Edited s f root e above current s' r) (hs : s.Sound)
    (once : s.UniqueListers root) (linked : s.Linked root) : s'.UniqueListers r.root where
  nodup_under p hp := by
    cases h.newNode hs once hp with
    | @copy i hi =>
      cases i with
      | zero =>
        rw [Nat.add_zero, h.under_bottom hs]
        exact ((check_eq_ok_iff _ _).1 h.checked).2.2
      | succ i =>
        have hq := List.getElem?_eq_getElem hi
        have hd := List.getElem?_eq_getElem (Nat.lt_of_succ_lt hi)
        have hreached := h.reached_of_mem_spine hs (List.mem_of_getElem? hq)
        rw [(h.under_copy hs hd hq).2]
        refine (once.nodup_under _ hreached).set fun hmem => ?_
        have hlt := Nat.lt_trans (lt_of_mem_under hmem) (lt_size_of_mem_under hmem)
        exact absurd hlt (Nat.not_lt.2 (Nat.le_add_right _ _))
    | kept hp =>
      rw [h.under_old (h.lt_size_of_kept hs hp)]
      exact once.nodup_under p (h.reached_of_kept hs hp)
    | inside hx hp =>
      rw [h.under_old (h.lt_size_of_entering hx hp)]
      exact (uniqueListers_of_nodup (h.enters _ hx).once).nodup_under p hp
  lister_eq p hp q hq c hcp hcq :=
    h.newEdge_lister_eq hs once linked (h.newEdge hs once hp hcp) (h.newEdge hs once hq hcq)

/-- No node of the new generation is on the path. -/
theorem not_mem_spine (h : Edited s f root e above current s' r) (hs : s.Sound)
    (once : s.UniqueListers root) (hx : x ∈ s'.preorder r.root) : x ∉ e.target :: above := by
  cases h.newNode hs once hx with
  | copy hi =>
    exact fun hmem => absurd (h.lt_size_of_mem_spine hs hmem) (Nat.not_lt.2 (Nat.le_add_right _ _))
  | kept hx => exact h.not_mem_spine_of_kept hs once hx
  | inside hx hy => exact h.not_mem_spine_of_entering hs hx hy

end Edited

end Store

end TreeEdit
