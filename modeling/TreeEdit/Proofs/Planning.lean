import TreeEdit.Proofs.Tracing

/-!
# What can still go wrong after planning

A plan settles that an edit fits and that what comes in may enter the tree. Carrying it out makes
checks of its own: the new value is checked once more, and every node of the path has to list the
next one. `exists_rebuild_iff` says what is left of them: there has to be room, and no child may be
listed twice. In a generation that is a tree the second never fails, so a planned edit is carried
out unless the slots have run out: `rebuild_of_plan`.
-/

namespace TreeEdit

theorem Edit.stays_of_entering? {e : Edit} {x : NodeId} (h : e.entering? = some x) :
    e.detached? ≠ some x := by
  cases e with
  | replace parent old new =>
    simp only [entering?] at h
    split at h
    · cases h
    · rename_i hne
      cases h
      simp [detached?, Ne.symm hne]
  | insert parent index new => simp [detached?]
  | remove parent child => cases h
  | setWhitespace node whitespace => cases h
  | setComments node leading trailing => cases h

/-- An edit leaves a child list without repetition, if what it brings in is not there yet. -/
theorem Edit.nodup_children_revise {e : Edit} {n : Node} (hn : n.children.Nodup)
    (hnew : ∀ x, e.entering? = some x → x ∉ n.children) : (e.revise n).children.Nodup := by
  cases e with
  | replace parent old new =>
    by_cases hsame : new = old
    · rw [revise, Node.setChild, hsame, set_idxOf_self]
      exact hn
    · exact hn.set (hnew new (by simp [entering?, hsame]))
  | insert parent index new =>
    rw [revise, Node.insertChild]
    rcases Nat.lt_or_ge n.children.length index with hlong | hfits
    · rwa [List.insertIdx_of_length_lt hlong]
    · rw [(List.perm_insertIdx new n.children hfits).nodup_iff, List.nodup_cons]
      exact ⟨hnew new rfl, hn⟩
  | remove parent child => exact hn.sublist (List.eraseIdx_sublist _ _)
  | setWhitespace node whitespace => exact hn
  | setComments node leading trailing => exact hn

namespace Store

variable {s : Store} {f : Forward} {root : NodeId} {e : Edit} {most : Nat} {way : Path}
  {value current : Node}

/-- A chain of links is a chain of listers, so all of its copies can be made. -/
theorem ancestorCopies_of_linksUp (hs : s.Sound) {child : NodeId} {above : List NodeId}
    (h : s.LinksUp child above) (copy : NodeId) :
    ∃ copies, s.ancestorCopies child copy above = .ok copies := by
  induction above generalizing child copy with
  | nil => exact ⟨[], rfl⟩
  | cons a above ih =>
    obtain ⟨hlink, hup⟩ := h
    obtain ⟨n, hn⟩ := hs.full a (hs.parent_lt_size hlink)
    have hmem : child ∈ n.children := hs.under_eq hn ▸ hs.listed child a hlink
    obtain ⟨rest, hrest⟩ := ih hup (copy + 1)
    have hpos : n.position? child = some (n.children.idxOf child) :=
      Node.position?_eq_some_iff.2 ⟨hmem, rfl⟩
    refine ⟨n.setChild (n.children.idxOf child) copy :: rest, ?_⟩
    simp only [ancestorCopies, node_eq_ok_iff.2 hn, hpos, hrest, bind, Except.bind, pure,
      Except.pure]

theorem checkRoom_cases (s : Store) (count : Nat) :
    s.checkRoom count = .ok () ∨
      s.checkRoom count = .error (.treeState (.exhausted count (capacity - s.size))) := by
  unfold checkRoom
  split
  · exact Or.inl rfl
  · exact Or.inr rfl

/-- A child of the target is attached, so it is not what an edit brings in from outside. -/
theorem not_mem_children_of_mayEnter (hs : s.Sound) (linked : s.Linked root) {target x : NodeId}
    {above : List NodeId} (hup : s.LinksUp target above) (htop : chainTop target above = root)
    (hget : s.get? target = some current) {leaving : Option NodeId}
    (henter : s.MayEnter f root leaving x) (hx : leaving ≠ some x)
    (hleaving : ∀ y, leaving = some y → y ∈ current.children) : x ∉ current.children := by
  intro hmem
  have hunder : x ∈ s.under target := by rwa [hs.under_eq hget]
  have hreached : target ∈ s.preorder root := htop ▸ hup.mem_preorder hs List.mem_cons_self
  have hlt := lt_size_of_get? hget
  -- the child that leaves comes before the target and so before the whole path
  have hstays : ∀ y ∈ target :: above, leaving ≠ some y := by
    intro y hy hleaves
    have hearly := hs.earlier _ _ hget y (hleaving y hleaves)
    rcases List.mem_cons.1 hy with rfl | hy
    · exact Nat.lt_irrefl _ hearly
    · exact Nat.lt_asymm hearly ((List.pairwise_cons.1 (hup.pairwise_lt hs)).1 y hy)
  have hhangs : Hangs s root leaving x :=
    .up (linked target hreached x hunder) hx (htop ▸ hup.hangs hstays List.mem_cons_self)
  have hattached := (isAttached_iff hs).2 ⟨Nat.lt_trans (lt_of_mem_under hunder) hlt, hhangs⟩
  rw [henter.apart x (mem_preorder_self s x)] at hattached
  cases hattached

/-- The new value of a target passes the check if no child is listed twice. -/
theorem check_of_nodup (hs : s.Sound) (hplan : s.plan f most root e = .ok (way, value))
    (hnodup : value.children.Nodup) : s.check value = .ok () := by
  obtain ⟨-, current, hget, -, henters, rfl, hvalid⟩ := plan_eq_ok_iff.1 hplan
  refine (check_eq_ok_iff s _).2 ⟨hvalid, fun c hc => ?_, hnodup⟩
  rcases Edit.entering_or_mem_children hc with hc | hc
  · exact (henters c hc).lt_size (mem_preorder_self s c)
  · exact Nat.lt_trans (hs.earlier _ _ hget c hc) (lt_size_of_get? hget)

/-- A planned edit is carried out if there is room and no child would be listed twice. The nodes
above the target have nothing to say. -/
theorem exists_rebuild_iff (hs : s.Sound) (hplan : s.plan f most root e = .ok (way, value)) :
    (∃ s' r, s.rebuild way value = (s', .ok r)) ↔
      value.children.Nodup ∧ s.checkRoom way.length = .ok () := by
  constructor
  · rintro ⟨s', r, hrebuild⟩
    obtain ⟨hcheck, hroom, -⟩ := rebuild_eq_ok_iff.1 hrebuild
    exact ⟨((check_eq_ok_iff s value).1 hcheck).2.2, hroom⟩
  · rintro ⟨hnodup, hroom⟩
    have hcheck := check_of_nodup hs hplan hnodup
    obtain ⟨target, above⟩ := way
    obtain ⟨rfl, -, hup, -, -⟩ := path_eq_ok_iff.1 (plan_eq_ok_iff.1 hplan).1
    obtain ⟨copies, hcopies⟩ := ancestorCopies_of_linksUp hs hup s.size
    exact ⟨_, _, rebuild_eq_ok_iff.2 ⟨hcheck, hroom, copies, hcopies, rfl, rfl⟩⟩

/-- In a generation that is a tree, an edit lists no child twice. -/
theorem nodup_of_plan (hs : s.Sound) (once : s.UniqueListers root) (linked : s.Linked root)
    (hplan : s.plan f most root e = .ok (way, value)) : value.children.Nodup := by
  obtain ⟨target, above⟩ := way
  obtain ⟨hpath, current, hget, hfits, henters, rfl, -⟩ := plan_eq_ok_iff.1 hplan
  obtain ⟨rfl, -, hup, -, htop⟩ := path_eq_ok_iff.1 hpath
  have hreached : e.target ∈ s.preorder root := htop ▸ hup.mem_preorder hs List.mem_cons_self
  have hnodup : current.children.Nodup := hs.under_eq hget ▸ once.nodup_under _ hreached
  refine Edit.nodup_children_revise hnodup fun x hx => ?_
  exact not_mem_children_of_mayEnter hs linked hup htop hget (henters x hx)
    (Edit.stays_of_entering? hx) fun y hy => Edit.mem_children_of_detached? hfits hy

/-- In a generation that is a tree, a planned edit is carried out if there is room. -/
theorem rebuild_of_room (hs : s.Sound) (once : s.UniqueListers root) (linked : s.Linked root)
    (hplan : s.plan f most root e = .ok (way, value)) (hroom : s.checkRoom way.length = .ok ()) :
    ∃ s' r, s.rebuild way value = (s', .ok r) :=
  (exists_rebuild_iff hs hplan).2 ⟨nodup_of_plan hs once linked hplan, hroom⟩

/-- In a generation that is a tree, nothing but want of room stops a planned edit. -/
theorem rebuild_of_plan (hs : s.Sound) (once : s.UniqueListers root) (linked : s.Linked root)
    (hplan : s.plan f most root e = .ok (way, value)) :
    (∃ s' r, s.rebuild way value = (s', .ok r)) ∨
      ∃ requested available,
        s.rebuild way value = (s, .error (.treeState (.exhausted requested available))) := by
  rcases s.checkRoom_cases way.length with hroom | hroom
  · exact Or.inl (rebuild_of_room hs once linked hplan hroom)
  · right
    refine ⟨way.length, capacity - s.size, rebuild_of_planCopies_error ?_⟩
    rw [planCopies, check_of_nodup hs hplan (nodup_of_plan hs once linked hplan), hroom]
    rfl

instance (s : Store) (root : NodeId) : Decidable (s.Linked root) :=
  inferInstanceAs (Decidable (∀ p ∈ s.preorder root, ∀ c ∈ s.under p, s.parent? c = some p))

end Store

/-- The current generation of a shadow is a tree: no slot is reached twice from the root, and the
link of every child reached names its lister. -/
structure Overlay.IsTree (o : Overlay) : Prop where
  once : o.ReachesOnce
  linked : o.shadow.Linked o.root

instance (o : Overlay) : Decidable o.IsTree :=
  decidable_of_iff (o.ReachesOnce ∧ o.shadow.Linked o.root)
    ⟨fun h => ⟨h.1, h.2⟩, fun h => ⟨h.once, h.linked⟩⟩

end TreeEdit
