import TreeEdit.Proofs.Revision

/-!
# What carrying out an edit adds to a store

`Copied` describes the new slots of a rebuilding: the new value of the target, and above it one copy
of each node of the path, equal to its model except for the child on the path. `Edited` is all that
is known once an edit has been carried out: the path was a chain of links to the root, the checks
held, and the store after it is the store before it with these slots and with new links. The proofs
about edits start from `Edited` and do not open `Store.applyEdit` again.
-/

namespace TreeEdit.Store

variable {s s' : Store} {f : Forward} {root : NodeId} {e : Edit}

theorem ancestorCopies_eq_ok {child copy : NodeId} {above : List NodeId} {copies : List Node}
    (h : s.ancestorCopies child copy above = .ok copies) :
    copies.length = above.length ∧
      ∀ i p q, (child :: above)[i]? = some p → above[i]? = some q →
        ∃ n, s.get? q = some n ∧ p ∈ n.children ∧
          copies[i]? = some (n.setChild (n.children.idxOf p) (copy + i)) := by
  induction above generalizing child copy copies with
  | nil =>
    cases h
    exact ⟨rfl, fun i p q _ hq => by simp at hq⟩
  | cons a above ih =>
    simp only [ancestorCopies, Verdict.bind_eq_ok_iff, node_eq_ok_iff] at h
    obtain ⟨n, hn, h⟩ := h
    cases hpos : n.position? child with
    | none =>
      rw [hpos] at h
      cases h
    | some index =>
      rw [hpos] at h
      obtain ⟨rest, hrest, h⟩ := Verdict.bind_eq_ok_iff.1 h
      cases h
      obtain ⟨hmem, rfl⟩ := Node.position?_eq_some_iff.1 hpos
      obtain ⟨hlen, hcopies⟩ := ih hrest
      refine ⟨by simp [hlen], fun i p q hp hq => ?_⟩
      cases i with
      | zero =>
        simp only [List.getElem?_cons_zero, Option.some.injEq] at hp hq
        subst hp hq
        exact ⟨n, hn, hmem, rfl⟩
      | succ i =>
        rw [List.getElem?_cons_succ] at hp hq ⊢
        obtain ⟨m, hm, hpm, hget⟩ := hcopies i p q hp hq
        exact ⟨m, hm, hpm, by rw [hget, Nat.add_right_comm, Nat.add_assoc]⟩

/-! ### Refusals

A rebuilding makes its checks first and then adds one value after the other. Each addition asks for
room again, and is not refused: the checks have asked for room for all of them. -/

section Refusals

variable {way : Path} {value : Node} {r : Rebuilt} {values : List Node} {err : Error}

theorem planCopies_eq_ok_iff :
    s.planCopies way value = .ok values ↔
      s.check value = .ok () ∧ s.checkRoom way.length = .ok () ∧
        ∃ copies, s.ancestorCopies way.target s.size way.above = .ok copies ∧
          values = value :: copies := by
  simp only [planCopies, Verdict.bind_eq_ok_iff, pure, Except.pure, Except.ok.injEq]
  constructor
  · rintro ⟨u, hcheck, v, hroom, copies, hcopies, rfl⟩
    exact ⟨hcheck, hroom, copies, hcopies, rfl⟩
  · rintro ⟨hcheck, hroom, copies, hcopies, rfl⟩
    exact ⟨(), hcheck, (), hroom, copies, hcopies, rfl⟩

/-- Where there is room for all values, none is refused. -/
theorem pushCopies_of_room {olds : List NodeId} (hlen : values.length = olds.length)
    (hroom : s.checkRoom values.length = .ok ()) :
    s.pushCopies (values.zip olds) = (s.append values, .ok (olds.zipIdx s.size)) := by
  induction values generalizing s olds with
  | nil =>
    obtain rfl := List.length_eq_zero_iff.1 hlen.symm
    simp [pushCopies, append]
  | cons n values ih =>
    obtain ⟨old, olds, rfl⟩ := List.exists_cons_of_length_eq_add_one hlen.symm
    rw [checkRoom_eq_ok_iff, List.length_cons] at hroom
    have hpush : s.push n = (s.append [n], .ok s.size) := by
      rw [push, checkRoom_eq_ok_iff.2 (by omega)]
    have hrest := @ih (s.append [n]) olds (Nat.succ.inj hlen)
      (checkRoom_eq_ok_iff.2 (by rw [size_append, List.length_singleton]; omega))
    rw [List.zip_cons_cons, pushCopies, hpush]
    simp only [hrest, Prod.map_apply, id_eq, append_append, List.singleton_append, size_append,
      List.length_singleton, List.zipIdx_cons, Except.map]

/-- A rebuilding whose checks hold is carried out. -/
theorem rebuild_of_planCopies (h : s.planCopies way value = .ok values) :
    s.rebuild way value =
      ((s.append values).relink (s.size + way.above.length),
        .ok ⟨s.size + way.above.length, (way.target :: way.above).zipIdx s.size⟩) := by
  obtain ⟨-, hroom, copies, hcopies, rfl⟩ := planCopies_eq_ok_iff.1 h
  have hlen : (value :: copies).length = (way.target :: way.above).length := by
    simp [(ancestorCopies_eq_ok hcopies).1]
  have hlength : (value :: copies).length = way.length := hlen
  have hroot : (((way.target :: way.above).zipIdx s.size).getLast?.map Prod.snd).getD way.target =
      s.size + way.above.length := by
    rw [List.getLast?_eq_getElem?, List.getElem?_zipIdx]
    simp
  rw [rebuild, h]
  simp only [pushCopies_of_room hlen (hlength ▸ hroom), hroot]

theorem rebuild_of_planCopies_error (h : s.planCopies way value = .error err) :
    s.rebuild way value = (s, .error err) := by
  rw [rebuild, h]

theorem rebuild_eq_ok_iff :
    s.rebuild way value = (s', .ok r) ↔
      s.check value = .ok () ∧ s.checkRoom way.length = .ok () ∧
        ∃ copies, s.ancestorCopies way.target s.size way.above = .ok copies ∧
          s' = (s.append (value :: copies)).relink (s.size + way.above.length) ∧
          r = ⟨s.size + way.above.length, (way.target :: way.above).zipIdx s.size⟩ := by
  constructor
  · intro h
    cases hplan : s.planCopies way value with
    | error err => cases (rebuild_of_planCopies_error hplan).symm.trans h
    | ok values =>
      cases (rebuild_of_planCopies hplan).symm.trans h
      obtain ⟨hcheck, hroom, copies, hcopies, rfl⟩ := planCopies_eq_ok_iff.1 hplan
      exact ⟨hcheck, hroom, copies, hcopies, rfl, rfl⟩
  · rintro ⟨hcheck, hroom, copies, hcopies, rfl, rfl⟩
    exact rebuild_of_planCopies (planCopies_eq_ok_iff.2 ⟨hcheck, hroom, copies, hcopies, rfl⟩)

/-- What a rebuilding does: nothing if it is refused. -/
theorem rebuild_cases (s : Store) (way : Path) (value : Node) :
    (∃ err, s.rebuild way value = (s, .error err)) ∨
      ∃ s' r, s.rebuild way value = (s', .ok r) := by
  cases hplan : s.planCopies way value with
  | error err => exact Or.inl ⟨err, rebuild_of_planCopies_error hplan⟩
  | ok values => exact Or.inr ⟨_, _, rebuild_of_planCopies hplan⟩

/-- What an edit does to a store: nothing if it is refused. -/
theorem applyEdit_cases (s : Store) (f : Forward) (most : Nat) (root : NodeId) (e : Edit) :
    (∃ err, s.applyEdit f most root e = (s, .error err)) ∨
      ∃ s' r, s.applyEdit f most root e = (s', .ok r) := by
  unfold applyEdit
  cases s.plan f most root e with
  | error err => exact Or.inl ⟨err, rfl⟩
  | ok out => exact s.rebuild_cases out.1 out.2

theorem plan_of_applyEdit_eq_ok {most : Nat} (h : s.applyEdit f most root e = (s', .ok r)) :
    ∃ way value, s.plan f most root e = .ok (way, value) ∧ s.rebuild way value = (s', .ok r) := by
  unfold applyEdit at h
  split at h
  · cases h
  · exact ⟨_, _, ‹_›, h⟩

theorem applyEdit_of_plan {most : Nat} (h : s.plan f most root e = .ok (way, value)) :
    s.applyEdit f most root e = s.rebuild way value := by
  rw [applyEdit, h]

end Refusals

/-! ### The new slots -/

/-- The slots that a rebuilding adds. The path is given from its target up; slot `s.size + i` holds
the copy of its node number `i`. -/
structure Copied (s s' : Store) (spine : List NodeId) (value : Node) : Prop where
  size_eq : s'.size = s.size + spine.length
  old : ∀ id, s.size > id → s'.get? id = s.get? id
  bottom : s'.get? s.size = some value
  above : ∀ i p q, spine[i]? = some p → spine[i + 1]? = some q →
    ∃ n, s.get? q = some n ∧ p ∈ n.children ∧
      s'.get? (s.size + (i + 1)) = some (n.setChild (n.children.idxOf p) (s.size + i))

theorem copied_append {child : NodeId} {above : List NodeId} {copies : List Node} (value : Node)
    (h : s.ancestorCopies child s.size above = .ok copies) :
    Copied s (s.append (value :: copies)) (child :: above) value := by
  obtain ⟨hlen, hcopies⟩ := ancestorCopies_eq_ok h
  refine ⟨by simp [hlen], fun id hid => get?_append_of_lt _ hid, ?_, fun i p q hp hq => ?_⟩
  · simpa using get?_append_size_add s (value :: copies) 0
  · obtain ⟨n, hn, hmem, hget⟩ := hcopies i p q hp (by simpa using hq)
    exact ⟨n, hn, hmem, by rw [get?_append_size_add, List.getElem?_cons_succ, hget]⟩

theorem sound_append_copies (hs : s.Sound) {child : NodeId} {above : List NodeId}
    {copies : List Node} {value : Node} (hvalue : ∀ c ∈ value.children, c < s.size)
    (h : s.ancestorCopies child s.size above = .ok copies) :
    (s.append (value :: copies)).Sound := by
  obtain ⟨hlen, hcopies⟩ := ancestorCopies_eq_ok h
  refine hs.append fun k n hk c hc => ?_
  cases k with
  | zero =>
    simp only [List.getElem?_cons_zero, Option.some.injEq] at hk
    subst hk
    exact hvalue c hc
  | succ i =>
    rw [List.getElem?_cons_succ] at hk
    have hi : i < above.length := by
      rw [← hlen]
      exact (List.getElem?_eq_some_iff.1 hk).1
    have hi' : i < (child :: above).length := Nat.lt_succ_of_lt hi
    obtain ⟨m, hm, -, hget⟩ := hcopies i (child :: above)[i] above[i]
      (List.getElem?_eq_getElem hi') (List.getElem?_eq_getElem hi)
    rw [hk, Option.some.injEq] at hget
    subst hget
    rcases List.mem_or_eq_of_mem_set hc with hold | rfl
    · have hlt := hs.earlier _ m hm c hold
      exact Nat.lt_of_lt_of_le (Nat.lt_trans hlt (lt_size_of_get? hm)) (Nat.le_add_right _ _)
    · omega

/-! ### The whole step -/

/-- An edit of the tree below a root has been carried out. The nodes above its target are given
nearest first, with the value that the target had. -/
structure Edited (s : Store) (f : Forward) (root : NodeId) (e : Edit) (above : List NodeId)
    (current : Node) (s' : Store) (r : Rebuilt) : Prop where
  get_target : s.get? e.target = some current
  linksUp : s.LinksUp e.target above
  top_eq : chainTop e.target above = root
  fits : e.Fits current
  enters : ∀ x, e.entering? = some x → s.MayEnter f root e.detached? x
  checked : s.check (e.revise current) = .ok ()
  copied : Copied s s' (e.target :: above) (e.revise current)
  root_eq : r.root = s.size + above.length
  copies_eq : r.copies = (e.target :: above).zipIdx s.size
  sound : s.Sound → s'.Sound
  set_link : (s'.preorder r.root).Nodup → ∀ p, Visits s'.under s.parent? [r.root] p →
    ∀ c ∈ s'.under p, s'.parent? c = some p
  keep_link : (s'.preorder r.root).Nodup → ∀ c,
    (∀ p, Visits s'.under s.parent? [r.root] p → c ∉ s'.under p) → s'.parent? c = s.parent? c

/-- The only way for an edit to be carried out. -/
theorem applyEdit_eq_ok {most : Nat} {r : Rebuilt}
    (h : s.applyEdit f most root e = (s', .ok r)) :
    ∃ above current, s.path most root e.target = .ok ⟨e.target, above⟩ ∧
      Edited s f root e above current s' r := by
  obtain ⟨⟨target, above⟩, value, hplan, hrebuild⟩ := plan_of_applyEdit_eq_ok h
  obtain ⟨hpath, current, hget, hfits, henters, rfl, -⟩ := plan_eq_ok_iff.1 hplan
  obtain ⟨rfl, -, hup, -, htop⟩ := path_eq_ok_iff.1 hpath
  obtain ⟨hcheck, -, copies, hcopies, rfl, rfl⟩ := rebuild_eq_ok_iff.1 hrebuild
  refine ⟨above, current, hpath, ?_⟩
  have hchildren := ((check_eq_ok_iff s _).1 hcheck).2.1
  have hcopied := copied_append (e.revise current) hcopies
  exact
    { get_target := hget
      linksUp := hup
      top_eq := htop
      fits := hfits
      enters := henters
      checked := hcheck
      copied := ⟨hcopied.size_eq, hcopied.old, hcopied.bottom, hcopied.above⟩
      root_eq := rfl
      copies_eq := rfl
      sound := fun hs => (sound_append_copies hs hchildren hcopies).relink _
      set_link := fun hnodup _ hp _ hc =>
        parent?_relink_of_visits (by rwa [preorder_relink] at hnodup) hp hc
      keep_link := fun hnodup _ hc =>
        parent?_relink_of_not_visits (by rwa [preorder_relink] at hnodup) hc }

end TreeEdit.Store
