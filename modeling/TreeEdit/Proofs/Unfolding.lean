import TreeEdit.Proofs.PathCopy
import TreeEdit.Tree.Rose

/-!
# Path copying as substitution

Below the slots there is a plain tree of attributes, `Store.unfold`. `Rose.at?` and `Rose.replaceAt`
read and exchange the subtree at one position, given by child numbers from the top.
`Edited.unfold_root` says that an edit does just that: the tree below the new root is the tree below
the old one, with another subtree at the position of the path.
-/

namespace TreeEdit

/-! ### Positions in a tree -/

namespace Rose

/-- The subtree at a position, given by the number of the child to go to at each level. -/
def at? : List Nat → Rose → Option Rose
  | [], t => some t
  | _ :: _, absent => none
  | i :: route, node _ children => children[i]?.bind (at? route)

/-- The tree with another subtree at a position. -/
def replaceAt : Rose → List Nat → Rose → Rose
  | _, [], new => new
  | absent, _ :: _, _ => absent
  | node a children, i :: route, new => node a (children.modify i (·.replaceAt route new))

@[simp] theorem at?_nil (t : Rose) : t.at? [] = some t := by
  rw [at?]

@[simp] theorem replaceAt_nil (new t : Rose) : t.replaceAt [] new = new := by
  rw [replaceAt]

theorem replaceAt_cons_of_getElem? (new : Rose) (a : Attributes) {children : List Rose} {i : Nat}
    {t : Rose} (h : children[i]? = some t) (route : List Nat) :
    (node a children).replaceAt (i :: route) new =
      node a (children.set i (t.replaceAt route new)) := by
  rw [replaceAt]
  congr 1
  obtain ⟨hi, rfl⟩ := List.getElem?_eq_some_iff.1 h
  refine List.ext_getElem? fun k => ?_
  by_cases hk : i = k
  · subst hk
    simp [hi]
  · simp [hk]

/-- To put the subtree of a position into its own place changes nothing. -/
theorem replaceAt_of_at? {t u : Rose} {route : List Nat} (h : t.at? route = some u) :
    t.replaceAt route u = t := by
  induction route generalizing t with
  | nil =>
    rw [at?_nil, Option.some.injEq] at h
    rw [replaceAt_nil, h]
  | cons i route ih =>
    cases t with
    | absent => simp [at?] at h
    | node a children =>
      rw [at?] at h
      obtain ⟨child, hchild, hrest⟩ := Option.bind_eq_some_iff.1 h
      obtain ⟨hi, rfl⟩ := List.getElem?_eq_some_iff.1 hchild
      rw [replaceAt_cons_of_getElem? u a hchild, ih hrest, List.set_getElem_self]

theorem at?_append (t : Rose) (route more : List Nat) :
    t.at? (route ++ more) = (t.at? route).bind (at? more) := by
  induction route generalizing t with
  | nil => rw [List.nil_append, at?_nil, Option.bind_some]
  | cons i route ih =>
    cases t with
    | absent => simp [at?]
    | node a children =>
      rw [List.cons_append, at?, at?]
      cases children[i]? with
      | none => rfl
      | some child => exact ih child

/-- To exchange something inside of the subtree at a position is to exchange that subtree. -/
theorem replaceAt_append {t u : Rose} {route : List Nat} (h : t.at? route = some u)
    (more : List Nat) (new : Rose) :
    t.replaceAt (route ++ more) new = t.replaceAt route (u.replaceAt more new) := by
  induction route generalizing t with
  | nil =>
    rw [at?_nil, Option.some.injEq] at h
    rw [List.nil_append, replaceAt_nil, h]
  | cons i route ih =>
    cases t with
    | absent => simp [at?] at h
    | node a children =>
      rw [at?] at h
      obtain ⟨child, hchild, hrest⟩ := Option.bind_eq_some_iff.1 h
      rw [List.cons_append, replaceAt_cons_of_getElem? _ a hchild,
        replaceAt_cons_of_getElem? _ a hchild, ih hrest]

theorem replaceAt_replaceAt (t : Rose) (route : List Nat) (new newer : Rose) :
    (t.replaceAt route new).replaceAt route newer = t.replaceAt route newer := by
  induction route generalizing t with
  | nil => rw [replaceAt_nil, replaceAt_nil]
  | cons i route ih =>
    cases t with
    | absent => rw [replaceAt, replaceAt]
    | node a children =>
      rw [replaceAt, replaceAt, replaceAt, List.modify_modify_eq]
      congr 2
      exact funext ih

end Rose

/-- The child numbers along a chain of slots, each listed by the one before it. -/
def Store.route (s : Store) : List NodeId → List Nat
  | p :: c :: rest => (s.children p).idxOf c :: s.route (c :: rest)
  | _ => []

/-- The tree of attributes that a node would have below it. -/
def Store.spread (s : Store) (n : Node) : Rose :=
  .node n.attributes (n.children.map s.unfold)

namespace Store

variable {s s' t : Store} {f : Forward} {root id : NodeId} {e : Edit} {above : List NodeId}
  {current n : Node} {r : Rebuilt}

/-! ### Unfolding -/

theorem unfold_eq (s : Store) (id : NodeId) :
    s.unfold id = match s.get? id with
      | none => .absent
      | some n => .node n.attributes ((s.under id).map s.unfold) := by
  rw [unfold]
  cases s.get? id with
  | none => rfl
  | some n => rw [List.map_attach_eq_pmap, List.pmap_eq_map]

theorem Sound.unfold_eq (hs : s.Sound) (hn : s.get? id = some n) :
    s.unfold id = s.spread n := by
  rw [Store.unfold_eq, hn, spread, hs.under_eq hn]

/-- The tree below a slot depends on the values of the slots that are reached from it. -/
theorem unfold_congr (h : ∀ x ∈ s.preorder id, t.get? x = s.get? x) :
    t.unfold id = s.unfold id := by
  induction id using Nat.strong_induction_on with
  | _ id ih =>
    have htop := h id (mem_preorder_self s id)
    rw [Store.unfold_eq t, Store.unfold_eq s, htop, under_congr htop]
    cases s.get? id with
    | none => rfl
    | some n =>
      show Rose.node n.attributes _ = Rose.node n.attributes _
      congr 1
      refine List.map_congr_left fun c hc => ih c (lt_of_mem_under hc) fun x hx => h x ?_
      exact mem_preorder_iff.2 (Or.inr ⟨c, hc, hx⟩)

theorem reverse_take_succ {ids : List NodeId} {i : Nat} (h : ids[i]? = some id) :
    (ids.take (i + 1)).reverse = id :: (ids.take i).reverse := by
  rw [List.take_add_one, h]
  simp

/-- The child numbers down from one node of a path start with that of the next node down. -/
theorem route_take_succ (s : Store) {ids : List NodeId} {i : Nat} {p q : NodeId}
    (hp : ids[i]? = some p) (hq : ids[i + 1]? = some q) :
    s.route (ids.take (i + 1 + 1)).reverse =
      (s.children q).idxOf p :: s.route (ids.take (i + 1)).reverse := by
  rw [reverse_take_succ hq, reverse_take_succ hp, route]

theorem route_append (s : Store) (ids : List NodeId) (id : NodeId) (more : List NodeId) :
    s.route (ids ++ id :: more) = s.route (ids ++ [id]) ++ s.route (id :: more) := by
  induction ids with
  | nil => rfl
  | cons p ids ih =>
    cases ids with
    | nil => rfl
    | cons q ids =>
      simp only [List.cons_append] at ih
      simp only [List.cons_append, route, ih]

/-- The way down to a slot is the way down to its parent and one step more. -/
theorem route_reverse_cons (s : Store) (id p : NodeId) (above : List NodeId) :
    s.route (id :: p :: above).reverse =
      s.route (p :: above).reverse ++ [(s.children p).idxOf id] := by
  rw [List.reverse_cons, List.reverse_cons, List.append_assoc, List.singleton_append, route_append]
  rfl

/-- A child stands below its lister, at its number in the child list. -/
theorem Sound.at?_child (hs : s.Sound) {p : NodeId} (h : id ∈ s.under p) :
    (s.unfold p).at? [(s.children p).idxOf id] = some (s.unfold id) := by
  obtain ⟨n, hn⟩ : ∃ n, s.get? p = some n := by
    cases hn : s.get? p with
    | none => rw [hs.under_eq_children, Store.children, hn] at h; cases h
    | some n => exact ⟨n, rfl⟩
  rw [hs.under_eq hn] at h
  rw [hs.unfold_eq hn, children_of_get? hn, spread, Rose.at?, List.getElem?_map,
    List.getElem?_idxOf h]
  rfl

/-- A slot stands at the position that its chain of links gives. -/
theorem LinksUp.at?_route (hs : s.Sound) (h : s.LinksUp id above) :
    (s.unfold (chainTop id above)).at? (s.route (id :: above).reverse) = some (s.unfold id) := by
  induction above generalizing id with
  | nil => exact Rose.at?_nil _
  | cons p above ih =>
    rw [chainTop_cons, route_reverse_cons, Rose.at?_append, ih h.2, Option.bind_some]
    exact hs.at?_child (hs.listed id p h.1)

namespace Edited

theorem unfold_old (h : Edited s f root e above current s' r) (hid : id < s.size) :
    s'.unfold id = s.unfold id :=
  unfold_congr fun _ hx => h.copied.old _ (Nat.lt_of_le_of_lt (le_of_mem_preorder hx) hid)

theorem map_unfold_old (h : Edited s f root e above current s' r) {ids : List NodeId}
    (hids : ∀ x ∈ ids, x < s.size) : ids.map s'.unfold = ids.map s.unfold :=
  List.map_congr_left fun x hx => h.unfold_old (hids x hx)

/-- The tree below the copy of the target. -/
theorem unfold_bottom (h : Edited s f root e above current s' r) (hs : s.Sound) :
    s'.unfold s.size = s.spread (e.revise current) := by
  have hchildren := ((check_eq_ok_iff s _).1 h.checked).2.1
  rw [(h.sound hs).unfold_eq h.copied.bottom, spread, spread, h.map_unfold_old hchildren]

/-- The position of the target below a node of the path, by the part of the path that is between. -/
theorem at?_route (h : Edited s f root e above current s' r) (hs : s.Sound) {i : Nat}
    {q : NodeId} (hq : (e.target :: above)[i]? = some q) :
    (s.unfold q).at? (s.route ((e.target :: above).take (i + 1)).reverse) =
      some (s.unfold e.target) := by
  induction i generalizing q with
  | zero =>
    obtain rfl : e.target = q := by simpa using hq
    simp [route]
  | succ i ih =>
    have hi : i < (e.target :: above).length :=
      Nat.lt_of_succ_lt (List.getElem?_eq_some_iff.1 hq).1
    have hp := List.getElem?_eq_getElem hi
    obtain ⟨n, hn, hmem, -⟩ := h.copied.above i _ q hp hq
    rw [hs.unfold_eq hn, route_take_succ s hp hq, children_of_get? hn, spread, Rose.at?,
      List.getElem?_map, List.getElem?_idxOf hmem]
    exact ih hp

/-- The tree below the copy of each node of the path, by the part of the path that is below it. -/
theorem unfold_copy (h : Edited s f root e above current s' r) (hs : s.Sound) {i : Nat}
    {q : NodeId} (hq : (e.target :: above)[i]? = some q) :
    s'.unfold (s.size + i) =
      (s.unfold q).replaceAt (s.route ((e.target :: above).take (i + 1)).reverse)
        (s.spread (e.revise current)) := by
  -- from the target up: a copy differs from its model in one child, whose tree is known
  induction i generalizing q with
  | zero =>
    obtain rfl : e.target = q := by simpa using hq
    simpa [route] using h.unfold_bottom hs
  | succ i ih =>
    have hi : i < (e.target :: above).length :=
      Nat.lt_of_succ_lt (List.getElem?_eq_some_iff.1 hq).1
    have hp := List.getElem?_eq_getElem hi
    obtain ⟨n, hn, hmem, hget⟩ := h.copied.above i _ q hp hq
    have hold : ∀ x ∈ n.children, x < s.size := fun x hx =>
      Nat.lt_trans (hs.earlier q n hn x hx) (lt_size_of_get? hn)
    have hchild : (n.children.map s.unfold)[n.children.idxOf (e.target :: above)[i]]? =
        some (s.unfold (e.target :: above)[i]) := by
      rw [List.getElem?_map, List.getElem?_idxOf hmem]
      rfl
    rw [(h.sound hs).unfold_eq hget, hs.unfold_eq hn, route_take_succ s hp hq, children_of_get? hn,
      spread, spread, Rose.replaceAt_cons_of_getElem? _ _ hchild, ← ih hp]
    show Rose.node n.attributes ((n.children.set _ _).map s'.unfold) = _
    rw [List.map_set, h.map_unfold_old hold]

theorem getElem?_spine_root (h : Edited s f root e above current s' r) :
    (e.target :: above)[above.length]? = some root := by
  rw [← h.top_eq]
  exact chainTop_eq_getElem? e.target above

/-- The target stands at the position of the path. -/
theorem at?_route_root (h : Edited s f root e above current s' r) (hs : s.Sound) :
    (s.unfold root).at? (s.route (e.target :: above).reverse) = some (s.unfold e.target) := by
  rw [← h.at?_route hs h.getElem?_spine_root, List.take_of_length_le (by simp)]

/-- The tree below the new root. -/
theorem unfold_root (h : Edited s f root e above current s' r) (hs : s.Sound) :
    s'.unfold r.root =
      (s.unfold root).replaceAt (s.route (e.target :: above).reverse)
        (s.spread (e.revise current)) := by
  rw [h.root_eq, h.unfold_copy hs h.getElem?_spine_root, List.take_of_length_le (by simp)]

end Edited

end Store

/-- The position of a slot in the tree: the child numbers down to it, by its parent links. -/
def Tree.position (t : Tree) (id : NodeId) : List Nat :=
  t.store.route (id :: t.ancestors id).reverse

/-- An attached slot stands at its position. -/
theorem Tree.at?_position {t : Tree} (ht : t.store.Sound) {id : NodeId}
    (h : t.isAttached id = true) : t.rose.at? (t.position id) = some (t.store.unfold id) := by
  have hroute := (linksUp_ancestors ht id).at?_route ht
  rwa [(isAttached_iff.1 h).2] at hroute

end TreeEdit
