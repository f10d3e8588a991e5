import TreeEdit.Proofs.Generation
import TreeEdit.Proofs.Steady

/-!
# Which roots a builder can be finished at

`Store.finish` refuses a root that no slot has been given out for, and a root from which a slot is
reached twice. `Store.finish_eq_error` says that there is no third cause, and that the slot named in
the refusal is one that is reached twice. So a builder is finished exactly at the roots of trees.
Then links, child lists and `Tree.isAttached` tell the same: `Store.finish_accepts_trees`.
-/

namespace TreeEdit

/-! ### Refusals -/

namespace Store

variable {s : Store} {seen : IdSet} {links : IdMap} {stack : List NodeId} {root : NodeId}
  {err : Error}

theorem attachChildren_eq_error {parent : NodeId} {cs : List NodeId} {a : Attaching}
    (h : attachChildren parent cs a = .error err) :
    ∃ c, err = .treeState (.attachedTwice c) ∧ c ∈ cs ∧ (c ∈ a.seen ∨ 2 ≤ cs.count c) := by
  induction cs generalizing a with
  | nil => cases h
  | cons d cs ih =>
    rw [attachChildren] at h
    split at h
    · rename_i hd
      cases h
      exact ⟨d, rfl, List.mem_cons_self, Or.inl (Std.ExtTreeSet.mem_iff_contains.2 hd)⟩
    · obtain ⟨c, rfl, hc, hagain⟩ := ih h
      refine ⟨c, rfl, List.mem_cons_of_mem _ hc, ?_⟩
      have hpos : 0 < cs.count c := List.count_pos_iff.2 hc
      by_cases hcd : d = c
      · subst hcd
        right
        rw [List.count_cons_self]
        omega
      · rw [List.count_cons_of_ne hcd]
        refine hagain.imp_left fun hseen => ?_
        exact (IdSet.mem_insert_iff.1 hseen).resolve_left (Ne.symm hcd)

/-- The slot at which the walk stops is beneath the stack, and was seen before or comes up twice. -/
theorem attachWalk_eq_error (h : s.attachWalk seen links stack = .error err) :
    ∃ c, err = .treeState (.attachedTwice c) ∧ c ∈ stack.flatMap s.beneath ∧
      (c ∈ seen ∨ 2 ≤ (stack.flatMap s.beneath).count c) := by
  induction seen, links, stack using attachWalk.induct s with
  | case1 seen links =>
    rw [attachWalk] at h
    cases h
  | case2 seen links id rest e he =>
    rw [attachWalk, he] at h
    cases h
    obtain ⟨c, rfl, hc, hagain⟩ := attachChildren_eq_error he
    have hperm := flatMap_beneath_perm s id rest
    refine ⟨c, rfl, hperm.mem_iff.2 (List.mem_append_left _ hc), hagain.imp_right fun htwice => ?_⟩
    rw [hperm.count_eq, List.count_append]
    omega
  | case3 seen links id rest a ha ih =>
    rw [attachWalk, ha] at h
    obtain ⟨c, rfl, hc, hagain⟩ := ih h
    obtain ⟨-, -, hseen, hstack, -⟩ := attachChildren_eq_ok (s := s) ha
    have hperm := hstack ▸ flatMap_beneath_perm s id rest
    refine ⟨c, rfl, hperm.mem_iff.2 (List.mem_append_right _ hc), ?_⟩
    rw [hperm.count_eq, List.count_append]
    -- a child of `id` that is seen has been reached from `id`, and `c` is reached once more
    rcases hagain with hagain | htwice
    · rcases (hseen c).1 hagain with hchild | hearlier
      · have hfirst := List.count_pos_iff.2 hchild
        have hsecond := List.count_pos_iff.2 hc
        exact Or.inr (by omega)
      · exact Or.inl hearlier
    · exact Or.inr (by omega)

/-- Why a root is refused: it does not exist, or some slot is reached twice from it. -/
theorem finish_eq_error (h : s.finish root = .error err) :
    (s.get? root = none ∧ err = .treeState (.unknownNode root s.size)) ∨
      ∃ c, err = .treeState (.attachedTwice c) ∧ 2 ≤ (s.preorder root).count c := by
  unfold finish at h
  cases hn : s.get? root with
  | none =>
    rw [node, hn] at h
    cases h
    exact Or.inl ⟨rfl, rfl⟩
  | some n =>
    rw [node_eq_ok_iff.2 hn] at h
    cases hwalk : s.attachWalk {root} s.top.parents [root] with
    | ok links =>
      rw [hwalk] at h
      cases h
    | error e =>
      rw [hwalk] at h
      cases h
      obtain ⟨c, rfl, hc, hagain⟩ := attachWalk_eq_error hwalk
      rw [List.flatMap_singleton] at hc hagain
      refine Or.inr ⟨c, rfl, ?_⟩
      rw [preorder_eq_cons_beneath]
      rcases hagain with hroot | htwice
      · -- the root was seen first, and it would be reached a second time
        obtain rfl : root = c := by simpa using hroot
        have hpos := List.count_pos_iff.2 hc
        rw [List.count_cons_self]
        omega
      · exact Nat.le_trans htwice List.count_le_count_cons

/-- A root is accepted exactly if it exists and no slot is reached twice from it. -/
theorem exists_finish_iff (hs : s.Sound) :
    (∃ t, s.finish root = .ok t) ↔ root < s.size ∧ (s.preorder root).Nodup := by
  constructor
  · rintro ⟨t, h⟩
    obtain ⟨-, hroot, hnodup, -⟩ := finish_eq_ok h
    exact ⟨hroot, hnodup⟩
  · rintro ⟨hroot, hnodup⟩
    cases h : s.finish root with
    | ok t => exact ⟨t, rfl⟩
    | error err =>
      exfalso
      rcases finish_eq_error h with ⟨hnone, -⟩ | ⟨c, -, htwice⟩
      · obtain ⟨n, hn⟩ := hs.full root hroot
        rw [hnone] at hn
        cases hn
      · have honce := List.nodup_iff_count_le_one.1 hnodup c
        omega

/-! ### Slots that have been given out -/

/-- A slot that one of the offers to a builder was answered with. -/
def Allocated (nodes : List Node) (id : NodeId) : Prop :=
  ∃ earlier n, earlier ++ [n] <+: nodes ∧ ((build earlier).alloc n).2 = .ok id

theorem build_append_singleton (nodes : List Node) (n : Node) :
    build (nodes ++ [n]) = ((build nodes).alloc n).1 := by
  simp [build]

theorem allocated_append_singleton (nodes : List Node) (n : Node) (id : NodeId) :
    Allocated (nodes ++ [n]) id ↔ Allocated nodes id ∨ ((build nodes).alloc n).2 = .ok id := by
  constructor
  · rintro ⟨earlier, m, hle, hanswer⟩
    rcases List.prefix_concat_iff.1 hle with heq | hle
    · obtain ⟨rfl, hm⟩ := List.append_inj' heq rfl
      cases hm
      exact Or.inr hanswer
    · exact Or.inl ⟨earlier, m, hle, hanswer⟩
  · rintro (⟨earlier, m, hle, hanswer⟩ | hanswer)
    · exact ⟨earlier, m, hle.trans (List.prefix_append _ _), hanswer⟩
    · exact ⟨nodes, n, List.prefix_refl _, hanswer⟩

/-- Slots are given out in order and without gaps, and a refused offer takes none. -/
theorem allocated_iff (nodes : List Node) (id : NodeId) :
    Allocated nodes id ↔ id < (build nodes).size := by
  induction nodes using List.reverseRecOn with
  | nil =>
    constructor
    · rintro ⟨earlier, n, hle, -⟩
      simp at hle
    · intro h
      exact absurd h (Nat.not_lt_zero id)
  | append_singleton nodes n ih =>
    rw [allocated_append_singleton, build_append_singleton, ih]
    rcases alloc_cases (build nodes) n with ⟨err, herr⟩ | ⟨hok, -, -⟩
    · simp [herr]
    · rw [hok, size_append, List.length_singleton]
      show id < (build nodes).size ∨ Except.ok (build nodes).size = .ok id ↔ _
      rw [Except.ok.injEq, eq_comm, Nat.lt_succ_iff_lt_or_eq]

end Store

/-! ### Links of a finished tree -/

namespace Tree

variable {t : Tree} {x : NodeId}

/-- Links, child lists and being attached tell the same of a tree: the root has no link, the link of
every other node that is reached names its one lister, no other slot has a link, and what is reached
is what is attached. -/
structure LinksReached (t : Tree) : Prop where
  root_free : t.parent? t.root = none
  linked : ∀ x ∈ t.descendants t.root, x ≠ t.root →
    ∃ p ∈ t.descendants t.root, t.parent? x = some p ∧ x ∈ t.children p ∧
      ∀ q ∈ t.descendants t.root, x ∈ t.children q → q = p
  unreached_free : ∀ x, x ∉ t.descendants t.root → t.parent? x = none
  attached : ∀ x, t.isAttached x = true ↔ x ∈ t.descendants t.root

/-- In a tree, the links from a node that is reached lead to the root. -/
theorem IsTree.exists_linksUp (h : t.IsTree) (hx : x ∈ t.store.preorder t.root) :
    ∃ above, t.store.LinksUp x above ∧ Store.chainTop x above = t.root := by
  refine Store.preorder_induction (P := fun x => ∃ above, t.store.LinksUp x above ∧
    Store.chainTop x above = t.root) ⟨[], h.root_free, rfl⟩ ?_ x hx
  rintro p hp ⟨above, hup, htop⟩ c hc
  exact ⟨p :: above, ⟨h.linked p hp c hc, hup⟩, by rwa [Store.chainTop_cons]⟩

theorem IsTree.isAttached_iff_mem (h : t.IsTree) (ht : t.Sound) :
    t.isAttached x = true ↔ x ∈ t.store.preorder t.root := by
  constructor
  · exact mem_preorder_of_isAttached ht.store
  · intro hx
    obtain ⟨above, hup, htop⟩ := h.exists_linksUp hx
    have hlt : x < t.store.size := Nat.lt_of_le_of_lt (Store.le_of_mem_preorder hx) ht.root
    rw [isAttached_iff, ancestors_eq ht.store hup]
    exact ⟨hlt, htop⟩

theorem IsTree.linksReached (h : t.IsTree) (ht : t.Sound)
    (free : ∀ x, x ∉ t.store.preorder t.root → t.store.parent? x = none) : t.LinksReached := by
  have hpre : t.descendants t.root = t.store.preorder t.root := descendants_eq ht.root
  have hchildren : ∀ q, t.children q = t.store.under q := fun q =>
    (ht.store.under_eq_children q).symm
  have once := Store.uniqueListers_of_nodup h.once
  constructor
  · exact h.root_free
  · rw [hpre]
    intro x hx hroot
    obtain ⟨p, hp, hxp⟩ := (Store.eq_or_exists_lister hx).resolve_left hroot
    refine ⟨p, hp, h.linked p hp x hxp, by rwa [hchildren], fun q hq hxq => ?_⟩
    rw [hchildren] at hxq
    exact once.lister_eq q hq p hp x hxq hxp
  · rwa [hpre]
  · intro x
    rw [hpre]
    exact h.isAttached_iff_mem ht

end Tree

namespace Store

/-- A builder had no links, so a finished tree has none but those of the nodes reached. -/
theorem parent?_finish {nodes : List Node} {root x : NodeId} {t : Tree}
    (h : (build nodes).finish root = .ok t) (hx : x ∉ t.store.preorder t.root) :
    t.store.parent? x = none := by
  obtain ⟨rfl, -, -, links, hstore, -, hkept⟩ := finish_eq_ok h
  have hpre : t.store.preorder t.root = (build nodes).preorder t.root :=
    preorder_congr fun y _ => by rw [hstore, under_withLinks]
  rw [hpre] at hx
  rw [hkept x fun p hp hxp => hx (mem_preorder_of_mem_under hp hxp), parent?_build]

/-- Whatever has been offered to a builder, it is finished at a root exactly if that slot was given
out and no slot is reached twice from it. A refusal says which of the two fails. A finished tree has
the values of the builder, and a link from each node that is reached to the only one that lists
it. -/
theorem finish_accepts_trees (nodes : List Node) (root : NodeId) :
    ((∃ t, (build nodes).finish root = .ok t) ↔
      Allocated nodes root ∧ ((build nodes).preorder root).Nodup) ∧
    (∀ err, (build nodes).finish root = .error err →
      (¬Allocated nodes root ∧ err = .treeState (.unknownNode root (build nodes).size)) ∨
        ∃ c, err = .treeState (.attachedTwice c) ∧ 2 ≤ ((build nodes).preorder root).count c) ∧
    ∀ t, (build nodes).finish root = .ok t →
      t.root = root ∧ (∀ id, t.get? id = (build nodes).get? id) ∧ t.LinksReached := by
  have hs := sound_build nodes
  refine ⟨?_, fun err h => ?_, fun t h => ?_⟩
  · rw [allocated_iff]
    exact exists_finish_iff hs
  · rcases finish_eq_error h with ⟨hnone, herr⟩ | htwice
    · refine Or.inl ⟨fun hroot => ?_, herr⟩
      obtain ⟨n, hn⟩ := hs.full root ((allocated_iff nodes root).1 hroot)
      rw [hnone] at hn
      cases hn
    · exact Or.inr htwice
  · have htree := Tree.isTree_of_finish h
    refine ⟨(finish_eq_ok h).1, fun id => ?_, ?_⟩
    · obtain ⟨-, -, -, links, hstore, -⟩ := finish_eq_ok h
      rw [Tree.get?, hstore, get?_withLinks]
    · exact htree.linksReached (sound_finish h) fun x hx => parent?_finish h hx

/-- Slots 1 and 2 both list slot 0, and slot 3 lists the two. The third offer is refused. -/
def sharingNodes : List Node :=
  [Context.leafAt 1, Context.blockAt 2 [0], Context.blockAt 3 [7], Context.blockAt 3 [0],
    Context.blockAt 4 [1, 2]]

theorem finish_accepts_trees_sharing :
    (¬∃ t, (build sharingNodes).finish 3 = .ok t) ∧
      ∃ t, (build sharingNodes).finish 1 = .ok t ∧ t.root = 1 ∧ t.LinksReached := by
  constructor
  · intro h
    exact absurd ((finish_accepts_trees sharingNodes 3).1.1 h).2 (by decide +kernel)
  · have hallocated : Allocated sharingNodes 1 := (allocated_iff _ _).2 (by decide +kernel)
    obtain ⟨t, ht⟩ := (finish_accepts_trees sharingNodes 1).1.2 ⟨hallocated, by decide +kernel⟩
    obtain ⟨hroot, -, hlinks⟩ := (finish_accepts_trees sharingNodes 1).2.2 t ht
    exact ⟨t, ht, hroot, hlinks⟩

end Store

end TreeEdit
