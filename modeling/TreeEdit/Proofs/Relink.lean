import TreeEdit.Proofs.Descent
import TreeEdit.Store.Link

/-!
# Which links a walk sets

`Store.relink` goes down from a new root and stops at every child whose link is right. Where no slot
is reached twice, the slots it goes through depend on the links before the walk alone: `Visits` says
which they are. `parent?_relink_of_visits` and `parent?_relink_of_not_visits` then give every link
after the walk: the children of the slots it goes through name their lister, and no other link has
changed.
-/

namespace TreeEdit.Store

variable {s : Store} {before : NodeId → Option NodeId} {stack : List NodeId} {links : IdMap}

theorem parent?_withLinks_insert (s : Store) (links : IdMap) (child parent id : NodeId) :
    (s.withLinks (links.insert child parent)).parent? id =
      if id = child then some parent else (s.withLinks links).parent? id :=
  parent?_setParent (s.withLinks links) child parent id

@[simp] theorem preorder_relink (s : Store) (root id : NodeId) :
    (s.relink root).preorder id = s.preorder id :=
  preorder_congr fun _ _ => rfl

/-! ### One slot of the walk -/

theorem parent?_linkChildren (s : Store) (p : NodeId) (cs : List NodeId) (links : IdMap)
    (stack : List NodeId) (id : NodeId) :
    (s.withLinks (s.linkChildren p cs links stack).1).parent? id =
      if id ∈ cs then some p else (s.withLinks links).parent? id := by
  induction cs generalizing links stack with
  | nil => simp [linkChildren]
  | cons c cs ih =>
    rw [linkChildren]
    by_cases hid : id = c
    · subst hid
      split <;> simp_all [parent?_withLinks_insert]
    · split <;> simp [ih, parent?_withLinks_insert, hid]

theorem linkChildren_stack (s : Store) (p : NodeId) {cs : List NodeId} (links : IdMap)
    (stack : List NodeId) (hcs : cs.Nodup) :
    (s.linkChildren p cs links stack).2 =
      (cs.filter fun c => (s.withLinks links).parent? c ≠ some p).reverse ++ stack := by
  induction cs generalizing links stack with
  | nil => simp [linkChildren]
  | cons c cs ih =>
    obtain ⟨hc, hcs⟩ := List.nodup_cons.1 hcs
    rw [linkChildren]
    split
    · rename_i hright
      rw [ih links stack hcs, List.filter_cons_of_neg (by simpa using hright)]
    · rename_i hwrong
      rw [ih _ _ hcs, List.filter_cons_of_pos (by simpa using hwrong), List.reverse_cons,
        List.append_assoc, List.singleton_append]
      congr 2
      refine List.filter_congr fun d hd => ?_
      have hdc : d ≠ c := fun h => hc (h ▸ hd)
      rw [parent?_withLinks_insert, if_neg hdc]

/-! ### The whole walk -/

/-- The slots that a walk from a stack goes through, given the links before it: the slots of the
stack, and every child of such a slot whose link does not name it. -/
inductive Visits (under : NodeId → List NodeId) (before : NodeId → Option NodeId)
    (stack : List NodeId) : NodeId → Prop
  | start {id : NodeId} (h : id ∈ stack) : Visits under before stack id
  | down {p c : NodeId} (hp : Visits under before stack p) (hc : c ∈ under p)
      (wrong : before c ≠ some p) : Visits under before stack c

theorem Visits.mem_reached {x : NodeId} (h : Visits s.under before stack x) :
    x ∈ stack.flatMap s.preorder := by
  induction h with
  | start h => exact List.mem_flatMap.2 ⟨_, h, mem_preorder_self s _⟩
  | down _ hc _ ih =>
    obtain ⟨a, ha, hp⟩ := List.mem_flatMap.1 ih
    exact List.mem_flatMap.2 ⟨a, ha, mem_preorder_of_mem_under hp hc⟩

/-- In a forest without repetition every child has one lister. -/
theorem lister_eq_of_nodup (h : (stack.flatMap s.preorder).Nodup) {p q c : NodeId}
    (hp : p ∈ stack.flatMap s.preorder) (hq : q ∈ stack.flatMap s.preorder)
    (hcp : c ∈ s.under p) (hcq : c ∈ s.under q) : p = q := by
  obtain ⟨a, ha, hpa⟩ := List.mem_flatMap.1 hp
  obtain ⟨b, hb, hqb⟩ := List.mem_flatMap.1 hq
  obtain ⟨hsub, hdisj⟩ := List.nodup_flatMap.1 h
  by_cases hab : a = b
  · subst hab
    exact (uniqueListers_of_nodup (hsub a ha)).lister_eq p hpa q hqb c hcp hcq
  · have : Std.Symm (Function.onFun List.Disjoint s.preorder) := ⟨fun _ _ h => h.symm⟩
    exact absurd (mem_preorder_of_mem_under hqb hcq)
      (hdisj.forall ha hb hab (mem_preorder_of_mem_under hpa hcp))

section Step

variable {top : NodeId} {rest : List NodeId}

/-- The stack after one slot of the walk. -/
theorem nodup_linkChildren_stack (links : IdMap) (h : ((top :: rest).flatMap s.preorder).Nodup) :
    ((s.linkChildren top (s.under top) links rest).2.flatMap s.preorder).Nodup ∧
      top ∉ (s.linkChildren top (s.under top) links rest).2.flatMap s.preorder := by
  rw [List.flatMap_cons, preorder_eq, List.cons_append, List.nodup_cons] at h
  obtain ⟨htop, hrest⟩ := h
  have hunder : (s.under top).Nodup := by
    have hsub := (List.nodup_append.1 hrest).1
    refine (List.nodup_flatMap.1 hsub).2.imp ?_
    rintro a b hab rfl
    exact hab (mem_preorder_self s a) (mem_preorder_self s a)
  rw [linkChildren_stack s top links rest hunder]
  have hperm := ((List.reverse_perm ((s.under top).filter fun c =>
    (s.withLinks links).parent? c ≠ some top)).append_right rest).flatMap_right s.preorder
  have hsublist := ((List.filter_sublist (l := s.under top)
    (p := fun c => (s.withLinks links).parent? c ≠ some top)).append_right rest).flatMap s.preorder
  rw [← List.flatMap_append] at htop hrest
  exact ⟨hperm.nodup_iff.2 (hrest.sublist hsublist),
    fun hmem => htop (hsublist.subset (hperm.subset hmem))⟩

theorem mem_linkChildren_stack (h : ((top :: rest).flatMap s.preorder).Nodup) {x : NodeId} :
    x ∈ (s.linkChildren top (s.under top) links rest).2 ↔
      (x ∈ s.under top ∧ (s.withLinks links).parent? x ≠ some top) ∨ x ∈ rest := by
  have hunder := (uniqueListers_of_nodup
    ((List.nodup_flatMap.1 h).1 top List.mem_cons_self)).nodup_under top (mem_preorder_self s top)
  rw [linkChildren_stack s top links rest hunder]
  simp

/-- The walk goes through the slot on top, and then through what a walk from the new stack with the
new links goes through. -/
theorem visits_cons_iff (h : ((top :: rest).flatMap s.preorder).Nodup) {x : NodeId} :
    Visits s.under (s.withLinks links).parent? (top :: rest) x ↔
      x = top ∨
        Visits s.under (s.withLinks (s.linkChildren top (s.under top) links rest).1).parent?
          (s.linkChildren top (s.under top) links rest).2 x := by
  have htop : top ∈ (top :: rest).flatMap s.preorder :=
    List.mem_flatMap.2 ⟨top, List.mem_cons_self, mem_preorder_self s top⟩
  constructor
  · intro hx
    induction hx with
    | @start id hid =>
      rcases List.mem_cons.1 hid with rfl | hrest
      · exact Or.inl rfl
      · exact Or.inr (.start ((mem_linkChildren_stack h).2 (Or.inr hrest)))
    | @down p c hp hc wrong ih =>
      -- the children of `top` are on the new stack, and the links of all others are as before
      right
      by_cases hct : c ∈ s.under top
      · obtain rfl := lister_eq_of_nodup h hp.mem_reached htop hc hct
        exact .start ((mem_linkChildren_stack h).2 (Or.inl ⟨hct, wrong⟩))
      · rcases ih with rfl | ih
        · exact absurd hc hct
        · exact .down ih hc (by rwa [parent?_linkChildren, if_neg hct])
  · rintro (rfl | hx)
    · exact .start List.mem_cons_self
    · induction hx with
      | @start id hid =>
        rcases (mem_linkChildren_stack h).1 hid with ⟨hc, wrong⟩ | hrest
        · exact .down (.start List.mem_cons_self) hc wrong
        · exact .start (List.mem_cons_of_mem _ hrest)
      | @down p c _ hc wrong ih =>
        rw [parent?_linkChildren] at wrong
        split at wrong
        · rename_i hct
          exact absurd (by rw [lister_eq_of_nodup h ih.mem_reached htop hc hct]) wrong
        · exact .down ih hc wrong

end Step

/-- After a walk the children of the slots it went through name their lister, and every other link
is as it was. -/
theorem parent?_linkWalk (stack : List NodeId) (links : IdMap)
    (h : (stack.flatMap s.preorder).Nodup) :
    (∀ p, Visits s.under (s.withLinks links).parent? stack p → ∀ c ∈ s.under p,
      (s.withLinks (s.linkWalk stack links)).parent? c = some p) ∧
    (∀ c, (∀ p, Visits s.under (s.withLinks links).parent? stack p → c ∉ s.under p) →
      (s.withLinks (s.linkWalk stack links)).parent? c = (s.withLinks links).parent? c) := by
  induction stack, links using linkWalk.induct s with
  | case1 links =>
    refine ⟨fun p hp => ?_, fun c _ => by rw [linkWalk]⟩
    have := hp.mem_reached
    simp at this
  | case2 top rest links ih =>
    obtain ⟨hnodup, htop⟩ := nodup_linkChildren_stack links h
    obtain ⟨ihset, ihkeep⟩ := ih hnodup
    have hmem : top ∈ (top :: rest).flatMap s.preorder :=
      List.mem_flatMap.2 ⟨top, List.mem_cons_self, mem_preorder_self s top⟩
    rw [linkWalk]
    refine ⟨fun p hp c hc => ?_, fun c hfree => ?_⟩
    · rcases (visits_cons_iff h).1 hp with rfl | hp'
      · -- the rest of the walk does not come to a second lister of `c`
        rw [ihkeep c, parent?_linkChildren, if_pos hc]
        intro q hq hcq
        have hq' := ((visits_cons_iff h).2 (Or.inr hq)).mem_reached
        exact htop (lister_eq_of_nodup h hq' hmem hcq hc ▸ hq.mem_reached)
      · exact ihset p hp' c hc
    · have hct : c ∉ s.under top := hfree top ((visits_cons_iff h).2 (Or.inl rfl))
      rw [ihkeep c, parent?_linkChildren, if_neg hct]
      exact fun q hq => hfree q ((visits_cons_iff h).2 (Or.inr hq))

variable {root p c : NodeId}

theorem parent?_relink_of_visits (h : (s.preorder root).Nodup)
    (hp : Visits s.under s.parent? [root] p) (hc : c ∈ s.under p) :
    (s.relink root).parent? c = some p :=
  (parent?_linkWalk [root] s.top.parents (by simpa using h)).1 p hp c hc

theorem parent?_relink_of_not_visits (h : (s.preorder root).Nodup)
    (hc : ∀ p, Visits s.under s.parent? [root] p → c ∉ s.under p) :
    (s.relink root).parent? c = s.parent? c :=
  (parent?_linkWalk [root] s.top.parents (by simpa using h)).2 c hc

/-! ### Without looking at the shape of what is reached -/

/-- The slots that a walk takes from its stack, in whatever shape the store is. -/
inductive Walks (s : Store) : List NodeId → IdMap → NodeId → Prop
  | top {id : NodeId} {rest : List NodeId} {links : IdMap} : Walks s (id :: rest) links id
  | later {id x : NodeId} {rest : List NodeId} {links : IdMap}
      (h : Walks s (s.linkChildren id (s.under id) links rest).2
        (s.linkChildren id (s.under id) links rest).1 x) : Walks s (id :: rest) links x

theorem mem_linkChildren_of_mem (s : Store) (p : NodeId) (cs : List NodeId) (links : IdMap)
    {x : NodeId} (h : x ∈ stack) : x ∈ (s.linkChildren p cs links stack).2 := by
  induction cs generalizing links stack with
  | nil => exact h
  | cons c cs ih =>
    rw [linkChildren]
    split
    · exact ih links h
    · exact ih _ (List.mem_cons_of_mem _ h)

theorem mem_linkChildren_of_wrong {p x : NodeId} {cs : List NodeId} (hx : x ∈ cs)
    (wrong : (s.withLinks links).parent? x ≠ some p) :
    x ∈ (s.linkChildren p cs links stack).2 := by
  induction cs generalizing links stack with
  | nil => cases hx
  | cons c cs ih =>
    rw [linkChildren]
    by_cases hxc : x = c
    · subst hxc
      rw [if_neg wrong]
      exact mem_linkChildren_of_mem s p cs _ List.mem_cons_self
    · have hrest := (List.mem_cons.1 hx).resolve_left hxc
      split
      · exact ih hrest wrong
      · exact ih hrest (by rwa [parent?_withLinks_insert, if_neg hxc])

theorem mem_of_mem_linkChildren {p x : NodeId} {cs : List NodeId}
    (h : x ∈ (s.linkChildren p cs links stack).2) : x ∈ cs ∨ x ∈ stack := by
  induction cs generalizing links stack with
  | nil => exact Or.inr h
  | cons c cs ih =>
    rw [linkChildren] at h
    split at h
    · exact (ih h).imp_left (List.mem_cons_of_mem _)
    · rcases ih h with hx | hx
      · exact Or.inl (List.mem_cons_of_mem _ hx)
      · rcases List.mem_cons.1 hx with rfl | hx
        · exact Or.inl List.mem_cons_self
        · exact Or.inr hx

theorem walks_of_mem (stack : List NodeId) (links : IdMap) {x : NodeId} (h : x ∈ stack) :
    Walks s stack links x := by
  induction stack, links using linkWalk.induct s with
  | case1 links => cases h
  | case2 top rest links ih =>
    rcases List.mem_cons.1 h with rfl | hx
    · exact .top
    · exact .later (ih (mem_linkChildren_of_mem s _ _ _ hx))

theorem Walks.mem_reached {x : NodeId} (h : Walks s stack links x) :
    x ∈ stack.flatMap s.preorder := by
  induction h with
  | top => exact List.mem_flatMap.2 ⟨_, List.mem_cons_self, mem_preorder_self s _⟩
  | @later id x rest links _ ih =>
    obtain ⟨y, hy, hxy⟩ := List.mem_flatMap.1 ih
    rcases mem_of_mem_linkChildren hy with hy | hy
    · exact List.mem_flatMap.2
        ⟨id, List.mem_cons_self, mem_preorder_iff.2 (Or.inr ⟨y, hy, hxy⟩)⟩
    · exact List.mem_flatMap.2 ⟨y, List.mem_cons_of_mem _ hy, hxy⟩

/-- A walk goes on to every child whose link was wrong when it began. -/
theorem Walks.child {p x : NodeId} (h : Walks s stack links p) (hx : x ∈ s.under p)
    (wrong : (s.withLinks links).parent? x ≠ some p) : Walks s stack links x := by
  induction h with
  | top => exact .later (walks_of_mem _ _ (mem_linkChildren_of_wrong hx wrong))
  | @later id p rest links hp ih =>
    by_cases htop : p = id
    · subst htop
      exact .later (walks_of_mem _ _ (mem_linkChildren_of_wrong hx wrong))
    · -- whatever the top has done to the link, it does not name a slot that comes later
      refine .later (ih hx ?_)
      rw [parent?_linkChildren]
      split
      · simpa using Ne.symm htop
      · exact wrong

/-- A walk leaves a link as it was, or sets it to a lister that it goes through. -/
theorem parent?_linkWalk_cases (stack : List NodeId) (links : IdMap) (c : NodeId) :
    (s.withLinks (s.linkWalk stack links)).parent? c = (s.withLinks links).parent? c ∨
      ∃ p, Walks s stack links p ∧ c ∈ s.under p ∧
        (s.withLinks (s.linkWalk stack links)).parent? c = some p := by
  induction stack, links using linkWalk.induct s with
  | case1 links =>
    rw [linkWalk]
    exact Or.inl rfl
  | case2 top rest links ih =>
    rw [linkWalk]
    rcases ih with hkeep | ⟨p, hp, hc, hlink⟩
    · rw [hkeep, parent?_linkChildren]
      split
      · exact Or.inr ⟨top, .top, ‹_›, rfl⟩
      · exact Or.inl rfl
    · exact Or.inr ⟨p, .later hp, hc, hlink⟩

/-- The children of the slots that a walk goes through have right links after it. -/
theorem Walks.parent?_linkWalk {p c : NodeId} (h : Walks s stack links p) (hc : c ∈ s.under p) :
    ∃ q, Walks s stack links q ∧ c ∈ s.under q ∧
      (s.withLinks (s.linkWalk stack links)).parent? c = some q := by
  induction h with
  | @top id rest links =>
    rw [linkWalk]
    rcases parent?_linkWalk_cases (s.linkChildren id (s.under id) links rest).2
        (s.linkChildren id (s.under id) links rest).1 c with hkeep | ⟨q, hq, hcq, hlink⟩
    · exact ⟨id, .top, hc, by rw [hkeep, parent?_linkChildren, if_pos hc]⟩
    · exact ⟨q, .later hq, hcq, hlink⟩
  | later _ ih =>
    obtain ⟨q, hq, hcq, hlink⟩ := ih hc
    rw [linkWalk]
    exact ⟨q, .later hq, hcq, hlink⟩

/-- Whatever the shape of what is reached, a walk only sets links to listers below the stack. -/
theorem parent?_linkWalk_eq_some (stack : List NodeId) (links : IdMap) {child parent : NodeId}
    (h : (s.withLinks (s.linkWalk stack links)).parent? child = some parent) :
    (s.withLinks links).parent? child = some parent ∨ child ∈ s.under parent := by
  rcases parent?_linkWalk_cases stack links child with hkeep | ⟨p, -, hc, hlink⟩
  · exact Or.inl (hkeep ▸ h)
  · obtain rfl : p = parent := Option.some.inj (hlink.symm.trans h)
    exact Or.inr hc

theorem parent?_relink_eq_some (h : (s.relink root).parent? c = some p) :
    s.parent? c = some p ∨ c ∈ s.under p :=
  parent?_linkWalk_eq_some [root] s.top.parents h

end TreeEdit.Store
