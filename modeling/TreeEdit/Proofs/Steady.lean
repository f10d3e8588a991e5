import TreeEdit.Proofs.Detaching

/-!
# The part of a tree that stays

Edits may bring a generation about that is no tree, since links can be stray. The part of the first
generation that nothing has been taken out of, or out of what is above it, is not touched by this.
`Store.Steady` says so of a set of nodes of the first generation, given by their origins: each has
one current copy, this is the only one that is reached, its link leads to the current copy of its
parent, and it is reached from there and from nowhere else. An edit keeps this as long as it takes
none of the set out, whatever else it does.
-/

namespace TreeEdit

namespace Store

variable {s s' : Store} {f : Forward} {root : NodeId} {e : Edit} {above : List NodeId}
  {current : Node} {r : Rebuilt} {c p q x y z : NodeId} {i : Nat}

/-! ### Links after a rebuilding -/

/-- A link is as it was before a rebuilding, or names a lister that is reached from the new root.
The children of the copies have links of the second kind. -/
structure Relinked (s s' : Store) (above : List NodeId) (root : NodeId) : Prop where
  cases : ∀ c, s'.parent? c = s.parent? c ∨
    ∃ q ∈ s'.preorder root, c ∈ s'.under q ∧ s'.parent? c = some q
  copies : ∀ i ≤ above.length, ∀ c ∈ s'.under (s.size + i),
    ∃ q ∈ s'.preorder root, c ∈ s'.under q ∧ s'.parent? c = some q

theorem relinked_of_rebuild {way : Path} {value : Node} (hs : s.Sound)
    (hedited : Edited s f root e above current s' r) (h : s.rebuild way value = (s', .ok r)) :
    Relinked s s' above r.root := by
  obtain ⟨-, -, copies, -, rfl, hr⟩ := rebuild_eq_ok_iff.1 h
  have hroot : r.root = s.size + way.above.length := by rw [hr]
  rw [← hroot] at hedited ⊢
  have hwalk : ∀ q, Walks (s.append (value :: copies)) [r.root]
      (s.append (value :: copies)).top.parents q →
      q ∈ ((s.append (value :: copies)).relink r.root).preorder r.root := by
    intro q hq
    rw [preorder_relink]
    simpa using hq.mem_reached
  have hcopy : ∀ i ≤ above.length, Walks (s.append (value :: copies)) [r.root]
      (s.append (value :: copies)).top.parents (s.size + i) := by
    intro i hi
    -- from the new root down, as no link leads to a slot that is new
    obtain ⟨k, hk⟩ := Nat.exists_eq_add_of_le hi
    induction k generalizing i with
    | zero =>
      obtain rfl : i = above.length := by omega
      rw [← hedited.root_eq]
      exact .top
    | succ k ih =>
      refine (ih (i + 1) (by omega) (by omega)).child (hedited.copy_mem_under hs (by omega)) ?_
      show (s.append (value :: copies)).parent? (s.size + i) ≠ _
      rw [parent?_append, hs.parent?_eq_none (Nat.le_add_right _ _)]
      simp
  refine ⟨fun c => ?_, fun i hi c hc => ?_⟩
  · rcases parent?_linkWalk_cases (s := s.append (value :: copies)) [r.root]
        (s.append (value :: copies)).top.parents c with hkeep | ⟨q, hq, hcq, hlink⟩
    · exact Or.inl hkeep
    · exact Or.inr ⟨q, hwalk q hq, hcq, hlink⟩
  · obtain ⟨q, hq, hcq, hlink⟩ := (hcopy i hi).parent?_linkWalk hc
    exact ⟨q, hwalk q hq, hcq, hlink⟩

/-! ### Tables after a rebuilding -/

namespace Edited

/-- A slot with an origin that was there before is an old one or a copy. -/
theorem origin_cases (h : Edited s f root e above current s' r) (hs : s.Sound)
    (fresh : ∀ x, s.size ≤ x → f.origins.get? x = none) (hz : (f.record r).origin z < s.size) :
    (z < s.size ∧ (f.record r).origin z = f.origin z) ∨
      ∃ i a, (e.target :: above)[i]? = some a ∧ z = s.size + i ∧
        (f.record r).origin z = f.origin a := by
  rcases Nat.lt_or_ge z s.size with hlt | hge
  · exact Or.inl ⟨hlt, h.origin_old hlt⟩
  · obtain ⟨i, rfl⟩ := Nat.exists_eq_add_of_le hge
    rcases Nat.lt_or_ge i (e.target :: above).length with hi | hi
    · have ha := List.getElem?_eq_getElem hi
      exact Or.inr ⟨i, _, ha, rfl, h.origin_copy hs ha⟩
    · have hself : (f.record r).origin (s.size + i) = s.size + i := by
        rw [h.record_eq, Forward.origin, Forward.origins_recordSpine_of_le f (by omega),
          fresh _ hge]
        rfl
      rw [hself] at hz
      exact absurd hz (Nat.not_lt.2 hge)

theorem links_off (h : Edited s f root e above current s' r) (hx : x ∉ e.target :: above) :
    (f.record r).links.get? x = f.links.get? x := by
  rw [h.record_eq, Forward.links_recordSpine_of_not_mem f _ hx]

theorem links_of_size_le (h : Edited s f root e above current s' r) (hs : s.Sound)
    (hf : f.Ascending s.size) (hx : s.size ≤ x) : (f.record r).links.get? x = none := by
  rw [h.links_off fun hmem => absurd (h.lt_size_of_mem_spine hs hmem) (Nat.not_lt.2 hx)]
  exact hf.links_of_le hx

theorem not_mem_spine_of_links (h : Edited s f root e above current s' r) (hs : s.Sound)
    (hx : (f.record r).links.get? x = none) : x ∉ e.target :: above := by
  intro hmem
  obtain ⟨i, hi⟩ := List.mem_iff_getElem?.1 hmem
  rw [h.record_eq, Forward.links_recordSpine_getElem? f _ (h.linksUp.nodup hs) hi] at hx
  cases hx

theorem spine_next (h : Edited s f root e above current s' r)
    (hp : (e.target :: above)[i]? = some p) (hlink : s.parent? p = some q) :
    (e.target :: above)[i + 1]? = some q := by
  cases hnext : (e.target :: above)[i + 1]? with
  | some b =>
    rw [h.linksUp.parent?_getElem? hp hnext] at hlink
    exact hlink
  | none =>
    have hi := (List.getElem?_eq_some_iff.1 hp).1
    have hlen := List.getElem?_eq_none_iff.1 hnext
    obtain rfl : i = above.length := by
      rw [List.length_cons] at hi hlen
      omega
    rw [chainTop_eq_getElem?, Option.some.injEq] at hp
    rw [← hp, h.linksUp.parent?_chainTop] at hlink
    cases hlink

/-! ### The next generation, without looking at its shape -/

/-- The children of a copy: the next copy, children of the node that was copied, and at the target
the child that enters. -/
theorem mem_under_copy (h : Edited s f root e above current s' r) (hs : s.Sound)
    (hq : (e.target :: above)[i]? = some q) (hz : z ∈ s'.under (s.size + i)) :
    (∃ j p, i = j + 1 ∧ (e.target :: above)[j]? = some p ∧ p ∈ s.under q ∧ z = s.size + j) ∨
      z ∈ s.under q ∨ e.entering? = some z := by
  cases i with
  | zero =>
    obtain rfl : e.target = q := by simpa using hq
    rw [Nat.add_zero, h.under_bottom hs] at hz
    rw [h.under_target hs]
    exact Or.inr (Edit.entering_or_mem_children hz).symm
  | succ i =>
    have hlt := (List.getElem?_eq_some_iff.1 hq).1
    have hp := List.getElem?_eq_getElem (Nat.lt_of_succ_lt hlt)
    obtain ⟨hmem, hunder⟩ := h.under_copy hs hp hq
    rw [hunder] at hz
    rcases List.mem_or_eq_of_mem_set hz with hz | rfl
    · exact Or.inr (Or.inl hz)
    · exact Or.inl ⟨i, _, rfl, hp, hmem, rfl⟩

/-- A child that neither leaves nor is copied is listed by the copy of its lister. -/
theorem mem_under_copy_of_stays (h : Edited s f root e above current s' r) (hs : s.Sound)
    (hq : (e.target :: above)[i]? = some q) (hz : z ∈ s.under q) (off : z ∉ e.target :: above)
    (stays : e.detached? ≠ some z) : z ∈ s'.under (s.size + i) := by
  cases i with
  | zero =>
    obtain rfl : e.target = q := by simpa using hq
    rw [h.under_target hs] at hz
    rw [Nat.add_zero, h.under_bottom hs]
    exact Edit.mem_children_revise_of_stays hz stays
  | succ i =>
    have hlen := (List.getElem?_eq_some_iff.1 hq).1
    have hp := List.getElem?_eq_getElem (Nat.lt_of_succ_lt hlen)
    rw [(h.under_copy hs hp hq).2]
    exact mem_set_idxOf_of_ne hz fun heq => off (heq ▸ List.mem_of_getElem? hp)

/-- The nodes reached from the new root: copies, nodes reached before, and nodes of the subtree that
enters. -/
theorem newNode_cases (h : Edited s f root e above current s' r) (hs : s.Sound)
    (hx : x ∈ s'.preorder r.root) :
    (∃ i q, (e.target :: above)[i]? = some q ∧ x = s.size + i) ∨
      (x < s.size ∧ x ∈ s.preorder root) ∨ ∃ y, e.entering? = some y ∧ x ∈ s.preorder y := by
  refine preorder_induction (P := fun x =>
    (∃ i q, (e.target :: above)[i]? = some q ∧ x = s.size + i) ∨
      (x < s.size ∧ x ∈ s.preorder root) ∨ ∃ y, e.entering? = some y ∧ x ∈ s.preorder y) ?_ ?_ x hx
  · exact Or.inl ⟨above.length, _, chainTop_eq_getElem? _ _, h.root_eq⟩
  · rintro p - (⟨i, q, hq, rfl⟩ | ⟨hlt, hp⟩ | ⟨y, hy, hp⟩) c hc
    · rcases h.mem_under_copy hs hq hc with ⟨j, b, -, hb, -, rfl⟩ | hcq | hc
      · exact Or.inl ⟨j, b, hb, rfl⟩
      · have hqr := h.reached_of_mem_spine hs (List.mem_of_getElem? hq)
        have hql := h.lt_size_of_mem_spine hs (List.mem_of_getElem? hq)
        exact Or.inr (Or.inl ⟨Nat.lt_trans (lt_of_mem_under hcq) hql,
          mem_preorder_of_mem_under hqr hcq⟩)
      · exact Or.inr (Or.inr ⟨c, hc, mem_preorder_self s c⟩)
    · rw [h.under_old hlt] at hc
      exact Or.inr (Or.inl ⟨Nat.lt_trans (lt_of_mem_under hc) hlt, mem_preorder_of_mem_under hp hc⟩)
    · rw [h.under_old (h.lt_size_of_entering hy hp)] at hc
      exact Or.inr (Or.inr ⟨y, hy, mem_preorder_of_mem_under hp hc⟩)

end Edited

/-! ### Steady nodes -/

/-- The nodes of a set stand where they stand below the top of a first generation `V`. -/
structure Steady (V : Store) (top : NodeId) (Z : NodeId → Prop) (s : Store) (f : Forward)
    (root : NodeId) : Prop where
  root_eq : f.origin root = top
  unique : ∀ y z, Z (f.origin y) → f.origin y = f.origin z → f.links.get? y = none →
    f.links.get? z = none → y = z
  current : ∀ z ∈ s.preorder root, Z (f.origin z) → f.links.get? z = none
  listed : ∀ q ∈ s.preorder root, ∀ z ∈ s.under q, Z (f.origin z) →
    f.origin q ∈ V.preorder top ∧ f.origin z ∈ V.under (f.origin q)
  linked : ∀ z, Z (f.origin z) → f.links.get? z = none →
    (f.origin z = top ∧ s.parent? z = none) ∨ ∃ q, s.parent? z = some q ∧
      f.links.get? q = none ∧ f.origin q ∈ V.preorder top ∧ f.origin z ∈ V.under (f.origin q)
  nodup : ∀ q ∈ s.preorder root, Z (f.origin q) → (s.under q).Nodup

/-- Sets of nodes that hold with a node all that is above it. -/
structure UpperSet (V : Store) (top : NodeId) (Z : NodeId → Prop) : Prop where
  reached : ∀ x, Z x → x ∈ V.preorder top
  lister : ∀ p ∈ V.preorder top, ∀ c ∈ V.under p, Z c → Z p

namespace Steady

variable {V : Store} {top : NodeId} {Z : NodeId → Prop}

/-- The current copy of a steady node hangs from the root, unless something steady leaves. -/
theorem hangs (h : Steady V top Z s f root) (hZ : UpperSet V top Z) (hs : s.Sound)
    {leaving : Option NodeId} (stays : ∀ y, leaving = some y → ¬Z (f.origin y))
    (hz : Z (f.origin z)) (hcurrent : f.links.get? z = none) : Hangs s root leaving z := by
  have hstays : ∀ y, Z (f.origin y) → leaving ≠ some y := fun y hy hleaves => stays y hleaves hy
  -- links lead to later slots, so the way up gets shorter
  induction hk : s.size - z using Nat.strong_induction_on generalizing z with
  | _ k ih =>
    rcases h.linked z hz hcurrent with ⟨htop, hfree⟩ | ⟨q, hlink, hq, hreached, hlisted⟩
    · have hroot : Z (f.origin root) := h.root_eq ▸ htop ▸ hz
      obtain rfl := h.unique z root hz (htop.trans h.root_eq.symm) hcurrent
        (h.current root (mem_preorder_self s root) hroot)
      exact .root hfree (hstays z hz)
    · have hZq : Z (f.origin q) := hZ.lister _ hreached _ hlisted hz
      have hlt := Nat.succ_le_of_lt (hs.lt_of_parent? hlink)
      have hsize := Nat.succ_le_of_lt (hs.parent_lt_size hlink)
      exact .up hlink (hstays z hz) (ih (s.size - q) (by omega) hZq hq rfl)

/-! ### One edit -/

section Edit

variable (h : Steady V top Z s f root) (hedited : Edited s f root e above current s' r)
  (hs : s.Sound)
include h hedited hs

/-- A node of the path with a steady origin has not been copied before. -/
theorem links_of_mem_spine (hx : x ∈ e.target :: above) (hzx : Z (f.origin x)) :
    f.links.get? x = none :=
  h.current x (hedited.reached_of_mem_spine hs hx) hzx

/-- Two nodes of the path with one steady origin are one and the same. -/
theorem spine_index_eq {j : Nat} (hx : (e.target :: above)[i]? = some x)
    (hy : (e.target :: above)[j]? = some y) (hzx : Z (f.origin x))
    (heq : f.origin x = f.origin y) : i = j := by
  have hxy := h.unique x y hzx heq
    (h.links_of_mem_spine hedited hs (List.mem_of_getElem? hx) hzx)
    (h.links_of_mem_spine hedited hs (List.mem_of_getElem? hy) (heq ▸ hzx))
  exact hedited.spine_index_inj hs hx (hxy ▸ hy)

/-- Copies of steady nodes are the only current copies after an edit, too. -/
theorem unique_edited (fresh : ∀ x, s.size ≤ x → f.origins.get? x = none)
    (bound : ∀ x, Z x → x < s.size) (hzy : Z ((f.record r).origin y))
    (heq : (f.record r).origin y = (f.record r).origin z)
    (hy : (f.record r).links.get? y = none) (hz : (f.record r).links.get? z = none) : y = z := by
  have hcopy : ∀ (i : Nat) (a x : NodeId), (e.target :: above)[i]? = some a → x < s.size →
      (f.record r).links.get? x = none → Z (f.origin a) → f.origin a ≠ f.origin x := by
    intro i a x ha hx hcurrent hZa hax
    have hoff := hedited.not_mem_spine_of_links hs hcurrent
    rw [hedited.links_off hoff] at hcurrent
    have hmem := List.mem_of_getElem? ha
    exact hoff (h.unique a x hZa hax (h.links_of_mem_spine hedited hs hmem hZa) hcurrent ▸ hmem)
  rcases hedited.origin_cases hs fresh (bound _ hzy) with
      ⟨hyl, hoy⟩ | ⟨i, a, ha, rfl, hoy⟩ <;>
    rcases hedited.origin_cases hs fresh (heq ▸ bound _ hzy) with
      ⟨hzl, hoz⟩ | ⟨j, b, hb, rfl, hoz⟩
  · rw [hedited.links_off (hedited.not_mem_spine_of_links hs hy)] at hy
    rw [hedited.links_off (hedited.not_mem_spine_of_links hs hz)] at hz
    exact h.unique y z (hoy ▸ hzy) (hoy.symm.trans (heq.trans hoz)) hy hz
  · have hab : f.origin b = f.origin y := hoz.symm.trans (heq.symm.trans hoy)
    exact absurd hab (hcopy j b y hb hyl hy (hab ▸ hoy ▸ hzy))
  · exact absurd (hoy.symm.trans (heq.trans hoz)) (hcopy i a z ha hzl hz (hoy ▸ hzy))
  · rw [h.spine_index_eq hedited hs ha hb (hoy ▸ hzy) (hoy.symm.trans (heq.trans hoz))]

variable (hZ : UpperSet V top Z) (stays : ∀ y, e.detached? = some y → ¬Z (f.origin y))
include hZ stays

/-- Nothing steady comes in from outside. -/
theorem not_entering (hx : e.entering? = some x) (hy : y ∈ s.preorder x) : ¬Z (f.origin y) := by
  intro hzy
  have hcurrent := Forward.isSuperseded_eq_false_iff.1 ((hedited.enters x hx).current y hy)
  have hattached := (isAttached_iff hs).2
    ⟨hedited.lt_size_of_entering hx hy, h.hangs hZ hs stays hzy hcurrent⟩
  rw [(hedited.enters x hx).apart y hy] at hattached
  cases hattached

/-- A steady node is listed by its parent alone. -/
theorem listed_edited (hq : q ∈ s'.preorder r.root) (hz : z ∈ s'.under q)
    (hzz : Z ((f.record r).origin z)) :
    (f.record r).origin q ∈ V.preorder top ∧
      (f.record r).origin z ∈ V.under ((f.record r).origin q) := by
  have hold : ∀ q' z', q' ∈ s.preorder root → z' ∈ s.under q' →
      (f.record r).origin q = f.origin q' → (f.record r).origin z = f.origin z' →
      (f.record r).origin q ∈ V.preorder top ∧
        (f.record r).origin z ∈ V.under ((f.record r).origin q) := by
    intro q' z' hq' hz' hoq hoz
    rw [hoq, hoz]
    exact h.listed q' hq' z' hz' (hoz ▸ hzz)
  rcases hedited.newNode_cases hs hq with ⟨i, a, ha, rfl⟩ | ⟨hlt, hqr⟩ | ⟨x, hx, hqx⟩
  · have har := hedited.reached_of_mem_spine hs (List.mem_of_getElem? ha)
    have hoa := hedited.origin_copy hs ha
    rcases hedited.mem_under_copy hs ha hz with ⟨j, b, -, hb, hba, rfl⟩ | hza | henter
    · exact hold a b har hba hoa (hedited.origin_copy hs hb)
    · have hzl := Nat.lt_trans (lt_of_mem_under hza) (lt_size_of_mem_under hza)
      exact hold a z har hza hoa (hedited.origin_old hzl)
    · have hzl := hedited.lt_size_of_entering henter (mem_preorder_self s z)
      rw [hedited.origin_old hzl] at hzz
      exact absurd hzz (h.not_entering hedited hs hZ stays henter (mem_preorder_self s z))
  · rw [hedited.under_old hlt] at hz
    exact hold q z hqr hz (hedited.origin_old hlt)
      (hedited.origin_old (Nat.lt_trans (lt_of_mem_under hz) hlt))
  · rw [hedited.under_old (hedited.lt_size_of_entering hx hqx)] at hz
    have hzx := mem_preorder_of_mem_under hqx hz
    rw [hedited.origin_old (hedited.lt_size_of_entering hx hzx)] at hzz
    exact absurd hzz (h.not_entering hedited hs hZ stays hx hzx)

variable (hV : V.UniqueListers top) (hf : f.Ascending s.size)
include hV

/-- No current node lists a node of the path with a steady origin any longer. -/
theorem not_listed_of_spine {j : Nat} (hj : (e.target :: above)[j]? = some z)
    (hq : q ∈ s'.preorder r.root) (hzq : z ∈ s'.under q) (hzz : Z ((f.record r).origin z))
    (hcurrent : Z ((f.record r).origin q) → (f.record r).links.get? q = none) : False := by
  have hzr := hedited.reached_of_mem_spine hs (List.mem_of_getElem? hj)
  have hlt := hedited.lt_size_of_mem_spine hs (List.mem_of_getElem? hj)
  have hoz := hedited.origin_old hlt
  obtain ⟨hqv, hzv⟩ := h.listed_edited hedited hs hZ stays hq hzq hzz
  have hZq := hZ.lister _ hqv _ hzv hzz
  rw [hoz] at hzv hzz
  -- the old link leads to the next node of the path, which has the same origin as the lister
  rcases h.linked z hzz (h.current z hzr hzz) with ⟨htop, -⟩ | ⟨b, hlink, hb, hbv, hzb⟩
  · rw [htop] at hzv
    exact absurd (lt_of_mem_under hzv) (Nat.not_lt.2 (le_of_mem_preorder hqv))
  have hob := hV.lister_eq _ hbv _ hqv _ hzb hzv
  have hnext := hedited.spine_next hj hlink
  rcases hedited.newNode_cases hs hq with ⟨i, a, ha, rfl⟩ | ⟨hql, hqr⟩ | ⟨x, hx, hqx⟩
  · rw [hedited.origin_copy hs ha] at hob hZq
    obtain rfl := h.spine_index_eq hedited hs ha hnext hZq hob.symm
    rw [(hedited.under_copy hs hj hnext).2] at hzq
    have hnodup := h.nodup b (hedited.reached_of_mem_spine hs (List.mem_of_getElem? hnext))
      (hob ▸ hZq)
    rcases mem_set_idxOf hnodup hzq with rfl | ⟨-, hne⟩
    · exact absurd hlt (Nat.not_lt.2 (Nat.le_add_right _ _))
    · exact hne rfl
  · have hoff := hedited.not_mem_spine_of_links hs (hcurrent hZq)
    rw [hedited.origin_old hql] at hob hZq
    have hqb := h.unique q b hZq hob.symm (h.current q hqr hZq) hb
    exact hoff (hqb ▸ List.mem_of_getElem? hnext)
  · rw [hedited.origin_old (hedited.lt_size_of_entering hx hqx)] at hZq
    exact h.not_entering hedited hs hZ stays hx hqx hZq

include hf

/-- No node of the path with a steady origin is reached any longer. -/
theorem current_edited (hz : z ∈ s'.preorder r.root) (hzz : Z ((f.record r).origin z)) :
    (f.record r).links.get? z = none := by
  -- a lister comes later, so the claim is known of it
  induction hk : s'.size - z using Nat.strong_induction_on generalizing z with
  | _ k ih =>
    rcases hedited.newNode_cases hs hz with ⟨i, a, -, rfl⟩ | ⟨hlt, hzr⟩ | ⟨x, hx, hzx⟩
    · exact hedited.links_of_size_le hs hf (Nat.le_add_right _ _)
    · have hoz := hedited.origin_old hlt
      by_cases hmem : z ∈ e.target :: above
      · obtain ⟨j, hj⟩ := List.mem_iff_getElem?.1 hmem
        have hne : z ≠ r.root := by
          rintro rfl
          rw [hedited.root_eq] at hlt
          exact absurd hlt (Nat.not_lt.2 (Nat.le_add_right _ _))
        obtain ⟨q, hq, hzq⟩ := (eq_or_exists_lister hz).resolve_left hne
        have hzlt := Nat.succ_le_of_lt (lt_of_mem_under hzq)
        have hsize := Nat.succ_le_of_lt (lt_size_of_mem_under hzq)
        exact (h.not_listed_of_spine hedited hs hZ stays hV hj hq hzq hzz fun hZq =>
          ih (s'.size - q) (by omega) hq hZq rfl).elim
      · rw [hedited.links_off hmem]
        exact h.current z hzr (hoz ▸ hzz)
    · rw [hedited.origin_old (hedited.lt_size_of_entering hx hzx)] at hzz
      exact absurd hzz (h.not_entering hedited hs hZ stays hx hzx)

/-- A link to a lister that is reached leads to the current copy of the parent. -/
theorem linked_of_reached (hq : q ∈ s'.preorder r.root) (hz : z ∈ s'.under q)
    (hlink : s'.parent? z = some q) (hzz : Z ((f.record r).origin z)) :
    ∃ q, s'.parent? z = some q ∧ (f.record r).links.get? q = none ∧
      (f.record r).origin q ∈ V.preorder top ∧
        (f.record r).origin z ∈ V.under ((f.record r).origin q) := by
  obtain ⟨hqv, hzv⟩ := h.listed_edited hedited hs hZ stays hq hz hzz
  exact ⟨q, hlink, h.current_edited hedited hs hZ stays hV hf hq (hZ.lister _ hqv _ hzv hzz), hqv,
    hzv⟩

/-- The link of an old slot that is still current. -/
theorem linked_old (hlinks : Relinked s s' above r.root) (hlt : z < s.size)
    (hzz : Z (f.origin z)) (hcurrent : (f.record r).links.get? z = none) :
    ∃ q, s'.parent? z = some q ∧ (f.record r).links.get? q = none ∧
      (f.record r).origin q ∈ V.preorder top ∧
        (f.record r).origin z ∈ V.under ((f.record r).origin q) := by
  have hoz := hedited.origin_old hlt
  have hoff := hedited.not_mem_spine_of_links hs hcurrent
  rw [hedited.links_off hoff] at hcurrent
  have hreached : ∀ q, q ∈ s'.preorder r.root → z ∈ s'.under q → s'.parent? z = some q → _ :=
    fun q hq hzq hlink =>
      h.linked_of_reached hedited hs hZ stays hV hf hq hzq hlink (hoz.symm ▸ hzz)
  rcases h.linked z hzz hcurrent with ⟨htop, -⟩ | ⟨q, hlink, hq, hqv, hzv⟩
  · -- the current copy of the top is the root, which is on the path
    have hroot : Z (f.origin root) := h.root_eq ▸ htop ▸ hzz
    have heq := h.unique z root hzz (htop.trans h.root_eq.symm) hcurrent
      (h.current root (mem_preorder_self s root) hroot)
    rw [heq, ← hedited.top_eq] at hoff
    exact absurd (List.mem_of_getElem? (chainTop_eq_getElem? e.target above)) hoff
  · have hql := hs.parent_lt_size hlink
    by_cases hmem : q ∈ e.target :: above
    · obtain ⟨i, hi⟩ := List.mem_iff_getElem?.1 hmem
      have hchild := hedited.mem_under_copy_of_stays hs hi (hs.listed z q hlink) hoff
        fun hleaves => stays z hleaves hzz
      have hi' : i ≤ above.length := Nat.le_of_lt_succ (List.getElem?_eq_some_iff.1 hi).1
      obtain ⟨b, hb, hzb, hnew⟩ := hlinks.copies i hi' z hchild
      exact hreached b hb hzb hnew
    · rcases hlinks.cases z with hkeep | ⟨b, hb, hzb, hnew⟩
      · refine ⟨q, hkeep.trans hlink, (hedited.links_off hmem).trans hq, ?_⟩
        rw [hedited.origin_old hql, hoz]
        exact ⟨hqv, hzv⟩
      · exact hreached b hb hzb hnew

/-- An edit that takes nothing steady out keeps what is steady. -/
theorem edited (hlinks : Relinked s s' above r.root)
    (fresh : ∀ x, s.size ≤ x → f.origins.get? x = none) (bound : ∀ x, Z x → x < s.size) :
    Steady V top Z s' (f.record r) r.root where
  root_eq := by
    rw [hedited.root_eq, hedited.origin_copy hs (chainTop_eq_getElem? e.target above),
      hedited.top_eq, h.root_eq]
  unique y z hzy heq hy hz :=
    h.unique_edited hedited hs fresh bound hzy heq hy hz
  current z hz hzz := h.current_edited hedited hs hZ stays hV hf hz hzz
  listed q hq z hz hzz := h.listed_edited hedited hs hZ stays hq hz hzz
  linked z hzz hcurrent := by
    have hreached : ∀ q, q ∈ s'.preorder r.root → z ∈ s'.under q → s'.parent? z = some q → _ :=
      fun q hq hzq hlink => h.linked_of_reached hedited hs hZ stays hV hf hq hzq hlink hzz
    rcases hedited.origin_cases hs fresh (bound _ hzz) with
      ⟨hlt, hoz⟩ | ⟨i, a, ha, rfl, hoz⟩
    · exact Or.inr (h.linked_old hedited hs hZ stays hV hf hlinks hlt (hoz ▸ hzz) hcurrent)
    · have hi : i ≤ above.length := Nat.le_of_lt_succ (List.getElem?_eq_some_iff.1 ha).1
      rcases Nat.lt_or_ge i above.length with hlt | hge
      · obtain ⟨b, hb, hzb, hlink⟩ := hlinks.copies (i + 1) hlt _ (hedited.copy_mem_under hs hlt)
        exact Or.inr (hreached b hb hzb hlink)
      · obtain rfl : i = above.length := Nat.le_antisymm hi hge
        rw [chainTop_eq_getElem?, hedited.top_eq, Option.some.injEq] at ha
        rcases hlinks.cases (s.size + above.length) with hkeep | ⟨b, hb, hzb, hlink⟩
        · exact Or.inl ⟨hoz.trans (ha ▸ h.root_eq),
            hkeep.trans (hs.parent?_eq_none (Nat.le_add_right _ _))⟩
        · exact Or.inr (hreached b hb hzb hlink)
  nodup q hq hzq := by
    rcases hedited.newNode_cases hs hq with ⟨i, a, ha, rfl⟩ | ⟨hlt, hqr⟩ | ⟨x, hx, hqx⟩
    · cases i with
      | zero =>
        rw [Nat.add_zero, hedited.under_bottom hs]
        exact ((check_eq_ok_iff _ _).1 hedited.checked).2.2
      | succ i =>
        have hlen := (List.getElem?_eq_some_iff.1 ha).1
        have hp := List.getElem?_eq_getElem (Nat.lt_of_succ_lt hlen)
        rw [hedited.origin_copy hs ha] at hzq
        rw [(hedited.under_copy hs hp ha).2]
        refine (h.nodup a (hedited.reached_of_mem_spine hs (List.mem_of_getElem? ha)) hzq).set
          fun hmem => ?_
        have hlt := Nat.lt_trans (lt_of_mem_under hmem) (lt_size_of_mem_under hmem)
        exact absurd hlt (Nat.not_lt.2 (Nat.le_add_right _ _))
    · rw [hedited.origin_old hlt] at hzq
      rw [hedited.under_old hlt]
      exact h.nodup q hqr hzq
    · rw [hedited.origin_old (hedited.lt_size_of_entering hx hqx)] at hzq
      exact absurd hzq (h.not_entering hedited hs hZ stays hx hqx)

end Edit

theorem mono (h : Steady V top Z s f root) {Y : NodeId → Prop} (hY : ∀ x, Y x → Z x) :
    Steady V top Y s f root where
  root_eq := h.root_eq
  unique y z hy := h.unique y z (hY _ hy)
  current z hz hzz := h.current z hz (hY _ hzz)
  listed q hq z hz hzz := h.listed q hq z hz (hY _ hzz)
  linked z hzz := h.linked z (hY _ hzz)
  nodup q hq hzq := h.nodup q hq (hY _ hzq)

theorem append (h : Steady V top Z s f root) (hroot : root < s.size) (nodes : List Node) :
    Steady V top Z (s.append nodes) f root := by
  have hpre := preorder_append_of_lt nodes hroot
  have hunder : ∀ q ∈ s.preorder root, (s.append nodes).under q = s.under q := fun q hq =>
    under_append_of_lt nodes (Nat.lt_of_le_of_lt (le_of_mem_preorder hq) hroot)
  refine ⟨h.root_eq, h.unique, fun z hz => h.current z (hpre ▸ hz), ?_, h.linked, ?_⟩
  · intro q hq z hz
    rw [hpre] at hq
    rw [hunder q hq] at hz
    exact h.listed q hq z hz
  · intro q hq
    rw [hpre] at hq
    rw [hunder q hq]
    exact h.nodup q hq

end Steady

end Store

/-! ### Overlays -/

namespace Edit

variable {e : Edit} {f g : NodeId → NodeId} {c y : NodeId}

/-- A child that leaves under one renaming leaves under another, or comes back in its own place. -/
theorem detached?_mapIds_cases (h : (e.mapIds f).detached? = some y) :
    ∃ x ∈ e.ids, y = f x ∧ ((e.mapIds g).detached? = some (g x) ∨
      ∃ z ∈ e.ids, (e.mapIds f).entering? = some (f z) ∧ f x ≠ f z ∧ g x = g z) := by
  cases e with
  | replace parent old new =>
    simp only [mapIds, detached?] at h
    split at h
    · cases h
    · rename_i hne
      cases h
      refine ⟨old, by simp [ids], rfl, ?_⟩
      by_cases hsame : g old = g new
      · exact Or.inr ⟨new, by simp [ids], by simp [mapIds, entering?, Ne.symm hne], hne, hsame⟩
      · exact Or.inl (by simp [mapIds, detached?, hsame])
  | remove parent child =>
    cases h
    exact ⟨child, by simp [ids], rfl, Or.inl rfl⟩
  | insert parent index new => cases h
  | setWhitespace node whitespace => cases h
  | setComments node leading trailing => cases h

theorem exists_detached?_of_mapIds (hg : ∀ x ∈ e.ids, g (f x) = g x)
    (h : (e.mapIds g).detached? = some c) : ∃ y, (e.mapIds f).detached? = some y ∧ g y = c := by
  obtain ⟨x, hx, rfl, hout | ⟨z, hz, -, hne, hsame⟩⟩ := detached?_mapIds_cases (g := f) h
  · exact ⟨f x, hout, hg x hx⟩
  · exact absurd (by rw [← hg x hx, ← hg z hz, hsame]) hne

end Edit

/-- A tree in the sense of its store: no slot is reached twice from the root, the root has no link,
and the link of every child reached names its lister. -/
structure Tree.IsTree (t : Tree) : Prop where
  once : (t.store.preorder t.root).Nodup
  root_free : t.store.parent? t.root = none
  linked : t.store.Linked t.root

/-- A finished tree is a tree. -/
theorem Tree.isTree_of_finish {nodes : List Node} {root : NodeId} {t : Tree}
    (h : (Store.build nodes).finish root = .ok t) : t.IsTree := by
  obtain ⟨rfl, -, hnodup, links, hstore, hlisted, hkept⟩ := Store.finish_eq_ok h
  have hunder : ∀ x, t.store.under x = (Store.build nodes).under x := fun x => by rw [hstore]; rfl
  have hpre : t.store.preorder t.root = (Store.build nodes).preorder t.root :=
    Store.preorder_congr fun x _ => hunder x
  refine ⟨hpre ▸ hnodup, ?_, fun p hp c hc => hlisted p (hpre ▸ hp) c (hunder p ▸ hc)⟩
  rw [hkept t.root fun p hp hmem => ?_, Store.parent?_build]
  exact absurd (Store.lt_of_mem_under hmem) (Nat.not_lt.2 (Store.le_of_mem_preorder hp))

namespace Overlay

variable {v : View} {P : Overlay → Prop} {o o' : Overlay} {p x c : NodeId} {n : Node}

/-- A node of the view that neither has been taken out nor stands below one that has. -/
def Stays (o : Overlay) (v : View) (x : NodeId) : Prop :=
  v.Reaches x ∧ o.Leaves v x

theorem upperSet_stays (o : Overlay) (v : View) :
    v.tree.store.UpperSet v.tree.root (o.Stays v) where
  reached _ hx := hx.1
  lister _ hp _ hc hstays := ⟨hp, hstays.2.lister hc⟩

/-- What a worker records stays recorded. -/
theorem mem_records_commit {record : Record} (hrecord : record ∈ o.records) (target : StableId)
    (e : Edit) (shadow : Store) (r : Rebuilt) :
    record ∈ (o.commit target e shadow r).records := by
  rw [records_commit]
  exact List.mem_append_left _ hrecord

theorem TakesOut.commit (h : o.TakesOut c) (target : StableId) (e : Edit) (shadow : Store)
    (r : Rebuilt) : (o.commit target e shadow r).TakesOut c := by
  obtain ⟨record, hrecord, hout⟩ := h
  exact ⟨record, mem_records_commit hrecord target e shadow r, hout⟩

theorem Targets.commit (h : o.Targets x) (target : StableId) (e : Edit) (shadow : Store)
    (r : Rebuilt) : (o.commit target e shadow r).Targets x := by
  obtain ⟨record, hrecord, htarget⟩ := h
  exact ⟨record, mem_records_commit hrecord target e shadow r, htarget⟩

theorem Stays.of_commit {target : StableId} {e : Edit} {shadow : Store} {r : Rebuilt}
    (h : (o.commit target e shadow r).Stays v x) : o.Stays v x :=
  ⟨h.1, fun y hy hxy hout => h.2 y hy hxy (hout.commit target e shadow r)⟩

/-- In the log, the slots of an edit are taken back to where they go back to before it. -/
theorem Sound.mapIds_origin (h : Sound v o) {e : Edit} {above : List NodeId} {current : Node}
    {shadow : Store} {r : Rebuilt}
    (hedited : Store.Edited o.shadow o.forward o.root (e.mapIds o.forward.resolve) above current
      shadow r) : e.mapIds (o.forward.record r).origin = e.mapIds o.forward.origin :=
  Edit.mapIds_congr fun _ hx => hedited.origin_old (h.lt_size_of_mem_ids hedited hx)

theorem steady_layer (tree : v.tree.IsTree) {Z : NodeId → Prop}
    (hZ : v.tree.store.UpperSet v.tree.root Z) :
    Store.Steady v.tree.store v.tree.root Z v.tree.store.layer {} v.tree.root := by
  have once := Store.uniqueListers_of_nodup tree.once
  refine ⟨rfl, fun y z _ heq _ _ => heq, fun z _ _ => rfl, ?_, ?_, ?_⟩
  · intro q hq z hz _
    rw [Store.preorder_layer] at hq
    rw [Store.under_layer] at hz
    exact ⟨hq, hz⟩
  · intro z hzz _
    rw [Store.parent?_layer]
    rcases Store.eq_or_exists_lister (hZ.reached z hzz) with rfl | ⟨q, hq, hzq⟩
    · exact Or.inl ⟨rfl, tree.root_free⟩
    · exact Or.inr ⟨q, tree.linked q hq z hzq, rfl, hq, hzq⟩
  · intro q hq _
    rw [Store.preorder_layer] at hq
    rw [Store.under_layer]
    exact once.nodup_under q hq

/-- A child that leaves is taken out, unless another current copy of it would come in. -/
theorem not_stays_of_detached (hv : v.tree.Sound) (before : v.Runs P o) {target : StableId}
    {e : Edit} {above : List NodeId} {current : Node} {shadow : Store} {r : Rebuilt}
    (hedited : Store.Edited o.shadow o.forward o.root (e.mapIds o.forward.resolve) above current
      shadow r)
    (hsteady : Store.Steady v.tree.store v.tree.root ((o.commit target e shadow r).Stays v)
      o.shadow o.forward o.root) (hc : (e.mapIds o.forward.resolve).detached? = some c) :
    ¬(o.commit target e shadow r).Stays v (o.forward.origin c) := by
  intro hstays
  have hsound := Sound.of_runs hv before
  have horigin := (keepsOrigins_of_runs hv before).origin_resolve hsound.ascending
  have hchild := hedited.mem_under_of_detached? hsound.shadow hc
  have hreached := hedited.reached_of_mem_spine hsound.shadow List.mem_cons_self
  have hcurrent := hsteady.current c (Store.mem_preorder_of_mem_under hreached hchild) hstays
  obtain ⟨x, hx, rfl, hout | ⟨z, hz, henter, hne, hsame⟩⟩ :=
    Edit.detached?_mapIds_cases (g := o.forward.origin) hc
  · refine hstays.2 _ hstays.1 (Store.mem_preorder_self _ _) ?_
    rw [TakesOut, records_commit, hsound.mapIds_origin hedited, horigin]
    exact ⟨_, List.mem_append_right _ List.mem_cons_self, hout⟩
  · have hzcurrent := Forward.isSuperseded_eq_false_iff.1
      ((hedited.enters _ henter).current _ (Store.mem_preorder_self _ _))
    refine hne (hsteady.unique _ _ hstays ?_ hcurrent hzcurrent)
    rw [horigin, horigin, hsame]

/-- What stays is steady, in whatever shape the shadow is. -/
theorem steady_of_runs (hv : v.tree.Sound) (tree : v.tree.IsTree) (h : v.Runs P o) :
    Store.Steady v.tree.store v.tree.root (o.Stays v) o.shadow o.forward o.root := by
  refine h.induction (I := fun o =>
    Store.Steady v.tree.store v.tree.root (o.Stays v) o.shadow o.forward o.root) ?_ ?_
  · intro worker block _
    exact steady_layer tree (upperSet_stays _ v)
  · intro o o' g _ before ih hstep
    have hsound := Sound.of_runs hv before
    cases hstep with
    | refused guard limits => exact ih
    | created m checked room => exact ih.append hsound.root _
    | @recorded e node value way shadow r guard limits get_target planned depth rebuilt =>
      obtain ⟨above, current, -, hedited⟩ := edited_of_plan planned rebuilt
      have hbase : ∀ x, (o.commit node.stableId e shadow r).Stays v x → x < o.shadow.size :=
        fun x hx => Nat.lt_of_lt_of_le (hx.1.lt_size hv) hsound.base
      have hsteady := ih.mono fun x (hx : (o.commit node.stableId e shadow r).Stays v x) =>
        hx.of_commit
      exact hsteady.edited hedited hsound.shadow (upperSet_stays _ v)
        (fun y hy => not_stays_of_detached hv before hedited hsteady hy)
        (Store.uniqueListers_of_nodup tree.once) hsound.ascending
        (Store.relinked_of_rebuild hsound.shadow hedited rebuilt) hsound.fresh hbase

/-- What comes in from outside has been taken out, or goes back to a node that the worker made. -/
theorem not_stays_of_entering (hv : v.tree.Sound) (tree : v.tree.IsTree) (before : v.Runs P o)
    {target : StableId} {e : Edit} {above : List NodeId} {current : Node} {shadow : Store}
    {r : Rebuilt}
    (hedited : Store.Edited o.shadow o.forward o.root (e.mapIds o.forward.resolve) above current
      shadow r) (hx : (e.mapIds o.forward.resolve).entering? = some x)
    (hc : c ∈ o.shadow.preorder x) :
    ¬(o.commit target e shadow r).Stays v (o.forward.origin c) := by
  have hsteady := (steady_of_runs hv tree before).mono
    fun x (hx : (o.commit target e shadow r).Stays v x) => hx.of_commit
  exact hsteady.not_entering hedited (Sound.of_runs hv before).shadow (upperSet_stays _ v)
    (fun y hy => not_stays_of_detached hv before hedited hsteady hy) hx hc

/-- The uppermost of the nodes that a worker takes out is taken out of its parent in the view. -/
theorem targets_lister_of_takesOut (hv : v.tree.Sound) (tree : v.tree.IsTree) (h : v.Runs P o)
    (hc : v.Reaches c) (hout : o.TakesOut c)
    (left : ∀ y, v.Reaches y → c ∈ v.tree.store.preorder y → y ≠ c → ¬o.TakesOut y) :
    ∃ p, v.Reaches p ∧ c ∈ v.tree.store.under p ∧ o.Targets p := by
  refine h.induction (I := fun o => o.TakesOut c →
    (∀ y, v.Reaches y → c ∈ v.tree.store.preorder y → y ≠ c → ¬o.TakesOut y) →
    ∃ p, v.Reaches p ∧ c ∈ v.tree.store.under p ∧ o.Targets p) ?_ ?_ hout left
  · intro worker block _ hout
    obtain ⟨record, hrecord, -⟩ := hout
    simp [View.newOverlay, records] at hrecord
  · intro o o' g _ before ih hstep hout left
    have hsound := Sound.of_runs hv before
    have horigin := (keepsOrigins_of_runs hv before).origin_resolve hsound.ascending
    cases hstep with
    | refused guard limits => exact ih hout left
    | created m checked room => exact ih hout left
    | @recorded e node value way shadow r guard limits get_target planned depth rebuilt =>
      obtain ⟨above, current, -, hedited⟩ := edited_of_plan planned rebuilt
      have hleft : ∀ y, v.Reaches y → c ∈ v.tree.store.preorder y → y ≠ c → ¬o.TakesOut y :=
        fun y hy hcy hne hout => left y hy hcy hne (hout.commit _ e shadow r)
      by_cases hearlier : o.TakesOut c
      · obtain ⟨p, hp, hcp, htarget⟩ := ih hearlier hleft
        exact ⟨p, hp, hcp, htarget.commit _ e shadow r⟩
      · -- the node is still steady, so whoever lists it goes back to its parent
        obtain ⟨record, hrecord, hdetached⟩ := hout
        have hmem : record ∈ (o.commit node.stableId e shadow r).records := hrecord
        rw [records_commit, hsound.mapIds_origin hedited] at hmem
        rcases List.mem_append.1 hmem with hmem | hmem
        · exact absurd ⟨record, hmem, hdetached⟩ hearlier
        · rw [List.mem_singleton.1 hmem] at hdetached
          obtain ⟨y, hy, rfl⟩ := Edit.exists_detached?_of_mapIds
            (f := o.forward.resolve) (fun x _ => horigin x) hdetached
          have hchild := hedited.mem_under_of_detached? hsound.shadow hy
          have hstays : o.Stays v (o.forward.origin y) := by
            refine ⟨hc, fun z hz hyz hout => ?_⟩
            by_cases heq : z = o.forward.origin y
            · exact hearlier (heq ▸ hout)
            · exact hleft z hz hyz heq hout
          obtain ⟨hp, hcp⟩ := (steady_of_runs hv tree before).listed _
            (hedited.reached_of_mem_spine hsound.shadow List.mem_cons_self) y hchild hstays
          rw [Edit.target_mapIds, horigin] at hp hcp
          refine ⟨_, hp, hcp, record, hrecord, ?_⟩
          rw [List.mem_singleton.1 hmem, Edit.target_mapIds]

end Overlay

end TreeEdit
