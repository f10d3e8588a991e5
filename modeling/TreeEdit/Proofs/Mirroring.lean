import TreeEdit.Proofs.Planning
import TreeEdit.Proofs.Steady

/-!
# Two stores side by side

A log is replayed on a store that other logs have changed, while its worker has seen a store without
these changes. `Store.Mirrors` relates the two by a map `σ` from the slots of the worker to those of
the replay. Two sets of nodes, given by their origins, say how much is known. The nodes of `own` have
the same values on both sides. The nodes of `near` hold with a node all that lists it, are listed by
the same nodes on both sides, and have the same links.

The main results are about an edit on the side of the worker that changes a node of `own` and brings
in nodes of `own` only. By `Mirrors.exists_edited` it is carried out on the other side as well, if
there is room, and by `Mirrors.edited` the sides then mirror each other again.
-/

namespace TreeEdit

/-! ### Renamed edits -/

namespace Edit

variable {e : Edit} {n : Node} {σ : NodeId → NodeId}

theorem entering?_mapIds (hσ : Function.Injective σ) (e : Edit) :
    (e.mapIds σ).entering? = e.entering?.map σ := by
  cases e with
  | replace parent old new =>
    by_cases hsame : new = old
    · simp [mapIds, entering?, hsame]
    · simp [mapIds, entering?, hsame, hσ.ne hsame]
  | _ => rfl

theorem detached?_mapIds (hσ : Function.Injective σ) (e : Edit) :
    (e.mapIds σ).detached? = e.detached?.map σ := by
  cases e with
  | replace parent old new =>
    by_cases hsame : old = new
    · simp [mapIds, detached?, hsame]
    · simp [mapIds, detached?, hsame, hσ.ne hsame]
  | _ => rfl

theorem Fits.mapIds (h : e.Fits n) (σ : NodeId → NodeId) : (e.mapIds σ).Fits (n.mapChildren σ) := by
  cases e with
  | replace parent old new => exact List.mem_map_of_mem h
  | insert parent index new =>
    have hfits : index ≤ (n.children.map σ).length := by rwa [List.length_map]
    exact hfits
  | remove parent child => exact List.mem_map_of_mem h
  | setWhitespace node whitespace => trivial
  | setComments node leading trailing => trivial

theorem revise_mapIds (hσ : Function.Injective σ) (e : Edit) (n : Node) :
    (e.mapIds σ).revise (n.mapChildren σ) = (e.revise n).mapChildren σ :=
  revise_mapChildren fun _ _ _ _ heq => hσ heq

end Edit

theorem Edit.spine_mapIds (e : Edit) (σ : NodeId → NodeId) (above : List NodeId) :
    (e.mapIds σ).target :: above.map σ = (e.target :: above).map σ := by
  rw [target_mapIds, List.map_cons]

theorem Edit.spine_mapIds_getElem? (e : Edit) (σ : NodeId → NodeId) {above : List NodeId} {i : Nat}
    {x : NodeId} (hx : (e.target :: above)[i]? = some x) :
    ((e.mapIds σ).target :: above.map σ)[i]? = some (σ x) := by
  rw [spine_mapIds, List.getElem?_map, hx]
  rfl

theorem Node.validate_mapChildren (n : Node) (σ : NodeId → NodeId) :
    (n.mapChildren σ).validate = n.validate := by
  simp [validate, mapChildren]

namespace Store

variable {s s' : Store} {f : Forward} {root x y : NodeId} {e : Edit} {above : List NodeId}
  {current : Node} {r : Rebuilt}

/-! ### Generations in order -/

/-- What hangs from the root is reached from it. -/
theorem Hangs.reached {leaving : Option NodeId} (hs : s.Sound) (h : Hangs s root leaving x) :
    x ∈ s.preorder root := by
  induction h with
  | root hroot stays => exact mem_preorder_self s root
  | up link stays hp ih => exact mem_preorder_of_mem_under ih (hs.listed _ _ link)

/-- A sound store whose current generation is a tree with right links. -/
structure Standing (s : Store) (f : Forward) (root : NodeId) : Prop where
  sound : s.Sound
  root_lt : root < s.size
  root_free : s.parent? root = none
  traced : s.Traced f root
  once : s.UniqueListers root
  linked : s.Linked root

namespace Standing

theorem append (h : s.Standing f root) {n : Node} (hn : ∀ c ∈ n.children, c < s.size) :
    (s.append [n]).Standing f root where
  sound := h.sound.append_singleton hn
  root_lt := by
    rw [size_append]
    exact Nat.lt_of_lt_of_le h.root_lt (Nat.le_add_right _ _)
  root_free := h.root_free
  traced := h.traced.append h.root_lt _
  once := by
    rw [← nodup_preorder_iff, preorder_append_of_lt _ h.root_lt]
    exact h.once.nodup_preorder
  linked p hp c hc := by
    rw [preorder_append_of_lt _ h.root_lt] at hp
    rw [under_append_of_lt _ (Nat.lt_of_le_of_lt (le_of_mem_preorder hp) h.root_lt)] at hc
    exact h.linked p hp c hc

theorem edited (h : s.Standing f root) (hedited : Edited s f root e above current s' r)
    (settled : ∀ x, e.entering? = some x → s.Settled x) :
    s'.Standing (f.record r) r.root where
  sound := hedited.sound h.sound
  root_lt := hedited.root_lt
  root_free := hedited.parent?_root h.sound
  traced := h.traced.edited hedited h.sound h.once.nodup_preorder
  once := hedited.uniqueListers h.sound h.once h.linked
  linked := (hedited.linked_iff h.sound h.once h.linked).2 settled

theorem links_eq_none (h : s.Standing f root) (hx : x ∈ s.preorder root) :
    f.links.get? x = none :=
  Forward.isSuperseded_eq_false_iff.1 (h.traced.recent x hx)

/-- What hangs from the root is reached from the new root, unless it is copied. -/
theorem reached_of_hangs (hs : s.Sound) (hedited : Edited s f root e above current s' r)
    (h : Hangs s root e.detached? x) : x ∈ e.target :: above ∨ x ∈ s'.preorder r.root := by
  induction h with
  | root hroot stays =>
    left
    rw [← hedited.top_eq]
    exact List.mem_of_getElem? (chainTop_eq_getElem? e.target above)
  | @up c p link stays hp ih =>
    by_cases hmem : c ∈ e.target :: above
    · exact Or.inl hmem
    right
    rcases ih with hspine | hreached
    · obtain ⟨i, hi⟩ := List.mem_iff_getElem?.1 hspine
      have hcopy := hedited.mem_under_copy_of_stays hs hi (hs.listed c p link) hmem stays
      have hlen := Nat.le_of_lt_succ (List.getElem?_eq_some_iff.1 hi).1
      exact mem_preorder_of_mem_under
        (Edited.reached_of_visits (hedited.visits_copy hs hlen)) hcopy
    · refine mem_preorder_of_mem_under hreached ?_
      rw [hedited.under_old (hs.parent_lt_size link)]
      exact hs.listed c p link

end Standing

/-- After an edit a slot is an old one or a copy. -/
theorem Edited.slot_cases (h : Edited s f root e above current s' r) (hx : x < s'.size) :
    x < s.size ∨ ∃ i a, (e.target :: above)[i]? = some a ∧ x = s.size + i := by
  rcases Nat.lt_or_ge x s.size with hlt | hge
  · exact Or.inl hlt
  · obtain ⟨i, rfl⟩ := Nat.exists_eq_add_of_le hge
    rw [h.copied.size_eq] at hx
    exact Or.inr ⟨i, _, List.getElem?_eq_getElem (Nat.lt_of_add_lt_add_left hx), rfl⟩

/-! ### Mirrors -/

@[simp] theorem chainTop_map (σ : NodeId → NodeId) (x : NodeId) (above : List NodeId) :
    chainTop (σ x) (above.map σ) = σ (chainTop x above) := by
  induction above generalizing x with
  | nil => rfl
  | cons p above ih => rw [List.map_cons, chainTop_cons, chainTop_cons, ih]

/-- The slots of `s` are mirrored by the slots of `m`. -/
structure Mirrors (σ : NodeId → NodeId) (near own : NodeId → Prop) (s : Store) (f : Forward)
    (root : NodeId) (m : Store) (g : Forward) (top : NodeId) : Prop where
  shift : ∀ i, σ (s.size + i) = m.size + i
  lt : ∀ x, x < s.size → σ x < m.size
  root_eq : σ root = top
  links : ∀ x, x < s.size → g.links.get? (σ x) = (f.links.get? x).map σ
  value : ∀ x n, own (f.origin x) → s.get? x = some n → m.get? (σ x) = some (n.mapChildren σ)
  edge : ∀ p c, near (f.origin c) → c ∈ s.under p → near (f.origin p) ∧ σ c ∈ m.under (σ p)
  link : ∀ x, x < s.size → near (f.origin x) → f.links.get? x = none →
    m.parent? (σ x) = (s.parent? x).map σ

namespace Mirrors

variable {σ : NodeId → NodeId} {near own : NodeId → Prop} {m : Store} {g : Forward}
  {top : NodeId}

theorem links_eq_none_iff (h : Mirrors σ near own s f root m g top) (hx : x < s.size) :
    g.links.get? (σ x) = none ↔ f.links.get? x = none := by
  rw [h.links x hx, Option.map_eq_none_iff]

theorem resolve_eq (h : Mirrors σ near own s f root m g top) (hf : f.Ascending s.size)
    (hg : g.Ascending m.size) (hx : x < s.size) : g.resolve (σ x) = σ (f.resolve x) := by
  refine Forward.chain_induction hf (P := fun x => x < s.size → g.resolve (σ x) = σ (f.resolve x))
    (fun x hnone hx => ?_) (fun x y hlink ih hx => ?_) x hx
  · rw [Forward.resolve_of_current hnone,
      Forward.resolve_of_current ((h.links_eq_none_iff hx).2 hnone)]
  · have hmirror : g.links.get? (σ x) = some (σ y) := by rw [h.links x hx, hlink]; rfl
    rw [Forward.resolve_of_link hf hlink, Forward.resolve_of_link hg hmirror]
    exact ih (hf x y hlink).2

theorem under_eq (h : Mirrors σ near own s f root m g top) (hs : s.Sound) (hm : m.Sound)
    (hx : x < s.size) (hown : own (f.origin x)) : m.under (σ x) = (s.under x).map σ := by
  obtain ⟨n, hn⟩ := hs.full x hx
  rw [hs.under_eq hn, hm.under_eq (h.value x n hown hn)]
  rfl

/-- What is below a node is mirrored node by node, if its nodes have the same values. -/
theorem preorder_eq (h : Mirrors σ near own s f root m g top) (hs : s.Sound) (hm : m.Sound)
    (hx : x < s.size) (hown : ∀ y ∈ s.preorder x, own (f.origin y)) :
    m.preorder (σ x) = (s.preorder x).map σ := by
  induction x using Nat.strong_induction_on with
  | _ x ih =>
    have hchild : ∀ c ∈ s.under x, m.preorder (σ c) = (s.preorder c).map σ := by
      intro c hc
      have hlt := lt_of_mem_under hc
      refine ih c hlt (Nat.lt_trans hlt hx) fun y hy => hown y ?_
      exact mem_preorder_iff.2 (Or.inr ⟨c, hc, hy⟩)
    rw [Store.preorder_eq, Store.preorder_eq s, List.map_cons,
      h.under_eq hs hm hx (hown x (mem_preorder_self s x)), List.flatMap_map, List.map_flatMap]
    congr 1
    exact List.flatMap_congr hchild

theorem linksUp (h : Mirrors σ near own s f root m g top) (hs : s.Sound) (hx : x < s.size)
    (hnear : near (f.origin x)) (hcurrent : ∀ y ∈ x :: above, f.links.get? y = none)
    (hup : s.LinksUp x above) : m.LinksUp (σ x) (above.map σ) := by
  induction above generalizing x with
  | nil =>
    have hfree : s.parent? x = none := hup
    show m.parent? (σ x) = none
    rw [h.link x hx hnear (hcurrent x List.mem_cons_self), hfree]
    rfl
  | cons p above ih =>
    refine ⟨?_, ih (hs.parent_lt_size hup.1) ?_
      (fun y hy => hcurrent y (List.mem_cons_of_mem _ hy)) hup.2⟩
    · rw [h.link x hx hnear (hcurrent x List.mem_cons_self), hup.1]
      rfl
    · exact (h.edge p x hnear (hs.listed x p hup.1)).1

section Standing

variable (h : Mirrors σ near own s f root m g top) (hσ : Function.Injective σ)
  (hs : s.Standing f root) (hm : m.Standing g top)
include h hσ hs hm

/-- What hangs from the root on the side of the replay hangs from it on the side of the worker. -/
theorem hangs {leaving : Option NodeId} (hx : x < s.size) (hnear : near (f.origin x))
    (hcurrent : f.links.get? x = none) (hhangs : Hangs m top (leaving.map σ) (σ x)) :
    Hangs s root leaving x := by
  generalize hz : σ x = z at hhangs
  induction hhangs generalizing x with
  | root hfree stays =>
    obtain rfl : x = root := hσ (hz.trans h.root_eq.symm)
    exact .root hs.root_free fun hleaves => stays (by rw [hleaves, ← hz]; rfl)
  | @up c p link stays hp ih =>
    subst hz
    obtain ⟨q, hq, rfl⟩ := Option.map_eq_some_iff.1 ((h.link x hx hnear hcurrent).symm.trans link)
    have hql := hs.sound.parent_lt_size hq
    have hqcurrent := (h.links_eq_none_iff hql).1 (hm.links_eq_none (hp.reached hm.sound))
    refine .up hq (fun hleaves => stays (by rw [hleaves]; rfl)) (ih hql ?_ hqcurrent rfl)
    exact (h.edge q x hnear (hs.sound.listed x q hq)).1

theorem mayEnter {leaving : Option NodeId} (hown : ∀ y ∈ s.preorder x, own (f.origin y))
    (hnear : ∀ y, own y → near y) (henter : s.MayEnter f root leaving x) :
    m.MayEnter g top (leaving.map σ) (σ x) := by
  have hlt : ∀ y ∈ s.preorder x, y < s.size := fun y hy => henter.lt_size hy
  have hpre := h.preorder_eq hs.sound hm.sound (hlt x (mem_preorder_self s x)) hown
  constructor
  · rw [hpre]
    exact henter.once.map hσ
  · rw [hpre, List.forall_mem_map]
    intro y hy
    obtain ⟨n, hn⟩ := henter.full y hy
    exact ⟨_, h.value y n (hown y hy) hn⟩
  · rw [hpre, List.forall_mem_map]
    intro y hy
    rw [Forward.isSuperseded_eq_false_iff, h.links_eq_none_iff (hlt y hy),
      ← Forward.isSuperseded_eq_false_iff]
    exact henter.current y hy
  · rw [hpre, List.forall_mem_map]
    intro y hy
    by_contra hattached
    rw [Bool.not_eq_false, isAttached_iff hm.sound] at hattached
    have hcurrent := Forward.isSuperseded_eq_false_iff.1 (henter.current y hy)
    have hhangs := h.hangs hσ hs hm (hlt y hy) (hnear _ (hown y hy)) hcurrent hattached.2
    have hfound := (isAttached_iff hs.sound).2 ⟨hlt y hy, hhangs⟩
    rw [henter.apart y hy] at hfound
    cases hfound

theorem settled (hown : ∀ y ∈ s.preorder x, own (f.origin y)) (hnear : ∀ y, own y → near y)
    {leaving : Option NodeId} (henter : s.MayEnter f root leaving x) (hsettled : s.Settled x) :
    m.Settled (σ x) := by
  have hlt : ∀ y ∈ s.preorder x, y < s.size := fun y hy => henter.lt_size hy
  have hlink : ∀ y ∈ s.preorder x, m.parent? (σ y) = (s.parent? y).map σ := fun y hy =>
    h.link y (hlt y hy) (hnear _ (hown y hy))
      (Forward.isSuperseded_eq_false_iff.1 (henter.current y hy))
  have hunder : ∀ y ∈ s.preorder x, m.under (σ y) = (s.under y).map σ := fun y hy =>
    h.under_eq hs.sound hm.sound (hlt y hy) (hown y hy)
  rw [Settled, h.preorder_eq hs.sound hm.sound (hlt x (mem_preorder_self s x)) hown,
    List.forall_mem_map]
  intro p hp
  rw [hunder p hp, List.forall_mem_map]
  intro y hy hright
  have hyx := mem_preorder_of_mem_under hp hy
  rw [hlink y hyx] at hright
  obtain ⟨q, hq, hqp⟩ := Option.map_eq_some_iff.1 hright
  rw [hunder y hyx, List.forall_mem_map]
  intro c hc
  rw [hlink c (mem_preorder_of_mem_under hyx hc), hsettled p hp y hy (hσ hqp ▸ hq) c hc]
  rfl

/-! ### One edit on both sides -/

variable (hnear : ∀ y, own y → near y) (hedited : Edited s f root e above current s' r)
  (henters : ∀ x, e.entering? = some x → ∀ y ∈ s.preorder x, own (f.origin y))
include hnear hedited henters

/-- A mirror of a tree with right links is followed by one. -/
theorem standing_edited (linked' : s'.Linked r.root) {m' : Store} {r' : Rebuilt}
    (hmirror : Edited m g top (e.mapIds σ) (above.map σ) (current.mapChildren σ) m' r') :
    m'.Standing (g.record r') r'.root := by
  refine hm.edited hmirror fun x hx => ?_
  rw [Edit.entering?_mapIds hσ] at hx
  obtain ⟨y, hy, rfl⟩ := Option.map_eq_some_iff.1 hx
  have hsettled := (hedited.linked_iff hs.sound hs.once hs.linked).1 linked' y hy
  exact h.settled hσ hs hm (henters y hy) hnear (hedited.enters y hy) hsettled

variable (htarget : own (f.origin e.target))
include htarget

/-- The plan of an edit on one side is the plan of its mirror on the other. -/
theorem plan_eq {most : Nat} (depth : above.length + 1 ≤ most) :
    m.plan g most top (e.mapIds σ) =
      .ok (⟨σ e.target, above.map σ⟩, (e.revise current).mapChildren σ) := by
  have hget : m.get? (σ e.target) = some (current.mapChildren σ) :=
    h.value _ _ htarget hedited.get_target
  have hcurrent : ∀ y ∈ e.target :: above, f.links.get? y = none := fun y hy =>
    hs.links_eq_none (hedited.reached_of_mem_spine hs.sound hy)
  have hpath : m.path most top (e.mapIds σ).target = .ok ⟨σ e.target, above.map σ⟩ := by
    rw [Edit.target_mapIds]
    refine path_eq_ok_iff.2 ⟨rfl, ⟨_, hget⟩, ?_, ?_, ?_⟩
    · exact h.linksUp hs.sound hedited.target_lt (hnear _ htarget) hcurrent hedited.linksUp
    · rw [List.length_map]
      exact Nat.le_sub_one_of_lt depth
    · exact (chainTop_map σ e.target above).trans (hedited.top_eq ▸ h.root_eq)
  refine plan_eq_ok_iff.2 ⟨hpath, current.mapChildren σ, ?_, hedited.fits.mapIds σ, ?_, ?_, ?_⟩
  · rwa [Edit.target_mapIds]
  · rw [Edit.entering?_mapIds hσ, Edit.detached?_mapIds hσ]
    intro x hx
    obtain ⟨y, hy, rfl⟩ := Option.map_eq_some_iff.1 hx
    exact h.mayEnter hσ hs hm (henters y hy) hnear (hedited.enters y hy)
  · rw [Edit.revise_mapIds hσ]
  · rw [Node.validate_mapChildren]
    exact ((check_eq_ok_iff s _).1 hedited.checked).1

/-- The mirror of an edit is carried out, if there is room. -/
theorem exists_edited {most : Nat} (depth : above.length + 1 ≤ most)
    (hroom : m.checkRoom (above.length + 1) = .ok ()) :
    ∃ m' r', m.applyEdit g most top (e.mapIds σ) = (m', .ok r') ∧
      Edited m g top (e.mapIds σ) (above.map σ) (current.mapChildren σ) m' r' := by
  have hplan := h.plan_eq hσ hs hm hnear hedited henters htarget depth
  have hlength : m.checkRoom (Path.length ⟨σ e.target, above.map σ⟩) = .ok () := by
    rwa [Path.length, List.length_map]
  obtain ⟨m', r', hrebuild⟩ := rebuild_of_room hm.sound hm.once hm.linked hplan hlength
  have happly : m.applyEdit g most top (e.mapIds σ) = (m', .ok r') :=
    (applyEdit_of_plan hplan).trans hrebuild
  obtain ⟨above', current', hpath, hmirror⟩ := applyEdit_eq_ok happly
  have hway := Except.ok.inj (hpath.symm.trans (plan_eq_ok_iff.1 hplan).1)
  have hget := hmirror.get_target
  rw [Edit.target_mapIds, h.value _ _ htarget hedited.get_target, Option.some.injEq] at hget
  obtain ⟨-, rfl⟩ := Path.mk.inj hway
  exact ⟨m', r', happly, hget ▸ hmirror⟩

end Standing

/-- One more node on both sides. -/
theorem append (h : Mirrors σ near own s f root m g top) (hs : s.Standing f root)
    (hm : m.Standing g top) {n : Node} (hn : ∀ c ∈ n.children, c < s.size)
    (hnew : near s.size) :
    Mirrors σ near own (s.append [n]) f root (m.append [n.mapChildren σ]) g top := by
  have hn' : ∀ c ∈ (n.mapChildren σ).children, c < m.size :=
    List.forall_mem_map.2 fun y hy => h.lt y (hn y hy)
  have hcases : ∀ x, x < (s.append [n]).size → x < s.size ∨ x = s.size := by
    intro x hx
    rw [size_append] at hx
    exact Nat.lt_or_eq_of_le (Nat.le_of_lt_succ hx)
  have hsize : σ s.size = m.size := h.shift 0
  have hget : (s.append [n]).get? s.size = some n := get?_append_size_add s [n] 0
  have hget' : (m.append [n.mapChildren σ]).get? m.size = some (n.mapChildren σ) :=
    get?_append_size_add m [n.mapChildren σ] 0
  constructor
  · intro i
    rw [size_append, size_append, Nat.add_assoc, h.shift, Nat.add_assoc]
    rfl
  · intro x hx
    rw [size_append]
    rcases hcases x hx with hlt | rfl
    · exact Nat.lt_succ_of_lt (h.lt x hlt)
    · rw [hsize]
      exact Nat.lt_succ_self _
  · exact h.root_eq
  · intro x hx
    rcases hcases x hx with hlt | rfl
    · exact h.links x hlt
    · rw [hsize, hs.traced.coherent.links_of_le (Nat.le_refl _),
        hm.traced.coherent.links_of_le (Nat.le_refl _)]
      rfl
  · intro x k hx hk
    rcases hcases x (lt_size_of_get? hk) with hlt | rfl
    · rw [get?_append_of_lt _ hlt] at hk
      rw [get?_append_of_lt _ (h.lt x hlt)]
      exact h.value x k hx hk
    · rw [hsize, hget', Option.some.inj (hk.symm.trans hget)]
  · intro p c hc hmem
    rcases hcases p (lt_size_of_mem_under hmem) with hlt | rfl
    · rw [under_append_of_lt _ hlt] at hmem
      rw [under_append_of_lt _ (h.lt p hlt)]
      exact h.edge p c hc hmem
    · rw [(hs.sound.append_singleton hn).under_eq hget] at hmem
      rw [hsize, (hm.sound.append_singleton hn').under_eq hget',
        hs.traced.coherent.descending.origin_of_le (Nat.le_refl _)]
      exact ⟨hnew, List.mem_map_of_mem hmem⟩
  · intro x hx hnx hcurrent
    rw [parent?_append, parent?_append]
    rcases hcases x hx with hlt | rfl
    · exact h.link x hlt hnx hcurrent
    · rw [hsize, hs.sound.parent?_eq_none (Nat.le_refl _),
        hm.sound.parent?_eq_none (Nat.le_refl _)]
      rfl

section Edited

variable {m' : Store} {r' : Rebuilt} (h : Mirrors σ near own s f root m g top)
  (hσ : Function.Injective σ) (hs : s.Standing f root) (hm : m.Standing g top)
  (hedited : Edited s f root e above current s' r)
  (hmirror : Edited m g top (e.mapIds σ) (above.map σ) (current.mapChildren σ) m' r')
include h hedited hmirror

theorem shift_edited (i : Nat) : σ (s'.size + i) = m'.size + i := by
  rw [hedited.copied.size_eq, hmirror.copied.size_eq, Nat.add_assoc, h.shift, Nat.add_assoc,
    List.length_cons, List.length_cons, List.length_map]

theorem lt_edited (hx : x < s'.size) : σ x < m'.size := by
  rcases hedited.slot_cases hx with hlt | ⟨i, a, ha, rfl⟩
  · exact Nat.lt_of_lt_of_le (h.lt x hlt) hmirror.size_le
  · have hi := (List.getElem?_eq_some_iff.1 ha).1
    rw [h.shift, hmirror.copied.size_eq, Edit.spine_mapIds, List.length_map]
    exact Nat.add_lt_add_left hi _

theorem root_eq_edited : σ r.root = r'.root := by
  rw [hedited.root_eq, hmirror.root_eq, h.shift, List.length_map]

include hs hσ

theorem value_edited {n : Node} (hx : own ((f.record r).origin x)) (hn : s'.get? x = some n) :
    m'.get? (σ x) = some (n.mapChildren σ) := by
  rcases hedited.slot_cases (lt_size_of_get? hn) with hlt | ⟨i, a, ha, rfl⟩
  · rw [hedited.origin_old hlt] at hx
    rw [hedited.copied.old x hlt] at hn
    rw [hmirror.copied.old _ (h.lt x hlt)]
    exact h.value x n hx hn
  · rw [hedited.origin_copy hs.sound ha] at hx
    rw [h.shift]
    cases i with
    | zero =>
      rw [Nat.add_zero, hedited.copied.bottom, Option.some.injEq] at hn
      rw [Nat.add_zero, hmirror.copied.bottom, Edit.revise_mapIds hσ, hn]
    | succ i =>
      have hp := List.getElem?_eq_getElem (Nat.lt_of_succ_lt (List.getElem?_eq_some_iff.1 ha).1)
      obtain ⟨k, hk, -, hget⟩ := hedited.copied.above i _ a hp ha
      obtain ⟨l, hl, -, hget'⟩ := hmirror.copied.above i _ _
        (e.spine_mapIds_getElem? σ hp) (e.spine_mapIds_getElem? σ ha)
      rw [h.value a k hx hk, Option.some.injEq] at hl
      rw [hget, Option.some.injEq] at hn
      rw [hget', ← hl, ← hn]
      simp only [Node.setChild, Node.mapChildren, List.map_set, h.shift,
        idxOf_map_of_inj fun _ _ heq => hσ heq]

include hm

theorem links_edited (hx : x < s'.size) :
    (g.record r').links.get? (σ x) = ((f.record r).links.get? x).map σ := by
  by_cases hmem : x ∈ e.target :: above
  · obtain ⟨i, hi⟩ := List.mem_iff_getElem?.1 hmem
    rw [hedited.record_eq, hmirror.record_eq,
      Forward.links_recordSpine_getElem? f _ (hedited.linksUp.nodup hs.sound) hi,
      Forward.links_recordSpine_getElem? g _ (hmirror.linksUp.nodup hm.sound)
        (e.spine_mapIds_getElem? σ hi),
      Option.map_some, h.shift]
  · have hmem' : σ x ∉ (e.mapIds σ).target :: above.map σ := by
      rwa [Edit.spine_mapIds, List.mem_map_of_injective hσ]
    rw [hedited.links_off hmem, hmirror.links_off hmem']
    rcases hedited.slot_cases hx with hlt | ⟨i, a, -, rfl⟩
    · exact h.links x hlt
    · rw [h.shift, hs.traced.coherent.links_of_le (Nat.le_add_right _ _),
        hm.traced.coherent.links_of_le (Nat.le_add_right _ _)]
      rfl

/-- What is near and reached on the other side is reached from the new root. -/
theorem reached_of_mirror
    (henters : ∀ x, e.entering? = some x → ∀ y ∈ s.preorder x, own (f.origin y)) (hx : x < s.size)
    (hnx : near (f.origin x)) (hcurrent : (f.record r).links.get? x = none)
    (hreached : σ x ∈ m'.preorder r'.root) : x ∈ s'.preorder r.root := by
  have hoff := hedited.not_mem_spine_of_links hs.sound hcurrent
  rw [hedited.links_off hoff] at hcurrent
  generalize hz : σ x = z at hreached
  cases hmirror.newNode hm.sound hm.once hreached with
  | @copy i hi => exact absurd (h.lt x hx) (hz ▸ Nat.not_lt.2 (Nat.le_add_right _ _))
  | kept hkept =>
    have hhangs := hmirror.hangs_of_kept hm.sound hm.once hm.linked hkept
    rw [Edit.detached?_mapIds hσ, ← hz] at hhangs
    have hback := h.hangs hσ hs hm hx hnx hcurrent hhangs
    exact (Standing.reached_of_hangs hs.sound hedited hback).resolve_left hoff
  | inside henter hmem =>
    rw [Edit.entering?_mapIds hσ] at henter
    obtain ⟨y, hy, rfl⟩ := Option.map_eq_some_iff.1 henter
    have hylt := hedited.lt_size_of_entering hy (mem_preorder_self s y)
    rw [h.preorder_eq hs.sound hm.sound hylt (henters y hy), ← hz,
      List.mem_map_of_injective hσ] at hmem
    exact hedited.reached_of_entering hs.sound hy hmem

variable (hnear : ∀ y, own y → near y) (htarget : own (f.origin e.target))
include hnear htarget

omit hσ hm hmirror in
theorem near_of_mem_spine (hx : x ∈ e.target :: above) : near (f.origin x) := by
  have hup : ∀ {y : NodeId} {above : List NodeId}, s.LinksUp y above → near (f.origin y) →
      ∀ z ∈ y :: above, near (f.origin z) := by
    intro y above hup hy
    induction above generalizing y with
    | nil => exact List.forall_mem_singleton.2 hy
    | cons p above ih =>
      exact List.forall_mem_cons.2
        ⟨hy, ih hup.2 (h.edge p y hy (hs.sound.listed y p hup.1)).1⟩
  exact hup hedited.linksUp (hnear _ htarget) x hx

theorem edge_edited {p c : NodeId} (hc : near ((f.record r).origin c)) (hmem : c ∈ s'.under p) :
    near ((f.record r).origin p) ∧ σ c ∈ m'.under (σ p) := by
  rcases hedited.slot_cases (lt_size_of_mem_under hmem) with hlt | ⟨i, a, ha, rfl⟩
  · rw [hedited.under_old hlt] at hmem
    rw [hedited.origin_old (Nat.lt_trans (lt_of_mem_under hmem) hlt)] at hc
    rw [hedited.origin_old hlt, hmirror.under_old (h.lt p hlt)]
    exact h.edge p c hc hmem
  · have haspine := List.mem_of_getElem? ha
    have hna := h.near_of_mem_spine hs hedited hnear htarget haspine
    rw [hedited.origin_copy hs.sound ha, h.shift]
    refine ⟨hna, ?_⟩
    cases i with
    | zero =>
      rw [Nat.add_zero, hedited.under_bottom hs.sound] at hmem
      rw [Nat.add_zero, hmirror.under_bottom hm.sound, Edit.revise_mapIds hσ]
      exact List.mem_map_of_mem hmem
    | succ i =>
      have hp := List.getElem?_eq_getElem (Nat.lt_of_succ_lt (List.getElem?_eq_some_iff.1 ha).1)
      have hnodup := hs.once.nodup_under a (hedited.reached_of_mem_spine hs.sound haspine)
      obtain ⟨hchild, hunder⟩ := hmirror.under_copy hm.sound (e.spine_mapIds_getElem? σ hp)
        (e.spine_mapIds_getElem? σ ha)
      rw [(hedited.under_copy hs.sound hp ha).2] at hmem
      rw [hunder]
      rcases mem_set_idxOf hnodup hmem with rfl | ⟨hold, hne⟩
      · rw [h.shift]
        exact List.mem_set (List.idxOf_lt_length_of_mem hchild) _
      · have hclt := Nat.lt_trans (lt_of_mem_under hold) (lt_size_of_mem_under hold)
        rw [hedited.origin_old hclt] at hc
        exact mem_set_idxOf_of_ne (h.edge a c hc hold).2 (hσ.ne hne)

/-- What is near and reached from the new root is reached on the other side. -/
theorem reached_edited (hx : x ∈ s'.preorder r.root) (hnx : near ((f.record r).origin x)) :
    σ x ∈ m'.preorder r'.root := by
  refine preorder_induction (P := fun x => near ((f.record r).origin x) →
    σ x ∈ m'.preorder r'.root) (fun _ => ?_) (fun p _ ih c hc hnc => ?_) x hx hnx
  · rw [h.root_eq_edited hedited hmirror]
    exact mem_preorder_self _ _
  · obtain ⟨hnp, hcp⟩ := h.edge_edited hσ hs hm hedited hmirror hnear htarget hnc hc
    exact mem_preorder_of_mem_under (ih hnp) hcp

variable (henters : ∀ x, e.entering? = some x → ∀ y ∈ s.preorder x, own (f.origin y))
include henters

theorem link_edited (hs' : s'.Standing (f.record r) r.root)
    (hm' : m'.Standing (g.record r') r'.root) (hx : x < s'.size)
    (hnx : near ((f.record r).origin x)) (hcurrent : (f.record r).links.get? x = none) :
    m'.parent? (σ x) = (s'.parent? x).map σ := by
  by_cases hreached : x ∈ s'.preorder r.root
  · rcases eq_or_exists_lister hreached with rfl | ⟨p, hp, hxp⟩
    · rw [h.root_eq_edited hedited hmirror, hs'.root_free, hm'.root_free]
      rfl
    · obtain ⟨hnp, hedge⟩ := h.edge_edited hσ hs hm hedited hmirror hnear htarget hnx hxp
      have hmirrored := h.reached_edited hσ hs hm hedited hmirror hnear htarget hp hnp
      rw [hs'.linked p hp x hxp, hm'.linked _ hmirrored _ hedge]
      rfl
  · -- a slot that is not reached is an old one, and its link stays on both sides
    rcases hedited.slot_cases hx with hlt | ⟨i, a, ha, rfl⟩
    · have hnold := hnx
      rw [hedited.origin_old hlt] at hnold
      have hunreached : σ x ∉ m'.preorder r'.root := fun hmem => hreached
        (h.reached_of_mirror hσ hs hm hedited hmirror henters hlt hnold hcurrent hmem)
      rw [hedited.parent?_of_not_reached hs'.once hreached,
        hmirror.parent?_of_not_reached hm'.once hunreached]
      refine h.link x hlt hnold ?_
      rwa [hedited.links_off (hedited.not_mem_spine_of_links hs.sound hcurrent)] at hcurrent
    · have hi := Nat.le_of_lt_succ (List.getElem?_eq_some_iff.1 ha).1
      exact absurd (Edited.reached_of_visits (hedited.visits_copy hs.sound hi)) hreached

/-- After an edit on both sides they mirror each other again. -/
theorem edited (hs' : s'.Standing (f.record r) r.root) (hm' : m'.Standing (g.record r') r'.root) :
    Mirrors σ near own s' (f.record r) r.root m' (g.record r') r'.root where
  shift := h.shift_edited hedited hmirror
  lt _ hx := h.lt_edited hedited hmirror hx
  root_eq := h.root_eq_edited hedited hmirror
  links _ hx := h.links_edited hσ hs hm hedited hmirror hx
  value _ _ hx hn := h.value_edited hσ hs hedited hmirror hx hn
  edge _ _ hc hmem := h.edge_edited hσ hs hm hedited hmirror hnear htarget hc hmem
  link _ hx hnx hcurrent :=
    h.link_edited hσ hs hm hedited hmirror hnear htarget henters hs' hm' hx hnx hcurrent

end Edited

end Mirrors

end Store

end TreeEdit
