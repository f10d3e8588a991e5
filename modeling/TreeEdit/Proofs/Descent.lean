import Mathlib.Data.List.Nodup
import Mathlib.Tactic
import TreeEdit.Tree.Basic

/-!
# What is reached from a slot

`Store.preorder` lists the nodes below a slot as often as they are reached. This file treats it as a
relation: a slot is reached if it is in the list, `preorder_induction` goes from a slot to all that
is reached from it, and `nodup_preorder_iff` says when the list has no repetition. That is the case
exactly if no reached slot lists a child twice and no child has two listers. The walk with a stack
gives the same list: `Tree.descendants_eq`.
-/

namespace TreeEdit.Store

variable {s t : Store} {r p q c x : NodeId}

theorem preorder_eq (s : Store) (r : NodeId) :
    s.preorder r = r :: (s.under r).flatMap s.preorder := by
  rw [preorder]
  congr 1
  exact List.flatMap_subtype (fun _ _ => rfl) |>.trans (by rw [List.unattach_attach])

@[simp] theorem mem_preorder_self (s : Store) (r : NodeId) : r ∈ s.preorder r := by
  rw [preorder_eq]
  exact List.mem_cons_self

theorem mem_preorder_iff :
    x ∈ s.preorder r ↔ x = r ∨ ∃ c ∈ s.under r, x ∈ s.preorder c := by
  rw [preorder_eq, List.mem_cons, List.mem_flatMap]

/-- What holds of a slot, and passes from each node reached to its children, holds of every node
reached. -/
theorem preorder_induction {P : NodeId → Prop} (top : P r)
    (down : ∀ p ∈ s.preorder r, P p → ∀ c ∈ s.under p, P c) : ∀ x ∈ s.preorder r, P x := by
  induction r using Nat.strong_induction_on with
  | _ r ih =>
    intro x hx
    rcases mem_preorder_iff.1 hx with rfl | ⟨c, hc, hxc⟩
    · exact top
    · refine ih c (lt_of_mem_under hc) (down r (mem_preorder_self s r) top c hc) ?_ x hxc
      intro p hp
      exact down p (mem_preorder_iff.2 (Or.inr ⟨c, hc, hp⟩))

theorem mem_preorder_of_mem_under (hp : p ∈ s.preorder r) (hc : c ∈ s.under p) :
    c ∈ s.preorder r := by
  induction r using Nat.strong_induction_on with
  | _ r ih =>
    rcases mem_preorder_iff.1 hp with rfl | ⟨d, hd, hpd⟩
    · exact mem_preorder_iff.2 (Or.inr ⟨c, hc, mem_preorder_self s c⟩)
    · exact mem_preorder_iff.2 (Or.inr ⟨d, hd, ih d (lt_of_mem_under hd) hpd⟩)

theorem mem_preorder_trans (hx : x ∈ s.preorder p) (hp : p ∈ s.preorder r) : x ∈ s.preorder r :=
  preorder_induction hp (fun _ _ hq _ hc => mem_preorder_of_mem_under hq hc) x hx

theorem le_of_mem_preorder (hx : x ∈ s.preorder r) : x ≤ r :=
  preorder_induction (P := (· ≤ r)) (Nat.le_refl r)
    (fun _ _ hp _ hc => Nat.le_of_lt (Nat.lt_of_lt_of_le (lt_of_mem_under hc) hp)) x hx

/-- A node that is reached is the starting point or is listed by a node that is reached. -/
theorem eq_or_exists_lister (hx : x ∈ s.preorder r) :
    x = r ∨ ∃ p ∈ s.preorder r, x ∈ s.under p :=
  preorder_induction (P := fun x => x = r ∨ ∃ p ∈ s.preorder r, x ∈ s.under p) (Or.inl rfl)
    (fun p hp _ _ hc => Or.inr ⟨p, hp, hc⟩) x hx

/-- Two stores that list the same children at every node reached reach the same nodes. -/
theorem preorder_congr (h : ∀ x ∈ s.preorder r, t.under x = s.under x) :
    t.preorder r = s.preorder r := by
  induction r using Nat.strong_induction_on with
  | _ r ih =>
    rw [preorder_eq, preorder_eq s, h r (mem_preorder_self s r)]
    congr 1
    refine List.flatMap_congr fun c hc => ih c (lt_of_mem_under hc) fun x hx => h x ?_
    exact mem_preorder_iff.2 (Or.inr ⟨c, hc, hx⟩)

/-- The walk with a stack goes through what is below the uppermost slot before it comes to the
next. -/
theorem walk_eq_flatMap (s : Store) (stack : List NodeId) :
    s.walk stack = stack.flatMap s.preorder := by
  induction stack using walk.induct s with
  | case1 => rw [walk, List.flatMap_nil]
  | case2 id rest ih =>
    rw [walk, ih, List.flatMap_append, List.flatMap_cons, preorder_eq, List.cons_append]

/-! ### Trees among graphs -/

/-- No two reached nodes list the same child, and none lists a child twice. -/
structure UniqueListers (s : Store) (r : NodeId) : Prop where
  nodup_under : ∀ p ∈ s.preorder r, (s.under p).Nodup
  lister_eq : ∀ p ∈ s.preorder r, ∀ q ∈ s.preorder r, ∀ c ∈ s.under p, c ∈ s.under q → p = q

namespace UniqueListers

theorem mono (h : UniqueListers s r) (hp : p ∈ s.preorder r) : UniqueListers s p where
  nodup_under q hq := h.nodup_under q (mem_preorder_trans hq hp)
  lister_eq a ha b hb := h.lister_eq a (mem_preorder_trans ha hp) b (mem_preorder_trans hb hp)

/-- Nothing is reached from two children of one node. -/
theorem disjoint (h : UniqueListers s r) (hp : p ∈ s.preorder r) {a b : NodeId}
    (ha : a ∈ s.under p) (hb : b ∈ s.under p) (hab : a ≠ b) (hx : x ∈ s.preorder a) :
    x ∉ s.preorder b := by
  have hpa := mem_preorder_of_mem_under hp ha
  have hpb := mem_preorder_of_mem_under hp hb
  -- whoever lists a node below `a` stands below `a` itself, and so do all above it up to `a`
  refine preorder_induction (P := (· ∉ s.preorder b)) ?_ ?_ x hx
  · intro hmem
    rcases eq_or_exists_lister hmem with rfl | ⟨q, hq, haq⟩
    · exact hab rfl
    · have hqp := h.lister_eq q (mem_preorder_trans hq hpb) p hp a haq ha
      have hle := le_of_mem_preorder hq
      have hlt := lt_of_mem_under hb
      rw [hqp] at hle
      exact absurd hlt (Nat.not_lt.2 hle)
  · intro y hy hyb c hc hmem
    rcases eq_or_exists_lister hmem with rfl | ⟨q, hq, hcq⟩
    · have hyp := h.lister_eq y (mem_preorder_trans hy hpa) p hp c hc hb
      have hle := le_of_mem_preorder hy
      have hlt := lt_of_mem_under ha
      rw [hyp] at hle
      exact absurd hlt (Nat.not_lt.2 hle)
    · have hqy := h.lister_eq q (mem_preorder_trans hq hpb) y (mem_preorder_trans hy hpa) c hcq hc
      exact hyb (hqy ▸ hq)

theorem nodup_preorder (h : UniqueListers s r) : (s.preorder r).Nodup := by
  induction r using Nat.strong_induction_on with
  | _ r ih =>
    rw [preorder_eq, List.nodup_cons, List.nodup_flatMap]
    refine ⟨?_, ?_, ?_⟩
    · intro hmem
      obtain ⟨c, hc, hrc⟩ := List.mem_flatMap.1 hmem
      exact absurd (le_of_mem_preorder hrc) (Nat.not_le.2 (lt_of_mem_under hc))
    · intro c hc
      exact ih c (lt_of_mem_under hc)
        (h.mono (mem_preorder_of_mem_under (mem_preorder_self s r) hc))
    · have hroot := mem_preorder_self s r
      refine List.Pairwise.imp_of_mem ?_ (h.nodup_under r hroot)
      intro a b ha hb hab x hxa hxb
      exact h.disjoint hroot ha hb hab hxa hxb

end UniqueListers

theorem uniqueListers_of_nodup (h : (s.preorder r).Nodup) : UniqueListers s r := by
  induction r using Nat.strong_induction_on with
  | _ r ih =>
    rw [preorder_eq, List.nodup_cons, List.nodup_flatMap] at h
    obtain ⟨-, hsub, hdisj⟩ := h
    have below : ∀ c ∈ s.under r, UniqueListers s c := fun c hc =>
      ih c (lt_of_mem_under hc) (hsub c hc)
    have apart : ∀ a ∈ s.under r, ∀ b ∈ s.under r, ∀ x, x ∈ s.preorder a → x ∈ s.preorder b →
        a = b := by
      intro a ha b hb x hxa hxb
      by_contra hab
      have : Std.Symm (Function.onFun List.Disjoint s.preorder) := ⟨fun _ _ h => h.symm⟩
      exact hdisj.forall ha hb hab hxa hxb
    -- a child of the top is not listed once more further down
    have once : ∀ d ∈ s.under r, ∀ q ∈ s.preorder d, ∀ c ∈ s.under r, c ∉ s.under q := by
      intro d hd q hq c hc hcq
      have hcd := apart c hc d hd c (mem_preorder_self s c) (mem_preorder_of_mem_under hq hcq)
      have hle := le_of_mem_preorder hq
      exact absurd (lt_of_mem_under hcq) (Nat.not_lt.2 (hcd ▸ hle))
    refine ⟨?_, ?_⟩
    · intro p hp
      rcases mem_preorder_iff.1 hp with rfl | ⟨d, hd, hpd⟩
      · refine hdisj.imp ?_
        rintro a b hab rfl
        exact hab (mem_preorder_self s a) (mem_preorder_self s a)
      · exact (below d hd).nodup_under p hpd
    · intro p hp q hq c hcp hcq
      rcases mem_preorder_iff.1 hp with rfl | ⟨a, ha, hpa⟩ <;>
        rcases mem_preorder_iff.1 hq with rfl | ⟨b, hb, hqb⟩
      · rfl
      · exact absurd hcq (once b hb q hqb c hcp)
      · exact absurd hcp (once a ha p hpa c hcq)
      · obtain rfl := apart a ha b hb c (mem_preorder_of_mem_under hpa hcp)
          (mem_preorder_of_mem_under hqb hcq)
        exact (below a ha).lister_eq p hpa q hqb c hcp hcq

/-- No slot is reached twice exactly if every child has one lister. -/
theorem nodup_preorder_iff : (s.preorder r).Nodup ↔ UniqueListers s r :=
  ⟨uniqueListers_of_nodup, UniqueListers.nodup_preorder⟩

end TreeEdit.Store

namespace TreeEdit.Tree

/-- The subtree at a slot that exists. -/
theorem descendants_eq {t : Tree} {id : NodeId} (h : id < t.store.size) :
    t.descendants id = t.store.preorder id := by
  rw [descendants, Store.contains, if_pos (decide_eq_true h), Store.walk_eq_flatMap,
    List.flatMap_singleton]

end TreeEdit.Tree
