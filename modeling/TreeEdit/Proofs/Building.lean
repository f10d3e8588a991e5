import TreeEdit.Proofs.Sound

/-!
# First generations

`Store.finish` walks down from a root and stops when it comes to a slot for the second time. If it
comes to its end, then no slot is reached twice, every child reached names its lister, and no other
link has changed. `Store.build` is what a builder holds after some nodes have been offered to it, in
any order and whether they were accepted or not; the trees finished from it are the first
generations.
-/

namespace TreeEdit

namespace Store

variable {s : Store} {seen : IdSet} {links links' : IdMap} {stack : List NodeId} {c p root : NodeId}

/-! ### The walk from a root -/

/-- What is reached from the children of a slot. -/
def beneath (s : Store) (id : NodeId) : List NodeId :=
  (s.under id).flatMap s.preorder

theorem preorder_eq_cons_beneath (s : Store) (id : NodeId) :
    s.preorder id = id :: s.beneath id :=
  preorder_eq s id

theorem flatMap_preorder_perm (s : Store) (ids : List NodeId) :
    (ids.flatMap s.preorder).Perm (ids ++ ids.flatMap s.beneath) := by
  have h := List.map_append_flatMap_perm ids id s.beneath
  rw [List.map_id] at h
  rw [funext (preorder_eq_cons_beneath s)]
  exact h.symm

/-- What is beneath the slots of a stack, with the uppermost slot taken off and its children put on
in its place: the children themselves are not beneath the new stack. -/
theorem flatMap_beneath_perm (s : Store) (id : NodeId) (rest : List NodeId) :
    ((id :: rest).flatMap s.beneath).Perm
      (s.under id ++ ((s.under id).reverse ++ rest).flatMap s.beneath) := by
  rw [List.flatMap_cons, List.flatMap_append, ← List.append_assoc]
  refine List.Perm.append_right _ ((flatMap_preorder_perm s _).trans ?_)
  exact ((List.reverse_perm _).symm.flatMap_right _).append_left _

theorem attachChildren_eq_ok {parent : NodeId} {cs : List NodeId} {a b : Attaching}
    (h : attachChildren parent cs a = .ok b) :
    cs.Nodup ∧ (∀ c ∈ cs, c ∉ a.seen) ∧ (∀ y, y ∈ b.seen ↔ y ∈ cs ∨ y ∈ a.seen) ∧
      b.stack = cs.reverse ++ a.stack ∧
      ∀ c, (s.withLinks b.links).parent? c =
        if c ∈ cs then some parent else (s.withLinks a.links).parent? c := by
  induction cs generalizing a with
  | nil =>
    cases h
    simp
  | cons d cs ih =>
    rw [attachChildren] at h
    split at h
    · cases h
    · rename_i hd
      obtain ⟨hnodup, hfresh, hseen, hstack, hlinks⟩ := ih h
      have hda : d ∉ a.seen := by rwa [Std.ExtTreeSet.mem_iff_contains]
      refine ⟨List.nodup_cons.2 ⟨fun hmem => ?_, hnodup⟩, ?_, ?_, ?_, ?_⟩
      · exact hfresh d hmem (IdSet.mem_insert_iff.2 (Or.inl rfl))
      · refine List.forall_mem_cons.2 ⟨hda, fun y hy hmem => ?_⟩
        exact hfresh y hy (IdSet.mem_insert_iff.2 (Or.inr hmem))
      · intro y
        rw [hseen, IdSet.mem_insert_iff, List.mem_cons]
        tauto
      · rw [hstack, List.reverse_cons, List.append_assoc, List.singleton_append]
      · intro y
        rw [hlinks y, parent?_withLinks_insert]
        by_cases hy : y = d
        · simp [hy]
        · simp [hy]

/-- What is known when the walk has come to its end: nothing beneath the slots of the stack is
reached twice or was seen before, each of them names its lister, and no other link has changed. -/
theorem attachWalk_eq_ok (h : s.attachWalk seen links stack = .ok links') :
    (stack.flatMap s.beneath).Nodup ∧ (∀ y ∈ stack.flatMap s.beneath, y ∉ seen) ∧
      (∀ p ∈ stack.flatMap s.preorder, ∀ c ∈ s.under p,
        (s.withLinks links').parent? c = some p) ∧
      ∀ c, c ∉ stack.flatMap s.beneath →
        (s.withLinks links').parent? c = (s.withLinks links).parent? c := by
  induction seen, links, stack using attachWalk.induct s with
  | case1 seen links =>
    rw [attachWalk] at h
    cases h
    simp
  | case2 seen links id rest e he =>
    rw [attachWalk, he] at h
    cases h
  | case3 seen links id rest a ha ih =>
    rw [attachWalk, ha] at h
    obtain ⟨hnodup, hfresh, hlisted, hkept⟩ := ih h
    obtain ⟨hcs, hnew, hseen, hstack, hlinks⟩ := attachChildren_eq_ok (s := s) ha
    -- the children join the slots seen, so nothing further down repeats them
    have hperm := hstack ▸ flatMap_beneath_perm s id rest
    have hapart : ∀ c ∈ s.under id, c ∉ a.stack.flatMap s.beneath := fun c hc hmem =>
      hfresh c hmem ((hseen c).2 (Or.inl hc))
    refine ⟨?_, fun y hy => ?_, fun p hp c hc => ?_, fun c hc => ?_⟩
    · rw [hperm.nodup_iff, List.nodup_append]
      exact ⟨hcs, hnodup, fun c hc d hd heq => hapart c hc (heq ▸ hd)⟩
    · rcases List.mem_append.1 (hperm.mem_iff.1 hy) with hy | hy
      · exact hnew y hy
      · exact fun hmem => hfresh y hy ((hseen y).2 (Or.inr hmem))
    · rw [List.flatMap_cons, preorder_eq_cons_beneath, List.cons_append, List.mem_cons] at hp
      rcases hp with rfl | hp
      · rw [hkept c (hapart c hc), hlinks, if_pos hc]
      · refine hlisted p ?_ c hc
        rw [hstack, List.flatMap_append]
        exact (((List.reverse_perm _).flatMap_right s.preorder).append_right _).mem_iff.2 hp
    · have hc' := mt hperm.mem_iff.2 hc
      rw [List.mem_append, not_or] at hc'
      rw [hkept c hc'.2, hlinks, if_neg hc'.1]

/-- What is known of a finished tree. -/
theorem finish_eq_ok {t : Tree} (h : s.finish root = .ok t) :
    t.root = root ∧ root < s.size ∧ (s.preorder root).Nodup ∧
      ∃ links', t.store = s.withLinks links' ∧
        (∀ p ∈ s.preorder root, ∀ c ∈ s.under p, t.store.parent? c = some p) ∧
        ∀ c, (∀ p ∈ s.preorder root, c ∉ s.under p) → t.store.parent? c = s.parent? c := by
  obtain ⟨n, hn, h⟩ := Verdict.bind_eq_ok_iff.1 h
  obtain ⟨links', hwalk, h⟩ := Verdict.bind_eq_ok_iff.1 h
  cases h
  obtain ⟨hnodup, -, hlisted, hkept⟩ := attachWalk_eq_ok hwalk
  simp only [List.flatMap_singleton] at hnodup hlisted hkept
  refine ⟨rfl, lt_size_of_get? (node_eq_ok_iff.1 hn), ?_, links', rfl, hlisted, fun c hc => ?_⟩
  · rw [preorder_eq_cons_beneath, List.nodup_cons]
    refine ⟨fun hmem => ?_, hnodup⟩
    obtain ⟨d, hd, hmem⟩ := List.mem_flatMap.1 hmem
    exact absurd (lt_of_mem_under hd) (Nat.not_lt.2 (le_of_mem_preorder hmem))
  · refine hkept c fun hmem => ?_
    obtain ⟨d, hd, hmem⟩ := List.mem_flatMap.1 hmem
    have hreached := mem_preorder_of_mem_under (mem_preorder_self s root) hd
    rcases eq_or_exists_lister hmem with rfl | ⟨p, hp, hc'⟩
    · exact hc root (mem_preorder_self s root) hd
    · exact hc p (mem_preorder_trans hp hreached) hc'

/-! ### Builders -/

/-- What a builder holds after some nodes have been offered to it. Those that it refuses leave no
trace. -/
def build (nodes : List Node) : Store :=
  nodes.foldl (fun s n => (s.alloc n).1) .empty

theorem build_induction {P : Store → Prop} (start : P .empty)
    (offer : ∀ s n, P s → P (s.alloc n).1) (nodes : List Node) : P (build nodes) := by
  have hfold : ∀ s, P s → P (nodes.foldl (fun s n => (s.alloc n).1) s) := by
    induction nodes with
    | nil => exact fun s hs => hs
    | cons n nodes ih => exact fun s hs => ih _ (offer s n hs)
  exact hfold .empty start

theorem sound_build (nodes : List Node) : (build nodes).Sound :=
  build_induction Sound.empty (fun _ n hs => hs.alloc n) nodes

theorem parent?_build (nodes : List Node) (id : NodeId) : (build nodes).parent? id = none := by
  refine build_induction (P := fun s => s.parent? id = none) rfl (fun s n hs => ?_) nodes
  rcases alloc_cases s n with ⟨e, he⟩ | ⟨hok, -, -⟩
  · rwa [he]
  · rwa [hok]

/-- A builder has no links, so those of a finished tree are the ones that the walk has set. -/
theorem sound_finish {nodes : List Node} {t : Tree} (h : (build nodes).finish root = .ok t) :
    t.Sound := by
  obtain ⟨rfl, hroot, -, links, hstore, hlisted, hkept⟩ := finish_eq_ok h
  refine ⟨?_, by rw [hstore]; exact hroot⟩
  rw [hstore]
  refine (sound_build nodes).withLinks fun c p hp => ?_
  rw [← hstore] at hp
  by_cases hc : ∃ q ∈ (build nodes).preorder t.root, c ∈ (build nodes).under q
  · obtain ⟨q, hq, hcq⟩ := hc
    rw [hlisted q hq c hcq, Option.some.injEq] at hp
    rwa [← hp]
  · rw [hkept c fun q hq hcq => hc ⟨q, hq, hcq⟩, parent?_build] at hp
    cases hp

end Store

end TreeEdit
