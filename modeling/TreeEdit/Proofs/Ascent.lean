import TreeEdit.Edit.Path
import TreeEdit.Proofs.Sound

/-!
# Chains of parent links

Two walks go up a store. `Store.path` collects the chain from a target to the root, and
`Store.isAttached` only asks whether it ends there. `LinksUp` and `Hangs` say what the two find. In
a sound store a chain of links is a chain of listers with growing slots, so it passes through no
slot twice, and the number of slots is enough of a bound for the second walk.
-/

namespace TreeEdit.Store

variable {s : Store} {id root p q x : NodeId} {above : List NodeId}

/-! ### The chain from a slot -/

/-- The links from a slot lead through the slots of a list, and the last of them has none. -/
def LinksUp (s : Store) : NodeId → List NodeId → Prop
  | id, [] => s.parent? id = none
  | id, p :: above => s.parent? id = some p ∧ s.LinksUp p above

instance decidableLinksUp (s : Store) :
    (id : NodeId) → (above : List NodeId) → Decidable (s.LinksUp id above)
  | id, [] => inferInstanceAs (Decidable (s.parent? id = none))
  | id, p :: above =>
    have := decidableLinksUp s p above
    inferInstanceAs (Decidable (s.parent? id = some p ∧ s.LinksUp p above))

/-- A walk with room for some links takes that many of a chain. -/
theorem climb_of_linksUp (h : s.LinksUp id above) (room : Nat) :
    s.climb room id = (above.take room, decide (room < above.length)) := by
  induction room generalizing id above with
  | zero =>
    cases above with
    | nil => simp_all [climb, LinksUp]
    | cons p above => simp [climb, h.1]
  | succ room ih =>
    cases above with
    | nil => simp_all [climb, LinksUp]
    | cons p above => simp [climb, h.1, ih h.2]

/-- A walk that ends before its room does has collected a chain. -/
theorem climb_eq_false_iff {room : Nat} :
    s.climb room id = (above, false) ↔ s.LinksUp id above ∧ above.length ≤ room := by
  constructor
  · intro h
    induction room generalizing id above with
    | zero =>
      obtain ⟨rfl, hnone⟩ := Prod.mk.inj h
      exact ⟨Option.isNone_iff_eq_none.1 (by simpa using hnone), Nat.le_refl 0⟩
    | succ room ih =>
      rw [climb] at h
      cases hp : s.parent? id with
      | none =>
        rw [hp] at h
        obtain ⟨rfl, -⟩ := Prod.mk.inj h
        exact ⟨hp, Nat.zero_le _⟩
      | some p =>
        rw [hp] at h
        obtain ⟨rfl, hmore⟩ := Prod.mk.inj h
        obtain ⟨hup, hlen⟩ := ih (Prod.ext rfl hmore)
        exact ⟨⟨hp, hup⟩, Nat.succ_le_succ hlen⟩
  · rintro ⟨hup, hlen⟩
    rw [climb_of_linksUp hup, List.take_of_length_le hlen, decide_eq_false (Nat.not_lt.2 hlen)]

/-- The answer to a search for a path, by what the walk has collected. -/
theorem path_of_climb {most : Nat} {n : Node} {more : Bool} (hn : s.get? id = some n)
    (hclimb : s.climb (most - 1) id = (above, more)) :
    s.path most root id =
      if more then .error (.limit .recursionDepth (above.length + 2) most (some n.stableId))
      else if (Path.mk id above).root = root then .ok ⟨id, above⟩
      else .error (.treeState (.unreachable n.stableId (s.nameOf root)
        (s.nameOf (Path.mk id above).root))) := by
  unfold path node
  rw [hn]
  simp only [bind, Except.bind, hclimb, throw, throwThe, MonadExceptOf.throw, Path.length]
  cases more with
  | true => rfl
  | false => simp only [ite_not, Bool.false_eq_true, ↓reduceIte, pure, Except.pure]

/-- A path is found if its target exists and the links lead to the root in few enough steps. -/
theorem path_eq_ok_iff {most : Nat} {target : NodeId} {way : Path} :
    s.path most root target = .ok way ↔
      way.target = target ∧ (∃ n, s.get? target = some n) ∧ s.LinksUp target way.above ∧
        way.above.length ≤ most - 1 ∧ way.root = root := by
  constructor
  · intro h
    obtain ⟨n, hn⟩ : ∃ n, s.get? target = some n := by
      obtain ⟨n, hn, -⟩ := Verdict.bind_eq_ok_iff.1 h
      exact ⟨n, node_eq_ok_iff.1 hn⟩
    obtain ⟨⟨above, more⟩, hclimb⟩ : ∃ found, s.climb (most - 1) target = found := ⟨_, rfl⟩
    rw [path_of_climb hn hclimb] at h
    split_ifs at h with hmore hroot
    cases h
    rw [Bool.not_eq_true] at hmore
    subst hmore
    obtain ⟨hup, hlen⟩ := climb_eq_false_iff.1 hclimb
    exact ⟨rfl, ⟨n, hn⟩, hup, hlen, hroot⟩
  · obtain ⟨start, above⟩ := way
    rintro ⟨rfl, ⟨n, hn⟩, hup, hlen, hroot⟩
    rw [path_of_climb hn (climb_eq_false_iff.2 ⟨hup, hlen⟩), if_neg Bool.false_ne_true,
      if_pos hroot]

/-- The upper end of a chain. -/
def chainTop (id : NodeId) (above : List NodeId) : NodeId :=
  above.getLast?.getD id

@[simp] theorem chainTop_cons (id p : NodeId) (above : List NodeId) :
    chainTop id (p :: above) = chainTop p above := by
  cases above <;> simp [chainTop, List.getLast?_cons]

theorem chainTop_eq_getElem? (id : NodeId) (above : List NodeId) :
    (id :: above)[above.length]? = some (chainTop id above) := by
  induction above generalizing id with
  | nil => rfl
  | cons p above ih => rw [List.length_cons, List.getElem?_cons_succ, ih, chainTop_cons]

namespace LinksUp

theorem parent?_getElem? (h : s.LinksUp id above) {i : Nat} (hp : (id :: above)[i]? = some p)
    (hq : (id :: above)[i + 1]? = some q) : s.parent? p = some q := by
  induction above generalizing id i with
  | nil => simp at hq
  | cons a above ih =>
    cases i with
    | zero =>
      simp only [List.getElem?_cons_zero, List.getElem?_cons_succ, Option.some.injEq] at hp hq
      subst hp hq
      exact h.1
    | succ i => exact ih h.2 (by simpa using hp) (by simpa using hq)

/-- The upper end of a chain has no link. -/
theorem parent?_chainTop (h : s.LinksUp id above) : s.parent? (chainTop id above) = none := by
  induction above generalizing id with
  | nil => exact h
  | cons p above ih =>
    rw [chainTop_cons]
    exact ih h.2

theorem pairwise_lt (hs : s.Sound) (h : s.LinksUp id above) :
    (id :: above).Pairwise (· < ·) := by
  induction above generalizing id with
  | nil => simp
  | cons p above ih =>
    have hlt := hs.lt_of_parent? h.1
    have hrest := ih h.2
    refine List.pairwise_cons.2 ⟨fun x hx => ?_, hrest⟩
    rcases List.mem_cons.1 hx with rfl | hx
    · exact hlt
    · exact Nat.lt_trans hlt ((List.pairwise_cons.1 hrest).1 x hx)

theorem nodup (hs : s.Sound) (h : s.LinksUp id above) : (id :: above).Nodup :=
  (h.pairwise_lt hs).imp Nat.ne_of_lt

/-- Every slot of a chain is reached from its upper end. -/
theorem mem_preorder (hs : s.Sound) (h : s.LinksUp id above) (hx : x ∈ id :: above) :
    x ∈ s.preorder (chainTop id above) := by
  induction above generalizing id x with
  | nil => rw [List.mem_singleton.1 hx]; exact mem_preorder_self s id
  | cons p above ih =>
    rw [chainTop_cons]
    rcases List.mem_cons.1 hx with rfl | hx
    · exact mem_preorder_of_mem_under (ih h.2 List.mem_cons_self) (hs.listed x p h.1)
    · exact ih h.2 hx

theorem lt_size (hs : s.Sound) (h : s.LinksUp id above) (hid : id < s.size) (hx : x ∈ id :: above) :
    x < s.size := by
  induction above generalizing id with
  | nil => rwa [List.mem_singleton.1 hx]
  | cons p above ih =>
    rcases List.mem_cons.1 hx with rfl | hx
    · exact hid
    · exact ih h.2 (hs.parent_lt_size h.1) hx

/-- The lower end of a chain is reached from every slot of it. -/
theorem mem_preorder_of_mem (hs : s.Sound) (h : s.LinksUp id above) (hx : x ∈ id :: above) :
    id ∈ s.preorder x := by
  induction above generalizing id with
  | nil => rw [List.mem_singleton.1 hx]; exact mem_preorder_self s id
  | cons p above ih =>
    rcases List.mem_cons.1 hx with rfl | hx
    · exact mem_preorder_self s x
    · exact mem_preorder_of_mem_under (ih h.2 hx) (hs.listed id p h.1)

/-- The part of a chain from one of its slots on is the chain of that slot. -/
theorem drop (h : s.LinksUp id above) {i : Nat} (hx : (id :: above)[i]? = some x) :
    s.LinksUp x (above.drop i) ∧ chainTop x (above.drop i) = chainTop id above := by
  induction i generalizing id above with
  | zero =>
    rw [List.getElem?_cons_zero, Option.some.injEq] at hx
    exact ⟨hx ▸ h, hx ▸ rfl⟩
  | succ i ih =>
    cases above with
    | nil => simp at hx
    | cons p above =>
      rw [List.drop_succ_cons, chainTop_cons]
      exact ih h.2 (by simpa using hx)

theorem unique (h : s.LinksUp id above) {others : List NodeId} (h' : s.LinksUp id others) :
    above = others := by
  induction above generalizing id others with
  | nil =>
    cases others with
    | nil => rfl
    | cons q others => exact absurd (h.symm.trans h'.1) (by simp)
  | cons p above ih =>
    cases others with
    | nil => exact absurd (h.1.symm.trans h') (by simp)
    | cons q others =>
      obtain rfl : p = q := Option.some.inj (h.1.symm.trans h'.1)
      rw [ih h.2 h'.2]

end LinksUp

/-- There are no more links to follow than there are slots. -/
theorem linksUp_chain (hs : s.Sound) {steps : Nat} (hsteps : s.size ≤ steps + id) :
    s.LinksUp id (s.chain steps id) := by
  induction steps generalizing id with
  | zero => exact hs.parent?_eq_none (by simpa using hsteps)
  | succ steps ih =>
    rw [chain]
    cases hlink : s.parent? id with
    | none => exact hlink
    | some p =>
      have hlt := Nat.succ_le_of_lt (hs.lt_of_parent? hlink)
      exact ⟨hlink, ih (by omega)⟩

/-! ### Being attached -/

/-- The links from a slot lead to the root without passing through the slot that leaves. -/
inductive Hangs (s : Store) (root : NodeId) (leaving : Option NodeId) : NodeId → Prop
  | root (h : s.parent? root = none) (stays : leaving ≠ some root) : Hangs s root leaving root
  | up {c p : NodeId} (link : s.parent? c = some p) (stays : leaving ≠ some c)
      (hp : Hangs s root leaving p) : Hangs s root leaving c

variable {leaving : Option NodeId}

theorem Hangs.reaches (hs : s.Sound) (h : Hangs s root leaving x) {steps : Nat}
    (hx : x < s.size) (hsteps : s.size ≤ steps + x) : s.reaches root leaving steps x = true := by
  induction h generalizing steps with
  | root hroot stays =>
    obtain ⟨steps, rfl⟩ : ∃ k, steps = k + 1 := ⟨steps - 1, by have : s.size > root := hx; omega⟩
    simp [Store.reaches, stays, hroot]
  | @up c p link stays _ ih =>
    obtain ⟨steps, rfl⟩ : ∃ k, steps = k + 1 := ⟨steps - 1, by have : s.size > c := hx; omega⟩
    have hlt := Nat.succ_le_of_lt (hs.lt_of_parent? link)
    have hrest : s.reaches root leaving steps p = true :=
      ih (hs.parent_lt_size link) (by omega)
    simp [Store.reaches, stays, link, hrest]

theorem hangs_of_reaches {steps : Nat} (h : s.reaches root leaving steps x = true) :
    Hangs s root leaving x := by
  induction steps generalizing x with
  | zero => simp [Store.reaches] at h
  | succ steps ih =>
    rw [Store.reaches] at h
    split at h
    · cases h
    · rename_i stays
      split at h
      · rename_i p link
        exact .up link stays (ih h)
      · rename_i link
        obtain rfl : x = root := by simpa using h
        exact .root link stays

/-- The bound on the walk never cuts a chain short. -/
theorem isAttached_iff (hs : s.Sound) :
    s.isAttached root leaving x = true ↔ x < s.size ∧ Hangs s root leaving x := by
  rw [isAttached, Bool.and_eq_true, contains, decide_eq_true_iff]
  constructor
  · rintro ⟨hx, h⟩
    exact ⟨hx, hangs_of_reaches h⟩
  · rintro ⟨hx, h⟩
    exact ⟨hx, h.reaches hs hx (Nat.le_add_right _ _)⟩

/-- The slots of a chain hang from its upper end. -/
theorem LinksUp.hangs (h : s.LinksUp id above) (stays : ∀ y ∈ id :: above, leaving ≠ some y)
    (hx : x ∈ id :: above) : Hangs s (chainTop id above) leaving x := by
  induction above generalizing id x with
  | nil =>
    rw [List.mem_singleton.1 hx]
    exact .root h (stays id List.mem_cons_self)
  | cons p above ih =>
    rw [chainTop_cons]
    have stays' : ∀ y ∈ p :: above, leaving ≠ some y := fun y hy =>
      stays y (List.mem_cons_of_mem _ hy)
    rcases List.mem_cons.1 hx with rfl | hx
    · exact .up h.1 (stays x List.mem_cons_self) (ih h.2 stays' List.mem_cons_self)
    · exact ih h.2 stays' hx

/-- A slot hangs from a root if its chain ends there and the slot that leaves is not on it. -/
theorem LinksUp.hangs_iff (h : s.LinksUp id above) :
    Hangs s root leaving id ↔
      chainTop id above = root ∧ ∀ y ∈ id :: above, leaving ≠ some y := by
  constructor
  · intro hhangs
    induction hhangs generalizing above with
    | root hroot stays =>
      obtain rfl : above = [] := h.unique hroot
      exact ⟨rfl, by simpa using stays⟩
    | @up c p link stays _ ih =>
      cases above with
      | nil => exact absurd (link.symm.trans h) (by simp)
      | cons q above =>
        obtain rfl : p = q := Option.some.inj (link.symm.trans h.1)
        obtain ⟨htop, hstays⟩ := ih h.2
        exact ⟨by rwa [chainTop_cons], List.forall_mem_cons.2 ⟨stays, hstays⟩⟩
  · rintro ⟨rfl, hstays⟩
    exact h.hangs hstays List.mem_cons_self

end TreeEdit.Store

namespace TreeEdit.Tree

variable {t : Tree} {id : NodeId} {above : List NodeId}

theorem linksUp_ancestors (ht : t.store.Sound) (id : NodeId) :
    t.store.LinksUp id (t.ancestors id) :=
  Store.linksUp_chain ht (Nat.le_add_right _ _)

theorem ancestors_eq (ht : t.store.Sound) (h : t.store.LinksUp id above) : t.ancestors id = above :=
  (linksUp_ancestors ht id).unique h

theorem isAttached_iff :
    t.isAttached id = true ↔ id < t.store.size ∧ Store.chainTop id (t.ancestors id) = t.root := by
  rw [isAttached, Bool.and_eq_true, Store.contains, decide_eq_true_iff, beq_iff_eq]
  rfl

/-- Links name listers, so what is attached is reached. -/
theorem mem_preorder_of_isAttached (ht : t.store.Sound) (h : t.isAttached id = true) :
    id ∈ t.store.preorder t.root := by
  have hreached := (linksUp_ancestors ht id).mem_preorder ht List.mem_cons_self
  rwa [(isAttached_iff.1 h).2] at hreached

end TreeEdit.Tree
