import TreeEdit.Proofs.Relink
import TreeEdit.Tree.Builder

/-!
# Sound stores

A store is sound if every slot holds a value, slots only list slots that were added before them, and
every parent link names a slot that lists the child. Adding checked values, opening a layer and
relinking keep a store sound, so the downward walks miss no child and the upward walks follow
genuine child relations.
-/

namespace TreeEdit

/-- A sequence of two computations succeeds if both do. -/
theorem Verdict.bind_eq_ok_iff {α β : Type} {x : Verdict α} {k : α → Verdict β} {b : β} :
    (x >>= k) = .ok b ↔ ∃ a, x = .ok a ∧ k a = .ok b := by
  cases x with
  | error e => simp [bind, Except.bind]
  | ok a => simp [bind, Except.bind]

theorem Verdict.exists_eq_ok {α : Type} {x : Verdict α} (h : x.isOk = true) : ∃ a, x = .ok a := by
  cases x with
  | error e => cases h
  | ok a => exact ⟨a, rfl⟩

theorem IdSet.mem_insert_iff {seen : IdSet} {id y : NodeId} :
    y ∈ seen.insert id ↔ y = id ∨ y ∈ seen := by
  rw [Std.ExtTreeSet.mem_insert, Std.LawfulEqCmp.compare_eq_iff_eq, eq_comm]

namespace Store

/-- No slot is empty, children come before their listers, and links name listers. -/
structure Sound (s : Store) : Prop where
  full : ∀ id, s.size > id → ∃ n, s.get? id = some n
  earlier : ∀ id n, s.get? id = some n → ∀ c ∈ n.children, c < id
  listed : ∀ c p, s.parent? c = some p → c ∈ s.under p

variable {s : Store} {id c p r : NodeId} {n : Node}

theorem lt_size_of_get? (h : s.get? id = some n) : id < s.size := by
  by_contra hle
  rw [get?_eq_none_of_size_le (Nat.not_lt.1 hle)] at h
  cases h

theorem children_of_get? (h : s.get? id = some n) : s.children id = n.children := by
  rw [children, h]

theorem under_of_size_le (h : s.size ≤ id) : s.under id = [] := by
  rw [under, children, get?_eq_none_of_size_le h]
  rfl

theorem lt_size_of_mem_under (h : c ∈ s.under p) : p < s.size := by
  by_contra hle
  rw [under_of_size_le (Nat.not_lt.1 hle)] at h
  cases h

theorem node_eq_ok_iff : s.node id = .ok n ↔ s.get? id = some n := by
  unfold node
  cases s.get? id <;> simp

/-- Slots with the same value in two stores list the same children. -/
theorem under_congr {t : Store} (h : t.get? id = s.get? id) : t.under id = s.under id := by
  rw [under, under, children, children, h]

namespace Sound

theorem under_eq (h : s.Sound) (hn : s.get? id = some n) : s.under id = n.children := by
  rw [under, children_of_get? hn, List.filter_eq_self]
  intro c hc
  simpa using h.earlier id n hn c hc

theorem under_eq_children (h : s.Sound) (id : NodeId) : s.under id = s.children id := by
  cases hn : s.get? id with
  | none => rw [under, children, hn]; rfl
  | some n => rw [h.under_eq hn, children_of_get? hn]

theorem parent?_eq_none (h : s.Sound) (hc : s.size ≤ c) : s.parent? c = none := by
  cases hp : s.parent? c with
  | none => rfl
  | some p =>
    have hlisted := h.listed c p hp
    have hlt : c < s.size := Nat.lt_trans (lt_of_mem_under hlisted) (lt_size_of_mem_under hlisted)
    exact absurd hc (Nat.not_le.2 hlt)

theorem lt_of_parent? (h : s.Sound) (hp : s.parent? c = some p) : c < p :=
  lt_of_mem_under (h.listed c p hp)

theorem parent_lt_size (h : s.Sound) (hp : s.parent? c = some p) : p < s.size :=
  lt_size_of_mem_under (h.listed c p hp)

end Sound

/-! ### Adding slots -/

theorem append_nil (s : Store) : s.append [] = s := by
  simp [append]

theorem append_append (s : Store) (earlier later : List Node) :
    (s.append earlier).append later = s.append (earlier ++ later) := by
  simp [append]

@[simp] theorem under_layer (s : Store) (id : NodeId) : s.layer.under id = s.under id :=
  under_congr (get?_layer s id)

@[simp] theorem preorder_layer (s : Store) (id : NodeId) : s.layer.preorder id = s.preorder id :=
  preorder_congr fun _ _ => under_layer s _

theorem under_append_of_lt (nodes : List Node) (h : id < s.size) :
    (s.append nodes).under id = s.under id :=
  under_congr (get?_append_of_lt nodes h)

/-- What is reached from a slot stays the same when slots are added. -/
theorem preorder_append_of_lt (nodes : List Node) (h : r < s.size) :
    (s.append nodes).preorder r = s.preorder r :=
  preorder_congr fun _ hx =>
    under_append_of_lt nodes (Nat.lt_of_le_of_lt (le_of_mem_preorder hx) h)

theorem get?_append_eq_some (nodes : List Node) (h : (s.append nodes).get? id = some n) :
    s.get? id = some n ∨ ∃ k, id = s.size + k ∧ nodes[k]? = some n := by
  rcases Nat.lt_or_ge id s.size with hlt | hge
  · exact Or.inl (by rwa [get?_append_of_lt nodes hlt] at h)
  · obtain ⟨k, rfl⟩ := Nat.exists_eq_add_of_le hge
    exact Or.inr ⟨k, rfl, by rwa [get?_append_size_add] at h⟩

namespace Sound

theorem empty : Store.empty.Sound where
  full id h := absurd h (by simp [Store.empty, size, Layer.stop])
  earlier id n h := by
    rw [get?_eq_none_of_size_le (by simp [Store.empty, size, Layer.stop])] at h
    cases h
  listed c p h := by
    simp [Store.empty, parent?, layers, readParent] at h

theorem layer (h : s.Sound) : s.layer.Sound where
  full id hid := by simpa using h.full id (by simpa using hid)
  earlier id n hn := h.earlier id n (by simpa using hn)
  listed c p hp := by
    rw [under_layer]
    exact h.listed c p (by simpa using hp)

/-- Adding values keeps a store sound if each of them lists slots before its own. -/
theorem append (h : s.Sound) {nodes : List Node}
    (hnodes : ∀ k n, nodes[k]? = some n → ∀ c ∈ n.children, c < s.size + k) :
    (s.append nodes).Sound where
  full id hid := by
    rcases Nat.lt_or_ge id s.size with hlt | hge
    · rw [get?_append_of_lt nodes hlt]
      exact h.full id hlt
    · obtain ⟨k, rfl⟩ := Nat.exists_eq_add_of_le hge
      have hk : k < nodes.length := by
        rw [size_append] at hid
        omega
      exact ⟨nodes[k], by rw [get?_append_size_add, List.getElem?_eq_getElem hk]⟩
  earlier id n hn := by
    rcases get?_append_eq_some nodes hn with hold | ⟨k, rfl, hk⟩
    · exact h.earlier id n hold
    · exact hnodes k n hk
  listed c p hp := by
    have hlisted := h.listed c p (by simpa using hp)
    rwa [under_append_of_lt nodes (lt_size_of_mem_under hlisted)]

/-- Other links keep a store sound if they name listers. -/
theorem withLinks (h : s.Sound) {links : IdMap}
    (hlinks : ∀ c p, (s.withLinks links).parent? c = some p → c ∈ s.under p) :
    (s.withLinks links).Sound where
  full := h.full
  earlier := h.earlier
  listed := hlinks

theorem relink (h : s.Sound) (root : NodeId) : (s.relink root).Sound :=
  h.withLinks fun c p hp => (parent?_relink_eq_some hp).elim (h.listed c p) id

end Sound

/-! ### Checked values -/

theorem firstRepeated?_eq_none_iff (seen : IdSet) (ids : List NodeId) :
    firstRepeated? seen ids = none ↔ ids.Nodup ∧ ∀ id ∈ ids, id ∉ seen := by
  induction ids generalizing seen with
  | nil => simp [firstRepeated?]
  | cons id ids ih =>
    rw [firstRepeated?]
    split
    · rename_i hseen
      simp only [reduceCtorEq, List.nodup_cons, List.mem_cons, false_iff, not_and]
      intro _ hfree
      exact hfree id (Or.inl rfl) (Std.ExtTreeSet.mem_iff_contains.2 hseen)
    · rename_i hseen
      rw [ih, List.nodup_cons]
      simp only [IdSet.mem_insert_iff, List.forall_mem_cons]
      constructor
      · rintro ⟨hnodup, hfree⟩
        refine ⟨⟨fun hmem => ?_, hnodup⟩, ?_, fun x hx hmem => hfree x hx (Or.inr hmem)⟩
        · exact hfree id hmem (Or.inl rfl)
        · rwa [Std.ExtTreeSet.mem_iff_contains]
      · rintro ⟨⟨hnotmem, hnodup⟩, -, hfree⟩
        refine ⟨hnodup, fun x hx => ?_⟩
        rintro (rfl | hmem)
        · exact hnotmem hx
        · exact hfree x hx hmem

/-- A value passes if it is valid, its children exist, and none is listed twice. -/
theorem check_eq_ok_iff (s : Store) (n : Node) :
    s.check n = .ok () ↔
      n.validate = .ok () ∧ (∀ c ∈ n.children, c < s.size) ∧ n.children.Nodup := by
  unfold check
  cases hv : n.validate with
  | error e => simp [bind, Except.bind]
  | ok u =>
    cases hm : n.children.find? (!s.contains ·) with
    | some missing =>
      have hmem := List.mem_of_find?_eq_some hm
      have hmissing := List.find?_some hm
      simp only [bind, Except.bind, throw, throwThe, MonadExceptOf.throw, reduceCtorEq, true_and,
        false_iff, not_and]
      intro hall
      exact absurd (hall missing hmem) (by simpa [contains] using hmissing)
    | none =>
      have hall : ∀ c ∈ n.children, c < s.size := by
        simpa [contains] using List.find?_eq_none.1 hm
      cases hr : firstRepeated? ∅ n.children with
      | some repeated =>
        have := firstRepeated?_eq_none_iff ∅ n.children
        simp_all [bind, Except.bind, throw, throwThe, MonadExceptOf.throw]
      | none =>
        have hnodup := ((firstRepeated?_eq_none_iff ∅ n.children).1 hr).1
        simpa [bind, Except.bind, pure, Except.pure, hnodup] using hall

theorem checkRoom_eq_ok_iff {count : Nat} :
    s.checkRoom count = .ok () ↔ count ≤ capacity - s.size := by
  unfold checkRoom
  split_ifs with h <;> simp [h]

/-- What an allocation does: nothing, or one new slot with a checked value. -/
theorem alloc_cases (s : Store) (n : Node) :
    (∃ e, s.alloc n = (s, .error e)) ∨
      s.alloc n = (s.append [n], .ok s.size) ∧ s.check n = .ok () ∧ s.checkRoom 1 = .ok () := by
  unfold alloc
  cases hc : s.check n with
  | error e => exact Or.inl ⟨e, rfl⟩
  | ok u =>
    unfold push
    cases hr : s.checkRoom 1 with
    | error e => exact Or.inl ⟨e, rfl⟩
    | ok u => exact Or.inr ⟨rfl, rfl, rfl⟩

theorem Sound.append_singleton (h : s.Sound) (hn : ∀ c ∈ n.children, c < s.size) :
    (s.append [n]).Sound := by
  refine h.append fun k m hk c hc => ?_
  cases k with
  | zero =>
    simp only [List.getElem?_cons_zero, Option.some.injEq] at hk
    subst hk
    simpa using hn c hc
  | succ k => simp at hk

theorem Sound.alloc (h : s.Sound) (n : Node) : (s.alloc n).1.Sound := by
  rcases alloc_cases s n with ⟨e, he⟩ | ⟨hok, hcheck, -⟩
  · rw [he]
    exact h
  · rw [hok]
    exact h.append_singleton ((check_eq_ok_iff s n).1 hcheck).2.1

end Store

/-- A sound store with a root. -/
structure Tree.Sound (t : Tree) : Prop where
  store : t.store.Sound
  root : t.root < t.store.size

end TreeEdit
