import TreeEdit.Tree.Basic

/-!
# Comparing trees by value

Two subtrees are equal if they have the same shape and the same attributes, whatever slots they
stand in. `Tree.feed` lists what a hash of a subtree takes in.
-/

namespace TreeEdit

/-- Whether all pairs of slots, one of each store, have equal trees below them. If both stores are
the same object, a pair of equal slots needs no look. -/
def Store.samePairs (shared : Bool) (s t : Store) : List (NodeId × NodeId) → Bool
  | [] => true
  | (a, b) :: rest =>
    if shared && a == b then s.samePairs shared t rest
    else
      match _hm : s.get? a, t.get? b with
      | some m, some n =>
        if _h : m.attributes = n.attributes ∧ m.children.length = n.children.length then
          s.samePairs shared t
            (((m.children.zip n.children).filter (·.1 < a)).reverse ++ rest)
        else false
      | _, _ => false
termination_by stack => s.load (stack.map Prod.fst)
decreasing_by
  · simp only [List.map_cons, Store.load_cons, Store.weight_eq s a]
    omega
  · have hu : (((m.children.zip n.children).filter (·.1 < a)).map Prod.fst) = s.under a := by
      have hc : s.children a = m.children := by simp [Store.children, _hm]
      have := List.filter_map (f := Prod.fst) (p := fun c : NodeId => decide (c < a))
        (l := m.children.zip n.children)
      rw [List.map_fst_zip (by omega)] at this
      rw [Store.under, hc, this]
      rfl
    simp only [List.map_append, List.map_reverse, hu, List.map_cons, Store.load_append,
      Store.load_reverse, Store.load_cons, Store.weight_eq s a]
    omega

namespace Tree

/-- Whether the subtrees at two slots have the same shape and attributes. `shared` tells that both
trees read one and the same store. -/
def structurallyEq (shared : Bool) (s : Tree) (a : NodeId) (t : Tree) (b : NodeId) : Bool :=
  s.store.samePairs shared t.store [(a, b)]

/-- What a hash of the subtree at a slot takes in: attributes and number of children of each node,
each node before its children. -/
def feed (t : Tree) (id : NodeId) : List (Attributes × Nat) :=
  (t.descendants id).filterMap fun d =>
    (t.get? d).map fun n => (n.attributes, n.children.length)

end Tree

end TreeEdit
