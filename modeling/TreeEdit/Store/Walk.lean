import TreeEdit.Store.Basic

/-!
# Walks down a store

A slot only ever lists slots that were added before it, so every walk from a slot to its children
ends. `Store.under` says this in a form that holds of any store whatever, `Store.weight` counts the
nodes of the tree below a slot, and `Store.preorder` lists them: each node, then what stands below
each of its children from left to right. `Store.walk` does the same with a stack.
-/

namespace TreeEdit.Store

/-- The children of a slot that come before it. In a store whose slots only list earlier ones these
are all of its children. -/
def under (s : Store) (id : NodeId) : List NodeId :=
  (s.children id).filter (· < id)

theorem lt_of_mem_under {s : Store} {id c : NodeId} (h : c ∈ s.under id) : c < id := by
  simpa using (List.mem_filter.mp h).2

@[simp] theorem under_withLinks (s : Store) (links : IdMap) (id : NodeId) :
    (s.withLinks links).under id = s.under id := rfl

/-- The number of nodes of the tree below a slot, a node counted as often as it is reached. -/
def weight (s : Store) (id : NodeId) : Nat :=
  1 + (s.under id).attach.foldr (fun c rest => s.weight c.1 + rest) 0
termination_by id
decreasing_by exact lt_of_mem_under c.2

/-- The number of nodes below any of the given slots. -/
def load (s : Store) (stack : List NodeId) : Nat :=
  stack.foldr (fun id rest => s.weight id + rest) 0

theorem weight_eq (s : Store) (id : NodeId) : s.weight id = 1 + s.load (s.under id) := by
  rw [weight, load, List.foldr_subtype (l := (s.under id).attach)
    (g := fun c rest => s.weight c + rest) (fun _ _ _ => rfl), List.unattach_attach]

@[simp] theorem load_nil (s : Store) : s.load [] = 0 := rfl

@[simp] theorem load_cons (s : Store) (id : NodeId) (rest : List NodeId) :
    s.load (id :: rest) = s.weight id + s.load rest := rfl

@[simp] theorem load_append (s : Store) (a b : List NodeId) :
    s.load (a ++ b) = s.load a + s.load b := by
  induction a with
  | nil => simp
  | cons id a ih => simp [ih, Nat.add_assoc]

@[simp] theorem load_reverse (s : Store) (a : List NodeId) : s.load a.reverse = s.load a := by
  induction a with
  | nil => rfl
  | cons id a ih => simp [ih, Nat.add_comm]

/-- The nodes below a slot: the slot itself, then the nodes below each child in order. -/
def preorder (s : Store) (id : NodeId) : List NodeId :=
  id :: (s.under id).attach.flatMap fun ⟨c, _⟩ => s.preorder c
termination_by id
decreasing_by exact lt_of_mem_under ‹_›

/-- The nodes below the slots of a stack: take the slot on top, then go on with its children on
top of the rest, the first child uppermost. -/
def walk (s : Store) : List NodeId → List NodeId
  | [] => []
  | id :: rest => id :: s.walk (s.under id ++ rest)
termination_by stack => s.load stack
decreasing_by simp [weight_eq s id]

end TreeEdit.Store
