import TreeEdit.Tree.Basic

/-!
# Trees as plain values

`Store.unfold` forgets slots: it gives the tree of attributes below a slot as an inductive value.
-/

namespace TreeEdit

/-- A tree of attributes. A slot that does not exist unfolds to `absent`. -/
inductive Rose
  | absent
  | node (attributes : Attributes) (children : List Rose)

/-- The tree of attributes below a slot. -/
def Store.unfold (s : Store) (id : NodeId) : Rose :=
  match s.get? id with
  | none => .absent
  | some n => .node n.attributes ((s.under id).attach.map fun ⟨c, _⟩ => s.unfold c)
termination_by id
decreasing_by exact Store.lt_of_mem_under ‹_›

/-- The tree of attributes of a generation. -/
def Tree.rose (t : Tree) : Rose :=
  t.store.unfold t.root

end TreeEdit
