import TreeEdit.Store.Walk

/-!
# Trees

A `Tree` is one generation: a store and the slot of its root. The store may hold more than the
generation needs, such as nodes of earlier generations and nodes that have been taken out.
-/

namespace TreeEdit

/-- The parent of a slot, the parent of that, and so on, for at most the given number of steps. -/
def Store.chain (s : Store) : Nat → NodeId → List NodeId
  | 0, _ => []
  | steps + 1, id =>
    match s.parent? id with
    | some parent => parent :: s.chain steps parent
    | none => []

/-- One generation of a syntax tree. -/
structure Tree where
  store : Store
  root : NodeId

namespace Tree

/-- The value of a slot. -/
def get? (t : Tree) (id : NodeId) : Option Node :=
  t.store.get? id

/-- The value of a slot, or a refusal. -/
def node (t : Tree) (id : NodeId) : Verdict Node :=
  t.store.node id

/-- The construct in a slot. -/
def kind? (t : Tree) (id : NodeId) : Option Kind :=
  (t.get? id).map (·.attributes.kind)

/-- The source range of a slot. -/
def range? (t : Tree) (id : NodeId) : Option Range :=
  (t.get? id).map (·.attributes.range)

/-- The stable name of a slot. -/
def stableId? (t : Tree) (id : NodeId) : Option StableId :=
  (t.get? id).map (·.stableId)

/-- The children of a slot. -/
def children (t : Tree) (id : NodeId) : List NodeId :=
  t.store.children id

/-- The parent link of a slot. -/
def parent? (t : Tree) (id : NodeId) : Option NodeId :=
  t.store.parent? id

/-- The chain of parent links from a slot, nearest first. There are no more links to follow than
there are slots. -/
def ancestors (t : Tree) (id : NodeId) : List NodeId :=
  t.store.chain t.store.size id

/-- Whether a slot exists and its parent links end at the root. -/
def isAttached (t : Tree) (id : NodeId) : Bool :=
  t.store.contains id && (t.ancestors id).getLast?.getD id == t.root

/-- The number of links from an attached slot up to the root. -/
def depth? (t : Tree) (id : NodeId) : Option Nat :=
  if t.isAttached id then some (t.ancestors id).length else none

/-- The nodes of the subtree at a slot, each before its children. -/
def descendants (t : Tree) (id : NodeId) : List NodeId :=
  if t.store.contains id then t.store.walk [id] else []

/-- The number of nodes reached from the root. -/
def nodeCount (t : Tree) : Nat :=
  (t.descendants t.root).length

end Tree

end TreeEdit
