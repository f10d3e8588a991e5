import TreeEdit.Tree.Basic

/-!
# The way from the root to a node

An edit rebuilds every node from its target up to the root. `Store.path` finds them by following
parent links, with a limit on their number; `Store.reaches` only asks whether the root is reached.
-/

namespace TreeEdit

/-- A chain of nodes from a target up to the root. -/
structure Path where
  target : NodeId
  /-- The nodes above the target, nearest first. -/
  above : List NodeId
  deriving DecidableEq, Repr

namespace Path

/-- The nodes of the path from the root down to the target. -/
def nodes (p : Path) : List NodeId :=
  (p.target :: p.above).reverse

/-- The upper end of the path. -/
def root (p : Path) : NodeId :=
  p.above.getLast?.getD p.target

/-- The node above the target. -/
def parent? (p : Path) : Option NodeId :=
  p.above.head?

/-- The number of nodes on the path. -/
def length (p : Path) : Nat :=
  p.above.length + 1

/-- Whether a node lies on the path. -/
def contains (p : Path) (id : NodeId) : Bool :=
  (p.target :: p.above).contains id

end Path

namespace Store

/-- The nodes above a slot, nearest first, at most `room` of them, and whether the last of them has
a parent still. -/
def climb (s : Store) : (room : Nat) → NodeId → List NodeId × Bool
  | 0, id => ([], (s.parent? id).isSome)
  | room + 1, id =>
    match s.parent? id with
    | none => ([], false)
    | some parent =>
      let (above, more) := s.climb room parent
      (parent :: above, more)

/-- The path from a root to a target. The target has to exist, the path must have no more than
`most` nodes (a root alone always passes), and the parent links must end at the root. -/
def path (s : Store) (most : Nat) (root target : NodeId) : Verdict Path := do
  let node ← s.node target
  let (above, more) := s.climb (most - 1) target
  let p : Path := { target, above }
  if more then
    throw (.limit .recursionDepth (p.length + 1) most (some node.stableId))
  if p.root ≠ root then
    throw (.treeState (.unreachable node.stableId (s.nameOf root) (s.nameOf p.root)))
  return p

/-- Whether the parent links from a slot lead to the root in at most the given number of steps
without passing through a slot that is about to leave. -/
def reaches (s : Store) (root : NodeId) (leaving : Option NodeId) : (steps : Nat) → NodeId → Bool
  | 0, _ => false
  | steps + 1, id =>
    if leaving = some id then false
    else
      match s.parent? id with
      | some parent => s.reaches root leaving steps parent
      | none => id == root

/-- Whether a slot is part of the tree below a root, not counting what is below a slot that is about
to leave. -/
def isAttached (s : Store) (root : NodeId) (leaving : Option NodeId) (id : NodeId) : Bool :=
  s.contains id && s.reaches root leaving s.size id

end Store

/-- The path from the root of a tree to a target. -/
def Tree.path (t : Tree) (most : Nat) (target : NodeId) : Verdict Path :=
  t.store.path most t.root target

end TreeEdit
