import TreeEdit.Edit.Path
import TreeEdit.Store.Link

/-!
# Path copying

`Store.rebuild` gives the target of a path a new value and copies every node above it. Each copy
differs from its model in one child slot, which holds the copy of the next node of the path. All
else is shared with the generation before.
-/

namespace TreeEdit

/-- What a rebuilding added: the new root, and the old and the new slot of every node of the path,
the target first. -/
structure Rebuilt where
  root : NodeId
  copies : List (NodeId × NodeId)
  deriving DecidableEq, Repr

/-- The copy of a slot. -/
def Rebuilt.copyOf? (r : Rebuilt) (old : NodeId) : Option NodeId :=
  r.copies.lookup old

namespace Store

/-- The values of the copies above a node that moves from slot `child` to slot `copy`. The copies
take the slots after `copy` in order. -/
def ancestorCopies (s : Store) (child copy : NodeId) : List NodeId → Verdict (List Node)
  | [] => .ok []
  | id :: above => do
    let node ← s.node id
    match node.position? child with
    | none => throw (.treeState (.brokenLink id child))
    | some index =>
      let copies ← s.ancestorCopies id (copy + 1) above
      return node.setChild index copy :: copies

/-- The values that a rebuilding adds: the new value of the target, and a copy of every node above
it. All checks are made here. -/
def planCopies (s : Store) (p : Path) (replacement : Node) : Verdict (List Node) := do
  s.check replacement
  s.checkRoom p.length
  let copies ← s.ancestorCopies p.target s.size p.above
  return replacement :: copies

/-- Add values one after the other, each with the slot it is the copy of. The answer is the old and
the new slot of every copy; the values that went in before a refusal stay. -/
def pushCopies (s : Store) : List (Node × NodeId) → Store × Verdict (List (NodeId × NodeId))
  | [] => (s, .ok [])
  | (n, old) :: rest =>
    match s.push n with
    | (s, .error e) => (s, .error e)
    | (s, .ok new) => (s.pushCopies rest).map id (·.map ((old, new) :: ·))

/-- Give the target of a path a new value: add it and a copy of every node above it, and point the
parent links at the new nodes. -/
def rebuild (s : Store) (p : Path) (replacement : Node) : Store × Verdict Rebuilt :=
  match s.planCopies p replacement with
  | .error e => (s, .error e)
  | .ok values =>
    match s.pushCopies (values.zip (p.target :: p.above)) with
    | (s, .error e) => (s, .error e)
    | (s, .ok copies) =>
      let root := (copies.getLast?.map Prod.snd).getD p.target
      (s.relink root, .ok { root, copies })

end Store

end TreeEdit
