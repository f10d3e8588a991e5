import TreeEdit.Edit.Basic
import TreeEdit.Edit.Forward
import TreeEdit.Tree.Builder

/-!
# Carrying out an edit

`Store.plan` finds the path to the target of an edit and the new value of the target, or the reason
why the edit is refused. It changes nothing. `Store.applyEdit` goes on to rebuild the path.
-/

namespace TreeEdit.Store

/-- The refusal for a node that is not in a child list. -/
def notAChild (s : Store) (parent : Node) (child : NodeId) : Error :=
  match s.get? child with
  | some n => .notAChild parent.stableId n.stableId parent.children.length
  | none => .treeState (.unknownChild child)

/-- The place of a child in a child list, or a refusal. -/
def position (s : Store) (parent : Node) (child : NodeId) : Verdict Nat :=
  match parent.position? child with
  | some index => .ok index
  | none => .error (s.notAChild parent child)

/-- The place in front of a sibling, or the given number of places after that. -/
def siblingIndex (s : Store) (parent sibling : NodeId) (offset : Nat) : Verdict Nat := do
  let node ← s.node parent
  let index ← s.position node sibling
  return index + offset

/-- Whether all that stands below the slots of a stack may enter the tree below a root: every slot
exists, none is reached twice, none has been copied since, and none is part of the tree. What stands
below a child that is about to leave does not count as part of the tree. -/
def detachedWalk (s : Store) (f : Forward) (root : NodeId) (leaving : Option NodeId)
    (seen : IdSet) : List NodeId → Verdict Unit
  | [] => .ok ()
  | id :: rest =>
    match s.get? id with
    | none => .error (.treeState (.unknownNode id s.size))
    | some n =>
      if seen.contains id then .error (.node (.reachedTwice n.stableId id))
      else if f.isSuperseded id then
        .error (.treeState (.superseded n.stableId id (f.resolve id)))
      else if s.isAttached root leaving id then .error (.node (.alreadyAttached n.stableId id))
      else s.detachedWalk f root leaving (seen.insert id) ((s.under id).reverse ++ rest)
termination_by stack => s.load stack
decreasing_by simp [weight_eq s id]

/-- Whether the subtree at a slot may enter the tree below a root. -/
def checkDetached (s : Store) (f : Forward) (root : NodeId) (leaving : Option NodeId)
    (id : NodeId) : Verdict Unit :=
  s.detachedWalk f root leaving ∅ [id]

/-- The new value of the target of an edit, given its value so far. -/
def replacement (s : Store) (f : Forward) (root : NodeId) (current : Node) : Edit → Verdict Node
  | .replace _ old new => do
    let index ← s.position current old
    if new ≠ old then s.checkDetached f root (some old) new
    return current.setChild index new
  | .insert _ index new => do
    if index > current.children.length then
      throw (.node (.indexOutOfBounds index current.stableId current.children.length))
    s.checkDetached f root none new
    return current.insertChild index new
  | .remove _ child => do
    let index ← s.position current child
    return current.eraseChild index
  | .setWhitespace _ whitespace => .ok (current.withWhitespace whitespace)
  | .setComments _ leading trailing => .ok (current.withComments leading trailing)

/-- The path to the target of an edit and the new value of the target, unless the edit is refused.
Paths may have at most `most` nodes. -/
def plan (s : Store) (f : Forward) (most : Nat) (root : NodeId) (e : Edit) :
    Verdict (Path × Node) := do
  let path ← s.path most root e.target
  let current ← s.node e.target
  let value ← s.replacement f root current e
  value.validate
  return (path, value)

/-- Plan an edit and rebuild the path to its target. -/
def applyEdit (s : Store) (f : Forward) (most : Nat) (root : NodeId) (e : Edit) :
    Store × Verdict Rebuilt :=
  match s.plan f most root e with
  | .error err => (s, .error err)
  | .ok (path, value) => s.rebuild path value

end TreeEdit.Store
