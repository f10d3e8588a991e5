import TreeEdit.Edit.Rebuild
import TreeEdit.Store.Table

/-!
# From nodes to their latest copies

Every rebuilding replaces nodes by copies. A `Forward` remembers which copy took the place of a
node, and which node a copy goes back to. A node with a copy belongs to an older generation.
-/

namespace TreeEdit

/-- The copies made since editing began. -/
structure Forward where
  /-- From a node to the copy that took its place. -/
  links : Table := {}
  /-- From a copy to the node that it goes back to. -/
  origins : Table := {}
  deriving DecidableEq, Repr

namespace Forward

/-- Nothing has been copied. -/
def empty : Forward := {}

/-- The node that a slot goes back to, the slot itself if it is no copy. -/
def origin (f : Forward) (id : NodeId) : NodeId :=
  (f.origins.get? id).getD id

/-- Whether a copy has taken the place of a slot. -/
def isSuperseded (f : Forward) (id : NodeId) : Bool :=
  f.links.contains id

/-- Note that a copy takes the place of a node. -/
def recordCopy (f : Forward) (copy : NodeId × NodeId) : Forward :=
  { links := f.links.insert copy.1 copy.2
    origins := f.origins.insert copy.2 (f.origin copy.1) }

/-- Note all copies of a rebuilding. -/
def record (f : Forward) (r : Rebuilt) : Forward :=
  r.copies.foldl recordCopy f

/-- Go from a slot to its copy, to the copy of that, and so on, for at most the given number of
steps. -/
def follow (f : Forward) : (steps : Nat) → NodeId → NodeId
  | 0, id => id
  | steps + 1, id =>
    match f.links.get? id with
    | some copy => f.follow steps copy
    | none => id

/-- The latest copy of a slot, the slot itself if it has none. A copy stands in a later slot than
its model, so a chain of copies has no more links than the table has places. -/
def resolve (f : Forward) (id : NodeId) : NodeId :=
  f.follow f.links.size id

end Forward

end TreeEdit
