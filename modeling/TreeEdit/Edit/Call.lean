import TreeEdit.Edit.Plan

/-!
# What an editor can be asked

A `Call` is a request to an editor: make a node, or change the tree. A place for a new child is
named by a sibling.
-/

namespace TreeEdit

/-- A place next to a sibling. -/
inductive Side
  | before
  | after
  deriving DecidableEq, Repr

/-- The distance from the place of a sibling. -/
def Side.offset : Side → Nat
  | before => 0
  | after => 1

/-- A request to an editor. -/
inductive Call
  /-- Make a node that is not part of the tree yet. -/
  | create (node : Node)
  /-- Put a child in the place of another one. -/
  | replace (parent old new : NodeId)
  /-- Put a child next to a sibling. -/
  | insert (side : Side) (parent new sibling : NodeId)
  /-- Take a child out. -/
  | remove (parent child : NodeId)
  /-- Set the white space around a node. -/
  | setWhitespace (node : NodeId) (whitespace : Whitespace)
  /-- Set the comments before and after a node. -/
  | setComments (node : NodeId) (leading trailing : List Comment)
  deriving DecidableEq, Repr

end TreeEdit
