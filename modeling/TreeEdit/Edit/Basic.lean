import TreeEdit.Node.Basic

/-!
# Edits

An `Edit` names the node whose value changes, its target, and what changes. Edits of the child list
target the parent; edits of white space and comments target the node itself.
-/

namespace TreeEdit

/-- The forms of an edit. -/
inductive Operation
  | replace
  | insert
  | remove
  | setWhitespace
  | setComments
  deriving DecidableEq, Repr

/-- The wording of a form of edit. -/
def Operation.describe : Operation → String
  | replace => "replace"
  | insert => "insert"
  | remove => "remove"
  | setWhitespace => "set-whitespace"
  | setComments => "set-comments"

/-- One edit. -/
inductive Edit
  /-- Put a child in the place of another one. The new child may contain the old one. -/
  | replace (parent old new : NodeId)
  /-- Put a child in front of the place `index`, or last. -/
  | insert (parent : NodeId) (index : Nat) (new : NodeId)
  /-- Take a child out. -/
  | remove (parent child : NodeId)
  /-- Set the white space around a node. -/
  | setWhitespace (node : NodeId) (whitespace : Whitespace)
  /-- Set the comments before and after a node. -/
  | setComments (node : NodeId) (leading trailing : List Comment)
  deriving DecidableEq, Repr

namespace Edit

/-- The form of an edit. -/
def operation : Edit → Operation
  | replace .. => .replace
  | insert .. => .insert
  | remove .. => .remove
  | setWhitespace .. => .setWhitespace
  | setComments .. => .setComments

/-- The node whose value changes. -/
def target : Edit → NodeId
  | replace parent .. => parent
  | insert parent .. => parent
  | remove parent .. => parent
  | setWhitespace node .. => node
  | setComments node .. => node

/-- The child named by an edit that takes its place or takes it out. -/
def oldChild? : Edit → Option NodeId
  | replace _ old _ => some old
  | remove _ child => some child
  | _ => none

/-- The child that leaves the tree. -/
def detached? : Edit → Option NodeId
  | replace _ old new => if old = new then none else some old
  | remove _ child => some child
  | _ => none

/-- The child that enters the tree. -/
def attached? : Edit → Option NodeId
  | replace _ _ new => some new
  | insert _ _ new => some new
  | _ => none

/-- The place at which a child enters. -/
def index? : Edit → Option Nat
  | insert _ index _ => some index
  | _ => none

/-- The edit with every slot renamed. -/
def mapIds (f : NodeId → NodeId) : Edit → Edit
  | replace parent old new => replace (f parent) (f old) (f new)
  | insert parent index new => insert (f parent) index (f new)
  | remove parent child => remove (f parent) (f child)
  | setWhitespace node whitespace => setWhitespace (f node) whitespace
  | setComments node leading trailing => setComments (f node) leading trailing

@[simp] theorem target_mapIds (f : NodeId → NodeId) (e : Edit) :
    (e.mapIds f).target = f e.target := by
  cases e <;> rfl

@[simp] theorem operation_mapIds (f : NodeId → NodeId) (e : Edit) :
    (e.mapIds f).operation = e.operation := by
  cases e <;> rfl

end Edit

end TreeEdit
