import TreeEdit.Edit.Basic

/-!
# Records

A `Record` is one line of a worker's log: an edit, and the stable name of its target. Its slots are
slots of the view or of nodes that the worker made, never of copies.
-/

namespace TreeEdit

/-- One recorded edit. -/
structure Record where
  sequence : Nat
  target : StableId
  edit : Edit
  worker : WorkerId
  deriving DecidableEq, Repr

/-- The text form of a record. -/
def Record.describe (r : Record) : String :=
  s!"{r.worker.describe}:{r.sequence} {r.edit.operation.describe} {r.target.describe}"

/-- A node that a worker made. -/
structure Created where
  /-- The slot that the worker knows the node by. -/
  id : NodeId
  node : Node
  /-- The number of edits recorded before the node was made. -/
  after : Nat
  deriving DecidableEq, Repr

end TreeEdit
