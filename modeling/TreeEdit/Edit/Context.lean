import TreeEdit.Edit.Call
import TreeEdit.Guard.Basic

/-!
# Editing one tree in sequence

A `Context` holds the current generation of a tree and carries out one edit after the other. An edit
that succeeds swaps in the new root; an edit that is refused changes nothing, except that the
greatest depth of the guard may rise.
-/

namespace TreeEdit

/-- A tree under edit. -/
structure Context where
  store : Store
  root : NodeId
  guard : Guard
  forward : Forward := {}
  /-- How often the store has been opened for writing. Snapshots taken at one revision are one and
  the same store. -/
  revision : Nat := 0

namespace Context

/-- Start to edit a tree. New nodes go to a layer of their own. -/
def ofTree (t : Tree) (limits : Limits := .single) : Context :=
  { store := t.store.layer, root := t.root, guard := { limits } }

/-- The current generation. -/
def tree (c : Context) : Tree :=
  { store := c.store, root := c.root }

/-- The value of a slot. -/
def node (c : Context) (id : NodeId) : Verdict Node :=
  c.store.node id

/-- Make a node that is not part of the tree yet. Its children must be of the current generation. -/
def create (c : Context) (n : Node) : Context × Verdict NodeId :=
  match n.children.find? c.forward.isSuperseded with
  | some stale =>
    (c, .error (.treeState (.staleChild n.stableId stale (c.forward.resolve stale))))
  | none =>
    let (store, answer) := c.store.alloc n
    ({ c with store, revision := c.revision + 1 }, answer)

/-- Carry out an edit: the target has to exist, a level and budget have to be left, and the plan
must not be refused. -/
def apply (c : Context) (e : Edit) : Context × Verdict Unit :=
  match c.store.node e.target with
  | .error err => (c, .error err)
  | .ok target =>
    match c.guard.enter (some target.stableId) with
    | .error err => (c, .error err)
    | .ok guard =>
      match guard.checkBudget (some target.stableId) with
      | .error err => ({ c with guard := guard.leave }, .error err)
      | .ok () =>
        match c.store.applyEdit c.forward guard.limits.maxDepth c.root e with
        | (store, .error err) =>
          ({ c with store, guard := guard.leave, revision := c.revision + 1 }, .error err)
        | (store, .ok rebuilt) =>
          ({ store
             root := rebuilt.root
             guard := guard.commit.leave
             forward := c.forward.record rebuilt
             revision := c.revision + 1 }, .ok ())

/-- Put a child next to a sibling. -/
def insert (c : Context) (side : Side) (parent new sibling : NodeId) : Context × Verdict Unit :=
  match c.store.siblingIndex parent sibling side.offset with
  | .error err => (c, .error err)
  | .ok index => c.apply (.insert parent index new)

/-- Carry out a request. The answer is the slot of a new node, nothing for an edit. -/
def perform (c : Context) : Call → Context × Verdict (Option NodeId)
  | .create n => (c.create n).map id (·.map some)
  | .replace parent old new => (c.apply (.replace parent old new)).map id (·.map fun _ => none)
  | .insert side parent new sibling =>
    (c.insert side parent new sibling).map id (·.map fun _ => none)
  | .remove parent child => (c.apply (.remove parent child)).map id (·.map fun _ => none)
  | .setWhitespace node whitespace =>
    (c.apply (.setWhitespace node whitespace)).map id (·.map fun _ => none)
  | .setComments node leading trailing =>
    (c.apply (.setComments node leading trailing)).map id (·.map fun _ => none)

/-- Carry out requests in order, whatever their answers. -/
def run (c : Context) (calls : List Call) : Context :=
  calls.foldl (fun c call => (c.perform call).1) c

end Context

end TreeEdit
