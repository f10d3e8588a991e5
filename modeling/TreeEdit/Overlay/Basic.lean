import TreeEdit.Edit.Call
import TreeEdit.Guard.Shared
import TreeEdit.Overlay.Record
import TreeEdit.Tree.Print

/-!
# Overlays

An `Overlay` lets one worker edit the tree of a view without changing it. Edits are carried out at
once on a store of the worker's own, the shadow, and written to a log. The worker may name a node by
any slot it ever had: the overlay goes on to the latest copy, and the log goes back to the node that
the copy came from.

A call goes through the worker's own guard, the plan, the block, and the guard that all overlays of
the view share, in this order; only then is the shadow rebuilt.
-/

namespace TreeEdit

/-- The edits of one worker. -/
structure Overlay where
  /-- The view that issued the overlay. -/
  viewId : Nat
  worker : WorkerId
  /-- The only part of the tree that the worker may change, if it is restricted. -/
  block : Option NodeId := none
  /-- The root of the view. -/
  viewRoot : NodeId
  /-- The layer of the worker on the store of the view. -/
  shadow : Store
  root : NodeId
  forward : Forward := {}
  created : List Created := []
  /-- The recorded edits, newest first. -/
  history : List Record := []
  guard : Guard

/-- A finished log. -/
structure Sealed where
  viewId : Nat
  worker : WorkerId
  block : Option NodeId
  /-- The number of slots of the view. -/
  baseSize : Nat
  created : List Created
  records : List Record
  statistics : Statistics

/-- Whether a slot is a slot of the view. -/
def Sealed.isBase (s : Sealed) (id : NodeId) : Bool :=
  id < s.baseSize

namespace Overlay

/-- The recorded edits, oldest first. -/
def records (o : Overlay) : List Record :=
  o.history.reverse

/-- The number of recorded edits. -/
def recordCount (o : Overlay) : Nat :=
  o.history.length

/-- The value of a node, as the worker has changed it. -/
def node (o : Overlay) (id : NodeId) : Verdict Node :=
  o.shadow.node (o.forward.resolve id)

/-- The current generation of the shadow. -/
def tree (o : Overlay) : Tree :=
  { store := o.shadow, root := o.root }

/-- The children of a node, as the worker has changed them. -/
def children (o : Overlay) (id : NodeId) : List NodeId :=
  o.shadow.children (o.forward.resolve id)

/-- The slots of the tree in brackets, from the root of the view. -/
def outline (o : Overlay) : String :=
  outlineTo o.children (o.shadow.size + 1) "" o.viewRoot

/-- Make a node that is not part of the tree yet. The shadow gets the latest copies of the children,
the log the nodes they go back to. -/
def create (o : Overlay) (n : Node) : Overlay × Verdict NodeId :=
  match o.shadow.alloc (n.mapChildren o.forward.resolve) with
  | (shadow, .error e) => ({ o with shadow }, .error e)
  | (shadow, .ok id) =>
    let entry : Created := ⟨id, n.mapChildren o.forward.origin, o.recordCount⟩
    ({ o with shadow, created := o.created ++ [entry] }, .ok id)

/-- Whether a path stays inside the block of the worker. -/
def checkBlock (o : Overlay) (target : StableId) (p : Path) : Verdict Unit :=
  match o.block with
  | none => .ok ()
  | some block =>
    if p.contains (o.forward.resolve block) then .ok ()
    else .error (.node (.outsideBlock target o.worker))

/-- The plan of an edit whose slots are of the current generation: the path to its target, which has
to stay inside the block, and the new value of the target. -/
def plan (o : Overlay) (target : StableId) (e : Edit) : Verdict (Path × Node) := do
  let (path, value) ← o.shadow.plan o.forward o.guard.limits.maxDepth o.root e
  o.checkBlock target path
  return (path, value)

/-- The overlay after a rebuilding of its shadow for an edit. -/
def commit (o : Overlay) (target : StableId) (e : Edit) (shadow : Store) (rebuilt : Rebuilt) :
    Overlay :=
  let forward := o.forward.record rebuilt
  let entry : Record := ⟨o.recordCount, target, e.mapIds forward.origin, o.worker⟩
  { o with
    shadow, forward
    root := rebuilt.root
    guard := o.guard.commit
    history := entry :: o.history }

@[simp] theorem length_records (o : Overlay) : o.records.length = o.recordCount := by
  simp [records, recordCount]

/-- A rebuilding puts one record at the end of the log. -/
theorem records_commit (o : Overlay) (target : StableId) (e : Edit) (shadow : Store)
    (rebuilt : Rebuilt) :
    (o.commit target e shadow rebuilt).records =
      o.records ++
        [⟨o.recordCount, target, e.mapIds (o.forward.record rebuilt).origin, o.worker⟩] := by
  simp [commit, records]

/-- Rebuild the shadow for an edit that the guards have let pass. -/
def carryOut (o : Overlay) (target : StableId) (e : Edit) (path : Path) (value : Node) :
    Overlay × Verdict Unit :=
  match o.shadow.rebuild path value with
  | (shadow, .error err) => ({ o with shadow }, .error err)
  | (shadow, .ok rebuilt) => (o.commit target e shadow rebuilt, .ok ())

/-- Take a planned edit through the guard that all overlays share, and rebuild the shadow. -/
def settle (o : Overlay) (g : SharedGuard) (target : StableId) (e : Edit) (path : Path)
    (value : Node) : Overlay × SharedGuard × Verdict Unit :=
  match g.admitDepth path.length (some target) with
  | .error err => (o, g, .error err)
  | .ok admitted =>
    match admitted.reserve (some target) with
    | .error err => (o, admitted, .error err)
    | .ok reserved =>
      let (next, answer) := o.carryOut target e path value
      (next, reserved, answer)

/-- Leave the level that an edit has entered. -/
def leave (o : Overlay) : Overlay :=
  { o with guard := o.guard.leave }

/-- Carry out an edit on the shadow and write it to the log. -/
def record (o : Overlay) (g : SharedGuard) (e : Edit) : Overlay × SharedGuard × Verdict Unit :=
  let current := e.mapIds o.forward.resolve
  match o.shadow.node current.target with
  | .error err => (o, g, .error err)
  | .ok node =>
    let target := node.stableId
    match o.guard.enter (some target) with
    | .error err => (o, g, .error err)
    | .ok guard =>
      let inside := { o with guard }
      match guard.checkBudget (some target) with
      | .error err => (inside.leave, g, .error err)
      | .ok () =>
        match inside.plan target current with
        | .error err => (inside.leave, g, .error err)
        | .ok (path, value) =>
          let (next, g, answer) := inside.settle g target e path value
          (next.leave, g, answer)

/-- Put a child next to a sibling. -/
def insert (o : Overlay) (g : SharedGuard) (side : Side) (parent new sibling : NodeId) :
    Overlay × SharedGuard × Verdict Unit :=
  let current := o.forward.resolve
  match o.shadow.siblingIndex (current parent) (current sibling) side.offset with
  | .error err => (o, g, .error err)
  | .ok index => o.record g (.insert parent index new)

/-- Finish the log. -/
def toSealed (o : Overlay) : Sealed :=
  { viewId := o.viewId, worker := o.worker, block := o.block, baseSize := o.shadow.baseSize
    created := o.created, records := o.records, statistics := o.guard.statistics }

end Overlay

/-- A request to an overlay: one that any editor takes, or an insertion at a numbered place. -/
inductive OverlayCall
  | shared (call : Call)
  | insertAt (parent : NodeId) (index : Nat) (new : NodeId)
  deriving DecidableEq, Repr

namespace Overlay

/-- The answer of a request that makes no node. -/
def unitAnswer (answer : Overlay × SharedGuard × Verdict Unit) :
    Overlay × SharedGuard × Verdict (Option NodeId) :=
  (answer.1, answer.2.1, answer.2.2.map fun _ => none)

/-- Carry out a request. The answer is the slot of a new node, nothing for an edit. -/
def perform (o : Overlay) (g : SharedGuard) :
    OverlayCall → Overlay × SharedGuard × Verdict (Option NodeId)
  | .shared (.create n) =>
    let (next, answer) := o.create n
    (next, g, answer.map some)
  | .shared (.replace parent old new) => unitAnswer (o.record g (.replace parent old new))
  | .shared (.insert side parent new sibling) =>
    unitAnswer (o.insert g side parent new sibling)
  | .shared (.remove parent child) => unitAnswer (o.record g (.remove parent child))
  | .shared (.setWhitespace node whitespace) =>
    unitAnswer (o.record g (.setWhitespace node whitespace))
  | .shared (.setComments node leading trailing) =>
    unitAnswer (o.record g (.setComments node leading trailing))
  | .insertAt parent index new => unitAnswer (o.record g (.insert parent index new))

end Overlay

end TreeEdit
