import TreeEdit.Overlay.View

/-!
# Conflicts between logs

Two logs conflict if both change the place of one stable name, or if one changes something at or
below a node of the view that the other takes out.
-/

namespace TreeEdit

/-- A place that two or more workers disagree about. -/
structure Conflict where
  node : StableId
  workers : List WorkerId
  reason : ConflictReason
  deriving DecidableEq, Repr

/-- The refusal for a conflict. -/
def Conflict.toError (c : Conflict) : Error :=
  .conflict c.node c.workers c.reason

namespace Sealed

/-- Note that a worker changed a place: places in order of first mention, each with its workers in
order of first mention. -/
def noteTarget (target : StableId) (worker : WorkerId) :
    List (StableId × List WorkerId) → List (StableId × List WorkerId)
  | [] => [(target, [worker])]
  | (t, workers) :: rest =>
    if t = target then
      (t, if worker ∈ workers then workers else workers ++ [worker]) :: rest
    else (t, workers) :: noteTarget target worker rest

/-- The places that some logs change, with the workers that change them. -/
def targets (logs : List Sealed) : List (StableId × List WorkerId) :=
  (logs.flatMap (·.records)).foldl (fun found r => noteTarget r.target r.worker found) []

/-- The places that more than one worker changes. -/
def sameTargets (logs : List Sealed) : List Conflict :=
  (targets logs).filterMap fun (node, workers) =>
    if workers.length > 1 then some ⟨node, workers, .sameTarget⟩ else none

/-- The nodes of the view that a log takes out. -/
def removals (log : Sealed) : List NodeId :=
  (log.records.filterMap (·.edit.detached?)).filter log.isBase

/-- The nodes of the view that some logs take out, each with the first worker that does. -/
def removers (logs : List Sealed) : IdMap :=
  logs.foldl
    (fun found log => log.removals.foldl (fun found id => found.insertIfNew id log.worker) found) ∅

/-- The nearest node at or above a slot of the view that another worker takes out, and that
worker. -/
def removedAround? (t : Tree) (removers : IdMap) (worker : WorkerId) (target : NodeId) :
    Option (NodeId × WorkerId) :=
  (target :: t.ancestors target).findSome? fun id =>
    match removers[id]? with
    | some remover => if remover ≠ worker then some (id, remover) else none
    | none => none

/-- The nodes of the view that a log changes. -/
def baseTargets (log : Sealed) : List NodeId :=
  (log.records.map (·.edit.target)).filter log.isBase

/-- A change inside a subtree that another worker takes out. -/
structure Loss where
  /-- The subtree that is taken out. -/
  node : NodeId
  remover : WorkerId
  /-- The worker whose change would be lost. -/
  worker : WorkerId
  deriving DecidableEq, Repr

/-- The changes of a log inside subtrees that other workers take out. -/
def losses (t : Tree) (removers : IdMap) (log : Sealed) : List Loss :=
  log.baseTargets.filterMap fun target =>
    (removedAround? t removers log.worker target).map fun (node, remover) =>
      ⟨node, remover, log.worker⟩

/-- Of the losses of one worker in one subtree, keep the first. -/
def firstLosses (losses : List Loss) : List Loss :=
  losses.foldl
    (fun kept loss =>
      if kept.any fun k => k.node == loss.node && k.worker == loss.worker then kept
      else kept ++ [loss])
    []

end Sealed

/-- Every conflict of some logs: first the places that several workers change, then the changes
inside subtrees that another worker takes out. -/
def View.conflicts (v : View) (logs : List Sealed) : List Conflict :=
  let removers := Sealed.removers logs
  let losses := Sealed.firstLosses (logs.flatMap (Sealed.losses v.tree removers))
  Sealed.sameTargets logs ++
    losses.filterMap fun loss =>
      (v.tree.stableId? loss.node).map fun node =>
        ⟨node, [loss.remover, loss.worker], .detachedSubtree⟩

end TreeEdit
