import TreeEdit.Overlay.Conflict

/-!
# Merging logs

`View.merge` replays the logs of several workers on the tree of their view, worker by worker in the
order of their numbers. Nodes that a worker made are brought over at the point of the log where they
were made. A batch is merged as a whole or not at all.
-/

namespace TreeEdit

/-- What becomes of an overlay. -/
inductive OverlayState
  | recording
  | sealed
  | applied
  | rejected
  deriving DecidableEq, Repr

/-- The word for a state. -/
def OverlayState.name : OverlayState → String
  | recording => "recording"
  | sealed => "sealed"
  | applied => "applied"
  | rejected => "rejected"

/-- A replay in progress. -/
structure Replay where
  store : Store
  root : NodeId
  forward : Forward := {}
  /-- From the slots that the worker at hand knows its nodes by to the slots they came to. -/
  imported : IdMap := ∅
  /-- The number of copies made. -/
  rebuilt : Nat := 0

namespace Replay

/-- The tree that has been replayed so far. -/
def tree (r : Replay) : Tree :=
  { store := r.store, root := r.root }

/-- The current slot of a node that a log names. -/
def locate (r : Replay) (id : NodeId) : NodeId :=
  r.forward.resolve (r.imported[id]?.getD id)

/-- Bring over a node that the worker made. -/
def importNode (r : Replay) (c : Created) : Verdict Replay :=
  match r.store.push (c.node.mapChildren r.locate) with
  | (_, .error e) => .error e
  | (store, .ok id) => .ok { r with store, imported := r.imported.insert c.id id }

/-- Replay one record, with paths of at most `most` nodes. -/
def applyRecord (r : Replay) (most : Nat) (record : Record) : Verdict Replay :=
  match r.store.applyEdit r.forward most r.root (record.edit.mapIds r.locate) with
  | (_, .error e) => .error e
  | (store, .ok rebuilt) =>
    .ok { r with
      store
      root := rebuilt.root
      forward := r.forward.record rebuilt
      rebuilt := r.rebuilt + rebuilt.copies.length }

/-- Replay records from the given number on, each after the nodes that were made before it. -/
def applyRecords (r : Replay) (most : Nat) (index : Nat) (pending : List Created) :
    List Record → Verdict Replay
  | [] => pending.foldlM importNode r
  | record :: records => do
    let due := pending.takeWhile (·.after ≤ index)
    let later := pending.dropWhile (·.after ≤ index)
    let r ← due.foldlM importNode r
    let r ← r.applyRecord most record
    r.applyRecords most (index + 1) later records

/-- Replay the log of one worker. -/
def applyLog (most : Nat) (r : Replay) (log : Sealed) : Verdict Replay :=
  { r with imported := ∅ }.applyRecords most 0 log.created log.records

end Replay

/-- The size of a merge. -/
structure MergeStatistics where
  overlays : Nat
  records : Nat
  importedNodes : Nat
  rebuiltNodes : Nat
  workers : List WorkerId
  deriving DecidableEq, Repr

/-- A merged tree. -/
structure MergeOutcome where
  tree : Tree
  statistics : MergeStatistics
  states : List (WorkerId × OverlayState)

/-- A batch that was not merged. -/
structure MergeRejection where
  error : Error
  states : List (WorkerId × OverlayState)

/-- The text of a rejection. -/
def MergeRejection.message (r : MergeRejection) : String :=
  s!"{r.states.length} overlays rejected: {r.error.message}"

namespace View

/-- Logs in the order of their workers. -/
def inWorkerOrder (logs : List Sealed) : List Sealed :=
  logs.mergeSort fun a b => a.worker ≤ b.worker

/-- The start of a replay on the tree of a view. -/
def replayStart (v : View) : Replay :=
  { store := v.tree.store.layer, root := v.tree.root }

/-- Replay logs on the tree of a view. -/
def replay (v : View) (logs : List Sealed) : Verdict Replay :=
  (inWorkerOrder logs).foldlM (Replay.applyLog v.shared.limits.maxDepth) v.replayStart

/-- Merge logs: refuse a log of another view, then the first conflict, then replay. -/
def merge (v : View) (logs : List Sealed) : Verdict MergeOutcome :=
  match logs.find? (·.viewId ≠ v.id) with
  | some log => .error (.treeState (.foreignOverlay log.worker log.viewId v.id))
  | none =>
    match v.conflicts logs with
    | conflict :: _ => .error conflict.toError
    | [] => do
      let r ← v.replay logs
      let workers := (inWorkerOrder logs).map (·.worker)
      return {
        tree := r.tree
        statistics := {
          overlays := logs.length
          records := (logs.flatMap (·.records)).length
          importedNodes := (logs.flatMap (·.created)).length
          rebuiltNodes := r.rebuilt
          workers }
        states := workers.map (·, .applied) }

/-- Merge logs, and say for a batch that is refused which workers it belonged to. -/
def tryMerge (v : View) (logs : List Sealed) : Except MergeRejection MergeOutcome :=
  match v.merge logs with
  | .ok outcome => .ok outcome
  | .error error =>
    .error { error, states := ((logs.map (·.worker)).mergeSort (· ≤ ·)).map (·, .rejected) }

end View

end TreeEdit
