import TreeEdit.Config.Basic
import TreeEdit.Edit.Context
import TreeEdit.Guard.Shared
import TreeEdit.Overlay.Basic

/-!
# Views

A `View` offers one tree to several workers. It issues an overlay to each of them, numbers them, and
keeps the count of what they record together.
-/

namespace TreeEdit

/-- An estimate of the memory of a node, in bytes. -/
def bytesPerNode : Nat := 200

/-- A tree that several workers edit at a time. -/
structure View where
  /-- Tells views apart. -/
  id : Nat
  tree : Tree
  /-- The number of nodes of the tree. -/
  nodeCount : Nat
  overlayLimits : Limits
  blockLimits : BlockLimits
  shared : SharedGuard
  /-- The number of the next worker. -/
  nextWorker : WorkerId := 0

namespace View

/-- Offer a tree under the limits of a configuration. -/
def ofTree (id : Nat) (t : Tree) (c : Config) : View :=
  { id, tree := t, nodeCount := t.nodeCount, overlayLimits := c.limits, blockLimits := c.block
    shared := { limits := c.batch } }

/-- Edit the tree in sequence, under the limits of one overlay. -/
def context (v : View) : Context :=
  .ofTree v.tree v.overlayLimits

/-- The estimated memory of the tree. -/
def estimatedBytes (v : View) : Nat :=
  v.nodeCount * bytesPerNode

/-- The number of nodes of the subtree at a slot. -/
def subtreeSize (v : View) (id : NodeId) : Nat :=
  (v.tree.descendants id).length

/-- The nearest node above a slot that is of the given construct. -/
def nearestAncestor? (v : View) (id : NodeId) (kind : Kind) : Option NodeId :=
  (v.tree.ancestors id).find? fun a => v.tree.kind? a == some kind

/-- Whether a slot may be handed to a worker as a block: it is part of the tree, and the subtree is
within the limits. -/
def checkBlock (v : View) (block : NodeId) : Verdict Unit := do
  let node ← v.tree.node block
  if !v.tree.isAttached block then
    throw (.treeState (.foreignBlock node.stableId))
  let nodes := v.subtreeSize block
  if nodes > v.blockLimits.maxNodes then
    throw (.limit .blockNodes nodes v.blockLimits.maxNodes (some node.stableId))
  let bytes := nodes * bytesPerNode
  if bytes > v.blockLimits.maxMemoryBytes then
    throw (.limit .blockMemory bytes v.blockLimits.maxMemoryBytes (some node.stableId))

/-- An overlay with nothing recorded. -/
def newOverlay (v : View) (block : Option NodeId) : Overlay :=
  { viewId := v.id, worker := v.nextWorker, block, viewRoot := v.tree.root
    shadow := v.tree.store.layer, root := v.tree.root, guard := { limits := v.overlayLimits } }

/-- The view once an overlay has been issued. -/
def issued (v : View) : View :=
  { v with nextWorker := v.nextWorker.next }

@[simp] theorem shared_issued (v : View) : v.issued.shared = v.shared := rfl

/-- Issue an overlay for the whole tree. -/
def overlay (v : View) : View × Overlay :=
  (v.issued, v.newOverlay none)

/-- Issue an overlay for a block, if the block is accepted. -/
def overlayForBlock (v : View) (block : NodeId) : Verdict (View × Overlay) := do
  v.checkBlock block
  return (v.issued, v.newOverlay (some block))

end View

end TreeEdit
