import TreeEdit.Overlay.Merge

/-!
# Editing blocks independently

A rule is run on each of several blocks, every block with an overlay of its own, and the logs are
merged.
-/

namespace TreeEdit

/-- What is done to one block: a program on an overlay and the guard that all overlays share. -/
abbrev Rule := NodeId → Overlay → SharedGuard → Overlay × SharedGuard × Verdict Unit

namespace View

/-- Issue an overlay for each block in order, up to the first that is refused. -/
def issueBlocks (v : View) : List NodeId → View × Verdict (List (NodeId × Overlay))
  | [] => (v, .ok [])
  | block :: blocks =>
    match v.overlayForBlock block with
    | .error e => (v, .error e)
    | .ok (v, overlay) =>
      let (v, rest) := v.issueBlocks blocks
      (v, rest.map ((block, overlay) :: ·))

/-- Run a rule on issued blocks in order, up to the first that fails, and finish their logs. -/
def runRule (rule : Rule) (g : SharedGuard) :
    List (NodeId × Overlay) → SharedGuard × Verdict (List Sealed)
  | [] => (g, .ok [])
  | (block, overlay) :: issued =>
    match rule block overlay g with
    | (_, g, .error e) => (g, .error e)
    | (done, g, .ok ()) =>
      let (g, rest) := runRule rule g issued
      (g, rest.map (done.toSealed :: ·))

/-- Run a rule on every block and merge what was recorded. -/
def editBlocks (v : View) (blocks : List NodeId) (rule : Rule) : View × Verdict MergeOutcome :=
  match v.issueBlocks blocks with
  | (v, .error e) => (v, .error e)
  | (v, .ok issued) =>
    let (shared, logs) := runRule rule v.shared issued
    let v := { v with shared }
    (v, logs.bind v.merge)

end View

end TreeEdit
