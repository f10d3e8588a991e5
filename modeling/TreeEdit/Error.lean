import TreeEdit.Node.Range

/-!
# What can go wrong

Every refusal of the library is a value of `Error`, which names its cause. `Error.message` holds
all the wording, and `Error.isRecoverable` says which refusals concern one edit only.
-/

namespace TreeEdit

/-- A quantity with a limit. -/
inductive Resource
  | recursionDepth
  | modifications
  | blockNodes
  | blockMemory
  deriving DecidableEq, Repr

/-- The wording of a limited quantity. -/
def Resource.describe : Resource → String
  | recursionDepth => "recursion depth"
  | modifications => "modification count"
  | blockNodes => "block node count"
  | blockMemory => "block memory"

/-- The number of a worker. -/
abbrev WorkerId := Nat

/-- The number after a worker's. Workers are counted with 32 bits, and the count starts over. -/
def WorkerId.next (worker : WorkerId) : WorkerId :=
  (worker + 1) % 4294967296

/-- The text form of a worker. -/
def WorkerId.describe (worker : WorkerId) : String :=
  s!"worker-{worker}"

/-- Why the logs of two workers do not go together. -/
inductive ConflictReason
  /-- Two workers changed one place of the source. -/
  | sameTarget
  /-- One worker changed something inside a subtree that another worker took out. -/
  | detachedSubtree
  deriving DecidableEq, Repr

/-- A node as a message names it: by its stable name, or by its slot if nothing is stored there. -/
inductive NodeName
  | stable (name : StableId)
  | slot (id : NodeId)
  deriving DecidableEq, Repr

/-- The text form of a node's name. -/
def NodeName.describe : NodeName → String
  | stable name => name.describe
  | slot id => id.describe

/-- What is wrong with a reference into the current tree. -/
inductive StateFault
  /-- No slot has this number. -/
  | unknownNode (id : NodeId) (slots : Nat)
  /-- A named child does not exist. -/
  | unknownChild (id : NodeId)
  /-- The store has no room for the requested slots. -/
  | exhausted (requested available : Nat)
  /-- A node is listed twice below the chosen root. -/
  | attachedTwice (id : NodeId)
  /-- The parent links of the target end somewhere else than at the root. -/
  | unreachable (target : StableId) (expected reached : NodeName)
  /-- A node does not list the next node of a path. -/
  | brokenLink (parent child : NodeId)
  /-- A node of an inserted subtree has been copied since. -/
  | superseded (name : StableId) (id latest : NodeId)
  /-- A new node lists a child that has been copied since. -/
  | staleChild (name : StableId) (child latest : NodeId)
  /-- A block lies outside the tree of its view. -/
  | foreignBlock (name : StableId)
  /-- An overlay was issued by another view. -/
  | foreignOverlay (worker : WorkerId) (issuer expected : Nat)
  /-- A cause given in words. -/
  | other (text : String)
  deriving DecidableEq, Repr

/-- The wording of a faulty reference. -/
def StateFault.describe : StateFault → String
  | unknownNode id slots => s!"node {id.describe} does not exist in this tree ({slots} slots)"
  | unknownChild id => s!"node {id.describe} does not exist in this tree"
  | exhausted requested available =>
    s!"node arena exhausted: {requested} slots requested, {available} available"
  | attachedTwice id => s!"node {id.describe} is attached more than once"
  | unreachable target expected reached =>
    s!"{target.describe} is not reachable from the current root {expected.describe}; " ++
      s!"its ancestors end at {reached.describe}"
  | brokenLink parent child =>
    s!"path link {parent.describe} -> {child.describe} is not a child relation"
  | superseded name id latest =>
    s!"{name.describe} ({id.describe}) belongs to an older generation; " ++
      s!"it was replaced by {latest.describe}"
  | staleChild name child latest =>
    s!"{name.describe} references {child.describe}, which an earlier edit replaced with " ++
      latest.describe
  | foreignBlock name => s!"block {name.describe} is not part of the viewed tree"
  | foreignOverlay worker issuer expected =>
    s!"overlay {worker.describe} was issued by view {issuer}, not view {expected}"
  | other text => text

/-- What is wrong with a node value or with the place it is meant for. -/
inductive NodeFault
  /-- The preferred line length is too small. -/
  | lineLength (length : Nat)
  /-- The key of a custom hint has no visible character. -/
  | blankHintKey
  /-- A listed child does not exist. -/
  | unknownChild (name : StableId) (child : NodeId)
  /-- A child is listed twice. -/
  | repeatedChild (name : StableId) (child : NodeId)
  /-- There is no such place in the child list. -/
  | indexOutOfBounds (index : Nat) (name : StableId) (children : Nat)
  /-- The inserted subtree is no tree. -/
  | reachedTwice (name : StableId) (id : NodeId)
  /-- A node of the inserted subtree is part of the tree already. -/
  | alreadyAttached (name : StableId) (id : NodeId)
  /-- The target lies outside the block of the worker. -/
  | outsideBlock (target : StableId) (worker : WorkerId)
  /-- A cause given in words. -/
  | other (text : String)
  deriving DecidableEq, Repr

/-- A preferred line length has to be greater than this. -/
def minLineLength : Nat := 20

/-- The wording of a faulty node. -/
def NodeFault.describe : NodeFault → String
  | lineLength length =>
    s!"preferred line length must be greater than {minLineLength}, got {length}"
  | blankHintKey => "custom hint keys must not be blank"
  | unknownChild name child => s!"{name.describe} references unknown child {child.describe}"
  | repeatedChild name child => s!"{name.describe} lists child {child.describe} twice"
  | indexOutOfBounds index name children =>
    s!"insertion index {index} is out of bounds for {name.describe} with {children} children"
  | reachedTwice name id =>
    s!"{name.describe} ({id.describe}) is reachable more than once from the inserted subtree"
  | alreadyAttached name id =>
    s!"{name.describe} ({id.describe}) is already attached to the tree"
  | outsideBlock target worker =>
    s!"{target.describe} lies outside the block assigned to {worker.describe}"
  | other text => text

/-- A value of the configuration. -/
inductive Setting
  | maxRecursionDepth
  | maxModifications
  | batchMaxRecursionDepth
  | batchMaxModifications
  | blockMaxNodes
  | blockMaxMemoryBytes
  deriving DecidableEq, Repr

/-- The name of a setting, with the table it stands in. -/
def Setting.name : Setting → String
  | maxRecursionDepth => "maxRecursionDepth"
  | maxModifications => "maxModifications"
  | batchMaxRecursionDepth => "batch.maxRecursionDepth"
  | batchMaxModifications => "batch.maxModifications"
  | blockMaxNodes => "block.maxNodes"
  | blockMaxMemoryBytes => "block.maxMemoryBytes"

/-- A rule that a setting breaks. -/
inductive SettingFault
  /-- The setting is zero. -/
  | zero (setting : Setting)
  /-- A limit for all overlays together is smaller than the limit for one. -/
  | narrow (setting : Setting) (value : Nat) (floor : Setting) (least : Nat)
  deriving DecidableEq, Repr

/-- The wording of a broken rule. -/
def SettingFault.describe : SettingFault → String
  | zero setting => s!"{setting.name} must be greater than 0"
  | narrow setting value floor least =>
    s!"{setting.name} ({value}) must not be less than {floor.name} ({least})"

/-- The notations a configuration can be written in. -/
inductive Format
  | json
  | toml
  deriving DecidableEq, Repr

/-- The name of a notation. -/
def Format.name : Format → String
  | json => "JSON"
  | toml => "TOML"

/-- What is wrong with a configuration. -/
inductive ConfigFault
  /-- The text is no document of the format, or a setting has a value of the wrong type. -/
  | unreadable (format : Format)
  /-- Some settings break their rules. -/
  | rejected (faults : List SettingFault)
  /-- A cause given in words. -/
  | other (text : String)
  deriving DecidableEq, Repr

/-- The wording of a faulty configuration. -/
def ConfigFault.describe : ConfigFault → String
  | unreadable format => s!"Invalid {format.name} configuration: "
  | rejected faults => "; ".intercalate (faults.map SettingFault.describe)
  | other text => text

/-- Why a request was refused. -/
inductive Error
  /-- The named node is not in the child list of the named parent. -/
  | notAChild (parent child : StableId) (children : Nat)
  /-- A limit would be crossed. -/
  | limit (resource : Resource) (attempted most : Nat) (place : Option StableId)
  /-- The logs of several workers do not go together. -/
  | conflict (place : StableId) (workers : List WorkerId) (reason : ConflictReason)
  /-- A reference does not fit the current tree. -/
  | treeState (fault : StateFault)
  /-- A child list has the wrong length for its construct. -/
  | shape (kind : Kind) (expected : Shape) (actual : Nat)
  /-- A node value, or the place it is meant for, is unusable. -/
  | node (fault : NodeFault)
  /-- A configuration is unusable. -/
  | config (fault : ConfigFault)
  deriving DecidableEq, Repr

namespace Error

/-- The text of an error. -/
def message : Error → String
  | notAChild parent child children =>
    s!"Node {child.describe} is not a child of {parent.describe} ({children} children)"
  | limit resource attempted most place =>
    s!"Resource limit exceeded for {resource.describe}: attempted {attempted}, limit {most}" ++
      (match place with
        | some name => s!" at {name.describe}"
        | none => "")
  | conflict place workers _ =>
    s!"Conflicting modifications to node {place.describe} from workers: " ++
      ", ".intercalate (workers.map WorkerId.describe)
  | treeState fault => s!"Invalid tree state: {fault.describe}"
  | shape kind expected actual =>
    s!"Shape violation: {kind.name} requires {expected.describe}, found {actual}"
  | node fault => s!"Invalid node: {fault.describe}"
  | config fault => s!"Configuration error: {fault.describe}"

/-- Whether the error concerns one edit only, so that the next edit may still be tried. Spent
limits, conflicts and stale references end the whole pass. -/
def isRecoverable : Error → Bool
  | notAChild .. | shape .. | node .. => true
  | _ => false

end Error

/-- The answer of a request that may be refused. -/
abbrev Verdict (α : Type) := Except Error α

namespace Verdict

/-- Skip a refusal that concerns one edit only. -/
def skipRecoverable {α : Type} : Verdict α → Verdict (Option α)
  | .ok a => .ok (some a)
  | .error e => if e.isRecoverable then .ok none else .error e

/-- Drop a refusal of any kind. -/
def discard {α : Type} : Verdict α → Option α
  | .ok a => some a
  | .error _ => none

end Verdict

end TreeEdit
