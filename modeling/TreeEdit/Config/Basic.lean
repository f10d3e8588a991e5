import TreeEdit.Guard.Basic

/-!
# Configuration

The limits of editors, batches and blocks, and the rules that they have to keep.
-/

namespace TreeEdit

/-- Limits on a block that is handed to one worker. -/
structure BlockLimits where
  maxNodes : Nat := 100000
  maxMemoryBytes : Nat := 50 * 1024 * 1024
  deriving DecidableEq, Repr

/-- All limits. -/
structure Config where
  /-- The limits of one editor. -/
  limits : Limits := .single
  /-- The limits of all overlays of a view together. -/
  batch : Limits := .batch
  /-- The limits of a block. -/
  block : BlockLimits := {}
  deriving DecidableEq, Repr

namespace Config

/-- The value of a setting. -/
def value (c : Config) : Setting → Nat
  | .maxRecursionDepth => c.limits.maxDepth
  | .maxModifications => c.limits.maxModifications
  | .batchMaxRecursionDepth => c.batch.maxDepth
  | .batchMaxModifications => c.batch.maxModifications
  | .blockMaxNodes => c.block.maxNodes
  | .blockMaxMemoryBytes => c.block.maxMemoryBytes

/-- The settings that are zero, in order. -/
def zeroFaults (c : Config) : List SettingFault :=
  let settings : List Setting :=
    [.maxRecursionDepth, .maxModifications, .batchMaxRecursionDepth, .batchMaxModifications,
     .blockMaxNodes, .blockMaxMemoryBytes]
  (settings.filter fun s => c.value s == 0).map .zero

/-- The limits of a batch that are smaller than those of one editor. -/
def narrowFaults (c : Config) : List SettingFault :=
  let pairs : List (Setting × Setting) :=
    [(.batchMaxRecursionDepth, .maxRecursionDepth), (.batchMaxModifications, .maxModifications)]
  (pairs.filter fun p => c.value p.1 < c.value p.2).map fun p =>
    .narrow p.1 (c.value p.1) p.2 (c.value p.2)

/-- Every rule that the configuration breaks. -/
def faults (c : Config) : List SettingFault :=
  c.zeroFaults ++ c.narrowFaults

/-- Refuse a configuration that breaks a rule. -/
def validate (c : Config) : Verdict Unit :=
  match c.faults with
  | [] => .ok ()
  | faults => .error (.config (.rejected faults))

end Config

end TreeEdit
