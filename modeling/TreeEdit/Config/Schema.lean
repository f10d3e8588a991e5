import TreeEdit.Config.Basic
import TreeEdit.Json.Basic

/-!
# The schema of a configuration

`Config.schema` describes the documents that `Config.ofJson` reads, as a JSON Schema. The usual
values in it are those of the empty configuration.
-/

namespace TreeEdit.Config

open Json

/-- A text as a document. -/
def quotation (s : String) : Json :=
  string (some s)

/-- An object of named documents. -/
def members (fields : List (String × Json)) : Json :=
  object (fields.map fun f => (some f.1, f.2))

/-- The schema of a limit. -/
def limitSchema (description : String) (usual : Nat) : Json :=
  members
    [("type", quotation "integer"), ("format", quotation "uint"), ("minimum", natural 0),
     ("default", natural usual), ("description", quotation description)]

/-- Limits on depth and number of edits as a document. -/
def limitsDocument (l : Limits) : Json :=
  members
    [("maxRecursionDepth", natural l.maxDepth), ("maxModifications", natural l.maxModifications)]

/-- Limits on blocks as a document. -/
def blockDocument (b : BlockLimits) : Json :=
  members [("maxNodes", natural b.maxNodes), ("maxMemoryBytes", natural b.maxMemoryBytes)]

/-- The schema of the record `batch`. -/
def batchSchema (usual : Limits) : Json :=
  members
    [("type", quotation "object"),
     ("description", quotation "Limits shared by every overlay of one view"),
     ("properties", members
       [("maxRecursionDepth",
          limitSchema "Maximum path depth accepted from any overlay" usual.maxDepth),
        ("maxModifications",
          limitSchema "Maximum number of edits recorded by all overlays together"
            usual.maxModifications)])]

/-- The schema of the record `block`. -/
def blockSchema (usual : BlockLimits) : Json :=
  members
    [("type", quotation "object"),
     ("properties", members
       [("maxNodes", limitSchema "Maximum number of nodes in one block" usual.maxNodes),
        ("maxMemoryBytes",
          limitSchema "Maximum estimated memory of one block, in bytes" usual.maxMemoryBytes)])]

/-- A record that is described under a name of its own. -/
def reference (name description : String) (usual : Json) : Json :=
  members
    [("$ref", quotation ("#/$defs/" ++ name)), ("default", usual),
     ("description", quotation description)]

/-- The schema of a configuration. -/
def schema : Json :=
  let usual : Config := {}
  members
    [("$schema", quotation "https://json-schema.org/draft/2020-12/schema"),
     ("title", quotation "MutationConfiguration"),
     ("description", quotation "Root configuration of the mutation engine"),
     ("type", quotation "object"),
     ("properties", members
       [("maxRecursionDepth",
          limitSchema "Maximum nesting depth for one mutation context or overlay"
            usual.limits.maxDepth),
        ("maxModifications",
          limitSchema "Maximum number of edits per mutation context or overlay"
            usual.limits.maxModifications),
        ("batch",
          reference "BatchLimits" "Cumulative limits across all overlays of one tree view"
            (limitsDocument usual.batch)),
        ("block",
          reference "BlockLimits" "Size limits for a block handed to one worker"
            (blockDocument usual.block))]),
     ("$defs", members
       [("BatchLimits", batchSchema usual.batch), ("BlockLimits", blockSchema usual.block)])]

end TreeEdit.Config
