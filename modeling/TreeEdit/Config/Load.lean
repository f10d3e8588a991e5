import TreeEdit.Config.Basic
import TreeEdit.Json.Decode
import TreeEdit.Toml.Document

/-!
# Reading configurations

A configuration is a record of `maxRecursionDepth`, `maxModifications`, and the records `batch` and
`block`. Everything may be left out, and what is left out has its usual value. `Config.ofJson` and
`Config.ofToml` read a text and then check the rules.
-/

namespace TreeEdit.Config

/-- A field that keeps its usual value if it is left out. -/
def orDefault {α β : Type} (decode : β → Option α) (usual : α) : Option β → Option α
  | none => some usual
  | some v => decode v

/-- Read limits on depth and number of edits from the fields of a record. -/
def limitsOf? {β : Type} (number : β → Option Nat) (usual : Limits) :
    List (Option β) → Option Limits
  | [depth, modifications] => do
    return ⟨← orDefault number usual.maxDepth depth,
      ← orDefault number usual.maxModifications modifications⟩
  | _ => none

/-- Read limits on blocks from the fields of a record. -/
def blockOf? {β : Type} (number : β → Option Nat) : List (Option β) → Option BlockLimits
  | [nodes, bytes] => do
    let usual : BlockLimits := {}
    return ⟨← orDefault number usual.maxNodes nodes, ← orDefault number usual.maxMemoryBytes bytes⟩
  | _ => none

/-- Read a configuration from the fields of a record. -/
def fieldsOf? {β : Type} (number : β → Option Nat)
    (record : List String → β → Option (List (Option β))) : List (Option β) → Option Config
  | [depth, modifications, batch, block] => do
    let usual : Config := {}
    return {
      limits := ← limitsOf? number usual.limits [depth, modifications]
      batch := ← orDefault
        (fun v => record ["maxRecursionDepth", "maxModifications"] v >>=
          limitsOf? number usual.batch)
        usual.batch batch
      block := ← orDefault
        (fun v => record ["maxNodes", "maxMemoryBytes"] v >>= blockOf? number) usual.block block }
  | _ => none

/-- Read a configuration from a record. -/
def ofRecord? {β : Type} (number : β → Option Nat)
    (record : List String → β → Option (List (Option β))) (v : β) : Option Config := do
  let fields ← record ["maxRecursionDepth", "maxModifications", "batch", "block"] v
  fieldsOf? number record fields

/-- Check the rules for what was read. -/
def checked (format : Format) : Option Config → Verdict Config
  | none => .error (.config (.unreadable format))
  | some c => do
    c.validate
    return c

/-- Read a configuration in JSON. An array may end before the last field. -/
def ofJson (s : String) : Verdict Config :=
  checked .json (Json.parse? s >>= ofRecord? Json.word64? (Json.record? true))

mutual

/-- Whether a value that nobody asked for can still be read: integers must fit into 128 bits,
floating point numbers into double precision. -/
def readable : Toml → Bool
  | .integer none => false
  | .integer (some (.ofNat n)) => n < Nat.pow 2 128
  | .integer (some (.negSucc n)) => n < Nat.pow 2 127
  | .float inRange => inRange
  | .array items => readableItems items
  | .table fields => readableFields fields
  | _ => true

/-- Whether all items of an array can be read. -/
def readableItems : List Toml → Bool
  | [] => true
  | v :: rest => readable v && readableItems rest

/-- Whether all fields of a table can be read. -/
def readableFields : List (String × Toml) → Bool
  | [] => true
  | (_, v) :: rest => readable v && readableFields rest

end

/-- An integer of sixty-four bits. -/
def tomlNumber? : Toml → Option Nat
  | .integer (some (.ofNat n)) => if n < Nat.pow 2 64 then some n else none
  | _ => none

/-- The values of the named fields of a record: a table, or an array that gives the first fields in
order. Further items of an array are not looked at. A date or time is a record without any of the
fields. -/
def tomlRecord? (names : List String) : Toml → Option (List (Option Toml))
  | .table fields =>
    if readableFields (fields.filter fun f => !names.contains f.1) then
      some (names.map fun name => fields.lookup name)
    else none
  | .array items =>
    some ((items.take names.length).map some ++
      List.replicate (names.length - items.length) none)
  | .dateTime => some (List.replicate names.length none)
  | _ => none

/-- Read a configuration in TOML. -/
def ofToml (s : String) : Verdict Config :=
  checked .toml (Toml.parse? s >>= fun fields => ofRecord? tomlNumber? tomlRecord? (.table fields))

end TreeEdit.Config
