/-!
# TOML documents

A `Toml` is a finished value of a document. `Fields` is a table under construction: it remembers how
each table came to be, because that decides what may still be added to it.
-/

namespace TreeEdit

/-- A value of a document. Of texts, dates and times only their form is kept. -/
inductive Toml
  | text
  /-- An integer, or none if what stands in its place is no number. -/
  | integer (n : Option Int)
  /-- A floating-point number, and whether it is within the range of double precision. -/
  | float (inRange : Bool)
  | boolean (b : Bool)
  | dateTime
  | array (items : List Toml)
  | table (fields : List (String × Toml))

namespace Toml

/-- How a table came to be. -/
inductive Origin
  /-- By a header of its own. -/
  | defined
  /-- By the header of a table inside it. -/
  | implied
  /-- By a dotted key. -/
  | dotted
  deriving DecidableEq, Repr

/-- A part of a table under construction. -/
inductive Entry
  /-- A finished value. -/
  | value (v : Toml)
  | table (origin : Origin) (fields : List (String × Entry))
  /-- Tables under repeated headers: the finished ones, and the last. -/
  | tables (older : List (List (String × Entry))) (last : List (String × Entry))

/-- A table under construction. -/
abbrev Fields := List (String × Entry)

namespace Fields

/-- Change what stands under a key, or add it. -/
def update (key : String) (change : Option Entry → Option Entry) : Fields → Option Fields
  | [] => do
    let e ← change none
    return [(key, e)]
  | (k, e) :: rest =>
    if k = key then do
      let e ← change (some e)
      return (k, e) :: rest
    else do
      let rest ← update key change rest
      return (k, e) :: rest

/-- Add a value under a key, which must not be there yet, in the table that a dotted key leads to.
Dotted keys make the tables on their way. They may add to a table made by a dotted key, but not to
one that has a header or got into being by another header. -/
def insert (key : String) (v : Toml) : List String → Fields → Option Fields
  | [], fields =>
    update key (fun
      | none => some (.value v)
      | some _ => none) fields
  | part :: path, fields =>
    update part (fun
      | none => (insert key v path []).map (.table .dotted)
      | some (.table origin sub) =>
        if origin = .defined || (path.isEmpty && origin ≠ .dotted) then none
        else (insert key v path sub).map (.table origin)
      | some (.tables older last) =>
        if path.isEmpty then none else (insert key v path last).map (.tables older)
      | some (.value _) => none) fields

/-- Carry out the header of a table, or of one more table of a list if `repeated`. A table can have
one header only. -/
def define (repeated : Bool) : List String → Fields → Option Fields
  | [], _ => none
  | [key], fields =>
    update key (fun
      | none => some (if repeated then .tables [] [] else .table .defined [])
      | some (.table .implied sub) => if repeated then none else some (.table .defined sub)
      | some (.tables older last) =>
        if repeated then some (.tables (older ++ [last]) []) else none
      | _ => none) fields
  | part :: path, fields =>
    update part (fun
      | none => (define repeated path []).map (.table .implied)
      | some (.table origin sub) => (define repeated path sub).map (.table origin)
      | some (.tables older last) => (define repeated path last).map (.tables older)
      | some (.value _) => none) fields

/-- Change the table that the last header on a path leads to. -/
def within (change : Fields → Option Fields) : List String → Fields → Option Fields
  | [], fields => change fields
  | part :: path, fields =>
    update part (fun
      | some (.table origin sub) => (within change path sub).map (.table origin)
      | some (.tables older last) => (within change path last).map (.tables older)
      | _ => none) fields

end Fields

mutual

/-- The finished form of a part of a table. -/
def Entry.finish : Entry → Toml
  | .value v => v
  | .table _ fields => .table (finishFields fields)
  | .tables older last =>
    .array (finishTables older ++ [.table (finishFields last)])

/-- The finished form of the fields of a table. -/
def finishFields : List (String × Entry) → List (String × Toml)
  | [] => []
  | (key, e) :: rest => (key, e.finish) :: finishFields rest

/-- The finished form of a list of tables. -/
def finishTables : List (List (String × Entry)) → List Toml
  | [] => []
  | fields :: rest => .table (finishFields fields) :: finishTables rest

end

end Toml

end TreeEdit
