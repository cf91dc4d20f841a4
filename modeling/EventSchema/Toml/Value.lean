import EventSchema.Decimal.Shortest

/-!
# Values of TOML documents

A document is a table of values.  Whoever reads settings is lenient about scalars: a text may be
written as a number, a truth value or a moment, and a truth value as a number or one of some words.
-/

namespace EventSchema

namespace Toml

/-- A value. -/
inductive Value where
  | text (s : String)
  | integer (n : Int)
  | real (x : Binary64)
  | infinite (negative : Bool)
  | nan
  | flag (b : Bool)
  /-- A date, a time of day or both, in the usual form. -/
  | moment (form : String)
  | list (items : List Value)
  | table (entries : List (String × Value))
deriving Inhabited

/-- The entries of a table. -/
abbrev Table : Type := List (String × Value)

namespace Value

/-- The text that a scalar stands for. -/
def text? : Value → Option String
  | .text s => some s
  | .integer n => some (toString n)
  | .real x => some (Decimal.plain.write x)
  | .infinite negative => some (if negative then "-inf" else "inf")
  | .nan => some "NaN"
  | .flag b => some (if b then "true" else "false")
  | .moment form => some form
  | .list _ => none
  | .table _ => none

/-- The truth value that a word stands for. -/
def flagOfWord? (word : String) : Option Bool :=
  if ["1", "true", "on", "yes"].contains word then some true
  else if ["0", "false", "off", "no"].contains word then some false
  else none

/-- The truth value that a scalar stands for: a number is true unless it is zero. -/
def flag? : Value → Option Bool
  | .flag b => some b
  | .integer n => some (n != 0)
  | .real x => some (!x.isZero)
  | .infinite _ => some true
  | .nan => some true
  | .text s => flagOfWord? s.toLower
  | .moment _ => none
  | .list _ => none
  | .table _ => none

/-- The texts of a list. -/
def texts? : Value → Option (List String)
  | .list items => items.mapM text?
  | _ => none

/-- The word that names a choice: a text, or the only name in a table. -/
def choice? : Value → Option String
  | .text s => some s.toLower
  | .table [(name, _)] => some name.toLower
  | _ => none

/-- The fields of a record, by name in a table and by position in a list. -/
def record? : Value → Option (Nat → String → Option Value)
  | .table entries => some fun _ name => (entries.find? (·.1.toLower == name)).map (·.2)
  | .list items => some fun i _ => items[i]?
  | _ => none

end Value

/-! ## Tables laid over each other -/

/-- Entries with a new one, which replaces the one of its name. -/
def put {α : Type} (name : String) (value : α) : List (String × α) → List (String × α)
  | [] => [(name, value)]
  | e :: rest => if e.1 = name then (name, value) :: rest else e :: put name value rest

mutual

/-- A value laid over another: entries of a table go one by one. -/
def Value.over (below : Option Value) : Value → Value
  | .table entries =>
    .table (overEntries (match below with | some (.table base) => base | _ => []) entries)
  | value => value

/-- Entries laid over a table. -/
def overEntries (base : Table) : List (String × Value) → Table
  | [] => base
  | (name, value) :: rest =>
    overEntries (put name (Value.over (base.lookup name) value) base) rest

end

/-- A table laid over another. -/
def Table.over (base table : Table) : Table := overEntries base table

end Toml

end EventSchema
