import EventSchema.Toml.Value

/-!
# Documents from headers and assignments

A document is a list of statements.  A header opens a table, or appends one to a list of tables, and
the assignments behind it go there.  A table may be named by one header only, or grow by dotted
names, but not both; a table that a longer header implies may still get a header of its own.
-/

namespace EventSchema

namespace Toml

/-- How a table came about. -/
inductive Origin where
  /-- By a header of its own. -/
  | header
  /-- As part of the path of a longer header. -/
  | implied
  /-- By a dotted name. -/
  | dotted
deriving DecidableEq

/-- What stands under a name while a document is read. -/
inductive Node where
  | value (v : Value)
  | table (origin : Origin) (entries : List (String × Node))
  /-- A list of tables, last first. -/
  | tables (items : List (List (String × Node)))

/-- The contents of a table while a document is read. -/
abbrev Nodes : Type := List (String × Node)

namespace Nodes

/--
Change the table at a path, given how it came about.  Tables on the way are made if they are
missing; a list of tables stands for its last one.  A dotted name does not enter a table with a
header.
-/
def change (isDotted : Bool) (f : Origin → Nodes → Option Nodes) :
    List String → Origin → Nodes → Option Nodes
  | [], origin, nodes => f origin nodes
  | name :: path, _, nodes =>
    match nodes.lookup name with
    | none => do
      let origin := if isDotted then .dotted else .implied
      return put name (.table origin (← change isDotted f path origin [])) nodes
    | some (.table origin inner) =>
      if isDotted ∧ origin = .header then none
      else do return put name (.table origin (← change isDotted f path origin inner)) nodes
    | some (.tables (last :: others)) => do
      return put name (.tables ((← change isDotted f path .header last) :: others)) nodes
    | some (.tables []) => none
    | some (.value _) => none

/-- Give a value to a name that has none. -/
def insertNew (name : String) (v : Value) (nodes : Nodes) : Option Nodes :=
  match nodes.lookup name with
  | some _ => none
  | none => some (put name (.value v) nodes)

/-- Assign to a dotted name.  A table that grows by dotted names got all of its entries that way. -/
def assign (path : List String) (name : String) (v : Value) (nodes : Nodes) : Option Nodes :=
  change true (fun origin inner =>
    if (origin == .dotted) = path.isEmpty then none else inner.insertNew name v) path .header nodes

/-- Open a table under a name. -/
def openTable (name : String) (nodes : Nodes) : Option Nodes :=
  match nodes.lookup name with
  | none => some (put name (.table .header []) nodes)
  | some (.table .implied inner) => some (put name (.table .header inner) nodes)
  | some _ => none

/-- Append a table to the list under a name. -/
def appendTable (name : String) (nodes : Nodes) : Option Nodes :=
  match nodes.lookup name with
  | none => some (put name (.tables [[]]) nodes)
  | some (.tables items) => some (put name (.tables ([] :: items)) nodes)
  | some _ => none

end Nodes

mutual

/-- The value that stands under a name when all is read. -/
def Node.toValue : Node → Value
  | .value v => v
  | .table _ entries => .table (Node.toEntries entries)
  | .tables items => .list (Node.toTables items).reverse

/-- The entries of a table when all is read. -/
def Node.toEntries : List (String × Node) → List (String × Value)
  | [] => []
  | (name, node) :: rest => (name, node.toValue) :: Node.toEntries rest

/-- The tables of a list when all is read. -/
def Node.toTables : List (List (String × Node)) → List Value
  | [] => []
  | entries :: rest => .table (Node.toEntries entries) :: Node.toTables rest

end

/-! ## Statements -/

/-- A line of a document. -/
inductive Statement where
  | table (path : List String) (name : String)
  | tables (path : List String) (name : String)
  | pair (path : List String) (name : String) (value : Value)

/-- A document in part: the path of the last header, and all that was read. -/
structure Progress where
  header : List String
  nodes : Nodes

/-- One statement. -/
def Progress.step? (p : Progress) : Statement → Option Progress
  | .table path name =>
    (p.nodes.change false (fun _ => Nodes.openTable name) path .header).map (⟨path ++ [name], ·⟩)
  | .tables path name =>
    (p.nodes.change false (fun _ => Nodes.appendTable name) path .header).map (⟨path ++ [name], ·⟩)
  | .pair path name v =>
    (p.nodes.change false (fun _ => Nodes.assign path name v) p.header .header).map (⟨p.header, ·⟩)

/-- The document of some statements. -/
def ofStatements? (statements : List Statement) : Option Table :=
  (statements.foldlM Progress.step? ⟨[], []⟩).map fun p => Node.toEntries p.nodes

end Toml

end EventSchema
