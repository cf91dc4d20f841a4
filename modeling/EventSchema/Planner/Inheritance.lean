import EventSchema.Operation.Basic

/-!
# Planning inheritance

Records inherit from the record that goes by the name of their parent.  Each record has at most one
parent, so the links form trees and cycles.  Parents come before their children, in the order of a
depth-first walk; a cycle stops the compilation.
-/

namespace EventSchema

open Std

/-- The records of a draft and their parents. -/
structure Inheritance where
  /-- The records, in order of location. -/
  records : List Location
  /-- The parent of each record that has one. -/
  parents : LocationMap Location

namespace Inheritance

/-- The parent of a record, unless it names itself. -/
def parentOf? (draft : Draft) (l : Location) (d : Definition) : Option Location :=
  d.parentName?.bind fun name =>
    if d.name? = some name ∨ l.name = name then none
    else (draft.find? l.kind.family name d.sourceExtension?).filter (· != l)

/-- The inheritance among the records of a draft. -/
def ofDraft (draft : Draft) : Inheritance :=
  let records := draft.core Kind.records
  { records := records.map (·.1)
    parents := ExtTreeMap.ofList (records.filterMap fun (l, d) => (parentOf? draft l d).map (l, ·)) }

/-- The records with a given parent, in order. -/
def children (i : Inheritance) (l : Location) : List Location :=
  i.records.filter fun child => i.parents[child]? == some l

/-! ## Parents first -/

/-- A walk down the links: the records it has come to, and those it has left, last first. -/
structure Descent where
  discovered : List Location := []
  left : List Location := []

/-- Walk down from a record.  A step down needs a record that has not been discovered, so a depth of
one more than the number of records is enough. -/
def descend (i : Inheritance) : Nat → Descent → Location → Descent
  | 0, walk, _ => walk
  | depth + 1, walk, l =>
    if walk.discovered.contains l then walk
    else
      let below := (i.children l).foldl (i.descend depth)
        { walk with discovered := l :: walk.discovered }
      { below with left := l :: below.left }

/-- All records, each behind its parent as far as there is no cycle. -/
def order (i : Inheritance) : List Location :=
  (i.records.foldl (i.descend (i.records.length + 1)) {}).left

/-! ## Cycles -/

/-- A record, its parent, and so on, as many as there are records. -/
def lineFrom (i : Inheritance) : Nat → Location → List Location
  | 0, _ => []
  | n + 1, l =>
    l :: match i.parents[l]? with
      | some parent => lineFrom i n parent
      | none => []

/-- Whether the line of a record comes to another. -/
def reaches (i : Inheritance) (l other : Location) : Bool :=
  (i.lineFrom i.records.length l).contains other

/-- The records that a record reaches and that reach it, in order. -/
def cycleOf (i : Inheritance) (l : Location) : List Location :=
  i.records.filter fun other => i.reaches l other && i.reaches other l

/-- The first parent in an arrangement that comes behind its child. -/
def lateParent? (i : Inheritance) (seen : List Location) : List Location → Option Location
  | [] => none
  | l :: rest =>
    match i.parents[l]? with
    | some parent => if seen.contains parent then i.lateParent? (l :: seen) rest else some parent
    | none => i.lateParent? (l :: seen) rest

/-- All records, each behind its parent; or the members of a cycle. -/
def parentsFirst (i : Inheritance) : Except (List Location) (List Location) :=
  match i.lateParent? [] i.order with
  | some l => .error (i.cycleOf l)
  | none => .ok i.order

end Inheritance

namespace Planner

/-- Let each record inherit from its parent, parents first. -/
def inherit (draft : Draft) : Except Error (List Operation) :=
  let inheritance := Inheritance.ofDraft draft
  match inheritance.parentsFirst with
  | .error cycle => .error (.cyclicInheritance .structural cycle)
  | .ok order =>
    .ok (order.filterMap fun child =>
      inheritance.parents[child]?.map fun parent => ⟨child, .inherit parent⟩)

end Planner

end EventSchema
