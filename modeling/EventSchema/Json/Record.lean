import EventSchema.Json.Basic

/-!
# Documents as records

A record is written as an object with named fields, or as an array with the fields in order.
Unknown names are ignored; an array may stop early but not go on behind the last field.
-/

namespace EventSchema

namespace Json

/-- The fields of a record, by position and name. -/
abbrev Record : Type := Nat → String → Option Json

/-- The fields of a document that is a record with at most {lit}`size` fields. -/
def record? (size : Nat) : Json → Option Record
  | .obj fields => some fun _ name => Fields.get? fields name
  | .arr items => if items.length ≤ size then some fun i _ => items[i]? else none
  | _ => none

namespace Record

/-- A field with a value of its own if it is absent. -/
def optional? {α : Type} (r : Record) (position : Nat) (name : String) (fallback : α)
    (read : Json → Option α) : Option α :=
  match r position name with
  | none => some fallback
  | some value => read value

/-- A field that must be present. -/
def required? {α : Type} (r : Record) (position : Nat) (name : String)
    (read : Json → Option α) : Option α :=
  (r position name).bind read

end Record

/-- The items of a list of strings. -/
def texts? : Json → Option (List String)
  | .arr items => items.mapM str?
  | _ => none

/-- A value that may be null. -/
def nullable? {α : Type} (read : Json → Option α) : Json → Option (Option α)
  | .null => some none
  | value => (read value).map some

end Json

end EventSchema
