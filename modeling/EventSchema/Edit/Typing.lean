import EventSchema.Definition
import EventSchema.Failure
import EventSchema.Word
import Std.Data.ExtTreeMap

/-!
# Edits for the types of attributes

The type of an attribute may name an object.  Such a type is replaced by the key of the object, then
by a reference with the object beside it.  An entry of the dictionary is an attribute itself.
Observable attributes get their identifier, and timestamps a sibling for calendar time.
-/

namespace EventSchema

open Std

namespace Definition

/-- The field with the type of an attribute. -/
def typeKey : String := "type"

/-- Whether a type is primitive. -/
def isPrimitive (type : String) : Bool := ['_', 't'].isSuffixOf type.toList

/-- The types of the attributes of a definition of some kind. -/
def types (d : Definition) (kind : Kind) : List String :=
  if kind = .dictionary then (typeOf? d.fields).toList
  else d.attributes.filterMap fun a => typeOf? a.2

/-- Edit each attribute of a definition of some kind. -/
def editTyped (d : Definition) (kind : Kind) (edit : Fields → Fields × List FieldPath) :
    Revision :=
  if kind = .dictionary then
    let edited := edit d.fields
    ⟨⟨edited.1⟩, edited.2⟩
  else d.editAttributes fun _ body => edit body

/-- Give types new names. -/
def prefixTypes (d : Definition) (kind : Kind) (renames : ExtTreeMap String String) : Revision :=
  d.editTyped kind fun body =>
    match (typeOf? body).bind (renames[·]?) with
    | some key => (Fields.set typeKey (.str key) body, [[typeKey]])
    | none => (body, [])

/-- The type of a reference to an object. -/
def objectType : String := "object_t"

/-- An attribute with the type of an object as a reference to the object. -/
def refer (type : String) (caption : Option String) (body : Fields) : Fields :=
  let named := Fields.set "object_type" (.str type) (Fields.set typeKey (.str objectType) body)
  match caption with
  | some caption => Fields.set "object_name" (.str caption) named
  | none => named

/-- Make references of types that are not primitive; each must be a known object. -/
def setObjectTypes (d : Definition) (kind : Kind) (objects : ExtTreeMap String (Option String)) :
    Except Failure Revision :=
  match (d.types kind).find? fun type => !isPrimitive type && !objects.contains type with
  | some type => .error (.unknownObjectType type)
  | none =>
    .ok <| d.editTyped kind fun body =>
      match typeOf? body with
      | none => (body, [])
      | some type =>
        if isPrimitive type then (body, [])
        else
          match objects[type]? with
          | some caption => (refer type caption body, [[typeKey]])
          | none => (body, [])

/-! ## Observables -/

/-- The field with the identifier of an observable. -/
def observableKey : String := "observable"

/-- The identifier of an observable. -/
def observable? (body : Fields) : Option Int := (Fields.get? body observableKey).bind Json.int?

/-- Give an attribute the identifier of an observable. -/
def assignObservable (d : Definition) (name : String) (id : Int) : Revision :=
  let edit (body : Fields) : Fields × List FieldPath :=
    if observable? body = some id then (body, [])
    else (Fields.set observableKey (Json.ofInt id) body, [[observableKey]])
  (d.editSlot? name edit).getD d.unchanged

/-- Give attributes the identifiers of observables, in order of name. -/
def assignObservables (d : Definition) (assignments : ExtTreeMap String Int) : Revision :=
  assignments.toList.foldl (fun revision (name, id) =>
    let next := revision.definition.assignObservable name id
    ⟨next.definition, revision.changes ++ next.changes⟩) d.unchanged

/-! ## Calendar time -/

/-- The profile with which timestamps get siblings. -/
def datetimeProfile : String := "datetime"

/-- The name of the sibling of a timestamp. -/
def siblingName (name : String) : String := name ++ "_dt"

/-- The timestamps whose siblings are missing. -/
def missingSiblings (d : Definition) : List (String × Fields) :=
  d.attributes.filter fun (name, body) =>
    typeOf? body == some "timestamp_t" && (d.attribute? (siblingName name)).isNone

/-- The sibling of a timestamp. -/
def sibling (body : Fields) : Fields :=
  Fields.set "requirement" (.str "optional")
    (Fields.set profileKey (.str datetimeProfile)
      (Fields.set typeKey (.str "datetime_t") body))

/-- Add the siblings that are missing. -/
def addSiblings (d : Definition) : Revision :=
  let missing := d.missingSiblings
  ⟨missing.foldl (fun d (name, body) => d.insertAttribute (siblingName name) (sibling body)) d,
    missing.map fun a => [attributesKey, siblingName a.1]⟩

end Definition

end EventSchema
