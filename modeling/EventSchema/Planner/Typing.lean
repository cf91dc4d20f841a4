import EventSchema.Operation.Basic

/-!
# Planning the types of attributes
-/

namespace EventSchema

open Std

namespace Planner

/-- Kinds whose attribute types are edited. -/
def typedKinds : List Kind := [.object, .eventClass, .event, .profile, .dictionary]

/-! ## Observables -/

/-- The identifiers of observables in core, by the name of an entry of one kind. -/
def observablesOf (draft : Draft) (kind : Kind) : ExtTreeMap String Int :=
  ExtTreeMap.ofList ((draft.core [kind]).filterMap fun (l, d) =>
    (Definition.observable? d.fields).map (l.name, ·))

/-- The identifier of an attribute as an observable: by its name, else by its type. -/
def observableOf? (names types : ExtTreeMap String Int) (name : String) (body : Fields) :
    Option Int :=
  names[name]?.or ((Definition.typeOf? body).bind (types[·]?))

/-- Give observable attributes their identifiers. -/
def assignObservables (draft : Draft) (options : Options) : List Operation :=
  if !options.setObservable then []
  else
    let names := observablesOf draft .dictionary
    let types := observablesOf draft .type
    (draft.core Kind.withAttributes).filterMap fun (l, d) =>
      let assignments := d.attributes.filterMap fun (name, body) =>
        (observableOf? names types name body).bind fun id =>
          if Definition.observable? body = some id then none else some (name, id)
      if assignments.isEmpty then none
      else some ⟨l, .assignObservables (ExtTreeMap.ofList assignments)⟩

/-! ## Names out of extensions -/

/-- An object whose key has the name of its extension in front. -/
structure PrefixedObject where
  name : String
  extension : String
  key : String

/-- The objects out of extensions whose key is not their name, in order. -/
def prefixedObjects (draft : Draft) : List PrefixedObject :=
  (draft.core [.object]).filterMap fun (l, d) =>
    d.sourceExtension?.bind fun extension =>
      d.key?.bind fun key =>
        let name := d.name?.getD l.name
        if key = name then none else some ⟨name, extension, key⟩

/-- The key of the object that a type names, preferring an extension. -/
def prefixedKey? (objects : List PrefixedObject) (extension : Option String) (type : String) :
    Option String :=
  let candidates := objects.filter (·.name == type)
  ((candidates.find? fun o => some o.extension == extension).or candidates.head?).map (·.key)

/-- Rename the types that name objects out of extensions. -/
def prefixTypes (draft : Draft) (options : Options) : List Operation :=
  if !options.prefixExtensions then []
  else
    let objects := prefixedObjects draft
    (draft.core typedKinds).filterMap fun (l, d) =>
      let renames := (d.types l.kind).filterMap fun type =>
        (prefixedKey? objects d.sourceExtension? type).map (type, ·)
      if renames.isEmpty then none else some ⟨l, .prefixTypes (ExtTreeMap.ofList renames)⟩

/-! ## References to objects -/

/-- The captions of the objects in core, by key. -/
def objectCaptions (draft : Draft) : ExtTreeMap String (Option String) :=
  ExtTreeMap.ofList ((draft.core [.object]).map fun (l, d) => (d.key?.getD l.name, d.caption?))

/-- Make references of the types that are not primitive. -/
def setObjectTypes (draft : Draft) (options : Options) : List Operation :=
  if !options.setObjectTypes then []
  else
    let objects := objectCaptions draft
    (draft.core typedKinds).filterMap fun (l, d) =>
      let referenced := (d.types l.kind).filter fun type => !Definition.isPrimitive type
      if referenced.isEmpty then none
      else
        some ⟨l, .setObjectTypes (ExtTreeMap.ofList (referenced.filterMap fun type =>
          objects[type]?.map (type, ·)))⟩

/-! ## Calendar time -/

/-- Add the missing siblings of timestamps, if their profile is active. -/
def addSiblings (draft : Draft) (options : Options) : List Operation :=
  if !options.isProfileEnabled Definition.datetimeProfile then []
  else
    (draft.core Kind.withAttributes).filterMap fun (l, d) =>
      if d.missingSiblings.isEmpty then none else some ⟨l, .addSiblings⟩

end Planner

end EventSchema
