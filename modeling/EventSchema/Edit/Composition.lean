import EventSchema.Definition
import EventSchema.Failure

/-!
# Edits that bring in another definition

A definition takes in fields of another one: a patch of an extension wins over it; an included
fragment, a parent and an entry of the dictionary only fill its gaps.  Copies replace it.
-/

namespace EventSchema

/-- Which part of a definition an include fills. -/
inductive IncludeScope where
  /-- All fields. -/
  | definition
  /-- The attributes. -/
  | attributes
deriving DecidableEq, Repr

/-- The word for the scope of an include. -/
def IncludeScope.word : IncludeScope → String
  | .definition => "definition"
  | .attributes => "attributes"

namespace Definition

/-- The field with the name of the parent. -/
def parentKey : String := "extends"

/-- Fields that a child never takes from its parent. -/
def notInherited : List String := ["uid", keyKey, sourceExtensionKey, includeKey]

/--
Take in the patch of an extension, which wins.  A patch that names the patched record itself as its
parent only says what it patches; that name is left out.
-/
def mergeExtension (d source : Definition) : Revision :=
  let isMarker := source.parentName?.isSome && source.parentName? == d.name?
  d.merge (MergeRule.patch.ignoring (if isMarker then [parentKey] else [])) source

/-- Take in an included definition. -/
def includeFrom (d source : Definition) : IncludeScope → Revision
  | .definition => d.merge (MergeRule.fill.ignoring [includeKey]) source
  | .attributes => d.merge (MergeRule.fill.only [attributesKey]) source

/-- Take in what the parent has and the child does not define itself. -/
def inherit (d parent : Definition) : Revision :=
  d.merge (MergeRule.fill.ignoring notInherited) parent

/-- Fill the gaps of one attribute from its entry in the dictionary. -/
def fillAttribute (d : Definition) (name : String) (entry : Definition) :
    Except Failure Revision :=
  match d.editSlot? name fun body => MergeRule.fill.apply body entry.fields with
  | some revision => .ok revision
  | none => .error (.noAttribute name)

/-! ## Copies -/

/-- The keys of fields that are new or different in a copy. -/
def differingKeys (d copy : Definition) : List FieldPath :=
  (copy.fields.filter fun e =>
    match Fields.get? d.fields e.1 with
    | some value => value != e.2
    | none => true).map fun e => [e.1]

/-- Become a copy of the definition of an extension, marked with it and with a key of its own. -/
def copyExtension (d source : Definition) (extension : String) (key : Option String) : Revision :=
  let marked := source.set sourceExtensionKey (.str extension)
  let copy :=
    match key with
    | some key => marked.set keyKey (.str key)
    | none => marked
  ⟨copy, d.differingKeys copy⟩

/-- A definition without what only the compiler reads. -/
def withoutDirectives (d : Definition) : Definition :=
  let plain := (d.erase includeKey).erase keyKey
  match plain.attributes? with
  | some attributes => plain.set attributesKey (.obj (Fields.erase attributes includeKey))
  | none => plain

/-- Become the rendered form of a compiled definition. -/
def copyRendered (d source : Definition) : Revision :=
  let copy := source.withoutDirectives
  let gone := (Fields.keys d.fields).filter fun key => !Fields.contains copy.fields key
  ⟨copy, d.differingKeys copy ++ gone.map fun key => [key]⟩

end Definition

end EventSchema
