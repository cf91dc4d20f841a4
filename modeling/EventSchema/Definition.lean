import EventSchema.Merge
import EventSchema.Text.Split

/-!
# Definitions

A definition is one object exactly as authored.  The views below read the few fields that matter to
the compiler; a null counts as no value.

Main results:

- {lit}`Definition.get?_set_self`, {lit}`Definition.get?_set_of_ne`: what setting a field does to
  the views.
- {lit}`Definition.attribute?_insertAttribute`: an inserted attribute is there.
-/

namespace EventSchema

/-- One document of the schema: an object. -/
structure Definition where
  fields : Fields

namespace Definition

instance : Inhabited Definition := ⟨⟨[]⟩⟩

/-- The field with references to other files. -/
def includeKey : String := "$include"

/-- The field with the attributes. -/
def attributesKey : String := "attributes"

/-- The field with the extension a definition was copied from. -/
def sourceExtensionKey : String := "src_extension"

/-- The field with the key under which a definition is rendered. -/
def keyKey : String := "key"

/-- The definition that a document is, if it is an object. -/
def ofJson? : Json → Option Definition
  | .obj fields => some ⟨fields⟩
  | _ => none

/-- The document. -/
def toJson (d : Definition) : Json := .obj d.fields

/-- Equality as documents, whatever the order of fields. -/
def same (a b : Definition) : Bool := a.toJson.same b.toJson

instance : BEq Definition := ⟨Definition.same⟩

/-! ## Fields -/

/-- The value of a field that is not null. -/
def get? (d : Definition) (key : String) : Option Json :=
  (Fields.get? d.fields key).filter fun value => !value.isNull

/-- The text of a field that holds a string. -/
def text? (d : Definition) (key : String) : Option String := (d.get? key).bind Json.str?

/-- Whether a field has a value. -/
def contains (d : Definition) (key : String) : Bool := (d.get? key).isSome

/-- Give a field a value. -/
def set (d : Definition) (key : String) (value : Json) : Definition :=
  ⟨Fields.set key value d.fields⟩

/-- Remove a field. -/
def erase (d : Definition) (key : String) : Definition := ⟨Fields.erase d.fields key⟩

theorem get?_set_self (d : Definition) (key : String) {value : Json} (h : value.isNull = false) :
    (d.set key value).get? key = some value := by
  simp [get?, set, h]

theorem get?_set_of_ne (d : Definition) {key other : String} (value : Json) (h : other ≠ key) :
    (d.set key value).get? other = d.get? other := by
  simp [get?, set, Fields.get?_set_of_ne _ _ h]

/-! ## Common fields -/

/-- The declared name. -/
def name? (d : Definition) : Option String := d.text? "name"

/-- The caption. -/
def caption? (d : Definition) : Option String := d.text? "caption"

/-- The description. -/
def description? (d : Definition) : Option String := d.text? "description"

/-- The name of the parent. -/
def parentName? (d : Definition) : Option String := d.text? "extends"

/-- The name of the category. -/
def category? (d : Definition) : Option String := d.text? "category"

/-- The numeric identifier. -/
def uid? (d : Definition) : Option Int := (d.get? "uid").bind Json.int?

/-- The extension a definition was copied from. -/
def sourceExtension? (d : Definition) : Option String := d.text? sourceExtensionKey

/-- The key under which a definition is rendered: the one it states, else its name. -/
def key? (d : Definition) : Option String := (d.text? keyKey).or d.name?

/-- References to profiles, as written. -/
def profiles (d : Definition) : List String := Json.strings (d.get? "profiles")

/-- References of the root to other files. -/
def includes (d : Definition) : List String := Json.strings (d.get? includeKey)

/-! ## Attributes -/

/-- Whether an attribute name is a directive. -/
def isDirective (name : String) : Bool := name.toList.head? == some '$'

/-- The attributes, directives included. -/
def attributes? (d : Definition) : Option Fields := (d.get? attributesKey).bind Json.obj?

/-- References among the attributes to other files. -/
def attributeIncludes (d : Definition) : List String :=
  Json.strings (d.attributes?.bind (Fields.get? · includeKey))

/-- The object stored under a name among the attributes, be it a directive or not. -/
def slot? (d : Definition) (name : String) : Option Fields :=
  (d.attributes?.bind (Fields.get? · name)).bind Json.obj?

/-- One attribute; directives are none. -/
def attribute? (d : Definition) (name : String) : Option Fields :=
  if isDirective name then none else d.slot? name

/-- The attributes by name, in order, without directives and values that are no objects. -/
def attributes (d : Definition) : List (String × Fields) :=
  (d.attributes?.getD []).filterMap fun e =>
    if isDirective e.1 then none else (Json.obj? e.2).map (e.1, ·)

/-- The names of the attributes in order. -/
def attributeNames (d : Definition) : List String := d.attributes.map (·.1)

/-- Put an attribute in place, with the field for attributes made if there is none. -/
def insertAttribute (d : Definition) (name : String) (body : Fields) : Definition :=
  d.set attributesKey (.obj (Fields.set name (.obj body) (d.attributes?.getD [])))

theorem attribute?_insertAttribute (d : Definition) {name : String} (body : Fields)
    (h : isDirective name = false) :
    (d.insertAttribute name body).attribute? name = some body := by
  simp [insertAttribute, attribute?, slot?, attributes?, h,
    get?_set_self d attributesKey (show Json.isNull (.obj _) = false from rfl), Json.obj?]

/-- The profile tags of an attribute. -/
def profileTags (body : Fields) : List String :=
  Json.strings (Fields.get? body profileKey)

/-- The declared type of an attribute. -/
def typeOf? (body : Fields) : Option String := (Fields.get? body "type").bind Json.str?

/-- A text without an ending, or as it is. -/
def withoutEnding (ending text : String) : String :=
  let (e, t) := (ending.toList, text.toList)
  if e.isSuffixOf t then String.ofList (t.take (t.length - e.length)) else text

/-- The profile that a reference names: its last part, without the ending of a file. -/
def profileOfReference (reference : String) : String :=
  withoutEnding ".json" (String.ofList ((Text.split '/' reference.toList).getLastD []))

end Definition

/-- A definition after an edit, and the paths that changed. -/
structure Revision where
  definition : Definition
  changes : List FieldPath

namespace Definition

/-- Merge the fields of another definition. -/
def merge (d : Definition) (rule : MergeRule) (source : Definition) : Revision :=
  let merged := rule.apply d.fields source.fields
  ⟨⟨merged.1⟩, merged.2⟩

/-- A definition that an edit leaves alone. -/
def unchanged (d : Definition) : Revision := ⟨d, []⟩

/-- Edit each object among some fields; the result comes with the paths that changed. -/
def editObjects (edit : String → Fields → Fields × List FieldPath) :
    Fields → Fields × List FieldPath
  | [] => ([], [])
  | (name, value) :: rest =>
    let after := editObjects edit rest
    match value with
    | .obj fields =>
      let edited := edit name fields
      ((name, .obj edited.1) :: after.1, edited.2.map (name :: ·) ++ after.2)
    | _ => ((name, value) :: after.1, after.2)

/-- Edit each object among the attributes, directives included. -/
def editSlots (d : Definition) (edit : String → Fields → Fields × List FieldPath) : Revision :=
  match d.attributes? with
  | none => d.unchanged
  | some attributes =>
    let edited := editObjects edit attributes
    ⟨d.set attributesKey (.obj edited.1), edited.2.map (attributesKey :: ·)⟩

/-- Edit each attribute. -/
def editAttributes (d : Definition) (edit : String → Fields → Fields × List FieldPath) :
    Revision :=
  d.editSlots fun name fields => if isDirective name then (fields, []) else edit name fields

/-- Edit the object stored under one name among the attributes, if there is one. -/
def editSlot? (d : Definition) (name : String) (edit : Fields → Fields × List FieldPath) :
    Option Revision :=
  (d.slot? name).map fun fields =>
    let edited := edit fields
    ⟨d.insertAttribute name edited.1, edited.2.map fun p => attributesKey :: name :: p⟩

end Definition

end EventSchema
