import EventSchema.Digest.Sha256
import EventSchema.Draft
import EventSchema.Json.Printer
import EventSchema.Json.Record

/-!
# Rendered schemas

A schema holds the settled definitions in sections, each by key.  It has a compact and an indented
text, and the digest of its compact text identifies it.
-/

namespace EventSchema

open Std

/-- The definitions of a section by key. -/
abbrev Entries : Type := ExtTreeMap String Definition

/-- How the text of a schema is laid out. -/
inductive OutputFormat where
  | pretty
  | compact
deriving DecidableEq, Repr

/-- The word for a layout. -/
def OutputFormat.word : OutputFormat → String
  | .pretty => "pretty"
  | .compact => "compact"

/-- The layout that a word stands for. -/
def OutputFormat.ofWord? (word : String) : Option OutputFormat :=
  [pretty, compact].find? (·.word == word)

/-- A rendered schema. -/
structure Schema where
  version : String := ""
  classes : Entries := ∅
  objects : Entries := ∅
  categories : Entries := ∅
  profiles : Entries := ∅
  extensions : Entries := ∅
  /-- The attributes of the dictionary. -/
  attributes : Entries := ∅
  /-- The types of the dictionary. -/
  types : Entries := ∅
  baseEvent : Option Definition := none

namespace Schema

/-! ## Rendering -/

/-- Put one definition in its place. -/
def place (s : Schema) (part : Section) (key : String) (d : Definition) : Schema :=
  match part with
  | .version => { s with version := (d.text? "version").getD s.version }
  | .baseEvent => { s with baseEvent := some d }
  | .classes => { s with classes := s.classes.insert key d }
  | .objects => { s with objects := s.objects.insert key d }
  | .categories => { s with categories := s.categories.insert key d }
  | .profiles => { s with profiles := s.profiles.insert key d }
  | .extensions => { s with extensions := s.extensions.insert key d }
  | .attributes => { s with attributes := s.attributes.insert key d }
  | .types => { s with types := s.types.insert key d }

/-- The schema without definitions. -/
def blank : Schema := { version := "0.0.0" }

/-- The schema of some definitions at their locations; other locations do not count. -/
def ofEntries (entries : List (Location × Definition)) : Schema :=
  entries.foldl (fun s (l, d) =>
    match l.kind with
    | .schema part => s.place part l.name d
    | _ => s) blank

/-- The schema that a draft has come to. -/
def render (draft : Draft) : Schema := ofEntries draft.definitions.toList

/-! ## Documents -/

/-- The document that stands for a section. -/
def entriesToJson (entries : Entries) : Json :=
  .obj (entries.toList.map fun e => (e.1, e.2.toJson))

/-- The document that stands for a schema. -/
def toJson (s : Schema) : Json :=
  .obj ([
    ("version", .str s.version),
    ("classes", entriesToJson s.classes),
    ("objects", entriesToJson s.objects),
    ("categories", entriesToJson s.categories),
    ("profiles", entriesToJson s.profiles),
    ("extensions", entriesToJson s.extensions),
    ("dictionary",
      .obj [("attributes", entriesToJson s.attributes), ("types", entriesToJson s.types)])] ++
    match s.baseEvent with
    | some d => [("base_event", d.toJson)]
    | none => [])

/-- The section that a document stands for. -/
def entriesOfJson? (value : Json) : Option Entries := do
  let fields ← value.obj?
  let entries ← fields.mapM fun e => (Definition.ofJson? e.2).map (e.1, ·)
  return ExtTreeMap.ofList entries

/-- The schema that a document stands for; only the base event may be absent. -/
def ofJson? (value : Json) : Option Schema := do
  let r ← value.record? 8
  let dictionary ← (r 6 "dictionary").bind (Json.record? 2)
  return {
    version := ← r.required? 0 "version" Json.str?
    classes := ← r.required? 1 "classes" entriesOfJson?
    objects := ← r.required? 2 "objects" entriesOfJson?
    categories := ← r.required? 3 "categories" entriesOfJson?
    profiles := ← r.required? 4 "profiles" entriesOfJson?
    extensions := ← r.required? 5 "extensions" entriesOfJson?
    attributes := ← Json.Record.required? dictionary 0 "attributes" entriesOfJson?
    types := ← Json.Record.required? dictionary 1 "types" entriesOfJson?
    baseEvent := ← r.optional? 7 "base_event" none (Json.nullable? Definition.ofJson?) }

/-- The schema that a document stands for, or an error. -/
def ofJson (value : Json) : Except Error Schema :=
  match ofJson? value with
  | some s => .ok s
  | none => .error .malformedDocument

/-- The text of a schema. -/
def text (s : Schema) : OutputFormat → String
  | .pretty => s.toJson.pretty
  | .compact => s.toJson.compact

/-- The digest of the compact text of a schema. -/
def checksum (s : Schema) : String := Digest.checksum (Digest.bytesOf (s.text .compact))

/-- The usual name of a file that keeps a schema of this version. -/
def cacheFileName (s : Schema) : String := "schema-" ++ s.version ++ ".json"

/-- Whether two schemas are the same documents. -/
def same (s t : Schema) : Bool := s.toJson.same t.toJson

end Schema

end EventSchema
