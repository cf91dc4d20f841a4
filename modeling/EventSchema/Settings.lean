import EventSchema.Error
import EventSchema.Schema
import EventSchema.Options
import EventSchema.Toml.Printer
import EventSchema.Toml.Reader

/-!
# Settings

Settings say where the source tree is, what a compilation takes into account and how a schema is
laid out.  They are kept in a TOML file, which is read leniently: names and choices count without
case, and scalars are converted.
-/

namespace EventSchema

/-- Settings of the program. -/
structure Settings where
  /-- The root of the source tree. -/
  repository : Path := ⟨"."⟩
  compile : Options := {}
  format : OutputFormat := .pretty

namespace Settings

/-- The path of the source tree, seen from the working directory. -/
def repositoryPath (s : Settings) (workingDirectory : Path) : Path :=
  if s.repository.isAbsolute then s.repository
  else ⟨workingDirectory.text ++ "/" ++ s.repository.text⟩

/-! ## Reading -/

/-- How the parts of settings are read from values of some kind. -/
structure Readers (α : Type) where
  record : Nat → α → Option (Nat → String → Option α)
  path : α → Option String
  format : α → Option OutputFormat
  options : Options.Readers α

/-- The settings that a value stands for; whatever is absent takes its default. -/
def ofValue? {α : Type} (readers : Readers α) (value : α) : Option Settings := do
  let orElse {β : Type} (part : Option α) (fallback : β) (read : α → Option β) : Option β :=
    match part with
    | none => some fallback
    | some v => read v
  let base : Settings := {}
  let part ← readers.record 3 value
  let repository ← orElse (part 0 "repository") base.repository fun v => do
    let field ← readers.record 1 v
    orElse (field 0 "path") base.repository fun text => (readers.path text).map Path.mk
  let compile ← orElse (part 1 "compile") base.compile fun v =>
    (readers.record 8 v).bind (Options.ofFields? readers.options)
  let format ← orElse (part 2 "output") base.format fun v => do
    let field ← readers.record 1 v
    orElse (field 0 "format") base.format readers.format
  return { repository, compile, format }

/-- The layout that a document names, by a word or as the only name in an object. -/
def formatOfJson? : Json → Option OutputFormat
  | .str word => OutputFormat.ofWord? word
  | .obj [(word, .null)] => OutputFormat.ofWord? word
  | _ => none

/-- How settings are read from documents: nothing is converted. -/
def jsonReaders : Readers Json where
  record := Json.record?
  path := Json.str?
  format := formatOfJson?
  options := Options.jsonReaders

/-- The settings that a document stands for. -/
def ofJson (value : Json) : Except Error Settings :=
  match ofValue? jsonReaders value with
  | some s => .ok s
  | none => .error .malformedSettings

/-- How settings are read from a file: scalars are converted. -/
def tomlReaders : Readers Toml.Value where
  record := fun _ => Toml.Value.record?
  path := Toml.Value.text?
  format := fun v => v.choice?.bind OutputFormat.ofWord?
  options := {
    flag := Toml.Value.flag?
    names := Toml.Value.texts?
    nullable := fun v => v.texts?.map some }

/-- The entry of a table inside of others, whose names come first. -/
def nested (value : Toml.Value) : List String → Toml.Table
  | [] => []
  | [name] => [(name, value)]
  | name :: rest => [(name, .table (nested value rest))]

/-- An entry of the file.  A name in quotes with points between plain names is a path as well. -/
def entryAt (name : String) (value : Toml.Value) : Toml.Table :=
  let parts := Text.split '.' name.toList
  if parts.all fun part => !part.isEmpty && part.all Toml.isBare then
    nested value (parts.map String.ofList)
  else [(name, value)]

/-- The settings in the text of a file. -/
def ofToml (text : String) : Except Error Settings :=
  let read : Option Settings := do
    let entries ← Toml.read? (String.ofList (Toml.withoutMark text.toList))
    let table := entries.foldl (fun table e => Toml.Table.over table (entryAt e.1 e.2)) []
    ofValue? tomlReaders (.table table)
  match read with
  | some s => .ok s
  | none => .error .malformedSettings

/-! ## Writing -/

/-- The document that stands for settings. -/
def toJson (s : Settings) : Json :=
  .obj [
    ("repository", .obj [("path", .str s.repository.text)]),
    ("compile", s.compile.toJson),
    ("output", .obj [("format", .str s.format.word)])]

/-- The text of the file that keeps settings; options that are absent are left out. -/
def toToml (s : Settings) : String :=
  let set (name : String) (names : NameSet) : List (String × String) :=
    [(name, Toml.writeList names.toList)]
  let optional (name : String) (names : Option NameSet) : List (String × String) :=
    names.elim [] (set name)
  let flag (name : String) (b : Bool) : List (String × String) := [(name, Toml.writeFlag b)]
  let o := s.compile
  Toml.writeTables [
    Toml.writeTable "repository" [("path", Toml.quote s.repository.text)],
    Toml.writeTable "compile" (
      optional "enabled_extensions" o.enabledExtensions ++
      set "ignored_extensions" o.ignoredExtensions ++
      optional "enabled_profiles" o.enabledProfiles ++
      set "ignored_profiles" o.ignoredProfiles ++
      [("profile_order", Toml.writeList o.profileOrder)] ++
      flag "set_observable" o.setObservable ++
      flag "prefix_extensions" o.prefixExtensions ++
      flag "set_object_types" o.setObjectTypes),
    Toml.writeTable "output" [("format", Toml.quote s.format.word)]]

end Settings

end EventSchema
