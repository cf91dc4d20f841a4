import EventSchema.Definition
import EventSchema.Error
import EventSchema.Options
import EventSchema.Version

/-!
# Repositories

A repository holds the authored definitions in one table, the files they came from in another, and
the locations of files with a single definition in a third.  The place of a file decides what it
defines:

- a file below {lit}`objects`, {lit}`profiles` or {lit}`includes` is one object, profile or fragment;
- a file in {lit}`events` is an event, and one in a directory of it an event class;
- {lit}`dictionary.json` hosts attributes and types, {lit}`categories.json` categories;
- {lit}`version.json` is a file of its own;
- {lit}`extension.json` in a directory of {lit}`extensions` declares the extension of that
  directory, which owns whatever the other files there define.

Main results:

- {lit}`Repository.get?_empty`: nothing is defined at first.
- {lit}`Repository.insert_cases`: what an insertion may do.
- {lit}`Repository.get?_insert`: an insertion defines one location and leaves the others.
-/

namespace EventSchema

open Std

/-- A definition and the file it came from. -/
structure Source where
  definition : Definition
  path : Path

/-- Authored definitions. -/
@[ext]
structure Repository where
  /-- The definitions by location. -/
  definitions : LocationMap Definition := ∅
  /-- The file that each location was read from. -/
  paths : LocationMap Path := ∅
  /-- The location of each file with a single definition, by the components of its path. -/
  files : ExtTreeMap (List String) Location := ∅
  /-- The digest of all files, when they were read from a source tree. -/
  fingerprint : Option String := none

namespace Repository

/-- A repository without definitions. -/
def empty : Repository := {}

/-! ## Queries -/

/-- The definition at a location. -/
def get? (r : Repository) (l : Location) : Option Definition := r.definitions[l]?

/-- Whether a location has a definition. -/
def contains (r : Repository) (l : Location) : Bool := r.definitions.contains l

/-- All locations, in order. -/
def locations (r : Repository) : List Location := r.definitions.keys

/-- The number of definitions. -/
def size (r : Repository) : Nat := r.definitions.size

/-- The file a location was read from. -/
def sourcePath? (r : Repository) (l : Location) : Option Path := r.paths[l]?

/-- The definitions with the files they came from, where both are known. -/
def sources (r : Repository) : LocationMap Source :=
  r.definitions.filterMap fun l d => r.paths[l]?.map fun path => ⟨d, path⟩

/-- The location hosted by a file with a single definition. -/
def locationAt? (r : Repository) (components : List String) : Option Location :=
  r.files[components]?

/-- The names of all locations of a kind, in order. -/
def namesOf (r : Repository) (kind : Kind) : NameSet :=
  ExtTreeSet.ofList ((r.locations.filter (·.kind == kind)).map (·.name))

@[simp]
theorem get?_empty (l : Location) : empty.get? l = none := by
  simp [get?, empty]

/-! ## Insertion -/

/-- Define a location, unless a file has been recorded for it already. -/
def insert (r : Repository) (path : Path) (l : Location) (d : Definition) :
    Repository × Option Defect :=
  match r.paths[l]? with
  | some existing => (r, some (.duplicate l existing))
  | none =>
    ({ r with paths := r.paths.insert l path, definitions := r.definitions.insert l d }, none)

/-- An insertion is refused, and changes nothing, or writes both tables. -/
theorem insert_cases (r : Repository) (path : Path) (l : Location) (d : Definition) :
    (∃ existing, r.sourcePath? l = some existing ∧
      r.insert path l d = (r, some (.duplicate l existing))) ∨
    r.sourcePath? l = none ∧ r.insert path l d = ({ r with
      paths := r.paths.insert l path
      definitions := r.definitions.insert l d }, none) := by
  unfold insert sourcePath?
  cases r.paths[l]? with
  | some existing => exact Or.inl ⟨existing, rfl, rfl⟩
  | none => exact Or.inr ⟨rfl, rfl⟩

theorem get?_insert {r next : Repository} {path : Path} {l : Location} {d : Definition}
    (h : r.insert path l d = (next, none)) (k : Location) :
    next.get? k = if l = k then some d else r.get? k := by
  obtain ⟨existing, -, heq⟩ | ⟨-, heq⟩ := r.insert_cases path l d
  · cases heq.symm.trans h
  · cases heq.symm.trans h
    by_cases hk : l = k
    · subst hk
      simp [get?]
    · simp [get?, ExtTreeMap.getElem?_insert, hk]

/-- Something a file may define: a definition, or an entry that is none. -/
abbrev Entry : Type := Location × Except Defect Definition

/-- What a file defines. -/
inductive Contents where
  /-- One definition, which is the whole file. -/
  | single (location : Location) (definition : Definition)
  /-- Some entries of the file, in order. -/
  | entries (list : List Entry)

/-- Define entries one after another up to the first that cannot be. -/
def insertEntries (r : Repository) (path : Path) : List Entry → Repository × Option Defect
  | [] => (r, none)
  | (_, .error defect) :: _ => (r, some defect)
  | (l, .ok d) :: rest =>
    match r.insert path l d with
    | (next, some defect) => (next, some defect)
    | (next, none) => next.insertEntries path rest

/-- Define the location of a file that is one definition, and register the file. -/
def insertSingle (r : Repository) (path : Path) (l : Location) (d : Definition) :
    Repository × Option Defect :=
  match r.insert path l d with
  | (next, some defect) => (next, some defect)
  | (next, none) => ({ next with files := next.files.insert path.components l }, none)

/-! ## What a file defines -/

/-- A location in core or in an extension. -/
def owned (extension : Option String) (l : Location) : Location :=
  match extension with
  | some e => l.inExtension e
  | none => l

/-- A value of a file as a definition. -/
def entry (l : Location) (value : Json) : Entry :=
  match Definition.ofJson? value with
  | some d => (l, .ok d)
  | none => (l, .error (.entryNotAnObject l))

/-- The fields of a field that holds an object. -/
def objectAt (fields : Fields) (key : String) : Fields :=
  ((Fields.get? fields key).bind Json.obj?).getD []

/-- The attributes of a dictionary, then its types. -/
def dictionaryEntries (extension : Option String) (fields : Fields) : List Entry :=
  let attributes := objectAt fields "attributes"
  let types := objectAt (objectAt fields "types") "attributes"
  attributes.map (fun e => entry (owned extension (.inCore .dictionary e.1)) e.2) ++
    types.map (fun e => entry (owned extension (.inCore .type e.1)) e.2)

/-- A category, named by its key unless it states a name. -/
def categoryEntry (extension : Option String) (name : String) (value : Json) : Entry :=
  let (l, read) := entry (owned extension (.inCore .category name)) value
  (l, read.map fun d => if d.contains "name" then d else d.set "name" (.str name))

/-- What a file at a place defines, or why it defines nothing. -/
def contents (extension : Option String) (place : List String) (fields : Fields) :
    Except Defect Contents :=
  let whole (l : Location) : Except Defect Contents :=
    .ok (.single (owned extension l) ⟨fields⟩)
  let named (kind : Kind) : Except Defect Contents :=
    let declared := (Fields.get? fields "name").bind Json.str?
    whole (.inCore kind (declared.getD ((Path.stem? place).getD "")))
  match place with
  | ["dictionary.json"] => .ok (.entries (dictionaryEntries extension fields))
  | ["categories.json"] =>
    .ok (.entries ((objectAt fields "attributes").map fun e => categoryEntry extension e.1 e.2))
  | ["extension.json"] =>
    match extension with
    | some e => .ok (.single (.inCore .extension e) ⟨fields⟩)
    | none => .error .misplacedExtension
  | ["version.json"] =>
    match (Fields.get? fields "version").bind Json.str? with
    | some version =>
      if Version.isValid version then whole (.inCore .file (Path.slashed place))
      else .error (.invalidVersion version)
    | none => whole (.inCore .file (Path.slashed place))
  | "objects" :: _ :: _ => named .object
  | ["events", _] => named .event
  | "events" :: _ :: _ :: _ => named .eventClass
  | "profiles" :: _ :: _ => named .profile
  | "includes" :: _ :: _ => whole (.inCore .file (Path.slashed place))
  | _ => .error .unrecognizedPath

/-- The extension that owns a place, and the place inside of it. -/
def ownerOf (components : List String) : Option String × List String :=
  match components with
  | "extensions" :: extension :: rest => (some extension, rest)
  | _ => (none, components)

/-- Add what a file defines.  What came before a defect stays. -/
def insertFile (r : Repository) (path : Path) (value : Json) : Repository × Option Defect :=
  match value with
  | .obj fields =>
    let (extension, place) := ownerOf path.components
    match contents extension place fields with
    | .error defect => (r, some defect)
    | .ok (.entries list) => r.insertEntries path list
    | .ok (.single l d) => r.insertSingle path l d
  | found => (r, some (.notAnObject found))

/-- Add what some files define, up to the first that is defective. -/
def insertFiles (r : Repository) : List (Path × Json) → Except Error Repository
  | [] => .ok r
  | (path, value) :: rest =>
    match r.insertFile path value with
    | (_, some defect) => .error (.invalidDefinition path defect)
    | (next, none) => next.insertFiles rest

/-- The repository of some files. -/
def ofFiles (files : List (Path × Json)) : Except Error Repository := empty.insertFiles files

end Repository

end EventSchema
