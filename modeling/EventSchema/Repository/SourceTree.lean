import EventSchema.Digest.Fingerprint
import EventSchema.Json.Reader
import EventSchema.Repository.Basic

/-!
# Source trees

A source tree is a directory of files.  Its definitions are the JSON files below the directories for
records, events, profiles, fragments and extensions, and the dictionary, the categories and the
version at the top.  They are read directory by directory in the order of names, which is the order
of their components, and the first defective file decides what is wrong with the tree.
-/

namespace EventSchema

open Std

/-- The files below a root, by the components of their place. -/
structure SourceTree where
  /-- The root as shown in errors. -/
  root : Path
  /-- The bytes of every file; nothing if the root is no directory. -/
  files : Option (ExtTreeMap (List String) (List UInt8))

/-- The document that bytes stand for. -/
def Json.ofBytes? (bytes : List UInt8) : Option Json :=
  (String.fromUTF8? ⟨bytes.toArray⟩).bind Json.read?

namespace SourceTree

/-- The files at the top that hold definitions. -/
def topFiles : List String := ["dictionary.json", "categories.json", "version.json"]

/-- The directories at the top that hold definitions. -/
def topDirectories : List String := ["objects", "events", "profiles", "includes", "extensions"]

/-- Whether a file at a place is read. -/
def holdsDefinitions (place : List String) : Bool :=
  match place with
  | [] => false
  | [name] => topFiles.contains name
  | top :: _ => topDirectories.contains top && Path.ending? place == some "json"

/-- The path of a place, seen from the root. -/
def pathOf (place : List String) : Path := ⟨"/".intercalate place⟩

/-- A file at a place. -/
abbrev File : Type := List String × List UInt8

/-- The files that are read, in order. -/
def selected (files : ExtTreeMap (List String) (List UInt8)) : List File :=
  files.toList.filter fun file => holdsDefinitions file.1

/-- Add what a file defines. -/
def readFile (r : Repository) (file : File) : Except Error Repository :=
  match Json.ofBytes? file.2 with
  | some value => r.insertFiles [(pathOf file.1, value)]
  | none => .error (.invalidDefinition (pathOf file.1) .notJson)

/-- The digest of the files that are read. -/
def fingerprint (files : ExtTreeMap (List String) (List UInt8)) : String :=
  Digest.fingerprint ((selected files).map fun file =>
    (Digest.bytesOf (pathOf file.1).text, file.2))

/-- The repository of a source tree. -/
def load (tree : SourceTree) : Except Error Repository :=
  match tree.files with
  | none => .error (.invalidDefinition tree.root .rootNotADirectory)
  | some files => do
    let r ← (selected files).foldlM readFile .empty
    return { r with fingerprint := some (fingerprint files) }

end SourceTree

end EventSchema
