import EventSchema.Location
import EventSchema.Path
import EventSchema.Phase
import EventSchema.Text.Quoted

/-!
# Errors

An error says what went wrong as data; its wording is one function.
-/

namespace EventSchema

/-- What kind of value a document is, in words. -/
def Json.shape : Json → String
  | .null => "null"
  | .bool _ => "a boolean"
  | .num _ => "a number"
  | .str _ => "a string"
  | .arr _ => "an array"
  | .obj _ => "an object"

/-- What is wrong with a file. -/
inductive Defect where
  /-- The text of the file is not JSON. -/
  | notJson
  /-- The document of the file is no object. -/
  | notAnObject (found : Json)
  /-- An entry of the file is no object. -/
  | entryNotAnObject (entry : Location)
  /-- Another file defines the same location. -/
  | duplicate (entry : Location) (existing : Path)
  /-- The version of the schema is none. -/
  | invalidVersion (version : String)
  /-- An extension is declared outside of the directory of one. -/
  | misplacedExtension
  /-- The place of the file means nothing. -/
  | unrecognizedPath
  /-- The root of a source tree is no directory. -/
  | rootNotADirectory

/-- The wording of a defect. -/
def Defect.reason : Defect → String
  | .notJson => "failed to parse JSON"
  | .notAnObject found => "expected a JSON object, found " ++ found.shape
  | .entryNotAnObject entry => entry.text ++ " is not a JSON object"
  | .duplicate entry existing => entry.text ++ " is already defined by " ++ existing.text
  | .invalidVersion version => "invalid version " ++ Text.quoted version
  | .misplacedExtension => "extension.json outside of an extension directory"
  | .unrecognizedPath => "unrecognized repository path"
  | .rootNotADirectory => "repository root is not a directory"

/-- Why a compilation, or reading its input, stops. -/
inductive Error where
  /-- A location has no definition. -/
  | notFound (location : Location)
  /-- Some records inherit from themselves. -/
  | cyclicInheritance (phase : Phase) (cycle : List Location)
  /-- A step came before the one it needs. -/
  | outOfOrder (step : Step) (progress : Progress)
  /-- Some planned entries of the schema have no definition. -/
  | incompleteSchema (missing : List Location) (failures : List String)
  /-- A file of the repository is defective. -/
  | invalidDefinition (path : Path) (defect : Defect)
  /-- A document is not of the expected form. -/
  | malformedDocument
  /-- The settings are not of the expected form. -/
  | malformedSettings

/-- The wording of an error. -/
def Error.message : Error → String
  | .notFound location => "Definition not found: " ++ location.text
  | .cyclicInheritance phase cycle =>
    "Cyclic inheritance in " ++ phase.word ++ " phase: " ++
      " -> ".intercalate (cycle.map Location.text)
  | .outOfOrder step progress =>
    "Cannot " ++ step.word ++ " a compilation in state " ++ progress.word
  | .incompleteSchema missing failures =>
    "Incomplete schema: " ++ toString missing.length ++
      " entities never reached the schema phase (" ++ "; ".intercalate failures ++ ")"
  | .invalidDefinition path defect =>
    "Invalid definition " ++ path.text ++ ": " ++ defect.reason
  | .malformedDocument => "Malformed document"
  | .malformedSettings => "Malformed settings"

end EventSchema
