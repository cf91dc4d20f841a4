import EventSchema.Text.Split

/-!
# Paths of slash-separated names

A path is shown as it was written, and compared by its components: repeated slashes, a slash at the
end and single dots inside do not count.  A component is a name or one of the three marks for the
root, the current directory and the parent directory; a name is neither empty nor a mark and holds
no slash, so components are told apart by their text.
-/

namespace EventSchema

/-- A path as written. -/
structure Path where
  text : String
deriving DecidableEq, Inhabited

namespace Path

/-- The component of the root. -/
def root : String := "/"

/-- The component of a leading single dot. -/
def current : String := "."

/-- The component of a double dot. -/
def above : String := ".."

/-- Whether a path starts at the root. -/
def isAbsolute (path : Path) : Bool := path.text.toList.head? == some '/'

/-- The components of a path. -/
def components (path : Path) : List String :=
  let parts := (Text.split '/' path.text.toList).map String.ofList
  let named := parts.drop 1 |>.filter fun p => p != "" && p != current
  match parts.head? with
  | some "" => if path.isAbsolute then root :: named else named
  | some first => first :: named
  | none => []

/-- Whether a component is a name. -/
def isName (component : String) : Bool :=
  component != root && component != current && component != above

/-- The names of a path, joined by slashes. -/
def slashed (components : List String) : String := "/".intercalate (components.filter isName)

/-- The last component, if it is a name. -/
def fileName? (components : List String) : Option String :=
  components.getLast?.filter isName

/-- A name split at its last dot, unless that is its first character. -/
def splitName (name : String) : String × Option String :=
  let reversed := name.toList.reverse
  let ending := reversed.takeWhile (· != '.')
  match reversed.dropWhile (· != '.') with
  | [] => (name, none)
  | [_] => (name, none)
  | _ :: before => (String.ofList before.reverse, some (String.ofList ending.reverse))

/-- The file name without its ending. -/
def stem? (components : List String) : Option String := (fileName? components).map (splitName · |>.1)

/-- The ending of the file name. -/
def ending? (components : List String) : Option String :=
  (fileName? components).bind (splitName · |>.2)

/-- The place that contains a place; neither the root nor an empty path has one. -/
def parent? (components : List String) : Option (List String) :=
  match components.getLast? with
  | none => none
  | some last => if last = root then none else some components.dropLast

/-- All heads of a list, the whole list first and the empty one last. -/
def heads : List String → List (List String)
  | [] => [[]]
  | c :: rest => (heads rest).map (c :: ·) ++ [[]]

/-- A place, the place that contains it, and so on outwards. -/
def ancestors (components : List String) : List (List String) :=
  (heads components).filter fun head => !head.isEmpty || components.head? != some root

/-- A path seen from a place: an absolute path is taken as it is. -/
def join (place : List String) (path : List String) : List String :=
  match path with
  | [] => place
  | first :: rest =>
    if first = root then path
    else if first = current ∧ place ≠ [] then place ++ rest
    else place ++ path

/-- The part behind the directory of an extension. -/
def insideExtension? : List String → Option (List String)
  | "extensions" :: _ :: rest => some rest
  | _ => none

end Path

end EventSchema
