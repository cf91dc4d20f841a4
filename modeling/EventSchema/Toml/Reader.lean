import EventSchema.Toml.Document
import EventSchema.Toml.Outline
import EventSchema.Toml.Scalar

/-!
# Documents from TOML text
-/

namespace EventSchema

namespace Toml

/-- Values may be nested less deep than this, and dotted names have fewer parts. -/
def depthLimit : Nat := 80

/-- The parts of a dotted name, the last one apart. -/
def name? (items : List Outline) : Option (List String × String) := do
  let parts ← (pieces (Outline.isMark '.') items).mapM fun piece =>
    match trimBlanks piece with
    | [.leaf (.word text)] => if text.toList.all isBare then some text else none
    | [.leaf (.quoted text)] => some text
    | _ => none
  if parts.length < depthLimit then return (parts.dropLast, ← parts.getLast?) else none

/-- A dotted name, and what is assigned to it. -/
def pair? (items : List Outline) : Option ((List String × String) × List Outline) :=
  match items.span fun o => !o.isMark '=' with
  | (left, _ :: right) => (name? left).map fun name => (name, trimBlanks right)
  | (_, []) => none

/-- The pieces of a list of values; a comma may follow the last one. -/
def listPieces (items : List Outline) : List (List Outline) :=
  let all := (pieces (Outline.isMark ',') items).map trimLines
  if all.getLast?.any List.isEmpty then all.dropLast else all

/-- The pieces of a table on one line. -/
def tablePieces (items : List Outline) : List (List Outline) :=
  if (trimBlanks items).isEmpty then [] else pieces (Outline.isMark ',') items

/-- The value that some items stand for, nested up to a depth. -/
def value? : Nat → List Outline → Option Value
  | _, [.leaf (.quoted text)] => some (.text text)
  | _, [.leaf (.block text)] => some (.text text)
  | 0, [.square _] => none
  | 0, [.curly _] => none
  | depth + 1, [.square items] => ((listPieces items).mapM (value? depth)).map .list
  | depth + 1, [.curly items] => do
    let nodes ← (tablePieces items).foldlM (fun nodes piece => do
      let ((path, name), right) ← pair? piece
      Nodes.assign path name (← value? depth right) nodes) []
    return .table (Node.toEntries nodes)
  | _, items => (items.mapM Outline.bareText?).bind fun texts => scalar? texts.flatten

/-- The statement on a line; an empty line has none. -/
def statement? (line : List Outline) : Option (Option Statement) :=
  match trimBlanks line with
  | [] => some none
  | [.square [.square items]] => (name? items).map fun name => some (.tables name.1 name.2)
  | [.square items] => (name? items).map fun name => some (.table name.1 name.2)
  | items => do
    let ((path, name), right) ← pair? items
    return some (.pair path name (← value? (depthLimit - 1) right))

/-- A text without a byte order mark in front. -/
def withoutMark : List Char → List Char
  | '\ufeff' :: rest => rest
  | text => text

/-- The document that a text stands for. -/
def read? (text : String) : Option Table := do
  let items ← outline? (← tokens? (withoutMark text.toList))
  let statements ← (pieces Outline.isNewline items).mapM statement?
  ofStatements? (statements.filterMap id)

end Toml

end EventSchema
