import EventSchema.Toml.Token

/-!
# Tokens grouped by brackets

What stands in brackets is one item of its surroundings, so that a line end or a comma inside of
them does not separate anything outside.
-/

namespace EventSchema

namespace Toml

/-- A token outside of brackets, or what stands in square or curly brackets. -/
inductive Outline where
  | leaf (token : Token)
  | square (items : List Outline)
  | curly (items : List Outline)

/-- A group that is open: whether its brackets are curly, and what came before it, last first. -/
structure Opened where
  isCurly : Bool
  before : List Outline

/-- An outline in part: the open groups, innermost first, and the items of the innermost one. -/
structure Outlining where
  opened : List Opened
  items : List Outline

/-- One token. -/
def Outlining.step? (o : Outlining) (token : Token) : Option Outlining :=
  match token, o.opened with
  | .mark '[', opened => some ⟨⟨false, o.items⟩ :: opened, []⟩
  | .mark '\x7b', opened => some ⟨⟨true, o.items⟩ :: opened, []⟩
  | .mark ']', ⟨false, before⟩ :: opened => some ⟨opened, .square o.items.reverse :: before⟩
  | .mark '\x7d', ⟨true, before⟩ :: opened => some ⟨opened, .curly o.items.reverse :: before⟩
  | .mark ']', _ => none
  | .mark '\x7d', _ => none
  | token, opened => some ⟨opened, .leaf token :: o.items⟩

/-- The outline of some tokens. -/
def outline? (tokens : List Token) : Option (List Outline) :=
  match tokens.foldlM Outlining.step? ⟨[], []⟩ with
  | some ⟨[], items⟩ => some items.reverse
  | _ => none

namespace Outline

/-- Whether an item is a given character. -/
def isMark (c : Char) : Outline → Bool
  | .leaf (.mark d) => d == c
  | _ => false

/-- Whether an item is a line end. -/
def isNewline : Outline → Bool
  | .leaf .newline => true
  | _ => false

/-- Whether an item is blank. -/
def isBlank : Outline → Bool
  | .leaf (.blank _) => true
  | _ => false

/-- The text of an item that may be part of a scalar without quotes. -/
def bareText? : Outline → Option (List Char)
  | .leaf (.word text) => some text.toList
  | .leaf (.mark '.') => some ['.']
  | .leaf (.blank c) => some [c]
  | _ => none

end Outline

/-- The pieces of a list between separators. -/
def pieces (isSeparator : Outline → Bool) : List Outline → List (List Outline)
  | [] => [[]]
  | o :: rest =>
    if isSeparator o then [] :: pieces isSeparator rest
    else (pieces isSeparator rest).modifyHead (o :: ·)

/-- A list without such items at its ends. -/
def trim (isSpace : Outline → Bool) (items : List Outline) : List Outline :=
  ((items.dropWhile isSpace).reverse.dropWhile isSpace).reverse

/-- A list without blanks at its ends. -/
def trimBlanks : List Outline → List Outline := trim Outline.isBlank

/-- A list without blanks and line ends at its ends. -/
def trimLines : List Outline → List Outline := trim fun o => o.isBlank || o.isNewline

end Toml

end EventSchema
