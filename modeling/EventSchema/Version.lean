import EventSchema.Text.Split

/-!
# Version texts

A version is three numbers, then optionally a pre-release behind a hyphen and a build behind a plus
sign, both made of identifiers between dots.
-/

namespace EventSchema

namespace Version

/-- Whether a character may stand in an identifier. -/
def isIdentifierChar (c : Char) : Bool := c.isAlphanum || c == '-'

/-- Whether digits start with a zero that more digits follow. -/
def hasLeadingZero : List Char → Bool
  | '0' :: _ :: _ => true
  | _ => false

/-- Whether a text is a number of 64 bits without a leading zero. -/
def isNumber (text : List Char) : Bool :=
  !text.isEmpty && text.all Char.isDigit && !hasLeadingZero text &&
    text.foldl (fun n c => n * 10 + (c.toNat - '0'.toNat)) 0 < 0x10000000000000000

/-- Whether a text is an identifier of a build. -/
def isBuildIdentifier (text : List Char) : Bool := !text.isEmpty && text.all isIdentifierChar

/-- Whether a text is an identifier of a pre-release: digits alone have no leading zero. -/
def isPreIdentifier (text : List Char) : Bool :=
  isBuildIdentifier text && !(text.all Char.isDigit && hasLeadingZero text)

/-- A text up to a character, and what follows it if the character occurs. -/
def cut (separator : Char) (text : List Char) : List Char × Option (List Char) :=
  match text.dropWhile (· != separator) with
  | [] => (text, none)
  | _ :: rest => (text.takeWhile (· != separator), some rest)

/-- Whether a text is a version. -/
def isValid (text : String) : Bool :=
  let (front, build) := cut '+' text.toList
  let (core, pre) := cut '-' front
  let numbers := Text.split '.' core
  numbers.length == 3 && numbers.all isNumber &&
    pre.all (fun p => (Text.split '.' p).all isPreIdentifier) &&
    build.all (fun b => (Text.split '.' b).all isBuildIdentifier)

end Version

end EventSchema
