import EventSchema.Json.Numeral
import EventSchema.Text.Hexadecimal
import EventSchema.Toml.Moment
import EventSchema.Toml.Value
import EventSchema.Word

/-!
# Scalars without quotes

An integer has 64 bits and may be written to the base of ten, sixteen, eight or two.  A binary
number is the one nearest to its decimal.  Underscores may stand between digits.
-/

namespace EventSchema

namespace Toml

/-- Digits of a kind without the underscores between them; there is at least one. -/
def ungrouped? (isDigit : Char → Bool) : List Char → Option (List Char)
  | [] => none
  | [c] => if isDigit c then some [c] else none
  | c :: '_' :: rest => if isDigit c then (ungrouped? isDigit rest).map (c :: ·) else none
  | c :: rest => if isDigit c then (ungrouped? isDigit rest).map (c :: ·) else none

/-- The value of digits to a base. -/
def valueOf (base : Nat) (digits : List Char) : Nat :=
  digits.foldl (fun n c => n * base + (Text.hexDigit? c).getD 0) 0

/-- An integer written to a base that is marked in front of it. -/
def based? (base : Nat) (digits : List Char) : Option Int :=
  let isDigit (c : Char) : Bool := ((Text.hexDigit? c).map fun d => decide (d < base)).getD false
  (ungrouped? isDigit digits).bind fun digits => Word.fit? (valueOf base digits)

/-- The digits of a whole number: there is no zero in front of others. -/
def whole? (digits : List Char) : Option (List Char) :=
  (ungrouped? Char.isDigit digits).filter Number.isWhole

/-- A text without its sign, and whether that is a minus. -/
def unsigned : List Char → Bool × List Char
  | '-' :: rest => (true, rest)
  | '+' :: rest => (false, rest)
  | rest => (false, rest)

/-- The integer that a text stands for. -/
def integer? : List Char → Option Int
  | '0' :: 'x' :: rest => based? 16 rest
  | '0' :: 'o' :: rest => based? 8 rest
  | '0' :: 'b' :: rest => based? 2 rest
  | text =>
    let (negative, digits) := unsigned text
    (whole? digits).bind fun digits =>
      let n : Int := valueOf 10 digits
      Word.fit? (if negative then -n else n)

/-- The exponent behind the digits of a number, zero if there is none. -/
def exponent? : List Char → Option Int
  | [] => some 0
  | c :: rest =>
    if c = 'e' ∨ c = 'E' then
      let (negative, digits) := unsigned rest
      (ungrouped? Char.isDigit digits).map fun digits =>
        let n : Int := valueOf 10 digits
        if negative then -n else n
    else none

/-- A number that is out of range is refused if it is positive, and infinite if it is negative. -/
def nearest? (negative : Bool) (digits fraction : List Char) (exponent : Int) : Option Value :=
  match Binary64.nearest? negative (valueOf 10 (digits ++ fraction)) (exponent - fraction.length) with
  | some x => some (.real x)
  | none => if negative then some (.infinite true) else none

/-- The binary number that a text stands for: it has a fraction or an exponent. -/
def real? (text : List Char) : Option Value :=
  let (negative, text) := unsigned text
  let isGrouped (c : Char) : Bool := c.isDigit || c == '_'
  let (digits, rest) := text.span isGrouped
  (whole? digits).bind fun digits =>
    match rest with
    | [] => none
    | '.' :: rest =>
      let (fraction, rest) := rest.span isGrouped
      (ungrouped? Char.isDigit fraction).bind fun fraction =>
        (exponent? rest).bind (nearest? negative digits fraction)
    | rest => (exponent? rest).bind (nearest? negative digits [])

/-- The value that a word stands for. -/
def ofWord? (text : List Char) : Option Value :=
  if text = "true".toList then some (.flag true)
  else if text = "false".toList then some (.flag false)
  else
    let (negative, word) := unsigned text
    if word = "inf".toList then some (.infinite negative)
    else if word = "nan".toList then some .nan
    else none

/-- The scalar that a text stands for. -/
def scalar? (text : List Char) : Option Value :=
  (ofWord? text).orElse fun _ =>
    ((Moment.ofText? text).map .moment).orElse fun _ =>
      (real? text).orElse fun _ => (integer? text).map .integer

end Toml

end EventSchema
