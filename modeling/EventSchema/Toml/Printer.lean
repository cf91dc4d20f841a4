/-!
# Text of TOML documents

A string is written in the plainest quotes that need no escape: double ones if it has neither
quotes nor backslashes nor line ends, else single ones, else three double ones, else three single
ones.  Where nothing helps, it is escaped in double quotes.
-/

namespace EventSchema

namespace Toml

/-- The quotes around a string. -/
inductive Form where
  | double
  | single
  | tripleDouble
  | tripleSingle
deriving DecidableEq

/-- Whether a string can only be written with escapes. -/
def needsEscapes (text : List Char) : Bool :=
  text.any fun c => c != '\t' && c != '\n' && (c.toNat < 0x20 || c.toNat == 0x7F)

/-- The length of the longest run of a character, given the length of the one that is going on. -/
def longestRun (c : Char) : Nat → List Char → Nat
  | run, [] => run
  | run, d :: rest => if d = c then longestRun c (run + 1) rest else max run (longestRun c 0 rest)

/-- The quotes for a string. -/
def Form.of (text : List Char) : Form :=
  let escapes := needsEscapes text
  let plain := !escapes && !text.contains '\\'
  let hasLines := text.contains '\n'
  let doubles := longestRun '\x22' 0 text
  let singles := longestRun '\x27' 0 text
  if plain && doubles == 0 && !hasLines then .double
  else if !escapes && singles == 0 && !hasLines then .single
  else if plain && doubles ≤ 2 then .tripleDouble
  else if !escapes && singles ≤ 2 then .tripleSingle
  else if hasLines then .tripleDouble
  else .double

/-- The code point of a character in four hexadecimal digits. -/
def fourDigits (c : Char) : List Char :=
  let digits := (Nat.toDigits 16 c.toNat).map Char.toUpper
  List.replicate (4 - digits.length) '0' ++ digits

/-- A character that is no quote, as written in double quotes, on one line or not. -/
def escape (oneLine : Bool) (c : Char) : List Char :=
  if c = '\x08' then ['\\', 'b']
  else if c = '\t' then ['\\', 't']
  else if c = '\n' then if oneLine then ['\\', 'n'] else ['\n']
  else if c = '\x0c' then ['\\', 'f']
  else if c = '\r' then ['\\', 'r']
  else if c = '\\' then ['\\', '\\']
  else if c.toNat < 0x20 ∨ c.toNat = 0x7F then '\\' :: 'u' :: fourDigits c
  else [c]

/-- A string with escapes; up to {lit}`free` quotes in a row stand for themselves. -/
def escapeAll (oneLine : Bool) (free : Nat) : Nat → List Char → List Char
  | _, [] => []
  | run, c :: rest =>
    if c = '\x22' then
      if run < free then c :: escapeAll oneLine free (run + 1) rest
      else '\\' :: c :: escapeAll oneLine free 0 rest
    else escape oneLine c ++ escapeAll oneLine free 0 rest

/-- A string in quotes. -/
def quote (text : String) : String :=
  let chars := text.toList
  let lineEnd := if chars.contains '\n' then ['\n'] else []
  let three (c : Char) : List Char := [c, c, c]
  String.ofList <|
    match Form.of chars with
    | .double => '\x22' :: (escapeAll true 0 0 chars ++ ['\x22'])
    | .single => '\x27' :: (chars ++ ['\x27'])
    | .tripleDouble => three '\x22' ++ lineEnd ++ escapeAll false 2 0 chars ++ three '\x22'
    | .tripleSingle => three '\x27' ++ lineEnd ++ chars ++ three '\x27'

/-- A list of strings; two or more stand on lines of their own. -/
def writeList (items : List String) : String :=
  match items with
  | [] => "[]"
  | [item] => "[" ++ quote item ++ "]"
  | _ => "[\n" ++ String.join (items.map fun item => "    " ++ quote item ++ ",\n") ++ "]"

/-- A truth value. -/
def writeFlag (b : Bool) : String := if b then "true" else "false"

/-- A table with values that are written already. -/
def writeTable (name : String) (entries : List (String × String)) : String :=
  "[" ++ name ++ "]\n" ++ String.join (entries.map fun e => e.1 ++ " = " ++ e.2 ++ "\n")

/-- Tables, one after another. -/
def writeTables (tables : List String) : String := "\n".intercalate tables

end Toml

end EventSchema
