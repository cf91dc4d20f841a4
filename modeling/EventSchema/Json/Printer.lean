import EventSchema.Json.Numeral

/-!
# JSON text

Compact text has no spaces.  Indented text puts each item on a line of its own, two spaces deeper
than its container, and writes empty containers closed.  A string escapes the quote, the backslash
and the characters below U+0020, and nothing else.
-/

namespace EventSchema

namespace Json

/-- The lower-case hexadecimal digit of a value below sixteen. -/
def hexDigit (n : Nat) : Char :=
  Char.ofNat (if n < 10 then '0'.toNat + n else 'a'.toNat + (n - 10))

/-- The written form of one character of a string. -/
def escape (c : Char) : List Char :=
  if c = '"' then ['\\', '"']
  else if c = '\\' then ['\\', '\\']
  else if c = '\n' then ['\\', 'n']
  else if c = '\r' then ['\\', 'r']
  else if c = '\t' then ['\\', 't']
  else if c = '\x08' then ['\\', 'b']
  else if c = '\x0c' then ['\\', 'f']
  else if c.toNat < 0x20 then
    ['\\', 'u', '0', '0', hexDigit (c.toNat / 16), hexDigit (c.toNat % 16)]
  else [c]

/-- A string in quotes. -/
def quote (s : String) : String :=
  "\"" ++ String.ofList (s.toList.flatMap escape) ++ "\""

mutual

/-- Text without spaces. -/
def compact : Json → String
  | .null => "null"
  | .bool true => "true"
  | .bool false => "false"
  | .num n => n.write
  | .str s => quote s
  | .arr items => "[" ++ ",".intercalate (compactItems items) ++ "]"
  | .obj fields => "\x7b" ++ ",".intercalate (compactFields fields) ++ "\x7d"

/-- The texts of the items of an array. -/
def compactItems : List Json → List String
  | [] => []
  | item :: rest => compact item :: compactItems rest

/-- The texts of the fields of an object. -/
def compactFields : List (String × Json) → List String
  | [] => []
  | (key, value) :: rest => (quote key ++ ":" ++ compact value) :: compactFields rest

end

/-- The spaces in front of a line at a depth. -/
def indent (depth : Nat) : String := String.ofList (List.replicate (2 * depth) ' ')

/-- Items between brackets, each on its own line one step deeper than the brackets. -/
def block (opening closing : String) (depth : Nat) : List String → String
  | [] => opening ++ closing
  | items =>
    opening ++ "\n" ++
      ",\n".intercalate (items.map (indent (depth + 1) ++ ·)) ++
      "\n" ++ indent depth ++ closing

mutual

/-- Text with one item on a line, for a value at the given depth. -/
def indented (depth : Nat) : Json → String
  | .arr items => block "[" "]" depth (indentedItems (depth + 1) items)
  | .obj fields => block "\x7b" "\x7d" depth (indentedFields (depth + 1) fields)
  | .null => "null"
  | .bool true => "true"
  | .bool false => "false"
  | .num n => n.write
  | .str s => quote s

/-- The texts of the items of an array at the given depth. -/
def indentedItems (depth : Nat) : List Json → List String
  | [] => []
  | item :: rest => indented depth item :: indentedItems depth rest

/-- The texts of the fields of an object at the given depth. -/
def indentedFields (depth : Nat) : List (String × Json) → List String
  | [] => []
  | (key, value) :: rest =>
    (quote key ++ ": " ++ indented depth value) :: indentedFields depth rest

end

/-- Indented text of a whole document. -/
def pretty (value : Json) : String := indented 0 value

end Json

end EventSchema
