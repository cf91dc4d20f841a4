import EventSchema.Text.GraphemeExtend
import EventSchema.Text.Unprintable

/-!
# Names quoted for a reader

A name inside a message stands in double quotes.  A quote, a backslash and the common controls are
written with a backslash; a character that would not show, or would change the look of the one
before it, is written as its code point.
-/

namespace EventSchema

namespace Text

/-- Whether a character is written as its code point. -/
def isHidden (c : Char) : Bool :=
  c != ' ' && (graphemeExtend.contains c || unprintable.contains c)

/-- The code point of a character, written in hexadecimal. -/
def codePoint (c : Char) : List Char :=
  '\\' :: 'u' :: '\x7b' :: (Nat.toDigits 16 c.toNat ++ ['\x7d'])

/-- The written form of one character of a quoted name. -/
def quoteChar (c : Char) : List Char :=
  if c = '"' then ['\\', '"']
  else if c = '\\' then ['\\', '\\']
  else if c = '\n' then ['\\', 'n']
  else if c = '\r' then ['\\', 'r']
  else if c = '\t' then ['\\', 't']
  else if c = '\x00' then ['\\', '0']
  else if 0x20 ≤ c.toNat ∧ c.toNat < 0x7F then [c]
  else if isHidden c then codePoint c
  else [c]

/-- A name in quotes. -/
def quoted (name : String) : String :=
  "\"" ++ String.ofList (name.toList.flatMap quoteChar) ++ "\""

end Text

end EventSchema
