import EventSchema.Json.Numeral
import EventSchema.Text.Hexadecimal

/-!
# Tokens of JSON text

A machine takes one character at a time and keeps what it has read of the current token, so that
reading is a fold over the text.  Strings come out with their escapes resolved; a character below
U+0020 inside a string and an escaped half of a surrogate pair are refused.
-/

namespace EventSchema

namespace Json

/-- A token of JSON text. -/
inductive Token where
  | openArray
  | closeArray
  | openObject
  | closeObject
  | colon
  | comma
  | text (value : String)
  | scalar (value : Json)

/-- Where the machine stands; text read so far is kept last character first. -/
inductive Mode where
  /-- Between tokens. -/
  | between
  /-- In a numeral or a word. -/
  | word (before : List Char)
  /-- In a string. -/
  | text (before : List Char)
  /-- Behind a backslash in a string. -/
  | escape (before : List Char)
  /-- In the four digits of an escaped unit, after a high surrogate or not. -/
  | unit (before : List Char) (high : Option Nat) (seen value : Nat)
  /-- Behind an escaped high surrogate. -/
  | pair (before : List Char) (high : Nat)
  /-- Behind an escaped high surrogate and a backslash. -/
  | pairEscape (before : List Char) (high : Nat)

/-- The machine: its mode, and the tokens read so far, last first. -/
structure Scanner where
  mode : Mode
  tokens : List Token

/-- Whether a character belongs to numerals and words. -/
def isWordChar (c : Char) : Bool := c.isAlphanum || c == '-' || c == '+' || c == '.'

/-- Whether a character separates tokens and means nothing else. -/
def isBlank (c : Char) : Bool := c == ' ' || c == '\t' || c == '\n' || c == '\r'

/-- The scalar that a word stands for. -/
def ofWord? (word : List Char) : Option Json :=
  if word = "null".toList then some .null
  else if word = "true".toList then some (.bool true)
  else if word = "false".toList then some (.bool false)
  else (Number.read? word).map .num

/-- The token of a punctuation character. -/
def punctuation? : Char → Option Token
  | '[' => some .openArray
  | ']' => some .closeArray
  | '\x7b' => some .openObject
  | '\x7d' => some .closeObject
  | ':' => some .colon
  | ',' => some .comma
  | _ => none

/-- The character that a letter behind a backslash stands for. -/
def escaped? : Char → Option Char
  | '"' => some '"'
  | '\\' => some '\\'
  | '/' => some '/'
  | 'b' => some '\x08'
  | 'f' => some '\x0c'
  | 'n' => some '\n'
  | 'r' => some '\r'
  | 't' => some '\t'
  | _ => none

/-- The mode behind a complete escaped unit. -/
def afterUnit? (before : List Char) (high : Option Nat) (value : Nat) : Option Mode :=
  let isHigh := 0xD800 ≤ value ∧ value < 0xDC00
  let isLow := 0xDC00 ≤ value ∧ value < 0xE000
  match high with
  | none =>
    if isHigh then some (.pair before value)
    else if isLow then none
    else some (.text (Char.ofNat value :: before))
  | some high =>
    if isLow then
      some (.text (Char.ofNat (0x10000 + (high - 0xD800) * 0x400 + (value - 0xDC00)) :: before))
    else none

/-- A character between tokens. -/
def Scanner.start? (tokens : List Token) (c : Char) : Option Scanner :=
  if isBlank c then some ⟨.between, tokens⟩
  else if c = '"' then some ⟨.text [], tokens⟩
  else if isWordChar c then some ⟨.word [c], tokens⟩
  else (punctuation? c).map fun token => ⟨.between, token :: tokens⟩

/-- One character of text. -/
def Scanner.step? (s : Scanner) (c : Char) : Option Scanner :=
  match s.mode with
  | .between => Scanner.start? s.tokens c
  | .word before =>
    if isWordChar c then some ⟨.word (c :: before), s.tokens⟩
    else (ofWord? before.reverse).bind fun value => Scanner.start? (.scalar value :: s.tokens) c
  | .text before =>
    if c = '"' then some ⟨.between, .text (String.ofList before.reverse) :: s.tokens⟩
    else if c = '\\' then some ⟨.escape before, s.tokens⟩
    else if c.toNat < 0x20 then none
    else some ⟨.text (c :: before), s.tokens⟩
  | .escape before =>
    if c = 'u' then some ⟨.unit before none 0 0, s.tokens⟩
    else (escaped? c).map fun e => ⟨.text (e :: before), s.tokens⟩
  | .unit before high seen value =>
    (Text.hexDigit? c).bind fun d =>
      if seen = 3 then (afterUnit? before high (value * 16 + d)).map (⟨·, s.tokens⟩)
      else some ⟨.unit before high (seen + 1) (value * 16 + d), s.tokens⟩
  | .pair before high => if c = '\\' then some ⟨.pairEscape before high, s.tokens⟩ else none
  | .pairEscape before high => if c = 'u' then some ⟨.unit before (some high) 0 0, s.tokens⟩ else none

/-- The tokens read when the text ends. -/
def Scanner.finish? (s : Scanner) : Option (List Token) :=
  match s.mode with
  | .between => some s.tokens.reverse
  | .word before => (ofWord? before.reverse).map fun value => (.scalar value :: s.tokens).reverse
  | _ => none

/-- The tokens of a text. -/
def tokens? (text : List Char) : Option (List Token) :=
  (text.foldlM Scanner.step? ⟨.between, []⟩).bind Scanner.finish?

end Json

end EventSchema
