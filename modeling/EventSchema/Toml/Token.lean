import EventSchema.Text.Hexadecimal

/-!
# Tokens of TOML text

A machine takes one character at a time, so that reading is a fold over the text.  Line ends are
single line feeds by then.  Strings come out with their escapes resolved; comments leave nothing but
the line end behind them.  Blanks are kept, since some of them count.
-/

namespace EventSchema

namespace Toml

/-- A token. -/
inductive Token where
  | blank (c : Char)
  | newline
  /-- A run of letters, digits and the characters that numbers and moments use, but for the point. -/
  | word (text : String)
  /-- A string on one line. -/
  | quoted (text : String)
  /-- A string in triple quotes. -/
  | block (text : String)
  | mark (c : Char)
deriving DecidableEq

/-- Where the machine stands; text read so far is kept last character first. -/
inductive Mode where
  /-- Between tokens. -/
  | between
  /-- In a word. -/
  | word (before : List Char)
  /-- In a comment. -/
  | comment
  /-- Behind one quote, or two, that begin a string. -/
  | opening (quote : Char) (two : Bool)
  /-- In a string on one line. -/
  | text (quote : Char) (before : List Char)
  /-- Behind three quotes that begin a string. -/
  | blockStart (quote : Char)
  /-- In a string in triple quotes, with some quotes in a row at the end. -/
  | block (quote : Char) (before : List Char) (quotes : Nat)
  /-- Behind a backslash. -/
  | escape (inBlock : Bool) (before : List Char)
  /-- In an escaped code point with some digits to come. -/
  | codePoint (inBlock : Bool) (before : List Char) (left value : Nat)
  /-- Between a backslash that ends a line and the next character that is not blank. -/
  | fold (before : List Char) (ended : Bool)

/-- The machine: its mode, and the tokens read so far, last first. -/
structure Scanner where
  mode : Mode
  tokens : List Token

/-- Whether a character is blank. -/
def isBlank (c : Char) : Bool := c == ' ' || c == '\t'

/-- Whether a character may begin and end a string; escapes count in double quotes. -/
def isQuote (c : Char) : Bool := c == '\x22' || c == '\x27'

/-- Whether a character may stand in a name without quotes. -/
def isBare (c : Char) : Bool := c.isAlphanum || c == '_' || c == '-'

/-- Whether a character belongs to words. -/
def isWordChar (c : Char) : Bool := isBare c || c == '+' || c == ':'

/-- Whether a character may stand for itself in strings and comments. -/
def isVisible (c : Char) : Bool := c == '\t' || (0x20 ≤ c.toNat && c.toNat != 0x7F)

/-- Whether a character is a token of its own. -/
def isMark (c : Char) : Bool := "[]\x7b\x7d,=.".toList.contains c

/-- The character that a letter behind a backslash stands for. -/
def escaped? : Char → Option Char
  | '\x22' => some '\x22'
  | '\\' => some '\\'
  | 'b' => some '\x08'
  | 'f' => some '\x0c'
  | 'n' => some '\n'
  | 'r' => some '\r'
  | 't' => some '\t'
  | _ => none

/-- The text read so far. -/
def textOf (before : List Char) : String := String.ofList before.reverse

/-- The mode in a string. -/
def Mode.inside (inBlock : Bool) (before : List Char) : Mode :=
  if inBlock then .block '\x22' before 0 else .text '\x22' before

/-- A character between tokens. -/
def Scanner.start? (tokens : List Token) (c : Char) : Option Scanner :=
  if isBlank c then some ⟨.between, .blank c :: tokens⟩
  else if c = '\n' then some ⟨.between, .newline :: tokens⟩
  else if c = '#' then some ⟨.comment, tokens⟩
  else if isQuote c then some ⟨.opening c false, tokens⟩
  else if isWordChar c then some ⟨.word [c], tokens⟩
  else if isMark c then some ⟨.between, .mark c :: tokens⟩
  else none

/-- A character in a string on one line. -/
def Scanner.inText? (tokens : List Token) (quote : Char) (before : List Char) (c : Char) :
    Option Scanner :=
  if c = quote then some ⟨.between, .quoted (textOf before) :: tokens⟩
  else if c = '\\' ∧ quote = '\x22' then some ⟨.escape false before, tokens⟩
  else if isVisible c then some ⟨.text quote (c :: before), tokens⟩
  else none

/-- A string in triple quotes that has ended with at least three of them: the others are text. -/
def blockToken (quote : Char) (before : List Char) (quotes : Nat) : Token :=
  .block (textOf (List.replicate (quotes - 3) quote ++ before))

/-- A character in a string in triple quotes; up to two quotes may stand before the last three. -/
def Scanner.inBlock? (tokens : List Token) (quote : Char) (before : List Char) (quotes : Nat)
    (c : Char) : Option Scanner :=
  if c = quote then
    if quotes = 4 then some ⟨.between, blockToken quote before 5 :: tokens⟩
    else some ⟨.block quote before (quotes + 1), tokens⟩
  else if 3 ≤ quotes then Scanner.start? (blockToken quote before quotes :: tokens) c
  else
    let before := List.replicate quotes quote ++ before
    if c = '\\' ∧ quote = '\x22' then some ⟨.escape true before, tokens⟩
    else if c = '\n' ∨ isVisible c then some ⟨.block quote (c :: before) 0, tokens⟩
    else none

/-- A character behind a backslash. -/
def Scanner.escape? (tokens : List Token) (inBlock : Bool) (before : List Char) (c : Char) :
    Option Scanner :=
  if c = 'u' then some ⟨.codePoint inBlock before 4 0, tokens⟩
  else if c = 'U' then some ⟨.codePoint inBlock before 8 0, tokens⟩
  else if inBlock ∧ isBlank c then some ⟨.fold before false, tokens⟩
  else if inBlock ∧ c = '\n' then some ⟨.fold before true, tokens⟩
  else (escaped? c).map fun e => ⟨.inside inBlock (e :: before), tokens⟩

/-- A digit of an escaped code point. -/
def Scanner.codePoint? (tokens : List Token) (inBlock : Bool) (before : List Char)
    (left value : Nat) (c : Char) : Option Scanner :=
  (Text.hexDigit? c).bind fun d =>
    let value := value * 16 + d
    if left ≠ 1 then some ⟨.codePoint inBlock before (left - 1) value, tokens⟩
    else if value.isValidChar then some ⟨.inside inBlock (Char.ofNat value :: before), tokens⟩
    else none

/-- One character of text. -/
def Scanner.step? (s : Scanner) (c : Char) : Option Scanner :=
  match s.mode with
  | .between => Scanner.start? s.tokens c
  | .word before =>
    if isWordChar c then some ⟨.word (c :: before), s.tokens⟩
    else Scanner.start? (.word (textOf before) :: s.tokens) c
  | .comment =>
    if c = '\n' then some ⟨.between, .newline :: s.tokens⟩
    else if isVisible c then some s
    else none
  | .opening quote false =>
    if c = quote then some ⟨.opening quote true, s.tokens⟩
    else Scanner.inText? s.tokens quote [] c
  | .opening quote true =>
    if c = quote then some ⟨.blockStart quote, s.tokens⟩
    else Scanner.start? (.quoted "" :: s.tokens) c
  | .text quote before => Scanner.inText? s.tokens quote before c
  | .blockStart quote =>
    if c = '\n' then some ⟨.block quote [] 0, s.tokens⟩
    else Scanner.inBlock? s.tokens quote [] 0 c
  | .block quote before quotes => Scanner.inBlock? s.tokens quote before quotes c
  | .escape inBlock before => Scanner.escape? s.tokens inBlock before c
  | .codePoint inBlock before left value =>
    Scanner.codePoint? s.tokens inBlock before left value c
  | .fold before ended =>
    if isBlank c then some s
    else if c = '\n' then some ⟨.fold before true, s.tokens⟩
    else if ended then Scanner.inBlock? s.tokens '\x22' before 0 c
    else none

/-- The tokens read when the text ends. -/
def Scanner.finish? (s : Scanner) : Option (List Token) :=
  match s.mode with
  | .between => some s.tokens.reverse
  | .comment => some s.tokens.reverse
  | .word before => some (.word (textOf before) :: s.tokens).reverse
  | .opening _ true => some (.quoted "" :: s.tokens).reverse
  | .block quote before quotes =>
    if 3 ≤ quotes then some (blockToken quote before quotes :: s.tokens).reverse else none
  | _ => none

/-- A text whose line ends are single line feeds. -/
def unifyLines : List Char → List Char
  | '\r' :: '\n' :: rest => '\n' :: unifyLines rest
  | c :: rest => c :: unifyLines rest
  | [] => []

/-- The tokens of a text. -/
def tokens? (text : List Char) : Option (List Token) :=
  ((unifyLines text).foldlM Scanner.step? ⟨.between, []⟩).bind Scanner.finish?

end Toml

end EventSchema
