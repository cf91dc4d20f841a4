/-!
# Splitting text at a character
-/

namespace EventSchema

namespace Text

/-- The pieces of a text between the places where a character stands. -/
def split (separator : Char) : List Char → List (List Char)
  | [] => [[]]
  | c :: rest =>
    if c = separator then [] :: split separator rest
    else (split separator rest).modifyHead (c :: ·)

end Text

end EventSchema
