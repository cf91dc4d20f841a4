import EventSchema.Json.Token

/-!
# Documents from JSON text

The containers that are open form a stack of frames, so that a document is a fold over its tokens.
-/

namespace EventSchema

namespace Json

/-- A container that is open; its contents so far are kept last first. -/
inductive Frame where
  | items (before : List Json)
  | fields (before : List (String × Json)) (key : String)

/-- What may come next. -/
inductive Expectation where
  /-- A value, or the end of an array that has none yet. -/
  | value (orClose : Bool)
  /-- A key in an object with some fields, or the end of an object that has none yet. -/
  | key (before : List (String × Json)) (orClose : Bool)
  /-- The colon behind a key. -/
  | colon (before : List (String × Json)) (key : String)
  /-- What follows a value. -/
  | separator (value : Json)

/-- A document in part: the open containers, innermost first, and what may come next. -/
structure Reading where
  frames : List Frame
  next : Expectation

/-- Containers may be nested this deep. -/
def depthLimit : Nat := 127

/-- A token that may begin a value. -/
def Reading.open? (frames : List Frame) : Token → Option Reading
  | .openArray =>
    if frames.length < depthLimit then some ⟨.items [] :: frames, .value true⟩ else none
  | .openObject =>
    if frames.length < depthLimit then some ⟨frames, .key [] true⟩ else none
  | .text s => some ⟨frames, .separator (.str s)⟩
  | .scalar v => some ⟨frames, .separator v⟩
  | _ => none

/-- One token. -/
def Reading.step? (r : Reading) (token : Token) : Option Reading :=
  match r.next, token, r.frames with
  | .value true, .closeArray, .items _ :: outer => some ⟨outer, .separator (.arr [])⟩
  | .value _, token, frames => Reading.open? frames token
  | .key _ true, .closeObject, outer => some ⟨outer, .separator (.obj [])⟩
  | .key before _, .text key, frames => some ⟨frames, .colon before key⟩
  | .colon before key, .colon, frames => some ⟨.fields before key :: frames, .value false⟩
  | .separator v, .comma, .items before :: outer => some ⟨.items (v :: before) :: outer, .value false⟩
  | .separator v, .closeArray, .items before :: outer =>
    some ⟨outer, .separator (.arr (v :: before).reverse)⟩
  | .separator v, .comma, .fields before key :: outer => some ⟨outer, .key ((key, v) :: before) false⟩
  | .separator v, .closeObject, .fields before key :: outer =>
    some ⟨outer, .separator (.obj (Fields.ofList ((key, v) :: before).reverse))⟩
  | _, _, _ => none

/-- The document that remains when the text ends. -/
def Reading.finish? (r : Reading) : Option Json :=
  match r.next, r.frames with
  | .separator v, [] => some v
  | _, _ => none

/-- The document that a text stands for. -/
def read? (text : String) : Option Json := do
  let tokens ← tokens? text.toList
  let last ← tokens.foldlM Reading.step? ⟨[], .value false⟩
  last.finish?

end Json

end EventSchema
