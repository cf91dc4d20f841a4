/-!
# Phases and progress of a compilation
-/

namespace EventSchema

/-- A stage of the pipeline. -/
inductive Phase where
  /-- Extensions, includes, profiles and inheritance. -/
  | structural
  /-- Categories and look-ups in the dictionary. -/
  | dictionary
  /-- Numeric identifiers, observables and types. -/
  | identifiers
  /-- Copies into the rendered schema. -/
  | schema
deriving DecidableEq, Repr

namespace Phase

/-- All phases, in order. -/
def all : List Phase := [.structural, .dictionary, .identifiers, .schema]

/-- The word for a phase. -/
def word : Phase → String
  | .structural => "structure"
  | .dictionary => "dictionary"
  | .identifiers => "identifiers"
  | .schema => "schema"

end Phase

/-- How far a compilation has come. -/
inductive Progress where
  | created
  | analyzed
  | compiled
  | rendered
deriving DecidableEq, Repr

namespace Progress

/-- The word for a state of progress. -/
def word : Progress → String
  | .created => "created"
  | .analyzed => "analyzed"
  | .compiled => "compiled"
  | .rendered => "rendered"

/-- How many steps have been done. -/
def rank : Progress → Nat
  | .created => 0
  | .analyzed => 1
  | .compiled => 2
  | .rendered => 3

instance : LE Progress := ⟨fun p q => p.rank ≤ q.rank⟩

instance : LT Progress := ⟨fun p q => p.rank < q.rank⟩

instance (p q : Progress) : Decidable (p ≤ q) := inferInstanceAs (Decidable (p.rank ≤ q.rank))

instance (p q : Progress) : Decidable (p < q) := inferInstanceAs (Decidable (p.rank < q.rank))

theorem not_lt {p q : Progress} : ¬ p < q ↔ q ≤ p := Nat.not_lt

end Progress

/-- A step that may come too early. -/
inductive Step where
  | analyze
  | compile
  | render
deriving DecidableEq, Repr

/-- The word for a step. -/
def Step.word : Step → String
  | .analyze => "analyze"
  | .compile => "compile"
  | .render => "render"

end EventSchema
