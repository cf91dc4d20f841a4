import EventSchema.Json.Basic
import Std.Data.ExtTreeMap

/-!
# Locations of definitions

A location names a definition by its kind, its name and the extension that owns it.  Locations are
ordered by kind, then by name, then core before extensions; that order runs through every listing.

Main results:

- Instances {lit}`Location.instTransOrd` and {lit}`Location.instLawfulEqOrd`: the order is a linear
  order whose equality is equality of locations, so that maps by location are determined by their
  look-ups.
- {lit}`Location.isCore_core`: the core counterpart of a location is in core.
-/

namespace EventSchema

open Std

/-- A section of the rendered schema. -/
inductive Section where
  | version
  | baseEvent
  | classes
  | objects
  | categories
  | profiles
  | extensions
  | attributes
  | types
deriving DecidableEq, Repr

namespace Section

/-- All sections, in order. -/
def all : List Section :=
  [version, baseEvent, classes, objects, categories, profiles, extensions, attributes, types]

/-- The word for a section. -/
def word : Section → String
  | version => "version"
  | baseEvent => "base_event"
  | classes => "classes"
  | objects => "objects"
  | categories => "categories"
  | profiles => "profiles"
  | extensions => "extensions"
  | attributes => "attributes"
  | types => "types"

/-- The place of a section in the order. -/
def rank : Section → Nat
  | version => 0
  | baseEvent => 1
  | classes => 2
  | objects => 3
  | categories => 4
  | profiles => 5
  | extensions => 6
  | attributes => 7
  | types => 8

theorem rank_injective {a b : Section} (h : a.rank = b.rank) : a = b := by
  revert h
  cases a <;> cases b <;> simp [rank]

/-- The section that a word stands for. -/
def ofWord? (word : String) : Option Section := all.find? (·.word == word)

end Section

/-- What a location addresses. -/
inductive Kind where
  /-- A whole source file. -/
  | file
  | object
  /-- An event class in the directory of a category. -/
  | eventClass
  /-- An event outside of all categories. -/
  | event
  | category
  | profile
  | extension
  /-- One attribute of a dictionary. -/
  | dictionary
  /-- One type of a dictionary. -/
  | type
  /-- An entry of the rendered schema. -/
  | schema (part : Section)
deriving DecidableEq, Repr

namespace Kind

/-- All kinds with a plain word, in order. -/
def plain : List Kind :=
  [file, object, eventClass, event, category, profile, extension, dictionary, type]

/-- The word for a kind. -/
def word : Kind → String
  | file => "file"
  | object => "object"
  | eventClass => "class"
  | event => "event"
  | category => "category"
  | profile => "profile"
  | extension => "extension"
  | dictionary => "dictionary"
  | type => "type"
  | schema part => "schema." ++ part.word

/-- The place of a kind in the order; entries of the schema come last, by section. -/
def rank : Kind → Nat
  | file => 0
  | object => 1
  | eventClass => 2
  | event => 3
  | category => 4
  | profile => 5
  | extension => 6
  | dictionary => 7
  | type => 8
  | schema part => 9 + part.rank

theorem rank_injective {a b : Kind} (h : a.rank = b.rank) : a = b := by
  cases a <;> cases b <;> simp only [rank] at h <;> try omega
  all_goals first
    | rfl
    | rw [Section.rank_injective (Nat.add_left_cancel h)]

/-- Whether names of this kind get a name space when they are copied out of an extension. -/
def isPrefixable : Kind → Bool
  | object | eventClass | event | profile => true
  | _ => false

/-- The document that stands for a kind. -/
def toJson : Kind → Json
  | schema part => .obj [("schema", .str part.word)]
  | kind => .str kind.word

/-- The kind that a document stands for; a word may also be the only key of an object. -/
def ofJson? : Json → Option Kind
  | .str word => plain.find? (·.word == word)
  | .obj [("schema", value)] => (wordOf? value).bind fun w => (Section.ofWord? w).map .schema
  | .obj [(word, .null)] => plain.find? (·.word == word)
  | _ => none
where
  /-- The word of a choice without contents. -/
  wordOf? : Json → Option String
    | .str word => some word
    | .obj [(word, .null)] => some word
    | _ => none

/-- Kinds whose definitions carry attributes of their own. -/
def withAttributes : List Kind := [object, eventClass, event, profile]

/-- Kinds that take part in inheritance. -/
def records : List Kind := [object, eventClass, event]

/-- The kinds that a parent of a definition of this kind may have. -/
def family : Kind → List Kind
  | eventClass | event => [eventClass, event]
  | _ => [object]

end Kind

/-- The address of a definition. -/
structure Location where
  kind : Kind
  name : String
  /-- The directory of the owning extension; none in core. -/
  extension : Option String
deriving DecidableEq, Repr

namespace Location

/-- A location in core. -/
def inCore (kind : Kind) (name : String) : Location := ⟨kind, name, none⟩

/-- The location of an entry of the schema. -/
def entry (part : Section) (key : String) : Location := inCore (.schema part) key

/-- The same kind and name in an extension. -/
def inExtension (l : Location) (extension : String) : Location :=
  { l with extension := some extension }

/-- The same kind and name in core. -/
def core (l : Location) : Location := { l with extension := none }

/-- Whether a location is in core. -/
def isCore (l : Location) : Bool := l.extension.isNone

@[simp]
theorem isCore_core (l : Location) : l.core.isCore = true := rfl

/-- The section of an entry of the schema. -/
def part? (l : Location) : Option Section :=
  match l.kind with
  | .schema part => some part
  | _ => none

/-- The text of a location. -/
def text (l : Location) : String :=
  l.kind.word ++ ":" ++ l.name ++
    match l.extension with
    | some extension => " (" ++ extension ++ ")"
    | none => ""

/-- The document that stands for a location. -/
def toJson (l : Location) : Json :=
  .obj [("kind", l.kind.toJson), ("name", .str l.name), ("extension", Json.ofText? l.extension)]

/-- Text or null. -/
def optionalText? : Json → Option (Option String)
  | .null => some none
  | .str s => some (some s)
  | _ => none

/-- The location that a document stands for: an object, or a list of the three parts. -/
def ofJson? : Json → Option Location
  | .obj fields => do
    let kind ← (Fields.get? fields "kind").bind Kind.ofJson?
    let name ← (Fields.get? fields "name").bind Json.str?
    let extension ← optionalText? ((Fields.get? fields "extension").getD .null)
    return ⟨kind, name, extension⟩
  | .arr [kind, .str name, extension] => do
    return ⟨← Kind.ofJson? kind, name, ← optionalText? extension⟩
  | _ => none

/-! ## Order -/

/-- The order by kind, name and extension. -/
def order : Location → Location → Ordering :=
  compareLex (compareOn fun l : Location => l.kind.rank)
    (compareLex (compareOn fun l : Location => l.name) (compareOn fun l : Location => l.extension))

instance : Ord Location := ⟨order⟩

instance instTransOrd : TransOrd Location :=
  inferInstanceAs (TransCmp
    (compareLex (compareOn fun l : Location => l.kind.rank)
      (compareLex (compareOn fun l : Location => l.name)
        (compareOn fun l : Location => l.extension))))

instance instLawfulEqOrd : LawfulEqOrd Location where
  eq_of_compare {a b} h := by
    obtain ⟨hk, hn, he⟩ : compare a.kind.rank b.kind.rank = .eq ∧
        compare a.name b.name = .eq ∧ compare a.extension b.extension = .eq := by
      change order a b = .eq at h
      simpa only [order, compareLex, compareOn, Ordering.then_eq_eq] using h
    obtain ⟨ak, an, ae⟩ := a
    obtain ⟨bk, bn, be⟩ := b
    have hk := Kind.rank_injective (LawfulEqOrd.eq_of_compare hk)
    have hn := LawfulEqOrd.eq_of_compare hn
    have he := LawfulEqOrd.eq_of_compare he
    simp_all
  compare_self := by
    intro a
    change order a a = .eq
    simp [order, compareLex, compareOn]

end Location

/-- A finite map by location. -/
abbrev LocationMap (α : Type) : Type := ExtTreeMap Location α

end EventSchema
