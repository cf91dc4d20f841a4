import EventSchema.Json.Record
import Std.Data.ExtTreeSet

/-!
# Options of a compilation

The options say which extensions and profiles count, how profiles that touch the same attribute are
ranked, and which of the optional edits take place.
-/

namespace EventSchema

open Std

/-- A finite set of names, listed in order. -/
abbrev NameSet : Type := ExtTreeSet String

/-- What a compilation takes into account. -/
structure Options where
  /-- The extensions that apply, by directory or declared name; all if absent. -/
  enabledExtensions : Option NameSet := none
  /-- Extensions that do not apply although they are enabled. -/
  ignoredExtensions : NameSet := ∅
  /-- The active profiles; all if absent. -/
  enabledProfiles : Option NameSet := none
  /-- Profiles that are not active although they are enabled. -/
  ignoredProfiles : NameSet := ∅
  /-- Profiles from the lowest rank to the highest; others have none. -/
  profileOrder : List String := []
  /-- Whether attributes are tagged with observable identifiers. -/
  setObservable : Bool := false
  /-- Whether names out of an extension get its name in front. -/
  prefixExtensions : Bool := true
  /-- Whether attributes with the type of an object become references to it. -/
  setObjectTypes : Bool := true

namespace Options

/-- Whether an enabled set without the ignored names holds one of the names. -/
def selects (enabled : Option NameSet) (ignored : NameSet) (names : List String) : Bool :=
  !names.any ignored.contains && enabled.all fun set => names.any set.contains

/-- Whether an extension applies. -/
def isExtensionEnabled (o : Options) (directory : String) (declared : Option String) : Bool :=
  selects o.enabledExtensions o.ignoredExtensions (directory :: declared.toList)

/-- Whether a profile is active. -/
def isProfileEnabled (o : Options) (profile : String) : Bool :=
  selects o.enabledProfiles o.ignoredProfiles [profile]

/-- The rank of a profile, counted from one; zero without a rank. -/
def profileRank (o : Options) (profile : String) : Nat :=
  match o.profileOrder.idxOf? profile with
  | some i => i + 1
  | none => 0

/-! ## Documents -/

/-- A set as a list in order. -/
def namesToJson (names : NameSet) : Json := .arr (names.toList.map .str)

/-- The document that stands for options. -/
def toJson (o : Options) : Json :=
  .obj [
    ("enabled_extensions", (o.enabledExtensions.map namesToJson).getD .null),
    ("ignored_extensions", namesToJson o.ignoredExtensions),
    ("enabled_profiles", (o.enabledProfiles.map namesToJson).getD .null),
    ("ignored_profiles", namesToJson o.ignoredProfiles),
    ("profile_order", .arr (o.profileOrder.map .str)),
    ("set_observable", .bool o.setObservable),
    ("prefix_extensions", .bool o.prefixExtensions),
    ("set_object_types", .bool o.setObjectTypes)]

/-- How the parts of options are read from values of some kind. -/
structure Readers (α : Type) where
  flag : α → Option Bool
  names : α → Option (List String)
  nullable : α → Option (Option (List String))

/-- Options from their fields by position and name; a field that is absent takes its default. -/
def ofFields? {α : Type} (readers : Readers α) (field : Nat → String → Option α) :
    Option Options := do
  let set (names : List String) : NameSet := ExtTreeSet.ofList names
  let orElse {β : Type} (value : Option α) (read : α → Option β) (fallback : β) : Option β :=
    match value with
    | none => some fallback
    | some v => read v
  let base : Options := {}
  return {
    enabledExtensions :=
      (← orElse (field 0 "enabled_extensions") readers.nullable none).map set
    ignoredExtensions := set (← orElse (field 1 "ignored_extensions") readers.names [])
    enabledProfiles := (← orElse (field 2 "enabled_profiles") readers.nullable none).map set
    ignoredProfiles := set (← orElse (field 3 "ignored_profiles") readers.names [])
    profileOrder := ← orElse (field 4 "profile_order") readers.names []
    setObservable := ← orElse (field 5 "set_observable") readers.flag base.setObservable
    prefixExtensions :=
      ← orElse (field 6 "prefix_extensions") readers.flag base.prefixExtensions
    setObjectTypes := ← orElse (field 7 "set_object_types") readers.flag base.setObjectTypes }

/-- How options are read from documents: nothing is converted. -/
def jsonReaders : Readers Json where
  flag := Json.bool?
  names := Json.texts?
  nullable := Json.nullable? Json.texts?

/-- The options that a document stands for. -/
def ofJson? (value : Json) : Option Options :=
  (value.record? 8).bind (ofFields? jsonReaders)

/-- Whether options are those of a compilation without any. -/
def isDefault (o : Options) : Bool := o.toJson.same ({} : Options).toJson

end Options

end EventSchema
