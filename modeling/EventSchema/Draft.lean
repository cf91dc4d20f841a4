import EventSchema.Failure
import EventSchema.Repository.Basic
import EventSchema.Text.Matcher

/-!
# Drafts

A draft lays edited definitions over a repository.  It also remembers which locations failed, with
the first reason, and from which extension the contents of a location came.

Main results:

- {lit}`Draft.get?_write`: a write changes one definition.
- {lit}`Draft.getElem?_definitions`: the listing of all definitions agrees with the look-ups.
- {lit}`Draft.failure?_markFailed`: the first reason of a failure stays.
-/

namespace EventSchema

open Std

/-- A repository under edits. -/
structure Draft where
  repository : Repository
  /-- Definitions written so far. -/
  edited : LocationMap Definition := ∅
  /-- Locations with a failed edit, and the first reason. -/
  failed : LocationMap Failure := ∅
  /-- The extension locations whose contents came to a location. -/
  lineage : LocationMap Location := ∅

namespace Draft

/-- A repository without edits. -/
def ofRepository (repository : Repository) : Draft := { repository }

/-! ## Definitions -/

/-- The latest definition at a location. -/
def get? (draft : Draft) (l : Location) : Option Definition :=
  draft.edited[l]?.or (draft.repository.get? l)

/-- Whether a location has a definition. -/
def contains (draft : Draft) (l : Location) : Bool := (draft.get? l).isSome

/-- The latest definition at every location. -/
def definitions (draft : Draft) : LocationMap Definition :=
  draft.repository.definitions ∪ draft.edited

/-- All locations, in order. -/
def locations (draft : Draft) : List Location := draft.definitions.keys

/-- The definitions in core of some kinds, in order of location. -/
def core (draft : Draft) (kinds : List Kind) : List (Location × Definition) :=
  draft.definitions.toList.filter fun e => e.1.isCore && kinds.contains e.1.kind

/-- The locations in core of some kinds, in order. -/
def coreLocations (draft : Draft) (kinds : List Kind) : List Location :=
  (draft.core kinds).map (·.1)

/-- The latest definition at each location is the one that is looked up. -/
theorem getElem?_definitions (draft : Draft) (l : Location) :
    draft.definitions[l]? = draft.get? l := by
  simp [definitions, get?, Repository.get?, ExtTreeMap.getElem?_union]

/-! ## Writing -/

/-- Replace the definition at a location. -/
def write (draft : Draft) (l : Location) (d : Definition) : Draft :=
  { draft with edited := draft.edited.insert l d }

/-- Remember where contents came from, unless that is known already. -/
def recordLineage (draft : Draft) (l origin : Location) : Draft :=
  { draft with lineage := draft.lineage.insertIfNew l origin }

/-- Mark a location as failed, unless it is already. -/
def markFailed (draft : Draft) (l : Location) (failure : Failure) : Draft :=
  { draft with failed := draft.failed.insertIfNew l failure }

/-- Why a location failed. -/
def failure? (draft : Draft) (l : Location) : Option Failure := draft.failed[l]?

/-- The extension location that contents came from. -/
def origin? (draft : Draft) (l : Location) : Option Location := draft.lineage[l]?

/-- A write changes one definition. -/
theorem get?_write (draft : Draft) (l k : Location) (d : Definition) :
    (draft.write l d).get? k = if l = k then some d else draft.get? k := by
  by_cases h : l = k
  · subst h
    simp [get?, write]
  · simp [get?, write, ExtTreeMap.getElem?_insert, h]

@[simp]
theorem get?_recordLineage (draft : Draft) (l origin k : Location) :
    (draft.recordLineage l origin).get? k = draft.get? k := rfl

@[simp]
theorem get?_markFailed (draft : Draft) (l k : Location) (failure : Failure) :
    (draft.markFailed l failure).get? k = draft.get? k := rfl

/-- The first reason of a failure stays. -/
theorem failure?_markFailed (draft : Draft) (l k : Location) (failure : Failure) :
    (draft.markFailed l failure).failure? k =
      (draft.failure? k).or (if l = k then some failure else none) := by
  unfold failure? markFailed
  rw [ExtTreeMap.getElem?_insertIfNew]
  by_cases h : l = k
  · subst h
    by_cases hm : l ∈ draft.failed
    · simp [hm]
    · simp [hm]
  · simp [h]

/-- The file of a location, or of the extension location its contents came from. -/
def sourcePath? (draft : Draft) (l : Location) : Option Path :=
  (draft.repository.sourcePath? l).or
    ((draft.origin? l).bind draft.repository.sourcePath?)

/-! ## Names -/

/-- Whether a definition goes by a name: its location's, its own, or its key. -/
def answersTo (l : Location) (d : Definition) (name : String) : Bool :=
  l.name == name || d.name? == some name || d.key? == some name

/--
The location in core of one of some kinds that goes by a name.  Among several, one whose definition
came from the given extension is preferred, then one that came from none.
-/
def find? (draft : Draft) (kinds : List Kind) (name : String) (extension : Option String) :
    Option Location :=
  let candidates := (draft.core kinds).filter fun e => answersTo e.1 e.2 name
  let ofExtension := extension.bind fun x =>
    candidates.find? fun e => e.2.sourceExtension? == some x
  let native := candidates.find? fun e => e.2.sourceExtension?.isNone
  ((ofExtension.or native).or candidates.head?).map (·.1)

/-- The definition in core that goes by the name of a category. -/
def category? (draft : Draft) (name : String) : Option Definition :=
  (draft.find? [.category] name none).bind draft.get?

/-- The name in core of some kinds that is closest to a pattern. -/
def suggest? (draft : Draft) (kinds : List Kind) (pattern : String) (matcher : Matcher := .flat) :
    Option String :=
  matcher.best? pattern ((draft.core kinds).map (·.1.name))

/-- The declared names of extensions by their directories. -/
def declaredNames (draft : Draft) : ExtTreeMap String String :=
  ExtTreeMap.ofList ((draft.definitions.toList.filter fun e => e.1.kind == .extension).map
    fun (l, d) => (l.name, d.name?.getD l.name))

end Draft

end EventSchema
