import EventSchema.Operation.Basic

/-!
# Planning numeric identifiers

The first class with an identifier, in order of location, keeps it; a later class with the same one
is in conflict with it.
-/

namespace EventSchema

open Std

namespace Planner

/-- The name of the event that all classes inherit from. -/
def baseEvent : String := "base_event"

/-- What a class is called: its caption, else its name, else the name of its location. -/
def labelOf (l : Location) (d : Definition) : String := (d.caption?.or d.name?).getD l.name

/-- State the category of each class that has one with an identifier. -/
def assignCategories (draft : Draft) : List Operation :=
  (draft.core [.eventClass]).filterMap fun (l, d) =>
    (d.category?.bind draft.category?).bind fun category =>
      category.uid?.map fun uid =>
        ⟨l, .assignCategory uid ((category.caption?.or category.name?).getD "")
          category.description?⟩

/-- The identifiers of extensions by declared name and by directory. -/
def extensionUids (draft : Draft) : ExtTreeMap String Int :=
  draft.declaredNames.toList.foldl (fun uids (directory, declared) =>
    match (draft.get? (.inCore .extension directory)).bind Definition.uid? with
    | some uid => (uids.insert declared uid).insert directory uid
    | none => uids) ∅

/-- The identifier of a class or event, if it gets one. -/
def classUid? (draft : Draft) (uids : ExtTreeMap String Int) (l : Location) (d : Definition) :
    Option Int :=
  match d.uid? with
  | some own =>
    let extension := (d.sourceExtension?.bind (uids[·]?)).getD 0
    let category := ((d.category?.bind draft.category?).bind Definition.uid?).getD 0
    Definition.classUid? extension category own
  | none => if l.name = baseEvent then some 0 else none

/-- State the identifiers of classes one after another; {lit}`assigned` holds those given so far. -/
def assignClassesFrom (draft : Draft) (uids : ExtTreeMap String Int)
    (assigned : ExtTreeMap Int Location) : List (Location × Definition) → List Operation
  | [] => []
  | (l, d) :: rest =>
    match classUid? draft uids l d with
    | none => assignClassesFrom draft uids assigned rest
    | some uid =>
      ⟨l, .assignClass uid (labelOf l d) d.description? assigned[uid]?⟩ ::
        assignClassesFrom draft uids (assigned.insertIfNew uid l) rest

/-- State the identifier of each class and event that gets one. -/
def assignClasses (draft : Draft) : List Operation :=
  assignClassesFrom draft (extensionUids draft) ∅ (draft.core [.eventClass, .event])

/-- State the types of each class and event that has an identifier and activities. -/
def assignTypes (draft : Draft) : List Operation :=
  (draft.core [.eventClass, .event]).filterMap fun (l, d) =>
    d.uid?.bind fun uid =>
      if d.activities.isEmpty then none else some ⟨l, .assignTypes uid (labelOf l d)⟩

end Planner

end EventSchema
