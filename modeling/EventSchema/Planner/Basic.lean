import EventSchema.Planner.Composition
import EventSchema.Planner.Dictionary
import EventSchema.Planner.Identifiers
import EventSchema.Planner.Inheritance
import EventSchema.Planner.Profiles
import EventSchema.Planner.Rendering
import EventSchema.Planner.Typing

/-!
# Planners

A planner reads a draft and the options and proposes operations; it writes nothing.  Each phase has
its planners, which run in a fixed order.
-/

namespace EventSchema

/-- The planners. -/
inductive Planner where
  | profileTag
  | annotations
  | extension
  | includes
  | profileRemove
  | inheritance
  | category
  | dictionary
  | categoryUid
  | classUid
  | typeUid
  | observable
  | extensionTypes
  | objectType
  | datetime
  | rendering
deriving DecidableEq, Repr

/-- The planners of a phase, in the order in which they run. -/
def Phase.planners : Phase → List Planner
  | .structural =>
    [.profileTag, .annotations, .extension, .includes, .profileRemove, .inheritance]
  | .dictionary => [.category, .dictionary]
  | .identifiers =>
    [.categoryUid, .classUid, .typeUid, .observable, .extensionTypes, .objectType, .datetime]
  | .schema => [.rendering]

namespace Planner

/-- All planners, in the order in which they run. -/
def all : List Planner := Phase.all.flatMap Phase.planners

/-- The word for a planner. -/
def word : Planner → String
  | profileTag => "profile_tag"
  | annotations => "annotation"
  | extension => "extension"
  | includes => "include"
  | profileRemove => "profile_remove"
  | inheritance => "extends"
  | category => "category"
  | dictionary => "dictionary"
  | categoryUid => "category_id"
  | classUid => "class_id"
  | typeUid => "type_id"
  | observable => "observable"
  | extensionTypes => "prefix_types"
  | objectType => "object_type"
  | datetime => "datetime"
  | rendering => "schema"

/-- The phase of a planner. -/
def phase : Planner → Phase
  | profileTag | annotations | extension | includes | profileRemove | inheritance => .structural
  | category | dictionary => .dictionary
  | categoryUid | classUid | typeUid | observable | extensionTypes | objectType | datetime =>
    .identifiers
  | rendering => .schema

/-- The planner that a word stands for. -/
def ofWord? (word : String) : Option Planner := all.find? (·.word == word)

/-- The operations that a planner proposes, in order. -/
def analyze (planner : Planner) (draft : Draft) (options : Options) :
    Except Error (List Operation) :=
  match planner with
  | profileTag => .ok (tagProfiles draft)
  | annotations => .ok (annotate draft)
  | extension => .ok (applyExtensions draft options)
  | includes => .ok (includeFiles draft options)
  | profileRemove => .ok (removeProfiles draft options)
  | inheritance => inherit draft
  | category => .ok (setCategories draft)
  | dictionary => .ok (fillAttributes draft)
  | categoryUid => .ok (assignCategories draft)
  | classUid => .ok (assignClasses draft)
  | typeUid => .ok (assignTypes draft)
  | observable => .ok (assignObservables draft options)
  | extensionTypes => .ok (prefixTypes draft options)
  | objectType => .ok (setObjectTypes draft options)
  | datetime => .ok (addSiblings draft options)
  | rendering => .ok (render draft options)

end Planner

end EventSchema
