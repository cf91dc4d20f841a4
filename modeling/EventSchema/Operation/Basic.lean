import EventSchema.Draft
import EventSchema.Edit.Composition
import EventSchema.Edit.Identifiers
import EventSchema.Edit.Profiles
import EventSchema.Edit.Typing

/-!
# Operations

An operation is one pending edit at one location.  It is plain data; what it reads is looked up only
when it is applied.  Applying it computes an outcome and writes nothing; running it writes the
outcome into the draft, unless something it depends on has failed before.

Main results:

- {lit}`Operation.run_get?_of_ne`: running an operation changes no definition but its target's.
- {lit}`Operation.run_get?_of_failed`: a failed operation changes no definition at all.
-/

namespace EventSchema

open Std

/-- What an operation does to its target. -/
inductive Action where
  | tagProfile (profile : String)
  | annotate
  | mergeExtension (source : Location)
  /-- The extension goes by its declared name; a key is given when names get a name space. -/
  | copyExtension (source : Location) (extension : String) (key : Option String)
  | includeFrom (source : Location) (scope : IncludeScope)
  | removeProfile (profile : String)
  | inherit (source : Location)
  | setCategory (category : String)
  | fillAttribute (name : String) (source : Location)
  | assignCategory (uid : Int) (label : String) (description : Option String)
  /-- A conflict is another class with the same identifier. -/
  | assignClass (uid : Int) (label : String) (description : Option String)
      (conflict : Option Location)
  | assignTypes (classUid : Int) (label : String)
  | assignObservables (assignments : ExtTreeMap String Int)
  | prefixTypes (renames : ExtTreeMap String String)
  /-- The captions of objects by key. -/
  | setObjectTypes (objects : ExtTreeMap String (Option String))
  | addSiblings
  | copyRendered (source : Location)
deriving DecidableEq

namespace Action

/-- The location that an action reads besides its target. -/
def source? : Action → Option Location
  | mergeExtension source | copyExtension source _ _ | includeFrom source _ | inherit source
  | fillAttribute _ source | copyRendered source => some source
  | _ => none

/-- The extension location whose contents land at the target. -/
def lineage? : Action → Option Location
  | mergeExtension source | copyExtension source _ _ => some source
  | _ => none

/-- Whether the target may be without a definition. -/
def createsTarget : Action → Bool
  | copyExtension _ _ _ | copyRendered _ => true
  | _ => false

end Action

/-- One pending edit at one location. -/
structure Operation where
  target : Location
  action : Action
deriving DecidableEq

/-- What came of an operation. -/
inductive Outcome where
  /-- The target gets a new definition, with changes at these paths. -/
  | applied (definition : Definition) (changes : List FieldPath)
  /-- The target is already as the operation would make it. -/
  | unchanged
  | failed (cause : Failure)

namespace Outcome

/-- Whether an outcome is a new definition. -/
def isApplied : Outcome → Bool
  | applied _ _ => true
  | _ => false

/-- Whether an outcome is a failure. -/
def isFailed : Outcome → Bool
  | failed _ => true
  | _ => false

/-- The cause of a failure. -/
def cause? : Outcome → Option Failure
  | failed cause => some cause
  | _ => none

end Outcome

namespace Operation

/-- The locations that an operation reads besides its target. -/
def prerequisites (op : Operation) : List Location := op.action.source?.toList

/-- The definition at a source. -/
def source (draft : Draft) (l : Location) : Except Failure Definition :=
  match draft.get? l with
  | some d => .ok d
  | none => .error (.noSource l)

/-- The edit of an operation, carried out on a definition. -/
def edit (op : Operation) (draft : Draft) (options : Options) (d : Definition) :
    Except Failure Revision :=
  match op.action with
  | .tagProfile profile => .ok (d.tagProfile profile)
  | .annotate => .ok d.annotate
  | .mergeExtension l => (source draft l).map d.mergeExtension
  | .copyExtension l extension key => (source draft l).map (d.copyExtension · extension key)
  | .includeFrom l scope => (source draft l).map (d.includeFrom · scope)
  | .removeProfile profile => .ok (d.removeProfile profile options)
  | .inherit l => (source draft l).map d.inherit
  | .setCategory category =>
    if d.category?.isSome then .ok d.unchanged
    else if (draft.find? [.category] category none).isNone then
      .error (.unknownCategory category)
    else .ok ⟨d.set "category" (.str category), [["category"]]⟩
  | .fillAttribute name l => (source draft l).bind (d.fillAttribute name)
  | .assignCategory uid label description => .ok (d.assignCategory uid label description)
  | .assignClass uid label description conflict =>
    match conflict with
    | some other => .error (.classUidTaken uid other)
    | none => .ok (d.assignClass uid label description)
  | .assignTypes classUid label => d.assignTypes classUid label
  | .assignObservables assignments => .ok (d.assignObservables assignments)
  | .prefixTypes renames => .ok (d.prefixTypes op.target.kind renames)
  | .setObjectTypes objects => d.setObjectTypes op.target.kind objects
  | .addSiblings => .ok d.addSiblings
  | .copyRendered l => (source draft l).map d.copyRendered

/-- The outcome of an edit against the definition that is there. -/
def outcomeOf (current : Option Definition) : Except Failure Revision → Outcome
  | .error cause => .failed cause
  | .ok revision =>
    match current with
    | none => .applied revision.definition revision.changes
    | some d =>
      if revision.changes.isEmpty || d == revision.definition then .unchanged
      else .applied revision.definition revision.changes

/-- The outcome of an operation against a draft, which stays as it is. -/
def apply (op : Operation) (draft : Draft) (options : Options) : Outcome :=
  let current := draft.get? op.target
  if current.isNone && !op.action.createsTarget then .failed (.noTarget op.target)
  else outcomeOf current (op.edit draft options (current.getD default))

/-- The failure of an operation whose source or target has failed before. -/
def blocked? (op : Operation) (draft : Draft) : Option Failure :=
  match (op.prerequisites ++ [op.target]).find? fun l => (draft.failure? l).isSome with
  | none => none
  | some l => some (if l = op.target then .targetFailed l else .sourceFailed l)

/-- The outcome of an operation in a run. -/
def outcome (op : Operation) (draft : Draft) (options : Options) : Outcome :=
  match op.blocked? draft with
  | some cause => .failed cause
  | none => op.apply draft options

/-- Remember the extension whose contents an operation brought to its target. -/
def recordLineage (op : Operation) (draft : Draft) : Draft :=
  match op.action.lineage? with
  | some origin => draft.recordLineage op.target origin
  | none => draft

/-- Write an outcome into a draft. -/
def commit (op : Operation) (draft : Draft) : Outcome → Draft
  | .applied d _ => op.recordLineage (draft.write op.target d)
  | .unchanged => op.recordLineage draft
  | .failed cause => draft.markFailed op.target cause

/-- The draft after an operation. -/
def run (op : Operation) (draft : Draft) (options : Options) : Draft :=
  op.commit draft (op.outcome draft options)

@[simp]
theorem get?_recordLineage (op : Operation) (draft : Draft) (l : Location) :
    (op.recordLineage draft).get? l = draft.get? l := by
  unfold recordLineage
  split <;> simp

theorem run_get?_of_ne (op : Operation) (draft : Draft) (options : Options) {l : Location}
    (h : op.target ≠ l) : (op.run draft options).get? l = draft.get? l := by
  unfold run commit
  split <;> simp [Draft.get?_write, h]

theorem run_get?_of_failed (op : Operation) (draft : Draft) (options : Options) (l : Location)
    (h : (op.outcome draft options).isFailed = true) :
    (op.run draft options).get? l = draft.get? l := by
  unfold run
  cases ho : op.outcome draft options <;> simp_all [Outcome.isFailed, commit]

/-- Run operations one after another. -/
def runAll (options : Options) (draft : Draft) (ops : List Operation) : Draft :=
  ops.foldl (fun draft op => op.run draft options) draft

end Operation

end EventSchema
