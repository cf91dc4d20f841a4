import EventSchema.Operation.Text

/-!
# Plans

A plan groups operations by phase and target.  Within a phase the operations are scheduled by a walk
over the targets in order: before an operation on a target, everything planned for the locations that
it reads comes first, as long as that location is not already on the way.

Main results:

- {lit}`PhasePlan.get_push`: a pushed operation comes last at its target.
-/

namespace EventSchema

/-- The operations of one phase by target. -/
structure PhasePlan where
  phase : Phase
  operations : LocationMap (List Operation) := ∅

namespace PhasePlan

/-- The operations planned for a target, in order. -/
def get (plan : PhasePlan) (l : Location) : List Operation := plan.operations[l]?.getD []

/-- Add an operation behind those with the same target. -/
def push (plan : PhasePlan) (op : Operation) : PhasePlan :=
  { plan with operations := plan.operations.insert op.target (plan.get op.target ++ [op]) }

theorem get_push (plan : PhasePlan) (op : Operation) (l : Location) :
    (plan.push op).get l = if op.target = l then plan.get l ++ [op] else plan.get l := by
  unfold push
  by_cases h : op.target = l
  · subst h
    simp [get]
  · simp [get, Std.ExtTreeMap.getElem?_insert, h]

/-- The plan of some operations. -/
def ofOperations (phase : Phase) (ops : List Operation) : PhasePlan :=
  ops.foldl push { phase }

/-- The targets, in order. -/
def targets (plan : PhasePlan) : List Location := plan.operations.keys

/-- All operations, by target. -/
def all (plan : PhasePlan) : List Operation := plan.operations.values.flatten

/-- The number of operations. -/
def size (plan : PhasePlan) : Nat := plan.all.length

/-- Whether nothing is planned. -/
def isEmpty (plan : PhasePlan) : Bool := plan.operations.isEmpty

/-! ## Schedule -/

/-- A walk over the targets: those it has come to, and the operations so far, last first. -/
structure Walk where
  visited : List Location := []
  scheduled : List Operation := []

/-- Schedule one operation. -/
def Walk.emit (walk : Walk) (op : Operation) : Walk :=
  { walk with scheduled := op :: walk.scheduled }

/--
Come to a target: schedule its operations in order, each behind the operations planned for what it
reads.  A step down needs a target that has not been visited, so a depth of one more than the number
of targets is enough.
-/
def visit (plan : PhasePlan) : Nat → Walk → Location → Walk
  | 0, walk, _ => walk
  | depth + 1, walk, l =>
    if walk.visited.contains l then walk
    else
      (plan.get l).foldl (fun walk op =>
        ((op.prerequisites.filter plan.operations.contains).foldl (plan.visit depth) walk).emit op)
        { walk with visited := l :: walk.visited }

/-- All operations in the order in which they are applied. -/
def schedule (plan : PhasePlan) : List Operation :=
  (plan.targets.foldl (plan.visit (plan.operations.size + 1)) {}).scheduled.reverse

/-- The listing of a phase: a heading, then the operations in the order of application. -/
def describe (plan : PhasePlan) : List String :=
  ("== " ++ plan.phase.word ++ " (" ++ toString plan.size ++ " ops)") ::
    plan.schedule.map fun op => "  " ++ op.text

end PhasePlan

/-- The operations of all phases. -/
structure Plan where
  phases : List PhasePlan := []

namespace Plan

/-- The plan of one phase. -/
def phase? (plan : Plan) (phase : Phase) : Option PhasePlan :=
  plan.phases.find? (·.phase == phase)

/-- The number of operations. -/
def size (plan : Plan) : Nat := (plan.phases.flatMap PhasePlan.all).length

/-- Whether nothing is planned. -/
def isEmpty (plan : Plan) : Bool := plan.size == 0

/-- The operations planned for a target, phase by phase. -/
def operationsFor (plan : Plan) (l : Location) : List Operation :=
  plan.phases.flatMap (·.get l)

/-- The listing of a plan, one operation on a line. -/
def describe (plan : Plan) : String :=
  String.join ((plan.phases.flatMap PhasePlan.describe).map (· ++ "\n"))

end Plan

end EventSchema
