import EventSchema.Plan.Log
import EventSchema.Planner.Basic
import EventSchema.Schema

/-!
# Compilations

A compilation first plans the operations of every phase, then applies them, then renders the schema.
While it plans, it runs what it has planned on a scratch draft, so that later planners see a settled
schema.  Each step keeps its result beside a mark of how far the compilation has come, and a step
that comes again gives back what has been kept.  A step that fails gives back a compilation as well,
with whatever it has done to it.

Main results:

- {lit}`Compilation.tryAnalyze_cases`, {lit}`Compilation.tryCompile_cases`,
  {lit}`Compilation.trySchema_cases`: all that a step can do to a compilation.
-/

namespace EventSchema

/-- How far a compilation has come, and what it has kept. -/
structure Stage where
  progress : Progress := .created
  plan? : Option Plan := none
  log? : Option Log := none
  schema? : Option Schema := none

namespace Stage

/-- The stage of a compilation that has been planned. -/
def analyzed (plan : Plan) : Stage := { progress := .analyzed, plan? := some plan }

/-- The stage of a compilation whose plan has been applied. -/
def compiled (plan : Plan) (log : Log) : Stage :=
  { progress := .compiled, plan? := some plan, log? := some log }

end Stage

/-- A call on a compilation. -/
inductive Call where
  | analyze
  | compile
  | schema
  | build
deriving DecidableEq, Repr

/-- What a call gives back. -/
inductive Product where
  | plan (plan : Plan)
  | log (log : Log)
  | schema (schema : Schema)

/-- One run of the compiler over a repository. -/
structure Compilation where
  options : Options
  draft : Draft
  stage : Stage := {}

namespace Compilation

/-- A compilation that has not begun. -/
def ofRepository (repository : Repository) (options : Options) : Compilation :=
  { options, draft := .ofRepository repository }

/-- How far a compilation has come. -/
def progress (c : Compilation) : Progress := c.stage.progress

/-- A compilation, with what it has kept of a step.  The step comes too early if that is nothing. -/
def answer {α : Type} (c : Compilation) (step : Step) (kept? : Stage → Option α) :
    Compilation × Except Error α :=
  match kept? c.stage with
  | some kept => (c, .ok kept)
  | none => (c, .error (.outOfOrder step c.progress))

theorem answer_of_eq_some {α : Type} {c : Compilation} {step : Step} {kept? : Stage → Option α}
    {kept : α} (h : kept? c.stage = some kept) : c.answer step kept? = (c, .ok kept) := by
  simp only [answer, h]

/-! ## Planning -/

/-- A scratch draft, and what has been planned on it. -/
structure Planning where
  scratch : Draft
  plan : PhasePlan

/-- Plan what one planner proposes, and run it on the scratch draft. -/
def planWith (options : Options) (planning : Planning) (planner : Planner) :
    Except Error Planning :=
  (planner.analyze planning.scratch options).map fun ops =>
    { scratch := Operation.runAll options planning.scratch ops
      plan := ops.foldl PhasePlan.push planning.plan }

/-- Plan one phase. -/
def planPhase (options : Options) (scratch : Draft) (phase : Phase) : Except Error Planning :=
  phase.planners.foldlM (planWith options) { scratch, plan := { phase } }

/-- Plan phases one after another; the result comes with the scratch draft at the end. -/
def planPhases (options : Options) (scratch : Draft) :
    List Phase → Except Error (Draft × List PhasePlan)
  | [] => .ok (scratch, [])
  | phase :: rest => do
    let planning ← planPhase options scratch phase
    let (last, plans) ← planPhases options planning.scratch rest
    return (last, planning.plan :: plans)

/-- Plan every phase. -/
def planAll (options : Options) (draft : Draft) : Except Error Plan :=
  (planPhases options draft Phase.all).map fun r => ⟨r.2⟩

/-- Keep a plan. -/
def withPlan (c : Compilation) (plan : Plan) : Compilation :=
  { c with stage := { c.stage with progress := .analyzed, plan? := some plan } }

/-- Plan, unless there is a plan. -/
def tryAnalyze (c : Compilation) : Compilation × Except Error Plan :=
  match c.stage.plan? with
  | some _ => c.answer .analyze Stage.plan?
  | none =>
    match planAll c.options c.draft with
    | .error e => (c, .error e)
    | .ok plan => (c.withPlan plan).answer .analyze Stage.plan?

/-! ## Applying the plan -/

/-- Run one operation and record what came of it. -/
def applyOne (options : Options) (state : Draft × PhaseLog) (op : Operation) : Draft × PhaseLog :=
  (op.run state.1 options, state.2.record ⟨op, op.outcome state.1 options⟩)

/-- Run the operations of a phase in the order of its schedule. -/
def applyPhase (options : Options) (draft : Draft) (plan : PhasePlan) : Draft × PhaseLog :=
  plan.schedule.foldl (applyOne options) (draft, { phase := plan.phase })

/-- Run phases one after another. -/
def applyPhases (options : Options) (draft : Draft) : List PhasePlan → Draft × List PhaseLog
  | [] => (draft, [])
  | plan :: rest =>
    let here := applyPhase options draft plan
    let after := applyPhases options here.1 rest
    (after.1, here.2 :: after.2)

/-- Apply a plan, and keep the log. -/
def applyPlan (c : Compilation) (plan : Plan) : Compilation :=
  let (draft, logs) := applyPhases c.options c.draft plan.phases
  { c with draft, stage := { c.stage with progress := .compiled, log? := some ⟨logs⟩ } }

/-- Apply the plan, unless there is a log. -/
def tryCompile (c : Compilation) : Compilation × Except Error Log :=
  if c.progress = .created then (c, .error (.outOfOrder .compile c.progress)) else
    match c.stage.log? with
    | some _ => c.answer .compile Stage.log?
    | none =>
      match c.stage.plan? with
      | some plan => (c.applyPlan plan).answer .compile Stage.log?
      | none => (c, .error (.outOfOrder .compile c.progress))

/-! ## Rendering -/

/-- The entries of the schema that are planned but have no definition. -/
def missing (draft : Draft) (plan : Plan) : List Location :=
  (((plan.phase? .schema).map PhasePlan.targets).getD []).filter fun l => !draft.contains l

/-- The entries that a compilation still lacks.  Without a plan it needs none. -/
def absent (c : Compilation) : List Location := missing c.draft (c.stage.plan?.getD {})

/-- Render the schema, and keep it. -/
def renderDraft (c : Compilation) : Compilation :=
  { c with
    stage := { c.stage with progress := .rendered, schema? := some (Schema.render c.draft) } }

/-- Render the schema, unless there is one. -/
def trySchema (c : Compilation) : Compilation × Except Error Schema :=
  if c.progress < .compiled then (c, .error (.outOfOrder .render c.progress)) else
    match c.stage.schema? with
    | some _ => c.answer .render Stage.schema?
    | none =>
      match c.absent with
      | [] => c.renderDraft.answer .render Stage.schema?
      | absent => (c, .error (.incompleteSchema absent (c.stage.log?.getD {}).failureTexts))

/-! ## Calls -/

/-- Plan, apply and render.  The first step that fails is the last. -/
def tryBuild (c : Compilation) : Compilation × Except Error Schema :=
  match c.tryAnalyze with
  | (analyzed, .error e) => (analyzed, .error e)
  | (analyzed, .ok _) =>
    match analyzed.tryCompile with
    | (compiled, .error e) => (compiled, .error e)
    | (compiled, .ok _) => compiled.trySchema

/-- The compilation after a call, and what the call gives back. -/
def call (c : Compilation) : Call → Compilation × Except Error Product
  | .analyze => (c.tryAnalyze.1, c.tryAnalyze.2.map .plan)
  | .compile => (c.tryCompile.1, c.tryCompile.2.map .log)
  | .schema => (c.trySchema.1, c.trySchema.2.map .schema)
  | .build => (c.tryBuild.1, c.tryBuild.2.map .schema)

/-- The compilation after a call. -/
def after (c : Compilation) (call : Call) : Compilation := (c.call call).1

/-- What a call gives back. -/
def reply (c : Compilation) (call : Call) : Except Error Product := (c.call call).2

/-- The compilation after calls one after another. -/
def afterAll (c : Compilation) (calls : List Call) : Compilation := calls.foldl after c

/-! ## Results

Who makes one step after another, and stops at an error, only sees the compilation that a step leads
to, or what it gives back.
-/

/-- The compilation that a step leads to if it can be done. -/
def reached {α : Type} (result : Compilation × Except Error α) : Except Error Compilation :=
  result.2.map fun _ => result.1

/-- The compilation with its plan. -/
def analyze (c : Compilation) : Except Error Compilation := reached c.tryAnalyze

/-- The compilation with its log. -/
def compile (c : Compilation) : Except Error Compilation := reached c.tryCompile

/-- The compilation with its schema. -/
def render (c : Compilation) : Except Error Compilation := reached c.trySchema

/-- The schema, rendered now if it is not yet. -/
def schema (c : Compilation) : Except Error Schema := c.trySchema.2

/-- The schema that a compilation comes to, or the error that stops it. -/
def build (c : Compilation) : Except Error Schema := c.tryBuild.2

/-- The furthest that a compilation comes, and the error that stops it there. -/
def advance (c : Compilation) : Compilation × Option Error :=
  match c.tryBuild with
  | (c, .error e) => (c, some e)
  | (c, .ok _) => (c, none)

/-! ## What a step can do -/

/-- Planning leaves a compilation as it is, or makes its first plan. -/
theorem tryAnalyze_cases (c : Compilation) :
    c.tryAnalyze.1 = c ∨
    c.stage.plan? = none ∧ ∃ plan, planAll c.options c.draft = .ok plan ∧
      c.tryAnalyze = (c.withPlan plan, .ok plan) := by
  unfold tryAnalyze
  cases hplan : c.stage.plan? with
  | some plan =>
    rw [answer_of_eq_some hplan]
    exact Or.inl rfl
  | none =>
    cases hnew : planAll c.options c.draft with
    | error e => exact Or.inl rfl
    | ok plan => exact Or.inr ⟨rfl, plan, rfl, rfl⟩

/-- Applying the plan leaves a compilation as it is, or makes its first log. -/
theorem tryCompile_cases (c : Compilation) :
    c.tryCompile.1 = c ∨
    c.progress ≠ .created ∧ c.stage.log? = none ∧ ∃ plan, c.stage.plan? = some plan ∧
      c.tryCompile = (c.applyPlan plan, .ok ⟨(applyPhases c.options c.draft plan.phases).2⟩) := by
  unfold tryCompile
  by_cases hcreated : c.progress = .created
  · rw [if_pos hcreated]
    exact Or.inl rfl
  · rw [if_neg hcreated]
    cases hlog : c.stage.log? with
    | some log =>
      rw [answer_of_eq_some hlog]
      exact Or.inl rfl
    | none =>
      cases hplan : c.stage.plan? with
      | some plan => exact Or.inr ⟨hcreated, rfl, plan, rfl, rfl⟩
      | none => exact Or.inl rfl

/-- Rendering leaves a compilation as it is, or makes its first schema. -/
theorem trySchema_cases (c : Compilation) :
    c.trySchema.1 = c ∨
    .compiled ≤ c.progress ∧ c.stage.schema? = none ∧ c.absent = [] ∧
      c.trySchema = (c.renderDraft, .ok (Schema.render c.draft)) := by
  unfold trySchema
  by_cases hearly : c.progress < .compiled
  · rw [if_pos hearly]
    exact Or.inl rfl
  · rw [if_neg hearly]
    cases hschema : c.stage.schema? with
    | some schema =>
      rw [answer_of_eq_some hschema]
      exact Or.inl rfl
    | none =>
      cases habsent : c.absent with
      | nil => exact Or.inr ⟨Progress.not_lt.1 hearly, rfl, rfl, rfl⟩
      | cons l rest => exact Or.inl rfl

/-- A compilation without a plan can be analyzed exactly if its phases can be planned. -/
theorem analyze_eq_ok_iff {c next : Compilation} (hnone : c.stage.plan? = none) :
    c.analyze = .ok next ↔
      ∃ plan, planAll c.options c.draft = .ok plan ∧ next = c.withPlan plan := by
  simp only [analyze, tryAnalyze, hnone]
  cases planAll c.options c.draft with
  | error e => simp [reached, Except.map]
  | ok plan =>
    have hkept : (c.withPlan plan).answer .analyze Stage.plan? = (c.withPlan plan, .ok plan) :=
      answer_of_eq_some rfl
    simp [hkept, reached, Except.map, eq_comm]

/-- A plan that exists is kept. -/
theorem tryAnalyze_of_plan? {c : Compilation} {plan : Plan} (h : c.stage.plan? = some plan) :
    c.tryAnalyze = (c, .ok plan) := by
  simp only [tryAnalyze, h]
  exact answer_of_eq_some h

/-- A log that exists is kept. -/
theorem tryCompile_of_log? {c : Compilation} {log : Log} (hbegun : c.progress ≠ .created)
    (h : c.stage.log? = some log) : c.tryCompile = (c, .ok log) := by
  simp only [tryCompile, if_neg hbegun, h]
  exact answer_of_eq_some h

/-- Rendering comes too early if the plan has not been applied. -/
theorem trySchema_of_lt {c : Compilation} (h : c.progress < .compiled) :
    c.trySchema = (c, .error (.outOfOrder .render c.progress)) :=
  if_pos h

end Compilation

end EventSchema
