import EventSchema.Plan.Log
import EventSchema.Proofs.Agreement

/-!
# Traces of runs

The trace of a run has each operation with its outcome.  What a draft shows at a location after a
run can be read off the trace: its definition is the last one that was applied there, and its
failure is the first cause of an operation there that failed.  A failure stays, so from then on
nothing is applied to the location and whatever reads it fails as well.

Main results:

- {lit}`Operation.failure?_runAll`: the first cause of failure stays.
- {lit}`Operation.get?_runAll`: the last definition that was applied stays.
- {lit}`Operation.failure_freezes_and_propagates`: what failures do to a run, and what each outcome
  changes.
-/

namespace EventSchema

open Std

namespace Draft

/-- Nothing has failed. -/
def Intact (draft : Draft) : Prop := ∀ l, draft.failure? l = none

end Draft

namespace Outcome

/-- The definition that an outcome brings. -/
def definition? : Outcome → Option Definition
  | applied definition _ => some definition
  | _ => none

/-- Only failures have a cause. -/
theorem isSome_cause? (outcome : Outcome) : outcome.cause?.isSome = outcome.isFailed := by
  cases outcome <;> rfl

/-- A failure has a cause. -/
theorem exists_cause_of_isFailed {outcome : Outcome} (h : outcome.isFailed = true) :
    ∃ cause, outcome = .failed cause := by
  cases outcome with
  | failed cause => exact ⟨cause, rfl⟩
  | _ => cases h

end Outcome

namespace LogEntry

/-- The entries for operations with a target, in order. -/
def targeting (entries : List LogEntry) (l : Location) : List LogEntry :=
  entries.filter fun entry => entry.operation.target == l

/-- The cause of the first entry that failed. -/
def firstCause? (entries : List LogEntry) : Option Failure :=
  entries.findSome? (·.outcome.cause?)

/-- The definition of the last entry that was applied. -/
def lastDefinition? (entries : List LogEntry) : Option Definition :=
  (entries.filterMap (·.outcome.definition?)).getLast?

/-- Entries for a location keep their order. -/
theorem targeting_append (entries more : List LogEntry) (l : Location) :
    targeting (entries ++ more) l = targeting entries l ++ targeting more l :=
  List.filter_append ..

/-- An entry is filed under its target. -/
theorem targeting_cons (entry : LogEntry) (entries : List LogEntry) (l : Location) :
    targeting (entry :: entries) l =
      if entry.operation.target = l then entry :: targeting entries l else targeting entries l := by
  simp [targeting, List.filter_cons]

/-- The entries for a location are those with it as their target. -/
theorem mem_targeting {entries : List LogEntry} {l : Location} {entry : LogEntry} :
    entry ∈ targeting entries l ↔ entry ∈ entries ∧ entry.operation.target = l := by
  simp [targeting]

/-- The first cause is that of the first entry that has one. -/
theorem firstCause?_cons (entry : LogEntry) (entries : List LogEntry) :
    firstCause? (entry :: entries) = entry.outcome.cause?.or (firstCause? entries) := by
  unfold firstCause?
  rw [List.findSome?_cons]
  cases entry.outcome.cause? <;> rfl

/-- The last definition is one of the later entries if these have any. -/
theorem lastDefinition?_append (entries more : List LogEntry) :
    lastDefinition? (entries ++ more) = (lastDefinition? more).or (lastDefinition? entries) := by
  simp [lastDefinition?, List.filterMap_append, List.getLast?_append]

/-- The last definition is that of the first entry if there is no later one. -/
theorem lastDefinition?_cons (entry : LogEntry) (entries : List LogEntry) :
    lastDefinition? (entry :: entries) =
      (lastDefinition? entries).or entry.outcome.definition? := by
  rw [← List.singleton_append, lastDefinition?_append]
  cases h : entry.outcome.definition? <;> simp [lastDefinition?, h]

/-- Failures show no definition. -/
theorem lastDefinition?_of_forall_isFailed {entries : List LogEntry}
    (h : ∀ entry ∈ entries, entry.outcome.isFailed = true) : lastDefinition? entries = none := by
  have hnone : entries.filterMap (·.outcome.definition?) = [] := by
    refine List.filterMap_eq_nil_iff.2 fun entry hentry => ?_
    have hfailed := h entry hentry
    cases hout : entry.outcome with
    | failed cause => rfl
    | _ => simp [hout, Outcome.isFailed] at hfailed
  rw [lastDefinition?, hnone]
  rfl

/-- There is a first cause exactly if some entry failed. -/
theorem isSome_firstCause?_iff {entries : List LogEntry} :
    (firstCause? entries).isSome = true ↔ ∃ entry ∈ entries, entry.outcome.isFailed = true := by
  simp [firstCause?, List.findSome?_isSome_iff, Outcome.isSome_cause?]

end LogEntry

namespace Operation

/-- The outcomes of operations that are run one after another. -/
def trace (options : Options) (draft : Draft) : List Operation → List LogEntry
  | [] => []
  | op :: rest => ⟨op, op.outcome draft options⟩ :: trace options (op.run draft options) rest

/-- A trace has the operations of the run, in order. -/
@[simp]
theorem map_operation_trace (options : Options) (draft : Draft) (ops : List Operation) :
    (trace options draft ops).map LogEntry.operation = ops := by
  induction ops generalizing draft with
  | nil => rfl
  | cons op rest ih => rw [trace, List.map_cons, ih]

/-- A trace goes on from the draft that it has come to. -/
theorem trace_append (options : Options) (draft : Draft) (ops more : List Operation) :
    trace options draft (ops ++ more) =
      trace options draft ops ++ trace options (runAll options draft ops) more := by
  induction ops generalizing draft with
  | nil => rfl
  | cons op rest ih => rw [List.cons_append, trace, trace, ih, List.cons_append, runAll_cons]

/-- An entry of a trace is an operation with its outcome on the draft of those before. -/
theorem mem_trace_iff {options : Options} {draft : Draft} {ops : List Operation}
    {entry : LogEntry} :
    entry ∈ trace options draft ops ↔ ∃ before op after, ops = before ++ op :: after ∧
      entry = ⟨op, op.outcome (runAll options draft before) options⟩ := by
  induction ops generalizing draft with
  | nil => simp [trace]
  | cons op rest ih =>
    rw [trace, List.mem_cons, ih]
    constructor
    · rintro (heq | ⟨before, later, after, rfl, heq⟩)
      · exact ⟨[], op, rest, rfl, heq⟩
      · exact ⟨op :: before, later, after, rfl, heq⟩
    · rintro ⟨before, later, after, hsplit, heq⟩
      cases before with
      | nil =>
        rcases List.cons.inj hsplit with ⟨rfl, rfl⟩
        exact Or.inl heq
      | cons first before =>
        rcases List.cons.inj hsplit with ⟨rfl, rfl⟩
        exact Or.inr ⟨before, later, after, rfl, heq⟩

/-! ## One operation -/

/-- After an operation its target has what the outcome brings. -/
theorem get?_run (op : Operation) (draft : Draft) (options : Options) (l : Location) :
    (op.run draft options).get? l =
      (if op.target = l then (op.outcome draft options).definition? else none).or
        (draft.get? l) := by
  by_cases h : op.target = l
  · subst h
    rw [op.get?_run_target]
    cases op.outcome draft options <;> simp [Outcome.definition?]
  · rw [if_neg h, op.run_get?_of_ne draft options h]
    rfl

/-- After an operation its target has failed for the first cause there was. -/
theorem failure?_run (op : Operation) (draft : Draft) (options : Options) (l : Location) :
    (op.run draft options).failure? l =
      (draft.failure? l).or
        (if op.target = l then (op.outcome draft options).cause? else none) := by
  unfold run
  cases op.outcome draft options <;> simp [commit, Draft.failure?_markFailed, Outcome.cause?]

/-- An operation fails if its target or something that it reads has failed. -/
theorem isFailed_outcome_of_failure? {op : Operation} {draft : Draft} (options : Options)
    {p : Location} (hp : p = op.target ∨ p ∈ op.prerequisites)
    (h : (draft.failure? p).isSome = true) : (op.outcome draft options).isFailed = true := by
  have hmem : p ∈ op.prerequisites ++ [op.target] :=
    List.mem_append.2 (hp.symm.imp id fun heq => List.mem_singleton.2 heq)
  have hblocked : (op.blocked? draft).isSome = true := by
    unfold blocked?
    cases hfind : (op.prerequisites ++ [op.target]).find? fun l => (draft.failure? l).isSome with
    | none => exact absurd h (List.find?_eq_none.1 hfind p hmem)
    | some l => rfl
  unfold outcome
  cases hcause : op.blocked? draft with
  | none =>
    rw [hcause] at hblocked
    cases hblocked
  | some cause => rfl

/--
What an operation changes with an outcome.  A failure marks the target, unless it has failed before,
and changes nothing else; an operation that succeeds leaves all failures and all definitions as they
are, but for a new definition of its target.
-/
def Effect (op : Operation) (before after : Draft) : Outcome → Prop
  | .failed cause =>
    after.repository = before.repository ∧ after.edited = before.edited ∧
      after.lineage = before.lineage ∧
      ∀ l, after.failure? l = (before.failure? l).or (if op.target = l then some cause else none)
  | .unchanged =>
    (∀ l, after.failure? l = before.failure? l) ∧ ∀ l, after.get? l = before.get? l
  | .applied d _ =>
    (∀ l, after.failure? l = before.failure? l) ∧
      ∀ l, after.get? l = if op.target = l then some d else before.get? l

/-- An operation has the effect that its outcome tells. -/
theorem effect_run (op : Operation) (draft : Draft) (options : Options) :
    op.Effect draft (op.run draft options) (op.outcome draft options) := by
  unfold run
  cases op.outcome draft options with
  | failed cause => exact ⟨rfl, rfl, rfl, fun l => Draft.failure?_markFailed draft op.target l cause⟩
  | unchanged => simp [Effect, commit]
  | applied d changes => simp [Effect, commit, Draft.get?_write]

/-! ## Runs -/

/-- The first cause of failure at a location stays. -/
theorem failure?_runAll (options : Options) (draft : Draft) (ops : List Operation)
    (l : Location) :
    (runAll options draft ops).failure? l =
      (draft.failure? l).or
        (LogEntry.firstCause? (LogEntry.targeting (trace options draft ops) l)) := by
  -- A cause that was there before wins, so the first entry stands before those of the rest.
  induction ops generalizing draft with
  | nil => simp [trace, LogEntry.targeting, LogEntry.firstCause?]
  | cons op rest ih =>
    rw [runAll_cons, ih, failure?_run, trace, LogEntry.targeting_cons]
    by_cases h : op.target = l
    · simp only [h, if_true, LogEntry.firstCause?_cons, Option.or_assoc]
    · simp only [h, if_false, Option.or_none]

/-- The last definition that was applied at a location stays. -/
theorem get?_runAll (options : Options) (draft : Draft) (ops : List Operation) (l : Location) :
    (runAll options draft ops).get? l =
      (LogEntry.lastDefinition? (LogEntry.targeting (trace options draft ops) l)).or
        (draft.get? l) := by
  -- Here it is the other way round: what the rest brings wins over the first entry.
  induction ops generalizing draft with
  | nil => simp [trace, LogEntry.targeting, LogEntry.lastDefinition?]
  | cons op rest ih =>
    rw [runAll_cons, ih, get?_run, trace, LogEntry.targeting_cons]
    by_cases h : op.target = l
    · simp only [h, if_true, LogEntry.lastDefinition?_cons, Option.or_assoc]
    · simp only [h, if_false, Option.none_or]

/-- What has failed stays failed. -/
theorem isSome_failure?_runAll {options : Options} {draft : Draft} {l : Location}
    (h : (draft.failure? l).isSome = true) (ops : List Operation) :
    ((runAll options draft ops).failure? l).isSome = true := by
  rw [failure?_runAll, Option.isSome_or, h, Bool.true_or]

/-- Nothing is applied to a location that has failed. -/
theorem get?_runAll_of_failure? {options : Options} {draft : Draft} {l : Location}
    (h : (draft.failure? l).isSome = true) (ops : List Operation) :
    (runAll options draft ops).get? l = draft.get? l := by
  induction ops generalizing draft with
  | nil => rfl
  | cons op rest ih =>
    have hnext : ((op.run draft options).failure? l).isSome = true := by
      rw [failure?_run, Option.isSome_or, h, Bool.true_or]
    rw [runAll_cons, ih hnext]
    by_cases htarget : op.target = l
    · exact run_get?_of_failed op draft options l
        (isFailed_outcome_of_failure? options (Or.inl htarget.symm) h)
    · exact op.run_get?_of_ne draft options htarget

/-- From a failure on its target stays as it is, and operations that have or read it fail. -/
theorem frozen_of_failed {options : Options} {draft : Draft} {op : Operation}
    (h : (op.outcome draft options).isFailed = true) (between : List Operation) :
    (runAll options draft (op :: between)).get? op.target = draft.get? op.target ∧
      ∀ next : Operation, next.target = op.target ∨ op.target ∈ next.prerequisites →
        (next.outcome (runAll options draft (op :: between)) options).isFailed = true := by
  have hmarked : ((op.run draft options).failure? op.target).isSome = true := by
    rw [failure?_run, if_pos rfl, Option.isSome_or, Outcome.isSome_cause?, h, Bool.or_true]
  rw [runAll_cons]
  refine ⟨?_, fun next hnext => ?_⟩
  · rw [get?_runAll_of_failure? hmarked, run_get?_of_failed op draft options _ h]
  · exact isFailed_outcome_of_failure? options (hnext.imp Eq.symm id)
      (isSome_failure?_runAll hmarked between)

/--
In a run that begins without failures, the locations that have failed in the end are the targets of
the operations that failed, each for the cause of its first one.  Each operation changes what its
outcome allows.  From a failure on the definition at its target stays, and every operation that has
this target or reads it fails.
-/
theorem failure_freezes_and_propagates (options : Options) {draft : Draft} (hdraft : draft.Intact)
    (ops : List Operation) :
    (∀ l, (runAll options draft ops).failure? l =
        LogEntry.firstCause? (LogEntry.targeting (trace options draft ops) l) ∧
      (l ∈ (runAll options draft ops).failed ↔ ∃ entry ∈ trace options draft ops,
        entry.operation.target = l ∧ entry.outcome.isFailed = true)) ∧
    ∀ before op after, ops = before ++ op :: after →
      let current := runAll options draft before
      op.Effect current (op.run current options) (op.outcome current options) ∧
      ((op.outcome current options).isFailed = true → ∀ between rest, after = between ++ rest →
        let later := runAll options current (op :: between)
        later.get? op.target = current.get? op.target ∧
        ∀ next more, rest = next :: more →
          next.target = op.target ∨ op.target ∈ next.prerequisites →
            (next.outcome later options).isFailed = true) := by
  constructor
  · intro l
    have hfirst : (runAll options draft ops).failure? l =
        LogEntry.firstCause? (LogEntry.targeting (trace options draft ops) l) := by
      rw [failure?_runAll, hdraft l, Option.none_or]
    refine ⟨hfirst, ?_⟩
    rw [ExtTreeMap.mem_iff_isSome_getElem?, ← Draft.failure?, hfirst,
      LogEntry.isSome_firstCause?_iff]
    simp only [LogEntry.mem_targeting, and_assoc]
  · intro before op after _ current
    refine ⟨op.effect_run current options, fun hfailed between rest _ => ?_⟩
    rcases frozen_of_failed hfailed between with ⟨hfrozen, hblocked⟩
    exact ⟨hfrozen, fun next _ _ => hblocked next⟩

/-! ## A failure that spreads -/

/-- A draft with a class and its heir. -/
def classWithHeir : Draft :=
  ((Draft.ofRepository .empty).write (.inCore .eventClass "network")
    ⟨[("name", .str "network")]⟩).write (.inCore .eventClass "http")
    ⟨[("name", .str "http"), ("extends", .str "network")]⟩

/-- An identifier that is taken, given to a class, and then the heir of the class. -/
def takenUidThenHeir : List Operation :=
  [⟨.inCore .eventClass "network",
      .assignClass 4001 "Network" none (some (.inCore .eventClass "dns"))⟩,
    ⟨.inCore .eventClass "http", .inherit (.inCore .eventClass "network")⟩]

/-- The reason why a location has failed after the two operations. -/
def reasonAt (l : Location) : Option String :=
  ((runAll {} classWithHeir takenUidThenHeir).failure? l).map Failure.reason

theorem taken_uid_blocks_heir :
    classWithHeir.Intact ∧
      reasonAt (.inCore .eventClass "network") =
        some "class_uid 4001 is already assigned to class:dns" ∧
      reasonAt (.inCore .eventClass "http") = some "prerequisite class:network failed" := by
  have hintact : classWithHeir.Intact := fun l => by
    simp [classWithHeir, Draft.ofRepository, Draft.failure?, Draft.write]
  rcases failure_freezes_and_propagates {} hintact takenUidThenHeir with ⟨hfailures, -⟩
  refine ⟨hintact, ?_, ?_⟩
  · rw [reasonAt, (hfailures _).1]
    decide +kernel
  · rw [reasonAt, (hfailures _).1]
    decide +kernel

end Operation

end EventSchema
