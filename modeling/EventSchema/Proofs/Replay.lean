import EventSchema.Proofs.Rendering
import EventSchema.Proofs.Traces

/-!
# Logs of compilations

A phase is applied in the order of its schedule, while its plan and its log are filed by target.
The schedule keeps the order of the operations of each target, so plan and log agree target by
target.  What a compiled draft shows at a location can be read off the log.

Main results:

- {lit}`Compilation.get_applyPhase`: a log files the trace of the schedule.
- {lit}`PhaseLog.Mirrors.perm`: a log that mirrors a plan has each of its operations once.
- {lit}`Compilation.get?_applyPhases`: a log replays to the definitions of the compiled draft.
- {lit}`Compilation.log_mirrors_plan_and_replays`: all of it for a repository that can be analyzed.
-/

namespace EventSchema

open Std

namespace LocationMap

theorem values_eq_map_toList {α : Type} (m : LocationMap α) : m.values = m.toList.map Prod.snd := by
  have hfold : m.values = m.foldr (fun _ a rest => a :: rest) [] := rfl
  rw [hfold, ExtTreeMap.foldr_eq_foldr_toList]
  exact (List.map_eq_foldr ..).symm

theorem mem_flatten_values {α : Type} {m : LocationMap (List α)} {l : Location} {a : α}
    (h : a ∈ m[l]?.getD []) : a ∈ m.values.flatten := by
  cases hlist : m[l]? with
  | none => simp [hlist] at h
  | some list =>
    rw [hlist] at h
    rw [values_eq_map_toList]
    refine List.mem_flatten.2 ⟨list, List.mem_map.2 ⟨(l, list), ?_, rfl⟩, h⟩
    exact ExtTreeMap.mem_toList_iff_getElem?_eq_some.2 hlist

/-- Lists that are filed by location have all that belongs to a location in one of them. -/
theorem filter_flatten_values {α : Type} {m : LocationMap (List α)} {place : α → Location}
    (hfiled : ∀ l, ∀ a ∈ m[l]?.getD [], place a = l) (l : Location) :
    (m.values.flatten.filter fun a => place a == l) = m[l]?.getD [] := by
  have hentries : ∀ e ∈ m.toList, ∀ a ∈ e.2, place a = e.1 := by
    intro e he a ha
    refine hfiled e.1 a ?_
    rwa [ExtTreeMap.mem_toList_iff_getElem?_eq_some.1 he]
  -- Lists that are filed under other locations have nothing for this one.
  have hother (entries : List (Location × List α)) (hsub : ∀ e ∈ entries, e ∈ m.toList)
      (hne : ∀ e ∈ entries, e.1 ≠ l) :
      ((entries.map Prod.snd).flatten.filter fun a => place a == l) = [] := by
    refine List.filter_eq_nil_iff.2 fun a ha heq => ?_
    rcases List.mem_flatten.1 ha with ⟨list, hlist, ha⟩
    rcases List.mem_map.1 hlist with ⟨e, he, rfl⟩
    exact hne e he ((hentries e (hsub e he) a ha).symm.trans (beq_iff_eq.1 heq))
  rw [values_eq_map_toList]
  cases hlist : m[l]? with
  | none =>
    refine hother m.toList (fun _ he => he) fun e he heq => ?_
    rw [← heq, ExtTreeMap.mem_toList_iff_getElem?_eq_some.1 he] at hlist
    cases hlist
  | some list =>
    rcases exists_split_toList hlist with ⟨before, after, hsplit, hne⟩
    have hmem : ∀ e ∈ before ++ after, e ∈ m.toList := fun e he => by
      rw [hsplit]
      exact List.mem_append.2 ((List.mem_append.1 he).imp id (List.mem_cons_of_mem _))
    have hbefore := hother before (fun e he => hmem e (List.mem_append_left _ he))
      fun e he => hne e (List.mem_append_left _ he)
    have hafter := hother after (fun e he => hmem e (List.mem_append_right _ he))
      fun e he => hne e (List.mem_append_right _ he)
    have hself : (list.filter fun a => place a == l) = list := by
      refine List.filter_eq_self.2 fun a ha => beq_iff_eq.2 (hfiled l a ?_)
      rwa [hlist]
    rw [hsplit, List.map_append, List.map_cons, List.flatten_append, List.flatten_cons,
      List.filter_append, List.filter_append, hbefore, hafter, hself]
    simp

end LocationMap

open Operation

namespace LogEntry

theorem map_operation_targeting (entries : List LogEntry) (l : Location) :
    (targeting entries l).map LogEntry.operation =
      Operation.targeting (entries.map LogEntry.operation) l := by
  rw [targeting, Operation.targeting, List.filter_map]
  rfl

end LogEntry

namespace PhaseLog

theorem get_foldl_record (log : PhaseLog) (entries : List LogEntry) (l : Location) :
    (entries.foldl record log).get l = log.get l ++ LogEntry.targeting entries l := by
  induction entries generalizing log with
  | nil => simp [LogEntry.targeting]
  | cons entry rest ih =>
    rw [List.foldl_cons, ih, get_record, LogEntry.targeting_cons]
    by_cases h : entry.operation.target = l
    · simp [h]
    · simp [h]

@[simp]
theorem phase_foldl_record (log : PhaseLog) (entries : List LogEntry) :
    (entries.foldl record log).phase = log.phase := by
  induction entries generalizing log with
  | nil => rfl
  | cons entry rest ih => exact ih (log.record entry)

theorem mem_all_of_mem_get {log : PhaseLog} {l : Location} {entry : LogEntry}
    (h : entry ∈ log.get l) : entry ∈ log.all :=
  LocationMap.mem_flatten_values h

/-- A log is about a plan: for every target it has entries for what is planned there, in order. -/
structure Mirrors (log : PhaseLog) (plan : PhasePlan) : Prop where
  phase : log.phase = plan.phase
  operations : ∀ l, (log.get l).map LogEntry.operation = plan.get l

/-- A log that mirrors a plan has an entry for each of its operations. -/
theorem Mirrors.perm {log : PhaseLog} {plan : PhasePlan} (h : log.Mirrors plan)
    (hplan : plan.Filed) : (log.all.map LogEntry.operation).Perm plan.all := by
  have hlog : ∀ l, ∀ entry ∈ log.get l, entry.operation.target = l := by
    intro l entry hentry
    refine hplan l entry.operation ?_
    rw [← h.operations l]
    exact List.mem_map_of_mem hentry
  apply perm_of_targeting_eq
  intro l
  calc
    targeting (log.all.map LogEntry.operation) l =
        (LogEntry.targeting log.all l).map LogEntry.operation :=
      (LogEntry.map_operation_targeting log.all l).symm
    _ = (log.get l).map LogEntry.operation :=
      congrArg (List.map LogEntry.operation) (LocationMap.filter_flatten_values hlog l)
    _ = plan.get l := h.operations l
    _ = targeting plan.all l := (LocationMap.filter_flatten_values hplan l).symm

end PhaseLog

namespace Log

/-- Every entry counts as applied, unchanged or failed. -/
theorem statistics_sum (log : Log) :
    log.statistics.applied + log.statistics.unchanged + log.statistics.failed =
      log.entries.length := by
  have hfold (entries : List LogEntry) (s : Statistics) :
      let total := entries.foldl (fun s entry => s.count entry.outcome) s
      total.applied + total.unchanged + total.failed =
        s.applied + s.unchanged + s.failed + entries.length := by
    induction entries generalizing s with
    | nil => rfl
    | cons entry rest ih =>
      have hrest := ih (s.count entry.outcome)
      have hcount : (s.count entry.outcome).applied + (s.count entry.outcome).unchanged +
          (s.count entry.outcome).failed = s.applied + s.unchanged + s.failed + 1 := by
        cases entry.outcome <;> simp only [Statistics.count] <;> omega
      simp only [List.foldl_cons, List.length_cons] at hrest ⊢
      omega
  simpa [statistics] using hfold log.entries {}

/-- A log whose phases mirror those of a plan has as many entries as the plan has operations. -/
theorem length_entries_eq_size {logs : List PhaseLog} {plans : List PhasePlan}
    (h : List.Forall₂ PhaseLog.Mirrors logs plans) (hplans : ∀ plan ∈ plans, plan.Filed) :
    (⟨logs⟩ : Log).entries.length = (⟨plans⟩ : Plan).size := by
  unfold entries Plan.size
  induction h with
  | nil => rfl
  | @cons log plan logs plans hhead _ ih =>
    have hlength := (hhead.perm (hplans plan List.mem_cons_self)).length_eq
    rw [List.length_map] at hlength
    have hrest := ih fun plan hplan => hplans plan (List.mem_cons_of_mem _ hplan)
    rw [List.flatMap_cons, List.flatMap_cons, List.length_append, List.length_append, hlength,
      hrest]

/-- A log whose phases mirror those of a plan has entries for what is planned for a location. -/
theorem map_operation_entriesFor {logs : List PhaseLog} {plans : List PhasePlan}
    (h : List.Forall₂ PhaseLog.Mirrors logs plans) (l : Location) :
    ((⟨logs⟩ : Log).entriesFor l).map LogEntry.operation = (⟨plans⟩ : Plan).operationsFor l := by
  unfold entriesFor Plan.operationsFor
  induction h with
  | nil => rfl
  | cons hhead _ ih =>
    rw [List.flatMap_cons, List.flatMap_cons, List.map_append, hhead.operations, ih]

end Log

namespace Compilation

/-! ## One phase -/

/-- Applying a phase runs its schedule and records the trace. -/
theorem applyPhase_eq (options : Options) (draft : Draft) (plan : PhasePlan) :
    applyPhase options draft plan = (runAll options draft plan.schedule,
      (trace options draft plan.schedule).foldl PhaseLog.record { phase := plan.phase }) := by
  have hfold (ops : List Operation) (state : Draft × PhaseLog) :
      ops.foldl (applyOne options) state =
        (runAll options state.1 ops, (trace options state.1 ops).foldl PhaseLog.record state.2) := by
    induction ops generalizing state with
    | nil => rfl
    | cons op rest ih => exact ih (applyOne options state op)
  exact hfold plan.schedule _

/-- The log of a phase has for every target what the trace of the schedule has for it. -/
theorem get_applyPhase (options : Options) (draft : Draft) (plan : PhasePlan) (l : Location) :
    (applyPhase options draft plan).2.get l =
      LogEntry.targeting (trace options draft plan.schedule) l := by
  rw [applyPhase_eq, PhaseLog.get_foldl_record]
  simp [PhaseLog.get]

@[simp]
theorem phase_applyPhase (options : Options) (draft : Draft) (plan : PhasePlan) :
    (applyPhase options draft plan).2.phase = plan.phase := by
  rw [applyPhase_eq, PhaseLog.phase_foldl_record]

/-- The log of a phase holds the outcomes of its schedule. -/
theorem mem_get_applyPhase {options : Options} {draft : Draft} {plan : PhasePlan} {l : Location}
    {entry : LogEntry} : entry ∈ (applyPhase options draft plan).2.get l ↔
      ∃ before op after, plan.schedule = before ++ op :: after ∧ op.target = l ∧
        entry = ⟨op, op.outcome (runAll options draft before) options⟩ := by
  rw [get_applyPhase, LogEntry.mem_targeting, mem_trace_iff]
  constructor
  · rintro ⟨⟨before, op, after, hsplit, rfl⟩, htarget⟩
    exact ⟨before, op, after, hsplit, htarget, rfl⟩
  · rintro ⟨before, op, after, hsplit, htarget, rfl⟩
    exact ⟨⟨before, op, after, hsplit, rfl⟩, htarget⟩

theorem mirrors_applyPhase (options : Options) (draft : Draft) {plan : PhasePlan}
    (hproper : plan.Proper) (hfiled : plan.Filed) :
    (applyPhase options draft plan).2.Mirrors plan := by
  refine ⟨phase_applyPhase options draft plan, fun l => ?_⟩
  rw [get_applyPhase, LogEntry.map_operation_targeting, map_operation_trace,
    plan.targeting_schedule hproper hfiled]

/-! ## All phases -/

theorem mirrors_applyPhases (options : Options) (draft : Draft) {plans : List PhasePlan}
    (hplans : ∀ plan ∈ plans, plan.Proper ∧ plan.Filed) :
    List.Forall₂ PhaseLog.Mirrors (applyPhases options draft plans).2 plans := by
  induction plans generalizing draft with
  | nil => exact .nil
  | cons plan rest ih =>
    rcases hplans plan List.mem_cons_self with ⟨hproper, hfiled⟩
    refine .cons (mirrors_applyPhase options draft hproper hfiled) (ih _ fun other hother => ?_)
    exact hplans other (List.mem_cons_of_mem plan hother)

/-- The log of some phases has for a target what the trace of their schedules has for it. -/
theorem entriesFor_applyPhases (options : Options) (draft : Draft) (plans : List PhasePlan)
    (l : Location) :
    (⟨(applyPhases options draft plans).2⟩ : Log).entriesFor l =
      LogEntry.targeting (trace options draft (plans.flatMap PhasePlan.schedule)) l := by
  induction plans generalizing draft with
  | nil => rfl
  | cons plan rest ih =>
    rw [List.flatMap_cons, trace_append, LogEntry.targeting_append, ← get_applyPhase, ← ih,
      ← draft_applyPhase]
    rfl

/-- The log replays: a definition is the last one that was applied at its location. -/
theorem get?_applyPhases (options : Options) (draft : Draft) (plans : List PhasePlan)
    (l : Location) :
    (applyPhases options draft plans).1.get? l =
      (LogEntry.lastDefinition? ((⟨(applyPhases options draft plans).2⟩ : Log).entriesFor l)).or
        (draft.get? l) := by
  rw [draft_applyPhases, get?_runAll, entriesFor_applyPhases]

/-- The log tells what failed: a location has failed for the first cause there. -/
theorem failure?_applyPhases (options : Options) (draft : Draft) (plans : List PhasePlan)
    (l : Location) :
    (applyPhases options draft plans).1.failure? l =
      (draft.failure? l).or
        (LogEntry.firstCause? ((⟨(applyPhases options draft plans).2⟩ : Log).entriesFor l)) := by
  rw [draft_applyPhases, failure?_runAll, entriesFor_applyPhases]

/-- What is planned for a phase is filed by target. -/
theorem PlannedAs.proper_and_filed {options : Options} {draft : Draft} {plan : Plan}
    {structural dictionary identifiers : List Operation}
    (h : PlannedAs options draft plan structural dictionary identifiers) :
    ∀ phase ∈ plan.phases, phase.Proper ∧ phase.Filed := by
  intro phase hphase
  rw [h.phases_eq] at hphase
  simp only [List.mem_cons, List.not_mem_nil, or_false] at hphase
  rcases hphase with rfl | rfl | rfl | rfl <;>
    exact ⟨PhasePlan.proper_ofOperations _ _, PhasePlan.filed_ofOperations _ _⟩

/--
A repository that can be analyzed can be compiled, and the log mirrors the plan: it has the phases
of the plan in order, in each of them entries for what is planned for a target, in order, and as
many entries as there are operations.  The log also replays to the result: a definition is the last
one that was applied at its location, or the one of the repository if none was.
-/
theorem log_mirrors_plan_and_replays {repository : Repository} {options : Options}
    {analyzed : Compilation} (h : (ofRepository repository options).analyze = .ok analyzed) :
    ∃ plan compiled log, analyzed.stage = .analyzed plan ∧ analyzed.compile = .ok compiled ∧
      compiled.stage = .compiled plan log ∧
      List.Forall₂ (fun recorded planned => recorded.phase = planned.phase ∧
        ∀ l, (recorded.get l).map LogEntry.operation = planned.get l) log.phases plan.phases ∧
      log.statistics.applied + log.statistics.unchanged + log.statistics.failed = plan.size ∧
      (∀ l, compiled.draft.get? l =
        (LogEntry.lastDefinition? (log.entriesFor l)).or (repository.get? l)) ∧
      ∀ l, plan.operationsFor l = [] → compiled.draft.get? l = repository.get? l := by
  rcases analyze_ofRepository_eq_ok_iff.1 h with ⟨scratch, plan, hplan, rfl⟩
  rcases exists_plannedAs hplan with ⟨structural, dictionary, identifiers, hplanned, -⟩
  have hplans := hplanned.proper_and_filed
  have hmirrors := mirrors_applyPhases options (.ofRepository repository) hplans
  have hreplays := get?_applyPhases options (.ofRepository repository) plan.phases
  refine ⟨plan, _, _, rfl, compile_analyzed _ _ _, rfl, ?_, ?_, fun l => ?_, fun l hl => ?_⟩
  · exact hmirrors.imp fun _ _ hlog => ⟨hlog.phase, hlog.operations⟩
  · rw [Log.statistics_sum, Log.length_entries_eq_size hmirrors fun phase hp => (hplans phase hp).2]
  · rw [hreplays, Draft.get?_ofRepository]
  · have hentries := Log.map_operation_entriesFor hmirrors l
    rw [hl, List.map_eq_nil_iff] at hentries
    rw [hreplays, hentries, Draft.get?_ofRepository]
    rfl

/-- How many operations are planned, and those for a location. -/
def plannedFor (l : Location) (way : Way) : Nat × Nat :=
  (way.plan.size, (way.plan.operationsFor l).length)

/-- Two copies are logged, and an object with the same key as another one is left as it is. -/
theorem shared_key_is_logged_twice :
    ∃ way : Way, ∃ log : Log, Repository.ofFiles sharedKey = .ok way.repository ∧
      (ofRepository way.repository {}).analyze = .ok way.analyzed ∧
      way.compiled.stage.log? = some log ∧
      log.statistics.applied + log.statistics.unchanged + log.statistics.failed = 2 ∧
      way.compiled.draft.get? (.entry .objects "k") =
        (LogEntry.lastDefinition? (log.entriesFor (.entry .objects "k"))).or
          (way.repository.get? (.entry .objects "k")) ∧
      way.compiled.draft.get? (.inCore .object "a") =
        way.repository.get? (.inCore .object "a") := by
  have hview : (wayOf sharedKey).map (plannedFor (.inCore .object "a")) = some (2, 0) := by
    decide +kernel
  rcases exists_of_wayOf hview with ⟨way, hfiles, hanalyze, hplan, hcompile, -, hway⟩
  rcases Prod.mk.inj hway with ⟨hsize, hnone⟩
  rcases log_mirrors_plan_and_replays hanalyze with
    ⟨plan, compiled, log, hstage, hcompile', hlog, -, hsum, hreplays, huntouched⟩
  rw [hstage] at hplan
  cases hplan
  cases hcompile.symm.trans hcompile'
  refine ⟨way, log, hfiles, hanalyze, ?_, hsum.trans hsize, hreplays _, ?_⟩
  · rw [hlog]
    rfl
  · exact huntouched _ (List.eq_nil_of_length_eq_zero hnone)

end Compilation

end EventSchema
