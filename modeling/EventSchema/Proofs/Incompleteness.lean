import EventSchema.Proofs.StructuralRuns

/-!
# Incomplete schemas

A schema is incomplete if some planned entry of it has no definition in the end.  What is copied to
an entry was there when the copy was planned.  It is still there in the end, since the structural
phase, which alone brings in new definitions, does not fail.  So a copy fails only behind another
failure, and the log tells both.

Main results:

- {lit}`Compilation.contains_of_copies`: what is planned to be copied is there in the end.
- {lit}`Compilation.get?_finalDraft_eq_none_iff`: an entry is missing if every copy to it failed.
- {lit}`Compilation.explained_of_missing`: a missing entry goes back to a failure that is told.
- {lit}`Compilation.incomplete_schema_is_explained`: when a schema is incomplete, what it lacks, and
  why.
-/

namespace EventSchema

open Std

namespace Draft

/-- Where nothing is shown, the first source is broken. -/
theorem ShowsLast.exists_broken {draft : Draft} {sources : List Location}
    (h : draft.ShowsLast sources none) (hsources : sources ≠ []) :
    ∃ source ∈ sources, draft.isIntact source = false := by
  cases sources with
  | nil => exact absurd rfl hsources
  | cons source rest =>
    refine ⟨source, List.mem_cons_self, Bool.eq_false_iff.2 fun hintact => ?_⟩
    unfold ShowsLast at h
    rw [List.takeWhile_cons_of_pos hintact, List.getLast?_cons] at h
    rcases h with ⟨d, copy, -, hcopy, -⟩
    cases hcopy

end Draft

namespace Log

/-- What is told of an operation that failed. -/
def report (op : Operation) (cause : Failure) : String := op.text ++ ": " ++ cause.reason

theorem mem_entries_of_mem_entriesFor {log : Log} {l : Location} {entry : LogEntry}
    (h : entry ∈ log.entriesFor l) : entry ∈ log.entries := by
  rcases List.mem_flatMap.1 h with ⟨phase, hphase, hentry⟩
  exact List.mem_flatMap.2 ⟨phase, hphase, PhaseLog.mem_all_of_mem_get hentry⟩

theorem entries_append (logs more : List PhaseLog) :
    (⟨logs ++ more⟩ : Log).entries = (⟨logs⟩ : Log).entries ++ (⟨more⟩ : Log).entries :=
  List.flatMap_append

theorem entriesFor_append (logs more : List PhaseLog) (l : Location) :
    (⟨logs ++ more⟩ : Log).entriesFor l =
      (⟨logs⟩ : Log).entriesFor l ++ (⟨more⟩ : Log).entriesFor l :=
  List.flatMap_append

/-- Every operation that copies something to a target failed. -/
def CopiesFailed (log : Log) (target : Location) : Prop :=
  ∀ source outcome, ⟨⟨target, .copyRendered source⟩, outcome⟩ ∈ log.entriesFor target →
    outcome.isFailed = true

end Log

namespace Operation

/-- The target of an operation that succeeded is there at the end of the run. -/
theorem contains_of_mem_trace {options : Options} {draft : Draft} {ops : List Operation}
    {entry : LogEntry} (hentry : entry ∈ trace options draft ops)
    (h : entry.outcome.isFailed = false) :
    (runAll options draft ops).contains entry.operation.target = true := by
  rcases mem_trace_iff.1 hentry with ⟨before, op, after, rfl, rfl⟩
  rw [runAll_append, runAll_cons]
  exact contains_runAll options (contains_target_run h) after

/-- What is there after operations that create nothing was there before. -/
theorem contains_of_contains_runAll {options : Options} {draft : Draft} {ops : List Operation}
    (hops : ∀ op ∈ ops, op.action.createsTarget = false) {l : Location}
    (h : (runAll options draft ops).contains l = true) : draft.contains l = true := by
  induction ops generalizing draft with
  | nil => exact h
  | cons op rest ih =>
    have hafter := ih (fun other hother => hops other (List.mem_cons_of_mem op hother)) h
    by_cases htarget : op.target = l
    · subst htarget
      rcases Option.isSome_iff_exists.1 hafter with ⟨d, hd⟩
      rw [op.get?_run_target] at hd
      split at hd
      · rename_i happlied
        rcases exists_get?_of_applied happlied (hops op List.mem_cons_self) with ⟨before, hbefore⟩
        exact Draft.contains_of_get? hbefore
      · exact Draft.contains_of_get? hd
    · rwa [Draft.contains, op.run_get?_of_ne draft options htarget] at hafter

end Operation

/-- A location is planned to be copied to a target. -/
def Plan.Copies (plan : Plan) (source target : Location) : Prop :=
  ⟨target, .copyRendered source⟩ ∈ plan.operationsFor target

namespace Compilation

open Operation

theorem schema_compiled_eq_error_iff {options : Options} {draft : Draft} {plan : Plan} {log : Log}
    {absent : List Location} {failures : List String} :
    (⟨options, draft, .compiled plan log⟩ : Compilation).schema =
        .error (.incompleteSchema absent failures) ↔
      absent = missing draft plan ∧ absent ≠ [] ∧ failures = log.failureTexts := by
  rw [schema_compiled]
  cases missing draft plan with
  | nil =>
    simp only [reduceCtorEq, false_iff]
    rintro ⟨rfl, hne, -⟩
    exact hne rfl
  | cons l rest =>
    simp only [Except.error.injEq, Error.incompleteSchema.injEq]
    constructor
    · rintro ⟨rfl, rfl⟩
      exact ⟨rfl, List.cons_ne_nil _ _, rfl⟩
    · rintro ⟨rfl, -, rfl⟩
      exact ⟨rfl, rfl⟩

/-- Missing entries are listed in order. -/
theorem ordered_missing (draft : Draft) (plan : Plan) :
    (missing draft plan).Pairwise fun l later => compare l later = .lt := by
  refine List.Pairwise.filter _ ?_
  cases plan.phase? .schema with
  | none => exact .nil
  | some phase => exact phase.operations.ordered_keys

/-- What is logged for a target is planned for it. -/
theorem operation_of_mem_entriesFor {options : Options} {draft : Draft} {plans : List PhasePlan}
    {l : Location} {entry : LogEntry}
    (h : entry ∈ (⟨(applyPhases options draft plans).2⟩ : Log).entriesFor l) :
    entry.operation ∈ plans.flatMap PhasePlan.schedule ∧ entry.operation.target = l := by
  rw [entriesFor_applyPhases] at h
  rcases LogEntry.mem_targeting.1 h with ⟨hmem, htarget⟩
  have hop := List.mem_map_of_mem (f := LogEntry.operation) hmem
  rw [map_operation_trace] at hop
  exact ⟨hop, htarget⟩

/-- A target of an operation that succeeded is there in the end. -/
theorem contains_of_mem_entriesFor {options : Options} {draft : Draft} {plans : List PhasePlan}
    {l : Location} {entry : LogEntry}
    (hentry : entry ∈ (⟨(applyPhases options draft plans).2⟩ : Log).entriesFor l)
    (h : entry.outcome.isFailed = false) : (applyPhases options draft plans).1.contains l = true := by
  rw [entriesFor_applyPhases] at hentry
  rcases LogEntry.mem_targeting.1 hentry with ⟨hmem, rfl⟩
  rw [draft_applyPhases]
  exact contains_of_mem_trace hmem h

theorem logs_applyPhases_append (options : Options) (draft : Draft) (plans more : List PhasePlan) :
    (applyPhases options draft (plans ++ more)).2 =
      (applyPhases options draft plans).2 ++
        (applyPhases options (applyPhases options draft plans).1 more).2 := by
  induction plans generalizing draft with
  | nil => rfl
  | cons plan rest ih => exact congrArg (_ :: ·) (ih _)

/-- Nothing but extensions brings in new definitions before the schema. -/
theorem Proposes.createsTarget {options : Options} {draft : Draft} {phase : Phase}
    {ops : List Operation} (h : Proposes options draft phase.planners ops)
    (hphase : phase = .dictionary ∨ phase = .identifiers) :
    ∀ op ∈ ops, op.action.createsTarget = false := by
  intro op hop
  rcases h.exists_emits hop with ⟨planner, hplanner, hemits⟩
  have hschema : phase ≠ .schema := by
    rintro rfl
    simp at hphase
  apply hemits.createsTarget _ (Planner.ne_rendering_of_mem hschema hplanner)
  rintro rfl
  rcases hphase with rfl | rfl <;> simp [Phase.planners] at hplanner

section

variable {repository : Repository} {options : Options} {plan : Plan}
  {structural dictionary identifiers : List Operation}

/-! ## Planned copies -/

section

variable (h : PlannedAs options (.ofRepository repository) plan structural dictionary identifiers)

include h

/-- Copies are planned to entries of the schema only. -/
theorem part?_ne_of_copies {source target : Location} (hcopies : plan.Copies source target) :
    target.part? ≠ none := by
  have hlast {phase : Phase} {draft : Draft} {ops : List Operation}
      (hops : Proposes options draft phase.planners ops) (hphase : phase ≠ .schema)
      (hop : (⟨target, .copyRendered source⟩ : Operation) ∈ ops) : False := by
    rcases hops.exists_emits hop with ⟨planner, hplanner, hemits⟩
    exact Planner.ne_rendering_of_mem hphase hplanner (hemits.eq_rendering rfl)
  have hop : (⟨target, .copyRendered source⟩ : Operation) ∈
      (⟨plan.phases⟩ : Plan).operationsFor target := hcopies
  rw [h.phases_eq] at hop
  simp only [Plan.mem_operationsFor_cons, and_true] at hop
  rcases hop with hop | hop | hop | hop | hop
  · exact (hlast h.proposes_structural (by decide) hop).elim
  · exact (hlast h.proposes_dictionary (by decide) hop).elim
  · exact (hlast h.proposes_identifiers (by decide) hop).elim
  · exact (Planner.emits_render hop).part?_target_ne
  · cases hop

theorem copies_iff_mem_sourcesOf {source target : Location} (htarget : target.part? ≠ none) :
    plan.Copies source target ↔ source ∈ plan.sourcesOf target := by
  rw [Plan.Copies, operationsFor_eq_copies h htarget, copies]
  simp

/-- The targets of the last phase are those that something is planned to be copied to. -/
theorem mem_targets_schema_iff {target : Location} :
    target ∈ (PhasePlan.ofOperations .schema (Planner.render
      (seenByRendering options repository structural dictionary identifiers) options)).targets ↔
      ∃ source, plan.Copies source target := by
  constructor
  · intro hmem
    rw [PhasePlan.mem_targets_iff, PhasePlan.proper_ofOperations, PhasePlan.get_ofOperations] at hmem
    rcases List.exists_mem_of_ne_nil _ hmem with ⟨op, hop⟩
    have hemits := Planner.emits_render (mem_targeting.1 hop).1
    have htarget : target.part? ≠ none := (mem_targeting.1 hop).2 ▸ hemits.part?_target_ne
    rcases hemits.exists_copyRendered with ⟨source, haction, -⟩
    refine ⟨source, (copies_iff_mem_sourcesOf h htarget).2 (List.mem_filterMap.2 ⟨op, ?_, ?_⟩)⟩
    · rwa [operationsFor_eq_targeting h htarget]
    · rw [haction]
      rfl
  · rintro ⟨source, hcopies⟩
    have hop : (⟨target, .copyRendered source⟩ : Operation) ∈ plan.operationsFor target := hcopies
    rw [operationsFor_eq_targeting h (part?_ne_of_copies h hcopies),
      ← PhasePlan.get_ofOperations .schema] at hop
    exact PhasePlan.mem_targets_of_mem_get hop

/-- Entries of the schema that are missing are planned and have no definition. -/
theorem mem_missing_iff {draft : Draft} {target : Location} :
    target ∈ missing draft plan ↔
      (∃ source, plan.Copies source target) ∧ draft.get? target = none := by
  rw [missing, phase?_schema h, Option.map_some, Option.getD_some, List.mem_filter,
    mem_targets_schema_iff h, Draft.contains]
  simp

end

/-! ## What is copied -/

/-- What is there after the structural phase as planned is there after it as scheduled. -/
theorem contains_schedule_structural (hr : repository.Reachable)
    (h : Proposes options (.ofRepository repository) Phase.structural.planners structural)
    {l : Location} (hl : (runAll options (.ofRepository repository) structural).contains l = true) :
    (runAll options (.ofRepository repository)
      (PhasePlan.ofOperations .structural structural).schedule).contains l = true := by
  by_cases hnone : targeting structural l = []
  · rw [contains_runAll_of_targeting_eq_nil _ _ hnone] at hl
    exact contains_runAll options hl _
  · -- Whether the dry run failed there does not matter, since the schedule does not fail.
    rcases List.exists_mem_of_ne_nil _ hnone with ⟨op, hop⟩
    rcases mem_targeting.1 hop with ⟨hmem, rfl⟩
    have hestablished := established_schedule hr h (List.append_nil _).symm
    exact hestablished.contains op ((PhasePlan.schedule_perm _ _).mem_iff.2 hmem)

/-- What is planned to be copied is there in the end. -/
theorem contains_of_copies (hr : repository.Reachable)
    (h : PlannedAs options (.ofRepository repository) plan structural dictionary identifiers)
    {source target : Location} (hcopies : plan.Copies source target) :
    (finalDraft options repository plan).contains source = true := by
  have htarget := part?_ne_of_copies h hcopies
  rcases exists_entry_of_mem_sourcesOf h htarget
      ((copies_iff_mem_sourcesOf h htarget).1 hcopies) with ⟨d, hd, -⟩
  have hseen := Draft.contains_of_get? hd
  rw [seenByRendering, List.append_assoc, runAll_append] at hseen
  have hstructural := contains_of_contains_runAll (fun op hop => (List.mem_append.1 hop).elim
    (h.proposes_dictionary.createsTarget (.inl rfl) op)
    (h.proposes_identifiers.createsTarget (.inr rfl) op)) hseen
  have hscheduled := contains_schedule_structural hr h.proposes_structural hstructural
  rw [finalDraft_eq h, beforeSchema, List.append_assoc, runAll_append]
  exact contains_runAll options (contains_runAll options hscheduled _) _

/-! ## Missing entries -/

/-- The log that a plan leads to. -/
def finalLog (options : Options) (repository : Repository) (plan : Plan) : Log :=
  ⟨(applyPhases options (.ofRepository repository) plan.phases).2⟩

/--
A missing entry is explained: something failed at a location that is planned to be copied to it,
then the copy failed, and the failures tell both.
-/
def Explained (plan : Plan) (log : Log) (failures : List String) (target : Location) : Prop :=
  ∃ root cause blocked, plan.Copies root.target target ∧
    [⟨root, .failed cause⟩, ⟨⟨target, .copyRendered root.target⟩, .failed blocked⟩].Sublist
      log.failures ∧
    [Log.report root cause, Log.report ⟨target, .copyRendered root.target⟩ blocked].Sublist failures

section

variable (h : PlannedAs options (.ofRepository repository) plan structural dictionary identifiers)

include h

theorem map_operation_entriesFor_finalLog (l : Location) :
    ((finalLog options repository plan).entriesFor l).map LogEntry.operation =
      plan.operationsFor l :=
  Log.map_operation_entriesFor (mirrors_applyPhases options _ h.proper_and_filed) l

/-- The last phase is logged behind all others, and it alone is about entries of the schema. -/
theorem sublist_entries_finalLog {source target : Location} (hsource : source.part? = none)
    (htarget : target.part? ≠ none) {root copy : LogEntry}
    (hroot : root ∈ (finalLog options repository plan).entriesFor source)
    (hcopy : copy ∈ (finalLog options repository plan).entriesFor target) :
    [root, copy].Sublist (finalLog options repository plan).entries := by
  have hphases : plan.phases = [.ofOperations .structural structural,
      .ofOperations .dictionary dictionary, .ofOperations .identifiers identifiers] ++
        [.ofOperations .schema (Planner.render
          (seenByRendering options repository structural dictionary identifiers) options)] :=
    h.phases_eq
  rw [finalLog, hphases, logs_applyPhases_append, Log.entriesFor_append] at hroot hcopy
  rw [finalLog, hphases, logs_applyPhases_append, Log.entries_append]
  refine List.Sublist.append (List.singleton_sublist.2 ?_) (List.singleton_sublist.2 ?_)
  · rcases List.mem_append.1 hroot with hroot | hroot
    · exact Log.mem_entries_of_mem_entriesFor hroot
    · rcases operation_of_mem_entriesFor hroot with ⟨hop, rfl⟩
      rw [List.flatMap_singleton] at hop
      have hemits := Planner.emits_render ((PhasePlan.schedule_perm _ _).mem_iff.1 hop)
      exact absurd hsource hemits.part?_target_ne
  · rcases List.mem_append.1 hcopy with hcopy | hcopy
    · rcases operation_of_mem_entriesFor hcopy with ⟨hop, rfl⟩
      simp only [List.flatMap_cons, List.flatMap_nil, List.append_nil, ← List.append_assoc] at hop
      exact absurd (part?_target_of_mem h (perm_schedules.mem_iff.1 hop)) htarget
    · exact Log.mem_entries_of_mem_entriesFor hcopy

end

/-- An entry of the schema has no definition exactly if all copies to it failed. -/
theorem get?_finalDraft_eq_none_iff (hr : repository.Reachable)
    (h : PlannedAs options (.ofRepository repository) plan structural dictionary identifiers)
    {target : Location} (htarget : target.part? ≠ none) :
    (finalDraft options repository plan).get? target = none ↔
      (finalLog options repository plan).CopiesFailed target := by
  constructor
  · intro hnone source outcome hentry
    by_contra hsucceeds
    have hthere := contains_of_mem_entriesFor hentry (Bool.eq_false_iff.2 hsucceeds)
    rw [← finalDraft, Draft.contains, hnone] at hthere
    cases hthere
  · intro hfailed
    have hall : ∀ entry ∈ (finalLog options repository plan).entriesFor target,
        entry.outcome.isFailed = true := by
      rintro ⟨op, outcome⟩ hentry
      have hop := List.mem_map_of_mem (f := LogEntry.operation) hentry
      rw [map_operation_entriesFor_finalLog h, operationsFor_eq_copies h htarget] at hop
      rcases List.mem_map.1 hop with ⟨source, -, rfl⟩
      exact hfailed source outcome hentry
    have hrepository : repository.get? target = none :=
      Option.eq_none_iff_forall_ne_some.2 fun d hd => htarget (hr.sound.part? target d hd)
    rw [finalDraft, get?_applyPhases, ← finalLog, LogEntry.lastDefinition?_of_forall_isFailed hall,
      Draft.get?_ofRepository, hrepository]
    rfl

/-- Behind a missing entry something failed at a location that is planned to be copied to it. -/
theorem exists_failed_source (hr : repository.Reachable)
    (h : PlannedAs options (.ofRepository repository) plan structural dictionary identifiers)
    {target : Location} (hplanned : ∃ source, plan.Copies source target)
    (hmissing : (finalDraft options repository plan).get? target = none) :
    ∃ root cause, plan.Copies root.target target ∧
      ⟨root, .failed cause⟩ ∈ (finalLog options repository plan).entriesFor root.target := by
  rcases hplanned with ⟨any, hany⟩
  have htarget := part?_ne_of_copies h hany
  have hshows := showsLast_of_plannedAs hr.sound h htarget
  rw [hmissing] at hshows
  rcases hshows.exists_broken (List.ne_nil_of_mem ((copies_iff_mem_sourcesOf h htarget).1 hany)) with
    ⟨source, hsource, hbroken⟩
  have hcopies := (copies_iff_mem_sourcesOf h htarget).2 hsource
  -- The source is there, so what breaks it is a failure.
  have hfailure : ((finalDraft options repository plan).failure? source).isSome = true := by
    have hthere := contains_of_copies hr h hcopies
    rw [Draft.contains] at hthere
    rw [Draft.isIntact, hthere, Bool.and_true] at hbroken
    simpa using hbroken
  rw [finalDraft, failure?_applyPhases, Draft.failure?_ofRepository, Option.none_or, ← finalLog,
    LogEntry.isSome_firstCause?_iff] at hfailure
  rcases hfailure with ⟨⟨root, outcome⟩, hroot, hfailed⟩
  rcases Outcome.exists_cause_of_isFailed hfailed with ⟨cause, rfl⟩
  rcases operation_of_mem_entriesFor hroot with ⟨-, rfl⟩
  exact ⟨root, cause, hcopies, hroot⟩

/-- Each copy to a missing entry failed. -/
theorem exists_failed_copy (hr : repository.Reachable)
    (h : PlannedAs options (.ofRepository repository) plan structural dictionary identifiers)
    {source target : Location} (hcopies : plan.Copies source target)
    (hmissing : (finalDraft options repository plan).get? target = none) :
    ∃ blocked, ⟨⟨target, .copyRendered source⟩, .failed blocked⟩ ∈
      (finalLog options repository plan).entriesFor target := by
  have hlogged : (⟨target, .copyRendered source⟩ : Operation) ∈
      ((finalLog options repository plan).entriesFor target).map LogEntry.operation := by
    rw [map_operation_entriesFor_finalLog h]
    exact hcopies
  rcases List.mem_map.1 hlogged with ⟨⟨copy, outcome⟩, hcopy, rfl⟩
  have hfailed := (get?_finalDraft_eq_none_iff hr h (part?_ne_of_copies h hcopies)).1 hmissing
  rcases Outcome.exists_cause_of_isFailed (hfailed source outcome hcopy) with ⟨blocked, rfl⟩
  exact ⟨blocked, hcopy⟩

/-- A missing entry goes back to a failure that is told. -/
theorem explained_of_missing (hr : repository.Reachable)
    (h : PlannedAs options (.ofRepository repository) plan structural dictionary identifiers)
    {target : Location} (hplanned : ∃ source, plan.Copies source target)
    (hmissing : (finalDraft options repository plan).get? target = none) :
    Explained plan (finalLog options repository plan)
      (finalLog options repository plan).failureTexts target := by
  rcases exists_failed_source hr h hplanned hmissing with ⟨root, cause, hcopies, hroot⟩
  rcases exists_failed_copy hr h hcopies hmissing with ⟨blocked, hcopy⟩
  have htarget := part?_ne_of_copies h hcopies
  have hsource := part?_of_mem_sourcesOf h htarget ((copies_iff_mem_sourcesOf h htarget).1 hcopies)
  have hentries := sublist_entries_finalLog h hsource htarget hroot hcopy
  refine ⟨root, cause, blocked, hcopies, ?_, ?_⟩
  · have hfailures := hentries.filter fun entry => entry.outcome.isFailed
    exact hfailures
  · have htexts := hentries.filterMap fun entry =>
      entry.outcome.cause?.map (Log.report entry.operation)
    exact htexts

end

/--
A repository that can be analyzed can be compiled, and its schema is incomplete exactly if some
planned copy has left its target without a definition.  The error then lists, in order, the targets
to which every copy failed.  For each of them the failures tell what failed at a location that is
planned to be copied to it, and that the copy of this location failed as well.
-/
theorem incomplete_schema_is_explained {repository : Repository} (hr : repository.Reachable)
    {options : Options} {analyzed : Compilation}
    (h : (ofRepository repository options).analyze = .ok analyzed) :
    ∃ plan compiled log, analyzed.stage = .analyzed plan ∧ analyzed.compile = .ok compiled ∧
      compiled.stage = .compiled plan log ∧
      ((∃ absent failures, compiled.schema = .error (.incompleteSchema absent failures)) ↔
        ∃ source target, plan.Copies source target ∧ compiled.draft.get? target = none) ∧
      ∀ absent failures, compiled.schema = .error (.incompleteSchema absent failures) →
        (absent.Pairwise fun l later => compare l later = .lt) ∧
        (∀ target, target ∈ absent ↔
          (∃ source, plan.Copies source target) ∧ log.CopiesFailed target) ∧
        ∀ target ∈ absent, Explained plan log failures target := by
  rcases analyze_ofRepository_eq_ok_iff.1 h with ⟨scratch, plan, hplan, rfl⟩
  rcases exists_plannedAs hplan with ⟨structural, dictionary, identifiers, hplanned, -⟩
  refine ⟨plan, _, finalLog options repository plan, rfl, compile_analyzed _ _ _, rfl, ?_,
    fun absent failures hschema => ?_⟩
  · simp only [schema_compiled_eq_error_iff]
    constructor
    · rintro ⟨absent, failures, rfl, hne, -⟩
      rcases List.exists_mem_of_ne_nil _ hne with ⟨target, htarget⟩
      rcases (mem_missing_iff hplanned).1 htarget with ⟨⟨source, hcopies⟩, hnone⟩
      exact ⟨source, target, hcopies, hnone⟩
    · rintro ⟨source, target, hcopies, hnone⟩
      have htarget := (mem_missing_iff hplanned).2 ⟨⟨source, hcopies⟩, hnone⟩
      exact ⟨_, _, rfl, List.ne_nil_of_mem htarget, rfl⟩
  · rcases schema_compiled_eq_error_iff.1 hschema with ⟨rfl, -, rfl⟩
    refine ⟨ordered_missing _ _, fun target => ?_, fun target htarget => ?_⟩
    · rw [mem_missing_iff hplanned]
      refine and_congr_right fun ⟨source, hcopies⟩ => ?_
      exact get?_finalDraft_eq_none_iff hr hplanned (part?_ne_of_copies hplanned hcopies)
    · rcases (mem_missing_iff hplanned).1 htarget with ⟨hcopies, hnone⟩
      exact explained_of_missing hr hplanned hcopies hnone

/-! ## An attribute of an unknown type -/

/-- Two objects, of which one has attributes of a known and of an unknown type. -/
def unknownType : List (Path × Json) :=
  [(⟨"objects/file.json"⟩, .obj [("name", .str "file"), ("caption", .str "File")]),
    (⟨"objects/process.json"⟩, .obj [("name", .str "process"),
      ("attributes", .obj [("file", .obj [("type", .str "file")]),
        ("parent", .obj [("type", .str "proces")])])])]

/-- What the schema of some files lacks, with the failures that are told. -/
def shortfall (files : List (Path × Json)) : Option (List Location × List String) := do
  let repository ← (Repository.ofFiles files).toOption
  let analyzed ← (ofRepository repository {}).analyze.toOption
  let compiled ← analyzed.compile.toOption
  match compiled.schema with
  | .error (.incompleteSchema absent failures) => some (absent, failures)
  | _ => none

theorem exists_of_shortfall {files : List (Path × Json)} {absent : List Location}
    {failures : List String} (h : shortfall files = some (absent, failures)) :
    ∃ repository analyzed compiled, Repository.ofFiles files = .ok repository ∧
      (ofRepository repository {}).analyze = .ok analyzed ∧ analyzed.compile = .ok compiled ∧
      compiled.schema = .error (.incompleteSchema absent failures) := by
  simp only [shortfall, Option.bind_eq_bind, Option.bind_eq_some_iff] at h
  rcases h with ⟨repository, hrepository, analyzed, hanalyze, compiled, hcompile, hschema⟩
  refine ⟨repository, analyzed, compiled, eq_ok_of_toOption hrepository,
    eq_ok_of_toOption hanalyze, eq_ok_of_toOption hcompile, ?_⟩
  split at hschema
  · rename_i herror
    cases hschema
    exact herror
  · cases hschema

theorem reachable_of_unknownType {repository : Repository}
    (h : Repository.ofFiles unknownType = .ok repository) : repository.Reachable := by
  refine Repository.Reachable.empty.insertFiles (fun file hfile => ?_) h
  simp only [unknownType, List.mem_cons, List.not_mem_nil, or_false] at hfile
  rcases hfile with rfl | rfl <;> simp [Json.WellFormed, Json.WellFormedFields]

/-- The object with the unknown type is missing, and the failures tell its type. -/
theorem unknown_type_is_told :
    ∃ repository analyzed plan compiled log absent failures,
      Repository.ofFiles unknownType = .ok repository ∧
      (ofRepository repository {}).analyze = .ok analyzed ∧ analyzed.compile = .ok compiled ∧
      compiled.stage = .compiled plan log ∧
      compiled.schema = .error (.incompleteSchema absent failures) ∧
      absent = [.entry .objects "process"] ∧
      failures = ["set_object_type object:process: unknown object type \"proces\"",
        "copy_to_schema schema.objects:process <- object:process: " ++
          "prerequisite object:process failed"] ∧
      log.CopiesFailed (.entry .objects "process") ∧
      Explained plan log failures (.entry .objects "process") := by
  have hview : shortfall unknownType = some ([.entry .objects "process"],
      ["set_object_type object:process: unknown object type \"proces\"",
        "copy_to_schema schema.objects:process <- object:process: " ++
          "prerequisite object:process failed"]) := by
    decide +kernel
  rcases exists_of_shortfall hview with
    ⟨repository, analyzed, compiled, hfiles, hanalyze, hcompile, hschema⟩
  rcases incomplete_schema_is_explained (reachable_of_unknownType hfiles) hanalyze with
    ⟨plan, compiled', log, -, hcompile', hstage, -, hincomplete⟩
  cases hcompile.symm.trans hcompile'
  rcases hincomplete _ _ hschema with ⟨-, habsent, hexplained⟩
  refine ⟨repository, analyzed, plan, compiled, log, _, _, hfiles, hanalyze, hcompile, hstage,
    hschema, rfl, rfl, ?_, hexplained _ List.mem_cons_self⟩
  exact ((habsent _).1 List.mem_cons_self).2

end Compilation

end EventSchema
