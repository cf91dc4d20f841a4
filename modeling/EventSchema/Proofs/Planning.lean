import EventSchema.Compilation
import EventSchema.Proofs.Agreement
import EventSchema.Proofs.Emission
import EventSchema.Proofs.Schedule

/-!
# What is planned, and how it is run

Planning lets the planners of each phase propose operations in turn, each planner on the draft that
all operations before have led to.  The plan of a phase files these operations by target, and the
compilation runs them as scheduled.

Main results:

- {lit}`Compilation.planPhase_eq_ok_iff`: a plan of a phase comes from what its planners propose.
- {lit}`Compilation.seenBy_eq_ok_iff`: what a planner sees comes from what those before it propose.
- {lit}`Compilation.planPhases_cons_eq_ok_iff`: phases are planned one after another.
- {lit}`Compilation.analyze_ofRepository_eq_ok_iff`: analyzing a repository plans every phase.
- {lit}`Compilation.draft_applyPhases`: applying phases runs their schedules one after another.
-/

namespace EventSchema

open Std

namespace PhasePlan

theorem mem_targets_of_mem_get {plan : PhasePlan} {l : Location} {op : Operation}
    (h : op ∈ plan.get l) : l ∈ plan.targets := by
  rw [targets, ExtTreeMap.mem_keys, ExtTreeMap.mem_iff_isSome_getElem?]
  unfold PhasePlan.get at h
  cases hget : plan.operations[l]? with
  | none => simp [hget] at h
  | some ops => rfl

@[simp]
theorem phase_ofOperations (phase : Phase) (ops : List Operation) :
    (ofOperations phase ops).phase = phase := by
  have hfold (plan : PhasePlan) : (ops.foldl push plan).phase = plan.phase := by
    induction ops generalizing plan with
    | nil => rfl
    | cons op rest ih => exact ih (plan.push op)
  exact hfold { phase }

end PhasePlan

/-- What is planned for a location is planned in one of the phases. -/
theorem Plan.mem_operationsFor_cons {phase : Phase} {ops : List Operation} {rest : List PhasePlan}
    {l : Location} {op : Operation} :
    op ∈ (⟨PhasePlan.ofOperations phase ops :: rest⟩ : Plan).operationsFor l ↔
      (op ∈ ops ∧ op.target = l) ∨ op ∈ (⟨rest⟩ : Plan).operationsFor l := by
  simp only [operationsFor, List.flatMap_cons, List.mem_append, PhasePlan.get_ofOperations,
    Operation.mem_targeting]

namespace Operation

/-- Only the planner for categories emits operations that look for other locations by name. -/
theorem consults_iff_of_emits {planner : Planner} {op : Operation} (h : planner.Emits op)
    (hplanner : planner ≠ .category) {l : Location} :
    op.Consults l ↔ l = op.target ∨ l ∈ op.prerequisites := by
  constructor
  · rintro (heq | hmem | ⟨⟨name, hname⟩, -⟩)
    · exact Or.inl heq
    · exact Or.inr hmem
    · exact absurd (h.eq_category hname) hplanner
  · rintro (heq | hmem)
    · exact Or.inl heq
    · exact consults_prerequisite hmem

/-- Operations of some planners read no location besides their targets. -/
theorem eq_target_of_consults {planner : Planner} {op : Operation} (h : planner.Emits op)
    (hplanner : planner ≠ .category) (hreads : ∀ l, ¬ planner.Reads l) {l : Location}
    (hl : op.Consults l) : l = op.target := by
  rcases (consults_iff_of_emits h hplanner).1 hl with heq | hmem
  · exact heq
  · exact absurd (h.reads hmem) (hreads l)

end Operation

/-- The last phase has the last planner. -/
theorem Planner.ne_rendering_of_mem {phase : Phase} (hphase : phase ≠ .schema) {planner : Planner}
    (h : planner ∈ phase.planners) : planner ≠ .rendering := by
  rintro rfl
  cases phase with
  | schema => exact hphase rfl
  | _ => simp [Phase.planners] at h

namespace Compilation

/-! ## Planning -/

/-- Planners propose operations in turn, each on the draft that those before have led to. -/
inductive Proposes (options : Options) : Draft → List Planner → List Operation → Prop
  | nil (draft : Draft) : Proposes options draft [] []
  | cons {draft : Draft} {planner : Planner} {rest : List Planner} {ops more : List Operation}
      (here : planner.analyze draft options = .ok ops)
      (after : Proposes options (Operation.runAll options draft ops) rest more) :
      Proposes options draft (planner :: rest) (ops ++ more)

/-- What is proposed comes from one of the planners. -/
theorem Proposes.exists_emits {options : Options} {draft : Draft} {planners : List Planner}
    {ops : List Operation} (h : Proposes options draft planners ops) {op : Operation}
    (hop : op ∈ ops) : ∃ planner ∈ planners, planner.Emits op := by
  induction h with
  | nil => cases hop
  | cons here _ ih =>
    rcases List.mem_append.1 hop with hop | hop
    · exact ⟨_, List.mem_cons_self, Planner.emits_of_mem here hop⟩
    · rcases ih hop with ⟨planner, hmem, hemits⟩
      exact ⟨planner, List.mem_cons_of_mem _ hmem, hemits⟩

theorem Proposes.append {options : Options} {draft : Draft} {planners later : List Planner}
    {ops more : List Operation} (h : Proposes options draft planners ops)
    (hlater : Proposes options (Operation.runAll options draft ops) later more) :
    Proposes options draft (planners ++ later) (ops ++ more) := by
  induction h with
  | nil => exact hlater
  | cons here _ ih =>
    rw [List.cons_append, List.append_assoc]
    refine .cons here (ih ?_)
    rwa [← Operation.runAll_append]

/-- What planners propose in turn splits into what the first of them and the others propose. -/
theorem Proposes.exists_of_append {options : Options} {planners later : List Planner}
    {draft : Draft} {ops : List Operation} (h : Proposes options draft (planners ++ later) ops) :
    ∃ before after, ops = before ++ after ∧ Proposes options draft planners before ∧
      Proposes options (Operation.runAll options draft before) later after := by
  induction planners generalizing draft ops with
  | nil => exact ⟨[], ops, rfl, .nil draft, h⟩
  | cons planner rest ih =>
    cases h with
    | @cons _ _ _ here more hhere hmore =>
      rcases ih hmore with ⟨before, after, rfl, hbefore, hafter⟩
      refine ⟨here ++ before, after, (List.append_assoc ..).symm, .cons hhere hbefore, ?_⟩
      rwa [Operation.runAll_append]

theorem planWith_eq_ok_iff {options : Options} {planning next : Planning} {planner : Planner} :
    planWith options planning planner = .ok next ↔
      ∃ ops, planner.analyze planning.scratch options = .ok ops ∧
        next = ⟨Operation.runAll options planning.scratch ops,
          ops.foldl PhasePlan.push planning.plan⟩ := by
  unfold planWith
  cases planner.analyze planning.scratch options with
  | error cause => simp [Except.map]
  | ok ops => simp [Except.map, eq_comm]

theorem foldlM_planWith_eq_ok_iff {options : Options} {planners : List Planner}
    {planning last : Planning} :
    planners.foldlM (planWith options) planning = .ok last ↔
      ∃ ops, Proposes options planning.scratch planners ops ∧
        last = ⟨Operation.runAll options planning.scratch ops,
          ops.foldl PhasePlan.push planning.plan⟩ := by
  induction planners generalizing planning with
  | nil =>
    constructor
    · intro h
      exact ⟨[], .nil _, (Except.ok.inj h).symm⟩
    · rintro ⟨ops, hops, rfl⟩
      cases hops
      rfl
  | cons planner rest ih =>
    rw [List.foldlM_cons]
    constructor
    · intro h
      cases hhere : planWith options planning planner with
      | error cause =>
        rw [hhere] at h
        cases h
      | ok next =>
        rw [hhere] at h
        rcases ih.1 h with ⟨more, hmore, hlast⟩
        rcases planWith_eq_ok_iff.1 hhere with ⟨ops, hops, rfl⟩
        refine ⟨ops ++ more, .cons hops hmore, ?_⟩
        rw [hlast, Operation.runAll_append, List.foldl_append]
    · rintro ⟨all, hall, rfl⟩
      cases hall with
      | @cons _ _ _ ops more hops hmore =>
        have hhere := planWith_eq_ok_iff.2 ⟨ops, hops, rfl⟩
        rw [hhere]
        refine ih.2 ⟨more, hmore, ?_⟩
        rw [Operation.runAll_append, List.foldl_append]

/-- The draft that a planner sees: what all planners before it have led to. -/
def seenBy (options : Options) (draft : Draft) (planner : Planner) : Except Error Draft :=
  ((Planner.all.takeWhile (· != planner)).foldlM (planWith options)
    { scratch := draft, plan := { phase := planner.phase } }).map Planning.scratch

theorem seenBy_eq_ok_iff {options : Options} {draft seen : Draft} {planner : Planner} :
    seenBy options draft planner = .ok seen ↔
      ∃ ops, Proposes options draft (Planner.all.takeWhile (· != planner)) ops ∧
        seen = Operation.runAll options draft ops := by
  unfold seenBy
  constructor
  · intro h
    cases hlast : (Planner.all.takeWhile (· != planner)).foldlM (planWith options)
        { scratch := draft, plan := { phase := planner.phase } } with
    | error cause =>
      rw [hlast] at h
      cases h
    | ok last =>
      rw [hlast] at h
      rcases foldlM_planWith_eq_ok_iff.1 hlast with ⟨ops, hops, rfl⟩
      exact ⟨ops, hops, (Except.ok.inj h).symm⟩
  · rintro ⟨ops, hops, rfl⟩
    rw [foldlM_planWith_eq_ok_iff.2 ⟨ops, hops, rfl⟩]
    rfl

/-- A plan of a phase files what the planners of the phase propose. -/
theorem planPhase_eq_ok_iff {options : Options} {scratch : Draft} {phase : Phase}
    {planning : Planning} :
    planPhase options scratch phase = .ok planning ↔
      ∃ ops, Proposes options scratch phase.planners ops ∧
        planning = ⟨Operation.runAll options scratch ops, .ofOperations phase ops⟩ :=
  foldlM_planWith_eq_ok_iff

theorem planPhases_nil_eq_ok_iff {options : Options} {scratch last : Draft}
    {plans : List PhasePlan} :
    planPhases options scratch [] = .ok (last, plans) ↔ last = scratch ∧ plans = [] := by
  simp [planPhases, eq_comm]

/-- Phases are planned one after another, each from the draft the one before has led to. -/
theorem planPhases_cons_eq_ok_iff {options : Options} {scratch last : Draft} {phase : Phase}
    {rest : List Phase} {plans : List PhasePlan} :
    planPhases options scratch (phase :: rest) = .ok (last, plans) ↔
      ∃ ops more, Proposes options scratch phase.planners ops ∧
        planPhases options (Operation.runAll options scratch ops) rest = .ok (last, more) ∧
        plans = .ofOperations phase ops :: more := by
  rw [planPhases]
  constructor
  · intro h
    cases hhere : planPhase options scratch phase with
    | error cause =>
      rw [hhere] at h
      cases h
    | ok planning =>
      rw [hhere] at h
      rcases planPhase_eq_ok_iff.1 hhere with ⟨ops, hops, rfl⟩
      cases hrest : planPhases options (Operation.runAll options scratch ops) rest with
      | error cause =>
        simp only [bind, Except.bind, hrest] at h
        cases h
      | ok after =>
        simp only [bind, Except.bind, hrest] at h
        cases h
        exact ⟨ops, after.2, hops, hrest, rfl⟩
  · rintro ⟨ops, more, hops, hrest, rfl⟩
    have hhere := planPhase_eq_ok_iff.2 ⟨ops, hops, rfl⟩
    rw [hhere]
    simp only [bind, Except.bind, hrest]
    rfl

/-- Analyzing a repository plans every phase, beginning with its definitions as they are. -/
theorem analyze_ofRepository_eq_ok_iff {repository : Repository} {options : Options}
    {analyzed : Compilation} :
    (ofRepository repository options).analyze = .ok analyzed ↔
      ∃ scratch plan, planPhases options (.ofRepository repository) Phase.all =
          .ok (scratch, plan.phases) ∧
        analyzed = ⟨options, .ofRepository repository, .analyzed plan⟩ := by
  rw [analyze_eq_ok_iff rfl]
  constructor
  · rintro ⟨plan, hplan, rfl⟩
    cases hphases : planPhases options (.ofRepository repository) Phase.all with
    | error e => simp [planAll, ofRepository, hphases, Except.map] at hplan
    | ok result =>
      obtain rfl : ⟨result.2⟩ = plan := by
        simpa [planAll, ofRepository, hphases, Except.map] using hplan
      exact ⟨result.1, _, rfl, rfl⟩
  · rintro ⟨scratch, plan, hphases, rfl⟩
    refine ⟨plan, ?_, rfl⟩
    simp [planAll, ofRepository, hphases, Except.map]

/-! ## Applying -/

theorem draft_foldl_applyOne (options : Options) (state : Draft × PhaseLog)
    (ops : List Operation) :
    (ops.foldl (applyOne options) state).1 = Operation.runAll options state.1 ops := by
  induction ops generalizing state with
  | nil => rfl
  | cons op rest ih => exact ih (applyOne options state op)

/-- Applying a phase runs its schedule. -/
theorem draft_applyPhase (options : Options) (draft : Draft) (plan : PhasePlan) :
    (applyPhase options draft plan).1 = Operation.runAll options draft plan.schedule :=
  draft_foldl_applyOne options _ plan.schedule

theorem draft_applyPhases_cons (options : Options) (draft : Draft) (plan : PhasePlan)
    (rest : List PhasePlan) :
    (applyPhases options draft (plan :: rest)).1 =
      (applyPhases options (Operation.runAll options draft plan.schedule) rest).1 := by
  rw [applyPhases, draft_applyPhase]

/-- Applying phases runs their schedules one after another. -/
theorem draft_applyPhases (options : Options) (draft : Draft) (plans : List PhasePlan) :
    (applyPhases options draft plans).1 =
      Operation.runAll options draft (plans.flatMap PhasePlan.schedule) := by
  induction plans generalizing draft with
  | nil => rfl
  | cons plan rest ih =>
    rw [draft_applyPhases_cons, ih, List.flatMap_cons, Operation.runAll_append]

/-- An analyzed compilation can be compiled. -/
theorem compile_analyzed (options : Options) (draft : Draft) (plan : Plan) :
    (⟨options, draft, .analyzed plan⟩ : Compilation).compile =
      .ok ⟨options, (applyPhases options draft plan.phases).1,
        .compiled plan ⟨(applyPhases options draft plan.phases).2⟩⟩ := rfl

/-- A compilation that has been compiled has a schema unless some entry is missing. -/
theorem schema_compiled (options : Options) (draft : Draft) (plan : Plan) (log : Log) :
    (⟨options, draft, .compiled plan log⟩ : Compilation).schema =
      match missing draft plan with
      | [] => .ok (Schema.render draft)
      | absent => .error (.incompleteSchema absent log.failureTexts) := by
  have habsent : (⟨options, draft, .compiled plan log⟩ : Compilation).absent =
      missing draft plan := rfl
  have hcompiled : ¬ (⟨options, draft, .compiled plan log⟩ : Compilation).progress < .compiled :=
    Nat.lt_irrefl 2
  unfold schema trySchema
  rw [if_neg hcompiled, habsent]
  cases missing draft plan <;> rfl

/-! ## The four phases -/

/-- What is planned for the phases before the schema, each on the draft of those before. -/
structure PlannedAs (options : Options) (draft : Draft) (plan : Plan)
    (structural dictionary identifiers : List Operation) : Prop where
  proposes_structural : Proposes options draft Phase.structural.planners structural
  proposes_dictionary : Proposes options (Operation.runAll options draft structural)
    Phase.dictionary.planners dictionary
  proposes_identifiers : Proposes options
    (Operation.runAll options draft (structural ++ dictionary)) Phase.identifiers.planners
    identifiers
  phases_eq : plan.phases =
    [.ofOperations .structural structural, .ofOperations .dictionary dictionary,
      .ofOperations .identifiers identifiers,
      .ofOperations .schema (Planner.render
        (Operation.runAll options draft (structural ++ dictionary ++ identifiers)) options)]

/-- An analyzed repository has the operations of the four phases planned. -/
theorem exists_plannedAs {options : Options} {draft last : Draft} {plan : Plan}
    (h : planPhases options draft Phase.all = .ok (last, plan.phases)) :
    ∃ structural dictionary identifiers,
      PlannedAs options draft plan structural dictionary identifiers ∧
      last = Operation.runAll options
        (Operation.runAll options draft (structural ++ dictionary ++ identifiers))
        (Planner.render (Operation.runAll options draft
          (structural ++ dictionary ++ identifiers)) options) := by
  rcases planPhases_cons_eq_ok_iff.1 h with ⟨structural, plans, hstructural, hlater, hphases⟩
  rcases planPhases_cons_eq_ok_iff.1 hlater with ⟨dictionary, plans, hdictionary, hlast, rfl⟩
  rcases planPhases_cons_eq_ok_iff.1 hlast with ⟨identifiers, plans, hidentifiers, hschema, rfl⟩
  rcases planPhases_cons_eq_ok_iff.1 hschema with ⟨copies, plans, hcopies, hend, rfl⟩
  rcases planPhases_nil_eq_ok_iff.1 hend with ⟨rfl, rfl⟩
  rw [← Operation.runAll_append] at hidentifiers
  rw [← Operation.runAll_append, ← Operation.runAll_append] at hcopies
  unfold Phase.planners at hcopies
  cases hcopies with
  | cons hrender hnil =>
    cases hnil
    cases hrender
    refine ⟨structural, dictionary, identifiers, ⟨hstructural, hdictionary, hidentifiers, ?_⟩, ?_⟩
    · rw [hphases, List.append_nil, List.append_assoc]
    · simp only [← Operation.runAll_append, List.append_nil, List.append_assoc]

/-- The compiled draft of a plan runs the schedules of the four phases. -/
theorem PlannedAs.draft_applyPhases {options : Options} {draft : Draft} {plan : Plan}
    {structural dictionary identifiers : List Operation}
    (h : PlannedAs options draft plan structural dictionary identifiers) :
    (applyPhases options draft plan.phases).1 =
      Operation.runAll options
        (Operation.runAll options draft
          ((PhasePlan.ofOperations .structural structural).schedule ++
            (PhasePlan.ofOperations .dictionary dictionary).schedule ++
            (PhasePlan.ofOperations .identifiers identifiers).schedule))
        (PhasePlan.ofOperations .schema (Planner.render (Operation.runAll options draft
          (structural ++ dictionary ++ identifiers)) options)).schedule := by
  rw [Compilation.draft_applyPhases, h.phases_eq]
  simp only [List.flatMap_cons, List.flatMap_nil, List.append_nil, Operation.runAll_append]

/-- No phase before the schema edits an entry of it. -/
theorem Proposes.part?_target {options : Options} {draft : Draft} {phase : Phase}
    {ops : List Operation} (h : Proposes options draft phase.planners ops)
    (hphase : phase ≠ .schema) {op : Operation} (hop : op ∈ ops) : op.target.part? = none := by
  rcases h.exists_emits hop with ⟨planner, hplanner, hemits⟩
  exact hemits.part?_target (Planner.ne_rendering_of_mem hphase hplanner)

end Compilation

end EventSchema
