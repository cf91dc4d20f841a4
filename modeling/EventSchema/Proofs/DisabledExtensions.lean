import EventSchema.Proofs.StructuralRuns
import EventSchema.Proofs.TrimmedPlanning

/-!
# Disabled extensions

A compilation with a disabled extension is compared with one over the repository without it.  Both
plan the same, apart from tags and annotations inside of the extension, or stop at the same error.
What is applied then has the same outcomes outside of the extension, and nothing fails inside of it.
So a build comes to the same end.

Main results:

- {lit}`Compilation.parallel_planPhases`: both compilations plan the same, or stop at the same error.
- {lit}`Compilation.trims_applyPhases`: both come to the same outcomes outside of the extension.
- {lit}`Compilation.disabled_extension_has_no_influence`: a build comes to the same end.
-/

namespace EventSchema

open Std Operation

/-- Two computations stop at the same error, or their results are related. -/
inductive Parallel {ε α β : Type} (R : α → β → Prop) : Except ε α → Except ε β → Prop
  | ok {a : α} {b : β} (h : R a b) : Parallel R (.ok a) (.ok b)
  | error (e : ε) : Parallel R (.error e) (.error e)

namespace Parallel

variable {ε α β α' β' : Type} {R : α → β → Prop} {T : α' → β' → Prop}
  {left : Except ε α} {right : Except ε β}

theorem bind (h : Parallel R left right) {f : α → Except ε α'} {g : β → Except ε β'}
    (hrest : ∀ a b, R a b → Parallel T (f a) (g b)) : Parallel T (left >>= f) (right >>= g) := by
  cases h with
  | ok h => exact hrest _ _ h
  | error e => exact .error e

theorem mono (h : Parallel R left right) {T : α → β → Prop} (hrest : ∀ a b, R a b → T a b) :
    Parallel T left right := by
  cases h with
  | ok h => exact .ok (hrest _ _ h)
  | error e => exact .error e

theorem eq_error {e : ε} (h : Parallel R (.error e) right) : right = .error e := by
  cases h
  rfl

theorem exists_ok {a : α} (h : Parallel R (.ok a) right) : ∃ b, right = .ok b ∧ R a b := by
  cases h with
  | ok h => exact ⟨_, rfl, h⟩

end Parallel

namespace Compilation

open Planner

section

variable {options : Options} {extension declared : String} {draft trimmed : Draft}

/-! ## Planning -/

/--
Planners propose operations that spare an extension.  Without it they propose the same, except for
the operations on the extension.
-/
structure ProposesApart (options : Options) (extension declared : String) (draft trimmed : Draft)
    (planners : List Planner) (ops : List Operation) : Prop where
  proposes : Proposes options draft planners ops
  trimmed : Proposes options trimmed planners (within (fun l => ¬ l.BelongsTo extension) ops)
  spares : ∀ op ∈ ops, op.Spares extension declared

theorem ProposesApart.readsWithin {planners : List Planner} {ops : List Operation}
    (h : ProposesApart options extension declared draft trimmed planners ops) :
    ReadsWithin (fun l => ¬ l.BelongsTo extension) ops :=
  fun op hop => (h.spares op hop).reads

/-- Includes lead into an extension nowhere, whatever planners propose before. -/
def IncludesSpare (options : Options) (extension : String) (draft : Draft)
    (planners : List Planner) : Prop :=
  ∀ before after ops, planners = before ++ .includes :: after →
    Proposes options draft before ops →
      ∀ op ∈ includeFiles (runAll options draft ops) options, ∀ p ∈ op.prerequisites,
        ¬ p.BelongsTo extension

theorem IncludesSpare.tail {planner : Planner} {rest : List Planner} {ops : List Operation}
    (h : IncludesSpare options extension draft (planner :: rest))
    (hops : planner.analyze draft options = .ok ops) :
    IncludesSpare options extension (runAll options draft ops) rest := by
  intro before after more hsplit hmore
  have hincludes := h (planner :: before) after (ops ++ more) (by rw [hsplit, List.cons_append])
    (.cons hops hmore)
  rwa [runAll_append] at hincludes

/-- Planners go along with and without a disabled extension. -/
theorem parallel_foldlM_planWith {planners : List Planner} (planning other : Planning)
    (h : planning.scratch.Trims extension other.scratch)
    (hapart : planning.scratch.KeepsApart extension declared)
    (hplaced : planning.scratch.repository.Placed)
    (hdisabled : planning.scratch.repository.Disables options extension declared)
    (hincludes : IncludesSpare options extension planning.scratch planners) :
    Parallel (fun next next' => ∃ ops,
        ProposesApart options extension declared planning.scratch other.scratch planners ops ∧
        next = ⟨runAll options planning.scratch ops, ops.foldl PhasePlan.push planning.plan⟩ ∧
        next' = ⟨runAll options other.scratch (within (fun l => ¬ l.BelongsTo extension) ops),
          (within (fun l => ¬ l.BelongsTo extension) ops).foldl PhasePlan.push other.plan⟩)
      (planners.foldlM (planWith options) planning)
      (planners.foldlM (planWith options) other) := by
  induction planners generalizing planning other with
  | nil => exact .ok ⟨[], ⟨.nil _, .nil _, by simp⟩, rfl, rfl⟩
  | cons planner rest ih =>
    have hspare (hplanner : planner = .includes) :
        ∀ op ∈ includeFiles planning.scratch options, ∀ p ∈ op.prerequisites,
          ¬ p.BelongsTo extension :=
      hincludes [] rest [] (by rw [hplanner, List.nil_append]) (.nil _)
    have hsame := analyze_trimmed h hapart hplaced hdisabled planner hspare
    rw [List.foldlM_cons, List.foldlM_cons]
    cases hops : planner.analyze planning.scratch options with
    | error cause =>
      rw [hops] at hsame
      have hleft : planWith options planning planner = .error cause := by
        rw [planWith, hops]
        rfl
      have hright : planWith options other planner = .error cause := by
        rw [planWith, hsame]
        rfl
      rw [hleft, hright]
      exact .error cause
    | ok ops =>
      rw [hops] at hsame
      have hspares := spares_of_mem hapart hplaced hdisabled hops hspare
      rw [planWith_eq_ok_iff.2 ⟨ops, hops, rfl⟩, planWith_eq_ok_iff.2 ⟨_, hsame, rfl⟩]
      refine (ih _ _ (h.runAll options fun op hop => (hspares op hop).reads)
        (hapart.runAll options hspares) ?_ ?_ (hincludes.tail hops)).mono ?_
      · rwa [repository_runAll]
      · rwa [repository_runAll]
      · rintro next next' ⟨more, hmore, rfl, rfl⟩
        refine ⟨ops ++ more, ⟨.cons hops hmore.proposes, ?_, ?_⟩, ?_, ?_⟩
        · rw [within_append]
          exact .cons hsame hmore.trimmed
        · exact List.forall_mem_append.2 ⟨hspares, hmore.spares⟩
        · rw [runAll_append, List.foldl_append]
        · rw [within_append, runAll_append, List.foldl_append]

/-- One phase is planned the same outside of a disabled extension, or stops at the same error. -/
theorem parallel_planPhase {phase : Phase} (h : draft.Trims extension trimmed)
    (hapart : draft.KeepsApart extension declared) (hplaced : draft.repository.Placed)
    (hdisabled : draft.repository.Disables options extension declared)
    (hincludes : IncludesSpare options extension draft phase.planners) :
    Parallel (fun next next' => ∃ ops,
        ProposesApart options extension declared draft trimmed phase.planners ops ∧
        next = ⟨runAll options draft ops, .ofOperations phase ops⟩ ∧
        next' = ⟨runAll options trimmed (within (fun l => ¬ l.BelongsTo extension) ops),
          .ofOperations phase (within (fun l => ¬ l.BelongsTo extension) ops)⟩)
      (planPhase options draft phase) (planPhase options trimmed phase) :=
  parallel_foldlM_planWith ⟨draft, { phase }⟩ ⟨trimmed, { phase }⟩ h hapart hplaced hdisabled
    hincludes

/-- What is planned for a phase does not touch an extension. -/
def Avoids (extension : String) (plan : PhasePlan) : Prop :=
  ∃ phase ops, plan = .ofOperations phase ops ∧
    ∀ op ∈ ops, ¬ op.target.BelongsTo extension ∧ ∀ p ∈ op.prerequisites, ¬ p.BelongsTo extension

/-- Behind the structural phase nothing leaves core, and nothing is included. -/
theorem of_mem_planners {phase : Phase} (hphase : phase ≠ .structural) {planner : Planner}
    (h : planner ∈ phase.planners) : planner.leavesCore = false ∧ planner ≠ .includes := by
  cases phase with
  | structural => exact absurd rfl hphase
  | _ => simp only [Phase.planners] at h; revert planner; decide

/-- The phases behind the structural one are planned the same without a disabled extension. -/
theorem parallel_planPhases_later {phases : List Phase}
    (hphases : ∀ phase ∈ phases, phase ≠ .structural) (h : draft.Trims extension trimmed)
    (hapart : draft.KeepsApart extension declared) (hplaced : draft.repository.Placed)
    (hdisabled : draft.repository.Disables options extension declared) :
    Parallel (fun planned planned' => planned'.2 = planned.2 ∧
        ∀ plan ∈ planned.2, Avoids extension plan)
      (planPhases options draft phases) (planPhases options trimmed phases) := by
  induction phases generalizing draft trimmed with
  | nil => exact .ok ⟨rfl, by simp⟩
  | cons phase rest ih =>
    obtain ⟨hphase, hrest⟩ := List.forall_mem_cons.1 hphases
    have hincludes : IncludesSpare options extension draft phase.planners := by
      intro before after ops hsplit
      exact absurd rfl (of_mem_planners hphase (hsplit ▸ by simp)).2
    rw [planPhases, planPhases]
    refine (parallel_planPhase h hapart hplaced hdisabled hincludes).bind ?_
    rintro next next' ⟨ops, hops, rfl, rfl⟩
    have hapart' : ∀ op ∈ ops, ¬ op.target.BelongsTo extension := by
      intro op hop
      obtain ⟨planner, hplanner, hemits⟩ := hops.proposes.exists_emits hop
      exact hemits.not_belongsTo (of_mem_planners hphase hplanner).1 extension
    have htrims := h.runAll options hops.readsWithin
    rw [within_eq_self hapart'] at htrims ⊢
    refine (ih hrest htrims (hapart.runAll options hops.spares) ?_ ?_).bind ?_
    · rwa [repository_runAll]
    · rwa [repository_runAll]
    · rintro ⟨last, plans⟩ ⟨last', plans'⟩ ⟨rfl, havoids⟩
      refine .ok ⟨rfl, List.forall_mem_cons.2 ⟨⟨phase, ops, rfl, fun op hop => ?_⟩, havoids⟩⟩
      exact ⟨hapart' op hop, fun p hp => (hops.readsWithin op hop p hp).2⟩

/-- Both compilations plan the same outside of a disabled extension, or stop at the same error. -/
theorem parallel_planPhases (h : draft.Trims extension trimmed)
    (hapart : draft.KeepsApart extension declared) (hplaced : draft.repository.Placed)
    (hdisabled : draft.repository.Disables options extension declared)
    (hincludes : IncludesSpare options extension draft Phase.structural.planners) :
    Parallel (fun planned planned' => ∃ ops later,
        ProposesApart options extension declared draft trimmed Phase.structural.planners ops ∧
        planned.2 = .ofOperations .structural ops :: later ∧
        planned'.2 =
          .ofOperations .structural (within (fun l => ¬ l.BelongsTo extension) ops) :: later ∧
        ∀ plan ∈ later, Avoids extension plan)
      (planPhases options draft Phase.all) (planPhases options trimmed Phase.all) := by
  rw [Phase.all, planPhases, planPhases]
  refine (parallel_planPhase h hapart hplaced hdisabled hincludes).bind ?_
  rintro next next' ⟨ops, hops, rfl, rfl⟩
  refine (parallel_planPhases_later (by decide) (h.runAll options hops.readsWithin)
    (hapart.runAll options hops.spares) ?_ ?_).bind ?_
  · rwa [repository_runAll]
  · rwa [repository_runAll]
  · rintro ⟨last, plans⟩ ⟨last', plans'⟩ ⟨rfl, havoids⟩
    exact .ok ⟨ops, plans', hops, rfl, rfl, havoids⟩

/-! ## Applying -/

/-- Operations outside of an extension have the same outcomes without it. -/
theorem trace_trimmed (h : draft.Trims extension trimmed) {ops : List Operation}
    (hops : ∀ op ∈ ops, ¬ op.target.BelongsTo extension ∧
      ∀ p ∈ op.prerequisites, ¬ p.BelongsTo extension) :
    trace options trimmed ops = trace options draft ops := by
  induction ops generalizing draft trimmed with
  | nil => rfl
  | cons op rest ih =>
    obtain ⟨⟨htarget, hreads⟩, hrest⟩ := List.forall_mem_cons.1 hops
    rw [trace, trace, h.outcome_eq htarget hreads options, ih (h.run htarget hreads options) hrest]

/-- A phase that spares an extension can be applied without it. -/
theorem trims_applyPhase (options : Options) (h : draft.Trims extension trimmed) (phase : Phase)
    {ops : List Operation} (hops : ReadsWithin (fun l => ¬ l.BelongsTo extension) ops) :
    (applyPhase options draft (.ofOperations phase ops)).1.Trims extension
      (applyPhase options trimmed
        (.ofOperations phase (within (fun l => ¬ l.BelongsTo extension) ops))).1 := by
  rw [draft_applyPhase, draft_applyPhase, PhasePlan.schedule_within phase hops]
  exact h.runAll options fun op hop => hops op ((PhasePlan.schedule_perm phase ops).mem_iff.1 hop)

/-- Phases that do not touch an extension are applied with the same outcomes without it. -/
theorem trims_applyPhases (options : Options) (h : draft.Trims extension trimmed) {plans : List PhasePlan}
    (hplans : ∀ plan ∈ plans, Avoids extension plan) :
    (applyPhases options draft plans).1.Trims extension (applyPhases options trimmed plans).1 ∧
      (applyPhases options trimmed plans).2 = (applyPhases options draft plans).2 := by
  induction plans generalizing draft trimmed with
  | nil => exact ⟨h, rfl⟩
  | cons plan rest ih =>
    obtain ⟨⟨phase, ops, rfl, hops⟩, hrest⟩ := List.forall_mem_cons.1 hplans
    have hschedule : ∀ op ∈ (PhasePlan.ofOperations phase ops).schedule,
        ¬ op.target.BelongsTo extension ∧ ∀ p ∈ op.prerequisites, ¬ p.BelongsTo extension :=
      fun op hop => hops op ((PhasePlan.schedule_perm phase ops).mem_iff.1 hop)
    have hhere := h.runAll options fun op hop p hp =>
      ⟨(hschedule op hop).1, (hschedule op hop).2 p hp⟩
    rw [within_eq_self fun op hop => (hschedule op hop).1] at hhere
    obtain ⟨htrims, hlogs⟩ := ih hhere hrest
    rw [applyPhases, applyPhases, applyPhase_eq, applyPhase_eq, trace_trimmed h hschedule]
    exact ⟨htrims, congrArg (List.cons _) hlogs⟩

/-! ## What a build comes to -/

/-- Definitions that are no entries do not count in a schema. -/
theorem ofEntries_filter {p : Location × Definition → Bool} {entries : List (Location × Definition)}
    (h : ∀ e ∈ entries, p e = false → e.1.part? = none) :
    Schema.ofEntries (entries.filter p) = Schema.ofEntries entries := by
  unfold Schema.ofEntries
  rw [List.foldl_filter]
  refine List.foldl_ext _ _ _ fun s e he => ?_
  obtain ⟨l, d⟩ := e
  cases hp : p (l, d) with
  | true => rfl
  | false =>
    have hpart := h (l, d) he hp
    unfold Location.part? at hpart
    split at hpart
    · cases hpart
    · rename_i hkind
      rw [if_neg Bool.false_ne_true]
      dsimp only
      split
      · rename_i part heq
        exact absurd heq (hkind part)
      · rfl

/-- Without an extension the same is rendered, as long as it has no entries of the schema. -/
theorem schema_render_trimmed (h : draft.Trims extension trimmed)
    (hentries : ∀ l d, draft.get? l = some d → l.part? ≠ none → ¬ l.BelongsTo extension) :
    Schema.render trimmed = Schema.render draft := by
  unfold Schema.render
  rw [h.toList_definitions, ofEntries_filter]
  rintro ⟨l, d⟩ hmem hbelongs
  by_contra hpart
  exact hentries l d (Draft.mem_toList_definitions.1 hmem) hpart (by simpa using hbelongs)

/-- Without an extension the same entries are missing. -/
theorem missing_trimmed (h : draft.Trims extension trimmed) {first first' : PhasePlan}
    (hfirst : first.phase ≠ .schema) (hfirst' : first'.phase ≠ .schema) {later : List PhasePlan}
    (hlater : ∀ plan ∈ later, Avoids extension plan) :
    missing trimmed ⟨first' :: later⟩ = missing draft ⟨first :: later⟩ := by
  unfold missing Plan.phase?
  rw [List.find?_cons_of_neg (by simpa using hfirst'), List.find?_cons_of_neg (by simpa using hfirst)]
  cases hplan : later.find? (·.phase == .schema) with
  | none => rfl
  | some plan =>
    obtain ⟨phase, ops, rfl, hops⟩ := hlater plan (List.mem_of_find?_eq_some hplan)
    refine List.filter_congr fun l hl => ?_
    have hplanned := (PhasePlan.proper_ofOperations phase ops l).1 (PhasePlan.mem_targets_iff.1 hl)
    rw [PhasePlan.get_ofOperations] at hplanned
    obtain ⟨op, hop⟩ := List.exists_mem_of_ne_nil _ hplanned
    obtain ⟨hmem, rfl⟩ := mem_targeting.1 hop
    rw [Draft.contains, h.get?_eq, if_neg (hops op hmem).1, Draft.contains]

theorem mem_get_of_mem_all {log : PhaseLog} {entry : LogEntry} (h : entry ∈ log.all) :
    ∃ l, entry ∈ log.get l := by
  obtain ⟨entries, hentries, hentry⟩ := List.mem_flatten.1 h
  rw [LocationMap.values_eq_map_toList] at hentries
  obtain ⟨⟨l, _⟩, hmem, rfl⟩ := List.mem_map.1 hentries
  refine ⟨l, ?_⟩
  rw [PhaseLog.get, ExtTreeMap.mem_toList_iff_getElem?_eq_some.1 hmem]
  exact hentry

/-- The structural phase has no failures to tell. -/
theorem failureTexts_structural {repository : Repository} (hr : repository.Reachable)
    {ops : List Operation}
    (h : Proposes options (.ofRepository repository) Phase.structural.planners ops)
    (logs : List PhaseLog) :
    (⟨(applyPhase options (.ofRepository repository) (.ofOperations .structural ops)).2 :: logs⟩ :
      Log).failureTexts = (⟨logs⟩ : Log).failureTexts := by
  have hnone : ∀ entry ∈ (applyPhase options (.ofRepository repository)
      (.ofOperations .structural ops)).2.all, entry.outcome.cause? = none := by
    intro entry hentry
    obtain ⟨l, hentry⟩ := mem_get_of_mem_all hentry
    obtain ⟨before, op, after, hsplit, -, rfl⟩ := mem_get_applyPhase.1 hentry
    apply Option.not_isSome_iff_eq_none.1
    rw [Outcome.isSome_cause?, (succeeds_schedule hr h hsplit).2]
    exact Bool.false_ne_true
  unfold Log.failureTexts Log.entries
  rw [List.flatMap_cons, List.filterMap_append, List.filterMap_eq_nil_iff.2, List.nil_append]
  intro entry hentry
  rw [hnone entry hentry]
  rfl

theorem build_of_planPhases_error {repository : Repository} {e : Error}
    (h : planPhases options (.ofRepository repository) Phase.all = .error e) :
    (ofRepository repository options).build = .error e := by
  have hstep : (ofRepository repository options).tryAnalyze =
      (ofRepository repository options, .error e) := by
    simp [tryAnalyze, ofRepository, planAll, h, Except.map]
  simp only [build, tryBuild, hstep]

/-- A build gives back the schema of what has been planned and applied. -/
theorem build_of_planPhases_ok {repository : Repository} {last : Draft} {plans : List PhasePlan}
    (h : planPhases options (.ofRepository repository) Phase.all = .ok (last, plans)) :
    (ofRepository repository options).build =
      (⟨options, (applyPhases options (.ofRepository repository) plans).1,
        .compiled ⟨plans⟩ ⟨(applyPhases options (.ofRepository repository) plans).2⟩⟩ :
          Compilation).schema := by
  have hplan : planAll options (.ofRepository repository) = .ok ⟨plans⟩ := by
    simp [planAll, h, Except.map]
  have hanalyze : (ofRepository repository options).tryAnalyze =
      (⟨options, .ofRepository repository, .analyzed ⟨plans⟩⟩, .ok ⟨plans⟩) := by
    simp only [tryAnalyze, ofRepository, hplan]
    exact answer_of_eq_some rfl
  simp only [build, tryBuild, hanalyze]
  rfl

/-- What a schema comes to depends on what is missing, what is there and what is told to fail. -/
theorem schema_compiled_congr {plan plan' : Plan} {log log' : Log}
    (hmissing : missing trimmed plan' = missing draft plan)
    (hrender : Schema.render trimmed = Schema.render draft)
    (hfailures : log'.failureTexts = log.failureTexts) :
    (⟨options, trimmed, .compiled plan' log'⟩ : Compilation).schema =
      (⟨options, draft, .compiled plan log⟩ : Compilation).schema := by
  rw [schema_compiled, schema_compiled, hmissing, hrender, hfailures]

/-! ## No influence -/

/-- Includes that are planned first spare an extension if those of the whole planning do. -/
theorem includesSpare_of_seenBy {repository : Repository}
    (hincludes : ∀ seen, seenBy options (.ofRepository repository) .includes = .ok seen →
      ∀ op ∈ includeFiles seen options, ∀ source, op.action.source? = some source →
        ¬ source.BelongsTo extension) :
    IncludesSpare options extension (.ofRepository repository) Phase.structural.planners := by
  intro before after ops hsplit hops op hop p hp
  have hbefore : before = Planner.all.takeWhile (· != .includes) := by
    have hnodup : (before ++ Planner.includes :: after).Nodup := hsplit ▸ by decide
    have hne : ∀ planner ∈ before, (planner != Planner.includes) = true := by
      intro planner hplanner
      have hdisjoint := (List.nodup_append.1 hnodup).2.2 planner hplanner _ List.mem_cons_self
      simpa using hdisjoint
    have htake : Planner.all.takeWhile (· != .includes) =
        Phase.structural.planners.takeWhile (· != .includes) := by decide
    rw [htake, hsplit, List.takeWhile_append_of_pos hne, List.takeWhile_cons_of_neg (by simp),
      List.append_nil]
  subst hbefore
  exact hincludes _ (seenBy_eq_ok_iff.2 ⟨ops, hops, rfl⟩) op hop p (Option.mem_toList.1 hp)

end

/--
A disabled extension has no influence.  If the planning includes nothing that belongs to the
extension, and nothing that remains without it is marked with its directory or its declared name, then
a build gives the same schema or the same error as one over the repository without the files below
the directory of the extension.
-/
theorem disabled_extension_has_no_influence {repository : Repository} (hr : repository.Reachable)
    {options : Options} {extension declared : String}
    (hdisabled : repository.Disables options extension declared)
    (hincludes : ∀ seen, seenBy options (.ofRepository repository) .includes = .ok seen →
      ∀ op ∈ includeFiles seen options, ∀ source, op.action.source? = some source →
        ¬ source.BelongsTo extension)
    (hmarks : (repository.without extension).Unmarked extension declared) :
    (∀ files, Repository.ofFiles files = .ok repository →
      Repository.ofFiles (files.filter fun file =>
        !Repository.isBelow extension file.1.components) = .ok (repository.without extension)) ∧
      (ofRepository repository options).build =
        (ofRepository (repository.without extension) options).build := by
  refine ⟨fun files hfiles => Repository.ofFiles_without hfiles extension, ?_⟩
  have htrims := Draft.trims_ofRepository hr.placed extension
  have hparallel := parallel_planPhases htrims (Draft.keepsApart_ofRepository hr hmarks) hr.placed
    hdisabled (includesSpare_of_seenBy hincludes)
  cases hplan : planPhases options (.ofRepository repository) Phase.all with
  | error e =>
    rw [hplan] at hparallel
    rw [build_of_planPhases_error hplan, build_of_planPhases_error hparallel.eq_error]
  | ok planned =>
    rw [hplan] at hparallel
    obtain ⟨⟨last', plans'⟩, hplan', ops, later, hops, hplans, rfl, hlater⟩ := hparallel.exists_ok
    obtain ⟨last, plans⟩ := planned
    cases hplans
    obtain ⟨structural, dictionary, identifiers, hplanned, -⟩ :=
      exists_plannedAs (show _ = Except.ok (last, Plan.phases ⟨_⟩) from hplan)
    obtain ⟨hfinal, hlogs⟩ := trims_applyPhases options
      (trims_applyPhase options htrims .structural hops.readsWithin) hlater
    rw [build_of_planPhases_ok hplan, build_of_planPhases_ok hplan']
    symm
    refine schema_compiled_congr (missing_trimmed hfinal (by simp) (by simp) hlater)
      (schema_render_trimmed hfinal fun l d hget hpart => ?_) ?_
    · obtain ⟨part, hkind⟩ : ∃ part, l.kind = .schema part := by
        unfold Location.part? at hpart
        split at hpart
        · exact ⟨_, ‹_›⟩
        · exact absurd rfl hpart
      have hentry := (eq_entry_of_get? hr.sound hplanned hkind hget).1
      refine Location.not_belongsTo_of_isCore (hentry ▸ rfl) (fun heq => ?_) extension
      rw [hkind] at heq
      cases heq
    · have htexts := failureTexts_structural (hr.without extension) hops.trimmed
      have htexts' := failureTexts_structural hr hops.proposes
      exact (htexts _).trans (hlogs ▸ (htexts' _).symm)

/-! ## A disabled patch -/

/-- Options under which one extension does not apply. -/
def ignoring (extension : String) : Options :=
  { ignoredExtensions := ExtTreeSet.ofList [extension] }

/-- What the objects of a schema are called, if a build comes to one. -/
def captionOf? (result : Except Error Schema) (key : String) : Option String :=
  (result.toOption.bind fun schema => schema.objects[key]?).bind Definition.caption?

/-- What is included in the planning of some files. -/
def includedIn (options : Options) (repository : Repository) : Option (List (Option Location)) :=
  (seenBy options (.ofRepository repository) .includes).toOption.map fun seen =>
    (includeFiles seen options).map (·.action.source?)

theorem source?_mem_of_includedIn {options : Options} {repository : Repository}
    {sources : List (Option Location)} (h : includedIn options repository = some sources)
    {seen : Draft} (hseen : seenBy options (.ofRepository repository) .includes = .ok seen)
    {op : Operation} (hop : op ∈ includeFiles seen options) : op.action.source? ∈ sources := by
  rw [includedIn, hseen] at h
  cases h
  exact List.mem_map_of_mem hop

/-- An object that includes a fragment, and two extensions, of which one patches the object. -/
def disabledPatch : List (Path × Json) :=
  [(⟨"objects/a.json"⟩, .obj [("name", .str "a"), ("caption", .str "A"),
      ("$include", .str "includes/more.json")]),
    (⟨"includes/more.json"⟩, .obj [("description", .str "More.")]),
    (⟨"extensions/e/extension.json"⟩, .obj [("name", .str "east")]),
    (⟨"extensions/e/objects/a.json"⟩, .obj [("name", .str "a"), ("caption", .str "Patched")]),
    (⟨"extensions/w/extension.json"⟩, .obj [("name", .str "west")]),
    (⟨"extensions/w/objects/b.json"⟩, .obj [("name", .str "b"), ("caption", .str "B")])]

theorem reachable_of_disabledPatch {repository : Repository}
    (h : Repository.ofFiles disabledPatch = .ok repository) : repository.Reachable := by
  refine Repository.Reachable.empty.insertFiles (fun file hfile => ?_) h
  simp only [disabledPatch, List.mem_cons, List.not_mem_nil, or_false] at hfile
  rcases hfile with rfl | rfl | rfl | rfl | rfl | rfl <;>
    simp [Json.WellFormed, Json.WellFormedFields]

/-- A patch of a disabled extension makes no difference, and another extension still applies. -/
theorem disabled_patch_has_no_influence :
    ∃ repository, Repository.ofFiles disabledPatch = .ok repository ∧
      repository.Disables (ignoring "e") "e" "east" ∧
      (repository.without "e").Unmarked "e" "east" ∧
      repository.contains ⟨.object, "a", some "e"⟩ = true ∧
      captionOf? (ofRepository repository (ignoring "e")).build "a" = some "A" ∧
      captionOf? (ofRepository repository (ignoring "e")).build "west/b" = some "B" ∧
      (ofRepository repository (ignoring "e")).build =
        (ofRepository (repository.without "e") (ignoring "e")).build := by
  have hview : (Repository.ofFiles disabledPatch).toOption.map (fun repository =>
      (decide (repository.Disables (ignoring "e") "e" "east" ∧
          (repository.without "e").Unmarked "e" "east" ∧
          repository.contains ⟨.object, "a", some "e"⟩ = true),
        includedIn (ignoring "e") repository,
        captionOf? (ofRepository repository (ignoring "e")).build "a",
        captionOf? (ofRepository repository (ignoring "e")).build "west/b")) =
      some (true, some [some (.inCore .file "includes/more.json")], some "A", some "B") := by
    decide +kernel
  obtain ⟨repository, hfiles, hrepository⟩ := Option.map_eq_some_iff.1 hview
  have hfiles := eq_ok_of_toOption hfiles
  simp only [Prod.mk.injEq, decide_eq_true_eq] at hrepository
  obtain ⟨⟨hdisabled, hmarks, hpatch⟩, hincluded, ha, hb⟩ := hrepository
  refine ⟨repository, hfiles, hdisabled, hmarks, hpatch, ha, hb, ?_⟩
  refine (disabled_extension_has_no_influence (reachable_of_disabledPatch hfiles) hdisabled
    (fun seen hseen op hop source hsource => ?_) hmarks).2
  have hmem := source?_mem_of_includedIn hincluded hseen hop
  rw [hsource, List.mem_singleton, Option.some.injEq] at hmem
  rw [hmem]
  decide

/-! ## An included declaration -/

/-- An object that includes the declaration of an extension, which is in core itself. -/
def includedDeclaration : List (Path × Json) :=
  [(⟨"objects/a.json"⟩, .obj [("name", .str "a"),
      ("$include", .str "extensions/e/extension.json")]),
    (⟨"extensions/e/extension.json"⟩, .obj [("name", .str "e"), ("caption", .str "E")])]

/--
The declaration of a disabled extension can be included without anything that the extension owns.
Then a build depends on it.
-/
theorem included_declaration_has_influence :
    ∃ repository, Repository.ofFiles includedDeclaration = .ok repository ∧
      repository.Disables (ignoring "e") "e" "e" ∧
      (repository.without "e").Unmarked "e" "e" ∧
      (∀ seen, seenBy (ignoring "e") (.ofRepository repository) .includes = .ok seen →
        ∀ op ∈ includeFiles seen (ignoring "e"), ∀ source, op.action.source? = some source →
          source.extension ≠ some "e") ∧
      (ofRepository repository (ignoring "e")).build ≠
        (ofRepository (repository.without "e") (ignoring "e")).build := by
  have hview : (Repository.ofFiles includedDeclaration).toOption.map (fun repository =>
      (decide (repository.Disables (ignoring "e") "e" "e" ∧
          (repository.without "e").Unmarked "e" "e"),
        includedIn (ignoring "e") repository,
        captionOf? (ofRepository repository (ignoring "e")).build "a",
        captionOf? (ofRepository (repository.without "e") (ignoring "e")).build "a")) =
      some (true, some [some (.inCore .extension "e")], some "E", none) := by
    decide +kernel
  obtain ⟨repository, hfiles, hrepository⟩ := Option.map_eq_some_iff.1 hview
  simp only [Prod.mk.injEq, decide_eq_true_eq] at hrepository
  obtain ⟨⟨hdisabled, hmarks⟩, hincluded, ha, ha'⟩ := hrepository
  refine ⟨repository, eq_ok_of_toOption hfiles, hdisabled, hmarks,
    fun seen hseen op hop source hsource => ?_, fun heq => ?_⟩
  · have hmem := source?_mem_of_includedIn hincluded hseen hop
    rw [hsource, List.mem_singleton, Option.some.injEq] at hmem
    rw [hmem]
    decide
  · rw [heq, ha'] at ha
    cases ha

end Compilation

end EventSchema
