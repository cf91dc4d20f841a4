import EventSchema.Proofs.Creation
import EventSchema.Proofs.Rendering
import EventSchema.Proofs.Replay

/-!
# Runs of the structural phase

The edits of the structural phase succeed wherever the definitions that they read are there.  So a
run fails nowhere if whatever is edited or read is there at the start or has been edited before,
which holds of the dry run and of the schedule.

Main results:

- {lit}`Operation.grounds_of_supplies`: operations that are supplied find everything in place.
- {lit}`Compilation.structural_operations_succeed`: the structural phase does not fail.
-/

namespace EventSchema

open Std

namespace Operation

/-! ## One operation -/

/-- The edit of an operation succeeds wherever what it reads is there. -/
def IsTotal (op : Operation) : Prop :=
  ∀ (draft : Draft) (options : Options) (d : Definition),
    (∀ p ∈ op.prerequisites, draft.contains p = true) →
      ∃ revision, op.edit draft options d = .ok revision

/-- Operations of the structural phase fail only for want of what they read. -/
theorem isTotal_of_emits {planner : Planner} (hplanner : planner ∈ Phase.structural.planners)
    {op : Operation} (h : planner.Emits op) : op.IsTotal := by
  intro draft options d hsources
  have haction := h.action
  rcases op with ⟨target, action⟩
  have hmap (l : Location) (hl : action.source? = some l) (f : Definition → Revision) :
      ∃ revision, (source draft l).map f = .ok revision := by
    rcases Option.isSome_iff_exists.1 (hsources l (Option.mem_toList.2 hl)) with ⟨found, hfound⟩
    exact ⟨f found, by rw [source, hfound]; rfl⟩
  cases action with
  | tagProfile profile => exact ⟨_, rfl⟩
  | annotate => exact ⟨_, rfl⟩
  | removeProfile profile => exact ⟨_, rfl⟩
  | mergeExtension l => exact hmap l rfl _
  | copyExtension l extension key => exact hmap l rfl _
  | includeFrom l scope => exact hmap l rfl _
  | inherit l => exact hmap l rfl _
  | _ =>
    simp only [Phase.planners, List.mem_cons, List.not_mem_nil, or_false] at hplanner
    rcases hplanner with rfl | rfl | rfl | rfl | rfl | rfl <;> exact haction.elim

theorem blocked?_of_intact {draft : Draft} (h : draft.Intact) (op : Operation) :
    op.blocked? draft = none := by
  rw [blocked?, List.find?_eq_none.2 fun l _ => by simp [h l]]

/-- In a draft without failures an operation that finds everything in place succeeds. -/
theorem isFailed_outcome_of_grounds {op : Operation} (hop : op.IsTotal) {draft : Draft}
    (hintact : draft.Intact) (h : draft.Grounds op) (options : Options) :
    (op.outcome draft options).isFailed = false := by
  have htarget : ((draft.get? op.target).isNone && !op.action.createsTarget) = false := by
    rcases h.target with hcreates | hthere
    · simp [hcreates]
    · rw [Draft.contains, Option.isSome_iff_exists] at hthere
      rcases hthere with ⟨d, hd⟩
      simp [hd]
  rcases hop draft options ((draft.get? op.target).getD default) h.sources with ⟨revision, hedit⟩
  unfold outcome apply
  simp only [blocked?_of_intact hintact op, htarget, hedit]
  exact isFailed_outcomeOf_ok _ _

theorem contains_run (op : Operation) {draft : Draft} (options : Options) {l : Location}
    (h : draft.contains l = true) : (op.run draft options).contains l = true := by
  rw [Draft.contains, op.get?_run, Option.isSome_or, ← Draft.contains, h, Bool.or_true]

theorem contains_runAll (options : Options) {draft : Draft} {l : Location}
    (h : draft.contains l = true) (ops : List Operation) :
    (runAll options draft ops).contains l = true := by
  induction ops generalizing draft with
  | nil => exact h
  | cons op rest ih => exact ih (contains_run op options h)

/-- After an operation that succeeded its target is there. -/
theorem contains_target_run {op : Operation} {draft : Draft} {options : Options}
    (h : (op.outcome draft options).isFailed = false) :
    (op.run draft options).contains op.target = true := by
  rcases op.outcome_cases draft options with
    ⟨cause, hout⟩ | ⟨-, revision, -, hout | ⟨-, d, hd, -⟩⟩
  · rw [hout] at h
    cases h
  · unfold Draft.contains
    rw [op.get?_run_target, hout]
    rfl
  · exact contains_run op options (Draft.contains_of_get? hd)

theorem intact_run {op : Operation} {draft : Draft} {options : Options} (hintact : draft.Intact)
    (h : (op.outcome draft options).isFailed = false) : (op.run draft options).Intact := by
  intro l
  have hcause : (op.outcome draft options).cause? = none := by
    apply Option.not_isSome_iff_eq_none.1
    rw [Outcome.isSome_cause?, h]
    exact Bool.false_ne_true
  rw [op.failure?_run, hintact l, hcause, ite_self, Option.or_none]

/-! ## Runs -/

/-- A draft without failures, in which everything that has been edited is there. -/
structure Established (draft : Draft) (done : List Operation) : Prop where
  intact : draft.Intact
  contains : ∀ op ∈ done, draft.contains op.target = true

/-- Operations that are supplied find everything in place. -/
theorem grounds_of_supplies {draft : Draft} {options : Options} {before : List Operation}
    (h : Established (runAll options draft before) before) {op : Operation}
    (hop : draft.Supplies before op) : (runAll options draft before).Grounds op := by
  have hfound {l : Location}
      (hl : draft.contains l = true ∨ ∃ earlier ∈ before, earlier.target = l) :
      (runAll options draft before).contains l = true := by
    rcases hl with hl | ⟨earlier, hmem, rfl⟩
    · exact contains_runAll options hl before
    · exact h.contains earlier hmem
  exact ⟨hop.target.imp id hfound, fun p hp => hfound (hop.sources p hp)⟩

/-- A run of operations that are supplied in time does not fail. -/
theorem established_runAll {draft : Draft} (hdraft : draft.Intact) (options : Options)
    {ops : List Operation} (htotal : ∀ op ∈ ops, op.IsTotal)
    (hsupplies : ∀ before op after, ops = before ++ op :: after → draft.Supplies before op)
    {before after : List Operation} (hsplit : ops = before ++ after) :
    Established (runAll options draft before) before := by
  induction before using List.reverseRecOn generalizing after with
  | nil => exact ⟨hdraft, by simp⟩
  | append_singleton before op ih =>
    rw [List.append_assoc, List.singleton_append] at hsplit
    have hbefore := ih hsplit
    have hsucceeds := isFailed_outcome_of_grounds (htotal op (by simp [hsplit])) hbefore.intact
      (grounds_of_supplies hbefore (hsupplies before op after hsplit)) options
    rw [runAll_append, runAll_cons, runAll_nil]
    refine ⟨intact_run hbefore.intact hsucceeds, fun other hother => ?_⟩
    rcases List.mem_append.1 hother with hother | hother
    · exact contains_run op options (hbefore.contains other hother)
    · rw [List.mem_singleton.1 hother]
      exact contains_target_run hsucceeds

/-- A run of operations for which everything is in place at the start does not fail. -/
theorem established_of_grounds {draft : Draft} (hdraft : draft.Intact) (options : Options)
    {ops : List Operation} (htotal : ∀ op ∈ ops, op.IsTotal)
    (hgrounds : ∀ op ∈ ops, draft.Grounds op)
    {before after : List Operation} (hsplit : ops = before ++ after) :
    Established (runAll options draft before) before := by
  refine established_runAll hdraft options htotal (fun earlier op later heq => ?_) hsplit
  exact (hgrounds op (heq ▸ List.mem_append_cons_self)).supplies earlier

end Operation

namespace Compilation

open Operation

/-! ## The structural phase -/

/-- The structural phase is established after any number of its operations as scheduled. -/
theorem established_schedule {repository : Repository} (hr : repository.Reachable)
    {options : Options} {ops : List Operation}
    (h : Proposes options (.ofRepository repository) Phase.structural.planners ops)
    {before after : List Operation}
    (hsplit : (PhasePlan.ofOperations .structural ops).schedule = before ++ after) :
    Established (runAll options (.ofRepository repository) before) before := by
  refine established_runAll (fun l => Draft.failure?_ofRepository repository l) options ?_ ?_ hsplit
  · intro op hop
    rcases h.exists_emits ((PhasePlan.schedule_perm .structural ops).mem_iff.1 hop) with
      ⟨planner, hplanner, hemits⟩
    exact isTotal_of_emits hplanner hemits
  · exact fun before op after => supplies_schedule h hr.hosted

/-- Each operation of the structural phase finds everything in place as scheduled, and succeeds. -/
theorem succeeds_schedule {repository : Repository} (hr : repository.Reachable)
    {options : Options} {ops : List Operation}
    (h : Proposes options (.ofRepository repository) Phase.structural.planners ops)
    {before after : List Operation} {op : Operation}
    (hsplit : (PhasePlan.ofOperations .structural ops).schedule = before ++ op :: after) :
    (runAll options (.ofRepository repository) before).Grounds op ∧
      (op.outcome (runAll options (.ofRepository repository) before) options).isFailed = false := by
  have hop : op ∈ ops :=
    (PhasePlan.schedule_perm .structural ops).mem_iff.1 (by simp [hsplit])
  rcases h.exists_emits hop with ⟨planner, hplanner, hemits⟩
  have hbefore := established_schedule hr h hsplit
  have hgrounds := grounds_of_supplies hbefore (supplies_schedule h hr.hosted hsplit)
  exact ⟨hgrounds, isFailed_outcome_of_grounds (isTotal_of_emits hplanner hemits) hbefore.intact
    hgrounds options⟩

/--
A repository that can be analyzed can be compiled, and no operation of its structural phase fails.
When an operation is run, everything that it reads is there, and so is its target unless the
operation creates it; afterwards its target is there in any case.
-/
theorem structural_operations_succeed {repository : Repository} (hr : repository.Reachable)
    {options : Options} {analyzed : Compilation}
    (h : (ofRepository repository options).analyze = .ok analyzed) :
    ∃ plan compiled log structural recorded, analyzed.stage = .analyzed plan ∧
      analyzed.compile = .ok compiled ∧ compiled.stage = .compiled plan log ∧
      plan.phase? .structural = some structural ∧ log.phase? .structural = some recorded ∧
      (∀ l, ∀ entry ∈ recorded.get l, entry.outcome.isFailed = false) ∧
      ∀ before op after, structural.schedule = before ++ op :: after →
        ⟨op, op.outcome (runAll options (.ofRepository repository) before) options⟩ ∈
          recorded.get op.target ∧
        (∀ source ∈ op.prerequisites,
          (runAll options (.ofRepository repository) before).contains source = true) ∧
        (op.action.createsTarget = true ∨
          (runAll options (.ofRepository repository) before).contains op.target = true) ∧
        (op.run (runAll options (.ofRepository repository) before) options).contains op.target =
          true := by
  rcases analyze_ofRepository_eq_ok_iff.1 h with ⟨scratch, plan, hplan, rfl⟩
  rcases planPhases_cons_eq_ok_iff.1 hplan with ⟨ops, later, hops, -, hphases⟩
  refine ⟨plan, _, _, .ofOperations .structural ops,
    (applyPhase options (.ofRepository repository) (.ofOperations .structural ops)).2, rfl,
    compile_analyzed _ _ _, rfl, ?_, ?_, fun l entry hentry => ?_, fun before op after hsplit => ?_⟩
  · simp [Plan.phase?, hphases]
  · simp [Log.phase?, hphases, applyPhases]
  · rcases mem_get_applyPhase.1 hentry with ⟨before, op, after, hsplit, -, rfl⟩
    exact (succeeds_schedule hr hops hsplit).2
  · rcases succeeds_schedule hr hops hsplit with ⟨hgrounds, hsucceeds⟩
    refine ⟨?_, hgrounds.sources, hgrounds.target, contains_target_run hsucceeds⟩
    exact mem_get_applyPhase.2 ⟨before, op, after, hsplit, rfl, rfl⟩

/-! ## A copy on a cycle -/

/-- An object of an extension that includes an object of core, which has it as its parent. -/
def copyOnCycle : List (Path × Json) :=
  [(⟨"extensions/x/extension.json"⟩, .obj [("name", .str "x")]),
    (⟨"extensions/x/objects/b.json"⟩,
      .obj [("name", .str "b"), ("$include", .str "objects/a.json")]),
    (⟨"objects/a.json"⟩, .obj [("name", .str "a"), ("extends", .str "b")])]

/-- Whether a location is authored, and the targets of the structural phase as scheduled. -/
def structuralTargets (l : Location) (way : Way) : Bool × List Location :=
  (way.repository.contains l,
    ((way.plan.phase? .structural).map fun phase => phase.schedule.map (·.target)).getD [])

theorem reachable_of_copyOnCycle {repository : Repository}
    (h : Repository.ofFiles copyOnCycle = .ok repository) : repository.Reachable := by
  refine Repository.Reachable.empty.insertFiles (fun file hfile => ?_) h
  simp only [copyOnCycle, List.mem_cons, List.not_mem_nil, or_false] at hfile
  rcases hfile with rfl | rfl | rfl <;> simp [Json.WellFormed, Json.WellFormedFields]

/-- The copy is made first, then it includes its child, and only then the child inherits from it. -/
theorem copy_on_cycle_succeeds :
    ∃ way : Way, ∃ log structural recorded,
      Repository.ofFiles copyOnCycle = .ok way.repository ∧
      (ofRepository way.repository {}).analyze = .ok way.analyzed ∧
      way.analyzed.compile = .ok way.compiled ∧ way.compiled.stage.log? = some log ∧
      way.repository.contains (.inCore .object "x/b") = false ∧
      way.plan.phase? .structural = some structural ∧
      structural.schedule.map (·.target) =
        [.inCore .object "x/b", .inCore .object "x/b", .inCore .object "a"] ∧
      log.phase? .structural = some recorded ∧
      ∀ l, ∀ entry ∈ recorded.get l, entry.outcome.isFailed = false := by
  have hview : (wayOf copyOnCycle).map (structuralTargets (.inCore .object "x/b")) =
      some (false, [.inCore .object "x/b", .inCore .object "x/b", .inCore .object "a"]) := by
    decide +kernel
  rcases exists_of_wayOf hview with ⟨way, hfiles, hanalyze, hplan, hcompile, -, hway⟩
  rcases structural_operations_succeed (reachable_of_copyOnCycle hfiles) hanalyze with
    ⟨plan, compiled, log, structural, recorded, hstage, hcompile', hlog, hstructural, hrecorded,
      hsucceed, -⟩
  rw [hstage] at hplan
  cases hplan
  cases hcompile.symm.trans hcompile'
  rcases Prod.mk.inj hway with ⟨hmissing, htargets⟩
  rw [hstructural] at htargets
  refine ⟨way, log, structural, recorded, hfiles, hanalyze, hcompile, ?_, hmissing, hstructural,
    htargets, hrecorded, hsucceed⟩
  rw [hlog]
  rfl

end Compilation

end EventSchema
