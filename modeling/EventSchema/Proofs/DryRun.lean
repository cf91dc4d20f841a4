import EventSchema.Proofs.Inheritance
import EventSchema.Proofs.Planning

/-!
# The dry run and the compilation

Planning runs its operations on a scratch draft in the order in which they are emitted; compiling
runs the operations of each phase as scheduled.  Both lead to the same draft as long as no include
reads a definition that the structural phase still edits after it.

Main results:

- {lit}`Compilation.settled_within_of_proposes`: without premature includes what is planned for a
  phase is settled.
- {lit}`Compilation.agreeOn_applyPhases`: on locations without premature includes the compilation
  agrees with the dry run.
- {lit}`Compilation.compile_agrees_with_dry_run`: the same for the locations that one location
  depends on.
-/

namespace EventSchema

open Relation Std

/-! ## Premature includes -/

namespace Operation

/-- Whether an operation of the structural phase is emitted behind the includes of a location. -/
def followsIncludesOf (later : Operation) (l : Location) : Bool :=
  match later.action with
  | .removeProfile _ | .inherit _ => true
  | .includeFrom _ _ => compare l later.target == .lt
  | _ => false

/-- Whether an operation includes a definition that is edited by an operation emitted later. -/
def isPremature (planned : Location → List Operation) (op : Operation) : Bool :=
  match op.action with
  | .includeFrom source _ =>
    source != op.target && (planned source).any (·.followsIncludesOf op.target)
  | _ => false

/-- An include is premature if its source still takes something in that comes later. -/
theorem isPremature_iff {planned : Location → List Operation} {op : Operation} :
    op.isPremature planned = true ↔
      ∃ source scope, op.action = .includeFrom source scope ∧ source ≠ op.target ∧
        ∃ later ∈ planned source, later.followsIncludesOf op.target = true := by
  unfold isPremature
  cases op.action <;> simp

/-- An include that is in time is so among fewer operations. -/
theorem isPremature_eq_false_of_subset {planned more : Location → List Operation}
    {op : Operation} (h : op.isPremature more = false)
    (hsub : ∀ l, ∀ later ∈ planned l, later ∈ more l) : op.isPremature planned = false := by
  refine Bool.eq_false_iff.2 fun hpremature => ?_
  rcases isPremature_iff.1 hpremature with ⟨source, scope, haction, hne, later, hlater, hfollows⟩
  have hmore : op.isPremature more = true :=
    isPremature_iff.2 ⟨source, scope, haction, hne, later, hsub source later hlater, hfollows⟩
  rw [h] at hmore
  cases hmore

end Operation

namespace Plan

/-- One location is consulted by what is planned for another. -/
def Consults (plan : Plan) (l m : Location) : Prop :=
  ∃ op ∈ plan.operationsFor l, op.Consults m

/-- Nothing that a location depends on has a premature include. -/
def SettledAt (plan : Plan) (l : Location) : Prop :=
  ∀ m, ReflTransGen plan.Consults l m →
    ∀ op ∈ plan.operationsFor m, op.isPremature plan.operationsFor = false

/-- Whether no include is premature. -/
def isSettled (plan : Plan) : Bool :=
  plan.phases.all fun phase =>
    phase.targets.all fun l => (phase.get l).all fun op => !op.isPremature plan.operationsFor

/-- A plan without premature includes is settled at every location. -/
theorem settledAt_of_isSettled {plan : Plan} (h : plan.isSettled = true) (l : Location) :
    plan.SettledAt l := by
  intro m _ op hop
  rcases List.mem_flatMap.1 hop with ⟨phase, hphase, hop⟩
  have htarget := PhasePlan.mem_targets_of_mem_get hop
  have hall := List.all_eq_true.1 (List.all_eq_true.1 (List.all_eq_true.1 h phase hphase) m htarget)
  simpa using hall op hop

end Plan

namespace Operation

/-! ## Settled parts -/

/-- Operations are settled before others if none of them consults what those edit. -/
theorem settled_append {ops more : List Operation} :
    Settled (ops ++ more) ↔ Settled ops ∧ Settled more ∧
      ∀ op ∈ ops, ∀ later ∈ more, op.Consults later.target → later.target = op.target :=
  List.pairwise_append

/-- The operations within some locations come in the same order. -/
theorem within_sublist (S : Location → Prop) (ops : List Operation) :
    (within S ops).Sublist ops :=
  List.filter_sublist

/-- Operations within some locations are settled if all are. -/
theorem Settled.within {ops : List Operation} (h : Settled ops) (S : Location → Prop) :
    Settled (within S ops) :=
  List.Pairwise.sublist (within_sublist S ops) h

end Operation

namespace Planner

/-- The planner of includes includes files and nothing else. -/
theorem exists_includeFrom {op : Operation} (h : includes.Emits op) :
    ∃ source scope, op.action = .includeFrom source scope := by
  have haction := h.action
  cases hop : op.action with
  | includeFrom source scope => exact ⟨source, scope, rfl⟩
  | _ =>
    rw [hop] at haction
    exact haction.elim

/-! ## The later phases -/

/-- Behind the structural phase, no planner edits what one of the same phase reads. -/
theorem not_reads_of_emits {phase : Phase} (hphase : phase ≠ .structural) {reader writer : Planner}
    (hreader : reader ∈ phase.planners) (hwriter : writer ∈ phase.planners) {op : Operation}
    (h : writer.Emits op) : ¬ reader.Reads op.target := by
  intro hreads
  have hkind := h.kind
  cases phase with
  | structural => exact hphase rfl
  | dictionary =>
    simp only [Phase.planners, List.mem_cons, List.not_mem_nil, or_false] at hreader hwriter
    rcases hreader with rfl | rfl
    · exact hreads
    · have hdictionary : op.target.kind = .dictionary := hreads
      rcases hwriter with rfl | rfl
      · simp [targetKinds, hdictionary] at hkind
      · simp [targetKinds, Kind.withAttributes, hdictionary] at hkind
  | identifiers =>
    simp only [Phase.planners, List.mem_cons, List.not_mem_nil, or_false] at hreader
    rcases hreader with rfl | rfl | rfl | rfl | rfl | rfl | rfl <;> exact hreads
  | schema =>
    simp only [Phase.planners, List.mem_cons, List.not_mem_nil, or_false] at hreader hwriter
    subst hreader hwriter
    have hpart : op.target.part? = none := hreads
    rcases List.mem_map.1 hkind with ⟨part, -, heq⟩
    simp [Location.part?, ← heq] at hpart

/-- Categories are searched for in the phase of the dictionary, which edits none. -/
theorem kind_ne_category_of_emits {phase : Phase} (hreader : category ∈ phase.planners)
    {writer : Planner} (hwriter : writer ∈ phase.planners) {op : Operation} (h : writer.Emits op) :
    op.target.kind ≠ .category := by
  intro hkind
  have htarget := h.kind
  rw [hkind] at htarget
  cases phase <;> simp [Phase.planners] at hreader hwriter
  rcases hwriter with rfl | rfl <;> simp [targetKinds, Kind.withAttributes] at htarget

/-- Behind the structural phase, operations of a phase consult no targets but their own. -/
theorem eq_target_of_consults {phase : Phase} (hphase : phase ≠ .structural)
    {reader writer : Planner} (hreader : reader ∈ phase.planners)
    (hwriter : writer ∈ phase.planners) {op other : Operation} (h : reader.Emits op)
    (h' : writer.Emits other) (hconsults : op.Consults other.target) :
    other.target = op.target := by
  rcases hconsults with heq | hmem | ⟨⟨name, hname⟩, hkind⟩
  · exact heq
  · exact absurd (h.reads hmem) (not_reads_of_emits hphase hreader hwriter h')
  · rw [h.eq_category hname] at hreader
    exact absurd hkind (kind_ne_category_of_emits hreader hwriter h')

end Planner

namespace Compilation

/-! ## The structural phase -/

/-- Operations of the structural phase by planner; the early ones come from two planners. -/
structure Structural (early extensions includes removals inherits : List Operation) : Prop where
  emits_early : ∀ op ∈ early, Planner.profileTag.Emits op ∨ Planner.annotations.Emits op
  emits_extensions : ∀ op ∈ extensions, Planner.extension.Emits op
  emits_includes : ∀ op ∈ includes, Planner.includes.Emits op
  ordered_includes : includes.Pairwise fun op later =>
    op.target = later.target ∨ compare op.target later.target = .lt
  emits_removals : ∀ op ∈ removals, Planner.profileRemove.Emits op
  emits_inherits : ∀ op ∈ inherits, Planner.inheritance.Emits op
  settled_inherits : Operation.Settled inherits

/-- The first phase consists of five parts. -/
theorem exists_structural {options : Options} {draft : Draft} {ops : List Operation}
    (h : Proposes options draft Phase.structural.planners ops) :
    ∃ early extensions includes removals inherits,
      ops = early ++ (extensions ++ (includes ++ (removals ++ inherits))) ∧
        Structural early extensions includes removals inherits := by
  unfold Phase.planners at h
  cases h with
  | @cons _ _ _ tags _ htags h => cases h with
  | @cons _ _ _ annotations _ hannotations h => cases h with
  | @cons _ _ _ extensions _ hextensions h => cases h with
  | @cons _ _ _ includes _ hincludes h => cases h with
  | @cons _ _ _ removals _ hremovals h => cases h with
  | @cons _ _ _ inherits _ hinherits h => cases h with
  | nil =>
    refine ⟨tags ++ annotations, extensions, includes, removals, inherits, by simp, ?_⟩
    constructor
    · intro op hop
      rcases List.mem_append.1 hop with hop | hop
      · exact Or.inl (Planner.emits_of_mem htags hop)
      · exact Or.inr (Planner.emits_of_mem hannotations hop)
    · exact fun op => Planner.emits_of_mem hextensions
    · exact fun op => Planner.emits_of_mem hincludes
    · exact Except.ok.inj hincludes ▸ Planner.ordered_includeFiles _ options
    · exact fun op => Planner.emits_of_mem hremovals
    · exact fun op => Planner.emits_of_mem hinherits
    · exact Planner.settled_inherit hinherits

namespace Structural

variable {early extensions includes removals inherits : List Operation}

/-- Behind the first two planners only core is edited. -/
theorem isCore_of_mem (h : Structural early extensions includes removals inherits) {op : Operation}
    (hop : op ∈ extensions ++ (includes ++ (removals ++ inherits))) : op.target.isCore = true := by
  simp only [List.mem_append] at hop
  rcases hop with hop | hop | hop | hop
  · exact (h.emits_extensions op hop).core rfl
  · exact (h.emits_includes op hop).core rfl
  · exact (h.emits_removals op hop).core rfl
  · exact (h.emits_inherits op hop).core rfl

/-- The first operations consult nothing but their targets. -/
theorem eq_target_of_early (h : Structural early extensions includes removals inherits)
    {op : Operation} (hop : op ∈ early) {l : Location} (hl : op.Consults l) : l = op.target := by
  rcases h.emits_early op hop with hemits | hemits
  · exact Operation.eq_target_of_consults hemits (by decide) (fun _ hreads => hreads) hl
  · exact Operation.eq_target_of_consults hemits (by decide) (fun _ hreads => hreads) hl

/-- Removals consult nothing but their targets. -/
theorem eq_target_of_removal (h : Structural early extensions includes removals inherits)
    {op : Operation} (hop : op ∈ removals) {l : Location} (hl : op.Consults l) : l = op.target :=
  Operation.eq_target_of_consults (h.emits_removals op hop) (by decide) (fun _ hreads => hreads) hl

/-- What an extension brings is read outside of core. -/
theorem eq_target_of_extension (h : Structural early extensions includes removals inherits)
    {op : Operation} (hop : op ∈ extensions) {l : Location} (hcore : l.isCore = true)
    (hl : op.Consults l) : l = op.target := by
  have hemits := h.emits_extensions op hop
  rcases (Operation.consults_iff_of_emits hemits (by decide)).1 hl with heq | hmem
  · exact heq
  · have hout : l.isCore = false := hemits.reads hmem
    rw [hcore] at hout
    cases hout

/-- Removals and inheritance come after includes. -/
theorem followsIncludes_of_mem (h : Structural early extensions includes removals inherits)
    {later : Operation} (hlater : later ∈ removals ++ inherits) (l : Location) :
    later.followsIncludesOf l = true := by
  unfold Operation.followsIncludesOf
  rcases List.mem_append.1 hlater with hlater | hlater
  · have haction := (h.emits_removals later hlater).action
    cases hop : later.action <;> simp_all [Planner.Acts]
  · have haction := (h.emits_inherits later hlater).action
    cases hop : later.action <;> simp_all [Planner.Acts]

/-- What follows an include edits its source only if the include is premature. -/
theorem eq_target_of_include (h : Structural early extensions includes removals inherits)
    {planned : Location → List Operation} {op later : Operation} (hop : op ∈ includes)
    (hsettled : op.isPremature planned = false) (hlater : later ∈ planned later.target)
    (hfollows : later.target ≠ op.target → later.followsIncludesOf op.target = true)
    (hconsults : op.Consults later.target) : later.target = op.target := by
  by_contra hne
  have hemits := h.emits_includes op hop
  rcases (Operation.consults_iff_of_emits hemits (by decide)).1 hconsults with heq | hmem
  · exact hne heq
  · rcases Planner.exists_includeFrom hemits with ⟨source, scope, haction⟩
    have hsource : later.target = source := by
      simpa [Operation.prerequisites, haction, Action.source?] using hmem
    have hpremature : op.isPremature planned = true := Operation.isPremature_iff.2
      ⟨source, scope, haction, hsource ▸ hne, later, hsource ▸ hlater, hfollows hne⟩
    rw [hsettled] at hpremature
    cases hpremature

/-- Without premature includes on its locations, a closed part of the phase is settled. -/
theorem settled_within (h : Structural early extensions includes removals inherits)
    {ops : List Operation}
    (hops : ops = early ++ (extensions ++ (includes ++ (removals ++ inherits))))
    {S : Location → Prop}
    (hS : ∀ op ∈ ops, S op.target → op.isPremature (Operation.targeting ops) = false) :
    Operation.Settled (Operation.within S ops) := by
  subst hops
  simp only [Operation.within_append, Operation.settled_append]
  refine ⟨?_, ⟨?_, ⟨?_, ⟨?_, ?_, ?_⟩, ?_⟩, ?_⟩, ?_⟩
  · refine Operation.Settled.within ?_ S
    exact Operation.settled_of_forall fun op hop other _ => h.eq_target_of_early hop
  · refine Operation.Settled.within ?_ S
    refine Operation.settled_of_forall fun op hop other hother => ?_
    exact h.eq_target_of_extension hop (h.isCore_of_mem (List.mem_append_left _ hother))
  · -- Among the includes only those of later locations come behind one.
    refine (h.ordered_includes.filter _).imp_of_mem ?_
    intro op later hop hlater hordered hconsults
    rcases Operation.mem_within.1 hop with ⟨hop, hSop⟩
    rcases Operation.mem_within.1 hlater with ⟨hlater, -⟩
    refine h.eq_target_of_include hop (hS op (by simp [hop]) hSop)
      (Operation.mem_targeting.2 ⟨by simp [hlater], rfl⟩) ?_ hconsults
    intro hne
    rcases Planner.exists_includeFrom (h.emits_includes later hlater) with ⟨source, scope, haction⟩
    rw [Operation.followsIncludesOf, haction]
    exact beq_iff_eq.2 (hordered.resolve_left (Ne.symm hne))
  · refine Operation.Settled.within ?_ S
    exact Operation.settled_of_forall fun op hop other _ => h.eq_target_of_removal hop
  · exact h.settled_inherits.within S
  · intro op hop later _
    exact h.eq_target_of_removal (Operation.mem_within.1 hop).1
  · intro op hop later hlater
    rcases Operation.mem_within.1 hop with ⟨hop, hSop⟩
    rw [← Operation.within_append] at hlater
    have hlater := (Operation.mem_within.1 hlater).1
    refine h.eq_target_of_include hop (hS op (by simp [hop]) hSop)
      (Operation.mem_targeting.2 ⟨?_, rfl⟩) fun _ => h.followsIncludes_of_mem hlater _
    exact List.mem_append_right _ (List.mem_append_right _ (List.mem_append_right _ hlater))
  · intro op hop later hlater
    simp only [← Operation.within_append] at hlater
    have hlater := (Operation.mem_within.1 hlater).1
    exact h.eq_target_of_extension (Operation.mem_within.1 hop).1
      (h.isCore_of_mem (List.mem_append_right _ hlater))
  · intro op hop later _
    exact h.eq_target_of_early (Operation.mem_within.1 hop).1

end Structural

/-! ## All phases -/

/-- Without premature includes a phase is settled, as it was emitted and as it is scheduled. -/
theorem settled_within_of_proposes {phase : Phase} {options : Options} {draft : Draft}
    {ops : List Operation} (h : Proposes options draft phase.planners ops)
    {S : Location → Prop} (hclosed : Operation.Closed ops S)
    (hS : ∀ op ∈ ops, S op.target → op.isPremature (Operation.targeting ops) = false) :
    Operation.Settled (Operation.within S ops) ∧
      Operation.Settled (Operation.within S (PhasePlan.ofOperations phase ops).schedule) := by
  by_cases hphase : phase = .structural
  · subst hphase
    rcases exists_structural h with
      ⟨early, extensions, includes, removals, inherits, hops, hstructural⟩
    have hsettled := hstructural.settled_within hops hS
    refine ⟨hsettled, Operation.settled_within_schedule _ hclosed hsettled ?_⟩
    intro op hop category hcategory
    rcases h.exists_emits hop with ⟨planner, hplanner, hemits⟩
    rw [hemits.eq_category hcategory] at hplanner
    simp [Phase.planners] at hplanner
  · have hlocal : ∀ op ∈ ops, ∀ other ∈ ops, op.Consults other.target →
        other.target = op.target := by
      intro op hop other hother hconsults
      rcases h.exists_emits hop with ⟨reader, hreader, hemits⟩
      rcases h.exists_emits hother with ⟨writer, hwriter, hemits'⟩
      exact Planner.eq_target_of_consults hphase hreader hwriter hemits hemits' hconsults
    have hperm := PhasePlan.schedule_perm phase ops
    constructor
    · exact (Operation.settled_of_forall hlocal).within S
    · refine (Operation.settled_of_forall fun op hop other hother => ?_).within S
      exact hlocal op (hperm.mem_iff.1 hop) other (hperm.mem_iff.1 hother)

/-- On locations without premature includes the compilation agrees with the dry run. -/
theorem agreeOn_applyPhases {options : Options} {phases : List Phase} {plans : List PhasePlan}
    {scratch last : Draft} (h : planPhases options scratch phases = .ok (last, plans))
    {S : Location → Prop}
    (hclosed : ∀ l, S l → ∀ op ∈ (⟨plans⟩ : Plan).operationsFor l, ∀ m, op.Consults m → S m)
    (hS : ∀ l, S l → ∀ op ∈ (⟨plans⟩ : Plan).operationsFor l,
      op.isPremature (⟨plans⟩ : Plan).operationsFor = false)
    {draft : Draft} (hagree : Draft.AgreeOn S draft scratch) :
    Draft.AgreeOn S (applyPhases options draft plans).1 last := by
  induction phases generalizing plans scratch draft with
  | nil =>
    rcases planPhases_nil_eq_ok_iff.1 h with ⟨rfl, rfl⟩
    exact hagree
  | cons phase rest ih =>
    rcases planPhases_cons_eq_ok_iff.1 h with ⟨ops, more, hops, hmore, rfl⟩
    have hfirst (l : Location) (op : Operation) (hop : op ∈ Operation.targeting ops l) :
        op ∈ (⟨PhasePlan.ofOperations phase ops :: more⟩ : Plan).operationsFor l :=
      Plan.mem_operationsFor_cons.2 (Or.inl (Operation.mem_targeting.1 hop))
    have hlater (l : Location) (op : Operation) (hop : op ∈ (⟨more⟩ : Plan).operationsFor l) :
        op ∈ (⟨PhasePlan.ofOperations phase ops :: more⟩ : Plan).operationsFor l :=
      Plan.mem_operationsFor_cons.2 (Or.inr hop)
    have hclosed' : Operation.Closed ops S := fun op hop hl =>
      hclosed op.target hl op (hfirst op.target op (Operation.mem_targeting.2 ⟨hop, rfl⟩))
    have hsettled := settled_within_of_proposes hops hclosed' fun op hop hl =>
      Operation.isPremature_eq_false_of_subset
        (hS op.target hl op (hfirst op.target op (Operation.mem_targeting.2 ⟨hop, rfl⟩))) hfirst
    have hhere := Operation.agreeOn_runAll_schedule phase options hclosed' hsettled.1 hsettled.2
      hagree
    rw [draft_applyPhases_cons]
    refine ih hmore ?_ ?_ hhere
    · intro l hl op hop
      exact hclosed l hl op (hlater l op hop)
    · intro l hl op hop
      exact Operation.isPremature_eq_false_of_subset (hS l hl op (hlater l op hop)) hlater

/--
A compilation that was analyzed can be compiled.  At every location that depends on no premature
include it then shows what the dry run has shown: the same definition, failure and origin.
-/
theorem compile_agrees_with_dry_run {repository : Repository} {options : Options}
    {analyzed : Compilation} (h : (ofRepository repository options).analyze = .ok analyzed) :
    ∃ scratch plan compiled,
      planPhases options (.ofRepository repository) Phase.all = .ok (scratch, plan.phases) ∧
      analyzed.stage = .analyzed plan ∧ analyzed.compile = .ok compiled ∧
      ∀ l, plan.SettledAt l → compiled.draft.SameAt scratch l := by
  rcases analyze_ofRepository_eq_ok_iff.1 h with ⟨scratch, plan, hplan, rfl⟩
  refine ⟨scratch, plan, _, hplan, rfl, compile_analyzed _ _ _, fun l hl => ?_⟩
  have hclosed (m : Location) (hm : ReflTransGen plan.Consults l m) (op : Operation)
      (hop : op ∈ plan.operationsFor m) (k : Location) (hk : op.Consults k) :
      ReflTransGen plan.Consults l k :=
    hm.tail ⟨op, hop, hk⟩
  exact agreeOn_applyPhases hplan hclosed hl (.refl _ _) l .refl

/-! ## An include in time, and one too early -/

/-- A class that includes a file, a profile that includes a fragment, and the fragment. -/
def classWithInclude (included : String) : List (Path × Json) :=
  [(⟨"events/network/a.json"⟩,
      .obj [("name", .str "a"), ("category", .str "none"), ("$include", .str included)]),
    (⟨"profiles/z.json"⟩, .obj [("name", .str "z"), ("$include", .str "includes/x.json")]),
    (⟨"includes/x.json"⟩, .obj [("uid", Json.ofInt 7)])]

/-- The class includes the fragment. -/
def settledInclude : List (Path × Json) := classWithInclude "includes/x.json"

/-- The class includes the profile, which includes the fragment itself. -/
def prematureInclude : List (Path × Json) := classWithInclude "profiles/z.json"

/-- Whether the plan of some files is settled, and an identifier by the dry run and as compiled. -/
def uidsOf (files : List (Path × Json)) (l : Location) :
    Option (Bool × Option Int × Option Int) :=
  match Repository.ofFiles files with
  | .error _ => none
  | .ok repository =>
    match planPhases {} (.ofRepository repository) Phase.all with
    | .error _ => none
    | .ok (scratch, plans) =>
      let compiled := (applyPhases {} (.ofRepository repository) plans).1
      some ((⟨plans⟩ : Plan).isSettled, (scratch.get? l).bind Definition.uid?,
        (compiled.get? l).bind Definition.uid?)

theorem exists_of_uidsOf {files : List (Path × Json)} {l : Location} {settled : Bool}
    {before after : Option Int} (h : uidsOf files l = some (settled, before, after)) :
    ∃ repository scratch, ∃ plan : Plan, Repository.ofFiles files = .ok repository ∧
      planPhases {} (.ofRepository repository) Phase.all = .ok (scratch, plan.phases) ∧
      plan.isSettled = settled ∧ (scratch.get? l).bind Definition.uid? = before ∧
      ((applyPhases {} (.ofRepository repository) plan.phases).1.get? l).bind
        Definition.uid? = after := by
  unfold uidsOf at h
  split at h
  · cases h
  · rename_i repository hrepository
    split at h
    · cases h
    · rename_i scratch plans hplan
      cases h
      exact ⟨repository, scratch, ⟨plans⟩, hrepository, hplan, rfl, rfl, rfl⟩

/-- An include of a fragment is in time, and its identifier arrives in both drafts. -/
theorem settled_include_agrees :
    ∃ repository analyzed, Repository.ofFiles settledInclude = .ok repository ∧
      (ofRepository repository {}).analyze = .ok analyzed ∧
      ∃ scratch, ∃ plan : Plan, ∃ compiled,
        planPhases {} (.ofRepository repository) Phase.all = .ok (scratch, plan.phases) ∧
        plan.isSettled = true ∧ analyzed.compile = .ok compiled ∧
        compiled.draft.SameAt scratch (.inCore .eventClass "a") ∧
        (scratch.get? (.inCore .eventClass "a")).bind Definition.uid? = some 7 := by
  have huids : uidsOf settledInclude (.inCore .eventClass "a") =
      some (true, some 7, some 7) := by decide +kernel
  rcases exists_of_uidsOf huids with
    ⟨repository, scratch, plan, hrepository, hplan, hsettled, hbefore, -⟩
  have hanalyze := analyze_ofRepository_eq_ok_iff.2 ⟨scratch, plan, hplan, rfl⟩
  rcases compile_agrees_with_dry_run hanalyze with
    ⟨scratch', plan', compiled, hplan', hstage, hcompile, hagree⟩
  cases hstage
  cases hplan.symm.trans hplan'
  exact ⟨repository, _, hrepository, hanalyze, scratch, plan, compiled, hplan, hsettled, hcompile,
    hagree _ (Plan.settledAt_of_isSettled hsettled _), hbefore⟩

/-- An include of a profile that includes a fragment itself misses the fragment in the dry run. -/
theorem dry_run_misses_premature_include :
    ¬ ∀ files repository options analyzed compiled scratch plans,
      Repository.ofFiles files = .ok repository →
      (ofRepository repository options).analyze = .ok analyzed →
      analyzed.compile = .ok compiled →
      planPhases options (.ofRepository repository) Phase.all = .ok (scratch, plans) →
      ∀ l, compiled.draft.get? l = scratch.get? l := by
  intro hclaim
  have huids : uidsOf prematureInclude (.inCore .eventClass "a") =
      some (false, none, some 7) := by decide +kernel
  rcases exists_of_uidsOf huids with
    ⟨repository, scratch, plan, hrepository, hplan, -, hbefore, hafter⟩
  have hanalyze := analyze_ofRepository_eq_ok_iff.2 ⟨scratch, plan, hplan, rfl⟩
  have hsame := hclaim prematureInclude repository {} _ _ scratch plan.phases hrepository hanalyze
    (compile_analyzed {} (.ofRepository repository) plan) hplan (.inCore .eventClass "a")
  rw [hsame, hbefore] at hafter
  cases hafter

end Compilation

end EventSchema
