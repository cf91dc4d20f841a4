import EventSchema.Proofs.Authored
import EventSchema.Proofs.Copies
import EventSchema.Proofs.Entries
import EventSchema.Proofs.Planning
import Mathlib.Data.List.Induction
import Mathlib.Data.List.TakeWhile

/-!
# The rendered schema

The last phase copies definitions to the entries of the schema.  Several definitions may share an
entry; then they are copied in order of location, up to the first one that has failed, and the last
copy stays.

Main results:

- {lit}`Operation.showsLast_runAll_copies`: the last copy before a failed definition stays.
- {lit}`Compilation.showsLast_of_plannedAs`: what a compiled draft shows at entries of the schema.
- {lit}`Compilation.schema_shows_last_intact_copy`: what the schema shows for every planned copy.
-/

namespace EventSchema

open Std

namespace Draft

/-- A location has a definition and has not failed. -/
def isIntact (draft : Draft) (l : Location) : Bool :=
  (draft.failure? l).isNone && (draft.get? l).isSome

/--
What is shown at a target to which several locations are copied, one after another: the copy of the
last one before any that is not intact.
-/
def ShowsLast (draft : Draft) (sources : List Location) (shown : Option Definition) : Prop :=
  match (sources.takeWhile draft.isIntact).getLast? with
  | none => shown = none
  | some source =>
    ∃ d copy, draft.get? source = some d ∧ shown = some copy ∧ copy.Renders d

theorem SameAt.isIntact_eq {left right : Draft} {l : Location} (h : left.SameAt right l) :
    left.isIntact l = right.isIntact l := by
  rw [isIntact, isIntact, h.definition, h.failure]

theorem takeWhile_isIntact_congr {left right : Draft} {sources : List Location}
    (h : ∀ source ∈ sources, left.SameAt right source) :
    sources.takeWhile left.isIntact = sources.takeWhile right.isIntact := by
  induction sources with
  | nil => rfl
  | cons source rest ih =>
    have hhead := (h source List.mem_cons_self).isIntact_eq
    have hrest := ih fun s hs => h s (List.mem_cons_of_mem source hs)
    rw [List.takeWhile_cons, List.takeWhile_cons, hhead, hrest]

theorem mem_of_getLast?_takeWhile {α : Type} {p : α → Bool} {items : List α} {a : α}
    (h : (items.takeWhile p).getLast? = some a) : a ∈ items :=
  (List.takeWhile_sublist p).subset (List.mem_of_getLast? h)

/-- What is shown depends on the sources only. -/
theorem ShowsLast.congr {left right : Draft} {sources : List Location} {shown : Option Definition}
    (h : ∀ source ∈ sources, left.SameAt right source) (hleft : left.ShowsLast sources shown) :
    right.ShowsLast sources shown := by
  unfold ShowsLast at hleft ⊢
  rw [takeWhile_isIntact_congr h] at hleft
  cases hlast : (sources.takeWhile right.isIntact).getLast? with
  | none => rwa [hlast] at hleft
  | some source =>
    rw [hlast] at hleft
    rcases hleft with ⟨d, copy, hd, hcopy, hrenders⟩
    have hsame := (h source (mem_of_getLast?_takeWhile hlast)).definition
    exact ⟨d, copy, hsame.symm.trans hd, hcopy, hrenders⟩

end Draft

namespace Operation

/-! ## Copies to one entry -/

/-- The operations that copy locations to a target. -/
def copies (target : Location) (sources : List Location) : List Operation :=
  sources.map fun source => ⟨target, .copyRendered source⟩

theorem eq_copies_of_forall {ops : List Operation} {target : Location}
    (h : ∀ op ∈ ops, op.target = target ∧ ∃ source, op.action = .copyRendered source) :
    ops = copies target (ops.filterMap (·.action.source?)) := by
  induction ops with
  | nil => rfl
  | cons op rest ih =>
    rcases h op List.mem_cons_self with ⟨rfl, source, haction⟩
    have hrest := ih fun other ho => h other (List.mem_cons_of_mem op ho)
    have hcons : (op :: rest).filterMap (·.action.source?) =
        source :: rest.filterMap (·.action.source?) :=
      List.filterMap_cons_some (by rw [haction]; rfl)
    rw [hcons, copies, List.map_cons, ← haction]
    exact congrArg (op :: ·) hrest

theorem isFailed_outcomeOf_ok (current : Option Definition) (revision : Revision) :
    (outcomeOf current (.ok revision)).isFailed = false := by
  cases current with
  | none => rfl
  | some d =>
    unfold outcomeOf
    dsimp only
    by_cases hsame : (revision.changes.isEmpty || d == revision.definition) = true
    · rw [if_pos hsame]
      rfl
    · rw [if_neg hsame]
      rfl

theorem isFailed_apply_copy (draft : Draft) (options : Options) (target source : Location) :
    ((⟨target, .copyRendered source⟩ : Operation).apply draft options).isFailed =
      (draft.get? source).isNone := by
  have hsource : Operation.source draft source =
      (draft.get? source).elim (.error (.noSource source)) .ok := by
    unfold Operation.source
    cases draft.get? source <;> rfl
  simp only [apply, edit, Action.createsTarget, hsource, Bool.not_true, Bool.and_false,
    Bool.false_eq_true, if_false]
  cases draft.get? source with
  | none => rfl
  | some d => exact isFailed_outcomeOf_ok _ _

/-- A copy fails if its target has failed or its source is not intact. -/
theorem isFailed_outcome_copy (draft : Draft) (options : Options) (target source : Location) :
    ((⟨target, .copyRendered source⟩ : Operation).outcome draft options).isFailed =
      !((draft.failure? target).isNone && draft.isIntact source) := by
  have happly := isFailed_apply_copy draft options target source
  unfold outcome blocked? Draft.isIntact
  cases hsource : draft.failure? source with
  | some cause => simp [prerequisites, Action.source?, hsource, Outcome.isFailed]
  | none =>
    cases htarget : draft.failure? target with
    | some cause => simp [prerequisites, Action.source?, hsource, htarget, Outcome.isFailed]
    | none =>
      simp only [prerequisites, Action.source?, Option.toList_some, List.singleton_append,
        List.find?_cons, List.find?_nil, hsource, htarget, Option.isSome_none]
      rw [happly]
      cases draft.get? source <;> rfl

/-- A copy that does not fail shows what it copies. -/
theorem renders_run_copy {draft : Draft} (hdraft : draft.Distinct) {options : Options}
    {target source : Location}
    (h : ((⟨target, .copyRendered source⟩ : Operation).outcome draft options).isFailed = false) :
    ∃ d copy, draft.get? source = some d ∧
      ((⟨target, .copyRendered source⟩ : Operation).run draft options).get? target = some copy ∧
      copy.Renders d := by
  have htarget := (⟨target, .copyRendered source⟩ : Operation).get?_run_target draft options
  rcases (⟨target, .copyRendered source⟩ : Operation).outcome_cases draft options with
    ⟨cause, hout⟩ | ⟨-, revision, hedit, hout⟩
  · rw [hout] at h
    cases h
  · rcases exists_of_map_source hedit with ⟨d, hd, rfl⟩
    have hsource := hdraft source d hd
    have hcopy := Definition.withoutDirectives_eq hsource
    rcases hout with hout | ⟨hout, current, hcurrent, hsame⟩
    · rw [hout] at htarget
      exact ⟨d, _, hd, htarget, Or.inl hcopy⟩
    · rw [hout] at htarget
      refine ⟨d, current, hd, htarget.trans hcurrent, Or.inr ?_⟩
      rw [← hcopy]
      rcases hsame with hchanges | hsame
      · rw [hcurrent] at hchanges
        exact Definition.same_of_changes_eq_nil (hdraft _ _ hcurrent)
          (Definition.distinct_withoutDirectives hsource) hchanges
      · exact hsame

theorem takeWhile_concat {α : Type} (p : α → Bool) (items : List α) (a : α) :
    (items ++ [a]).takeWhile p =
      if (items.all p && p a) = true then items ++ [a] else items.takeWhile p := by
  induction items with
  | nil => cases h : p a <;> simp [h]
  | cons b rest ih =>
    cases h : p b with
    | false => simp [h]
    | true =>
      rw [List.cons_append, List.takeWhile_cons_of_pos h, List.takeWhile_cons_of_pos h, ih,
        List.all_cons, h, Bool.true_and]
      split <;> rfl

/-- The last copy before a definition that is not intact stays. -/
theorem showsLast_runAll_copies (options : Options) {draft : Draft} (hdraft : draft.Distinct)
    {target : Location} (hget : draft.get? target = none) (hfailure : draft.failure? target = none)
    {sources : List Location} (hsources : ∀ source ∈ sources, source ≠ target) :
    draft.ShowsLast sources ((runAll options draft (copies target sources)).get? target) ∧
      ((runAll options draft (copies target sources)).failure? target).isNone =
        sources.all draft.isIntact := by
  induction sources using List.reverseRecOn with
  | nil =>
    refine ⟨hget, ?_⟩
    rw [show copies target [] = [] from rfl, runAll_nil, hfailure]
    rfl
  | append_singleton before source ih =>
    have hrest : ∀ s ∈ before, s ≠ target := fun s hs => hsources s (List.mem_append_left _ hs)
    rcases ih hrest with ⟨hshows, hintact⟩
    have hne : source ≠ target := hsources source (by simp)
    have hcopies : copies target (before ++ [source]) =
        copies target before ++ [⟨target, .copyRendered source⟩] := by simp [copies]
    have hbefore := distinct_runAll hdraft options (copies target before)
    have hsame : (runAll options draft (copies target before)).SameAt draft source := by
      apply sameAt_runAll_of_forall_ne
      intro op hop heq
      rcases List.mem_map.1 hop with ⟨s, -, rfl⟩
      exact hne heq.symm
    rw [hcopies, runAll_append, runAll_cons, runAll_nil, List.all_append, List.all_cons,
      List.all_nil, Bool.and_true]
    generalize runAll options draft (copies target before) = current at *
    have hfailed := isFailed_outcome_copy current options target source
    rw [hsame.isIntact_eq, hintact] at hfailed
    have hmarked :=
      (⟨target, .copyRendered source⟩ : Operation).isNone_failure?_run_target current options
    rw [hfailed, hintact, Bool.not_not] at hmarked
    unfold Draft.ShowsLast
    rw [takeWhile_concat]
    by_cases hall : (before.all draft.isIntact && draft.isIntact source) = true
    · rw [hall] at hfailed hmarked ⊢
      rcases renders_run_copy hbefore hfailed with ⟨d, copy, hd, hcopy, hrenders⟩
      rw [hsame.definition] at hd
      rw [if_pos rfl, List.getLast?_concat]
      refine ⟨⟨d, copy, hd, hcopy, hrenders⟩, hmarked.trans ?_⟩
      rw [Bool.and_true]
      exact (Bool.and_eq_true_iff.1 hall).1
    · rw [if_neg hall, run_get?_of_failed _ _ _ _ (by rw [hfailed, Bool.eq_false_iff.2 hall]; rfl)]
      refine ⟨hshows, hmarked.trans ?_⟩
      rw [← Bool.and_assoc, Bool.and_self]

end Operation

/-- The locations that are planned to be copied to a target, in order. -/
def Plan.sourcesOf (plan : Plan) (target : Location) : List Location :=
  (plan.operationsFor target).filterMap (·.action.source?)

/-- The location whose copy is shown at a target: the last one before any that is not intact. -/
def Plan.shown? (plan : Plan) (draft : Draft) (target : Location) : Option Location :=
  ((plan.sourcesOf target).takeWhile draft.isIntact).getLast?

namespace Compilation

/-! ## The compiled draft -/

section

variable {repository : Repository} {options : Options} {plan : Plan}
  {structural dictionary identifiers : List Operation}

/-- The draft that a plan leads to. -/
def finalDraft (options : Options) (repository : Repository) (plan : Plan) : Draft :=
  (applyPhases options (.ofRepository repository) plan.phases).1

/-- The draft that the last planner sees. -/
def seenByRendering (options : Options) (repository : Repository)
    (structural dictionary identifiers : List Operation) : Draft :=
  Operation.runAll options (.ofRepository repository) (structural ++ dictionary ++ identifiers)

/-- The draft in front of the last phase. -/
def beforeSchema (options : Options) (repository : Repository)
    (structural dictionary identifiers : List Operation) : Draft :=
  Operation.runAll options (.ofRepository repository)
    ((PhasePlan.ofOperations .structural structural).schedule ++
      (PhasePlan.ofOperations .dictionary dictionary).schedule ++
      (PhasePlan.ofOperations .identifiers identifiers).schedule)

theorem distinct_ofRepository (hr : repository.Sound) :
    (Draft.ofRepository repository).Distinct := by
  intro l d hget
  rw [Draft.get?_ofRepository] at hget
  exact hr.distinct l d hget

theorem distinct_beforeSchema (hr : repository.Sound) :
    (beforeSchema options repository structural dictionary identifiers).Distinct :=
  Operation.distinct_runAll (distinct_ofRepository hr) options _

theorem perm_schedules :
    ((PhasePlan.ofOperations .structural structural).schedule ++
      (PhasePlan.ofOperations .dictionary dictionary).schedule ++
      (PhasePlan.ofOperations .identifiers identifiers).schedule).Perm
      (structural ++ dictionary ++ identifiers) :=
  ((PhasePlan.schedule_perm _ _).append (PhasePlan.schedule_perm _ _)).append
    (PhasePlan.schedule_perm _ _)

/-- A location whose copy is shown is intact. -/
theorem isIntact_of_shown? {draft : Draft} {target source : Location}
    (h : plan.shown? draft target = some source) : draft.isIntact source = true :=
  List.mem_takeWhile_imp (List.mem_of_getLast? h)

variable (hr : repository.Sound)
  (h : PlannedAs options (.ofRepository repository) plan structural dictionary identifiers)

include h

/-- What comes before the last phase is about locations outside of the schema. -/
theorem part?_target_of_mem {op : Operation}
    (hop : op ∈ structural ++ dictionary ++ identifiers) : op.target.part? = none := by
  rcases List.mem_append.1 hop with hop | hop
  · rcases List.mem_append.1 hop with hop | hop
    · exact h.proposes_structural.part?_target (by decide) hop
    · exact h.proposes_dictionary.part?_target (by decide) hop
  · exact h.proposes_identifiers.part?_target (by decide) hop

/-- In front of the last phase nothing is at a location of the schema. -/
theorem sameAt_beforeSchema {target : Location} (htarget : target.part? ≠ none) :
    (beforeSchema options repository structural dictionary identifiers).SameAt
      (.ofRepository repository) target := by
  apply Operation.sameAt_runAll_of_forall_ne
  intro op hop heq
  exact htarget (heq ▸ part?_target_of_mem h (perm_schedules.mem_iff.1 hop))

/-- The plan of the last phase comes from the last planner. -/
theorem phase?_schema :
    plan.phase? .schema = some (.ofOperations .schema (Planner.render
      (seenByRendering options repository structural dictionary identifiers) options)) := by
  simp [Plan.phase?, h.phases_eq, seenByRendering]

/-- What is planned for a location of the schema comes from the last planner. -/
theorem operationsFor_eq_targeting {target : Location} (htarget : target.part? ≠ none) :
    plan.operationsFor target = Operation.targeting (Planner.render
      (seenByRendering options repository structural dictionary identifiers) options) target := by
  have hnil : Operation.targeting (structural ++ dictionary ++ identifiers) target = [] :=
    Operation.targeting_eq_nil_iff.2 fun op hop heq => htarget (heq ▸ part?_target_of_mem h hop)
  simp only [Operation.targeting_append, List.append_eq_nil_iff] at hnil
  simp only [Plan.operationsFor, h.phases_eq, List.flatMap_cons, List.flatMap_nil,
    PhasePlan.get_ofOperations, hnil.1.1, hnil.1.2, hnil.2, List.nil_append, List.append_nil,
    seenByRendering]

/-- What is planned for a location of the schema are copies. -/
theorem operationsFor_eq_copies {target : Location} (htarget : target.part? ≠ none) :
    plan.operationsFor target = Operation.copies target (plan.sourcesOf target) := by
  apply Operation.eq_copies_of_forall
  rw [operationsFor_eq_targeting h htarget]
  intro op hop
  rcases Operation.mem_targeting.1 hop with ⟨hop, heq⟩
  rcases (Planner.emits_render hop).exists_copyRendered with ⟨source, haction, -⟩
  exact ⟨heq, source, haction⟩

/-- Copied locations are outside of the schema. -/
theorem part?_of_mem_sourcesOf {target : Location} (htarget : target.part? ≠ none)
    {source : Location} (hsource : source ∈ plan.sourcesOf target) : source.part? = none := by
  rcases List.mem_filterMap.1 hsource with ⟨op, hop, heq⟩
  rw [operationsFor_eq_targeting h htarget] at hop
  have hemits := Planner.emits_render (Operation.mem_targeting.1 hop).1
  exact hemits.reads (Option.mem_toList.2 heq)

/-- What is copied to an entry is rendered to it. -/
theorem exists_entry_of_mem_sourcesOf {target : Location} (htarget : target.part? ≠ none)
    {source : Location} (hsource : source ∈ plan.sourcesOf target) :
    ∃ d, (seenByRendering options repository structural dictionary identifiers).get? source =
        some d ∧ source.isCore = true ∧
      target ∈ Planner.entriesOf options
        (seenByRendering options repository structural dictionary identifiers).declaredNames
        source d := by
  rcases List.mem_filterMap.1 hsource with ⟨op, hop, hreads⟩
  rw [operationsFor_eq_targeting h htarget] at hop
  rcases Operation.mem_targeting.1 hop with ⟨hrender, rfl⟩
  rcases Planner.mem_render hrender with ⟨l, d, hd, hcore, hentry, haction⟩
  rw [haction] at hreads
  cases hreads
  exact ⟨d, hd, hcore, hentry⟩

/-- A compiled draft whose schema is complete has a definition at each planned entry. -/
theorem exists_get?_of_missing
    (hmissing : missing (finalDraft options repository plan) plan = [])
    {target : Location} (htarget : target.part? ≠ none) {source : Location}
    (hsource : source ∈ plan.sourcesOf target) :
    ∃ copy, (finalDraft options repository plan).get? target = some copy := by
  rcases List.mem_filterMap.1 hsource with ⟨op, hop, -⟩
  rw [operationsFor_eq_targeting h htarget, ← PhasePlan.get_ofOperations .schema] at hop
  rw [missing, phase?_schema h] at hmissing
  have hcontains := List.filter_eq_nil_iff.1 hmissing target (PhasePlan.mem_targets_of_mem_get hop)
  rw [Bool.not_eq_true, Bool.not_eq_false'] at hcontains
  exact Option.isSome_iff_exists.1 hcontains

/-- The last phase copies what its planner has seen over what the phases before have come to. -/
theorem finalDraft_eq :
    finalDraft options repository plan =
      Operation.runAll options
        (beforeSchema options repository structural dictionary identifiers)
        (PhasePlan.ofOperations .schema (Planner.render
          (seenByRendering options repository structural dictionary identifiers)
          options)).schedule :=
  h.draft_applyPhases

/-- The last phase leaves everything outside of the schema as it is. -/
theorem sameAt_compiled {l : Location} (hl : l.part? = none) :
    (finalDraft options repository plan).SameAt
      (beforeSchema options repository structural dictionary identifiers) l := by
  rw [finalDraft_eq h]
  apply Operation.sameAt_runAll_of_forall_ne
  intro op hop heq
  have hemits := Planner.emits_render ((PhasePlan.schedule_perm _ _).mem_iff.1 hop)
  exact hemits.part?_target_ne (heq ▸ hl)

/-- A location of the schema shows what the copies to it lead to. -/
theorem sameAt_runAll_copies {target : Location} (htarget : target.part? ≠ none) :
    (finalDraft options repository plan).SameAt
      (Operation.runAll options
        (beforeSchema options repository structural dictionary identifiers)
        (Operation.copies target (plan.sourcesOf target))) target := by
  rw [finalDraft_eq h, ← operationsFor_eq_copies h htarget, operationsFor_eq_targeting h htarget]
  generalize hrender : Planner.render
    (seenByRendering options repository structural dictionary identifiers) options = ops
  have hemits (op : Operation) (hop : op ∈ (PhasePlan.ofOperations .schema ops).schedule) :
      Planner.rendering.Emits op :=
    Planner.emits_render (hrender ▸ (PhasePlan.schedule_perm _ _).mem_iff.1 hop)
  let S (l : Location) : Prop := l = target ∨ l.part? = none
  have hclosed : Operation.Closed (PhasePlan.ofOperations .schema ops).schedule S := by
    intro op hop hS l hl
    rcases (Operation.consults_iff_of_emits (hemits op hop) (by decide)).1 hl with heq | hmem
    · exact heq ▸ hS
    · exact Or.inr ((hemits op hop).reads hmem)
  have hwithin : Operation.within S (PhasePlan.ofOperations .schema ops).schedule =
      Operation.targeting ops target := by
    rw [← PhasePlan.targeting_schedule_ofOperations .schema ops target]
    refine List.filter_congr fun op hop => ?_
    have hpart := (hemits op hop).part?_target_ne
    simp [S, hpart, Bool.beq_eq_decide_eq]
  have hagree := Operation.agreeOn_runAll_within options hclosed
    (Draft.AgreeOn.refl S (beforeSchema options repository structural dictionary identifiers))
  rw [hwithin] at hagree
  exact hagree target (Or.inl rfl)

include hr

theorem distinct_compiled :
    (finalDraft options repository plan).Distinct := by
  rw [finalDraft_eq h]
  exact Operation.distinct_runAll (distinct_beforeSchema hr) options _

/-- What a compiled draft shows at a location of the schema. -/
theorem showsLast_of_plannedAs
    {target : Location} (htarget : target.part? ≠ none) :
    (finalDraft options repository plan).ShowsLast (plan.sourcesOf target)
      ((finalDraft options repository plan).get? target) := by
  have hbefore := sameAt_beforeSchema h htarget
  have hget : (Draft.ofRepository repository).get? target = none := by
    rw [Draft.get?_ofRepository]
    refine Option.eq_none_iff_forall_not_mem.2 fun d hd => htarget (hr.part? target d hd)
  have hshows := Operation.showsLast_runAll_copies options (distinct_beforeSchema hr)
    (hbefore.definition.trans hget) (hbefore.failure.trans (Draft.failure?_ofRepository _ _))
    (fun source hsource heq => htarget (heq ▸ part?_of_mem_sourcesOf h htarget hsource))
  rw [← (sameAt_runAll_copies h htarget).definition] at hshows
  refine Draft.ShowsLast.congr (fun source hsource => ?_) hshows.1
  exact (sameAt_compiled h (part?_of_mem_sourcesOf h htarget hsource)).symm

/-- A definition at a location of the schema was copied from one in core. -/
theorem exists_source_of_get?
    {target : Location} (htarget : target.part? ≠ none) {copy : Definition}
    (hcopy : (finalDraft options repository plan).get? target = some copy) :
    ∃ source ∈ plan.sourcesOf target, ∃ d,
      plan.shown? (finalDraft options repository plan) target = some source ∧
      (finalDraft options repository plan).get? source = some d ∧ copy.Renders d := by
  have hshows := showsLast_of_plannedAs hr h htarget
  unfold Draft.ShowsLast at hshows
  split at hshows
  · rw [hcopy] at hshows
    cases hshows
  · rename_i source hlast
    rcases hshows with ⟨d, copy', hd, hcopy', hrenders⟩
    rw [hcopy] at hcopy'
    cases hcopy'
    exact ⟨source, Draft.mem_of_getLast?_takeWhile hlast, d, hlast, hd, hrenders⟩

/-- Definitions at locations of the schema are at entries of it. -/
theorem eq_entry_of_get?
    {l : Location} {part : Section} (hl : l.kind = .schema part) {copy : Definition}
    (hcopy : (finalDraft options repository plan).get? l = some copy) :
    l = .entry part l.name ∧ (part = .baseEvent → l.name = Planner.baseEvent) ∧
      (part = .version → l.name = "version") := by
  have hpart : l.part? ≠ none := by simp [Location.part?, hl]
  rcases exists_source_of_get? hr h hpart hcopy with ⟨source, hsource, -⟩
  rcases exists_entry_of_mem_sourcesOf h hpart hsource with ⟨d, -, -, htarget⟩
  rcases Planner.part?_of_mem_entriesOf htarget with ⟨-, part', key, heq⟩
  rw [heq] at hl htarget ⊢
  cases hl
  refine ⟨rfl, ?_, ?_⟩
  · rintro rfl
    exact Planner.eq_baseEvent_of_mem_entriesOf htarget
  · rintro rfl
    exact Planner.eq_version_of_mem_entriesOf htarget

/-- The entries of the schema are what the compiled draft shows at their locations. -/
theorem lookup_render_compiled
    {part : Section} (hpart : part ≠ .version) {key : String}
    (hkey : part = .baseEvent → key = Planner.baseEvent) :
    (Schema.render (finalDraft options repository plan)).lookup part key =
      (finalDraft options repository plan).get? (.entry part key) := by
  apply Schema.lookup_render hpart
  rintro l d hget ⟨hl, hname⟩
  rcases eq_entry_of_get? hr h hl hget with ⟨heq, hbase, -⟩
  rcases hname with hevent | rfl
  · rw [heq, hbase hevent, hkey hevent]
  · exact heq

/-- The version of the schema is what the compiled draft shows at its location. -/
theorem version_render_compiled :
    (Schema.render (finalDraft options repository plan)).version =
      (((finalDraft options repository plan).get? (.entry .version "version")).bind
        (Definition.text? · "version")).getD "0.0.0" := by
  apply Schema.version_render
  intro l d hget hl
  rcases eq_entry_of_get? hr h hl hget with ⟨heq, -, hversion⟩
  rw [heq, hversion rfl]

end

/-! ## The schema -/

theorem schema_compiled_eq_ok_iff {options : Options} {draft : Draft} {plan : Plan} {log : Log}
    {schema : Schema} :
    (⟨options, draft, .compiled plan log⟩ : Compilation).schema = .ok schema ↔
      missing draft plan = [] ∧ schema = Schema.render draft := by
  rw [schema_compiled]
  cases missing draft plan with
  | nil => simp [eq_comm]
  | cons l rest => simp

/-- A schema that was rendered from a repository comes from a plan of the four phases. -/
theorem exists_plannedAs_of_schema {repository : Repository} {options : Options}
    {analyzed compiled : Compilation} {schema : Schema}
    (hanalyze : (ofRepository repository options).analyze = .ok analyzed)
    (hcompile : analyzed.compile = .ok compiled) (hschema : compiled.schema = .ok schema) :
    ∃ plan structural dictionary identifiers,
      PlannedAs options (.ofRepository repository) plan structural dictionary identifiers ∧
      analyzed.stage = .analyzed plan ∧
      compiled.draft = finalDraft options repository plan ∧
      missing compiled.draft plan = [] ∧ schema = Schema.render compiled.draft := by
  rcases analyze_ofRepository_eq_ok_iff.1 hanalyze with ⟨scratch, plan, hplan, rfl⟩
  rcases exists_plannedAs hplan with ⟨structural, dictionary, identifiers, hplanned, -⟩
  rw [compile_analyzed] at hcompile
  cases hcompile
  rcases schema_compiled_eq_ok_iff.1 hschema with ⟨hmissing, hrender⟩
  exact ⟨plan, structural, dictionary, identifiers, hplanned, rfl, rfl, hmissing, hrender⟩

end Compilation

/-- A schema shows a definition under a key, or its version. -/
def Schema.Shows (s : Schema) (part : Section) (key : String) (d : Definition) : Prop :=
  match part with
  | .version => s.version = (d.text? "version").getD "0.0.0"
  | part => ∃ copy, s.lookup part key = some copy ∧ copy.Renders d

namespace Compilation

/--
Every planned copy is accounted for in the schema.  Of the definitions that are copied to an entry,
in order, the schema shows the last one before any that has failed, without what only the compiler
reads; a definition that has an entry for itself is shown there.
-/
theorem schema_shows_last_intact_copy {repository : Repository} {options : Options}
    {analyzed compiled : Compilation} {plan : Plan} {schema : Schema}
    (hrepository : repository.Reachable)
    (hanalyze : (ofRepository repository options).analyze = .ok analyzed)
    (hplan : analyzed.stage.plan? = some plan) (hcompile : analyzed.compile = .ok compiled)
    (hschema : compiled.schema = .ok schema) {part : Section} {key : String} {source : Location}
    (hsource : source ∈ plan.sourcesOf (.entry part key)) :
    ∃ last d,
      plan.shown? compiled.draft (.entry part key) = some last ∧
      ((∀ other ∈ plan.sourcesOf (.entry part key), other = source) → last = source) ∧
      compiled.draft.get? last = some d ∧ schema.Shows part key d := by
  rcases exists_plannedAs_of_schema hanalyze hcompile hschema with
    ⟨plan', structural, dictionary, identifiers, h, hstage, hdraft, hmissing, rfl⟩
  rw [hstage] at hplan
  cases hplan
  have hr := hrepository.sound
  have hpart : (Location.entry part key).part? ≠ none := Option.some_ne_none part
  rw [hdraft] at hmissing ⊢
  rcases exists_get?_of_missing h hmissing hpart hsource with ⟨copy, hcopy⟩
  rcases exists_source_of_get? hr h hpart hcopy with ⟨last, hmem, d, hlast, hd, hrenders⟩
  refine ⟨last, d, hlast, fun hlone => hlone last hmem, hd, ?_⟩
  rcases eq_entry_of_get? hr h rfl hcopy with ⟨-, hbase, hversion⟩
  unfold Schema.Shows
  split
  · have hname : key = "version" := hversion rfl
    have htext := hrenders.text?_eq (distinct_compiled hr h _ _ hcopy) (by decide) (by decide)
      (by decide : "version" ≠ Definition.attributesKey)
    rw [version_render_compiled hr h, ← hname, hcopy, hname, Option.bind_some, htext]
  · rename_i hother
    exact ⟨copy, (lookup_render_compiled hr h hother hbase).trans hcopy, hrenders⟩

/-! ## Two definitions with one entry -/

/-- The way of some files to a schema. -/
structure Way where
  repository : Repository
  analyzed : Compilation
  plan : Plan
  compiled : Compilation
  schema : Schema

/-- The way of some files to a schema under some options, if they come to one. -/
def wayWith (options : Options) (files : List (Path × Json)) : Option Way := do
  let repository ← (Repository.ofFiles files).toOption
  let analyzed ← (ofRepository repository options).analyze.toOption
  let plan ← analyzed.stage.plan?
  let compiled ← analyzed.compile.toOption
  let schema ← compiled.schema.toOption
  return ⟨repository, analyzed, plan, compiled, schema⟩

/-- The way of some files to a schema under the options of a compilation without any. -/
def wayOf (files : List (Path × Json)) : Option Way := wayWith {} files

theorem eq_ok_of_toOption {ε α : Type} {result : Except ε α} {a : α}
    (h : result.toOption = some a) : result = .ok a := by
  cases result with
  | error cause => cases h
  | ok b => exact congrArg Except.ok (Option.some.inj h)

theorem exists_of_wayWith {α : Type} {options : Options} {files : List (Path × Json)}
    {view : Way → α} {a : α} (h : (wayWith options files).map view = some a) :
    ∃ way, Repository.ofFiles files = .ok way.repository ∧
      (ofRepository way.repository options).analyze = .ok way.analyzed ∧
      way.analyzed.stage.plan? = some way.plan ∧ way.analyzed.compile = .ok way.compiled ∧
      way.compiled.schema = .ok way.schema ∧ view way = a := by
  rcases Option.map_eq_some_iff.1 h with ⟨way, hway, hview⟩
  simp only [wayWith, Option.bind_eq_bind, Option.bind_eq_some_iff, Option.pure_def,
    Option.some.injEq] at hway
  obtain ⟨repository, hrepository, analyzed, hanalyze, plan, hplan, compiled, hcompile, schema,
    hschema, rfl⟩ := hway
  refine ⟨⟨repository, analyzed, plan, compiled, schema⟩, ?_, ?_, hplan, ?_, ?_, hview⟩
  · exact eq_ok_of_toOption hrepository
  · exact eq_ok_of_toOption hanalyze
  · exact eq_ok_of_toOption hcompile
  · exact eq_ok_of_toOption hschema

theorem exists_of_wayOf {α : Type} {files : List (Path × Json)} {view : Way → α} {a : α}
    (h : (wayOf files).map view = some a) :
    ∃ way, Repository.ofFiles files = .ok way.repository ∧
      (ofRepository way.repository {}).analyze = .ok way.analyzed ∧
      way.analyzed.stage.plan? = some way.plan ∧ way.analyzed.compile = .ok way.compiled ∧
      way.compiled.schema = .ok way.schema ∧ view way = a :=
  exists_of_wayWith h

/-- Two objects that state the same key. -/
def sharedKey : List (Path × Json) :=
  [(⟨"objects/a.json"⟩, .obj [("name", .str "a"), ("key", .str "k"), ("caption", .str "A")]),
    (⟨"objects/b.json"⟩, .obj [("name", .str "b"), ("key", .str "k")])]

/-- The locations copied to an entry, and the one whose copy is shown there. -/
def copiesTo (target : Location) (way : Way) : List Location × Option Location :=
  (way.plan.sourcesOf target, way.plan.shown? way.compiled.draft target)

/-- The name of a compiled object, the name shown under a key, and whether fields are distinct. -/
def namesOf (l : Location) (key : String) (way : Way) : Option String × Option String × Bool :=
  ((way.compiled.draft.get? l).bind (Definition.text? · "name"),
    (way.schema.lookup .objects key).bind (Definition.text? · "name"),
    (way.schema.lookup .objects key).all fun d => decide (Fields.keys d.fields).Nodup)

theorem reachable_of_sharedKey {repository : Repository}
    (h : Repository.ofFiles sharedKey = .ok repository) : repository.Reachable := by
  refine Repository.Reachable.empty.insertFiles (fun file hfile => ?_) h
  simp only [sharedKey, List.mem_cons, List.not_mem_nil, or_false] at hfile
  rcases hfile with rfl | rfl <;> simp [Json.WellFormed, Json.WellFormedFields]

/-- Of two objects with one key the schema shows the later one. -/
theorem shared_key_shows_later_object :
    ∃ way : Way, ∃ d, Repository.ofFiles sharedKey = .ok way.repository ∧
      Location.inCore .object "a" ∈ way.plan.sourcesOf (.entry .objects "k") ∧
      way.compiled.draft.get? (.inCore .object "b") = some d ∧
      way.schema.Shows .objects "k" d := by
  have hview : (wayOf sharedKey).map (copiesTo (.entry .objects "k")) =
      some ([.inCore .object "a", .inCore .object "b"], some (.inCore .object "b")) := by
    decide +kernel
  rcases exists_of_wayOf hview with ⟨way, hfiles, hanalyze, hplan, hcompile, hschema, hcopies⟩
  rcases Prod.mk.inj hcopies with ⟨hsources, hlast⟩
  have hmem : Location.inCore .object "a" ∈ way.plan.sourcesOf (.entry .objects "k") := by
    rw [hsources]
    exact List.mem_cons_self
  rcases schema_shows_last_intact_copy (reachable_of_sharedKey hfiles) hanalyze hplan hcompile
      hschema hmem with
    ⟨last, d, hlast', -, hd, hshows⟩
  rw [hlast] at hlast'
  cases hlast'
  exact ⟨way, d, hfiles, hmem, hd, hshows⟩

/-- A definition that is copied to an entry need not be shown there. -/
theorem shared_key_loses_earlier_object :
    ¬ ∀ files repository options analyzed plan compiled schema,
      Repository.ofFiles files = .ok repository →
      (ofRepository repository options).analyze = .ok analyzed →
      analyzed.stage.plan? = some plan → analyzed.compile = .ok compiled →
      compiled.schema = .ok schema →
      ∀ part key, ∀ source ∈ plan.sourcesOf (.entry part key), ∀ d,
        compiled.draft.get? source = some d → schema.Shows part key d := by
  intro hclaim
  have hview : (wayOf sharedKey).map (fun way => (copiesTo (.entry .objects "k") way,
      namesOf (.inCore .object "a") "k" way)) =
      some (([.inCore .object "a", .inCore .object "b"], some (.inCore .object "b")),
        (some "a", some "b", true)) := by decide +kernel
  rcases exists_of_wayOf hview with ⟨way, hfiles, hanalyze, hplan, hcompile, hschema, hway⟩
  rcases Prod.mk.inj hway with ⟨hcopies, hnames⟩
  rcases Prod.mk.inj hnames with ⟨hname, hnames⟩
  rcases Prod.mk.inj hnames with ⟨hshown, hdistinct⟩
  have hmem : Location.inCore .object "a" ∈ way.plan.sourcesOf (.entry .objects "k") := by
    rw [(Prod.mk.inj hcopies).1]
    exact List.mem_cons_self
  rcases Option.bind_eq_some_iff.1 hname with ⟨d, hd, hname⟩
  rcases hclaim sharedKey way.repository {} way.analyzed way.plan way.compiled way.schema hfiles
      hanalyze hplan hcompile hschema .objects "k" _ hmem d hd with
    ⟨copy, hcopy, hrenders⟩
  rw [hcopy] at hshown hdistinct
  have hkeys : (Fields.keys copy.fields).Nodup := of_decide_eq_true hdistinct
  have htext := hrenders.text?_eq hkeys (by decide) (by decide)
    (by decide : "name" ≠ Definition.attributesKey)
  rw [hname, show copy.text? "name" = some "b" from hshown] at htext
  exact absurd htext (by decide)

end Compilation

end EventSchema
