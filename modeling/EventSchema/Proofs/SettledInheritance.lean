import EventSchema.Proofs.Merging
import EventSchema.Proofs.StructuralRuns

/-!
# Settled inheritance

Inheriting is the last operation of the structural phase on every record.  Unless locations read
themselves, a parent is finished when its child inherits, so parent and child stay as they are from
then on, and inheriting again would find everything in place.

Main results:

- {lit}`Definition.merge_merge`: a merge that is done again changes nothing.
- {lit}`Definition.hasAttribute_of_unchanged`: a child that has inherited everything has the
  attributes of its parent.
- {lit}`Compilation.inheritance_is_settled`: after the structural phase inheriting again changes
  nothing, and descendants have the attributes of their ancestors.
-/

namespace EventSchema

open Relation Std

namespace Definition

/-! ## Inheriting again -/

/-- A merge that is done again changes nothing. -/
theorem merge_merge (d : Definition) (rule : MergeRule) {source : Definition}
    (h : source.WellFormed) :
    (d.merge rule source).definition.merge rule source =
      (d.merge rule source).definition.unchanged := by
  have hagain := Fields.merge_merge rule.overwrite d.fields
    (Json.wellFormed_filter h fun e => rule.admits e.1)
  unfold merge MergeRule.apply unchanged
  rw [hagain]

/-- The attributes are an object, or there are none. -/
def HasPlainAttributes (d : Definition) : Prop :=
  d.get? attributesKey = none ∨ ∃ attributes, d.attributes? = some attributes

instance (d : Definition) : Decidable d.HasPlainAttributes :=
  decidable_of_iff ((d.get? attributesKey).isNone ∨ d.attributes?.isSome) (by
    simp [HasPlainAttributes, Option.isSome_iff_exists])

/-- There is a value among the attributes under a name; null counts as none. -/
def HasAttribute (d : Definition) (name : String) : Prop :=
  ∃ attributes, d.attributes? = some attributes ∧ Fields.HasValue attributes name

instance (d : Definition) (name : String) : Decidable (d.HasAttribute name) :=
  decidable_of_iff (d.attributes?.any fun attributes => Fields.HasValue attributes name) (by
    simp [HasAttribute, Option.any_eq_true])

/-- The attributes of a parent are held by what a child has become by inheriting. -/
theorem holds_attributes_inherit (d : Definition) {parent : Definition} (h : parent.WellFormed)
    {attributes : Fields} (hattributes : parent.attributes? = some attributes) :
    Fields.Holds false (d.inherit parent).definition.fields attributesKey (.obj attributes) := by
  have hright := Json.wellFormed_filter h fun e => (MergeRule.fill.ignoring notInherited).admits e.1
  rw [Json.WellFormed] at hright
  have hadmitted : (MergeRule.fill.ignoring notInherited).admits attributesKey = true := by decide
  have hmem : (attributesKey, Json.obj attributes) ∈ parent.fields.filter
      fun e => (MergeRule.fill.ignoring notInherited).admits e.1 :=
    List.mem_filter.2
      ⟨Fields.mem_of_get?_eq_some (fields_get?_of_attributes? hattributes), hadmitted⟩
  exact Fields.holds_merge d.fields hright.1 (Fields.settles false hright.2) _ hmem

/-- Attributes that hold those of a parent have a value for each of them. -/
theorem hasValue_of_holds {attributes inherited : Fields} (h : (Json.obj inherited).WellFormed)
    (hholds : (Json.obj attributes).Holds false (.obj inherited)) {name : String}
    (hname : Fields.HasValue inherited name) : Fields.HasValue attributes name := by
  have hmerge : (Fields.merge false attributes inherited).1 = attributes := by
    simp only [Json.Holds, Json.merge, Prod.mk.injEq, Json.obj.injEq] at hholds
    exact hholds.1
  rw [← hmerge]
  exact Fields.hasValue_merge false attributes h hname

theorem isNull_of_same {a b : Json} (h : a.same b = true) : a.isNull = b.isNull := by
  cases a <;> cases b <;> simp [Json.same, Json.isNull] at h ⊢

/-- A child that inheriting leaves as it is has the attributes of its parent. -/
theorem hasAttribute_of_unchanged {d parent : Definition} (hd : d.WellFormed)
    (hparent : parent.WellFormed) (hplain : d.HasPlainAttributes)
    (hunchanged : (d.inherit parent).changes = [] ∨ (d == (d.inherit parent).definition) = true)
    {name : String} (hname : parent.HasAttribute name) : d.HasAttribute name := by
  rcases hname with ⟨inherited, hinherited, hname⟩
  rcases d.holds_attributes_inherit hparent hinherited with
    hnull | ⟨existing, hexisting, hvalue, hholds⟩
  · cases hnull
  rw [if_neg (by decide)] at hholds
  have hwf : (Json.obj inherited).WellFormed := hparent.obj?_get? hinherited
  obtain ⟨before, hbefore, hsame⟩ : ∃ before, Fields.get? d.fields attributesKey = some before ∧
      (before = existing ∨ before.same existing = true) := by
    rcases hunchanged with hchanges | hsame
    · have hfields : (d.inherit parent).definition.fields = d.fields :=
        Fields.merge_fst_of_changes false hchanges
      exact ⟨existing, hfields ▸ hexisting, Or.inl rfl⟩
    · rcases exists_get?_of_same hd.distinct hsame hexisting with ⟨before, hbefore, hsame⟩
      exact ⟨before, hbefore, Or.inr hsame⟩
  have hthere : d.get? attributesKey = some before := by
    have hnull : before.isNull = false := by
      rcases hsame with rfl | hsame
      · exact hvalue
      · rw [isNull_of_same hsame, hvalue]
    rw [Definition.get?, hbefore, Option.filter_some, hnull]
    rfl
  rcases hplain with hnone | ⟨attributes, hattributes⟩
  · rw [hthere] at hnone
    cases hnone
  have hobj : before.obj? = some attributes := by
    rwa [attributes?, hthere] at hattributes
  cases before <;> cases hobj
  refine ⟨attributes, hattributes, ?_⟩
  rcases hsame with rfl | hsame
  · exact hasValue_of_holds hwf hholds hname
  · cases existing with
    | obj merged =>
      rcases hasValue_of_holds hwf hholds hname with ⟨value, hvalue, hnull⟩
      have hdistinct : (⟨attributes⟩ : Definition).Distinct :=
        (Json.wellFormed_obj_iff.1 (hd.obj?_get? hattributes)).1
      have hsame : (⟨attributes⟩ : Definition).same ⟨merged⟩ = true := hsame
      rcases exists_get?_of_same hdistinct hsame hvalue with ⟨found, hfound, hsame⟩
      exact ⟨found, hfound, (isNull_of_same hsame).trans hnull⟩
    | _ => cases hsame

end Definition

namespace Operation

/-- An operation that inherits would change nothing if it were run again. -/
theorem outcome_run_inherit {child parent : Location} (hne : child ≠ parent) {draft : Draft}
    (hdraft : draft.WellFormed) (hintact : draft.Intact) {options : Options}
    (h : ((⟨child, .inherit parent⟩ : Operation).outcome draft options).isFailed = false) :
    (⟨child, .inherit parent⟩ : Operation).outcome
      ((⟨child, .inherit parent⟩ : Operation).run draft options) options = .unchanged := by
  set op : Operation := ⟨child, .inherit parent⟩ with hop
  rcases op.outcome_cases draft options with
    ⟨cause, hout⟩ | ⟨-, revision, hedit, hout | ⟨hout, -⟩⟩
  · rw [hout] at h
    cases h
  · have hblocked := blocked?_of_intact (intact_run hintact h) op
    rcases exists_of_map_source hedit with ⟨source, hsource, rfl⟩
    set d := (draft.get? child).getD default with hd
    have hchild : (op.run draft options).get? child = some (d.inherit source).definition := by
      have htarget := op.get?_run_target draft options
      rwa [hout] at htarget
    have hparent : (op.run draft options).get? parent = some source :=
      (op.run_get?_of_ne draft options hne).trans hsource
    have hedit' : op.edit (op.run draft options) options (d.inherit source).definition =
        .ok (d.inherit source).definition.unchanged := by
      have hagain : (d.inherit source).definition.inherit source =
          (d.inherit source).definition.unchanged :=
        Definition.merge_merge d _ (hdraft parent source hsource)
      change (Operation.source (op.run draft options) parent).map _ = _
      rw [Operation.source, hparent]
      exact congrArg Except.ok hagain
    unfold outcome apply
    simp only [hblocked, show op.target = child from rfl, hchild, Option.getD_some, hedit']
    rfl
  · have hkept : op.run draft options = draft := by
      rw [run, hout]
      rfl
    rw [hkept, hout]

/-- An operation that inherits and changes nothing has found what it would write. -/
theorem exists_of_outcome_inherit {child parent : Location} {draft : Draft} {options : Options}
    (h : (⟨child, .inherit parent⟩ : Operation).outcome draft options = .unchanged) :
    ∃ d source, draft.get? child = some d ∧ draft.get? parent = some source ∧
      ((d.inherit source).changes = [] ∨ (d == (d.inherit source).definition) = true) := by
  rcases (⟨child, .inherit parent⟩ : Operation).outcome_cases draft options with
    ⟨cause, hout⟩ | ⟨-, revision, hedit, hout | ⟨-, d, hd, hsame⟩⟩
  · rw [h] at hout
    cases hout
  · rw [h] at hout
    cases hout
  · rcases exists_of_map_source hedit with ⟨source, hsource, rfl⟩
    have hcurrent : draft.get? child = some d := hd
    rw [hd] at hsame
    exact ⟨d, source, hcurrent, hsource, hsame⟩

end Operation

namespace Compilation

open Operation

/-! ## The last operation on a record -/

/-- The structural phase ends with removals and inheritance. -/
theorem exists_removals_and_inherits {options : Options} {draft : Draft} {ops : List Operation}
    (h : Proposes options draft Phase.structural.planners ops) :
    ∃ composed removals inherits, ops = composed ++ (removals ++ inherits) ∧
      Proposes options draft [.profileTag, .annotations, .extension, .includes] composed ∧
      Planner.removeProfiles (runAll options draft composed) options = removals ∧
      Planner.inherit (runAll options draft (composed ++ removals)) = .ok inherits := by
  unfold Phase.planners at h
  cases h with
  | @cons _ _ _ tags _ htags h => cases h with
  | @cons _ _ _ annotations _ hannotations h => cases h with
  | @cons _ _ _ extensions _ hextensions h => cases h with
  | @cons _ _ _ includes _ hincludes h => cases h with
  | @cons _ _ _ removals _ hremovals h => cases h with
  | @cons _ _ _ inherits _ hinherits h => cases h with
  | nil =>
    simp only [← runAll_append] at hremovals hinherits
    refine ⟨tags ++ (annotations ++ (extensions ++ (includes ++ []))), removals, inherits,
      by simp, .cons htags (.cons hannotations (.cons hextensions (.cons hincludes (.nil _)))),
      ?_, ?_⟩
    · have hplanned : Planner.profileRemove.analyze
          (runAll options draft (tags ++ (annotations ++ (extensions ++ (includes ++ [])))))
          options = .ok removals := by simpa using hremovals
      exact Except.ok.inj hplanned
    · have hplanned : Planner.inheritance.analyze
          (runAll options draft (tags ++ (annotations ++ (extensions ++ (includes ++ []))) ++
            removals)) options = .ok inherits := by simpa using hinherits
      exact hplanned

section Structural

variable {options : Options} {draft : Draft} {ops : List Operation}

/-- Inheriting is the last operation on a record. -/
theorem exists_targeting_eq_concat (h : Proposes options draft Phase.structural.planners ops)
    {child parent : Location} (hop : ⟨child, .inherit parent⟩ ∈ ops) :
    ∃ rest, targeting ops child = rest ++ [⟨child, .inherit parent⟩] ∧
      ⟨child, .inherit parent⟩ ∉ rest := by
  rcases exists_removals_and_inherits h with
    ⟨composed, removals, inherits, hsplit, hcomposed, hremovals, hinherits⟩
  have hothers : (⟨child, .inherit parent⟩ : Operation) ∉ composed ++ removals := by
    intro hmem
    rcases List.mem_append.1 hmem with hmem | hmem
    · rcases hcomposed.exists_emits hmem with ⟨planner, hplanner, hemits⟩
      have haction := hemits.action
      simp only [List.mem_cons, List.not_mem_nil, or_false] at hplanner
      rcases hplanner with rfl | rfl | rfl | rfl <;> exact haction
    · exact (Planner.emits_removeProfiles (hremovals ▸ hmem)).action
  rw [← List.append_assoc] at hsplit
  rw [hsplit] at hop
  have hinherit := (List.mem_append.1 hop).resolve_left hothers
  have honce := List.pairwise_map.1 (Planner.inheritsOnce_of_inherit hinherits).1.once
  have hlast := targeting_eq_singleton honce hinherit
  refine ⟨targeting (composed ++ removals) child, ?_, fun hmem =>
    hothers (mem_targeting.1 hmem).1⟩
  rw [hsplit, targeting_append, hlast]

/-- Nothing is done to a record any more after it has inherited. -/
theorem targeting_after_inherit (h : Proposes options draft Phase.structural.planners ops)
    {before after : List Operation} {child parent : Location}
    (hsplit : (PhasePlan.ofOperations .structural ops).schedule =
      before ++ ⟨child, .inherit parent⟩ :: after) : targeting after child = [] := by
  have hop : (⟨child, .inherit parent⟩ : Operation) ∈ ops :=
    (PhasePlan.schedule_perm .structural ops).mem_iff.1 (by simp [hsplit])
  rcases exists_targeting_eq_concat h hop with ⟨rest, hrest, hnew⟩
  have hall := PhasePlan.targeting_schedule_ofOperations .structural ops child
  have hself := targeting_cons_self (⟨child, .inherit parent⟩ : Operation) after
  rw [hrest, hsplit, targeting_append, hself] at hall
  rcases List.eq_nil_or_concat (targeting after child) with hnil | ⟨front, last, hlast⟩
  · exact hnil
  · -- Otherwise the operation would be done a second time.
    rw [hlast, List.concat_eq_append, ← List.cons_append, ← List.append_assoc] at hall
    have hfront := (List.append_inj' hall rfl).1
    exact absurd (hfront ▸ List.mem_append_right _ List.mem_cons_self) hnew

/-- Operations of the structural phase compose definitions. -/
theorem composes_of_emits {planner : Planner} (hplanner : planner ∈ Phase.structural.planners)
    {op : Operation} (h : planner.Emits op) : op.action.composes = true := by
  have haction := h.action
  cases hcase : op.action <;> rw [hcase] at haction <;> try rfl
  all_goals
    simp only [Phase.planners, List.mem_cons, List.not_mem_nil, or_false] at hplanner
    rcases hplanner with rfl | rfl | rfl | rfl | rfl | rfl <;> exact haction.elim

theorem composes_of_proposes (h : Proposes options draft Phase.structural.planners ops)
    {op : Operation} (hop : op ∈ ops) : op.action.composes = true := by
  rcases h.exists_emits hop with ⟨planner, hplanner, hemits⟩
  exact composes_of_emits hplanner hemits

/-- The structural phase keeps definitions well formed. -/
theorem wellFormed_schedule {repository : Repository} (hr : repository.Reachable)
    (h : Proposes options (.ofRepository repository) Phase.structural.planners ops)
    {before after : List Operation}
    (hsplit : (PhasePlan.ofOperations .structural ops).schedule = before ++ after) :
    (runAll options (.ofRepository repository) before).WellFormed := by
  refine wellFormed_runAll (Draft.wellFormed_ofRepository hr.sound) options fun op hop => ?_
  exact composes_of_proposes h
    ((PhasePlan.schedule_perm .structural ops).mem_iff.1 (by simp [hsplit, hop]))

/-- Unless locations read themselves, nothing is left to inherit when all operations have run. -/
theorem outcome_inherit_schedule {repository : Repository} (hr : repository.Reachable)
    (h : Proposes options (.ofRepository repository) Phase.structural.planners ops)
    (hacyclic : ∀ l, ¬ DependsOn ops l l) {child parent : Location}
    (hop : ⟨child, .inherit parent⟩ ∈ ops) :
    (⟨child, .inherit parent⟩ : Operation).outcome (runAll options (.ofRepository repository)
      (PhasePlan.ofOperations .structural ops).schedule) options = .unchanged := by
  have hread : Reads ops child parent := ⟨_, hop, rfl, List.mem_cons_self⟩
  have hne : child ≠ parent := by
    rintro rfl
    exact hacyclic child (.single hread)
  have hindependent : ¬ DependsOn ops parent child := fun hback =>
    hacyclic child (.head hread hback)
  rcases List.append_of_mem ((PhasePlan.schedule_perm .structural ops).mem_iff.2 hop) with
    ⟨before, after, hsplit⟩
  -- Neither the child nor its parent is edited after the child has inherited.
  have hkeptChild := targeting_after_inherit h hsplit
  have hkeptParent := PhasePlan.targeting_after_of_schedule .structural hsplit List.mem_cons_self
    hne.symm hindependent
  set op : Operation := ⟨child, .inherit parent⟩ with hopdef
  set draft := runAll options (.ofRepository repository) before with hdraft
  have hagree : Draft.AgreeOn op.LooksAt (runAll options (op.run draft options) after)
      (op.run draft options) := by
    rintro l (rfl | hl | ⟨⟨category, hcategory⟩, -⟩)
    · exact sameAt_runAll_of_forall_ne options (targeting_eq_nil_iff.1 hkeptChild) _
    · rw [List.mem_singleton.1 hl]
      exact sameAt_runAll_of_forall_ne options (targeting_eq_nil_iff.1 hkeptParent) _
    · cases hcategory
  have hwellFormed : draft.WellFormed := wellFormed_schedule hr h hsplit
  rw [hsplit, runAll_append, runAll_cons, outcome_congr hagree]
  exact outcome_run_inherit hne hwellFormed (established_schedule hr h hsplit).intact
    (succeeds_schedule hr h hsplit).2

end Structural

end Compilation

/-! ## After the structural phase -/

namespace Draft

/-- The attributes of a definition, if there is one, are an object, or there are none. -/
def HasPlainAttributes (draft : Draft) (l : Location) : Prop :=
  ∀ d, draft.get? l = some d → d.HasPlainAttributes

instance (draft : Draft) (l : Location) : Decidable (draft.HasPlainAttributes l) :=
  decidable_of_iff ((draft.get? l).all fun d => d.HasPlainAttributes) (by
    simp [HasPlainAttributes, Option.all_eq_true])

/-- There is a value among the attributes of a definition under a name; null counts as none. -/
def HasAttribute (draft : Draft) (l : Location) (name : String) : Prop :=
  ∃ d, draft.get? l = some d ∧ d.HasAttribute name

instance (draft : Draft) (l : Location) (name : String) : Decidable (draft.HasAttribute l name) :=
  decidable_of_iff ((draft.get? l).any fun d => d.HasAttribute name) (by
    simp [HasAttribute, Option.any_eq_true])

end Draft

namespace PhasePlan

/-- It is planned that one location inherits from the other. -/
def Inherits (plan : PhasePlan) (child parent : Location) : Prop :=
  ⟨child, .inherit parent⟩ ∈ plan.get child

/-- No location reads itself if what is read always ranks lower. -/
theorem not_reads_self_of_rank {plan : PhasePlan} (rank : Location → Nat)
    (h : ∀ l p, plan.Reads l p → rank p < rank l) (l : Location) : ¬ TransGen plan.Reads l l := by
  have hlower (p : Location) (hp : TransGen plan.Reads l p) : rank p < rank l := by
    induction hp with
    | single hread => exact h _ _ hread
    | tail _ hread ih => exact (h _ _ hread).trans ih
  exact fun hcycle => absurd (hlower l hcycle) (Nat.lt_irrefl _)

end PhasePlan

namespace Compilation

open Operation

/-- The structural phase of an analyzed repository comes first. -/
theorem exists_structural_of_analyze {repository : Repository} {options : Options}
    {analyzed : Compilation} {plan : Plan} {structural : PhasePlan}
    (h : (ofRepository repository options).analyze = .ok analyzed)
    (hplan : analyzed.stage.plan? = some plan)
    (hphase : plan.phase? .structural = some structural) :
    ∃ ops later, Proposes options (.ofRepository repository) Phase.structural.planners ops ∧
      structural = .ofOperations .structural ops ∧ plan.phases = structural :: later ∧
      analyzed = ⟨options, .ofRepository repository, .analyzed plan⟩ := by
  rcases analyze_ofRepository_eq_ok_iff.1 h with ⟨scratch, planned, hplanned, rfl⟩
  cases hplan
  rcases planPhases_cons_eq_ok_iff.1 hplanned with ⟨ops, later, hops, -, hphases⟩
  obtain rfl : PhasePlan.ofOperations .structural ops = structural := by
    simpa [Plan.phase?, hphases] using hphase
  exact ⟨ops, later, hops, rfl, hphases, rfl⟩

/-- Where inheriting changes nothing the attributes of the parent are there. -/
theorem hasAttribute_of_outcome {options : Options} {draft : Draft} (hdraft : draft.WellFormed)
    {child parent : Location}
    (h : (⟨child, .inherit parent⟩ : Operation).outcome draft options = .unchanged)
    (hplain : draft.HasPlainAttributes child) {name : String}
    (hname : draft.HasAttribute parent name) : draft.HasAttribute child name := by
  rcases exists_of_outcome_inherit h with ⟨d, source, hd, hsource, hunchanged⟩
  rcases hname with ⟨source', hsource', hname⟩
  cases hsource.symm.trans hsource'
  exact ⟨d, hd, Definition.hasAttribute_of_unchanged (hdraft _ _ hd) (hdraft _ _ hsource)
    (hplain d hd) hunchanged hname⟩

/--
In a repository that can be analyzed, let no location read itself through the operations of the
structural phase, and take what the structural phase leads to, from where the other phases go on.
Doing a planned inheritance again changes nothing there.  So along every chain of planned
inheritances whose members have an object or nothing as their attributes, each attribute that has a
value at the ancestor has one at the descendant.
-/
theorem inheritance_is_settled {repository : Repository} (hr : repository.Reachable)
    {options : Options} {analyzed : Compilation} {plan : Plan} {structural : PhasePlan}
    (h : (ofRepository repository options).analyze = .ok analyzed)
    (hplan : analyzed.stage.plan? = some plan) (hphase : plan.phase? .structural = some structural)
    (hacyclic : ∀ l, ¬ TransGen structural.Reads l l) :
    ∃ settled later compiled,
      (applyPhase options (.ofRepository repository) structural).1 = settled ∧
      plan.phases = structural :: later ∧ analyzed.compile = .ok compiled ∧
      compiled.draft = (applyPhases options settled later).1 ∧
      (∀ child parent, structural.Inherits child parent →
        (⟨child, .inherit parent⟩ : Operation).outcome settled options = .unchanged ∧
        (⟨child, .inherit parent⟩ : Operation).run settled options = settled) ∧
      ∀ descendant ancestor, TransGen (fun child parent => structural.Inherits child parent ∧
          settled.HasPlainAttributes child ∧ settled.HasPlainAttributes parent)
        descendant ancestor →
        ∀ name, settled.HasAttribute ancestor name → settled.HasAttribute descendant name := by
  rcases exists_structural_of_analyze h hplan hphase with ⟨ops, later, hops, rfl, hphases, rfl⟩
  simp only [PhasePlan.reads_ofOperations] at hacyclic
  have hsettled (child parent : Location)
      (hop : (PhasePlan.ofOperations .structural ops).Inherits child parent) :
      (⟨child, .inherit parent⟩ : Operation).outcome (applyPhase options (.ofRepository repository)
        (.ofOperations .structural ops)).1 options = .unchanged := by
    rw [PhasePlan.Inherits, PhasePlan.get_ofOperations] at hop
    rw [draft_applyPhase]
    exact outcome_inherit_schedule hr hops hacyclic (mem_targeting.1 hop).1
  refine ⟨_, later, _, rfl, hphases, compile_analyzed _ _ _, by rw [hphases]; rfl,
    fun child parent hop => ⟨hsettled child parent hop, ?_⟩, ?_⟩
  · rw [run, hsettled child parent hop]
    rfl
  · intro descendant ancestor hchain name hname
    have hwellFormed : (applyPhase options (.ofRepository repository)
        (.ofOperations .structural ops)).1.WellFormed := by
      rw [draft_applyPhase]
      refine wellFormed_runAll (Draft.wellFormed_ofRepository hr.sound) options fun op hop => ?_
      exact composes_of_proposes hops ((PhasePlan.schedule_perm .structural ops).mem_iff.1 hop)
    induction hchain using TransGen.head_induction_on with
    | single hlink =>
      exact hasAttribute_of_outcome hwellFormed (hsettled _ _ hlink.1) hlink.2.1 hname
    | head hlink _ ih =>
      exact hasAttribute_of_outcome hwellFormed (hsettled _ _ hlink.1) hlink.2.1 ih

/-- An object without attributes of its own between its parent and its child. -/
def chainOfObjects : List (Path × Json) :=
  [(⟨"objects/a.json"⟩, .obj [("name", .str "a"), ("attributes", .obj [("x", .obj [])])]),
    (⟨"objects/b.json"⟩, .obj [("name", .str "b"), ("extends", .str "a")]),
    (⟨"objects/c.json"⟩, .obj [("name", .str "c"), ("extends", .str "b"),
      ("attributes", .obj [("y", .obj [])])])]

/-- The targets of a phase as scheduled, with what each of them inherits from. -/
def parentsInPlan (plan : PhasePlan) : List (Location × Option Location) :=
  plan.schedule.map fun op =>
    (op.target, match op.action with
      | .inherit parent => some parent
      | _ => none)

theorem mem_parentsInPlan {ops : List Operation} {l p : Location}
    (h : (l, some p) ∈ parentsInPlan (.ofOperations .structural ops)) :
    (PhasePlan.ofOperations .structural ops).Inherits l p := by
  rcases List.mem_map.1 h with ⟨⟨target, action⟩, hop, heq⟩
  rcases Prod.mk.inj heq with ⟨rfl, hparent⟩
  cases action <;> cases hparent
  rw [PhasePlan.Inherits, PhasePlan.get_ofOperations]
  exact mem_targeting.2 ⟨(PhasePlan.schedule_perm .structural ops).mem_iff.1 hop, rfl⟩

/-- A plan that only inherits reads what it inherits from. -/
theorem mem_parentsInPlan_of_reads {ops : List Operation}
    (h : ∀ e ∈ parentsInPlan (.ofOperations .structural ops), e.2.isSome) {l p : Location}
    (hread : (PhasePlan.ofOperations .structural ops).Reads l p) :
    (l, some p) ∈ parentsInPlan (.ofOperations .structural ops) := by
  rcases hread with ⟨⟨target, action⟩, hop, hp⟩
  rw [PhasePlan.get_ofOperations] at hop
  rcases mem_targeting.1 hop with ⟨hplanned, rfl⟩
  have hmem := (PhasePlan.schedule_perm .structural ops).mem_iff.2 hplanned
  have hsome := h _ (List.mem_map_of_mem hmem)
  cases action <;> cases hsome
  rw [List.mem_singleton.1 hp]
  exact List.mem_map.2 ⟨_, hmem, rfl⟩

/-- The parents in the plan of the structural phase, whether the objects have plain attributes after
that phase, and whether the first and the last of them have an attribute before it. -/
def inheritanceOf (way : Way) : Option (List (Location × Option Location) × Bool × Bool × Bool) :=
  (way.plan.phase? .structural).map fun plan =>
    let settled := (applyPhase {} (.ofRepository way.repository) plan).1
    (parentsInPlan plan,
      ["a", "b", "c"].all fun name => settled.HasPlainAttributes (.inCore .object name),
      settled.HasAttribute (.inCore .object "a") "x",
      (Draft.ofRepository way.repository).HasAttribute (.inCore .object "c") "x")

theorem reachable_of_chainOfObjects {repository : Repository}
    (h : Repository.ofFiles chainOfObjects = .ok repository) : repository.Reachable := by
  refine Repository.Reachable.empty.insertFiles (fun file hfile => ?_) h
  simp only [chainOfObjects, List.mem_cons, List.not_mem_nil, or_false] at hfile
  rcases hfile with rfl | rfl | rfl <;> simp [Json.WellFormed, Json.WellFormedFields]

/-- An object gets an attribute from the parent of its parent. -/
theorem attribute_passes_through_parent :
    ∃ way : Way, ∃ structural settled,
      Repository.ofFiles chainOfObjects = .ok way.repository ∧
      (ofRepository way.repository {}).analyze = .ok way.analyzed ∧
      way.analyzed.stage.plan? = some way.plan ∧ way.plan.phase? .structural = some structural ∧
      (∀ l, ¬ TransGen structural.Reads l l) ∧
      (applyPhase {} (.ofRepository way.repository) structural).1 = settled ∧
      structural.Inherits (.inCore .object "c") (.inCore .object "b") ∧
      structural.Inherits (.inCore .object "b") (.inCore .object "a") ∧
      ¬ (Draft.ofRepository way.repository).HasAttribute (.inCore .object "c") "x" ∧
      settled.HasAttribute (.inCore .object "c") "x" := by
  have hview : (wayOf chainOfObjects).map inheritanceOf = some (some
      ([(.inCore .object "b", some (.inCore .object "a")),
        (.inCore .object "c", some (.inCore .object "b"))], true, true, false)) := by
    decide +kernel
  rcases exists_of_wayOf hview with ⟨way, hfiles, hanalyze, hplan, -, -, hway⟩
  rcases Option.map_eq_some_iff.1 hway with ⟨structural, hphase, hway⟩
  obtain ⟨hparents, hplain, ha, hc⟩ := by simpa using hway
  rcases exists_structural_of_analyze hanalyze hplan hphase with ⟨ops, -, -, rfl, -, -⟩
  have hacyclic : ∀ l, ¬ TransGen (PhasePlan.ofOperations .structural ops).Reads l l := by
    refine PhasePlan.not_reads_self_of_rank
      (fun l => ["a", "b", "c"].idxOf l.name) fun l p hread => ?_
    have hmem := mem_parentsInPlan_of_reads (by rw [hparents]; decide) hread
    simp only [hparents, List.mem_cons, List.not_mem_nil, or_false, Prod.mk.injEq,
      Option.some.injEq] at hmem
    rcases hmem with ⟨rfl, rfl⟩ | ⟨rfl, rfl⟩ <;> decide
  have hinherits {l p : Location} (h : (l, some p) ∈ [(Location.inCore .object "b",
      some (Location.inCore .object "a")), (.inCore .object "c", some (.inCore .object "b"))]) :=
    mem_parentsInPlan (hparents ▸ h)
  have hb := hinherits (List.mem_cons_self)
  have hbc := hinherits (List.mem_cons_of_mem _ List.mem_cons_self)
  rcases inheritance_is_settled (reachable_of_chainOfObjects hfiles) hanalyze hplan hphase hacyclic
      with ⟨settled, later, compiled, rfl, -, -, -, -, hchain⟩
  refine ⟨way, _, _, hfiles, hanalyze, hplan, hphase, hacyclic, rfl, hbc, hb, hc, ?_⟩
  exact hchain _ _ (.head ⟨hbc, hplain.2.2, hplain.2.1⟩ (.single ⟨hb, hplain.2.1, hplain.1⟩)) "x" ha

end Compilation

end EventSchema
