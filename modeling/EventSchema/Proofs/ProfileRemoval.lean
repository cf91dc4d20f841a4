import EventSchema.Proofs.ProfileTags
import EventSchema.Proofs.SettledInheritance

/-!
# Attributes of inactive profiles

Removal takes the attributes without an active tag from every record that has them.  Inheritance
brings none back, since it takes from records that have been cleared as well, and the planners of
the later phases bring in no inactive tags but those that an entry of the dictionary states for
attributes of its name.

Main results:

- {lit}`Planner.cleared_removeProfiles`: after removal all tags of an attribute without an active
  one are gone with it.
- {lit}`Compilation.cleared_structural`: so it is after the structural phase.
- {lit}`Compilation.cleared_beforeSchema`: after the later phases what remains is stated in the
  dictionary.
-/

namespace EventSchema

open Std

namespace Definition

/-! ## One removal -/

/-- An attribute that a removal leaves was there before and is not inactive. -/
theorem attribute?_removeProfile {d : Definition} (h : d.WellFormed) {profile : String}
    {options : Options} {name : String} {body : Fields}
    (hbody : (d.removeProfile profile options).definition.attribute? name = some body) :
    d.attribute? name = some body ∧ isInactive profile options (.obj body) = false := by
  cases hattributes : d.attributes? with
  | none =>
    rw [d.removeProfile_noAttributes profile options hattributes] at hbody
    have hnone := (attribute?_eq_some_iff.1 hbody).2
    rw [unchanged, hattributes] at hnone
    rcases hnone with ⟨attributes, hsome, -⟩
    cases hsome
  | some attributes =>
    have hnodup : (Fields.keys attributes).Nodup :=
      (Json.wellFormed_obj_iff.1 (h.obj?_get? hattributes)).1
    rcases attribute?_eq_some_iff.1 hbody with ⟨hname, kept, hkept, hget⟩
    simp only [removeProfile, hattributes, attributes?_set] at hkept
    cases hkept
    rcases List.mem_filter.1 (Fields.mem_of_get?_eq_some hget) with ⟨hmem, hactive⟩
    refine ⟨attribute?_eq_some_iff.2 ⟨hname, attributes, hattributes, ?_⟩, by simpa using hactive⟩
    exact (Fields.get?_eq_some_iff_mem hnodup).2 hmem

/-- Where a removal changes nothing no value is inactive. -/
theorem isInactive_of_mem_unchanged {d : Definition} {profile : String} {options : Options}
    (h : (d.removeProfile profile options).changes = [] ∨
      (d == (d.removeProfile profile options).definition) = true)
    {attributes : Fields} (hattributes : d.attributes? = some attributes) {e : String × Json}
    (hmem : e ∈ attributes) : isInactive profile options e.2 = false := by
  simp only [removeProfile, hattributes] at h
  rcases h with hchanges | hsame
  · have hnone := List.filter_eq_nil_iff.1 (List.map_eq_nil_iff.1 hchanges) _ hmem
    simpa using hnone
  · -- The same documents have as many attributes, so that none has been filtered out.
    have hfield := Fields.mem_of_get?_eq_some (fields_get?_of_attributes? hattributes)
    rcases (same_iff.1 hsame).2 _ hfield with ⟨kept, hkept, hvalues⟩
    rw [set, Fields.get?_set_self] at hkept
    cases hkept
    rw [Json.same, Bool.and_eq_true, beq_iff_eq] at hvalues
    have hall := List.length_filter_eq_length_iff.1 hvalues.1.symm _ hmem
    simpa using hall

/-- Where a removal changes nothing there is nothing to remove. -/
theorem isInactive_of_unchanged {d : Definition} {profile : String} {options : Options}
    (h : (d.removeProfile profile options).changes = [] ∨
      (d == (d.removeProfile profile options).definition) = true)
    {name : String} {body : Fields} (hbody : d.attribute? name = some body) :
    isInactive profile options (.obj body) = false := by
  rcases attribute?_eq_some_iff.1 hbody with ⟨-, attributes, hattributes, hget⟩
  exact isInactive_of_mem_unchanged h hattributes (Fields.mem_of_get?_eq_some hget)

end Definition

namespace Operation

/-- A removal in a draft without failures leaves what is not inactive. -/
theorem exists_get?_run_removal {draft : Draft} (hdraft : draft.WellFormed)
    (hintact : draft.Intact) (options : Options) (profile : String) {l : Location} {d : Definition}
    (hd : draft.get? l = some d) :
    ((⟨l, .removeProfile profile⟩ : Operation).outcome draft options).isFailed = false ∧
      ∃ after, ((⟨l, .removeProfile profile⟩ : Operation).run draft options).get? l = some after ∧
        ∀ name body, after.attribute? name = some body → d.attribute? name = some body ∧
          Definition.isInactive profile options (.obj body) = false := by
  set op : Operation := ⟨l, .removeProfile profile⟩ with hop
  have htotal : op.IsTotal := fun _ _ _ _ => ⟨_, rfl⟩
  have hsucceeds := isFailed_outcome_of_grounds htotal hintact
    (.of_contains (Draft.contains_of_get? hd) rfl) options
  refine ⟨hsucceeds, ?_⟩
  have htarget : draft.get? op.target = some d := hd
  rcases outcome_cases_of_get? options htarget with
    ⟨hfailed, -⟩ | ⟨revision, hedit, ⟨-, hget⟩ | ⟨-, hget, hsame⟩⟩
  · rw [hsucceeds] at hfailed
    cases hfailed
  · cases hedit
    exact ⟨_, hget, fun name body hbody =>
      Definition.attribute?_removeProfile (hdraft l d hd) hbody⟩
  · cases hedit
    exact ⟨d, hget, fun name body hbody =>
      ⟨hbody, Definition.isInactive_of_unchanged hsame hbody⟩⟩

/-! ## All removals -/

/-- After some removals an attribute has none of the profiles as an inactive tag. -/
theorem exists_get?_of_removals {options : Options} {ops : List Operation}
    (hops : ∀ op ∈ ops, ∃ profile, op.action = .removeProfile profile) {draft : Draft}
    (hdraft : draft.WellFormed) (hintact : draft.Intact)
    (hthere : ∀ op ∈ ops, draft.contains op.target = true) {l : Location} {d : Definition}
    (hd : (runAll options draft ops).get? l = some d) :
    ∃ before, draft.get? l = some before ∧
      ∀ name body, d.attribute? name = some body → before.attribute? name = some body ∧
        ∀ profile, ⟨l, .removeProfile profile⟩ ∈ ops →
          Definition.isInactive profile options (.obj body) = false := by
  induction ops generalizing draft with
  | nil => exact ⟨d, hd, fun name body hbody => ⟨hbody, fun profile hprofile => nomatch hprofile⟩⟩
  | cons op rest ih =>
    rcases op with ⟨target, action⟩
    rcases hops _ List.mem_cons_self with ⟨profile, rfl⟩
    have hhere := hthere _ List.mem_cons_self
    rw [Draft.contains, Option.isSome_iff_exists] at hhere
    rcases hhere with ⟨current, hcurrent⟩
    rcases exists_get?_run_removal hdraft hintact options profile hcurrent with
      ⟨hsucceeds, after, hafter, hremoved⟩
    rcases ih (fun other ho => hops other (List.mem_cons_of_mem _ ho))
        (wellFormed_run hdraft rfl options) (intact_run hintact hsucceeds)
        (fun other ho => contains_run _ options (hthere other (List.mem_cons_of_mem _ ho))) hd with
      ⟨middle, hmiddle, hrest⟩
    by_cases htarget : target = l
    · subst htarget
      cases hafter.symm.trans hmiddle
      refine ⟨current, hcurrent, fun name body hbody => ?_⟩
      rcases hrest name body hbody with ⟨hkept, hlater⟩
      rcases hremoved name body hkept with ⟨hbefore, hinactive⟩
      refine ⟨hbefore, fun other ho => ?_⟩
      rcases List.mem_cons.1 ho with heq | ho
      · cases heq
        exact hinactive
      · exact hlater other ho
    · rw [run_get?_of_ne _ draft options htarget] at hmiddle
      refine ⟨middle, hmiddle, fun name body hbody => ?_⟩
      rcases hrest name body hbody with ⟨hkept, hlater⟩
      refine ⟨hkept, fun other ho => ?_⟩
      rcases List.mem_cons.1 ho with heq | ho
      · cases heq
        exact absurd rfl htarget
      · exact hlater other ho

end Operation

namespace Draft

/-- Attributes of records without an active tag have no tags but those stated for their names. -/
def Cleared (draft : Draft) (options : Options) (stated : String → List String) : Prop :=
  ∀ l d, l.isCore = true → l.kind ∈ Kind.records → draft.get? l = some d →
    d.Cleared options stated

end Draft

namespace Planner

/-- Removal is planned for each inactive profile that some attribute of a record has as its tag. -/
theorem mem_removeProfiles {draft : Draft} {options : Options} {l : Location} {d : Definition}
    (hd : draft.get? l = some d) (hcore : l.isCore = true) (hkind : l.kind ∈ Kind.records)
    {name : String} {body : Fields} (hmem : (name, body) ∈ d.attributes) {tag : String}
    (htag : tag ∈ Definition.profileTags body) (hinactive : options.isProfileEnabled tag = false) :
    ⟨l, .removeProfile tag⟩ ∈ removeProfiles draft options := by
  refine List.mem_flatMap.2 ⟨(l, d), Draft.mem_core.2 ⟨hd, hcore, hkind⟩, ?_⟩
  refine List.mem_map.2 ⟨tag, List.mem_filter.2 ⟨?_, by simp [hinactive]⟩, rfl⟩
  rw [ExtTreeSet.mem_toList, profilesOf, ExtTreeSet.mem_ofList, List.contains_iff_mem]
  exact List.mem_append_right _ (List.mem_flatMap.2 ⟨_, hmem, htag⟩)

/-- Removal is planned for records that are there. -/
theorem exists_of_mem_removeProfiles {draft : Draft} {options : Options} {op : Operation}
    (hop : op ∈ removeProfiles draft options) :
    (op.target.isCore = true ∧ op.target.kind ∈ Kind.records ∧
      draft.contains op.target = true) ∧ ∃ profile, op.action = .removeProfile profile := by
  rcases List.mem_flatMap.1 hop with ⟨⟨l, d⟩, hmem, hop⟩
  rcases List.mem_map.1 hop with ⟨profile, -, rfl⟩
  rcases Draft.mem_core.1 hmem with ⟨-, hcore, hkind⟩
  exact ⟨⟨hcore, hkind, Draft.contains_of_mem_core hmem⟩, profile, rfl⟩

/-- After removal an attribute without an active tag has no tags. -/
theorem cleared_removeProfiles {draft : Draft} (hdraft : draft.WellFormed)
    (hintact : draft.Intact) (options : Options) :
    (Operation.runAll options draft (removeProfiles draft options)).Cleared options
      fun _ => [] := by
  intro l d hcore hkind hd name body hbody hinactive tag htag
  rcases Operation.exists_get?_of_removals
      (fun op hop => (exists_of_mem_removeProfiles hop).2) hdraft hintact
      (fun op hop => (exists_of_mem_removeProfiles hop).1.2.2) hd with
    ⟨before, hbefore, hkept⟩
  rcases hkept name body hbody with ⟨hthere, hremoved⟩
  have hlisted := Definition.mem_attributes_of_attribute? hthere
  have hplanned := mem_removeProfiles hbefore hcore hkind hlisted htag (hinactive tag htag)
  have hactive := hremoved tag hplanned
  have hall : (Definition.profileTags body).all (fun tag => !options.isProfileEnabled tag) = true :=
    List.all_eq_true.2 fun other ho => by rw [hinactive other ho]; rfl
  simp only [Definition.isInactive, Json.obj?, hall, List.contains_iff_mem.2 htag] at hactive
  cases hactive

end Planner

/-! ## What the planners behind removal keep -/

namespace Operation

variable {options : Options} {stated : String → List String} {draft : Draft}

/-- A run keeps records cleared if the edits of records do. -/
theorem cleared_run (h : draft.Cleared options stated) {op : Operation}
    (hcreates : op.action.createsTarget = false)
    (hedit : op.target.kind ∈ Kind.records → ∀ d revision, d.Cleared options stated →
      op.edit draft options d = .ok revision → revision.definition.Cleared options stated) :
    (op.run draft options).Cleared options stated := by
  intro l d hcore hkind hget
  by_cases htarget : op.target = l
  · subst htarget
    rcases exists_get?_of_run hcreates hget with
      ⟨before, hbefore, rfl | ⟨revision, hrevision, rfl⟩⟩
    · exact h _ d hcore hkind hbefore
    · exact hedit hkind before revision (h _ before hcore hkind hbefore) hrevision
  · rw [op.run_get?_of_ne draft options htarget] at hget
    exact h l d hcore hkind hget

/-- Inheriting from records keeps them cleared. -/
theorem cleared_runAll_inherits {ops : List Operation}
    (hops : ∀ op ∈ ops, ∃ child parent, parent.isCore = true ∧ parent.kind ∈ Kind.records ∧
      op = ⟨child, .inherit parent⟩)
    (hdraft : draft.WellFormed) (h : draft.Cleared options stated) :
    (runAll options draft ops).Cleared options stated := by
  induction ops generalizing draft with
  | nil => exact h
  | cons op rest ih =>
    rcases hops op List.mem_cons_self with ⟨child, parent, hcore, hkind, rfl⟩
    refine ih (fun other ho => hops other (List.mem_cons_of_mem _ ho))
      (wellFormed_run hdraft rfl options) (cleared_run h rfl ?_)
    intro _ d revision hd hedit
    rcases exists_of_map_source hedit with ⟨source, hsource, rfl⟩
    exact hd.merge (by decide) (h parent source hcore hkind hsource) (hdraft parent source hsource)

theorem createsTarget_of_leavesTags {op : Operation} (h : op.action.leavesTags = true) :
    op.action.createsTarget = false := by
  cases haction : op.action <;> simp [haction, Action.leavesTags, Action.createsTarget] at h ⊢

/-- Completing definitions keeps records cleared. -/
theorem cleared_run_of_leavesTags (h : draft.Cleared options stated) {op : Operation}
    (hop : op.action.leavesTags = true)
    (hsiblings : op.action = .addSiblings →
      options.isProfileEnabled Definition.datetimeProfile = true) :
    (op.run draft options).Cleared options stated := by
  refine cleared_run h (createsTarget_of_leavesTags hop) fun hkind d revision hd hedit => ?_
  have hrecord : op.target.kind ≠ .dictionary := by
    intro hdictionary
    rw [hdictionary] at hkind
    simp [Kind.records] at hkind
  exact hd.of_keepsTags (keepsTags_edit hop hrecord hsiblings hedit)

/-- Filling attributes from the dictionary brings in what is stated there. -/
theorem cleared_run_fill (h : draft.Cleared options stated) {target : Location} {name : String}
    (hentry : ∀ entry, draft.get? (.inCore .dictionary name) = some entry →
      entry.WellFormed ∧ ∀ tag ∈ Definition.profileTags entry.fields, tag ∈ stated name) :
    ((⟨target, .fillAttribute name (.inCore .dictionary name)⟩ : Operation).run draft
      options).Cleared options stated := by
  refine cleared_run h rfl fun _ d revision hd hedit => ?_
  rcases exists_of_bind_source hedit with ⟨entry, hget, hfill⟩
  rcases hentry entry hget with ⟨hwellFormed, hstated⟩
  exact Definition.Cleared.fillAttribute hfill hd hwellFormed hstated

end Operation

/-! ## What the dictionary states -/

/-- The tags that the entry of the dictionary under a name states. -/
def Draft.statedTags (draft : Draft) (name : String) : List String :=
  ((draft.get? (.inCore .dictionary name)).map fun entry =>
    Definition.profileTags entry.fields).getD []

theorem Draft.mem_statedTags {draft : Draft} {name tag : String} :
    tag ∈ draft.statedTags name ↔ ∃ entry, draft.get? (.inCore .dictionary name) = some entry ∧
      tag ∈ Definition.profileTags entry.fields := by
  unfold Draft.statedTags
  cases draft.get? (.inCore .dictionary name) <;> simp

namespace Planner

/-- Siblings of timestamps are planned only if their profile is active. -/
theorem isProfileEnabled_of_addSiblings {planner : Planner} {draft : Draft} {options : Options}
    {ops : List Operation} (h : planner.analyze draft options = .ok ops) {op : Operation}
    (hop : op ∈ ops) (haction : op.action = .addSiblings) :
    options.isProfileEnabled Definition.datetimeProfile = true := by
  have hacts := (emits_of_mem h hop).action
  rw [haction] at hacts
  cases planner with
  | datetime =>
    cases h
    unfold addSiblings at hop
    split at hop
    · cases hop
    · rename_i henabled
      simpa using henabled
  | _ => exact hacts.elim

/-- The planners that complete definitions leave tags alone. -/
theorem leavesTags_of_emits {planner : Planner}
    (hplanner : planner = .category ∨ planner ∈ Phase.identifiers.planners) {op : Operation}
    (h : planner.Emits op) : op.action.leavesTags = true := by
  have haction := h.action
  cases hcase : op.action <;> rw [hcase] at haction <;> try rfl
  all_goals
    simp only [Phase.planners, List.mem_cons, List.not_mem_nil, or_false] at hplanner
    rcases hplanner with rfl | rfl | rfl | rfl | rfl | rfl | rfl | rfl <;> exact haction.elim

/-- The planners for identifiers leave the tags alone that the dictionary states. -/
theorem profileTags_edit {planner : Planner} (hplanner : planner ∈ Phase.identifiers.planners)
    {op : Operation} (h : planner.Emits op) (hkind : op.target.kind = .dictionary)
    {draft : Draft} {options : Options} {d : Definition} {revision : Revision}
    (hedit : op.edit draft options d = .ok revision) :
    Definition.profileTags revision.definition.fields = Definition.profileTags d.fields := by
  have htarget := h.kind
  have haction := h.action
  rcases op with ⟨target, action⟩
  rw [hkind] at htarget
  simp only [Phase.planners, List.mem_cons, List.not_mem_nil, or_false] at hplanner
  rcases hplanner with rfl | rfl | rfl | rfl | rfl | rfl | rfl
  all_goals simp [targetKinds, Kind.withAttributes, typedKinds] at htarget
  · cases action with
    | prefixTypes renames =>
      cases hedit
      rcases d.exists_typesOnly_of_prefixTypes target.kind renames with ⟨edit, heq, htypes⟩
      rw [heq]
      exact d.profileTags_editTyped hkind (Definition.leavesTags_of_typesOnly htypes)
    | _ => exact haction.elim
  · cases action with
    | setObjectTypes objects =>
      rcases Definition.exists_typesOnly_of_setObjectTypes hedit with ⟨edit, rfl, htypes⟩
      exact d.profileTags_editTyped hkind (Definition.leavesTags_of_typesOnly htypes)
    | _ => exact haction.elim

end Planner

namespace Operation

theorem statedTags_run {planner : Planner} (hplanner : planner ∈ Phase.identifiers.planners)
    {op : Operation} (h : planner.Emits op) (draft : Draft) (options : Options) :
    (op.run draft options).statedTags = draft.statedTags := by
  funext name
  by_cases htarget : op.target = .inCore .dictionary name
  · have hkind : op.target.kind = .dictionary := congrArg Location.kind htarget
    have hcreates :=
      createsTarget_of_leavesTags (Planner.leavesTags_of_emits (Or.inr hplanner) h)
    unfold Draft.statedTags
    rw [← htarget, op.get?_run_target]
    rcases op.outcome_cases draft options with
      ⟨cause, hout⟩ | ⟨-, revision, hedit, hout | ⟨hout, -⟩⟩
    · rw [hout]
    · rcases exists_get?_of_applied hout hcreates with ⟨before, hbefore⟩
      rw [hbefore] at hedit ⊢
      rw [hout]
      exact Planner.profileTags_edit hplanner h hkind hedit
    · rw [hout]
  · rw [Draft.statedTags, op.run_get?_of_ne draft options htarget, Draft.statedTags]

end Operation

namespace Compilation

open Operation

/-! ## The phases before the schema -/

section

variable {repository : Repository} {options : Options} {ops : List Operation}

/-- Nothing fails while the structural phase is planned. -/
theorem intact_of_proposes (hr : repository.Reachable) {planners : List Planner}
    (hplanners : ∀ planner ∈ planners, planner ∈ Phase.structural.planners)
    (h : Proposes options (.ofRepository repository) planners ops) :
    (runAll options (.ofRepository repository) ops).Intact := by
  have hempty : (Draft.ofRepository repository).Intact :=
    fun l => Draft.failure?_ofRepository repository l
  refine (established_runAll hempty options (fun op hop => ?_)
    (fun before op after => h.supplies hplanners hr.hosted) (List.append_nil ops).symm).intact
  rcases h.exists_emits hop with ⟨planner, hplanner, hemits⟩
  exact isTotal_of_emits (hplanners planner hplanner) hemits

theorem wellFormed_of_proposes (hr : repository.Reachable)
    (h : Proposes options (.ofRepository repository) Phase.structural.planners ops)
    {before after : List Operation} (hsplit : ops = before ++ after) :
    (runAll options (.ofRepository repository) before).WellFormed := by
  refine wellFormed_runAll (Draft.wellFormed_ofRepository hr.sound) options fun op hop => ?_
  exact composes_of_proposes h (hsplit ▸ List.mem_append_left after hop)

/-- After the structural phase an attribute without an active tag has no tags. -/
theorem cleared_structural (hr : repository.Reachable)
    (h : Proposes options (.ofRepository repository) Phase.structural.planners ops) :
    (runAll options (.ofRepository repository) ops).Cleared options fun _ => [] := by
  rcases exists_removals_and_inherits h with
    ⟨composed, removals, inherits, hsplit, hcomposed, rfl, hinherits⟩
  set seen := runAll options (.ofRepository repository) composed with hseen
  have hintact : seen.Intact := intact_of_proposes hr (fun planner hplanner => by
    simp only [List.mem_cons, List.not_mem_nil, or_false] at hplanner
    rcases hplanner with rfl | rfl | rfl | rfl <;> decide) hcomposed
  have hremoved := Planner.cleared_removeProfiles (wellFormed_of_proposes hr h hsplit) hintact
    options
  rw [← List.append_assoc] at hsplit
  have hbefore := wellFormed_of_proposes hr h hsplit
  rw [hsplit, runAll_append]
  refine cleared_runAll_inherits (fun op hop => ?_) hbefore (by rwa [runAll_append])
  rcases ((Planner.inheritsOnce_of_inherit hinherits).1.complete op).1 hop with
    ⟨child, parent, ⟨d, name, -, -, -, -, -, -, hfound, -⟩, rfl⟩
  rcases Draft.exists_of_find? hfound with ⟨e, hmem⟩
  rcases Draft.mem_core.1 hmem with ⟨-, hcore, hkind⟩
  exact ⟨child, parent, hcore, Kind.mem_records_of_family hkind, rfl⟩

end

section

variable {options : Options} {draft : Draft} {ops : List Operation}

/-- The phase of the dictionary leaves the dictionary as it is. -/
theorem get?_dictionary_of_proposes (h : Proposes options draft Phase.dictionary.planners ops)
    {before after : List Operation} (hops : ops = before ++ after) (name : String) :
    (runAll options draft before).get? (.inCore .dictionary name) =
      draft.get? (.inCore .dictionary name) := by
  refine (sameAt_runAll_of_forall_ne options (fun op hop heq => ?_) draft).definition
  rcases h.exists_emits (hops ▸ List.mem_append_left after hop) with ⟨planner, hplanner, hemits⟩
  have hkind := hemits.kind
  rw [heq] at hkind
  simp only [Phase.planners, List.mem_cons, List.not_mem_nil, or_false] at hplanner
  rcases hplanner with rfl | rfl <;>
    simp [Planner.targetKinds, Kind.withAttributes, Location.inCore] at hkind

theorem statedTags_dictionary (h : Proposes options draft Phase.dictionary.planners ops) :
    (runAll options draft ops).statedTags = draft.statedTags := by
  funext name
  rw [Draft.statedTags, get?_dictionary_of_proposes h (List.append_nil ops).symm, Draft.statedTags]

/-- The phase of the dictionary gives classes their categories and fills in attributes. -/
theorem leavesTags_or_fills (h : Proposes options draft Phase.dictionary.planners ops)
    {op : Operation} (hop : op ∈ ops) :
    op.action.leavesTags = true ∧ op.action ≠ .addSiblings ∨
      ∃ name, op.action = .fillAttribute name (.inCore .dictionary name) := by
  rcases h.exists_emits hop with ⟨planner, hplanner, hemits⟩
  have haction := hemits.action
  simp only [Phase.planners, List.mem_cons, List.not_mem_nil, or_false] at hplanner
  rcases hplanner with rfl | rfl
  · refine Or.inl ⟨Planner.leavesTags_of_emits (Or.inl rfl) hemits, fun hsiblings => ?_⟩
    rw [hsiblings] at haction
    exact haction
  · cases hcase : op.action with
    | fillAttribute name source =>
      rw [hcase] at haction
      exact Or.inr ⟨name, congrArg (Action.fillAttribute name) haction⟩
    | _ =>
      rw [hcase] at haction
      exact haction.elim

/-- After the phase of the dictionary what remains is stated there. -/
theorem cleared_dictionary (hdraft : draft.WellFormed)
    (h : Proposes options draft Phase.dictionary.planners ops)
    (hcleared : draft.Cleared options draft.statedTags) :
    (runAll options draft ops).Cleared options draft.statedTags := by
  suffices hprefix : ∀ before after, ops = before ++ after →
      (runAll options draft before).Cleared options draft.statedTags from
    hprefix ops [] (List.append_nil ops).symm
  intro before
  induction before using List.reverseRecOn with
  | nil => exact fun _ _ => hcleared
  | append_singleton before op ih =>
    intro after hops
    rw [List.append_assoc, List.singleton_append] at hops
    have hbefore := ih (op :: after) hops
    rw [runAll_append, runAll_cons, runAll_nil]
    have hop : op ∈ ops := by simp [hops]
    rcases leavesTags_or_fills h hop with ⟨hleaves, hsiblings⟩ | ⟨name, haction⟩
    · exact cleared_run_of_leavesTags hbefore hleaves fun haction => absurd haction hsiblings
    · obtain ⟨target, action⟩ := op
      cases haction
      refine cleared_run_fill hbefore fun entry hentry => ?_
      rw [get?_dictionary_of_proposes h hops] at hentry
      exact ⟨hdraft _ entry hentry, fun tag htag => Draft.mem_statedTags.2 ⟨entry, hentry, htag⟩⟩

/-- The phase of identifiers leaves tags alone. -/
theorem cleared_identifiers {stated : String → List String}
    (h : Proposes options draft Phase.identifiers.planners ops)
    (hcleared : draft.Cleared options stated) :
    (runAll options draft ops).Cleared options stated ∧
      (runAll options draft ops).statedTags = draft.statedTags := by
  have hshape (op : Operation) (hop : op ∈ ops) :
      (∃ planner ∈ Phase.identifiers.planners, planner.Emits op) ∧
        (op.action = .addSiblings →
          options.isProfileEnabled Definition.datetimeProfile = true) := by
    rcases h.exists_analyze hop with ⟨planner, hplanner, seen, here, hanalyze, hmem, -⟩
    exact ⟨⟨planner, hplanner, Planner.emits_of_mem hanalyze hmem⟩,
      Planner.isProfileEnabled_of_addSiblings hanalyze hmem⟩
  clear h
  induction ops generalizing draft with
  | nil => exact ⟨hcleared, rfl⟩
  | cons op rest ih =>
    rcases hshape op List.mem_cons_self with ⟨⟨planner, hplanner, hemits⟩, hsiblings⟩
    have hleaves := Planner.leavesTags_of_emits (Or.inr hplanner) hemits
    rcases ih (cleared_run_of_leavesTags hcleared hleaves hsiblings)
        fun other ho => hshape other (List.mem_cons_of_mem op ho) with
      ⟨hrest, hstated⟩
    exact ⟨hrest, hstated.trans (statedTags_run hplanner hemits draft options)⟩

end

/-- In front of the last phase an attribute without an active tag has no tags but those that the
dictionary states for its name. -/
theorem cleared_beforeSchema {repository : Repository} (hr : repository.Reachable)
    {options : Options} {plan : Plan} {structural dictionary identifiers : List Operation}
    (h : PlannedAs options (.ofRepository repository) plan structural dictionary identifiers) :
    (seenByRendering options repository structural dictionary identifiers).Cleared options
      (seenByRendering options repository structural dictionary identifiers).statedTags := by
  have hstructural := cleared_structural hr h.proposes_structural
  have hwellFormed := wellFormed_of_proposes hr h.proposes_structural
    (List.append_nil structural).symm
  have hdictionary := cleared_dictionary hwellFormed h.proposes_dictionary
    fun l d hcore hkind hd => (hstructural l d hcore hkind hd).mono fun _ _ htag => nomatch htag
  have hsame := statedTags_dictionary h.proposes_dictionary
  rw [← hsame, ← runAll_append] at hdictionary
  rcases cleared_identifiers h.proposes_identifiers hdictionary with ⟨hcleared, hstated⟩
  rw [seenByRendering, runAll_append, hstated]
  exact hcleared

end Compilation

end EventSchema
