import EventSchema.Proofs.ReservedAttributes
import EventSchema.Proofs.WithoutExtension

/-!
# Preparations for includes

The structural phase first tags and annotates profiles and brings extensions to core, and only then
includes, removes and inherits.  The schedule keeps to that wherever something is read: a location
opens with what prepares it, so its preparations are over before anything reads it.

Main results:

- {lit}`Repository.Reachable.profileName_eq`: the location of a profile has the name of the profile.
- {lit}`Compilation.prepared_of_schedule`: what is read has been prepared.
- {lit}`Compilation.contains_of_profile`: the profiles that are read are authored.
- {lit}`Compilation.taggedBut_of_no_tagProfile`: a profile without a planned tag has it already.
-/

namespace EventSchema

open Std

/-! ## Names of profiles -/

namespace Repository

/-- Whatever is authored has been defined by a file. -/
theorem Reachable.exists_contents {r : Repository} (h : r.Reachable) {l : Location}
    {d : Definition} (hget : r.get? l = some d) :
    ∃ owner place fields found, contents owner place fields = .ok found ∧
      (l, .ok d) ∈ found.list := by
  induction h with
  | empty => cases (get?_empty l).symm.trans hget
  | @insertFile r before path value _ ih =>
    obtain ⟨file, hsource⟩ := (before.aligned.insertFile path value).get?_eq_some_iff.1 hget
    rcases sources_insertFile_cases hsource with hbefore | ⟨hmem, -⟩
    · exact ih (sources_eq_some_iff.1 hbefore).1
    · unfold entriesOf at hmem
      cases hfound : contentsOf? (path, value) with
      | none => simp [hfound] at hmem
      | some found =>
        obtain ⟨fields, -, hcontents⟩ := contentsOf?_eq_some_iff.1 hfound
        exact ⟨_, _, fields, found, hcontents, by simpa [hfound] using hmem⟩
  | stamp _ _ ih => exact ih hget

theorem kind_owned (owner : Option String) (l : Location) : (owned owner l).kind = l.kind := by
  cases owner <;> rfl

theorem name_owned (owner : Option String) (l : Location) : (owned owner l).name = l.name := by
  cases owner <;> rfl

/-- The location of a profile has the name that the profile declares, if it declares one. -/
theorem profileName_of_contents {owner : Option String} {place : List String} {fields : Fields}
    {found : Contents} (h : contents owner place fields = .ok found) {l : Location}
    {d : Definition} (hmem : (l, .ok d) ∈ found.list) (hkind : l.kind = .profile) :
    Planner.profileName l d = l.name := by
  have hother {k : Location} (hne : k.kind ≠ .profile) {e : Entry}
      (he : e.1 = owned owner k) (heq : (l, .ok d) = e) : False := by
    rw [← heq] at he
    have hkind : k.kind = .profile := by rw [← kind_owned owner k, ← he, hkind]
    exact hne hkind
  have hwhole {kind : Kind} (hne : kind ≠ .profile) {name : String}
      (hsingle : (l, .ok d) ∈
        (Contents.single (owned owner (.inCore kind name)) ⟨fields⟩).list) : False :=
    hother (k := .inCore kind name) hne rfl (List.mem_singleton.1 hsingle)
  unfold contents at h
  dsimp only at h
  split at h
  · cases h
    rcases List.mem_append.1 hmem with hmem | hmem
    all_goals
      rcases List.mem_map.1 hmem with ⟨field, -, heq⟩
      exact (hother (by simp [Location.inCore]) (fst_entry _ _) heq.symm).elim
  · cases h
    rcases List.mem_map.1 hmem with ⟨field, -, heq⟩
    have hplace : (categoryEntry owner field.1 field.2).1 =
        owned owner (.inCore .category field.1) := fst_entry _ _
    exact (hother (by simp [Location.inCore]) hplace heq.symm).elim
  · split at h
    · cases h
      cases List.mem_singleton.1 hmem
      cases hkind
    · cases h
  · split at h
    · split at h
      · cases h
        exact (hwhole (by decide) hmem).elim
      · cases h
    · cases h
      exact (hwhole (by decide) hmem).elim
  · cases h
    exact (hwhole (by decide) hmem).elim
  · cases h
    exact (hwhole (by decide) hmem).elim
  · cases h
    exact (hwhole (by decide) hmem).elim
  · cases h
    cases List.mem_singleton.1 hmem
    have hdeclared : (⟨fields⟩ : Definition).name? =
        (Fields.get? fields "name").bind Json.str? := by
      ext text
      rw [Definition.name?, Definition.text?_eq_some_iff]
      cases Fields.get? fields "name" with
      | none => simp
      | some value => cases value <;> simp [Json.str?]
    rw [Planner.profileName, name_owned, hdeclared]
    cases (Fields.get? fields "name").bind Json.str? <;> rfl
  · cases h
    exact (hwhole (by decide) hmem).elim
  · cases h

/-- In a repository the location of a profile has the name of the profile. -/
theorem Reachable.profileName_eq {r : Repository} (h : r.Reachable) {l : Location}
    {d : Definition} (hget : r.get? l = some d) (hkind : l.kind = .profile) :
    Planner.profileName l d = l.name := by
  rcases h.exists_contents hget with ⟨owner, place, fields, found, hfound, hmem⟩
  exact profileName_of_contents hfound hmem hkind

end Repository

/-! ## What is planned before includes -/

/-- Whether an action is planned in front of all includes. -/
def Action.prepares : Action → Bool
  | .tagProfile _ | .annotate | .mergeExtension _ | .copyExtension _ _ _ => true
  | _ => false

/-- Whether an action includes something. -/
def Action.includes : Action → Bool
  | .includeFrom _ _ => true
  | _ => false

/-- Whether an action removes attributes. -/
def Action.removes : Action → Bool
  | .removeProfile _ => true
  | _ => false

/-- Whether an action is planned behind all preparations and fills or removes attributes. -/
def Action.completes : Action → Bool
  | .includeFrom _ _ | .removeProfile _ | .inherit _ => true
  | _ => false

theorem Action.prepares_eq_false {action : Action} (h : action.completes = true) :
    action.prepares = false := by
  cases action <;> first | rfl | cases h

namespace Compilation

open Operation

section Structural

variable {options : Options} {draft : Draft} {ops : List Operation}

/-- The structural phase prepares definitions before it completes them. -/
theorem exists_preparations (h : Proposes options draft Phase.structural.planners ops) :
    ∃ preparations completions, ops = preparations ++ completions ∧
      (∀ op ∈ preparations, op.action.prepares = true) ∧
      ∀ op ∈ completions, op.action.completes = true := by
  have hplanners : Phase.structural.planners =
      [.profileTag, .annotations, .extension] ++ [.includes, .profileRemove, .inheritance] := rfl
  rw [hplanners] at h
  rcases h.exists_of_append with ⟨preparations, completions, rfl, hbefore, hafter⟩
  refine ⟨preparations, completions, rfl, fun op hop => ?_, fun op hop => ?_⟩
  · rcases hbefore.exists_emits hop with ⟨planner, hplanner, hemits⟩
    have haction := hemits.action
    simp only [List.mem_cons, List.not_mem_nil, or_false] at hplanner
    rcases hplanner with rfl | rfl | rfl
    all_goals cases hcase : op.action <;> rw [hcase] at haction <;> first | rfl | cases haction
  · rcases hafter.exists_emits hop with ⟨planner, hplanner, hemits⟩
    have haction := hemits.action
    simp only [List.mem_cons, List.not_mem_nil, or_false] at hplanner
    rcases hplanner with rfl | rfl | rfl
    all_goals cases hcase : op.action <;> rw [hcase] at haction <;> first | rfl | cases haction

/-- Outside of core nothing is read by what is planned. -/
theorem isQuiet_of_extension (h : Proposes options draft Phase.structural.planners ops)
    {l : Location} (hl : l.isCore = false) :
    (PhasePlan.ofOperations .structural ops).isQuiet l = true := by
  refine PhasePlan.isQuiet_iff.2 fun op hop p hp => ?_
  rw [PhasePlan.get_ofOperations] at hop
  rcases mem_targeting.1 hop with ⟨hmem, htarget⟩
  rcases h.exists_emits hmem with ⟨planner, -, hemits⟩
  have hreads := hemits.reads hp
  cases planner with
  | profileTag | annotations => exact hreads.elim
  | _ =>
    rw [← htarget, hemits.core rfl] at hl
    cases hl

/-- What prepares a location reads nothing but what is quiet. -/
theorem isQuiet_of_prepares (h : Proposes options draft Phase.structural.planners ops)
    {op : Operation} (hop : op ∈ ops) (hprepares : op.action.prepares = true) {p : Location}
    (hp : p ∈ op.prerequisites) :
    (PhasePlan.ofOperations .structural ops).isQuiet p = true := by
  rcases h.exists_emits hop with ⟨planner, -, hemits⟩
  have haction := hemits.action
  have hreads := hemits.reads hp
  cases planner with
  | extension => exact isQuiet_of_extension h hreads
  | profileTag | annotations => exact hreads.elim
  | _ => cases hcase : op.action <;> rw [hcase] at haction hprepares <;>
      first | exact haction.elim | cases hprepares

/-- When a location is read its preparations are over. -/
theorem prepared_of_schedule (h : Proposes options draft Phase.structural.planners ops)
    {before after : List Operation} {op : Operation}
    (hsplit : (PhasePlan.ofOperations .structural ops).schedule = before ++ op :: after)
    {p : Location} (hp : p ∈ op.prerequisites) :
    (∀ other ∈ ops, other.target = p → other.action.prepares = true → other ∈ before) ∧
      ∀ other ∈ op :: after, other.target = p → other.action.completes = true := by
  rcases exists_preparations h with
    ⟨preparations, completions, hops, hprepares, hcompletes⟩
  have htargeting : targeting ops p = targeting preparations p ++ targeting completions p := by
    rw [hops, targeting_append]
  have hopens : targeting preparations p <+:
      (PhasePlan.ofOperations .structural ops).opening p := by
    refine PhasePlan.prefix_opening ((PhasePlan.get_ofOperations _ ops p).trans htargeting)
      fun other ho q hq => ?_
    have hmem := (mem_targeting.1 ho).1
    exact isQuiet_of_prepares h (hops ▸ List.mem_append_left _ hmem) (hprepares other hmem) hq
  have hopening := PhasePlan.opening_of_schedule _ (PhasePlan.filed_ofOperations _ _) hsplit hp
  rcases hopens.trans hopening with ⟨more, hmore⟩
  have hschedule := PhasePlan.targeting_schedule_ofOperations .structural ops p
  rw [hsplit, targeting_append, ← hmore, htargeting, List.append_assoc,
    List.append_cancel_left_eq] at hschedule
  refine ⟨fun other hother htarget hprepare => ?_, fun other hother htarget => ?_⟩
  · rw [hops] at hother
    have hfirst : other ∈ preparations := by
      refine (List.mem_append.1 hother).resolve_right fun hlate => ?_
      rw [Action.prepares_eq_false (hcompletes other hlate)] at hprepare
      cases hprepare
    have hbefore : other ∈ targeting before p :=
      hmore ▸ List.mem_append_left _ (mem_targeting.2 ⟨hfirst, htarget⟩)
    exact (mem_targeting.1 hbefore).1
  · have hlate : other ∈ targeting completions p :=
      hschedule ▸ List.mem_append_right _ (mem_targeting.2 ⟨hother, htarget⟩)
    exact hcompletes other (mem_targeting.1 hlate).1

/-- A location is not prepared any more once it is completed. -/
theorem completes_of_later (h : Proposes options draft Phase.structural.planners ops)
    {before after : List Operation} {op : Operation}
    (hsplit : (PhasePlan.ofOperations .structural ops).schedule = before ++ op :: after)
    (hop : op.action.completes = true) :
    ∀ other ∈ after, other.target = op.target → other.action.completes = true := by
  rcases exists_preparations h with
    ⟨preparations, completions, hops, hprepares, hcompletes⟩
  have hschedule := PhasePlan.targeting_schedule_ofOperations .structural ops op.target
  rw [hsplit, hops, targeting_append, targeting_append, targeting_cons_self] at hschedule
  intro other hother htarget
  have hother := mem_targeting.2 ⟨hother, htarget⟩
  rcases List.append_eq_append_iff.1 hschedule with ⟨between, hearly, hlate⟩ | ⟨between, -, hlate⟩
  · cases between with
    | nil =>
      rw [List.nil_append] at hlate
      have hmem : other ∈ targeting completions op.target :=
        hlate ▸ List.mem_cons_of_mem op hother
      exact hcompletes other (mem_targeting.1 hmem).1
    | cons first rest =>
      -- Otherwise the operation would be one of the preparations.
      rcases List.cons.inj hlate with ⟨rfl, -⟩
      have hmem : op ∈ targeting preparations op.target := hearly ▸ by simp
      have hprepare := hprepares op (mem_targeting.1 hmem).1
      rw [Action.prepares_eq_false hop] at hprepare
      cases hprepare
  · have hmem : other ∈ targeting completions op.target :=
      hlate ▸ List.mem_append_right _ (List.mem_cons_of_mem op hother)
    exact hcompletes other (mem_targeting.1 hmem).1

/-- What is read outside of core is there from the start. -/
theorem contains_of_extension (h : Proposes options draft Phase.structural.planners ops)
    (hfiles : draft.repository.Hosted) {op : Operation} (hop : op ∈ ops) {l : Location}
    (hl : l ∈ op.prerequisites) (hout : l.isCore = false) : draft.contains l = true := by
  by_contra hthere
  rcases List.append_of_mem hop with ⟨before, after, hsplit⟩
  rcases (h.supplies (fun _ hmem => hmem) hfiles hsplit).sources l hl with
    hknown | ⟨earlier, hmem, htarget⟩
  · exact hthere hknown
  · cases hfirst : targeting ops l with
    | nil => exact targeting_eq_nil_iff.1 hfirst earlier (by simp [hsplit, hmem]) htarget
    | cons first rest =>
      have hcreates := createsTarget_of_targeting h hfiles (Bool.eq_false_iff.2 hthere) hfirst
      rcases mem_targeting.1 (hfirst ▸ List.mem_cons_self) with ⟨hfirst, heq⟩
      have hcore := (exists_copy_of_createsTarget h hfirst hcreates).1
      rw [heq, hout] at hcore
      cases hcore

/-- Whatever profile is read has been authored. -/
theorem contains_of_profile (h : Proposes options draft Phase.structural.planners ops)
    (hfiles : draft.repository.Hosted) {op : Operation} (hop : op ∈ ops) {l : Location}
    (hl : l ∈ op.prerequisites) (hkind : l.kind = .profile) : draft.contains l = true := by
  cases hcore : l.isCore with
  | false => exact contains_of_extension h hfiles hop hl hcore
  | true =>
    by_contra hthere
    have hrecord := kind_mem_records_of_missing h hfiles hop hl (Bool.eq_false_iff.2 hthere) hcore
    rw [hkind] at hrecord
    exact absurd hrecord (by decide)

/-- A patch comes from outside of core, and goes to its counterpart there. -/
theorem core_eq_of_mergeExtension (h : Proposes options draft Phase.structural.planners ops)
    {target source : Location} (hop : ⟨target, .mergeExtension source⟩ ∈ ops) :
    source.core = target ∧ source.isCore = false := by
  rcases h.exists_analyze hop with ⟨planner, -, seen, here, hanalyze, hmem, -⟩
  have haction := (Planner.emits_of_mem hanalyze hmem).action
  cases planner with
  | extension =>
    cases hanalyze
    refine ⟨?_, haction⟩
    rcases List.mem_filterMap.1 hmem with ⟨l, -, hbind⟩
    rcases Option.bind_eq_some_iff.1 hbind with ⟨directory, -, hbind⟩
    rcases Option.bind_eq_some_iff.1 hbind with ⟨declared, -, hbind⟩
    rcases Option.ite_none_right_eq_some.1 hbind with ⟨-, heq⟩
    have heq := Option.some.inj heq
    unfold Planner.applyExtension at heq
    split at heq
    · cases heq
      rfl
    · cases heq
  | _ => exact haction.elim

/-- What is planned for a profile prepares it or includes something. -/
theorem includes_or_prepares (h : Proposes options draft Phase.structural.planners ops)
    {op : Operation} (hop : op ∈ ops) (hkind : op.target.kind = .profile) :
    op.action.includes = true ∨ op.action.prepares = true := by
  rcases h.exists_emits hop with ⟨planner, hplanner, hemits⟩
  have haction := hemits.action
  have hkinds := hemits.kind
  rw [hkind] at hkinds
  simp only [Phase.planners, List.mem_cons, List.not_mem_nil, or_false] at hplanner
  rcases hplanner with rfl | rfl | rfl | rfl | rfl | rfl
  case inr.inr.inr.inr.inl | inr.inr.inr.inr.inr => exact absurd hkinds (by decide)
  all_goals cases hcase : op.action <;> rw [hcase] at haction <;>
    first | exact haction.elim | exact Or.inr rfl | exact Or.inl rfl

/-- Includes are planned in core. -/
theorem isCore_of_includes (h : Proposes options draft Phase.structural.planners ops)
    {op : Operation} (hop : op ∈ ops) (hincludes : op.action.includes = true) :
    op.target.isCore = true := by
  rcases h.exists_emits hop with ⟨planner, -, hemits⟩
  have haction := hemits.action
  cases hcase : op.action <;> rw [hcase] at haction hincludes <;> cases hincludes
  cases planner with
  | includes => exact hemits.core rfl
  | _ => exact haction.elim

end Structural

/-! ## Tags before includes -/

section Authored

variable {repository : Repository} {options : Options} {ops : List Operation}

/-- The structural phase begins with the tags of profiles. -/
theorem mem_tagProfiles_iff
    (h : Proposes options (.ofRepository repository) Phase.structural.planners ops)
    {op : Operation} {profile : String} (haction : op.action = .tagProfile profile) :
    op ∈ ops ↔ op ∈ Planner.tagProfiles (.ofRepository repository) := by
  have hplanners : Phase.structural.planners =
      [.profileTag] ++ [.annotations, .extension, .includes, .profileRemove, .inheritance] := rfl
  rw [hplanners] at h
  rcases h.exists_of_append with ⟨tags, others, rfl, htags, hothers⟩
  cases htags with
  | cons hhere hnothing =>
    cases hhere
    cases hnothing
    rw [List.append_nil, List.mem_append, or_iff_left]
    intro hmem
    rcases hothers.exists_emits hmem with ⟨planner, hplanner, hemits⟩
    have hacts := hemits.action
    rw [haction] at hacts
    simp only [List.mem_cons, List.not_mem_nil, or_false] at hplanner
    rcases hplanner with rfl | rfl | rfl | rfl | rfl <;> exact hacts

/-- The tag that a profile puts on attributes is the name of its location. -/
theorem eq_name_of_tagProfile (hr : repository.Reachable)
    (h : Proposes options (.ofRepository repository) Phase.structural.planners ops)
    {l : Location} {profile : String} (hop : ⟨l, .tagProfile profile⟩ ∈ ops) :
    profile = l.name := by
  rcases List.mem_filterMap.1 ((mem_tagProfiles_iff h rfl).1 hop) with ⟨⟨k, d⟩, hmem, hsome⟩
  rcases List.mem_filter.1 hmem with ⟨hmem, hkind⟩
  rcases Option.ite_none_right_eq_some.1 hsome with ⟨-, heq⟩
  cases heq
  have hget := Draft.mem_toList_definitions.1 hmem
  rw [Draft.get?_ofRepository] at hget
  exact hr.profileName_eq hget (by simpa using hkind)

/-- A profile that no tag is planned for has it on all attributes. -/
theorem taggedBut_of_no_tagProfile (hr : repository.Reachable)
    (h : Proposes options (.ofRepository repository) Phase.structural.planners ops)
    {l : Location} (hkind : l.kind = .profile) {d : Definition} (hd : repository.get? l = some d)
    (hnone : ∀ profile, ⟨l, .tagProfile profile⟩ ∉ ops) (exempt : String → Prop) :
    d.TaggedBut l.name exempt := by
  intro name body hbody
  refine Or.inr (by_contra fun hmissing => hnone l.name ((mem_tagProfiles_iff h rfl).2 ?_))
  have hget : (Draft.ofRepository repository).get? l = some d := by
    rw [Draft.get?_ofRepository, hd]
  refine List.mem_filterMap.2 ⟨(l, d), List.mem_filter.2
    ⟨Draft.mem_toList_definitions.2 hget, by simp [hkind]⟩, ?_⟩
  have hany : (d.attributes.any fun a => !(Definition.profileTags a.2).contains l.name) = true :=
    List.any_eq_true.2 ⟨_, Definition.mem_attributes_of_attribute? hbody, by simpa using hmissing⟩
  simp only [hr.profileName_eq hd hkind, hany, if_true]

end Authored

end Compilation

end EventSchema
