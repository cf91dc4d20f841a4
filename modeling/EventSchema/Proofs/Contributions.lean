import EventSchema.Proofs.ProfileRemoval
import EventSchema.Proofs.WellFormedRuns

/-!
# What extensions contribute

A definition of an applied extension is brought to one location in core.  Whether it patches what is
there or is copied is decided before any extension is applied.  A patch keeps every value that is
there and adds its own, so what has been contributed stays until a copy replaces it.

Main results:

- {lit}`Fields.hasValue_merge_left`: a merge keeps what has a value.
- {lit}`Operation.landed_run`: what an operation of an extension makes of its target is there
  afterwards, whether it is written or has been there before.
- {lit}`Compilation.extension_contributions_are_kept`: a contribution is there after all extensions
  have been applied, unless it is replaced by a copy.
-/

namespace EventSchema

open Std

namespace Fields

/-! ## Values under merges -/

/-- A field that has a value keeps one when another is merged. -/
theorem hasValue_mergeField_left (overwrite : Bool) {left : Fields} {other : String}
    (h : HasValue left other) (key : String) (right : Json) :
    HasValue (Fields.mergeField overwrite left key right).1 other := by
  by_cases hkey : other = key
  · subst hkey
    obtain ⟨existing, hexisting, hnull⟩ := h
    have hfilter : (Fields.get? left other).filter (fun value => !value.isNull) = some existing := by
      simp [hexisting, hnull]
    unfold HasValue
    rw [get?_mergeField_self, hfilter]
    by_cases hright : right.isNull = true
    · exact ⟨existing, by rw [if_pos hright, hexisting], hnull⟩
    rw [if_neg hright]
    by_cases hprofile : other = profileKey
    · refine ⟨_, if_pos hprofile, ?_⟩
      cases hjoin : Json.joinTags? existing right with
      | none => exact hnull
      | some tags => exact Json.isNull_of_joinTags? hjoin
    · exact ⟨_, if_neg hprofile, Json.isNull_merge hnull (Bool.eq_false_iff.2 hright)⟩
  · unfold HasValue
    rwa [get?_mergeField_of_ne overwrite left right hkey]

/-- A merge keeps what has a value. -/
theorem hasValue_merge_left (overwrite : Bool) {left : Fields} {key : String}
    (h : HasValue left key) (right : Fields) :
    HasValue (Fields.merge overwrite left right).1 key := by
  induction right generalizing left with
  | nil => rwa [merge_nil]
  | cons e rest ih =>
    rw [merge_cons]
    exact ih (hasValue_mergeField_left overwrite h e.1 e.2)

end Fields

namespace Definition

/-- A field has a value if the source has one and the rule admits it. -/
theorem hasValue_merge_right (d : Definition) {source : Definition} (h : source.WellFormed)
    (rule : MergeRule) {key : String} (hadmits : rule.admits key = true)
    (hkey : Fields.HasValue source.fields key) :
    Fields.HasValue (d.merge rule source).definition.fields key := by
  apply Fields.hasValue_merge rule.overwrite d.fields (Json.wellFormed_filter h _)
  unfold Fields.HasValue
  rwa [Fields.get?_filter_keys rule.admits source.fields hadmits]

/-- A merge leaves under a key what merging the value of the source there leaves, if it is admitted
and there is one. -/
theorem get?_merge (d : Definition) {source : Definition} (h : source.Distinct) (rule : MergeRule)
    (key : String) :
    Fields.get? (d.merge rule source).definition.fields key =
      match (Fields.get? source.fields key).filter fun _ => rule.admits key with
      | none => Fields.get? d.fields key
      | some value => Fields.get? (Fields.mergeField rule.overwrite d.fields key value).1 key := by
  unfold merge MergeRule.apply
  have hdistinct : (Fields.keys (source.fields.filter fun e => rule.admits e.1)).Nodup :=
    h.sublist (List.Sublist.map _ List.filter_sublist)
  cases hadmits : rule.admits key with
  | true =>
    have hkept := Fields.get?_filter_keys rule.admits source.fields hadmits
    cases hget : Fields.get? source.fields key with
    | none =>
      rw [hget] at hkept
      exact Fields.get?_merge_of_not_mem _ _ (Fields.get?_eq_none_iff.1 hkept)
    | some value =>
      rw [hget] at hkept
      rw [Option.filter_some, if_pos rfl]
      exact Fields.get?_merge_of_get? rule.overwrite d.fields hdistinct hkept
  | false =>
    have hnew : key ∉ Fields.keys (source.fields.filter fun e => rule.admits e.1) := by
      intro hmem
      obtain ⟨e, he, rfl⟩ := List.mem_map.1 hmem
      rw [(List.mem_filter.1 he).2] at hadmits
      cases hadmits
    cases Fields.get? source.fields key <;>
      simpa using Fields.get?_merge_of_not_mem rule.overwrite d.fields hnew

/-- A merge keeps the attributes if those of the source are an object as well. -/
theorem HasAttribute.merge_left {d source : Definition} {name : String} (h : d.HasAttribute name)
    (hsource : source.Distinct) (hplain : source.HasPlainAttributes) (rule : MergeRule) :
    (d.merge rule source).definition.HasAttribute name := by
  obtain ⟨attributes, hattributes, hname⟩ := h
  have hleft := fields_get?_of_attributes? hattributes
  have hget := d.get?_merge hsource rule attributesKey
  cases hright : (Fields.get? source.fields attributesKey).filter
      fun _ => rule.admits attributesKey with
  | none =>
    rw [hright] at hget
    exact ⟨attributes, attributes?_eq_some_iff.2 (hget.trans hleft), hname⟩
  | some value =>
    rw [hright] at hget
    dsimp only at hget
    rw [Fields.get?_mergeField_self] at hget
    by_cases hnull : value.isNull = true
    · rw [if_pos hnull] at hget
      exact ⟨attributes, attributes?_eq_some_iff.2 (hget.trans hleft), hname⟩
    have hvalue := (Option.filter_eq_some_iff.1 hright).1
    obtain ⟨patch, hpatch⟩ : ∃ patch, value = .obj patch := by
      rcases hplain with hnone | ⟨patch, hpatch⟩
      · simp [Definition.get?, hvalue, hnull] at hnone
      · have hsame := hvalue.symm.trans (fields_get?_of_attributes? hpatch)
        exact ⟨patch, Option.some.inj hsame⟩
    subst hpatch
    rw [if_neg hnull, hleft, Option.filter_some,
      if_pos (show (!Json.isNull (.obj attributes)) = true from rfl)] at hget
    dsimp only at hget
    rw [if_neg (by decide), Json.merge] at hget
    exact ⟨_, attributes?_eq_some_iff.2 hget, Fields.hasValue_merge_left _ hname patch⟩

/-- A merge that overwrites takes over the attributes of the source. -/
theorem HasAttribute.merge_right {source : Definition} {name : String}
    (h : source.HasAttribute name) (hsource : source.WellFormed) (d : Definition)
    {rule : MergeRule} (hoverwrite : rule.overwrite = true)
    (hadmits : rule.admits attributesKey = true) :
    (d.merge rule source).definition.HasAttribute name := by
  obtain ⟨patch, hpatch, hname⟩ := h
  have hget := d.get?_merge hsource.distinct rule attributesKey
  rw [fields_get?_of_attributes? hpatch, hadmits, hoverwrite] at hget
  rw [Option.filter_some, if_pos rfl] at hget
  dsimp only at hget
  rw [Fields.get?_mergeField_self, if_neg (show ¬ Json.isNull (.obj patch) = true from nofun)]
    at hget
  have hwellFormed : (Json.obj patch).WellFormed := hsource.obj?_get? hpatch
  cases hleft : (Fields.get? d.fields attributesKey).filter fun value => !value.isNull with
  | none =>
    rw [hleft] at hget
    exact ⟨patch, attributes?_eq_some_iff.2 hget, hname⟩
  | some existing =>
    rw [hleft] at hget
    dsimp only at hget
    rw [if_neg (by decide)] at hget
    cases existing with
    | obj attributes =>
      rw [Json.merge] at hget
      refine ⟨_, attributes?_eq_some_iff.2 hget, ?_⟩
      exact Fields.hasValue_merge true attributes hwellFormed hname
    | _ => exact ⟨patch, attributes?_eq_some_iff.2 hget, hname⟩

/-! ## Values of a definition that is there already -/

/-- Whatever a definition has, another one has the same. -/
def Carries (d other : Definition) : Prop :=
  ∀ key value, Fields.get? other.fields key = some value →
    ∃ mine, Fields.get? d.fields key = some mine ∧ mine.same value = true

/-- A definition carries its own fields. -/
theorem carries_self {d : Definition} (h : d.WellFormed) : d.Carries d := by
  intro key value hvalue
  refine ⟨value, hvalue, Json.same_self ?_⟩
  exact (Json.wellFormed_obj_iff.1 h).2 _ (Fields.mem_of_get?_eq_some hvalue)

/-- A definition carries the fields of one that is the same. -/
theorem carries_of_same {d other : Definition} (hd : d.Distinct) (h : d.same other = true) :
    d.Carries other :=
  fun _ _ hvalue => exists_get?_of_same hd h hvalue

/-- A definition carries the fields of one from which no key differs. -/
theorem carries_of_differingKeys {d other : Definition} (h : d.differingKeys other = []) :
    d.Carries other := by
  intro key value hvalue
  rw [differingKeys, List.map_eq_nil_iff, List.filter_eq_nil_iff] at h
  have hkey := h _ (Fields.mem_of_get?_eq_some hvalue)
  dsimp only at hkey
  split at hkey
  · rename_i mine hmine
    have hsame : (mine == value) = true := by simpa [bne] using hkey
    exact ⟨mine, hmine, hsame⟩
  · exact absurd rfl hkey

/-- Values that are carried are there. -/
theorem Carries.hasValue {d other : Definition} (h : d.Carries other) {key : String}
    (hkey : Fields.HasValue other.fields key) : Fields.HasValue d.fields key := by
  obtain ⟨value, hvalue, hnull⟩ := hkey
  obtain ⟨mine, hmine, hsame⟩ := h key value hvalue
  exact ⟨mine, hmine, (isNull_of_same hsame).trans hnull⟩

/-- Attributes that are carried are there. -/
theorem Carries.hasAttribute {d other : Definition} (h : d.Carries other) (hd : d.WellFormed)
    {name : String} (hname : other.HasAttribute name) : d.HasAttribute name := by
  obtain ⟨attributes, hattributes, hname⟩ := hname
  obtain ⟨mine, hmine, hsame⟩ := h _ _ (fields_get?_of_attributes? hattributes)
  cases mine with
  | obj body =>
    have hbody := attributes?_eq_some_iff.2 hmine
    have hdistinct : (⟨body⟩ : Definition).Distinct :=
      (Json.wellFormed_obj_iff.1 (hd.obj?_get? hbody)).1
    have hinner : (⟨body⟩ : Definition).Carries ⟨attributes⟩ := carries_of_same hdistinct hsame
    exact ⟨body, hbody, hinner.hasValue hname⟩
  | _ => cases hsame

/-! ## Patches and copies -/

/-- A patch that names the patched record itself as its parent. -/
def Marks (patch d : Definition) : Prop :=
  ∃ name, patch.parentName? = some name ∧ d.name? = some name

/-- A patch brings all fields, except a parent that only marks its target. -/
theorem admits_mergeExtension {d patch : Definition} {key : String}
    (h : key = parentKey → ¬ patch.Marks d) :
    (MergeRule.patch.ignoring
      (if patch.parentName?.isSome && patch.parentName? == d.name? then [parentKey] else [])).admits
        key = true := by
  unfold MergeRule.admits MergeRule.ignoring MergeRule.patch
  split
  · rename_i hmarker
    rw [Bool.and_eq_true, beq_iff_eq, Option.isSome_iff_exists] at hmarker
    obtain ⟨⟨name, hname⟩, heq⟩ := hmarker
    have hne : key ≠ parentKey := fun hkey => h hkey ⟨name, hname, heq ▸ hname⟩
    simp [hne]
  · simp

/-- A patch keeps what has a value and adds its own values. -/
theorem hasValue_mergeExtension {d patch : Definition} (hpatch : patch.WellFormed) {key : String}
    (h : Fields.HasValue d.fields key ∨
      Fields.HasValue patch.fields key ∧ (key = parentKey → ¬ patch.Marks d)) :
    Fields.HasValue (d.mergeExtension patch).definition.fields key := by
  rcases h with hkey | ⟨hkey, hmarker⟩
  · exact Fields.hasValue_merge_left _ hkey _
  · exact d.hasValue_merge_right hpatch _ (admits_mergeExtension hmarker) hkey

/-- A patch leaves the attributes that are there. -/
theorem HasAttribute.mergeExtension_left {d : Definition} {name : String}
    (h : d.HasAttribute name) {patch : Definition} (hpatch : patch.Distinct)
    (hplain : patch.HasPlainAttributes) :
    (d.mergeExtension patch).definition.HasAttribute name :=
  h.merge_left hpatch hplain _

/-- A patch brings its attributes. -/
theorem HasAttribute.mergeExtension_right {patch : Definition} {name : String}
    (h : patch.HasAttribute name) (hpatch : patch.WellFormed) (d : Definition) :
    (d.mergeExtension patch).definition.HasAttribute name :=
  h.merge_right hpatch d rfl (admits_mergeExtension fun hkey => absurd hkey (by decide))

/-- A field keeps a value when a value is set. -/
theorem hasValue_set {d : Definition} {key other : String} {value : Json}
    (hvalue : value.isNull = false) (h : Fields.HasValue d.fields key) :
    Fields.HasValue (d.set other value).fields key := by
  unfold Fields.HasValue set
  by_cases hkey : key = other
  · subst hkey
    exact ⟨value, Fields.get?_set_self d.fields key value, hvalue⟩
  · rwa [Fields.get?_set_of_ne d.fields value hkey]

/-- Attributes stay when another field is set. -/
theorem hasAttribute_set {d : Definition} {name other : String} (value : Json)
    (hother : attributesKey ≠ other) (h : d.HasAttribute name) :
    (d.set other value).HasAttribute name := by
  obtain ⟨attributes, hattributes, hname⟩ := h
  refine ⟨attributes, ?_, hname⟩
  rwa [attributes?, get?_set_of_ne d value hother]

/-- A copy has all values of what it is a copy of. -/
theorem hasValue_copyExtension {source : Definition} {field : String}
    (h : Fields.HasValue source.fields field) (d : Definition) (extension : String)
    (key : Option String) :
    Fields.HasValue (d.copyExtension source extension key).definition.fields field := by
  have hmarked : Fields.HasValue (source.set sourceExtensionKey (.str extension)).fields field :=
    hasValue_set rfl h
  cases key with
  | none => exact hmarked
  | some key => exact hasValue_set rfl hmarked

/-- A copy has the attributes of its source. -/
theorem HasAttribute.copyExtension {source : Definition} {name : String}
    (h : source.HasAttribute name) (d : Definition) (extension : String) (key : Option String) :
    (d.copyExtension source extension key).definition.HasAttribute name := by
  have hmarked := hasAttribute_set (.str extension)
    (show attributesKey ≠ sourceExtensionKey by decide) h
  cases key with
  | none => exact hmarked
  | some key => exact hasAttribute_set _ (by decide) hmarked

end Definition

namespace Operation

/-! ## One operation -/

/-- Where the edit of an operation of an extension reports no change, what it makes of the target
is there. -/
theorem carries_of_changes_eq_nil {op : Operation} (hop : op.action.lineage?.isSome = true)
    {draft : Draft} {options : Options} {d : Definition} (hd : d.WellFormed) {revision : Revision}
    (h : op.edit draft options d = .ok revision) (hchanges : revision.changes = []) :
    d.Carries revision.definition := by
  rcases op with ⟨target, action⟩
  cases action with
  | mergeExtension l =>
    obtain ⟨source, -, rfl⟩ := exists_of_map_source h
    have hfields : (d.mergeExtension source).definition.fields = d.fields :=
      Fields.merge_fst_of_changes true hchanges
    have hsame : (d.mergeExtension source).definition = d := congrArg Definition.mk hfields
    rw [hsame]
    exact Definition.carries_self hd
  | copyExtension l extension key =>
    obtain ⟨source, -, rfl⟩ := exists_of_map_source h
    exact Definition.carries_of_differingKeys hchanges
  | _ => cases hop

/-- What an operation of an extension makes of its target is there afterwards, whether it is written
or has been there before. -/
theorem landed_run {op : Operation} (hop : op.action.lineage?.isSome = true) {draft : Draft}
    (hdraft : draft.WellFormed) {options : Options}
    (h : (op.outcome draft options).isFailed = false) :
    ∃ revision after, op.edit draft options ((draft.get? op.target).getD default) = .ok revision ∧
      (op.run draft options).get? op.target = some after ∧ after.Carries revision.definition := by
  rcases op.outcome_cases draft options with
    ⟨cause, hout⟩ | ⟨-, revision, hedit, hout | ⟨hout, d, hd, hsame⟩⟩
  · rw [hout] at h
    cases h
  · have hget : (op.run draft options).get? op.target = some revision.definition := by
      rw [op.get?_run_target, hout]
    refine ⟨revision, _, hedit, hget, Definition.carries_self ?_⟩
    exact hdraft.run op options _ _ hget
  · have hget : (op.run draft options).get? op.target = some d := by
      rw [op.get?_run_target, hout]
      exact hd
    refine ⟨revision, d, hedit, hget, ?_⟩
    rw [hd, Option.getD_some] at hedit
    rcases hsame with hchanges | hsame
    · exact carries_of_changes_eq_nil hop (hdraft _ _ hd) hedit hchanges
    · exact Definition.carries_of_same (hdraft _ _ hd).distinct hsame

/-- An operation patches a record with a definition that names that record as its parent. -/
def PatchesParent (op : Operation) (draft : Draft) (d : Definition) : Prop :=
  op.action.createsTarget = false ∧ ∃ patched, draft.get? op.target = some patched ∧ d.Marks patched

/-- What a definition has contributed to another one: its values, but for the name of the patched
record, and its attributes. -/
structure Contributed (op : Operation) (draft : Draft) (d held : Definition) : Prop where
  values : ∀ key, Fields.HasValue d.fields key →
    (key = Definition.parentKey → ¬ op.PatchesParent draft d) → Fields.HasValue held.fields key
  attributes : ∀ name, d.HasAttribute name → held.HasAttribute name

/-- An operation of an extension brings what it reads to its target. -/
theorem contributed_run {op : Operation} {l : Location} (hop : op.action.lineage? = some l)
    {draft : Draft} (hdraft : draft.WellFormed) {options : Options}
    (h : (op.outcome draft options).isFailed = false) {d : Definition}
    (hd : draft.get? l = some d) (hthere : draft.Grounds op) :
    ∃ held, (op.run draft options).get? op.target = some held ∧ op.Contributed draft d held := by
  obtain ⟨revision, held, hedit, hget, hcarries⟩ := landed_run (by simp [hop]) hdraft h
  have hheld := hdraft.run op options _ _ hget
  refine ⟨held, hget, ?_⟩
  rcases op with ⟨target, action⟩
  cases action with
  | mergeExtension source =>
    cases hop
    obtain ⟨found, hfound, rfl⟩ := exists_of_map_source hedit
    cases hd.symm.trans hfound
    have htarget : draft.contains target = true := hthere.target.resolve_left nofun
    obtain ⟨patched, hpatched⟩ := Option.isSome_iff_exists.1 htarget
    dsimp only at hcarries
    rw [hpatched, Option.getD_some] at hcarries
    constructor
    · intro key hkey hparent
      refine hcarries.hasValue (Definition.hasValue_mergeExtension (hdraft _ _ hd) (.inr ⟨hkey, ?_⟩))
      exact fun heq hmarks => hparent heq ⟨rfl, patched, hpatched, hmarks⟩
    · intro name hname
      exact hcarries.hasAttribute hheld (hname.mergeExtension_right (hdraft _ _ hd) patched)
  | copyExtension source extension key =>
    cases hop
    obtain ⟨found, hfound, rfl⟩ := exists_of_map_source hedit
    cases hd.symm.trans hfound
    constructor
    · intro field hfield _
      exact hcarries.hasValue (Definition.hasValue_copyExtension hfield _ extension key)
    · intro name hname
      exact hcarries.hasAttribute hheld (hname.copyExtension _ extension key)
  | _ => cases hop

/-- A patch keeps what is at its target; it keeps the attributes unless it replaces all of them. -/
theorem kept_run {op : Operation} (hop : op.action.lineage?.isSome = true)
    (hpatch : op.action.createsTarget = false) {draft : Draft} (hdraft : draft.WellFormed)
    {options : Options} (h : (op.outcome draft options).isFailed = false) {held : Definition}
    (hheld : draft.get? op.target = some held) :
    ∃ after, (op.run draft options).get? op.target = some after ∧
      (∀ key, Fields.HasValue held.fields key → Fields.HasValue after.fields key) ∧
      ((∀ p ∈ op.prerequisites, draft.HasPlainAttributes p) →
        ∀ name, held.HasAttribute name → after.HasAttribute name) := by
  obtain ⟨revision, after, hedit, hget, hcarries⟩ := landed_run hop hdraft h
  have hafter := hdraft.run op options _ _ hget
  rw [hheld, Option.getD_some] at hedit
  rcases op with ⟨target, action⟩
  cases action with
  | mergeExtension source =>
    obtain ⟨patch, hsource, rfl⟩ := exists_of_map_source hedit
    have hwellFormed := hdraft _ _ hsource
    refine ⟨after, hget, fun key hkey => ?_, fun hplain name hname => ?_⟩
    · exact hcarries.hasValue (Definition.hasValue_mergeExtension hwellFormed (.inl hkey))
    · have hpatch := hplain source List.mem_cons_self patch hsource
      exact hcarries.hasAttribute hafter (hname.mergeExtension_left hwellFormed.distinct hpatch)
  | copyExtension source extension key => cases hpatch
  | _ => cases hop

end Operation

namespace Planner

open Operation

variable {draft : Draft} {options : Options}

/-- What extensions bring comes from one of their locations. -/
theorem exists_lineage?_of_applyExtensions {op : Operation}
    (h : op ∈ applyExtensions draft options) :
    ∃ l, op.action.lineage? = some l ∧ op.action.source? = some l ∧ l.isCore = false := by
  have haction := (emits_applyExtensions h).action
  cases hcase : op.action <;> rw [hcase] at haction <;>
    first
      | exact ⟨_, rfl, rfl, haction⟩
      | exact haction.elim

theorem extension_mem_structural : extension ∈ Phase.structural.planners := by decide

/-- Extensions are applied without failures. -/
theorem established_applyExtensions (hdraft : draft.Intact) {before after : List Operation}
    (h : applyExtensions draft options = before ++ after) :
    Established (runAll options draft before) before :=
  established_of_grounds hdraft options
    (fun _ hop => isTotal_of_emits extension_mem_structural (emits_applyExtensions hop))
    (fun _ hop => (grounds_applyExtensions hop).1) h

/-- Applying extensions changes nothing outside of core. -/
theorem sameAt_applyExtensions {before after : List Operation}
    (h : applyExtensions draft options = before ++ after) {l : Location} (hl : l.isCore = false) :
    (runAll options draft before).SameAt draft l := by
  refine sameAt_runAll_of_forall_ne options (fun op hop htarget => ?_) draft
  have hmem : op ∈ applyExtensions draft options := h ▸ List.mem_append_left after hop
  have hcore := (emits_applyExtensions hmem).core rfl
  rw [htarget, hl] at hcore
  cases hcore

/-- When it comes to an operation of an extension, everything is in place. -/
theorem succeeds_applyExtensions (hdraft : draft.Intact) {before after : List Operation}
    {op : Operation} (h : applyExtensions draft options = before ++ op :: after) :
    (runAll options draft before).Grounds op ∧
      (op.outcome (runAll options draft before) options).isFailed = false := by
  have hop : op ∈ applyExtensions draft options := by simp [h]
  have hestablished := established_applyExtensions hdraft h
  have hthere := grounds_of_supplies hestablished ((grounds_applyExtensions hop).1.supplies before)
  refine ⟨hthere, isFailed_outcome_of_grounds ?_ hestablished.intact hthere options⟩
  exact isTotal_of_emits extension_mem_structural (emits_applyExtensions hop)

/-- What has been contributed to a location stays there until a copy replaces it. -/
theorem contributed_applyExtensions (hdraft : draft.WellFormed) (hintact : draft.Intact)
    {before after rest : List Operation} {op : Operation}
    (h : applyExtensions draft options = before ++ op :: (after ++ rest)) {l : Location}
    (hop : op.action.lineage? = some l) {d : Definition} (hd : draft.get? l = some d)
    (hpatches : ∀ later ∈ after, later.target = op.target → later.action.createsTarget = false) :
    ∃ held, (runAll options draft (before ++ op :: after)).get? op.target = some held ∧
      (∀ key, Fields.HasValue d.fields key → (key = Definition.parentKey →
        ¬ op.PatchesParent (runAll options draft before) d) → Fields.HasValue held.fields key) ∧
      ((∀ later ∈ after, later.target = op.target →
        ∀ p ∈ later.prerequisites, draft.HasPlainAttributes p) →
        ∀ name, d.HasAttribute name → held.HasAttribute name) := by
  induction after using List.reverseRecOn generalizing rest with
  | nil =>
    obtain ⟨hthere, hsucceeds⟩ := succeeds_applyExtensions hintact h
    have hmem : op ∈ applyExtensions draft options := by simp [h]
    obtain ⟨l', hl', -, hcore⟩ := exists_lineage?_of_applyExtensions hmem
    cases hop.symm.trans hl'
    have hsource := (sameAt_applyExtensions h hcore).definition.trans hd
    obtain ⟨held, hheld, hcontributed⟩ := contributed_run hop (hdraft.runAll options before)
      hsucceeds hsource hthere
    rw [runAll_append, runAll_cons, runAll_nil]
    exact ⟨held, hheld, hcontributed.values, fun _ => hcontributed.attributes⟩
  | append_singleton after later ih =>
    have hsplit : applyExtensions draft options =
        (before ++ op :: after) ++ later :: rest := by simpa using h
    have hmem : later ∈ applyExtensions draft options := by simp [hsplit]
    obtain ⟨held, hheld, hvalues, hattributes⟩ := ih (by simpa using hsplit)
      (fun other hother => hpatches other (List.mem_append_left _ hother))
    have hrun : runAll options draft (before ++ op :: (after ++ [later])) =
        later.run (runAll options draft (before ++ op :: after)) options := by
      rw [← List.cons_append, ← List.append_assoc, runAll_append, runAll_cons, runAll_nil]
    rw [hrun]
    by_cases htarget : later.target = op.target
    · obtain ⟨l', hl', hread, hcore⟩ := exists_lineage?_of_applyExtensions hmem
      obtain ⟨next, hnext, hkept, hkeptAttributes⟩ := kept_run (by simp [hl'])
        (hpatches later (by simp) htarget) (hdraft.runAll options _)
        (succeeds_applyExtensions hintact hsplit).2 (htarget ▸ hheld)
      refine ⟨next, htarget ▸ hnext, fun key hkey hparent => hkept key (hvalues key hkey hparent),
        fun hplain name hname => ?_⟩
      refine hkeptAttributes (fun p hp source hsource => ?_) name
        (hattributes (fun other hother => hplain other (List.mem_append_left _ hother)) name hname)
      have heq : p = l' := by
        rw [prerequisites, hread] at hp
        exact List.mem_singleton.1 hp
      rw [heq, (sameAt_applyExtensions hsplit hcore).definition] at hsource
      exact hplain later (by simp) htarget p hp source (heq ▸ hsource)
    · rw [later.run_get?_of_ne _ options htarget]
      exact ⟨held, hheld, hvalues, fun hplain =>
        hattributes fun other hother => hplain other (List.mem_append_left _ hother)⟩

/-- A location outside of core whose definition extensions bring to core. -/
structure Brings (draft : Draft) (options : Options) (l : Location) : Prop where
  kind : l.kind ∈ extensionKinds
  enabled : ∃ directory declared, l.extension = some directory ∧
    draft.declaredNames[directory]? = some declared ∧
    options.isExtensionEnabled directory (some declared) = true

/-- What an extension brings is brought by an operation. -/
theorem exists_operation_of_brings {l : Location} (h : Brings draft options l)
    (hl : draft.contains l = true) :
    ∃ op ∈ applyExtensions draft options, op.action.source? = some l := by
  obtain ⟨directory, declared, hdirectory, hdeclared, henabled⟩ := h.enabled
  have hlocation : l ∈ draft.locations := by
    rw [Draft.locations, ExtTreeMap.mem_keys, ExtTreeMap.mem_iff_isSome_getElem?,
      Draft.getElem?_definitions]
    exact hl
  refine ⟨applyExtension draft options declared l, List.mem_filterMap.2 ⟨l, ?_, ?_⟩, ?_⟩
  · exact List.mem_filter.2 ⟨hlocation, List.contains_iff_mem.2 h.kind⟩
  · simp [hdirectory, hdeclared, henabled]
  · unfold applyExtension
    split <;> rfl

end Planner

namespace Compilation

open Operation

/--
Each definition of an applied extension is brought to a location in core, and nothing fails on the
way.  Unless a later operation copies another definition over it, every value of the definition has
a counterpart there when all extensions have been applied; only the name of the patched record, if
it is given as that of the parent, is left out.  So has every attribute, as long as no later patch
has something else than an object in place of its attributes.
-/
theorem extension_contributions_are_kept {repository : Repository} (hr : repository.Reachable)
    {options : Options} {seen : Draft}
    (hseen : seenBy options (.ofRepository repository) .extension = .ok seen) :
    (runAll options seen (Planner.applyExtensions seen options)).Intact ∧
      ∀ l d, seen.get? l = some d → Planner.Brings seen options l →
        (∃ op ∈ Planner.applyExtensions seen options, op.action.source? = some l) ∧
        ∀ before op after, Planner.applyExtensions seen options = before ++ op :: after →
          op.action.source? = some l →
            op.target.isCore = true ∧
            ((∀ later ∈ after, later.target = op.target → later.action.createsTarget = false) →
              ∃ final, (runAll options seen (Planner.applyExtensions seen options)).get? op.target =
                  some final ∧
                (∀ key, Fields.HasValue d.fields key → (key = Definition.parentKey →
                  ¬ op.PatchesParent (runAll options seen before) d) →
                    Fields.HasValue final.fields key) ∧
                ((∀ later ∈ after, later.target = op.target →
                  ∀ p ∈ later.prerequisites, seen.HasPlainAttributes p) →
                    ∀ name, d.HasAttribute name → final.HasAttribute name)) := by
  obtain ⟨ops, hops, rfl⟩ := seenBy_eq_ok_iff.1 hseen
  have hplanners : ∀ planner ∈ Planner.all.takeWhile (· != .extension),
      planner ∈ Phase.structural.planners := by decide
  have hintact := intact_of_proposes hr hplanners hops
  have hwellFormed : (runAll options (.ofRepository repository) ops).WellFormed :=
    (Draft.wellFormed_ofRepository hr.sound).runAll options ops
  refine ⟨(Planner.established_applyExtensions hintact (List.append_nil _).symm).intact, ?_⟩
  intro l d hd hbrings
  refine ⟨Planner.exists_operation_of_brings hbrings (Draft.contains_of_get? hd), ?_⟩
  intro before op after hsplit hsource
  have hop : op ∈ Planner.applyExtensions (runAll options (.ofRepository repository) ops)
      options := by simp [hsplit]
  refine ⟨(Planner.emits_applyExtensions hop).core rfl, fun hpatches => ?_⟩
  obtain ⟨l', hlineage, hread, -⟩ := Planner.exists_lineage?_of_applyExtensions hop
  cases hsource.symm.trans hread
  have hkept := Planner.contributed_applyExtensions hwellFormed hintact
    (by rwa [List.append_nil]) hlineage hd hpatches
  rwa [← hsplit] at hkept

/-- What the planner of extensions sees of some files. -/
def seenByExtensions (files : List (Path × Json)) : Option Draft := do
  let repository ← (Repository.ofFiles files).toOption
  (seenBy {} (.ofRepository repository) .extension).toOption

theorem exists_of_seenByExtensions {α : Type} {files : List (Path × Json)} {view : Draft → α}
    {a : α} (h : (seenByExtensions files).map view = some a) :
    ∃ repository seen, Repository.ofFiles files = .ok repository ∧
      seenBy {} (.ofRepository repository) .extension = .ok seen ∧ view seen = a := by
  obtain ⟨seen, hseen, hview⟩ := Option.map_eq_some_iff.1 h
  simp only [seenByExtensions, Option.bind_eq_bind, Option.bind_eq_some_iff] at hseen
  obtain ⟨repository, hrepository, hseen⟩ := hseen
  exact ⟨repository, seen, eq_ok_of_toOption hrepository, eq_ok_of_toOption hseen, hview⟩

/-- All extensions applied. -/
def withExtensions (seen : Draft) : Draft :=
  runAll {} seen (Planner.applyExtensions seen {})

/-- Extensions bring a location to core. -/
def brings (l : Location) (seen : Draft) : Bool :=
  Planner.extensionKinds.contains l.kind &&
    l.extension.any fun directory => (seen.declaredNames[directory]?).any fun declared =>
      ({} : Options).isExtensionEnabled directory (some declared)

theorem brings_of_brings {l : Location} {seen : Draft} (h : brings l seen = true) :
    Planner.Brings seen {} l := by
  simp only [brings, Bool.and_eq_true, Option.any_eq_true, List.contains_iff_mem] at h
  obtain ⟨hkind, directory, hdirectory, declared, hdeclared, henabled⟩ := h
  exact ⟨hkind, directory, declared, hdirectory, hdeclared, henabled⟩

/-- No operation of an extension makes a copy, and all sources have plain attributes. -/
def patchesOnly (seen : Draft) : Bool :=
  (Planner.applyExtensions seen {}).all fun op => !op.action.createsTarget &&
    op.prerequisites.all fun p => decide (seen.HasPlainAttributes p)

/-- Two extensions that patch the same object. -/
def twoPatches : List (Path × Json) :=
  [(⟨"objects/x.json"⟩, .obj [("name", .str "x")]),
    (⟨"extensions/a/extension.json"⟩, .obj [("name", .str "a")]),
    (⟨"extensions/a/objects/x.json"⟩, .obj [("extends", .str "x"), ("caption", .str "X"),
      ("attributes", .obj [("p", .obj [])])]),
    (⟨"extensions/b/extension.json"⟩, .obj [("name", .str "b")]),
    (⟨"extensions/b/objects/x.json"⟩, .obj [("name", .str "x"), ("caption", .str "Y"),
      ("attributes", .obj [("q", .obj [])])])]

/-- What is seen of the first patch: it is brought to core, and it has a caption and an attribute. -/
def firstPatch (seen : Draft) : Bool × Bool × Bool :=
  (brings ⟨.object, "x", some "a"⟩ seen, patchesOnly seen,
    (seen.get? ⟨.object, "x", some "a"⟩).any fun d =>
      Fields.HasValue d.fields "caption" && d.HasAttribute "p")

theorem reachable_of_twoPatches {repository : Repository}
    (h : Repository.ofFiles twoPatches = .ok repository) : repository.Reachable := by
  refine Repository.Reachable.empty.insertFiles (fun file hfile => ?_) h
  simp only [twoPatches, List.mem_cons, List.not_mem_nil, or_false] at hfile
  rcases hfile with rfl | rfl | rfl | rfl | rfl <;> simp [Json.WellFormed, Json.WellFormedFields]

/-- What the first patch of an object contributes is there behind the second one. -/
theorem first_patch_is_kept :
    ∃ repository seen final, ∃ op ∈ Planner.applyExtensions seen {},
      Repository.ofFiles twoPatches = .ok repository ∧
      seenBy {} (.ofRepository repository) .extension = .ok seen ∧
      op.action.source? = some ⟨.object, "x", some "a"⟩ ∧
      (withExtensions seen).get? op.target = some final ∧
      Fields.HasValue final.fields "caption" ∧ final.HasAttribute "p" := by
  have hview : (seenByExtensions twoPatches).map firstPatch = some (true, true, true) := by
    decide +kernel
  obtain ⟨repository, seen, hfiles, hseen, hfirst⟩ := exists_of_seenByExtensions hview
  obtain ⟨hbrings, hfirst⟩ := Prod.mk.inj hfirst
  obtain ⟨hpatches, hpatch⟩ := Prod.mk.inj hfirst
  simp only [Option.any_eq_true, Bool.and_eq_true, decide_eq_true_eq] at hpatch
  obtain ⟨d, hd, hcaption, hattribute⟩ := hpatch
  simp only [patchesOnly, List.all_eq_true, Bool.and_eq_true, Bool.not_eq_true',
    decide_eq_true_eq] at hpatches
  obtain ⟨-, hkept⟩ := extension_contributions_are_kept (reachable_of_twoPatches hfiles) hseen
  obtain ⟨⟨op, hop, hsource⟩, hkept⟩ := hkept _ d hd (brings_of_brings hbrings)
  obtain ⟨before, after, hsplit⟩ := List.append_of_mem hop
  have hmem (later : Operation) (hlater : later ∈ after) :
      later ∈ Planner.applyExtensions seen {} := by simp [hsplit, hlater]
  obtain ⟨-, hkept⟩ := hkept before op after hsplit hsource
  obtain ⟨final, hfinal, hvalues, hattributes⟩ :=
    hkept fun later hlater _ => (hpatches later (hmem later hlater)).1
  exact ⟨repository, seen, final, op, hop, hfiles, hseen, hsource, hfinal,
    hvalues "caption" hcaption fun hkey => absurd hkey (by decide),
    hattributes (fun later hlater _ => (hpatches later (hmem later hlater)).2) "p" hattribute⟩

/-! ## What is lost -/

/-- Two extensions with an attribute of the same name in their dictionaries. -/
def sharedAttribute : List (Path × Json) :=
  [(⟨"extensions/a/extension.json"⟩, .obj [("name", .str "a")]),
    (⟨"extensions/a/dictionary.json"⟩,
      .obj [("attributes", .obj [("p", .obj [("caption", .str "P")])])]),
    (⟨"extensions/b/extension.json"⟩, .obj [("name", .str "b")]),
    (⟨"extensions/b/dictionary.json"⟩,
      .obj [("attributes", .obj [("p", .obj [("description", .str "D")])])])]

/-- Two extensions that patch the same object, the second one with a text for attributes. -/
def textForAttributes : List (Path × Json) :=
  [(⟨"objects/x.json"⟩, .obj [("name", .str "x")]),
    (⟨"extensions/a/extension.json"⟩, .obj [("name", .str "a")]),
    (⟨"extensions/a/objects/x.json"⟩,
      .obj [("name", .str "x"), ("attributes", .obj [("p", .obj [])])]),
    (⟨"extensions/b/extension.json"⟩, .obj [("name", .str "b")]),
    (⟨"extensions/b/objects/x.json"⟩,
      .obj [("name", .str "x"), ("attributes", .str "none")])]

/-- A location that extensions bring to core has something that its target lacks in the end. -/
def loses (has : Definition → Bool) (l : Location) (seen : Draft) : Bool :=
  brings l seen && (seen.get? l).any has &&
    (Planner.applyExtensions seen {}).any fun op => op.action.source? == some l &&
      !((withExtensions seen).get? op.target).any has

theorem exists_of_loses {has : Definition → Bool} {l : Location} {seen : Draft}
    (h : loses has l seen = true) :
    ∃ d, ∃ op ∈ Planner.applyExtensions seen {}, seen.get? l = some d ∧ has d = true ∧
      Planner.Brings seen {} l ∧ op.action.source? = some l ∧
      ∀ final, (withExtensions seen).get? op.target = some final → has final = false := by
  simp only [loses, Bool.and_eq_true, Option.any_eq_true, List.any_eq_true, beq_iff_eq,
    Bool.not_eq_true'] at h
  obtain ⟨⟨hbrings, d, hd, hhas⟩, op, hop, hsource, hlost⟩ := h
  refine ⟨d, op, hop, hd, hhas, brings_of_brings hbrings, hsource, fun final hfinal => ?_⟩
  simpa [hfinal] using hlost

/-- A later extension may take away values of an earlier one by a copy, and attributes by a patch. -/
theorem later_extension_takes_away :
    (¬ ∀ files repository options seen, Repository.ofFiles files = .ok repository →
      seenBy options (.ofRepository repository) .extension = .ok seen →
      ∀ l d op, seen.get? l = some d → Planner.Brings seen options l →
        op ∈ Planner.applyExtensions seen options → op.action.source? = some l →
        ∃ final, (runAll options seen (Planner.applyExtensions seen options)).get? op.target =
            some final ∧
          ∀ key, key ≠ Definition.parentKey → Fields.HasValue d.fields key →
            Fields.HasValue final.fields key) ∧
    ¬ ∀ files repository options seen, Repository.ofFiles files = .ok repository →
      seenBy options (.ofRepository repository) .extension = .ok seen →
      ∀ l d op, seen.get? l = some d → Planner.Brings seen options l →
        op ∈ Planner.applyExtensions seen options → op.action.source? = some l →
        (∀ other ∈ Planner.applyExtensions seen options, other.action.createsTarget = false) →
        ∃ final, (runAll options seen (Planner.applyExtensions seen options)).get? op.target =
            some final ∧
          ∀ name, d.HasAttribute name → final.HasAttribute name := by
  constructor
  · intro hclaim
    have hview : (seenByExtensions sharedAttribute).map (loses
        (fun d => decide (Fields.HasValue d.fields "caption")) ⟨.dictionary, "p", some "a"⟩) =
          some true := by decide +kernel
    obtain ⟨repository, seen, hfiles, hseen, hloses⟩ := exists_of_seenByExtensions hview
    obtain ⟨d, op, hop, hd, hvalue, hbrings, hsource, hlost⟩ := exists_of_loses hloses
    obtain ⟨final, hfinal, hvalues⟩ :=
      hclaim sharedAttribute repository {} seen hfiles hseen _ d op hd hbrings hop hsource
    have hkept := hvalues "caption" (by decide) (of_decide_eq_true hvalue)
    exact of_decide_eq_false (hlost final hfinal) hkept
  · intro hclaim
    have hview : (seenByExtensions textForAttributes).map (fun seen => (loses
        (fun d => decide (d.HasAttribute "p")) ⟨.object, "x", some "a"⟩ seen,
        (Planner.applyExtensions seen {}).all fun op => !op.action.createsTarget)) =
          some (true, true) := by decide +kernel
    obtain ⟨repository, seen, hfiles, hseen, hview⟩ := exists_of_seenByExtensions hview
    obtain ⟨hloses, hpatches⟩ := Prod.mk.inj hview
    obtain ⟨d, op, hop, hd, hattribute, hbrings, hsource, hlost⟩ := exists_of_loses hloses
    simp only [List.all_eq_true, Bool.not_eq_true'] at hpatches
    obtain ⟨final, hfinal, hattributes⟩ :=
      hclaim textForAttributes repository {} seen hfiles hseen _ d op hd hbrings hop hsource hpatches
    have hkept := hattributes "p" (of_decide_eq_true hattribute)
    exact of_decide_eq_false (hlost final hfinal) hkept

end Compilation

end EventSchema
