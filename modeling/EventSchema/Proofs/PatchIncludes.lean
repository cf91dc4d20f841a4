import EventSchema.Proofs.ExtensionIdentifiers
import EventSchema.Proofs.PatchMarkers
import EventSchema.Proofs.Preparations
import EventSchema.Proofs.ProfilePrecedence

/-!
# What patches include

The references of a patch travel with everything else of it into the definition in core, and only
there they are looked up, from the file of that definition.  On the way the merge of a later patch
may replace them, and the copy of another extension may replace the whole definition.  Where none of
this happens, and both files lead to the same place, each reference ends up as a planned include.

References are followed as a value at a path, one for each scope: what is kept are its texts, since
lists grow as long as patches add to them.

Main results:

- {lit}`Json.textsIn_merge_patch`: an overwriting merge takes over all texts.
- {lit}`Definition.Refers.mergeExtension`: what a patch leaves of references.
- {lit}`Operation.refers_runAll`: references stay as long as all that is brought leaves them.
- {lit}`Compilation.patch_includes_are_planned`: the references of a patch are included.
- {lit}`Compilation.references_of_patches_get_lost`: each condition of that is needed.
-/

namespace EventSchema

open Std

/-! ## Texts of a value -/

namespace Json

/-- Another value has all texts of a value, and is an array if that is. -/
structure TextsIn (value other : Json) : Prop where
  texts : ∀ text ∈ strings (some value), text ∈ strings (some other)
  array : value.arr?.isSome = true → other.arr?.isSome = true

theorem TextsIn.refl (value : Json) : value.TextsIn value := ⟨fun _ h => h, id⟩

theorem TextsIn.trans {first second third : Json} (h : first.TextsIn second)
    (h' : second.TextsIn third) : first.TextsIn third :=
  ⟨fun text htext => h'.texts text (h.texts text htext), fun harray => h'.array (h.array harray)⟩

/-- Gathered items have the texts of those that were there. -/
theorem textsIn_gather_left (items patch : List Json) :
    (Json.arr items).TextsIn (.arr (gather items patch)) := by
  refine ⟨fun text htext => ?_, id⟩
  obtain ⟨more, hmore⟩ := gather_append items patch
  rw [hmore]
  simp only [strings, List.filterMap_append, List.mem_append] at htext ⊢
  exact .inl htext

/-- Gathered items have the texts of those that were gathered. -/
theorem textsIn_gather_right (items : List Json) {patch : List Json}
    (hpatch : WellFormedItems patch) : (Json.arr patch).TextsIn (.arr (gather items patch)) := by
  refine ⟨fun text htext => ?_, id⟩
  obtain ⟨item, hitem, hstr⟩ := List.mem_filterMap.1 htext
  obtain ⟨other, hother, hsame⟩ :=
    List.contains_iff_exists_mem_beq.1 (contains_gather_of_mem hpatch hitem)
  exact List.mem_filterMap.2 ⟨other, hother, (str?_eq_of_same hsame).symm.trans hstr⟩

/-- An overwriting merge takes over all texts of the right side. -/
theorem textsIn_merge_patch (mine : Json) {value : Json} (hvalue : value.WellFormed) :
    value.TextsIn (Json.merge true mine value).1 := by
  cases value with
  | str text =>
    rw [merge_patch_str]
    exact .refl _
  | arr patch =>
    cases mine with
    | arr items =>
      rw [merge]
      exact textsIn_gather_right items hvalue
    | _ => exact .refl _
  | _ => exact ⟨nofun, nofun⟩

/-- A value with a text is not null. -/
theorem isNull_of_mem_strings {value : Json} {text : String} (h : text ∈ strings (some value)) :
    value.isNull = false := by
  cases value with
  | null => cases h
  | _ => rfl

/-- A merge leaves what is on the left, where the right side has a gap. -/
theorem at?_merge_of_hasGap_right (overwrite : Bool) {path : FieldPath} (hpath : profileKey ∉ path)
    {left right value : Json} (hright : right.WellFormed) (hgap : right.hasGap path = true)
    (hsome : right.isNull = false) (hvalue : left.at? path = some value)
    (hnull : value.isNull = false) : (merge overwrite left right).1.at? path = some value := by
  induction path generalizing left right with
  | nil =>
    obtain ⟨_, _, _, -, hnil, -⟩ := exists_of_hasGap hgap hsome
    cases hnil
  | cons key rest ih =>
    obtain ⟨hkey, hrest⟩ := List.ne_and_not_mem_of_not_mem_cons hpath
    obtain ⟨r, _, _, rfl, ⟨⟩, hr⟩ := exists_of_hasGap hgap hsome
    obtain ⟨l, mine, rfl, hmine, hinner⟩ := exists_of_at?_cons hvalue
    obtain ⟨hdistinct, hpatches⟩ := wellFormed_obj_iff.1 hright
    rw [merge, at?_cons]
    by_cases hpatch : Fields.HasValue r key
    · obtain ⟨patch, hpatch, hthere⟩ := hpatch
      rw [Fields.get?_merge_of_values overwrite hdistinct hkey.symm hmine
        (isNull_of_at? hinner hnull) hpatch hthere]
      have hwellFormed := hpatches _ (Fields.mem_of_get?_eq_some hpatch)
      exact ih hrest hwellFormed (hr patch hpatch) hthere hinner
    · rw [Fields.get?_merge_of_not_hasValue_right overwrite hdistinct hpatch, hmine]
      exact hinner

end Json

/-- On admitted paths a gap is one of all fields. -/
theorem MergeRule.hasGap_admitted {rule : MergeRule} {right : Fields} {path : FieldPath}
    (h : rule.AdmitsPath path) :
    (Json.obj (rule.admitted right)).hasGap path = (Json.obj right).hasGap path := by
  obtain ⟨key, rest, rfl, hadmits⟩ := h
  rw [Json.hasGap, Json.hasGap, admitted, Fields.get?_filter_keys rule.admits right hadmits]

/-! ## References of a definition -/

/-- The path to the references of some scope. -/
def IncludeScope.path : IncludeScope → FieldPath
  | .definition => [Definition.includeKey]
  | .attributes => [Definition.attributesKey, Definition.includeKey]

/-- References do not stand below profile tags. -/
theorem IncludeScope.profileKey_not_mem_path (scope : IncludeScope) :
    profileKey ∉ scope.path := by
  cases scope <;> decide

namespace Definition

/-- The references of some scope. -/
def references (d : Definition) (scope : IncludeScope) : List String :=
  Json.strings (d.toJson.at? scope.path)

/-- The references of a definition are its includes. -/
theorem references_definition (d : Definition) : d.references .definition = d.includes := by
  unfold references includes get? toJson IncludeScope.path
  rw [Json.at?_cons]
  cases Fields.get? d.fields includeKey with
  | none => rfl
  | some value => cases value <;> rfl

/-- The references of attributes are their includes. -/
theorem references_attributes (d : Definition) :
    d.references .attributes = d.attributeIncludes := by
  unfold references attributeIncludes attributes? get? toJson IncludeScope.path
  rw [Json.at?_cons]
  cases Fields.get? d.fields attributesKey with
  | none => rfl
  | some value => cases value <;> simp [Json.at?, Json.obj?, Json.isNull, Option.filter]

/-- A reference is a text at its path. -/
theorem exists_at?_of_mem_references {d : Definition} {scope : IncludeScope} {reference : String}
    (h : reference ∈ d.references scope) : ∃ value, d.toJson.at? scope.path = some value ∧
      reference ∈ Json.strings (some value) := by
  unfold references at h
  cases hvalue : d.toJson.at? scope.path with
  | some value => exact ⟨value, rfl, hvalue ▸ h⟩
  | none => simp [hvalue, Json.strings] at h

/-- The references of a definition are given as a list. -/
def ListsReferences (d : Definition) (scope : IncludeScope) : Prop :=
  ∃ items, d.toJson.at? scope.path = some (.arr items)

/-- A definition refers to all that a value refers to. -/
def Refers (d : Definition) (scope : IncludeScope) (value : Json) : Prop :=
  ∃ there, d.toJson.at? scope.path = some there ∧ value.TextsIn there

/-- A patch that leaves the references of an earlier one: it gives none, or both give a list. -/
def SparesReferences (later earlier : Definition) (scope : IncludeScope) : Prop :=
  later.toJson.hasGap scope.path = true ∨
    later.ListsReferences scope ∧ earlier.ListsReferences scope

/-- The rule by which a patch merges lets every reference through. -/
theorem exists_toJson_mergeExtension (d : Definition) {patch : Definition}
    (hpatch : patch.WellFormed) : ∃ admitted : Fields, (Json.obj admitted).WellFormed ∧
      (∀ scope : IncludeScope, (Json.obj admitted).at? scope.path = patch.toJson.at? scope.path ∧
        (Json.obj admitted).hasGap scope.path = patch.toJson.hasGap scope.path) ∧
      (d.mergeExtension patch).definition.toJson =
        (Json.merge true d.toJson (.obj admitted)).1 := by
  set rule := MergeRule.patch.ignoring
    (if patch.parentName?.isSome && patch.parentName? == d.name? then [parentKey] else [])
  have hadmits (scope : IncludeScope) : rule.AdmitsPath scope.path := by
    cases scope <;> exact ⟨_, _, rfl, admits_mergeExtension fun h => absurd h (by decide)⟩
  refine ⟨rule.admitted patch.fields, MergeRule.wellFormed_admitted hpatch, fun scope => ?_, ?_⟩
  · exact ⟨MergeRule.at?_admitted (hadmits scope), MergeRule.hasGap_admitted (hadmits scope)⟩
  · exact congrArg Json.obj (congrArg Prod.fst (show rule.apply d.fields patch.fields = _ from rfl))

variable {d patch : Definition} {scope : IncludeScope} {value : Json}

/-- What a patch refers to, the patched definition refers to. -/
theorem refers_mergeExtension (hpatch : patch.WellFormed)
    (hvalue : patch.toJson.at? scope.path = some value) (hnull : value.isNull = false) :
    (d.mergeExtension patch).definition.Refers scope value := by
  obtain ⟨admitted, hadmitted, hsame, hmerged⟩ := d.exists_toJson_mergeExtension hpatch
  rw [← (hsame scope).1] at hvalue
  obtain ⟨mine, hafter⟩ : ∃ mine : Json,
      (Json.merge true d.toJson (.obj admitted)).1.at? scope.path =
        some (Json.merge true mine value).1 :=
    Json.exists_at?_merge_patch scope.profileKey_not_mem_path hadmitted hvalue hnull
  rw [← hmerged] at hafter
  exact ⟨_, hafter, Json.textsIn_merge_patch mine (Json.wellFormed_of_at? hadmitted hvalue)⟩

/-- What a definition refers to stays if a patch has a gap there, or adds to a list. -/
theorem Refers.mergeExtension (h : d.Refers scope value) (hpatch : patch.WellFormed)
    (hspares : patch.toJson.hasGap scope.path = true ∨
      patch.ListsReferences scope ∧ value.arr?.isSome = true)
    (htexts : Json.strings (some value) ≠ []) :
    (d.mergeExtension patch).definition.Refers scope value := by
  obtain ⟨there, hthere, htextsIn⟩ := h
  obtain ⟨text, htext⟩ := List.exists_mem_of_ne_nil _ htexts
  have hnull := Json.isNull_of_mem_strings (htextsIn.texts text htext)
  obtain ⟨admitted, hadmitted, hsame, hmerged⟩ := d.exists_toJson_mergeExtension hpatch
  have hpath := scope.profileKey_not_mem_path
  rw [Refers, hmerged]
  rcases hspares with hgap | ⟨⟨patches, hlist⟩, harray⟩
  · rw [← (hsame scope).2] at hgap
    exact ⟨there, Json.at?_merge_of_hasGap_right true hpath hadmitted hgap rfl hthere hnull,
      htextsIn⟩
  · rw [← (hsame scope).1] at hlist
    have hlisted := htextsIn.array harray
    cases there with
    | arr items =>
      refine ⟨_, Json.at?_merge true hpath hadmitted hthere rfl hlist rfl, ?_⟩
      rw [Json.merge]
      exact htextsIn.trans (Json.textsIn_gather_left items patches)
    | _ => cases hlisted

/-! ## References under tags and annotations -/

/-- A definition still refers to the same, and still does not refer to anything. -/
structure KeepsReferences (before after : Definition) : Prop where
  value : ∀ (scope : IncludeScope) value, value.obj? = none →
    before.toJson.at? scope.path = some value → after.toJson.at? scope.path = some value
  gap : ∀ scope : IncludeScope, before.toJson.hasGap scope.path = true →
    after.toJson.hasGap scope.path = true

theorem KeepsReferences.refl (d : Definition) : d.KeepsReferences d :=
  ⟨fun _ _ _ h => h, fun _ h => h⟩

theorem KeepsReferences.trans {first second third : Definition} (h : first.KeepsReferences second)
    (h' : second.KeepsReferences third) : first.KeepsReferences third :=
  ⟨fun scope value hplain hvalue => h'.value scope value hplain (h.value scope value hplain hvalue),
    fun scope hgap => h'.gap scope (h.gap scope hgap)⟩

/-- Edits of objects among the attributes do not touch references. -/
theorem keepsReferences_editSlots (d : Definition)
    (edit : String → Fields → Fields × List FieldPath) :
    d.KeepsReferences (d.editSlots edit).definition := by
  unfold editSlots
  cases hattributes : d.attributes? with
  | none => exact .refl d
  | some attributes =>
    have hbefore := fields_get?_of_attributes? hattributes
    have hafter : Fields.get? (Fields.set attributesKey (.obj (editObjects edit attributes).1)
        d.fields) attributesKey = some (.obj (editObjects edit attributes).1) :=
      Fields.get?_set_self _ _ _
    have hroot : Fields.get? (Fields.set attributesKey (.obj (editObjects edit attributes).1)
        d.fields) includeKey = Fields.get? d.fields includeKey :=
      Fields.get?_set_of_ne _ _ (by decide)
    constructor
    · intro scope value hplain hvalue
      cases scope with
      | definition =>
        simpa [IncludeScope.path, toJson, set, hroot] using hvalue
      | attributes =>
        simp only [IncludeScope.path, toJson, Json.at?_cons, hbefore, Option.bind_some] at hvalue
        obtain ⟨inner, hinner, hnil⟩ := Option.bind_eq_some_iff.1 hvalue
        cases Option.some.inj hnil
        have hsame : objectAfter (edit includeKey) value = value := by
          cases value with
          | obj body => cases hplain
          | _ => rfl
        simp only [IncludeScope.path, toJson, set, Json.at?_cons, hafter, Option.bind_some,
          get?_editObjects, hinner, Option.map_some, hsame, Json.at?_nil]
    · intro scope hgap
      cases scope with
      | definition =>
        simpa [IncludeScope.path, toJson, set, Json.hasGap, hroot] using hgap
      | attributes =>
        simp only [IncludeScope.path, toJson, Json.hasGap, hbefore, Option.all_some] at hgap
        simp only [IncludeScope.path, toJson, set, Json.hasGap, hafter, Option.all_some,
          get?_editObjects]
        cases hinner : Fields.get? attributes includeKey with
        | none => rfl
        | some inner =>
          rw [hinner, Option.all_some] at hgap
          cases inner with
          | null => rfl
          | _ => cases hgap

end Definition

namespace Operation

/-- Tags and annotations do not touch references. -/
theorem keepsReferences_edit {planner : Planner} (hplanner : planner.leavesCore = true)
    {op : Operation} (hop : planner.Emits op) {draft : Draft} {options : Options} {d : Definition}
    {revision : Revision} (h : op.edit draft options d = .ok revision) :
    d.KeepsReferences revision.definition := by
  have haction := hop.action
  unfold edit at h
  cases hcase : op.action <;> rw [hcase] at haction h <;> cases planner <;> cases hplanner <;>
    try exact haction.elim
  · cases h
    exact d.keepsReferences_editSlots _
  · cases h
    unfold Definition.annotate
    split
    · exact .refl d
    · exact d.keepsReferences_editSlots _

end Operation

/-! ## References of a location -/

/-- A location refers to all that a value refers to. -/
def Draft.Refers (draft : Draft) (l : Location) (scope : IncludeScope) (value : Json) : Prop :=
  ∃ d, draft.get? l = some d ∧ d.Refers scope value

namespace Operation

section Runs

variable {draft : Draft} {l : Location} {scope : IncludeScope} {value : Json}

/-- What an operation brings to a location leaves its references: it is a patch from outside of core
with a gap there, or one that adds to a list. -/
def LeavesReferences (draft : Draft) (op : Operation) (scope : IncludeScope) (value : Json) :
    Prop :=
  ∃ p patch, op.action = .mergeExtension p ∧ p.isCore = false ∧ draft.get? p = some patch ∧
    (patch.toJson.hasGap scope.path = true ∨
      patch.ListsReferences scope ∧ value.arr?.isSome = true)

/-- A reference stays in an operation that leaves references. -/
theorem refers_run {op : Operation} (hop : op.target = l → LeavesReferences draft op scope value)
    (hdraft : draft.WellFormed) (hvalue : Json.strings (some value) ≠ []) (options : Options)
    (h : draft.Refers l scope value) : (op.run draft options).Refers l scope value := by
  obtain ⟨d, hd, hrefers⟩ := h
  refine exists_get?_run_of_edit options hd hrefers fun hl revision hedit => ?_
  obtain ⟨p, patch, haction, -, hpatch, hleaves⟩ := hop hl
  rw [edit, haction] at hedit
  obtain ⟨found, hfound, rfl⟩ := exists_of_map_source hedit
  cases hpatch.symm.trans hfound
  exact hrefers.mergeExtension (hdraft p patch hpatch) hleaves hvalue

/-- References stay as long as all that is brought leaves them. -/
theorem refers_runAll {ops : List Operation} (hcore : ∀ op ∈ ops, op.target.isCore = true)
    (hops : ∀ op ∈ ops, op.target = l → LeavesReferences draft op scope value)
    (hdraft : draft.WellFormed) (hvalue : Json.strings (some value) ≠ []) (options : Options)
    (h : draft.Refers l scope value) : (runAll options draft ops).Refers l scope value := by
  induction ops generalizing draft with
  | nil => exact h
  | cons op rest ih =>
    rw [runAll_cons]
    refine ih (fun other hother => hcore other (List.mem_cons_of_mem op hother))
      (fun other hother htarget => ?_) (hdraft.run op options)
      (refers_run (hops op List.mem_cons_self) hdraft hvalue options h)
    obtain ⟨p, patch, haction, hp, hpatch, hleaves⟩ :=
      hops other (List.mem_cons_of_mem op hother) htarget
    have hne : op.target ≠ p := by
      rintro rfl
      rw [hcore op List.mem_cons_self] at hp
      cases hp
    exact ⟨p, patch, haction, hp, (op.run_get?_of_ne draft options hne).trans hpatch, hleaves⟩

/-- A patch that does not fail brings its references. -/
theorem refers_run_of_mergeExtension {op : Operation} {p : Location}
    (haction : op.action = .mergeExtension p) {options : Options} {d patch : Definition}
    (hd : draft.get? op.target = some d) (hpatch : draft.get? p = some patch)
    (hwellFormed : patch.WellFormed) (hthere : patch.toJson.at? scope.path = some value)
    (hnull : value.isNull = false) (h : (op.outcome draft options).isFailed = false) :
    (op.run draft options).Refers op.target scope value :=
  ⟨_, get?_run_mergeExtension haction hd hpatch hwellFormed h,
    Definition.refers_mergeExtension hwellFormed hthere hnull⟩

end Runs

end Operation

namespace Planner

/-! ## Includes of references -/

/-- A reference that leads somewhere is an include. -/
theorem mem_includesOf {draft : Draft} {l place : Location} {d : Definition}
    {scope : IncludeScope} {reference : String} (hreference : reference ∈ d.references scope)
    (hplace : resolveReference? draft l reference = some place) :
    (place, scope) ∈ includesOf draft l d := by
  unfold includesOf
  have hfound : (resolveReference? draft l reference).map (·, scope) = some (place, scope) := by
    rw [hplace, Option.map_some]
  cases scope with
  | definition =>
    rw [d.references_definition] at hreference
    exact List.mem_append_left _ (List.mem_filterMap.2 ⟨reference, hreference, hfound⟩)
  | attributes =>
    rw [d.references_attributes] at hreference
    exact List.mem_append_right _ (List.mem_filterMap.2 ⟨reference, hreference, hfound⟩)

/-- Whatever a definition in core refers to is included. -/
theorem mem_includeFiles_of_references {draft : Draft} {l place : Location} {d : Definition}
    (hd : draft.get? l = some d) (hcore : l.isCore = true) (hkind : l.kind ∈ Kind.withAttributes)
    {scope : IncludeScope} {reference : String} (hreference : reference ∈ d.references scope)
    (hplace : resolveReference? draft l reference = some place) (options : Options) :
    ⟨l, .includeFrom place scope⟩ ∈ includeFiles draft options := by
  have hincluded : (place, scope) ∈ arrangeIncludes options (includesOf draft l d) :=
    mem_arrangeIncludes.2 (mem_includesOf hreference hplace)
  refine List.mem_flatMap.2 ⟨(l, d), Draft.mem_core.2 ⟨hd, hcore, hkind⟩, ?_⟩
  exact List.mem_map.2 ⟨(place, scope), hincluded, rfl⟩

/-- References of an authored definition mean the same in every draft of the repository. -/
theorem resolveReference?_of_ofRepository {draft : Draft} {l place : Location} {reference : String}
    (h : resolveReference? (.ofRepository draft.repository) l reference = some place) :
    resolveReference? draft l reference = some place := by
  obtain ⟨file, hfile, hplace⟩ := Option.bind_eq_some_iff.1 h
  have hauthored : draft.repository.sourcePath? l = some file := by
    simpa [Draft.sourcePath?, Draft.ofRepository, Draft.origin?] using hfile
  refine Option.bind_eq_some_iff.2 ⟨file, ?_, hplace⟩
  rw [Draft.sourcePath?, hauthored]
  rfl

end Planner

namespace Compilation

open Operation

/-- The operations of extensions are emitted in one go, between the preparations of profiles and the
includes. -/
theorem exists_split_applyExtensions {options : Options} {draft : Draft} {ops : List Operation}
    (h : Proposes options draft Phase.structural.planners ops) {op : Operation} {l : Location}
    (hop : op.action.lineage? = some l) {front back : List Operation}
    (hsplit : ops = front ++ op :: back) :
    ∃ preparations before after, Proposes options draft [.profileTag, .annotations] preparations ∧
      Planner.applyExtensions (runAll options draft preparations) options =
        before ++ op :: after ∧
      (∀ other ∈ after, other ∈ back) ∧
      ∀ other ∈ Planner.includeFiles (runAll options (runAll options draft preparations)
        (before ++ op :: after)) options, other ∈ ops := by
  have hplanners : Phase.structural.planners =
      [.profileTag, .annotations] ++ [.extension, .includes, .profileRemove, .inheritance] := rfl
  have honly (planner : Planner) (hemits : planner.Emits op) : planner = .extension :=
    hemits.eq_extension hop
  rw [hplanners] at h
  obtain ⟨preparations, rest, rfl, hpreparations, hrest⟩ := h.exists_of_append
  cases hrest with
  | @cons _ _ _ emitted later hemitted hlater =>
    cases hemitted
    have hbefore := hpreparations.not_mem_of_emits honly (by decide)
    have hafter := hlater.not_mem_of_emits honly (by decide)
    rw [← List.append_assoc] at hsplit
    obtain ⟨after, hemitted, rfl⟩ := exists_of_append_eq_append_cons hsplit hafter
    obtain ⟨before, hbefore⟩ : ∃ before, Planner.applyExtensions
        (runAll options draft preparations) options = before ++ op :: after := by
      rcases List.append_eq_append_iff.1 hemitted with ⟨before, -, heq⟩ | ⟨between, heq, hcons⟩
      · exact ⟨before, heq⟩
      · cases between with
        | nil => exact ⟨[], hcons.symm⟩
        | cons first between =>
          rw [heq, (List.cons.inj hcons).1] at hbefore
          exact absurd List.mem_append_cons_self hbefore
    refine ⟨preparations, before, after, hpreparations, hbefore,
      fun other hother => List.mem_append_left later hother, fun other hother => ?_⟩
    cases hlater with
    | @cons _ _ _ included more hincluded hmore =>
      cases hincluded
      rw [← hbefore] at hother
      exact List.mem_append_right _ (List.mem_append_right _ (List.mem_append_left _ hother))

/-- Operations behind others are of the same planner. -/
theorem emits_of_split {draft : Draft} {options : Options} {before after : List Operation}
    (h : Planner.applyExtensions draft options = before ++ after) {op : Operation}
    (hop : op ∈ after) : Planner.extension.Emits op :=
  Planner.emits_applyExtensions (h ▸ List.mem_append_right before hop)

/-- An extension patches whatever it does not copy. -/
theorem exists_mergeExtension_of_emits {op : Operation} (h : Planner.extension.Emits op)
    (hcreates : op.action.createsTarget = false) :
    ∃ l, op.action = .mergeExtension l ∧ l.isCore = false := by
  have haction := h.action
  cases hcase : op.action <;> rw [hcase] at haction hcreates <;>
    first
      | exact ⟨_, rfl, haction⟩
      | exact haction.elim
      | cases hcreates

section Patches

variable {repository : Repository} {options : Options} {preparations : List Operation}

/-- Outside of core profiles are prepared, but nothing that a definition refers to changes. -/
theorem exists_keepsReferences_runAll
    (h : Proposes options (.ofRepository repository) [.profileTag, .annotations] preparations)
    {l : Location} {d : Definition} (hd : repository.get? l = some d) :
    ∃ seen, (runAll options (.ofRepository repository) preparations).get? l = some seen ∧
      d.KeepsReferences seen := by
  refine exists_related_runAll Definition.KeepsReferences.refl .trans
    (fun op hop _ _ _ _ hedit => ?_) ((Draft.get?_ofRepository repository l).trans hd)
  obtain ⟨planner, hplanner, hemits⟩ := h.exists_emits hop
  have hleaves : ∀ planner ∈ [Planner.profileTag, .annotations], planner.leavesCore = true := by
    decide
  exact keepsReferences_edit (hleaves planner hplanner) hemits hedit

/-- When the operations of extensions are emitted, definitions outside of core keep their
references. -/
theorem exists_keepsReferences_applyExtensions
    (hpreparations : Proposes options (.ofRepository repository) [.profileTag, .annotations]
      preparations)
    {before after : List Operation}
    (hemitted : Planner.applyExtensions (runAll options (.ofRepository repository) preparations)
      options = before ++ after)
    {l : Location} (hl : l.isCore = false) {d : Definition} (hd : repository.get? l = some d) :
    ∃ here,
      (runAll options (runAll options (.ofRepository repository) preparations) before).get? l =
        some here ∧ d.KeepsReferences here := by
  obtain ⟨here, hhere, hkeeps⟩ := exists_keepsReferences_runAll hpreparations hd
  exact ⟨here, (Planner.sameAt_applyExtensions hemitted hl).definition.trans hhere, hkeeps⟩

/-- A patch brings its references to core, where they stay unless something takes them away. -/
theorem refers_applyExtensions (hr : repository.Reachable)
    (hpreparations : Proposes options (.ofRepository repository) [.profileTag, .annotations]
      preparations)
    {target l : Location} {before after : List Operation}
    (hemitted : Planner.applyExtensions (runAll options (.ofRepository repository) preparations)
      options = before ++ ⟨target, .mergeExtension l⟩ :: after)
    {patch : Definition} (hpatch : repository.get? l = some patch) {scope : IncludeScope}
    {value : Json} (hvalue : patch.toJson.at? scope.path = some value)
    (htexts : Json.strings (some value) ≠ [])
    (hlater : ∀ later ∈ after, later.target = target → ∃ p other,
      later.action = .mergeExtension p ∧ repository.get? p = some other ∧
        other.SparesReferences patch scope) :
    (runAll options (runAll options (.ofRepository repository) preparations)
      (before ++ ⟨target, .mergeExtension l⟩ :: after)).Refers target scope value := by
  set seen := runAll options (.ofRepository repository) preparations with hseen
  have hintact : seen.Intact := intact_of_proposes hr mem_structural_of_preparing hpreparations
  have hwellFormed : seen.WellFormed :=
    (Draft.wellFormed_ofRepository hr.sound).runAll options preparations
  have hplain : value.obj? = none := by
    cases value with
    | obj body => exact absurd rfl htexts
    | _ => rfl
  have hcore : l.isCore = false :=
    isCore_of_emits_mergeExtension (emits_of_split hemitted List.mem_cons_self) rfl
  obtain ⟨found, hsource, hkeeps⟩ :=
    exists_keepsReferences_applyExtensions hpreparations hemitted hcore hpatch
  obtain ⟨hgrounds, hsucceeds⟩ := Planner.succeeds_applyExtensions hintact hemitted
  have hhere := hwellFormed.runAll options before
  obtain ⟨d, hd⟩ := Option.isSome_iff_exists.1 (hgrounds.target.resolve_left nofun)
  obtain ⟨text, htext⟩ := List.exists_mem_of_ne_nil _ htexts
  -- The patch itself brings the value, and whatever is emitted behind it leaves the value.
  have hbrought := refers_run_of_mergeExtension rfl hd hsource (hhere l found hsource)
    (hkeeps.value scope value hplain hvalue) (Json.isNull_of_mem_strings htext) hsucceeds
  have hsplit : Planner.applyExtensions seen options =
      (before ++ [⟨target, .mergeExtension l⟩]) ++ after := by
    rw [hemitted, List.append_cons]
  rw [runAll_append, runAll_cons]
  refine refers_runAll (fun other hother => (emits_of_split hsplit hother).core rfl)
    (fun other hother htarget => ?_) (hhere.run _ options) htexts options hbrought
  obtain ⟨p, patch', haction, hpatch', hspares⟩ := hlater other hother htarget
  have hp : p.isCore = false :=
    isCore_of_emits_mergeExtension (emits_of_split hsplit hother) haction
  obtain ⟨found', hthere, hkeeps'⟩ :=
    exists_keepsReferences_applyExtensions hpreparations hsplit hp hpatch'
  rw [runAll_append, runAll_cons, runAll_nil] at hthere
  refine ⟨p, found', haction, hp, hthere, hspares.imp (hkeeps'.gap scope) ?_⟩
  rintro ⟨⟨items, hitems⟩, mine, hmine⟩
  cases hvalue.symm.trans hmine
  exact ⟨⟨items, hkeeps'.value scope _ rfl hitems⟩, rfl⟩

/-- The patch of an extension comes from the repository. -/
theorem exists_patch_of_emits {ops : List Operation}
    (h : Proposes options (.ofRepository repository) Phase.structural.planners ops)
    (hr : repository.Reachable) {op : Operation} (hop : op ∈ ops)
    (hemits : Planner.extension.Emits op) (hcreates : op.action.createsTarget = false) :
    ∃ l patch, op.action = .mergeExtension l ∧ repository.get? l = some patch := by
  obtain ⟨l, haction, hl⟩ := exists_mergeExtension_of_emits hemits hcreates
  have hread : l ∈ op.prerequisites := by
    rw [prerequisites, haction]
    exact List.mem_singleton_self l
  obtain ⟨patch, hpatch⟩ :=
    Option.isSome_iff_exists.1 (contains_of_extension h hr.hosted hop hread hl)
  exact ⟨l, patch, haction, (Draft.get?_ofRepository repository l).symm.trans hpatch⟩

end Patches

/--
The references of a patch are included.  Where the plan patches a definition in core, whatever the
patch refers to, at its root or among its attributes, is included by the patched definition, if the
file found from the patch is the one found from the patched file, and nothing that is planned for
the definition later takes the reference away: no copy replaces the definition, and each later patch
either gives no reference of that scope, or gives a list where the patch gives one as well.
-/
theorem patch_includes_are_planned {repository : Repository} (hr : repository.Reachable)
    {options : Options} {analyzed : Compilation} {plan : Plan}
    (hanalyze : (ofRepository repository options).analyze = .ok analyzed)
    (hplan : analyzed.stage.plan? = some plan) {target l : Location}
    (hkind : target.kind ∈ Kind.withAttributes) {before after : List Operation}
    (hplanned : plan.operationsFor target = before ++ ⟨target, .mergeExtension l⟩ :: after)
    {patch : Definition} (hpatch : repository.get? l = some patch) {scope : IncludeScope}
    {reference : String} (hreference : reference ∈ patch.references scope) {place : Location}
    (hplace : Planner.resolveReference? (.ofRepository repository) l reference = some place)
    (hsame : Planner.resolveReference? (.ofRepository repository) target reference =
      Planner.resolveReference? (.ofRepository repository) l reference)
    (hcopies : ∀ later ∈ after, later.action.createsTarget = false)
    (hpatches : ∀ p other, ⟨target, .mergeExtension p⟩ ∈ after →
      repository.get? p = some other → other.SparesReferences patch scope) :
    ⟨target, .includeFrom place scope⟩ ∈ plan.operationsFor target := by
  obtain ⟨scratch, plan', hphases, rfl⟩ := analyze_ofRepository_eq_ok_iff.1 hanalyze
  cases hplan
  obtain ⟨structural, dictionary, identifiers, h, -⟩ := exists_plannedAs hphases
  obtain ⟨front, back, hstructural, hback⟩ := exists_split_of_lineage? h rfl hplanned
  obtain ⟨preparations, earlier, later, hpreparations, hemitted, hafter, hincluded⟩ :=
    exists_split_applyExtensions h.proposes_structural rfl hstructural
  obtain ⟨value, hvalue, hreference⟩ := Definition.exists_at?_of_mem_references hreference
  -- Each later operation of extensions is planned for the target as well, so that the conditions on
  -- the plan apply to it.
  have hlater : ∀ other ∈ later, other.target = target → ∃ p patch',
      other.action = .mergeExtension p ∧ repository.get? p = some patch' ∧
        patch'.SparesReferences patch scope := by
    intro other hother htarget
    have hbehind : other ∈ after :=
      hback other (List.mem_append_left dictionary (hafter other hother)) htarget
    have hmem : other ∈ structural := by
      rw [hstructural]
      exact List.mem_append_right front (List.mem_cons_of_mem _ (hafter other hother))
    obtain ⟨p, patch', haction, hpatch'⟩ := exists_patch_of_emits h.proposes_structural hr hmem
      (emits_of_split hemitted (List.mem_cons_of_mem _ hother)) (hcopies other hbehind)
    rcases other with ⟨_, action⟩
    cases haction
    cases htarget
    exact ⟨p, patch', rfl, hpatch', hpatches p patch' hbehind hpatch'⟩
  obtain ⟨d, hd, there, hthere, htexts⟩ := refers_applyExtensions hr hpreparations hemitted hpatch
    hvalue (List.ne_nil_of_mem hreference) hlater
  have hrefers : reference ∈ d.references scope := by
    rw [Definition.references, hthere]
    exact htexts.texts reference hreference
  have hcore : target.isCore = true := (emits_of_split hemitted List.mem_cons_self).core rfl
  -- Includes are planned on the draft behind all operations of extensions.
  set final := runAll options (runAll options (.ofRepository repository) preparations)
    (earlier ++ ⟨target, .mergeExtension l⟩ :: later) with hfinal
  have hrepository : final.repository = repository := by
    rw [hfinal, repository_runAll, repository_runAll]
    rfl
  have hfound : Planner.resolveReference? final target reference = some place := by
    refine Planner.resolveReference?_of_ofRepository ?_
    rw [hrepository, hsame, hplace]
  have hmem := hincluded _
    (Planner.mem_includeFiles_of_references hd hcore hkind hrefers hfound options)
  rw [operationsFor_eq_targeting_append h]
  exact mem_targeting.2 ⟨List.mem_append_left _ hmem, rfl⟩

/-! ## References that get lost -/

/-- A reference of a patch, and where it leads from the file of the patch. -/
structure PatchReference where
  target : Location
  patch : Location
  before : List Operation
  after : List Operation
  scope : IncludeScope
  reference : String
  place : Location

namespace PatchReference

variable (r : PatchReference)

/-- The patch is planned and refers to a file, in texts or lists; the definition in core refers to
other files, in lists, if to any. -/
def IsPlanned (repository : Repository) (plan : Plan) : Prop :=
  r.target.kind ∈ Kind.withAttributes ∧
    plan.operationsFor r.target = r.before ++ ⟨r.target, .mergeExtension r.patch⟩ :: r.after ∧
    (∃ patch ∈ repository.get? r.patch, r.reference ∈ patch.references r.scope ∧
      ∀ scope ∈ [IncludeScope.definition, .attributes],
        (patch.toJson.at? scope.path).all fun value => value.str?.isSome || value.arr?.isSome) ∧
    Planner.resolveReference? (.ofRepository repository) r.patch r.reference = some r.place ∧
    ∀ d ∈ repository.get? r.target, ∀ scope ∈ [IncludeScope.definition, .attributes],
      r.reference ∉ d.references scope ∧
        (d.toJson.at? scope.path).all fun value => value.arr?.isSome

/-- From the patched file the reference leads to the same place. -/
def LeadsAlike (repository : Repository) : Prop :=
  Planner.resolveReference? (.ofRepository repository) r.target r.reference =
    Planner.resolveReference? (.ofRepository repository) r.patch r.reference

/-- No copy replaces the patched definition. -/
def SurvivesCopies : Prop :=
  ∀ later ∈ r.after, later.action.createsTarget = false

/-- No other patch takes the reference away. -/
def SurvivesPatches (repository : Repository) : Prop :=
  ∀ p patch other, repository.get? r.patch = some patch →
    ⟨r.target, .mergeExtension p⟩ ∈ r.after → repository.get? p = some other →
      other.SparesReferences patch r.scope

/-- The include to which the reference amounts. -/
def included : Operation := ⟨r.target, .includeFrom r.place r.scope⟩

instance (repository : Repository) (plan : Plan) : Decidable (r.IsPlanned repository plan) :=
  inferInstanceAs (Decidable (_ ∧ _ ∧ _ ∧ _ ∧ _))

instance (repository : Repository) : Decidable (r.LeadsAlike repository) :=
  inferInstanceAs (Decidable (_ = _))

/-- Whether a patch with the reference is planned, whether it leads to the same place from both
files, and whether its include is planned. -/
def seenIn (way : Way) : Bool × Bool × Bool :=
  (decide (r.IsPlanned way.repository way.plan), decide (r.LeadsAlike way.repository),
    decide (r.included ∈ way.plan.operationsFor r.target))

theorem exists_of_seenIn {r : PatchReference} {files : List (Path × Json)} {alike planned : Bool}
    (h : (wayOf files).map r.seenIn = some (true, alike, planned)) :
    ∃ repository analyzed plan, Repository.ofFiles files = .ok repository ∧
      (ofRepository repository {}).analyze = .ok analyzed ∧ analyzed.stage.plan? = some plan ∧
      r.IsPlanned repository plan ∧ (alike = true → r.LeadsAlike repository) ∧
      (planned = false → r.included ∉ plan.operationsFor r.target) := by
  obtain ⟨way, hfiles, hanalyze, hplan, -, -, hway⟩ := exists_of_wayOf h
  obtain ⟨hplanned, hway⟩ := Prod.mk.inj hway
  obtain ⟨halike, hincluded⟩ := Prod.mk.inj hway
  refine ⟨way.repository, way.analyzed, way.plan, hfiles, hanalyze, hplan,
    of_decide_eq_true hplanned, fun h => of_decide_eq_true (halike.trans h), fun h => ?_⟩
  exact of_decide_eq_false (hincluded.trans h)

end PatchReference

/-- An object with the patches of two extensions.  The first one refers to a file. -/
def twicePatchedObject (later : Fields) : List (Path × Json) :=
  [(⟨"includes/x.json"⟩, .obj [("description", .str "X")]),
    (⟨"includes/y.json"⟩, .obj [("caption", .str "Y")]),
    (⟨"objects/o.json"⟩, .obj [("name", .str "o")]),
    (⟨"extensions/a/extension.json"⟩, .obj [("name", .str "a")]),
    (⟨"extensions/a/objects/o.json"⟩,
      .obj [("name", .str "o"), ("$include", .str "includes/x.json")]),
    (⟨"extensions/b/extension.json"⟩, .obj [("name", .str "b")]),
    (⟨"extensions/b/objects/o.json"⟩, .obj (("name", .str "o") :: later))]

/-- A patched object with the name that the copy of another one gets. -/
def replacedObject : List (Path × Json) :=
  [(⟨"includes/x.json"⟩, .obj [("description", .str "X")]),
    (⟨"objects/o.json"⟩, .obj [("name", .str "e/o")]),
    (⟨"extensions/a/extension.json"⟩, .obj [("name", .str "a")]),
    (⟨"extensions/a/objects/o.json"⟩,
      .obj [("name", .str "e/o"), ("$include", .str "includes/x.json")]),
    (⟨"extensions/e/extension.json"⟩, .obj [("name", .str "e")]),
    (⟨"extensions/e/objects/o.json"⟩, .obj [("name", .str "o")])]

/-- An object whose patch refers to a file of the same extension. -/
def distantObject : List (Path × Json) :=
  [(⟨"objects/o.json"⟩, .obj [("name", .str "o")]),
    (⟨"extensions/a/extension.json"⟩, .obj [("name", .str "a")]),
    (⟨"extensions/a/includes/x.json"⟩, .obj [("description", .str "X")]),
    (⟨"extensions/a/objects/o.json"⟩,
      .obj [("name", .str "o"), ("$include", .str "includes/x.json")])]

/-- The reference of the first patch, with what is planned for the object later. -/
def firstReference (name : String) (place : Location) (after : List Operation) :
    PatchReference where
  target := .inCore .object name
  patch := ⟨.object, name, some "a"⟩
  before := []
  after := after
  scope := .definition
  reference := "includes/x.json"
  place := place

def distantReference : PatchReference :=
  firstReference "o" ⟨.file, "includes/x.json", some "a"⟩ []

def replacedReference : PatchReference :=
  firstReference "e/o" (.inCore .file "includes/x.json")
    [⟨.inCore .object "e/o", .copyExtension ⟨.object, "o", some "e"⟩ "e" (some "e/o")⟩]

/-- The reference in front of a second patch, and of what is included then. -/
def earlierReference (included : Location) : PatchReference :=
  firstReference "o" (.inCore .file "includes/x.json")
    [⟨.inCore .object "o", .mergeExtension ⟨.object, "o", some "b"⟩⟩,
      ⟨.inCore .object "o", .includeFrom included .definition⟩]

theorem reachable_of_twicePatchedObject {later : Fields}
    (hlater : (Json.obj (("name", .str "o") :: later)).WellFormed) {repository : Repository}
    (h : Repository.ofFiles (twicePatchedObject later) = .ok repository) :
    repository.Reachable := by
  refine Repository.Reachable.empty.insertFiles (fun entry hentry => ?_) h
  simp only [twicePatchedObject, List.mem_cons, List.not_mem_nil, or_false] at hentry
  rcases hentry with rfl | rfl | rfl | rfl | rfl | rfl | rfl
  on_goal 7 => exact hlater
  all_goals simp [Json.WellFormed, Json.WellFormedFields]

/-- The file to which a patch refers is included, also if a later patch refers to nothing. -/
theorem include_of_first_patch_is_planned :
    ∃ repository analyzed plan,
      Repository.ofFiles (twicePatchedObject [("caption", .str "O")]) = .ok repository ∧
      (ofRepository repository {}).analyze = .ok analyzed ∧ analyzed.stage.plan? = some plan ∧
      ⟨.inCore .object "o", .includeFrom (.inCore .file "includes/x.json") .definition⟩ ∈
        plan.operationsFor (.inCore .object "o") := by
  have hview : (wayOf (twicePatchedObject [("caption", .str "O")])).map
      (earlierReference (.inCore .file "includes/x.json")).seenIn = some (true, true, true) := by
    decide +kernel
  have hgap : ((Repository.ofFiles (twicePatchedObject [("caption", .str "O")])).toOption.bind
      (·.get? ⟨.object, "o", some "b"⟩)).all
        (·.toJson.hasGap IncludeScope.definition.path) = true := by decide +kernel
  obtain ⟨repository, analyzed, plan, hfiles, hanalyze, hplan, hreference, halike, -⟩ :=
    PatchReference.exists_of_seenIn hview
  obtain ⟨hkind, hplanned, ⟨patch, hpatch, hreference, -⟩, hplace, -⟩ := hreference
  have hr := reachable_of_twicePatchedObject (by simp [Json.WellFormed, Json.WellFormedFields])
    hfiles
  rw [hfiles] at hgap
  refine ⟨repository, analyzed, plan, hfiles, hanalyze, hplan, patch_includes_are_planned hr
    hanalyze hplan hkind hplanned hpatch hreference hplace (halike rfl) (by decide)
    fun p other hother hthere => .inl ?_⟩
  have hp : p = ⟨.object, "o", some "b"⟩ := by
    simpa [earlierReference, firstReference] using hother
  subst hp
  rwa [Except.toOption, Option.bind_some, hthere, Option.all_some] at hgap

/--
A reference of a patch may get lost: if it only leads to a file from the file of the patch, if a
copy replaces the patched definition, or if a later patch refers to something else.
-/
theorem references_of_patches_get_lost :
    (¬ ∀ files repository options analyzed plan, Repository.ofFiles files = .ok repository →
      (ofRepository repository options).analyze = .ok analyzed →
      analyzed.stage.plan? = some plan → ∀ r : PatchReference, r.IsPlanned repository plan →
        r.SurvivesCopies → r.SurvivesPatches repository →
          r.included ∈ plan.operationsFor r.target) ∧
    (¬ ∀ files repository options analyzed plan, Repository.ofFiles files = .ok repository →
      (ofRepository repository options).analyze = .ok analyzed →
      analyzed.stage.plan? = some plan → ∀ r : PatchReference, r.IsPlanned repository plan →
        r.LeadsAlike repository → r.SurvivesPatches repository →
          r.included ∈ plan.operationsFor r.target) ∧
    ¬ ∀ files repository options analyzed plan, Repository.ofFiles files = .ok repository →
      (ofRepository repository options).analyze = .ok analyzed →
      analyzed.stage.plan? = some plan → ∀ r : PatchReference, r.IsPlanned repository plan →
        r.LeadsAlike repository → r.SurvivesCopies →
          r.included ∈ plan.operationsFor r.target := by
  refine ⟨fun hclaim => ?_, fun hclaim => ?_, fun hclaim => ?_⟩
  · have hview : (wayOf distantObject).map distantReference.seenIn = some (true, false, false) := by
      decide +kernel
    obtain ⟨repository, analyzed, plan, hfiles, hanalyze, hplan, hplanned, -, hmissed⟩ :=
      PatchReference.exists_of_seenIn hview
    exact hmissed rfl (hclaim _ repository {} analyzed plan hfiles hanalyze hplan _ hplanned
      (fun _ hlater => absurd hlater List.not_mem_nil)
      fun _ _ _ _ hother => absurd hother List.not_mem_nil)
  · have hview : (wayOf replacedObject).map replacedReference.seenIn =
        some (true, true, false) := by decide +kernel
    obtain ⟨repository, analyzed, plan, hfiles, hanalyze, hplan, hplanned, halike, hmissed⟩ :=
      PatchReference.exists_of_seenIn hview
    refine hmissed rfl (hclaim _ repository {} analyzed plan hfiles hanalyze hplan _ hplanned
      (halike rfl) fun p _ _ _ hother => ?_)
    cases List.mem_singleton.1 hother
  · have hview : (wayOf (twicePatchedObject [("$include", .arr [.str "includes/y.json"])])).map
        (earlierReference (.inCore .file "includes/y.json")).seenIn =
          some (true, true, false) := by decide +kernel
    obtain ⟨repository, analyzed, plan, hfiles, hanalyze, hplan, hplanned, halike, hmissed⟩ :=
      PatchReference.exists_of_seenIn hview
    have hcopies : (earlierReference (.inCore .file "includes/y.json")).SurvivesCopies := by
      simp [PatchReference.SurvivesCopies, earlierReference, firstReference, Action.createsTarget]
    exact hmissed rfl (hclaim _ repository {} analyzed plan hfiles hanalyze hplan _ hplanned
      (halike rfl) hcopies)

end Compilation

end EventSchema
