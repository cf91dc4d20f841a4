import EventSchema.Proofs.ExactOutcomes
import EventSchema.Proofs.StableIdentity

/-!
# Patches that name what they patch

The patch of an extension may give the patched record as its parent.  That only says what it
patches, and the record keeps the parent that it has.  But the record is recognized by the name that
it declares, not by that of its location: one that declares no name gets its own name for a parent.
Both names are the same where the file of the record declares it, as long as no other patch brings
something else.

Main results:

- {lit}`Definition.get?_parentKey_mergeExtension`: what a patch leaves of the parent.
- {lit}`Operation.states_runAll_of_patches`: a text stays as long as no patch contradicts it.
- {lit}`Compilation.marker_keeps_parent`: a patch that names what it patches leaves the parent alone
  if the patched record declares the name of its location.
- {lit}`Compilation.unnamed_object_loses_parent`: otherwise it does not.
-/

namespace EventSchema

/-! ## Texts under patches -/

theorem Json.merge_patch_str (left : Json) (text : String) :
    (Json.merge true left (.str text)).1 = .str text := by
  have hmerge : Json.merge true left (.str text) = Json.replace true left (.str text) := by
    simp [Json.merge]
  rw [hmerge, Json.replace, Bool.true_and]
  split
  · rfl
  · rename_i hkept
    have hsame : left.same (.str text) = true := by
      rwa [Bool.not_eq_true, bne, Bool.not_eq_false'] at hkept
    cases left with
    | str other => exact congrArg Json.str (beq_iff_eq.1 hsame)
    | _ => cases hsame

/-- The text of a patch replaces whatever is there. -/
theorem Fields.get?_mergeField_patch_str {key : String} (hkey : key ≠ profileKey) (left : Fields)
    (text : String) :
    Fields.get? (Fields.mergeField true left key (.str text)).1 key = some (.str text) := by
  rw [get?_mergeField_self, if_neg nofun]
  split
  · rfl
  · rw [if_neg hkey, Json.merge_patch_str]

namespace Definition

/-- What a patch with a parent leaves of the parent of the patched record. -/
theorem get?_parentKey_mergeExtension (d : Definition) {patch : Definition}
    (hpatch : patch.Distinct) {name : String} (h : patch.parentName? = some name) :
    Fields.get? (d.mergeExtension patch).definition.fields parentKey =
      if d.name? = some name then Fields.get? d.fields parentKey else some (.str name) := by
  have hname : Fields.get? patch.fields parentKey = some (.str name) := text?_eq_some_iff.1 h
  unfold mergeExtension
  rw [get?_merge d hpatch, hname]
  by_cases hd : d.name? = some name
  · simp [h, hd, MergeRule.admits, MergeRule.ignoring]
  · have hmarks (hkey : parentKey = parentKey) : ¬ patch.Marks d := by
      rintro ⟨other, hother, hnamed⟩
      exact hd (hnamed.trans (hother.symm.trans h))
    rw [if_neg hd, admits_mergeExtension hmarks, Option.filter_some, if_pos rfl]
    exact Fields.get?_mergeField_patch_str (by decide) d.fields name

/-- A definition states a text under a key, or nothing. -/
def StatesNoOther (d : Definition) (key text : String) : Prop :=
  ∀ value, Fields.get? d.fields key = some value → value.isNull = false → value = .str text

theorem StatesNoOther.of_attributesOnly {d after : Definition} {key text : String}
    (h : d.StatesNoOther key text) (hkey : key ≠ attributesKey) (honly : d.AttributesOnly after) :
    after.StatesNoOther key text :=
  fun value hvalue => h value ((honly.get? key hkey).symm.trans hvalue)

/-- A patch that states nothing else leaves a text. -/
theorem get?_mergeExtension_of_statesNoOther (d : Definition) {patch : Definition}
    (hpatch : patch.Distinct) {key text : String} (hkey : key ≠ profileKey)
    (h : patch.StatesNoOther key text) (hd : Fields.get? d.fields key = some (.str text)) :
    Fields.get? (d.mergeExtension patch).definition.fields key = some (.str text) := by
  unfold mergeExtension
  rw [get?_merge d hpatch]
  split
  · exact hd
  · rename_i value hvalue
    cases hnull : value.isNull with
    | true => rwa [Fields.get?_mergeField_self, if_pos hnull]
    | false =>
      rw [h value (Option.filter_eq_some_iff.1 hvalue).1 hnull]
      exact Fields.get?_mergeField_patch_str hkey d.fields text

end Definition

namespace Operation

/-! ## Runs -/

/-- What each edit of a location does to its definition, a run does. -/
theorem exists_related_runAll {R : Definition → Definition → Prop} (hrefl : ∀ d, R d d)
    (htrans : ∀ {first second third}, R first second → R second third → R first third)
    {l : Location} {ops : List Operation} {options : Options}
    (hops : ∀ op ∈ ops, op.target = l → ∀ draft d revision,
      op.edit draft options d = .ok revision → R d revision.definition)
    {draft : Draft} {d : Definition} (hd : draft.get? l = some d) :
    ∃ after, (runAll options draft ops).get? l = some after ∧ R d after := by
  induction ops generalizing draft d with
  | nil => exact ⟨d, hd, hrefl d⟩
  | cons op rest ih =>
    obtain ⟨next, hnext, hhere⟩ := exists_get?_run_of_edit options hd (hrefl d)
      fun hl revision hedit => hops op List.mem_cons_self hl draft d revision hedit
    obtain ⟨after, hafter, hrest⟩ :=
      ih (fun other hother => hops other (List.mem_cons_of_mem op hother)) hnext
    exact ⟨after, hafter, htrans hhere hrest⟩

section Runs

variable {draft : Draft} {options : Options}

/-- What the planners of the structural phase propose outside of core edits attributes only. -/
theorem editsAttributes_of_emits {planner : Planner}
    (hplanner : planner ∈ Phase.structural.planners) {op : Operation} (h : planner.Emits op)
    (hout : op.target.isCore = false) : op.editsAttributes = true := by
  have hleaves : planner.leavesCore = true := by
    by_contra hstays
    rw [h.core (Bool.eq_false_iff.2 hstays)] at hout
    cases hout
  have haction := h.action
  unfold editsAttributes
  cases planner <;> cases hleaves <;> cases hcase : op.action <;> rw [hcase] at haction <;>
    first | rfl | exact haction.elim

/-- What an operation brings to a location is a patch from outside of core that states nothing else
under a key. -/
def AddsNoOther (draft : Draft) (op : Operation) (key text : String) : Prop :=
  op.action.bringsDefinition = true → ∃ l patch, op.action = .mergeExtension l ∧
    l.isCore = false ∧ draft.get? l = some patch ∧ patch.StatesNoOther key text

theorem states_run_of_addsNoOther {l : Location} {key text : String} (hkey : key ∈ identityKeys)
    {op : Operation} (hop : op.target = l → AddsNoOther draft op key text)
    (hdraft : draft.WellFormed) (options : Options) (h : draft.States l key text) :
    (op.run draft options).States l key text := by
  by_cases hbrings : op.target = l ∧ op.action.bringsDefinition = true
  · obtain ⟨hl, hbrings⟩ := hbrings
    obtain ⟨p, patch, haction, -, hpatch, hstates⟩ := hop hl hbrings
    obtain ⟨d, hd, htext⟩ := h
    have hprofile : ∀ other ∈ identityKeys, other ≠ profileKey := by decide
    refine exists_get?_run_of_edit options hd htext fun _ revision hedit => ?_
    rw [edit, haction] at hedit
    obtain ⟨found, hfound, rfl⟩ := exists_of_map_source hedit
    cases hpatch.symm.trans hfound
    exact d.get?_mergeExtension_of_statesNoOther (hdraft p patch hpatch).distinct
      (hprofile key hkey) hstates htext
  · exact states_run hkey (fun hl => Bool.eq_false_iff.2 fun hb => hbrings ⟨hl, hb⟩) options h

/-- A text stays as long as no patch contradicts it. -/
theorem states_runAll_of_patches {l : Location} {key text : String} (hkey : key ∈ identityKeys)
    {ops : List Operation}
    (hout : ∀ op ∈ ops, op.target.isCore = false → op.editsAttributes = true)
    (hops : ∀ op ∈ ops, op.target = l → AddsNoOther draft op key text)
    (hdraft : draft.WellFormed) (h : draft.States l key text) :
    (runAll options draft ops).States l key text := by
  have hplain : ∀ other ∈ identityKeys, other ≠ Definition.attributesKey := by decide
  induction ops generalizing draft with
  | nil => exact h
  | cons op rest ih =>
    rw [runAll_cons]
    refine ih (fun other hother => hout other (List.mem_cons_of_mem op hother))
      (fun other hother htarget hbrings => ?_) (hdraft.run op options) ?_
    · obtain ⟨p, patch, haction, hp, hpatch, hstates⟩ :=
        hops other (List.mem_cons_of_mem op hother) htarget hbrings
      obtain ⟨after, hafter, honly⟩ := exists_get?_run_of_edit options hpatch (.refl patch)
        fun heq _ hedit => attributesOnly_edit hedit (hout op List.mem_cons_self (heq ▸ hp))
      exact ⟨p, after, haction, hp, hafter, hstates.of_attributesOnly (hplain key hkey) honly⟩
    · exact states_run_of_addsNoOther hkey (hops op List.mem_cons_self) hdraft options h

end Runs

/-! ## One patch in a run -/

section Patch

variable {draft : Draft} {options : Options} {op : Operation} {l : Location}
  (haction : op.action = .mergeExtension l) {d patch : Definition}
  (hd : draft.get? op.target = some d) (hpatch : draft.get? l = some patch)
  (hwellFormed : patch.WellFormed) (h : (op.outcome draft options).isFailed = false)

include haction hd hpatch hwellFormed h

/-- A patch that does not fail leaves the patched definition at its target. -/
theorem get?_run_mergeExtension :
    (op.run draft options).get? op.target = some (d.mergeExtension patch).definition := by
  refine get?_run_of_merge hwellFormed hd ?_ h
  simp only [edit, haction, source, hpatch]
  rfl

/-- A patch with a parent leaves the parent of a record that declares the name of that parent, and
makes it the parent of every other one. -/
theorem exists_get?_parentKey_run {name : String} (hname : patch.parentName? = some name) :
    ∃ after, (op.run draft options).get? op.target = some after ∧
      Fields.get? after.fields Definition.parentKey =
        if d.name? = some name then Fields.get? d.fields Definition.parentKey
        else some (.str name) :=
  ⟨_, get?_run_mergeExtension haction hd hpatch hwellFormed h,
    d.get?_parentKey_mergeExtension hwellFormed.distinct hname⟩

end Patch

end Operation

namespace Compilation

open Operation

/-- It is the turn of an operation after others: of an operation for an extension when the planner
of extensions emits it, or of any operation of the structural phase as scheduled. -/
inductive Turn (options : Options) (repository : Repository) : List Operation → Operation → Prop
  | planned {preparations before after : List Operation} {op : Operation}
      (hpreparations : Proposes options (.ofRepository repository) [.profileTag, .annotations]
        preparations)
      (hsplit : Planner.applyExtensions
        (runAll options (.ofRepository repository) preparations) options = before ++ op :: after) :
      Turn options repository (preparations ++ before) op
  | scheduled {ops before after : List Operation} {op : Operation}
      (hops : Proposes options (.ofRepository repository) Phase.structural.planners ops)
      (hsplit : (PhasePlan.ofOperations .structural ops).schedule = before ++ op :: after) :
      Turn options repository before op

theorem mem_structural_of_preparing : ∀ planner ∈ [Planner.profileTag, .annotations],
    planner ∈ Phase.structural.planners := by decide

section Turn

variable {repository : Repository} {options : Options} {before : List Operation} {op : Operation}

/-- An operation and everything in front of it come from the structural phase. -/
theorem Turn.exists_emits (h : Turn options repository before op) {other : Operation}
    (hother : other ∈ before ++ [op]) :
    ∃ planner ∈ Phase.structural.planners, planner.Emits other := by
  cases h with
  | @planned preparations _ _ _ hpreparations hsplit =>
    rw [List.append_assoc] at hother
    rcases List.mem_append.1 hother with hother | hother
    · obtain ⟨planner, hplanner, hemits⟩ := hpreparations.exists_emits hother
      exact ⟨planner, mem_structural_of_preparing planner hplanner, hemits⟩
    · have hmem : other ∈ Planner.applyExtensions
          (runAll options (.ofRepository repository) preparations) options := by
        rw [hsplit, List.append_cons]
        exact List.mem_append_left _ hother
      exact ⟨_, Planner.extension_mem_structural, Planner.emits_applyExtensions hmem⟩
  | @scheduled ops _ _ _ hops hsplit =>
    refine hops.exists_emits ((PhasePlan.schedule_perm .structural ops).mem_iff.1 ?_)
    rw [hsplit, List.append_cons]
    exact List.mem_append_left _ hother

/-- An operation finds everything in place when it is its turn, and succeeds. -/
theorem Turn.succeeds (h : Turn options repository before op) (hr : repository.Reachable) :
    (runAll options (.ofRepository repository) before).Grounds op ∧
      (op.outcome (runAll options (.ofRepository repository) before) options).isFailed = false := by
  cases h with
  | planned hpreparations hsplit =>
    have hintact := intact_of_proposes hr mem_structural_of_preparing hpreparations
    rw [runAll_append]
    exact Planner.succeeds_applyExtensions hintact hsplit
  | scheduled hops hsplit => exact succeeds_schedule hr hops hsplit

/-- Outside of core a definition stays as authored but for its attributes. -/
theorem Turn.exists_attributesOnly (h : Turn options repository before op) {l : Location}
    (hl : l.isCore = false) {d : Definition} (hd : repository.get? l = some d) :
    ∃ here, (runAll options (.ofRepository repository) before).get? l = some here ∧
      d.AttributesOnly here := by
  refine exists_related_runAll Definition.AttributesOnly.refl .trans
    (fun other hother htarget _ _ _ hedit => ?_) ((Draft.get?_ofRepository repository l).trans hd)
  obtain ⟨planner, hplanner, hemits⟩ := h.exists_emits (List.mem_append_left [op] hother)
  exact attributesOnly_edit hedit (editsAttributes_of_emits hplanner hemits (htarget ▸ hl))

/-- Patches come from outside of core. -/
theorem isCore_of_emits_mergeExtension {planner : Planner} {op : Operation}
    (h : planner.Emits op) {l : Location} (haction : op.action = .mergeExtension l) :
    l.isCore = false := by
  have hemits := h.action
  rw [haction] at hemits
  cases planner <;> first | exact hemits | exact hemits.elim

/-- A record goes by the name of its location as long as its file declares it and no patch brings
something else for a name. -/
theorem Turn.states_name (h : Turn options repository before op) (hr : repository.Reachable)
    {l : Location} {d : Definition} (hd : repository.get? l = some d)
    (hname : d.name? = some l.name)
    (hpatches : ∀ earlier ∈ before, earlier.target = l →
      earlier.action.bringsDefinition = true → ∃ p other, earlier.action = .mergeExtension p ∧
        repository.get? p = some other ∧ other.StatesNoOther "name" l.name) :
    (runAll options (.ofRepository repository) before).States l "name" l.name := by
  refine states_runAll_of_patches (by decide) (fun other hother hout => ?_)
    (fun earlier hearlier htarget hbrings => ?_) (Draft.wellFormed_ofRepository hr.sound)
    ⟨d, (Draft.get?_ofRepository repository l).trans hd, Definition.text?_eq_some_iff.1 hname⟩
  · obtain ⟨planner, hplanner, hemits⟩ := h.exists_emits (List.mem_append_left [op] hother)
    exact editsAttributes_of_emits hplanner hemits hout
  · obtain ⟨p, other, haction, hother, hstates⟩ := hpatches earlier hearlier htarget hbrings
    obtain ⟨planner, -, hemits⟩ := h.exists_emits (List.mem_append_left [op] hearlier)
    exact ⟨p, other, haction, isCore_of_emits_mergeExtension hemits haction,
      (Draft.get?_ofRepository repository p).trans hother, hstates⟩

/--
A patch that gives the name of the patched location as its parent leaves the parent alone, be it
there, absent or null, if the record declares that name when it is patched; otherwise the record
becomes its own parent.  It does declare the name if its file does, no copy has replaced it, and no
earlier patch has something else for a name.
-/
theorem marker_keeps_parent (hr : repository.Reachable) (h : Turn options repository before op)
    {l : Location} (haction : op.action = .mergeExtension l) {patch : Definition}
    (hpatch : repository.get? l = some patch)
    (hmarker : patch.parentName? = some op.target.name) :
    let here := runAll options (.ofRepository repository) before
    ∃ d after, here.get? op.target = some d ∧ (op.run here options).get? op.target = some after ∧
      (op.outcome here options).isFailed = false ∧
      (Fields.get? after.fields Definition.parentKey =
        if d.name? = some op.target.name then Fields.get? d.fields Definition.parentKey
        else some (.str op.target.name)) ∧
      ∀ authored, repository.get? op.target = some authored →
        authored.name? = some op.target.name →
        (∀ earlier ∈ before, earlier.target = op.target →
          earlier.action.bringsDefinition = true → ∃ p other, earlier.action = .mergeExtension p ∧
            repository.get? p = some other ∧ other.StatesNoOther "name" op.target.name) →
        d.name? = some op.target.name := by
  intro here
  obtain ⟨hgrounds, hsucceeds⟩ := h.succeeds hr
  have hthere : here.contains op.target = true := by
    refine hgrounds.target.resolve_left ?_
    rw [haction]
    exact nofun
  obtain ⟨d, hd⟩ := Option.isSome_iff_exists.1 hthere
  obtain ⟨planner, -, hemits⟩ :=
    h.exists_emits (List.mem_append_right before (List.mem_singleton_self op))
  have hl : l.isCore = false := isCore_of_emits_mergeExtension hemits haction
  obtain ⟨found, hfound, honly⟩ := h.exists_attributesOnly hl hpatch
  have hwellFormed : here.WellFormed :=
    (Draft.wellFormed_ofRepository hr.sound).runAll options before
  have hname : found.parentName? = some op.target.name :=
    (honly.text?_eq (by decide)).trans hmarker
  obtain ⟨after, hafter, hparent⟩ :=
    exists_get?_parentKey_run haction hd hfound (hwellFormed l found hfound) hsucceeds hname
  refine ⟨d, after, hd, hafter, hsucceeds, hparent, fun authored hauthored hdeclared hpatches => ?_⟩
  obtain ⟨other, hother, hstates⟩ := h.states_name hr hauthored hdeclared hpatches
  cases hd.symm.trans hother
  exact Definition.text?_eq_some_iff.2 hstates

end Turn

/-! ## A declared name and a missing one -/

/-- An object with a parent, and a patch that names it. -/
def patchedObject (file : Fields) : List (Path × Json) :=
  [(⟨"objects/base.json"⟩, .obj [("name", .str "base")]),
    (⟨"objects/file.json"⟩, .obj (("extends", .str "base") :: file)),
    (⟨"extensions/win/extension.json"⟩, .obj [("name", .str "win")]),
    (⟨"extensions/win/objects/file.json"⟩,
      .obj [("extends", .str "file"), ("caption", .str "Windows File")])]

/-- The location from which an action brings a patch. -/
def patchSource? : Action → Option Location
  | .mergeExtension l => some l
  | _ => none

/-- Where an operation goes and which patch it brings; then the parent that the patch gives, the
declared name of the target, and its parent before and after the operation. -/
def parentsAround (seen : Draft) (op : Operation) :
    Location × Option Location × List (Option String) :=
  (op.target, patchSource? op.action,
    [(patchSource? op.action).bind fun l => (seen.repository.get? l).bind Definition.parentName?,
      (seen.get? op.target).bind Definition.name?,
      (seen.get? op.target).bind Definition.parentName?,
      ((op.run seen {}).get? op.target).bind Definition.parentName?])

/-- The only operation for an extension when it is its turn. -/
theorem exists_turn_of_parentsAround {files : List (Path × Json)} {target l : Location}
    {given : String} {name parent later : Option String}
    (h : (seenByExtensions files).map
      (fun seen => (Planner.applyExtensions seen {}).map (parentsAround seen)) =
        some [(target, some l, [some given, name, parent, later])]) :
    ∃ repository before op patch, Repository.ofFiles files = .ok repository ∧
      Turn {} repository before op ∧ op.target = target ∧ op.action = .mergeExtension l ∧
      repository.get? l = some patch ∧ patch.parentName? = some given ∧
      ((runAll {} (.ofRepository repository) before).get? target).bind Definition.name? = name ∧
      ((runAll {} (.ofRepository repository) before).get? target).bind Definition.parentName? =
        parent ∧
      ((op.run (runAll {} (.ofRepository repository) before) {}).get? target).bind
        Definition.parentName? = later := by
  obtain ⟨repository, seen, hfiles, hseen, hview⟩ := exists_of_seenByExtensions h
  obtain ⟨preparations, hpreparations, rfl⟩ := seenBy_eq_ok_iff.1 hseen
  obtain ⟨⟨here, action⟩, hop, hparents⟩ := List.map_eq_singleton_iff.1 hview
  have hturn : Turn {} repository (preparations ++ []) ⟨here, action⟩ :=
    .planned hpreparations hop
  rw [List.append_nil] at hturn
  simp only [parentsAround, Prod.mk.injEq, List.cons.injEq, and_true] at hparents
  obtain ⟨rfl, haction, hgiven, hname, hparent, hlater⟩ := hparents
  rw [haction, Option.bind_some, repository_runAll] at hgiven
  obtain ⟨patch, hpatch, hgiven⟩ := Option.bind_eq_some_iff.1 hgiven
  refine ⟨repository, preparations, _, patch, hfiles, hturn, rfl, ?_, hpatch, hgiven, hname,
    hparent, hlater⟩
  cases action with
  | mergeExtension source => exact congrArg Action.mergeExtension (Option.some.inj haction)
  | _ => cases haction

theorem reachable_of_patchedObject {file : Fields}
    (hfile : (Json.obj (("extends", .str "base") :: file)).WellFormed) {repository : Repository}
    (h : Repository.ofFiles (patchedObject file) = .ok repository) : repository.Reachable := by
  refine Repository.Reachable.empty.insertFiles (fun entry hentry => ?_) h
  simp only [patchedObject, List.mem_cons, List.not_mem_nil, or_false] at hentry
  rcases hentry with rfl | rfl | rfl | rfl
  · simp [Json.WellFormed, Json.WellFormedFields]
  · exact hfile
  · simp [Json.WellFormed, Json.WellFormedFields]
  · simp [Json.WellFormed, Json.WellFormedFields]

/-- An object that declares its name keeps its parent under a patch that names the object. -/
theorem named_object_keeps_parent :
    ∃ repository before op after,
      Repository.ofFiles (patchedObject [("name", .str "file")]) = .ok repository ∧
      Turn {} repository before op ∧
      op.action = .mergeExtension ⟨.object, "file", some "win"⟩ ∧
      (op.run (runAll {} (.ofRepository repository) before) {}).get? op.target = some after ∧
      Fields.get? after.fields Definition.parentKey = some (.str "base") := by
  have hview : (seenByExtensions (patchedObject [("name", .str "file")])).map
      (fun seen => (Planner.applyExtensions seen {}).map (parentsAround seen)) =
        some [(.inCore .object "file", some ⟨.object, "file", some "win"⟩,
          [some "file", some "file", some "base", some "base"])] := by decide +kernel
  obtain ⟨repository, before, op, patch, hfiles, hturn, htarget, haction, hpatch, hmarker, hname,
    hparent, -⟩ := exists_turn_of_parentsAround hview
  have hr := reachable_of_patchedObject
    (by simp [Json.WellFormed, Json.WellFormedFields]) hfiles
  have hnamed : op.target.name = "file" := by rw [htarget]; rfl
  obtain ⟨d, after, hd, hafter, -, hkept, -⟩ :=
    marker_keeps_parent hr hturn haction hpatch (hnamed ▸ hmarker)
  rw [← htarget, hd, Option.bind_some] at hname hparent
  refine ⟨repository, before, op, after, hfiles, hturn, haction, hafter, ?_⟩
  rw [hkept, hnamed, if_pos hname]
  exact Definition.text?_eq_some_iff.1 hparent

/-- An object without a name loses its parent to a patch that names the object. -/
theorem unnamed_object_loses_parent :
    ¬ ∀ (files : List (Path × Json)) repository options before op l patch d,
      Repository.ofFiles files = .ok repository → Turn options repository before op →
      op.action = .mergeExtension l → repository.get? l = some patch →
      patch.parentName? = some op.target.name →
      (runAll options (.ofRepository repository) before).get? op.target = some d →
      ∃ after, (op.run (runAll options (.ofRepository repository) before) options).get? op.target =
          some after ∧ Fields.get? after.fields Definition.parentKey =
            Fields.get? d.fields Definition.parentKey := by
  intro hclaim
  have hview : (seenByExtensions (patchedObject [("caption", .str "File")])).map
      (fun seen => (Planner.applyExtensions seen {}).map (parentsAround seen)) =
        some [(.inCore .object "file", some ⟨.object, "file", some "win"⟩,
          [some "file", none, some "base", some "file"])] := by decide +kernel
  obtain ⟨repository, before, op, patch, hfiles, hturn, htarget, haction, hpatch, hmarker, -,
    hparent, hlater⟩ := exists_turn_of_parentsAround hview
  have hnamed : op.target.name = "file" := by rw [htarget]; rfl
  obtain ⟨d, hd, hbase⟩ := Option.bind_eq_some_iff.1 hparent
  rw [← htarget] at hd hlater
  obtain ⟨after, hafter, hkept⟩ := hclaim _ repository {} before op _ patch d hfiles hturn haction
    hpatch (hnamed ▸ hmarker) hd
  rw [hafter, Option.bind_some] at hlater
  have hfile : Fields.get? after.fields Definition.parentKey = some (.str "file") :=
    Definition.text?_eq_some_iff.1 hlater
  have hbase : Fields.get? d.fields Definition.parentKey = some (.str "base") :=
    Definition.text?_eq_some_iff.1 hbase
  rw [hfile, hbase, Option.some.injEq, Json.str.injEq] at hkept
  exact absurd hkept (by decide)

end Compilation

end EventSchema
