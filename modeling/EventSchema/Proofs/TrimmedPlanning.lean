import EventSchema.Proofs.ExtensionTable
import EventSchema.Proofs.TrimmedDrafts

/-!
# Planning without an extension

Planners are compared on two drafts, one over a repository with a disabled extension and one over the
repository without it.  Apart from tags and annotations inside of the extension they propose the same
operations: what is listed in core is the same, names and files mean the same, and identifiers are
looked up by the names of other extensions only.

Main results:

- {lit}`Planner.spares_of_mem`: what is proposed spares a disabled extension.
- {lit}`Planner.analyze_trimmed`: without the extension the same is proposed outside of it.
-/

namespace EventSchema

open Std Operation

namespace Repository

/--
An extension is declared but does not apply, and no other extension goes by its directory or its
declared name.
-/
structure Disables (r : Repository) (options : Options) (extension declared : String) : Prop where
  declares : ∃ d, r.get? (.inCore .extension extension) = some d ∧
    d.name?.getD extension = declared
  disabled : options.isExtensionEnabled extension (some declared) = false
  others : ∀ other d, r.get? (.inCore .extension other) = some d → other ≠ extension →
    other ≠ declared ∧ d.name?.getD other ≠ extension ∧ d.name?.getD other ≠ declared

/-- Whether an extension is disabled can be told from the definitions of a repository. -/
theorem disables_iff {r : Repository} {options : Options} {extension declared : String} :
    r.Disables options extension declared ↔
      (r.get? (.inCore .extension extension)).map (fun d => d.name?.getD extension) =
          some declared ∧
        options.isExtensionEnabled extension (some declared) = false ∧
        ∀ e ∈ r.definitions.toList, e.1 = .inCore .extension e.1.name → e.1.name ≠ extension →
          e.1.name ≠ declared ∧ e.2.name?.getD e.1.name ≠ extension ∧
            e.2.name?.getD e.1.name ≠ declared := by
  rw [Option.map_eq_some_iff]
  constructor
  · rintro ⟨hdeclares, hdisabled, hothers⟩
    refine ⟨hdeclares, hdisabled, fun e he hl hne => ?_⟩
    exact hothers e.1.name e.2 (hl ▸ mem_toList_definitions.1 he) hne
  · rintro ⟨hdeclares, hdisabled, hothers⟩
    refine ⟨hdeclares, hdisabled, fun other d hd hne => ?_⟩
    exact hothers (.inCore .extension other, d) (mem_toList_definitions.2 hd) rfl hne

instance (r : Repository) (options : Options) (extension declared : String) :
    Decidable (r.Disables options extension declared) :=
  decidable_of_iff' _ disables_iff

end Repository

namespace Draft

/-! ## Declared names -/

/-- Declarations of extensions are in core. -/
theorem KeepsApart.isCore {extension declared : String} {draft : Draft}
    (hapart : draft.KeepsApart extension declared) (hplaced : draft.repository.Placed)
    {l : Location} {d : Definition} (hget : draft.get? l = some d) (hkind : l.kind = .extension) :
    l.isCore = true := by
  rw [hapart.declarations l hkind] at hget
  exact hplaced.isCore hget hkind

/-- The names of extensions stay as they are declared. -/
theorem KeepsApart.getElem?_declaredNames {extension declared : String} {draft : Draft}
    (hapart : draft.KeepsApart extension declared) (hplaced : draft.repository.Placed)
    (x : String) :
    draft.declaredNames[x]? =
      (draft.repository.get? (.inCore .extension x)).map fun d => d.name?.getD x := by
  rw [Draft.getElem?_declaredNames fun l d => hapart.isCore hplaced, hapart.declarations _ rfl]

/-! ## What is listed, and what names mean -/

/-- Among other kinds no extension is listed. -/
theorem kind_ne_of_mem_core {draft : Draft} {kinds : List Kind} (hkinds : Kind.extension ∉ kinds)
    {e : Location × Definition} (h : e ∈ draft.core kinds) : e.1.kind ≠ .extension :=
  fun heq => hkinds (heq ▸ Planner.kind_of_mem_core h)

/-- What is listed in core, unless it is an extension, belongs to none. -/
theorem not_belongsTo_of_mem_core {draft : Draft} {kinds : List Kind}
    (hkinds : Kind.extension ∉ kinds) {e : Location × Definition} (h : e ∈ draft.core kinds)
    (extension : String) : ¬ e.1.BelongsTo extension :=
  Location.not_belongsTo_of_isCore (Planner.isCore_of_mem_core h) (kind_ne_of_mem_core hkinds h)
    extension

namespace Trims

variable {extension declared : String} {draft trimmed : Draft}

/-- A trimmed draft has the same definitions in core. -/
theorem get?_inCore (h : draft.Trims extension trimmed) {l : Location} (hcore : l.isCore = true)
    (hkind : l.kind ≠ .extension) : trimmed.get? l = draft.get? l := by
  rw [h.get?_eq, if_neg (Location.not_belongsTo_of_isCore hcore hkind extension)]

/-- A trimmed draft lists the same definitions in core. -/
theorem core_eq (h : draft.Trims extension trimmed) {kinds : List Kind}
    (hkinds : .extension ∉ kinds) : trimmed.core kinds = draft.core kinds :=
  core_congr fun _ hcore hkind => h.get?_inCore hcore fun heq => hkinds (heq ▸ hkind)

/-- In a trimmed draft the same is found under a name. -/
theorem find?_eq (h : draft.Trims extension trimmed) {kinds : List Kind}
    (hkinds : .extension ∉ kinds) (name : String) (preferred : Option String) :
    trimmed.find? kinds name preferred = draft.find? kinds name preferred := by
  rw [find?, find?, h.core_eq hkinds]

/-- A trimmed draft has the same categories. -/
theorem category?_eq (h : draft.Trims extension trimmed) (name : String) :
    trimmed.category? name = draft.category? name := by
  rw [category?, category?, h.find?_eq (by decide)]
  refine Option.bind_congr fun l hl => ?_
  obtain ⟨d, hmem⟩ := exists_of_find? hl
  exact h.get?_inCore (Planner.isCore_of_mem_core hmem) (kind_ne_of_mem_core (by decide) hmem)

/-- The listing of all definitions lacks those that belong to the extension. -/
theorem toList_definitions (h : draft.Trims extension trimmed) :
    trimmed.definitions.toList =
      draft.definitions.toList.filter fun e => !decide (e.1.BelongsTo extension) := by
  have hfilter : trimmed.definitions =
      draft.definitions.filter fun l _ => !decide (l.BelongsTo extension) := by
    ext l : 1
    rw [ExtTreeMap.getElem?_filter', getElem?_definitions, getElem?_definitions, h.get?_eq]
    by_cases hl : l.BelongsTo extension
    · rw [if_pos hl, decide_eq_true hl]
      cases draft.get? l <;> rfl
    · rw [if_neg hl, decide_eq_false hl]
      cases draft.get? l <;> rfl
  rw [hfilter, ExtTreeMap.toList_filter]

/-- Outside of the extension definitions come from the same files. -/
theorem sourcePath?_eq (h : draft.Trims extension trimmed)
    (hapart : draft.KeepsApart extension declared) (hplaced : draft.repository.Placed)
    {l : Location} (hl : ¬ l.BelongsTo extension) : trimmed.sourcePath? l = draft.sourcePath? l := by
  have horigin : ((trimmed.origin? l).bind trimmed.repository.sourcePath?) =
      (draft.origin? l).bind draft.repository.sourcePath? := by
    rw [← (h.agree l hl).origin]
    refine Option.bind_congr fun origin horigin => ?_
    rw [h.repository, Repository.sourcePath?_without_of_not_belongsTo hplaced extension
      (hapart.origins l origin horigin)]
  rw [sourcePath?, sourcePath?, horigin, h.repository,
    Repository.sourcePath?_without_of_not_belongsTo hplaced extension hl]

/-- Without an extension, its name is not declared, and all others are. -/
theorem declaredNames_eq (h : draft.Trims extension trimmed)
    (hapart : draft.KeepsApart extension declared) (hplaced : draft.repository.Placed) :
    trimmed.declaredNames = draft.declaredNames.filter fun x _ => !decide (x = extension) := by
  have hcore (l : Location) (d : Definition) (hget : trimmed.get? l = some d)
      (hkind : l.kind = .extension) : l.isCore = true := by
    rw [h.get?_eq] at hget
    exact hapart.isCore hplaced (Option.ite_none_left_eq_some.1 hget).2 hkind
  have hbelongs (x : String) :
      (Location.inCore .extension x).BelongsTo extension ↔ x = extension := by
    constructor
    · rintro (hextension | heq)
      · cases hextension
      · exact congrArg Location.name heq
    · rintro rfl
      exact Or.inr rfl
  ext x : 1
  rw [ExtTreeMap.getElem?_filter', Draft.getElem?_declaredNames hcore,
    Draft.getElem?_declaredNames fun l d => hapart.isCore hplaced, h.get?_eq]
  by_cases hx : x = extension
  · rw [if_pos ((hbelongs x).2 hx), decide_eq_true hx]
    cases draft.get? (.inCore .extension x) <;> rfl
  · rw [if_neg fun hb => hx ((hbelongs x).1 hb), decide_eq_false hx]
    cases draft.get? (.inCore .extension x) <;> rfl

end Trims

end Draft

namespace Planner

variable {options : Options} {extension declared : String} {draft trimmed : Draft}

/-! ## What is proposed spares the extension -/

/-- No planner edits the declaration of an extension. -/
theorem extension_not_mem_targetKinds (planner : Planner) :
    Kind.extension ∉ planner.targetKinds := by
  cases planner <;> decide

/-- Nothing inherits from the declaration of an extension. -/
theorem extension_not_mem_family {kind : Kind} : Kind.extension ∉ kind.family :=
  fun hmem => absurd (Kind.mem_records_of_family hmem) (by decide)

/-- Planners that do not leave core edit nothing that belongs to an extension. -/
theorem Emits.not_belongsTo {planner : Planner} {op : Operation} (h : planner.Emits op)
    (hplanner : planner.leavesCore = false) (extension : String) :
    ¬ op.target.BelongsTo extension :=
  Location.not_belongsTo_of_isCore (h.core hplanner)
    (fun heq => extension_not_mem_targetKinds planner (heq ▸ h.kind)) extension

/-- Planners that leave core propose operations that read nothing. -/
theorem Emits.prerequisites_eq_nil {planner : Planner} {op : Operation} (h : planner.Emits op)
    (hplanner : planner.leavesCore = true) : op.prerequisites = [] := by
  have haction := h.action
  refine List.eq_nil_iff_forall_not_mem.2 fun p hp => ?_
  cases planner with
  | profileTag => exact h.reads hp
  | annotations => exact h.reads hp
  | _ => cases hplanner

/-- What is brought to core is brought from an extension that applies. -/
theorem exists_of_mem_applyExtensions {op : Operation} (h : op ∈ applyExtensions draft options) :
    ∃ l directory name, l.kind ∈ extensionKinds ∧ l.extension = some directory ∧
      draft.declaredNames[directory]? = some name ∧
      options.isExtensionEnabled directory (some name) = true ∧
      op = applyExtension draft options name l := by
  obtain ⟨l, hmem, hop⟩ := List.mem_filterMap.1 h
  obtain ⟨directory, hdirectory, hop⟩ := Option.bind_eq_some_iff.1 hop
  obtain ⟨name, hname, hop⟩ := Option.bind_eq_some_iff.1 hop
  obtain ⟨henabled, hop⟩ := Option.ite_none_right_eq_some.1 hop
  exact ⟨l, directory, name, List.contains_iff_mem.1 (List.mem_filter.1 hmem).2, hdirectory, hname,
    henabled, (Option.some.inj hop).symm⟩

/-- What an extension brings is all that it requires. -/
theorem prerequisites_applyExtension (draft : Draft) (options : Options) (name : String)
    (l : Location) : (applyExtension draft options name l).prerequisites = [l] := by
  unfold applyExtension
  split <;> rfl

/-- A copy of an extension is made in its declared name. -/
theorem eq_of_applyExtension {name other : String} {l source : Location} {key : Option String}
    (h : (applyExtension draft options name l).action = .copyExtension source other key) :
    other = name := by
  unfold applyExtension at h
  split at h
  · cases h
  · cases h
    rfl

section

variable (hapart : draft.KeepsApart extension declared) (hplaced : draft.repository.Placed)
  (hdisabled : draft.repository.Disables options extension declared)

include hapart hplaced hdisabled

/-- The extension is declared under its name. -/
theorem declaredNames_self : draft.declaredNames[extension]? = some declared := by
  obtain ⟨d, hd, hname⟩ := hdisabled.declares
  rw [hapart.getElem?_declaredNames hplaced, hd, ← hname]
  rfl

/-- An extension that applies is another one, and does not go by the same names. -/
theorem ne_of_isExtensionEnabled {directory name : String}
    (hname : draft.declaredNames[directory]? = some name)
    (henabled : options.isExtensionEnabled directory (some name) = true) :
    directory ≠ extension ∧ name ≠ extension ∧ name ≠ declared := by
  have hne : directory ≠ extension := by
    rintro rfl
    rw [declaredNames_self hapart hplaced hdisabled] at hname
    cases hname
    rw [hdisabled.disabled] at henabled
    cases henabled
  rw [hapart.getElem?_declaredNames hplaced] at hname
  obtain ⟨d, hd, rfl⟩ := Option.map_eq_some_iff.1 hname
  exact ⟨hne, (hdisabled.others directory d hd hne).2⟩

/-- Whatever is rendered does not belong to an extension that is disabled. -/
theorem entriesOf_eq_nil {l : Location} {d : Definition} (hl : l.BelongsTo extension)
    (hcore : l.isCore = true) : entriesOf options draft.declaredNames l d = [] := by
  rcases hl with hextension | rfl
  · rw [Location.isCore, hextension] at hcore
    cases hcore
  · have hname := declaredNames_self hapart hplaced hdisabled
    simp only [entriesOf, Location.inCore, hname, Option.getD_some, hdisabled.disabled]
    rfl

/-- Operations read nothing of a disabled extension, if includes do not. -/
theorem not_belongsTo_of_mem_prerequisites {planner : Planner} {ops : List Operation}
    (hops : planner.analyze draft options = .ok ops) {op : Operation} (hop : op ∈ ops)
    {p : Location} (hp : p ∈ op.prerequisites) (hincludes : planner ≠ .includes) :
    ¬ p.BelongsTo extension := by
  have hemits := emits_of_mem hops hop
  have hreads := hemits.reads hp
  cases planner with
  | extension =>
    cases hops
    obtain ⟨l, directory, name, hkind, hdirectory, hname, henabled, rfl⟩ :=
      exists_of_mem_applyExtensions hop
    rw [prerequisites_applyExtension, List.mem_singleton] at hp
    subst hp
    have hne := (ne_of_isExtensionEnabled hapart hplaced hdisabled hname henabled).1
    rintro (hextension | rfl)
    · rw [hdirectory] at hextension
      exact hne (Option.some.inj hextension)
    · cases hdirectory
  | includes => exact absurd rfl hincludes
  | inheritance =>
    obtain ⟨child, parent, hparent, rfl⟩ := ((inheritsOnce_of_inherit hops).1.complete op).1 hop
    obtain ⟨d, name, -, -, -, -, -, -, hfound, -⟩ := hparent
    obtain ⟨d', hmem⟩ := Draft.exists_of_find? hfound
    rw [List.mem_singleton.1 hp]
    exact Draft.not_belongsTo_of_mem_core extension_not_mem_family hmem extension
  | dictionary =>
    cases hops
    obtain ⟨⟨l, d⟩, -, hop⟩ := List.mem_flatMap.1 hop
    obtain ⟨⟨name, body⟩, -, hop⟩ := List.mem_filterMap.1 hop
    obtain ⟨entry, -, hop⟩ := Option.bind_eq_some_iff.1 hop
    obtain ⟨-, hop⟩ := Option.ite_none_left_eq_some.1 hop
    cases hop
    rw [List.mem_singleton.1 hp]
    exact Location.not_belongsTo_of_isCore rfl (by simp [Location.inCore]) extension
  | rendering =>
    cases hops
    obtain ⟨l, d, -, hcore, htarget, haction⟩ := mem_render hop
    rw [prerequisites, haction, Action.source?, Option.mem_toList] at hp
    cases hp
    intro hbelongs
    rw [entriesOf_eq_nil hapart hplaced hdisabled hbelongs hcore] at htarget
    cases htarget
  | _ => exact hreads.elim

/-- What is proposed spares a disabled extension, if includes do. -/
theorem spares_of_mem {planner : Planner} {ops : List Operation}
    (hops : planner.analyze draft options = .ok ops)
    (hincludes : planner = .includes →
      ∀ op ∈ includeFiles draft options, ∀ p ∈ op.prerequisites, ¬ p.BelongsTo extension) :
    ∀ op ∈ ops, op.Spares extension declared := by
  intro op hop
  have hemits := emits_of_mem hops hop
  refine ⟨fun p hp => ?_, fun heq => ?_, fun source other key haction => ?_⟩
  · cases hcore : planner.leavesCore with
    | true =>
      rw [hemits.prerequisites_eq_nil hcore] at hp
      cases hp
    | false =>
      refine ⟨hemits.not_belongsTo hcore extension, ?_⟩
      by_cases hplanner : planner = .includes
      · subst hplanner
        cases hops
        exact hincludes rfl op hop p hp
      · exact not_belongsTo_of_mem_prerequisites hapart hplaced hdisabled hops hop hp hplanner
  · exact extension_not_mem_targetKinds planner (heq ▸ hemits.kind)
  · have hacts := hemits.action
    rw [haction] at hacts
    cases planner with
    | extension =>
      cases hops
      obtain ⟨l, directory, name, -, -, hname, henabled, rfl⟩ := exists_of_mem_applyExtensions hop
      rw [eq_of_applyExtension haction]
      exact (ne_of_isExtensionEnabled hapart hplaced hdisabled hname henabled).2
    | _ => exact hacts.elim

end

/-! ## The same is proposed -/

/-- Operations on their own definitions are left out together with these. -/
theorem filterMap_filter_belongsTo {entries : List (Location × Definition)}
    {propose : Location × Definition → Option Operation}
    (h : ∀ e op, propose e = some op → op.target = e.1) :
    (entries.filter fun e => !decide (e.1.BelongsTo extension)).filterMap propose =
      within (fun l => ¬ l.BelongsTo extension) (entries.filterMap propose) := by
  induction entries with
  | nil => rfl
  | cons e rest ih =>
    by_cases he : e.1.BelongsTo extension
    · rw [List.filter_cons_of_neg (by simp [he]), ih]
      cases hop : propose e with
      | none => rw [List.filterMap_cons_none hop]
      | some op =>
        rw [List.filterMap_cons_some hop, within_cons_of_not_mem]
        rwa [h e op hop, not_not]
    · rw [List.filter_cons_of_pos (by simp [he])]
      cases hop : propose e with
      | none => rw [List.filterMap_cons_none hop, List.filterMap_cons_none hop, ih]
      | some op =>
        rw [List.filterMap_cons_some hop, List.filterMap_cons_some hop, ih, within_cons_of_mem]
        rwa [h e op hop]

section

variable (h : draft.Trims extension trimmed)

include h

/-- Profiles outside of the extension are tagged as before. -/
theorem tagProfiles_trimmed :
    tagProfiles trimmed = within (fun l => ¬ l.BelongsTo extension) (tagProfiles draft) := by
  unfold tagProfiles
  rw [h.toList_definitions, List.filter_comm, filterMap_filter_belongsTo]
  rintro ⟨l, d⟩ op hop
  obtain ⟨-, hop⟩ := Option.ite_none_right_eq_some.1 hop
  cases hop
  rfl

/-- Fragments and profiles outside of the extension are annotated as before. -/
theorem annotate_trimmed :
    annotate trimmed = within (fun l => ¬ l.BelongsTo extension) (annotate draft) := by
  unfold annotate
  rw [h.toList_definitions, List.filter_comm, filterMap_filter_belongsTo]
  rintro ⟨l, d⟩ op hop
  obtain ⟨-, hop⟩ := Option.ite_none_right_eq_some.1 hop
  cases hop
  rfl

/-- Records have the parents that they had before. -/
theorem ofDraft_trimmed : Inheritance.ofDraft trimmed = Inheritance.ofDraft draft := by
  have hparent : Inheritance.parentOf? trimmed = Inheritance.parentOf? draft := by
    funext l d
    unfold Inheritance.parentOf?
    refine Option.bind_congr fun name _ => ?_
    rw [h.find?_eq extension_not_mem_family]
  unfold Inheritance.ofDraft
  rw [h.core_eq (by decide), hparent]

/-- Without the extension the same attributes are filled. -/
theorem fillAttributes_trimmed : fillAttributes trimmed = fillAttributes draft := by
  have hentry (name : String) : trimmed.get? (.inCore .dictionary name) =
      draft.get? (.inCore .dictionary name) := h.get?_inCore rfl (by simp [Location.inCore])
  unfold fillAttributes
  simp only [h.core_eq (show Kind.extension ∉ Kind.withAttributes by decide), hentry]

/-- Without the extension the same categories are assigned. -/
theorem assignCategories_trimmed : assignCategories trimmed = assignCategories draft := by
  have hcategory : trimmed.category? = draft.category? := funext h.category?_eq
  unfold assignCategories
  rw [h.core_eq (by decide), hcategory]

/-- Without the extension the same observables are assigned. -/
theorem assignObservables_trimmed :
    assignObservables trimmed options = assignObservables draft options := by
  have hobservables (kind : Kind) (hkind : .extension ≠ kind) :
      observablesOf trimmed kind = observablesOf draft kind := by
    unfold observablesOf
    rw [h.core_eq (by simpa using hkind)]
  unfold assignObservables
  rw [hobservables .dictionary (by decide), hobservables .type (by decide), h.core_eq (by decide)]

/-- Without the extension the same prefixes are proposed. -/
theorem prefixTypes_trimmed : prefixTypes trimmed options = prefixTypes draft options := by
  unfold prefixTypes prefixedObjects
  rw [h.core_eq (by decide), h.core_eq (by decide)]

/-- Without the extension the same references are proposed. -/
theorem setObjectTypes_trimmed :
    setObjectTypes trimmed options = setObjectTypes draft options := by
  unfold setObjectTypes objectCaptions
  rw [h.core_eq (by decide), h.core_eq (by decide)]

variable (hapart : draft.KeepsApart extension declared) (hplaced : draft.repository.Placed)

include hapart hplaced

/-- Without the extension the same categories are set. -/
theorem setCategories_trimmed : setCategories trimmed = setCategories draft := by
  unfold setCategories
  rw [h.core_eq (by decide)]
  refine List.filterMap_congr fun ⟨l, d⟩ hmem => ?_
  dsimp only
  rw [h.sourcePath?_eq hapart hplaced (Draft.not_belongsTo_of_mem_core (by decide) hmem extension)]

end

/-! ### Extensions -/

/-- Items that give nothing may be filtered out. -/
theorem flatMap_filter_congr {α β : Type} {p : α → Bool} {f g : α → List β} {items : List α}
    (hkept : ∀ a ∈ items, p a = true → f a = g a) (hleft : ∀ a ∈ items, p a = false → g a = []) :
    (items.filter p).flatMap f = items.flatMap g := by
  induction items with
  | nil => rfl
  | cons a rest ih =>
    obtain ⟨hkept, hkept'⟩ := List.forall_mem_cons.1 hkept
    obtain ⟨hleft, hleft'⟩ := List.forall_mem_cons.1 hleft
    rw [List.flatMap_cons, ← ih hkept' hleft']
    cases hp : p a with
    | true => rw [List.filter_cons_of_pos hp, List.flatMap_cons, hkept hp]
    | false => rw [List.filter_cons_of_neg (by simp [hp]), hleft hp, List.nil_append]

/-- Items that give nothing may be filtered out, for one result each. -/
theorem filterMap_filter_congr {α β : Type} {p : α → Bool} {f g : α → Option β} {items : List α}
    (hkept : ∀ a ∈ items, p a = true → f a = g a) (hleft : ∀ a ∈ items, p a = false → g a = none) :
    (items.filter p).filterMap f = items.filterMap g := by
  rw [List.filterMap_filter]
  refine List.filterMap_congr fun a ha => ?_
  cases hp : p a with
  | true => exact hkept a ha hp
  | false => exact (hleft a ha hp).symm

/-- Bring one definition to core, if its extension applies. -/
def bring? (draft : Draft) (options : Options) (l : Location) : Option Operation :=
  l.extension.bind fun directory =>
    draft.declaredNames[directory]?.bind fun name =>
      if options.isExtensionEnabled directory (some name) then
        some (applyExtension draft options name l)
      else none

/-- Extensions bring at most one operation for each of their locations. -/
theorem applyExtensions_eq (draft : Draft) (options : Options) :
    applyExtensions draft options =
      (draft.locations.filter fun l => extensionKinds.contains l.kind).filterMap
        (bring? draft options) := rfl

/-- A trimmed draft lists all locations but those of the extension. -/
theorem locations_trimmed (h : draft.Trims extension trimmed) :
    trimmed.locations = draft.locations.filter fun l => !decide (l.BelongsTo extension) := by
  rw [Draft.locations, Draft.locations, ← ExtTreeMap.map_fst_toList_eq_keys,
    ← ExtTreeMap.map_fst_toList_eq_keys, h.toList_definitions, List.filter_map]
  rfl

section

variable (h : draft.Trims extension trimmed) (hapart : draft.KeepsApart extension declared)
  (hplaced : draft.repository.Placed)

include h hapart hplaced

/-- Other extensions go by the same names in a trimmed draft. -/
theorem getElem?_declaredNames_trimmed {x : String} (hx : x ≠ extension) :
    trimmed.declaredNames[x]? = draft.declaredNames[x]? := by
  rw [h.declaredNames_eq hapart hplaced, ExtTreeMap.getElem?_filter', decide_eq_false hx]
  cases draft.declaredNames[x]? <;> rfl

variable (hdisabled : draft.repository.Disables options extension declared)

include hdisabled

omit h in
/-- The extension brings nothing. -/
theorem bring?_eq_none {l : Location} (hl : l.extension = some extension) :
    bring? draft options l = none := by
  rw [bring?, hl, Option.bind_some, declaredNames_self hapart hplaced hdisabled, Option.bind_some,
    hdisabled.disabled]
  rfl

omit hdisabled in
/-- Other extensions bring the same without it. -/
theorem bring?_trimmed {l : Location} (hl : ¬ l.BelongsTo extension) (hkind : l.kind ≠ .extension) :
    bring? trimmed options l = bring? draft options l := by
  have hcontains : trimmed.contains l.core = draft.contains l.core := by
    rw [Draft.contains, h.get?_inCore l.isCore_core hkind, Draft.contains]
  refine Option.bind_congr fun directory hdirectory => ?_
  have hne : directory ≠ extension := fun heq => hl (Or.inl (heq ▸ hdirectory))
  rw [getElem?_declaredNames_trimmed h hapart hplaced hne]
  simp only [applyExtension, hcontains]

/-- The other extensions bring the same to core. -/
theorem applyExtensions_trimmed :
    applyExtensions trimmed options = applyExtensions draft options := by
  have hkind (l : Location)
      (hl : l ∈ draft.locations.filter fun l => extensionKinds.contains l.kind) :
      l.kind ≠ .extension := by
    intro heq
    have hmem := List.contains_iff_mem.1 (List.mem_filter.1 hl).2
    rw [heq] at hmem
    exact absurd hmem (by decide)
  rw [applyExtensions_eq, applyExtensions_eq, locations_trimmed h, List.filter_comm]
  apply filterMap_filter_congr
  · intro l hl hkept
    exact bring?_trimmed h hapart hplaced (by simpa using hkept) (hkind l hl)
  · intro l hl hleft
    rcases (by simpa using hleft : l.BelongsTo extension) with hextension | rfl
    · exact bring?_eq_none hapart hplaced hdisabled hextension
    · exact absurd rfl (hkind _ hl)

end

/-! ### Includes -/

/-- A search that skips some of what it might find is the same if it would find none of that. -/
theorem findSome?_eq_of_skips {α β : Type} {f g : α → Option β} {S : β → Prop}
    {items : List α} (hkeeps : ∀ a ∈ items, ∀ b, f a = some b → S b → g a = some b)
    (hskips : ∀ a ∈ items, f a = none → g a = none) (h : ∀ b, items.findSome? f = some b → S b) :
    items.findSome? g = items.findSome? f := by
  induction items with
  | nil => rfl
  | cons a rest ih =>
    rw [List.findSome?_cons, List.findSome?_cons] at *
    cases hf : f a with
    | none =>
      rw [hf] at h
      rw [hskips a List.mem_cons_self hf]
      exact ih (fun b hb => hkeeps b (List.mem_cons_of_mem a hb))
        (fun b hb => hskips b (List.mem_cons_of_mem a hb)) h
    | some b =>
      rw [hf] at h
      rw [hkeeps a List.mem_cons_self b hf (h b rfl)]

section

variable (h : draft.Trims extension trimmed) (hapart : draft.KeepsApart extension declared)
  (hplaced : draft.repository.Placed)

include h hapart hplaced

/-- References mean the same, unless they lead into the extension. -/
theorem resolveReference?_trimmed {subject : Location} (hsubject : ¬ subject.BelongsTo extension)
    {reference : String}
    (hfound : ∀ l, resolveReference? draft subject reference = some l →
      ¬ l.BelongsTo extension) :
    resolveReference? trimmed subject reference = resolveReference? draft subject reference := by
  have hfile (components : List String) : trimmed.repository.locationAt? components =
      (draft.repository.locationAt? components).filter fun l =>
        !decide (l.BelongsTo extension) := by
    rw [h.repository, Repository.locationAt?_without hplaced]
  have hkeeps (components : List String) (l : Location)
      (hl : draft.repository.locationAt? components = some l) (hout : ¬ l.BelongsTo extension) :
      trimmed.repository.locationAt? components = some l := by
    rw [hfile, hl, Option.filter_some, if_pos (by simp [hout])]
  have hskips (components : List String)
      (hnone : draft.repository.locationAt? components = none) :
      trimmed.repository.locationAt? components = none := by
    rw [hfile, hnone]
    rfl
  unfold resolveReference? at hfound ⊢
  rw [h.sourcePath?_eq hapart hplaced hsubject]
  refine Option.bind_congr fun file hpath => ?_
  rw [hpath, Option.bind_some] at hfound
  refine findSome?_eq_of_skips (S := fun l => ¬ l.BelongsTo extension) (fun place _ l hl hout => ?_)
    (fun place _ hnone => ?_) hfound
  · rw [← hl]
    refine findSome?_eq_of_skips (fun path _ l => hkeeps _ l) (fun path _ => hskips _) ?_
    intro other hother
    cases hl.symm.trans hother
    exact hout
  · rw [List.findSome?_eq_none_iff] at hnone ⊢
    exact fun path hpath => hskips _ (hnone path hpath)

/-- The same is included, if nothing of the extension is. -/
theorem includeFiles_trimmed
    (hincludes : ∀ op ∈ includeFiles draft options, ∀ p ∈ op.prerequisites,
      ¬ p.BelongsTo extension) :
    includeFiles trimmed options = includeFiles draft options := by
  unfold includeFiles
  rw [h.core_eq (by decide)]
  refine List.flatMap_congr fun ⟨l, d⟩ hmem => ?_
  have hfound (reference : String) (scope : IncludeScope)
      (hincluded : ∀ p, resolveReference? draft l reference = some p →
        (p, scope) ∈ includesOf draft l d) :
      resolveReference? trimmed l reference = resolveReference? draft l reference := by
    refine resolveReference?_trimmed h hapart hplaced
      (Draft.not_belongsTo_of_mem_core (by decide) hmem extension) fun p hp => ?_
    refine hincludes ⟨l, .includeFrom p scope⟩ (List.mem_flatMap.2 ⟨(l, d), hmem, ?_⟩) p
      (List.mem_singleton_self p)
    exact List.mem_map.2 ⟨(p, scope), mem_arrangeIncludes.2 (hincluded p hp), rfl⟩
  have hincludesOf : includesOf trimmed l d = includesOf draft l d := by
    unfold includesOf
    congr 1
    · refine List.filterMap_congr fun reference hreference => ?_
      rw [hfound reference .definition fun p hp => ?_]
      exact List.mem_append_left _ (List.mem_filterMap.2 ⟨reference, hreference, by rw [hp]; rfl⟩)
    · refine List.filterMap_congr fun reference hreference => ?_
      rw [hfound reference .attributes fun p hp => ?_]
      exact List.mem_append_right _ (List.mem_filterMap.2 ⟨reference, hreference, by rw [hp]; rfl⟩)
  dsimp only
  rw [hincludesOf]

end

/-! ### Identifiers of classes -/

section

variable (h : draft.Trims extension trimmed) (hapart : draft.KeepsApart extension declared)
  (hplaced : draft.repository.Placed)
  (hdisabled : draft.repository.Disables options extension declared)

include h hapart hplaced hdisabled

/-- The identifiers of the other extensions are the same. -/
theorem getElem?_extensionUids_trimmed {mark : String} (hmark : mark ≠ extension)
    (hmark' : mark ≠ declared) : (extensionUids trimmed)[mark]? = (extensionUids draft)[mark]? := by
  have hfold (entries : List (String × String))
      (hentries : ∀ e ∈ entries, draft.declaredNames[e.1]? = some e.2)
      (uids uids' : ExtTreeMap String Int) (huids : uids'[mark]? = uids[mark]?) :
      ((entries.filter fun e => !decide (e.1 = extension)).foldl (addUid trimmed) uids')[mark]? =
        (entries.foldl (addUid draft) uids)[mark]? := by
    induction entries generalizing uids uids' with
    | nil => exact huids
    | cons e rest ih =>
      obtain ⟨he, hrest⟩ := List.forall_mem_cons.1 hentries
      by_cases hdirectory : e.1 = extension
      · rw [hdirectory, declaredNames_self hapart hplaced hdisabled, Option.some.injEq] at he
        rw [List.filter_cons_of_neg (by simp [hdirectory]), List.foldl_cons]
        refine ih hrest _ _ ?_
        rw [getElem?_addUid_of_ne draft uids (hdirectory ▸ hmark) (he ▸ hmark'), huids]
      · rw [List.filter_cons_of_pos (by simp [hdirectory]), List.foldl_cons, List.foldl_cons]
        refine ih hrest _ _ (getElem?_addUid_congr ?_ huids)
        rw [h.get?_eq, if_neg]
        rintro (hextension | heq)
        · cases hextension
        · exact hdirectory (congrArg Location.name heq)
  rw [extensionUids_eq, extensionUids_eq, h.declaredNames_eq hapart hplaced,
    ExtTreeMap.toList_filter]
  exact hfold _ (fun e he => ExtTreeMap.mem_toList_iff_getElem?_eq_some.1 he) _ _ rfl

/-- Classes outside of the extension have the same identifiers without it. -/
theorem classUid?_trimmed {l : Location} (hl : ¬ l.BelongsTo extension) {d : Definition}
    (hd : draft.get? l = some d) :
    classUid? trimmed (extensionUids trimmed) l d = classUid? draft (extensionUids draft) l d := by
  have huid : (d.sourceExtension?.bind ((extensionUids trimmed)[·]?)) =
      d.sourceExtension?.bind ((extensionUids draft)[·]?) := by
    refine Option.bind_congr fun mark hmark => ?_
    obtain ⟨hne, hne'⟩ := hapart.marks l hl d hd mark hmark
    exact getElem?_extensionUids_trimmed h hapart hplaced hdisabled hne hne'
  have hcategory : trimmed.category? = draft.category? := funext h.category?_eq
  unfold classUid?
  rw [huid, hcategory]

/-- Without the extension the same identifiers are assigned. -/
theorem assignClasses_trimmed : assignClasses trimmed = assignClasses draft := by
  have hfrom (entries : List (Location × Definition))
      (hentries : ∀ e ∈ entries, e ∈ draft.core [.eventClass, .event])
      (assigned : ExtTreeMap Int Location) :
      assignClassesFrom trimmed (extensionUids trimmed) assigned entries =
        assignClassesFrom draft (extensionUids draft) assigned entries := by
    induction entries generalizing assigned with
    | nil => rfl
    | cons e rest ih =>
      obtain ⟨he, hrest⟩ := List.forall_mem_cons.1 hentries
      have hl := Draft.not_belongsTo_of_mem_core (by decide) he extension
      rw [assignClassesFrom, assignClassesFrom,
        classUid?_trimmed h hapart hplaced hdisabled hl (Draft.mem_core.1 he).1]
      split
      · exact ih hrest assigned
      · rw [ih hrest]
  unfold assignClasses
  rw [h.core_eq (by decide)]
  exact hfrom _ (fun e he => he) ∅

/-! ### Rendering -/

omit hdisabled in
/-- Without the extension a definition is copied to the same entries. -/
theorem entriesOf_trimmed {l : Location} (hl : ¬ l.BelongsTo extension) (hcore : l.isCore = true)
    (d : Definition) :
    entriesOf options trimmed.declaredNames l d = entriesOf options draft.declaredNames l d := by
  have hdeclared (hkind : l.kind = .extension) :
      trimmed.declaredNames[l.name]? = draft.declaredNames[l.name]? := by
    refine getElem?_declaredNames_trimmed h hapart hplaced ?_
    rintro rfl
    exact hl (Or.inr (hkind ▸ Draft.eq_inCore hcore))
  unfold entriesOf
  cases hkind : l.kind with
  | extension => rw [hdeclared hkind]
  | _ => rfl

/-- The same is rendered. -/
theorem render_trimmed : render trimmed options = render draft options := by
  unfold render
  dsimp only
  rw [h.toList_definitions, List.filter_comm]
  apply flatMap_filter_congr
  · rintro ⟨l, d⟩ hmem hkept
    dsimp only
    rw [entriesOf_trimmed h hapart hplaced (by simpa using hkept) (List.mem_filter.1 hmem).2]
  · rintro ⟨l, d⟩ hmem hleft
    dsimp only
    rw [entriesOf_eq_nil hapart hplaced hdisabled (by simpa using hleft) (List.mem_filter.1 hmem).2]
    rfl

/-! ### All planners -/

/-- Without a disabled extension the same is proposed, apart from operations on the extension. -/
theorem analyze_trimmed (planner : Planner)
    (hincludes : planner = .includes → ∀ op ∈ includeFiles draft options, ∀ p ∈ op.prerequisites,
      ¬ p.BelongsTo extension) :
    planner.analyze trimmed options =
      (planner.analyze draft options).map (within fun l => ¬ l.BelongsTo extension) := by
  cases hcore : planner.leavesCore with
  | true =>
    cases planner with
    | profileTag => exact congrArg Except.ok (tagProfiles_trimmed h)
    | annotations => exact congrArg Except.ok (annotate_trimmed h)
    | _ => cases hcore
  | false =>
    have hsame : planner.analyze trimmed options = planner.analyze draft options := by
      cases planner with
      | profileTag => cases hcore
      | annotations => cases hcore
      | extension => exact congrArg Except.ok (applyExtensions_trimmed h hapart hplaced hdisabled)
      | includes => exact congrArg Except.ok (includeFiles_trimmed h hapart hplaced (hincludes rfl))
      | profileRemove =>
        simp only [analyze, removeProfiles, h.core_eq (show Kind.extension ∉ Kind.records by decide)]
      | inheritance => simp only [analyze, inherit, ofDraft_trimmed h]
      | category => exact congrArg Except.ok (setCategories_trimmed h hapart hplaced)
      | dictionary => exact congrArg Except.ok (fillAttributes_trimmed h)
      | categoryUid => exact congrArg Except.ok (assignCategories_trimmed h)
      | classUid => exact congrArg Except.ok (assignClasses_trimmed h hapart hplaced hdisabled)
      | typeUid =>
        simp only [analyze, assignTypes,
          h.core_eq (show Kind.extension ∉ [Kind.eventClass, .event] by decide)]
      | observable => exact congrArg Except.ok (assignObservables_trimmed h)
      | extensionTypes => exact congrArg Except.ok (prefixTypes_trimmed h)
      | objectType => exact congrArg Except.ok (setObjectTypes_trimmed h)
      | datetime =>
        simp only [analyze, addSiblings,
          h.core_eq (show Kind.extension ∉ Kind.withAttributes by decide)]
      | rendering => exact congrArg Except.ok (render_trimmed h hapart hplaced hdisabled)
    rw [hsame]
    cases hops : planner.analyze draft options with
    | error cause => rfl
    | ok ops =>
      have hall : ∀ op ∈ ops, ¬ op.target.BelongsTo extension :=
        fun op hop => (emits_of_mem hops hop).not_belongsTo hcore extension
      rw [Except.map, within_eq_self hall]

end

end Planner

end EventSchema
