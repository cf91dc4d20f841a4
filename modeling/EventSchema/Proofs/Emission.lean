import EventSchema.Planner.Basic

/-!
# What planners emit

Each planner edits locations of some kinds only, with one kind of action.  All but the planners for
profile tags and annotations edit locations in core; extensions bring definitions from outside of
core into it, and only the last planner makes entries of the schema.

Main results:

- {lit}`Draft.mem_core`: what is listed in core is what can be looked up there.
- {lit}`Planner.emits_of_mem`: a planner emits operations of its shape only.
-/

namespace EventSchema

open Std

namespace LocationMap

/-- No location is listed twice. -/
theorem nodup_toList {α : Type} (m : LocationMap α) : (m.toList.map Prod.fst).Nodup := by
  rw [List.Nodup, List.pairwise_map]
  refine m.ordered_keys_toList.imp fun {a b} hlt heq => ?_
  rw [heq] at hlt
  exact absurd (hlt.symm.trans (ReflOrd.compare_self)) (by decide)

/-- An entry splits the listing, and its location is nowhere else in it. -/
theorem exists_split_toList {α : Type} {m : LocationMap α} {l : Location} {a : α}
    (h : m[l]? = some a) :
    ∃ before after, m.toList = before ++ (l, a) :: after ∧ ∀ e ∈ before ++ after, e.1 ≠ l := by
  rcases List.append_of_mem (ExtTreeMap.mem_toList_iff_getElem?_eq_some.2 h) with
    ⟨before, after, hsplit⟩
  have hnodup := nodup_toList m
  rw [hsplit, List.map_append, List.map_cons] at hnodup
  rcases List.nodup_append.1 hnodup with ⟨-, hafter, hdisjoint⟩
  refine ⟨before, after, hsplit, fun e he heq => ?_⟩
  rcases List.mem_append.1 he with he | he
  · exact hdisjoint e.1 (List.mem_map_of_mem he) l List.mem_cons_self heq
  · exact (List.nodup_cons.1 hafter).1 (List.mem_map.2 ⟨e, he, heq⟩)

end LocationMap

namespace Draft

/-- The list of all definitions shows what look-ups find. -/
theorem mem_toList_definitions {draft : Draft} {l : Location} {d : Definition} :
    (l, d) ∈ draft.definitions.toList ↔ draft.get? l = some d := by
  rw [ExtTreeMap.mem_toList_iff_getElem?_eq_some, getElem?_definitions]

/-- What is listed in core is what can be looked up there. -/
theorem mem_core {draft : Draft} {kinds : List Kind} {l : Location} {d : Definition} :
    (l, d) ∈ draft.core kinds ↔ draft.get? l = some d ∧ l.isCore = true ∧ l.kind ∈ kinds := by
  rw [core, List.mem_filter, mem_toList_definitions]
  simp

/-- A definition splits the listing, and its location is nowhere else in it. -/
theorem exists_split_definitions {draft : Draft} {l : Location} {d : Definition}
    (h : draft.get? l = some d) :
    ∃ before after, draft.definitions.toList = before ++ (l, d) :: after ∧
      ∀ e ∈ before ++ after, e.1 ≠ l :=
  LocationMap.exists_split_toList ((getElem?_definitions draft l).trans h)

/-- Locations are listed in order. -/
theorem ordered_core (draft : Draft) (kinds : List Kind) :
    (draft.core kinds).Pairwise fun a b => compare a.1 b.1 = .lt :=
  draft.definitions.ordered_keys_toList.sublist List.filter_sublist

end Draft

/-- Every section is listed. -/
theorem Section.mem_all (part : Section) : part ∈ Section.all := by
  cases part <;> decide

namespace Planner

/-- The kinds of locations that a planner edits. -/
def targetKinds : Planner → List Kind
  | profileTag => [.profile]
  | annotations => [.file, .profile]
  | extension => extensionKinds
  | includes | dictionary | observable | datetime => Kind.withAttributes
  | profileRemove | inheritance => Kind.records
  | category | categoryUid => [.eventClass]
  | classUid | typeUid => [.eventClass, .event]
  | extensionTypes | objectType => typedKinds
  | rendering => Section.all.map .schema

/-- Whether a planner also edits locations of extensions. -/
def leavesCore : Planner → Bool
  | profileTag | annotations => true
  | _ => false

/-- The actions that a planner proposes. -/
def Acts : Planner → Action → Prop
  | profileTag, .tagProfile _ => True
  | annotations, .annotate => True
  | extension, .mergeExtension source => source.isCore = false
  | extension, .copyExtension source _ _ => source.isCore = false
  | includes, .includeFrom _ _ => True
  | profileRemove, .removeProfile _ => True
  | inheritance, .inherit _ => True
  | category, .setCategory _ => True
  | dictionary, .fillAttribute name source => source = .inCore .dictionary name
  | categoryUid, .assignCategory _ _ _ => True
  | classUid, .assignClass _ _ _ _ => True
  | typeUid, .assignTypes _ _ => True
  | observable, .assignObservables _ => True
  | extensionTypes, .prefixTypes _ => True
  | objectType, .setObjectTypes _ => True
  | datetime, .addSiblings => True
  | rendering, .copyRendered source => source.part? = none
  | _, _ => False

/-- The shape of what a planner emits. -/
structure Emits (planner : Planner) (op : Operation) : Prop where
  kind : op.target.kind ∈ planner.targetKinds
  core : planner.leavesCore = false → op.target.isCore = true
  action : planner.Acts op.action

/-- What is listed as core is in core. -/
theorem isCore_of_mem_core {draft : Draft} {kinds : List Kind} {e : Location × Definition}
    (h : e ∈ draft.core kinds) : e.1.isCore = true :=
  (Draft.mem_core.1 h).2.1

/-- What is listed by kind is of this kind. -/
theorem kind_of_mem_core {draft : Draft} {kinds : List Kind} {e : Location × Definition}
    (h : e ∈ draft.core kinds) : e.1.kind ∈ kinds :=
  (Draft.mem_core.1 h).2.2

/-- Tags are proposed for the attributes of profiles. -/
theorem emits_tagProfiles {draft : Draft} {op : Operation} (h : op ∈ tagProfiles draft) :
    profileTag.Emits op := by
  rcases List.mem_filterMap.1 h with ⟨⟨l, d⟩, hmem, hop⟩
  rcases List.mem_filter.1 hmem with ⟨-, hkind⟩
  rcases Option.ite_none_right_eq_some.1 hop with ⟨-, hop⟩
  cases hop
  exact ⟨by simpa [targetKinds] using hkind, by simp [leavesCore], trivial⟩

/-- Annotations are proposed for files and profiles. -/
theorem emits_annotate {draft : Draft} {op : Operation} (h : op ∈ annotate draft) :
    annotations.Emits op := by
  rcases List.mem_filterMap.1 h with ⟨⟨l, d⟩, hmem, hop⟩
  rcases List.mem_filter.1 hmem with ⟨-, hkind⟩
  rcases Option.ite_none_right_eq_some.1 hop with ⟨-, hop⟩
  cases hop
  exact ⟨by simpa [targetKinds] using hkind, by simp [leavesCore], trivial⟩

/-- Extensions propose patches and copies to core. -/
theorem emits_applyExtensions {draft : Draft} {options : Options} {op : Operation}
    (h : op ∈ applyExtensions draft options) : extension.Emits op := by
  rcases List.mem_filterMap.1 h with ⟨l, hmem, hop⟩
  rcases List.mem_filter.1 hmem with ⟨-, hkind⟩
  have hl : l.kind ∈ extensionKinds := List.contains_iff_mem.1 hkind
  rcases Option.bind_eq_some_iff.1 hop with ⟨directory, hdirectory, hop⟩
  rcases Option.bind_eq_some_iff.1 hop with ⟨declared, -, hop⟩
  have hout : l.isCore = false := by simp [Location.isCore, hdirectory]
  rcases Option.ite_none_right_eq_some.1 hop with ⟨-, hop⟩
  cases hop
  unfold applyExtension
  split
  · exact ⟨hl, fun _ => rfl, hout⟩
  · exact ⟨hl, fun _ => rfl, hout⟩

/-- Files are included into definitions with attributes. -/
theorem emits_includeFiles {draft : Draft} {options : Options} {op : Operation}
    (h : op ∈ includeFiles draft options) : includes.Emits op := by
  rcases List.mem_flatMap.1 h with ⟨⟨l, d⟩, hmem, hop⟩
  rcases List.mem_map.1 hop with ⟨⟨source, scope⟩, -, rfl⟩
  exact ⟨kind_of_mem_core hmem, fun _ => isCore_of_mem_core hmem, trivial⟩

/-- Profiles are removed from records. -/
theorem emits_removeProfiles {draft : Draft} {options : Options} {op : Operation}
    (h : op ∈ removeProfiles draft options) : profileRemove.Emits op := by
  rcases List.mem_flatMap.1 h with ⟨⟨l, d⟩, hmem, hop⟩
  rcases List.mem_map.1 hop with ⟨profile, -, rfl⟩
  exact ⟨kind_of_mem_core hmem, fun _ => isCore_of_mem_core hmem, trivial⟩

/-- Whatever has a parent is a record in core. -/
theorem mem_records_of_parent {draft : Draft} {l parent : Location}
    (h : (Inheritance.ofDraft draft).parents[l]? = some parent) :
    ∃ d, (l, d) ∈ draft.core Kind.records := by
  have hmem : l ∈ (Inheritance.ofDraft draft).parents :=
    ExtTreeMap.mem_iff_isSome_getElem?.2 (by rw [h]; rfl)
  rw [Inheritance.ofDraft, ExtTreeMap.mem_ofList, List.contains_iff_mem, List.mem_map] at hmem
  rcases hmem with ⟨⟨k, p⟩, hmem, rfl⟩
  rcases List.mem_filterMap.1 hmem with ⟨⟨k', d⟩, hrecord, hparent⟩
  rcases Option.map_eq_some_iff.1 hparent with ⟨q, -, heq⟩
  cases heq
  exact ⟨d, hrecord⟩

/-- Records inherit from records. -/
theorem emits_inherit {draft : Draft} {ops : List Operation} (h : inherit draft = .ok ops)
    {op : Operation} (hop : op ∈ ops) : inheritance.Emits op := by
  unfold inherit at h
  dsimp only at h
  split at h
  · cases h
  · cases h
    rcases List.mem_filterMap.1 hop with ⟨child, -, hchild⟩
    rcases Option.map_eq_some_iff.1 hchild with ⟨parent, hparent, rfl⟩
    rcases mem_records_of_parent hparent with ⟨d, hmem⟩
    exact ⟨kind_of_mem_core hmem, fun _ => isCore_of_mem_core hmem, trivial⟩

/-- Categories are set on classes. -/
theorem emits_setCategories {draft : Draft} {op : Operation} (h : op ∈ setCategories draft) :
    category.Emits op := by
  rcases List.mem_filterMap.1 h with ⟨⟨l, d⟩, hmem, hop⟩
  rcases Option.ite_none_left_eq_some.1 hop with ⟨-, hop⟩
  rcases Option.map_eq_some_iff.1 hop with ⟨name, -, rfl⟩
  exact ⟨kind_of_mem_core hmem, fun _ => isCore_of_mem_core hmem, trivial⟩

/-- Attributes are filled from entries of the dictionary. -/
theorem emits_fillAttributes {draft : Draft} {op : Operation} (h : op ∈ fillAttributes draft) :
    dictionary.Emits op := by
  rcases List.mem_flatMap.1 h with ⟨⟨l, d⟩, hmem, hop⟩
  rcases List.mem_filterMap.1 hop with ⟨⟨name, body⟩, -, hop⟩
  rcases Option.bind_eq_some_iff.1 hop with ⟨entry, -, hop⟩
  rcases Option.ite_none_left_eq_some.1 hop with ⟨-, hop⟩
  cases hop
  exact ⟨kind_of_mem_core hmem, fun _ => isCore_of_mem_core hmem, rfl⟩

/-- Categories are assigned to event classes. -/
theorem emits_assignCategories {draft : Draft} {op : Operation}
    (h : op ∈ assignCategories draft) : categoryUid.Emits op := by
  rcases List.mem_filterMap.1 h with ⟨⟨l, d⟩, hmem, hop⟩
  rcases Option.bind_eq_some_iff.1 hop with ⟨entry, -, hop⟩
  rcases Option.map_eq_some_iff.1 hop with ⟨uid, -, rfl⟩
  exact ⟨kind_of_mem_core hmem, fun _ => isCore_of_mem_core hmem, trivial⟩

/-- An operation that states an identifier is about one of the listed classes. -/
theorem mem_assignClassesFrom {draft : Draft} {uids : ExtTreeMap String Int}
    {assigned : ExtTreeMap Int Location} {entries : List (Location × Definition)} {op : Operation}
    (h : op ∈ assignClassesFrom draft uids assigned entries) :
    ∃ d uid conflict, (op.target, d) ∈ entries ∧ classUid? draft uids op.target d = some uid ∧
      op.action = .assignClass uid (labelOf op.target d) d.description? conflict := by
  induction entries generalizing assigned with
  | nil => cases h
  | cons e rest ih =>
    rcases e with ⟨l, d⟩
    rw [assignClassesFrom] at h
    split at h
    · rcases ih h with ⟨d', uid, conflict, hmem, hrest⟩
      exact ⟨d', uid, conflict, List.mem_cons_of_mem _ hmem, hrest⟩
    · rename_i uid huid
      rcases List.mem_cons.1 h with rfl | h
      · exact ⟨d, uid, _, List.mem_cons_self, huid, rfl⟩
      · rcases ih h with ⟨d', uid, conflict, hmem, hrest⟩
        exact ⟨d', uid, conflict, List.mem_cons_of_mem _ hmem, hrest⟩

/-- The numbers of classes are assigned to events and their classes. -/
theorem emits_assignClasses {draft : Draft} {op : Operation} (h : op ∈ assignClasses draft) :
    classUid.Emits op := by
  rcases mem_assignClassesFrom h with ⟨d, uid, conflict, hmem, -, haction⟩
  refine ⟨kind_of_mem_core hmem, fun _ => isCore_of_mem_core hmem, ?_⟩
  rw [haction]
  trivial

/-- The types of classes are assigned to events and their classes. -/
theorem emits_assignTypes {draft : Draft} {op : Operation} (h : op ∈ assignTypes draft) :
    typeUid.Emits op := by
  rcases List.mem_filterMap.1 h with ⟨⟨l, d⟩, hmem, hop⟩
  rcases Option.bind_eq_some_iff.1 hop with ⟨uid, -, hop⟩
  rcases Option.ite_none_left_eq_some.1 hop with ⟨-, hop⟩
  cases hop
  exact ⟨kind_of_mem_core hmem, fun _ => isCore_of_mem_core hmem, trivial⟩

/-- Observables are assigned to definitions with attributes. -/
theorem emits_assignObservables {draft : Draft} {options : Options} {op : Operation}
    (h : op ∈ assignObservables draft options) : observable.Emits op := by
  unfold assignObservables at h
  split at h
  · cases h
  · rcases List.mem_filterMap.1 h with ⟨⟨l, d⟩, hmem, hop⟩
    rcases Option.ite_none_left_eq_some.1 hop with ⟨-, hop⟩
    cases hop
    exact ⟨kind_of_mem_core hmem, fun _ => isCore_of_mem_core hmem, trivial⟩

/-- Prefixes are proposed for what states types. -/
theorem emits_prefixTypes {draft : Draft} {options : Options} {op : Operation}
    (h : op ∈ prefixTypes draft options) : extensionTypes.Emits op := by
  unfold prefixTypes at h
  split at h
  · cases h
  · rcases List.mem_filterMap.1 h with ⟨⟨l, d⟩, hmem, hop⟩
    rcases Option.ite_none_left_eq_some.1 hop with ⟨-, hop⟩
    cases hop
    exact ⟨kind_of_mem_core hmem, fun _ => isCore_of_mem_core hmem, trivial⟩

/-- Types of objects are proposed for what states types. -/
theorem emits_setObjectTypes {draft : Draft} {options : Options} {op : Operation}
    (h : op ∈ setObjectTypes draft options) : objectType.Emits op := by
  unfold setObjectTypes at h
  split at h
  · cases h
  · rcases List.mem_filterMap.1 h with ⟨⟨l, d⟩, hmem, hop⟩
    rcases Option.ite_none_left_eq_some.1 hop with ⟨-, hop⟩
    cases hop
    exact ⟨kind_of_mem_core hmem, fun _ => isCore_of_mem_core hmem, trivial⟩

/-- Siblings of timestamps are proposed for definitions with attributes. -/
theorem emits_addSiblings {draft : Draft} {options : Options} {op : Operation}
    (h : op ∈ addSiblings draft options) : datetime.Emits op := by
  unfold addSiblings at h
  split at h
  · cases h
  · rcases List.mem_filterMap.1 h with ⟨⟨l, d⟩, hmem, hop⟩
    rcases Option.ite_none_left_eq_some.1 hop with ⟨-, hop⟩
    cases hop
    exact ⟨kind_of_mem_core hmem, fun _ => isCore_of_mem_core hmem, trivial⟩

/-- Only entries of the schema are rendered to, and none of them is rendered itself. -/
theorem part?_of_mem_entriesOf {options : Options} {declared : ExtTreeMap String String}
    {l target : Location} {d : Definition} (h : target ∈ entriesOf options declared l d) :
    l.part? = none ∧ ∃ part key, target = .entry part key := by
  constructor
  · unfold Location.part?
    split
    · rename_i part hkind
      simp [entriesOf, hkind] at h
    · rfl
  · unfold entriesOf at h
    dsimp only at h
    split at h
    all_goals try split at h
    all_goals simp at h
    all_goals try exact ⟨_, _, h⟩
    rcases h with h | h
    · exact ⟨_, _, h⟩
    · exact ⟨_, _, h⟩

/-- There is one base event. -/
theorem eq_baseEvent_of_mem_entriesOf {options : Options} {declared : ExtTreeMap String String}
    {l : Location} {d : Definition} {key : String}
    (h : .entry .baseEvent key ∈ entriesOf options declared l d) : key = baseEvent := by
  unfold entriesOf at h
  dsimp only at h
  split at h
  all_goals try split at h
  all_goals simp [Location.entry, Location.inCore] at h
  exact h

/-- There is one version. -/
theorem eq_version_of_mem_entriesOf {options : Options} {declared : ExtTreeMap String String}
    {l : Location} {d : Definition} {key : String}
    (h : .entry .version key ∈ entriesOf options declared l d) : key = "version" := by
  unfold entriesOf at h
  dsimp only at h
  split at h
  all_goals try split at h
  all_goals simp [Location.entry, Location.inCore] at h
  exact h

/-- The classes of the schema are the classes with an identifier, and the base event. -/
theorem mem_entriesOf_classes {options : Options} {declared : ExtTreeMap String String}
    {l : Location} {d : Definition} {key : String}
    (h : .entry .classes key ∈ entriesOf options declared l d) :
    l.kind = .eventClass ∧ d.uid?.isSome = true ∧ key = d.key?.getD l.name ∨
      l.kind = .event ∧ l.name = baseEvent ∧ key = baseEvent := by
  unfold entriesOf at h
  dsimp only at h
  split at h
  all_goals try split at h
  all_goals simp [Location.entry, Location.inCore] at h
  · rename_i hkind huid
    exact Or.inl ⟨hkind, huid, h⟩
  · rename_i hkind hname
    exact Or.inr ⟨hkind, hname, h⟩

/-- Copies are planned from definitions in core to the entries that they are rendered to. -/
theorem mem_render {draft : Draft} {options : Options} {op : Operation}
    (h : op ∈ render draft options) :
    ∃ l d, draft.get? l = some d ∧ l.isCore = true ∧
      op.target ∈ entriesOf options draft.declaredNames l d ∧ op.action = .copyRendered l := by
  rcases List.mem_flatMap.1 h with ⟨⟨l, d⟩, hmem, hop⟩
  rcases List.mem_filter.1 hmem with ⟨hmem, hcore⟩
  rcases List.mem_map.1 hop with ⟨target, htarget, rfl⟩
  exact ⟨l, d, Draft.mem_toList_definitions.1 hmem, hcore, htarget, rfl⟩

/-- A definition in core is planned to be copied to the entries that it is rendered to. -/
theorem mem_render_of_mem_entriesOf {draft : Draft} {options : Options} {l target : Location}
    {d : Definition} (hd : draft.get? l = some d) (hcore : l.isCore = true)
    (htarget : target ∈ entriesOf options draft.declaredNames l d) :
    ⟨target, .copyRendered l⟩ ∈ render draft options :=
  List.mem_flatMap.2 ⟨(l, d), List.mem_filter.2 ⟨Draft.mem_toList_definitions.2 hd, hcore⟩,
    List.mem_map.2 ⟨target, htarget, rfl⟩⟩

/-- Copies into the schema are all that is proposed last. -/
theorem emits_render {draft : Draft} {options : Options} {op : Operation}
    (h : op ∈ render draft options) : rendering.Emits op := by
  rcases List.mem_flatMap.1 h with ⟨⟨l, d⟩, -, hop⟩
  rcases List.mem_map.1 hop with ⟨target, htarget, rfl⟩
  rcases part?_of_mem_entriesOf htarget with ⟨hpart, part, key, rfl⟩
  exact ⟨List.mem_map.2 ⟨part, Section.mem_all part, rfl⟩, fun _ => rfl, hpart⟩

/-- A planner emits operations of its shape only. -/
theorem emits_of_mem {planner : Planner} {draft : Draft} {options : Options}
    {ops : List Operation} (h : planner.analyze draft options = .ok ops) {op : Operation}
    (hop : op ∈ ops) : planner.Emits op := by
  cases planner with
  | inheritance => exact emits_inherit h hop
  | profileTag => exact emits_tagProfiles (Except.ok.inj h ▸ hop)
  | annotations => exact emits_annotate (Except.ok.inj h ▸ hop)
  | extension => exact emits_applyExtensions (Except.ok.inj h ▸ hop)
  | includes => exact emits_includeFiles (Except.ok.inj h ▸ hop)
  | profileRemove => exact emits_removeProfiles (Except.ok.inj h ▸ hop)
  | category => exact emits_setCategories (Except.ok.inj h ▸ hop)
  | dictionary => exact emits_fillAttributes (Except.ok.inj h ▸ hop)
  | categoryUid => exact emits_assignCategories (Except.ok.inj h ▸ hop)
  | classUid => exact emits_assignClasses (Except.ok.inj h ▸ hop)
  | typeUid => exact emits_assignTypes (Except.ok.inj h ▸ hop)
  | observable => exact emits_assignObservables (Except.ok.inj h ▸ hop)
  | extensionTypes => exact emits_prefixTypes (Except.ok.inj h ▸ hop)
  | objectType => exact emits_setObjectTypes (Except.ok.inj h ▸ hop)
  | datetime => exact emits_addSiblings (Except.ok.inj h ▸ hop)
  | rendering => exact emits_render (Except.ok.inj h ▸ hop)

/-! ## What emitted operations read -/

/-- The locations that operations of a planner may read besides their targets. -/
def Reads : Planner → Location → Prop
  | extension, l => l.isCore = false
  | includes, _ | inheritance, _ => True
  | dictionary, l => l.kind = .dictionary
  | rendering, l => l.part? = none
  | _, _ => False

/-- A planner reads what its operations require. -/
theorem Emits.reads {planner : Planner} {op : Operation} (h : planner.Emits op) {l : Location}
    (hl : l ∈ op.prerequisites) : planner.Reads l := by
  have haction := h.action
  have hsource : op.action.source? = some l := Option.mem_toList.1 hl
  cases hop : op.action <;> rw [hop] at haction hsource <;> cases hsource
  all_goals cases planner
  all_goals first
    | exact haction.elim
    | trivial
    | exact haction
    | exact congrArg Location.kind haction

/-- Only one planner sets categories. -/
theorem Emits.eq_category {planner : Planner} {op : Operation} (h : planner.Emits op)
    {name : String} (hop : op.action = .setCategory name) : planner = category := by
  have haction := h.action
  rw [hop] at haction
  cases planner with
  | category => rfl
  | _ => exact haction.elim

/-- Only one planner copies into the schema. -/
theorem Emits.eq_rendering {planner : Planner} {op : Operation} (h : planner.Emits op)
    {source : Location} (hop : op.action = .copyRendered source) : planner = rendering := by
  have haction := h.action
  rw [hop] at haction
  cases planner with
  | rendering => rfl
  | _ => exact haction.elim

/-- Only extensions and the last planner make new definitions. -/
theorem Emits.createsTarget {planner : Planner} {op : Operation} (h : planner.Emits op)
    (hextension : planner ≠ extension) (hrendering : planner ≠ rendering) :
    op.action.createsTarget = false := by
  have haction := h.action
  cases hop : op.action with
  | copyExtension source directory key =>
    rw [hop] at haction
    cases planner with
    | extension => exact absurd rfl hextension
    | _ => exact haction.elim
  | copyRendered source => exact absurd (h.eq_rendering hop) hrendering
  | _ => rfl

/-- Only the last planner makes entries of the schema. -/
theorem Emits.part?_target {planner : Planner} {op : Operation} (h : planner.Emits op)
    (hplanner : planner ≠ rendering) : op.target.part? = none := by
  have hkind := h.kind
  unfold Location.part?
  split
  · rename_i part hpart
    rw [hpart] at hkind
    cases planner with
    | rendering => exact absurd rfl hplanner
    | _ =>
      simp [targetKinds, extensionKinds, Kind.withAttributes, Kind.records, typedKinds] at hkind
  · rfl

/-- The last planner copies definitions to entries of the schema. -/
theorem Emits.exists_copyRendered {op : Operation} (h : rendering.Emits op) :
    ∃ source, op.action = .copyRendered source ∧ source.part? = none := by
  have haction := h.action
  cases hop : op.action with
  | copyRendered source =>
    rw [hop] at haction
    exact ⟨source, rfl, haction⟩
  | _ =>
    rw [hop] at haction
    exact haction.elim

/-- Copies into the schema have an entry of the schema as their target. -/
theorem Emits.part?_target_ne {op : Operation} (h : rendering.Emits op) :
    op.target.part? ≠ none := by
  rcases List.mem_map.1 h.kind with ⟨part, -, heq⟩
  simp [Location.part?, ← heq]

/-- Includes are planned in the order of the locations that have them. -/
theorem ordered_includeFiles (draft : Draft) (options : Options) :
    (includeFiles draft options).Pairwise fun op later =>
      op.target = later.target ∨ compare op.target later.target = .lt := by
  rw [includeFiles, List.pairwise_flatMap]
  constructor
  · rintro ⟨l, d⟩ -
    refine List.pairwise_map.2 (List.pairwise_of_forall fun _ _ => Or.inl rfl)
  · refine (draft.ordered_core Kind.withAttributes).imp fun {a b} hlt op hop later hlater => ?_
    rcases List.mem_map.1 hop with ⟨_, -, rfl⟩
    rcases List.mem_map.1 hlater with ⟨_, -, rfl⟩
    exact Or.inr hlt

end Planner

end EventSchema
