import EventSchema.Proofs.SoundRendering

/-!
# References to objects

An attribute whose type is an object becomes a reference to the key of the object.  The planner for
references looks among all objects in core, and the last planner renders them under the same keys:
in between nothing but attributes is edited.  Only objects whose keys begin with an underscore are
left out of the schema.  Siblings for calendar time come after the references and leave them alone.

Main results:

- {lit}`Definition.exists_reference?_of_mem_changes`: where a type changes, a reference is made.
- {lit}`Compilation.addsSiblings_after`: what follows references at their location.
- {lit}`Compilation.isSome_lookup_iff_of_caption`: which known objects are in the schema.
- {lit}`Compilation.object_references_resolve`: the references of a schema are to its objects.
-/

namespace EventSchema

open Std

namespace Definition

/-! ## Attributes with types -/

/-- The attribute under a name; an entry of the dictionary is an attribute itself. -/
def typed? (d : Definition) (kind : Kind) (name : String) : Option Fields :=
  if kind = .dictionary then some d.fields else d.attribute? name

/-- Where the type of the attribute under a name is stated. -/
def typePath (kind : Kind) (name : String) : FieldPath :=
  if kind = .dictionary then [typeKey] else [attributesKey, name, typeKey]

/-- The key of the object that an attribute refers to. -/
def reference? (d : Definition) (kind : Kind) (name : String) : Option String :=
  ((d.typed? kind name).bind (Fields.get? · "object_type")).bind Json.str?

/-- A change of edited objects is one of the changes of an object among them. -/
theorem mem_changes_editObjects {edit : String → Fields → Fields × List FieldPath}
    {fields : Fields} {path : FieldPath} :
    path ∈ (editObjects edit fields).2 ↔ ∃ name body rest, (name, Json.obj body) ∈ fields ∧
      rest ∈ (edit name body).2 ∧ path = name :: rest := by
  induction fields with
  | nil => simp [editObjects]
  | cons e fields ih =>
    rcases e with ⟨key, value⟩
    cases value with
    | obj body =>
      simp only [editObjects, List.mem_append, List.mem_map, ih, List.mem_cons, Prod.mk.injEq,
        Json.obj.injEq]
      constructor
      · rintro (⟨rest, hrest, rfl⟩ | ⟨name, other, rest, hmem, hrest, rfl⟩)
        · exact ⟨key, body, rest, Or.inl ⟨rfl, rfl⟩, hrest, rfl⟩
        · exact ⟨name, other, rest, Or.inr hmem, hrest, rfl⟩
      · rintro ⟨name, other, rest, ⟨rfl, rfl⟩ | hmem, hrest, rfl⟩
        · exact Or.inl ⟨rest, hrest, rfl⟩
        · exact Or.inr ⟨name, other, rest, hmem, hrest, rfl⟩
    | _ => simp [editObjects, ih]

/-- A change of edited attributes is one of the changes of an attribute. -/
theorem exists_attribute?_of_mem_changes {d : Definition} (hd : d.WellFormed)
    {edit : String → Fields → Fields × List FieldPath} {path : FieldPath}
    (h : path ∈ (d.editAttributes edit).changes) :
    ∃ name body rest, d.attribute? name = some body ∧ rest ∈ (edit name body).2 ∧
      path = attributesKey :: name :: rest := by
  unfold editAttributes editSlots at h
  split at h
  · cases h
  · rename_i attributes hattributes
    rcases List.mem_map.1 h with ⟨path, hpath, rfl⟩
    rcases mem_changes_editObjects.1 hpath with ⟨name, body, rest, hmem, hrest, rfl⟩
    cases hname : isDirective name with
    | true => simp [hname] at hrest
    | false =>
      rw [hname] at hrest
      have hdistinct := (Json.wellFormed_obj_iff.1 (hd.obj?_get? hattributes)).1
      refine ⟨name, body, rest, attribute?_eq_some_iff.2 ⟨hname, attributes, hattributes, ?_⟩,
        hrest, rfl⟩
      exact (Fields.get?_eq_some_iff_mem hdistinct).2 hmem

/-! ## Making references -/

theorem get?_refer (type : String) (caption : Option String) (body : Fields) :
    Fields.get? (refer type caption body) "object_type" = some (.str type) := by
  unfold refer
  cases caption with
  | none => exact Fields.get?_set_self _ _ _
  | some caption =>
    dsimp only
    rw [Fields.get?_set_of_ne _ _ (by decide), Fields.get?_set_self]

/-- Make a reference of an attribute with the type of an object. -/
def makeReference (objects : ExtTreeMap String (Option String)) (body : Fields) :
    Fields × List FieldPath :=
  match typeOf? body with
  | none => (body, [])
  | some type =>
    if isPrimitive type then (body, [])
    else
      match objects[type]? with
      | some caption => (refer type caption body, [[typeKey]])
      | none => (body, [])

theorem eq_editTyped_of_setObjectTypes {d : Definition} {kind : Kind}
    {objects : ExtTreeMap String (Option String)} {revision : Revision}
    (h : d.setObjectTypes kind objects = .ok revision) :
    revision = d.editTyped kind (makeReference objects) := by
  unfold setObjectTypes at h
  split at h
  · cases h
  · exact (Except.ok.inj h).symm

/-- Where the type of an attribute changes, the attribute becomes a reference to an object. -/
theorem exists_refer_of_mem_changes {objects : ExtTreeMap String (Option String)} {body : Fields}
    {path : FieldPath} (h : path ∈ (makeReference objects body).2) :
    ∃ type, type ∈ objects ∧
      Fields.get? (makeReference objects body).1 "object_type" = some (.str type) := by
  unfold makeReference at h ⊢
  cases htype : typeOf? body with
  | none => simp [htype] at h
  | some type =>
    cases hcaption : objects[type]? with
    | none => simp [htype, hcaption] at h
    | some caption =>
      cases hprimitive : isPrimitive type with
      | true => simp [htype, hprimitive] at h
      | false =>
        refine ⟨type, ExtTreeMap.mem_iff_isSome_getElem?.2 (by rw [hcaption]; rfl), ?_⟩
        simp [hprimitive, hcaption, get?_refer]

/-- An attribute whose type was replaced refers to one of the objects in question. -/
theorem exists_reference?_of_mem_changes {d : Definition} (hd : d.WellFormed) {kind : Kind}
    {objects : ExtTreeMap String (Option String)} {revision : Revision}
    (h : d.setObjectTypes kind objects = .ok revision) {name : String}
    (hpath : typePath kind name ∈ revision.changes) :
    ∃ type, type ∈ objects ∧ revision.definition.reference? kind name = some type := by
  rw [eq_editTyped_of_setObjectTypes h] at hpath ⊢
  unfold editTyped typePath at hpath
  unfold reference? typed? editTyped
  by_cases hkind : kind = .dictionary
  · simp only [hkind, if_true] at hpath ⊢
    rcases exists_refer_of_mem_changes hpath with ⟨type, htype, hget⟩
    exact ⟨type, htype, by simp [hget, Json.str?]⟩
  · simp only [hkind, if_false] at hpath ⊢
    rcases exists_attribute?_of_mem_changes hd hpath with ⟨other, body, rest, hbody, hrest, heq⟩
    cases heq
    rcases exists_refer_of_mem_changes hrest with ⟨type, htype, hget⟩
    exact ⟨type, htype, by simp [attribute?_editAttributes, hbody, hget, Json.str?]⟩

/-! ## References that stay -/

/-- Siblings are added beside the attributes that are there. -/
theorem attribute?_addSiblings {d : Definition} {name : String} {body : Fields}
    (h : d.attribute? name = some body) :
    d.addSiblings.definition.attribute? name = some body := by
  have hmissing : ∀ e ∈ d.missingSiblings, name ≠ siblingName e.1 := by
    rintro e he rfl
    have hnone := (List.mem_filter.1 he).2
    simp [h] at hnone
  have hfold (items : List (String × Fields)) (hitems : ∀ e ∈ items, name ≠ siblingName e.1)
      (before : Definition) (hbefore : before.attribute? name = some body) :
      (items.foldl (fun d e => d.insertAttribute (siblingName e.1) (sibling e.2)) before).attribute?
        name = some body := by
    induction items generalizing before with
    | nil => exact hbefore
    | cons e rest ih =>
      refine ih (fun other ho => hitems other (List.mem_cons_of_mem e ho)) _ ?_
      rwa [attribute?_insertAttribute_of_ne before _ (hitems e List.mem_cons_self)]
  exact hfold d.missingSiblings hmissing d h

theorem reference?_addSiblings {d : Definition} {kind : Kind} (hkind : kind ≠ .dictionary)
    {name key : String} (h : d.reference? kind name = some key) :
    d.addSiblings.definition.reference? kind name = some key := by
  unfold reference? typed? at h ⊢
  rw [if_neg hkind] at h ⊢
  cases hbody : d.attribute? name with
  | none => simp [hbody] at h
  | some body => rwa [attribute?_addSiblings hbody, ← hbody]

/-- Objects that are the same have the same texts. -/
theorem SameObjects.text {left right : Option Fields} (h : SameObjects left right) (key : String) :
    (left.bind (Fields.get? · key)).bind Json.str? =
      (right.bind (Fields.get? · key)).bind Json.str? := by
  have hstated (fields : Fields) (text : String) :
      (Fields.get? fields key).bind Json.str? = some text ↔
        Fields.get? fields key = some (.str text) := by
    cases Fields.get? fields key with
    | none => simp
    | some value => cases value <;> simp [Json.str?]
  cases h with
  | none => rfl
  | @some a b hab =>
    have hdistinct : (⟨a⟩ : Definition).Distinct := (Json.wellFormed_obj_iff.1 hab.1).1
    have hsame : (⟨a⟩ : Definition).same ⟨b⟩ = true := hab.2
    ext text
    rw [Option.bind_some, Option.bind_some, hstated, hstated]
    exact get?_eq_some_iff_of_same hdistinct hsame (Json.isExact_str text)

theorem sameObjects_typed? {d other : Definition} (hd : d.WellFormed) (h : d.same other = true)
    (kind : Kind) (name : String) : SameObjects (d.typed? kind name) (other.typed? kind name) := by
  unfold typed?
  split
  · exact .some ⟨hd, h⟩
  · exact sameObjects_attribute? hd h name

/-- Documents that are the same have the same references. -/
theorem reference?_eq_of_same {d other : Definition} (hd : d.WellFormed)
    (h : d.same other = true) (kind : Kind) (name : String) :
    d.reference? kind name = other.reference? kind name :=
  (sameObjects_typed? hd h kind name).text "object_type"

/-- A copy has the references of its original. -/
theorem Renders.reference?_eq {shown d : Definition} (h : shown.Renders d)
    (hshown : shown.WellFormed) (kind : Kind) (name : String) :
    shown.reference? kind name = d.reference? kind name := by
  have hkept : (⟨d.renderedFields⟩ : Definition).reference? kind name = d.reference? kind name := by
    unfold reference? typed?
    split
    · rw [Option.bind_some, Option.bind_some,
        d.get?_renderedFields_of_ne (by decide) (by decide) (by decide)]
    · rw [attribute?_renderedFields]
  rw [← hkept]
  rcases h with rfl | hsame
  · rfl
  · exact reference?_eq_of_same hshown hsame kind name

end Definition

namespace Operation

/-- Adding siblings to a location keeps its references. -/
theorem exists_reference?_run {op : Operation} (haction : op.action = .addSiblings)
    (hkind : op.target.kind ≠ .dictionary) (options : Options) {draft : Draft} {name key : String}
    {d : Definition} (hd : draft.get? op.target = some d)
    (hkey : d.reference? op.target.kind name = some key) :
    ∃ after, (op.run draft options).get? op.target = some after ∧
      after.reference? op.target.kind name = some key := by
  refine exists_get?_run_of_edit options hd hkey fun _ revision hedit => ?_
  rw [edit, haction] at hedit
  cases hedit
  exact Definition.reference?_addSiblings hkind hkey

/-- As long as nothing but siblings is added to a location, it keeps its references. -/
theorem exists_reference?_runAll (options : Options) {ops : List Operation} {l : Location}
    (hops : ∀ op ∈ ops, op.target = l → op.action = .addSiblings ∧ l.kind ≠ .dictionary)
    {draft : Draft} {name key : String} {d : Definition} (hd : draft.get? l = some d)
    (hkey : d.reference? l.kind name = some key) :
    ∃ after, (runAll options draft ops).get? l = some after ∧
      after.reference? l.kind name = some key := by
  induction ops generalizing draft d with
  | nil => exact ⟨d, hd, hkey⟩
  | cons op rest ih =>
    have hrest (other : Operation) (hother : other ∈ rest) :=
      hops other (List.mem_cons_of_mem op hother)
    by_cases htarget : op.target = l
    · rcases hops op List.mem_cons_self htarget with ⟨haction, hkind⟩
      subst htarget
      rcases exists_reference?_run haction hkind options hd hkey with
        ⟨after, hafter, hkept⟩
      exact ih hrest hafter hkept
    · exact ih hrest ((op.run_get?_of_ne draft options htarget).trans hd) hkey

end Operation

namespace Planner

open Operation

/-! ## What is planned for references -/

theorem mem_objectCaptions {draft : Draft} {key : String} :
    key ∈ objectCaptions draft ↔ ∃ l d, draft.get? l = some d ∧ l.isCore = true ∧
      l.kind = .object ∧ key = d.key?.getD l.name := by
  rw [objectCaptions, ExtTreeMap.mem_ofList, List.contains_iff_mem, List.map_map, List.mem_map]
  constructor
  · rintro ⟨⟨l, d⟩, hmem, rfl⟩
    rcases Draft.mem_core.1 hmem with ⟨hd, hcore, hkind⟩
    exact ⟨l, d, hd, hcore, by simpa using hkind, rfl⟩
  · rintro ⟨l, d, hd, hcore, hkind, rfl⟩
    exact ⟨(l, d), Draft.mem_core.2 ⟨hd, hcore, by simp [hkind]⟩, rfl⟩

/-- References are planned to objects in core. -/
theorem exists_objects_of_mem_setObjectTypes {draft : Draft} {options : Options} {op : Operation}
    (h : op ∈ setObjectTypes draft options) :
    ∃ objects, op.action = .setObjectTypes objects ∧
      ∀ type ∈ objects, type ∈ objectCaptions draft := by
  unfold setObjectTypes at h
  split at h
  · cases h
  · rcases List.mem_filterMap.1 h with ⟨⟨l, d⟩, -, hop⟩
    rcases Option.ite_none_left_eq_some.1 hop with ⟨-, hop⟩
    cases hop
    refine ⟨_, rfl, fun type htype => ?_⟩
    rw [ExtTreeMap.mem_ofList, List.contains_iff_mem, List.mem_map] at htype
    rcases htype with ⟨⟨key, caption⟩, hmem, rfl⟩
    rcases List.mem_filterMap.1 hmem with ⟨type, -, hfound⟩
    rcases Option.map_eq_some_iff.1 hfound with ⟨found, hfound, heq⟩
    cases heq
    exact ExtTreeMap.mem_iff_isSome_getElem?.2 (by rw [hfound]; rfl)

/-- References are planned once for each location. -/
theorem pairwise_target_setObjectTypes (draft : Draft) (options : Options) :
    (setObjectTypes draft options).Pairwise fun a b => a.target ≠ b.target := by
  unfold setObjectTypes
  split
  · exact .nil
  · refine List.Pairwise.filterMap _ ?_ (draft.ordered_core typedKinds)
    rintro ⟨l, d⟩ ⟨l', d'⟩ hlt op hop op' hop'
    rcases Option.ite_none_left_eq_some.1 hop with ⟨-, hop⟩
    rcases Option.ite_none_left_eq_some.1 hop' with ⟨-, hop'⟩
    cases hop
    cases hop'
    rintro rfl
    simp at hlt

theorem Emits.eq_objectType {planner : Planner} {op : Operation} (h : planner.Emits op)
    {objects : ExtTreeMap String (Option String)} (hop : op.action = .setObjectTypes objects) :
    planner = objectType := by
  have haction := h.action
  rw [hop] at haction
  cases planner with
  | objectType => rfl
  | _ => exact haction.elim

theorem Emits.eq_addSiblings {op : Operation} (h : datetime.Emits op) :
    op.action = .addSiblings := by
  have haction := h.action
  cases hop : op.action with
  | addSiblings => rfl
  | _ =>
    rw [hop] at haction
    exact haction.elim

/-- The objects of the schema are the objects whose keys do not begin with an underscore. -/
theorem mem_entriesOf_objects {options : Options} {declared : ExtTreeMap String String}
    {l : Location} {d : Definition} {key : String} :
    .entry .objects key ∈ entriesOf options declared l d ↔
      l.kind = .object ∧ key = d.key?.getD l.name ∧ key.toList.head? ≠ some '_' := by
  unfold entriesOf
  dsimp only
  split
  all_goals try split
  all_goals simp_all [Location.entry, Location.inCore]

end Planner

namespace LogEntry

/-- The key to which the operation of an entry has made the attribute under a name refer. -/
def reference? (entry : LogEntry) (name : String) : Option String :=
  match entry.operation.action, entry.outcome with
  | .setObjectTypes _, .applied d changes =>
    if Definition.typePath entry.operation.target.kind name ∈ changes then
      d.reference? entry.operation.target.kind name
    else none
  | _, _ => none

theorem reference?_eq_some_iff {entry : LogEntry} {name key : String} :
    entry.reference? name = some key ↔
      (∃ objects, entry.operation.action = .setObjectTypes objects) ∧ ∃ d changes,
        entry.outcome = .applied d changes ∧
        Definition.typePath entry.operation.target.kind name ∈ changes ∧
        d.reference? entry.operation.target.kind name = some key := by
  unfold reference?
  split
  · rename_i objects d changes haction hout
    simp [haction, hout]
  · rename_i hnot
    refine ⟨nofun, ?_⟩
    rintro ⟨⟨objects, haction⟩, d, changes, hout, -⟩
    exact absurd hout (hnot objects d changes haction)

end LogEntry

namespace Compilation

open Operation

section

variable {repository : Repository} {options : Options} {plan : Plan} {seen : Draft}
  {structural dictionary identifiers before siblings : List Operation}

/-- What is planned for identifiers before and after the references to objects. -/
structure ReferencesSplit (options : Options) (draft seen : Draft)
    (structural dictionary identifiers before siblings : List Operation) : Prop where
  seen_eq : seen = runAll options draft (structural ++ dictionary ++ before)
  identifiers_eq : identifiers = before ++ (Planner.setObjectTypes seen options ++ siblings)
  emits_before : ∀ op ∈ before, ∃ planner : Planner, planner.Emits op ∧ planner ≠ .objectType
  emits_siblings : ∀ op ∈ siblings, Planner.datetime.Emits op

theorem exists_referencesSplit
    (h : PlannedAs options (.ofRepository repository) plan structural dictionary identifiers) :
    ∃ seen before siblings, ReferencesSplit options (.ofRepository repository) seen structural
      dictionary identifiers before siblings := by
  have hidentifiers : Proposes options (runAll options (.ofRepository repository)
      (structural ++ dictionary))
      ([.categoryUid, .classUid, .typeUid, .observable, .extensionTypes] ++
        [.objectType, .datetime]) identifiers := h.proposes_identifiers
  rcases hidentifiers.exists_of_append with ⟨before, after, rfl, hbefore, hafter⟩
  rw [← runAll_append] at hafter
  cases hafter with
  | @cons _ _ _ references siblings hreferences hsiblings =>
    obtain rfl := Except.ok.inj hreferences
    refine ⟨_, before, siblings, rfl, rfl, fun op hop => ?_, fun op hop => ?_⟩
    · rcases hbefore.exists_emits hop with ⟨planner, hplanner, hemits⟩
      refine ⟨planner, hemits, ?_⟩
      rintro rfl
      simp at hplanner
    · rcases hsiblings.exists_emits hop with ⟨planner, hplanner, hemits⟩
      rwa [List.mem_singleton.1 hplanner] at hemits

variable
  (h : PlannedAs options (.ofRepository repository) plan structural dictionary identifiers)
  (hsplit : ReferencesSplit options (.ofRepository repository) seen structural dictionary
    identifiers before siblings)

include hsplit in
/-- An object that the planner for references knows is known to the last planner, too. -/
theorem exists_object_of_caption {key : String} (hkey : key ∈ Planner.objectCaptions seen) :
    ∃ l d, (seenByRendering options repository structural dictionary identifiers).get? l = some d ∧
      l.isCore = true ∧ l.kind = .object ∧ key = d.key?.getD l.name := by
  rcases Planner.mem_objectCaptions.1 hkey with ⟨l, d, hd, hcore, hkind, rfl⟩
  have hrun : seenByRendering options repository structural dictionary identifiers =
      runAll options seen (Planner.setObjectTypes seen options ++ siblings) := by
    rw [seenByRendering, hsplit.identifiers_eq, ← List.append_assoc, runAll_append,
      ← hsplit.seen_eq]
  have hedits (op : Operation) (hop : op ∈ Planner.setObjectTypes seen options ++ siblings)
      (htarget : op.target = l) : op.editsAttributes = true := by
    have hplain : op.target.kind ≠ .dictionary := by simp [htarget, hkind]
    rcases List.mem_append.1 hop with hop | hop
    · exact (Planner.emits_setObjectTypes hop).editsAttributes rfl (by decide) hplain
    · exact (hsplit.emits_siblings op hop).editsAttributes rfl (by decide) hplain
  have hcontains := contains_runAll options (Draft.contains_of_get? hd)
    (Planner.setObjectTypes seen options ++ siblings)
  rw [← hrun] at hcontains
  rcases Option.isSome_iff_exists.1 hcontains with ⟨after, hafter⟩
  have hback := hafter
  rw [hrun] at hback
  rcases attributesOnly_runAll hedits hback with ⟨d', hd', hattributes⟩
  cases hd.symm.trans hd'
  have hkey : after.key? = d.key? := by
    rw [Definition.key?, Definition.key?, Definition.name?, Definition.name?,
      hattributes.text?_eq (by decide), hattributes.text?_eq (by decide)]
  exact ⟨l, after, hafter, hcore, hkind, by rw [hkey]⟩

include h in
/-- The schedules have for a location what is planned for it, phase by phase. -/
theorem targeting_schedules {l : Location} (hl : l.part? = none) :
    targeting (plan.phases.flatMap PhasePlan.schedule) l =
      targeting (structural ++ dictionary ++ identifiers) l := by
  have hcopies : targeting (Planner.render
      (seenByRendering options repository structural dictionary identifiers) options) l = [] := by
    refine targeting_eq_nil_iff.2 fun op hop heq => ?_
    exact (Planner.emits_render hop).part?_target_ne (heq ▸ hl)
  rw [h.phases_eq]
  simp only [List.flatMap_cons, List.flatMap_nil, targeting_append,
    PhasePlan.targeting_schedule_ofOperations, List.append_nil]
  rw [← seenByRendering, hcopies, List.append_nil, List.append_assoc]

include h hsplit

/-- Before references are planned, no operation makes one. -/
theorem ne_setObjectTypes_of_mem {op : Operation}
    (hop : op ∈ structural ++ dictionary ++ before) (objects : ExtTreeMap String (Option String)) :
    op.action ≠ .setObjectTypes objects := by
  intro haction
  have hlate {phase : Phase} {draft : Draft} {ops : List Operation}
      (hops : Proposes options draft phase.planners ops) (hmem : op ∈ ops) :
      Planner.objectType ∈ phase.planners := by
    rcases hops.exists_emits hmem with ⟨planner, hplanner, hemits⟩
    rwa [hemits.eq_objectType haction] at hplanner
  simp only [List.mem_append] at hop
  rcases hop with (hop | hop) | hop
  · exact absurd (hlate h.proposes_structural hop) (by decide)
  · exact absurd (hlate h.proposes_dictionary hop) (by decide)
  · rcases hsplit.emits_before op hop with ⟨planner, hemits, hne⟩
    exact hne (hemits.eq_objectType haction)

/-- After the references of a location were made, only siblings are added to it. -/
theorem addsSiblings_after {op : Operation} {earlier later : List Operation}
    (hall : plan.phases.flatMap PhasePlan.schedule = earlier ++ op :: later)
    (hop : op ∈ Planner.setObjectTypes seen options) :
    ∀ next ∈ later, next.target = op.target →
      next.action = .addSiblings ∧ op.target.kind ≠ .dictionary := by
  intro next hnext htarget
  have hemits := Planner.emits_setObjectTypes hop
  rcases Planner.exists_objects_of_mem_setObjectTypes hop with ⟨objects, haction, -⟩
  -- References are planned once for a location, so whatever follows them was planned later.
  have hordered : (targeting (plan.phases.flatMap PhasePlan.schedule) op.target).Pairwise
      fun a b => (∃ objects, a.action = .setObjectTypes objects) → b ∈ siblings := by
    rw [targeting_schedules h (hemits.part?_target (by decide)), hsplit.identifiers_eq,
      ← List.append_assoc, targeting_append,
      targeting_append (Planner.setObjectTypes seen options)]
    refine List.pairwise_append.2 ⟨?_, List.pairwise_append.2 ⟨?_, ?_, ?_⟩, ?_⟩
    · refine List.pairwise_of_forall_mem_list fun a ha b _ => ?_
      rintro ⟨objects, hobjects⟩
      exact absurd hobjects
        (ne_setObjectTypes_of_mem h hsplit (mem_targeting.1 ha).1 objects)
    · refine ((Planner.pairwise_target_setObjectTypes seen options).filter _).imp_of_mem ?_
      intro a b ha hb hne
      exact absurd ((mem_targeting.1 ha).2.trans (mem_targeting.1 hb).2.symm) hne
    · exact List.pairwise_of_forall_mem_list fun _ _ b hb _ => (mem_targeting.1 hb).1
    · exact fun _ _ b hb _ => (mem_targeting.1 hb).1
    · rintro a ha b - ⟨objects, hobjects⟩
      exact absurd hobjects
        (ne_setObjectTypes_of_mem h hsplit (mem_targeting.1 ha).1 objects)
  rw [hall, targeting_append, targeting_cons_self] at hordered
  have hafter := (List.pairwise_cons.1 (List.pairwise_append.1 hordered).2.1).1 next
    (mem_targeting.2 ⟨hnext, htarget⟩) ⟨objects, haction⟩
  have hsibling := hsplit.emits_siblings next hafter
  refine ⟨hsibling.eq_addSiblings, fun hkind => ?_⟩
  have hattributes := hsibling.kind
  rw [htarget, hkind] at hattributes
  simp [Planner.targetKinds, Kind.withAttributes] at hattributes

/-- Operations that make references are those that were planned for it. -/
theorem mem_setObjectTypes_of_mem_schedules {op : Operation}
    (hop : op ∈ plan.phases.flatMap PhasePlan.schedule)
    {objects : ExtTreeMap String (Option String)} (haction : op.action = .setObjectTypes objects) :
    op ∈ Planner.setObjectTypes seen options := by
  rw [h.phases_eq] at hop
  simp only [List.flatMap_cons, List.flatMap_nil, List.append_nil, List.mem_append,
    (PhasePlan.schedule_perm _ _).mem_iff, hsplit.identifiers_eq] at hop
  have hearlier (hmem : op ∈ structural ++ dictionary ++ before) : False :=
    ne_setObjectTypes_of_mem h hsplit hmem objects haction
  rcases hop with hop | hop | (hop | hop | hop) | hop
  · exact (hearlier (by simp [hop])).elim
  · exact (hearlier (by simp [hop])).elim
  · exact (hearlier (by simp [hop])).elim
  · exact hop
  · exact absurd ((hsplit.emits_siblings op hop).eq_objectType haction) (by decide)
  · exact absurd ((Planner.emits_render hop).eq_objectType haction) (by decide)

/-- The references that an operation made are to known objects, and they stay. -/
theorem exists_reference?_of_mem_entriesFor (hr : repository.Sound) {l : Location}
    {entry : LogEntry} (hentry : entry ∈ (finalLog options repository plan).entriesFor l)
    {name key : String} (hkey : entry.reference? name = some key) :
    key ∈ Planner.objectCaptions seen ∧ ∃ d, (finalDraft options repository plan).get? l = some d ∧
      d.reference? l.kind name = some key := by
  rw [finalLog, entriesFor_applyPhases] at hentry
  rcases LogEntry.mem_targeting.1 hentry with ⟨hmem, rfl⟩
  rcases mem_trace_iff.1 hmem with ⟨earlier, op, later, hall, rfl⟩
  rcases LogEntry.reference?_eq_some_iff.1 hkey with
    ⟨⟨objects, haction⟩, d, changes, hout, hpath, hreference⟩
  dsimp only at haction hout hpath hreference ⊢
  have hop : op ∈ Planner.setObjectTypes seen options :=
    mem_setObjectTypes_of_mem_schedules h hsplit (by simp [hall]) haction
  have hall' : runAll options (.ofRepository repository)
      (plan.phases.flatMap PhasePlan.schedule) = finalDraft options repository plan :=
    (draft_applyPhases options _ plan.phases).symm
  rw [hall, runAll_append, runAll_cons] at hall'
  have hcurrent := (Draft.wellFormed_ofRepository hr).runAll options earlier
  generalize runAll options (.ofRepository repository) earlier = current at hout hall' hcurrent
  have hwritten := op.get?_run_target current options
  rw [hout] at hwritten
  have hafter := exists_reference?_runAll options
    (addsSiblings_after h hsplit hall hop) hwritten hreference
  rw [hall'] at hafter
  refine ⟨?_, hafter⟩
  rcases op.outcome_cases current options with
    ⟨cause, hout'⟩ | ⟨-, revision, hedit, hout' | ⟨hout', -⟩⟩
  · cases hout.symm.trans hout'
  · cases hout.symm.trans hout'
    have hbefore := hcurrent.getD_get? op.target
    simp only [edit, haction] at hedit
    rcases Definition.exists_reference?_of_mem_changes hbefore hedit hpath with
      ⟨type, htype, hreference'⟩
    cases hreference.symm.trans hreference'
    rcases Planner.exists_objects_of_mem_setObjectTypes hop with ⟨objects', haction', hknown⟩
    cases haction.symm.trans haction'
    exact hknown _ htype
  · cases hout.symm.trans hout'

/-- An object that is known to the planner for references is in the schema, unless it is hidden. -/
theorem isSome_lookup_iff_of_caption (hr : repository.Sound)
    (hmissing : missing (finalDraft options repository plan) plan = []) {key : String}
    (hkey : key ∈ Planner.objectCaptions seen) :
    ((Schema.render (finalDraft options repository plan)).lookup .objects key).isSome = true ↔
      key.toList.head? ≠ some '_' := by
  rw [isSome_lookup_iff_copies hr h hmissing (by decide)]
  constructor
  · rintro ⟨source, target, hcopies, hfills⟩
    rcases eq_entry_of_copies h hcopies hfills.1 with ⟨heq, -⟩
    have htarget := part?_ne_of_copies h hcopies
    rcases exists_entry_of_mem_sourcesOf h htarget
        ((copies_iff_mem_sourcesOf h htarget).1 hcopies) with ⟨d, -, -, hentry⟩
    rw [heq, hfills.2.resolve_left (by decide)] at hentry
    exact (Planner.mem_entriesOf_objects.1 hentry).2.2
  · intro hplain
    rcases exists_object_of_caption hsplit hkey with ⟨l, d, hd, hcore, hkind, heq⟩
    refine ⟨l, .entry .objects key, copies_of_mem_entriesOf h hd hcore ?_, rfl, Or.inr rfl⟩
    exact Planner.mem_entriesOf_objects.2 ⟨hkind, heq, hplain⟩

end

/-- A location whose copy is shown has the references of the copy. -/
theorem reference?_of_shown? {repository : Repository} {options : Options} {plan : Plan}
    {structural dictionary identifiers : List Operation} (hr : repository.Sound)
    (h : PlannedAs options (.ofRepository repository) plan structural dictionary identifiers)
    (hmissing : missing (finalDraft options repository plan) plan = []) {part : Section}
    {key : String} {l : Location}
    (hshown : plan.shown? (finalDraft options repository plan) (.entry part key) = some l)
    {copy : Definition}
    (hlookup : (Schema.render (finalDraft options repository plan)).lookup part key = some copy)
    (kind : Kind) (name : String) :
    ∃ d, (finalDraft options repository plan).get? l = some d ∧
      copy.reference? kind name = d.reference? kind name := by
  have hpart : (Location.entry part key).part? ≠ none := Option.some_ne_none part
  have hplain : part ≠ .version := by
    rintro rfl
    cases hlookup
  rcases exists_get?_of_missing h hmissing hpart (Draft.mem_of_getLast?_takeWhile hshown) with
    ⟨copy', hcopy'⟩
  rcases exists_source_of_get? hr h hpart hcopy' with ⟨source, -, d, hsource, hd, hrenders⟩
  cases hshown.symm.trans hsource
  cases hlookup.symm.trans (lookup_of_fills hr h hplain ⟨rfl, Or.inr rfl⟩ hcopy')
  exact ⟨d, hd, hrenders.reference?_eq (wellFormed_compiled hr h _ copy hcopy') kind name⟩

/--
References to objects resolve.  The key to which an operation has made an attribute refer is a key
of the objects of the schema, unless it begins with an underscore; such objects are hidden.
Wherever the attribute is shown, it shows the reference.
-/
theorem object_references_resolve {repository : Repository} {options : Options}
    {analyzed compiled : Compilation} {plan : Plan} {log : Log} {schema : Schema}
    (hrepository : repository.Reachable)
    (hanalyze : (ofRepository repository options).analyze = .ok analyzed)
    (hplan : analyzed.stage.plan? = some plan) (hcompile : analyzed.compile = .ok compiled)
    (hlog : compiled.stage.log? = some log) (hschema : compiled.schema = .ok schema)
    {l : Location} {entry : LogEntry}
    (hentry : entry ∈ log.entriesFor l) {name key : String}
    (hkey : entry.reference? name = some key) :
    ((schema.lookup .objects key).isSome = true ↔ key.toList.head? ≠ some '_') ∧
    ∀ part shown copy, plan.shown? compiled.draft (.entry part shown) = some l →
      schema.lookup part shown = some copy → copy.reference? l.kind name = some key := by
  rcases analyze_ofRepository_eq_ok_iff.1 hanalyze with ⟨scratch, plan', hplanned, rfl⟩
  rcases exists_plannedAs hplanned with ⟨structural, dictionary, identifiers, h, -⟩
  rw [compile_analyzed] at hcompile
  cases hplan
  cases hcompile
  cases hlog
  rcases schema_compiled_eq_ok_iff.1 hschema with ⟨hmissing, rfl⟩
  have hr := hrepository.sound
  rcases exists_referencesSplit h with ⟨seen, before, siblings, hsplit⟩
  rcases exists_reference?_of_mem_entriesFor h hsplit hr hentry hkey with ⟨hcaption, d, hd, hmade⟩
  refine ⟨isSome_lookup_iff_of_caption h hsplit hr hmissing hcaption, ?_⟩
  intro part shown copy hshown hlookup
  rcases reference?_of_shown? hr h hmissing hshown hlookup l.kind name with ⟨d', hd', heq⟩
  cases hd.symm.trans hd'
  exact heq.trans hmade

/-! ## A hidden object -/

/-- An object with an attribute whose type is another object. -/
def objectWithPart (name : String) : List (Path × Json) :=
  [(⟨"objects/whole.json"⟩, .obj [("name", .str "whole"),
      ("attributes", .obj [("part", .obj [("type", .str name)])])]),
    (⟨"objects/part.json"⟩, .obj [("name", .str name)])]

theorem reachable_of_objectWithPart {name : String} {repository : Repository}
    (h : Repository.ofFiles (objectWithPart name) = .ok repository) : repository.Reachable := by
  refine Repository.Reachable.empty.insertFiles (fun file hfile => ?_) h
  simp only [objectWithPart, List.mem_cons, List.not_mem_nil, or_false] at hfile
  rcases hfile with rfl | rfl <;> simp [Json.WellFormed, Json.WellFormedFields]

/-- What comes of a reference. -/
structure PartView where
  /-- The keys in the log. -/
  made : List String
  /-- The location whose copy is shown. -/
  source : Option Location
  /-- Whether the copy is in the schema. -/
  shown : Bool
  /-- Whether the object in question is in the schema. -/
  resolves : Bool
deriving DecidableEq

/-- What comes of the reference of the object to the key of another one. -/
def partView (key : String) (way : Way) : PartView where
  made := ((way.compiled.stage.log?.getD {}).entriesFor (.inCore .object "whole")).filterMap
    (·.reference? "part")
  source := way.plan.shown? way.compiled.draft (.entry .objects "whole")
  shown := (way.schema.lookup .objects "whole").isSome
  resolves := (way.schema.lookup .objects key).isSome

theorem exists_entry_of_partView {key : String} {way : Way} (h : key ∈ (partView key way).made) :
    ∃ log, way.compiled.stage.log? = some log ∧
      ∃ entry ∈ log.entriesFor (.inCore .object "whole"), entry.reference? "part" = some key := by
  rcases List.mem_filterMap.1 h with ⟨entry, hentry, hkey⟩
  cases hlog : way.compiled.stage.log? with
  | none => simp [hlog, Log.entriesFor] at hentry
  | some log =>
    rw [hlog] at hentry
    exact ⟨log, rfl, entry, hentry, hkey⟩

/-- The part of an object is an object of the schema, and shown as such. -/
theorem part_resolves :
    ∃ way : Way, ∃ copy, Repository.ofFiles (objectWithPart "piece") = .ok way.repository ∧
      (way.schema.lookup .objects "piece").isSome = true ∧
      way.schema.lookup .objects "whole" = some copy ∧
      copy.reference? .object "part" = some "piece" := by
  have hview : (wayOf (objectWithPart "piece")).map (partView "piece") =
      some ⟨["piece"], some (.inCore .object "whole"), true, true⟩ := by decide +kernel
  rcases exists_of_wayOf hview with ⟨way, hfiles, hanalyze, hplan, hcompile, hschema, hpart⟩
  have hmade : "piece" ∈ (partView "piece" way).made := by simp [hpart]
  rcases exists_entry_of_partView hmade with ⟨log, hlog, entry, hentry, hkey⟩
  rcases object_references_resolve (reachable_of_objectWithPart hfiles) hanalyze hplan hcompile
      hlog hschema hentry hkey with ⟨hresolves, hshown⟩
  rcases Option.isSome_iff_exists.1 (congrArg PartView.shown hpart) with ⟨copy, hcopy⟩
  exact ⟨way, copy, hfiles, hresolves.2 (by decide), hcopy,
    hshown .objects "whole" copy (congrArg PartView.source hpart) hcopy⟩

/-- A reference to an object with a leading underscore names no object of the schema. -/
theorem hidden_part_does_not_resolve :
    ¬ ∀ files repository options analyzed plan compiled log schema,
      Repository.ofFiles files = .ok repository →
      (ofRepository repository options).analyze = .ok analyzed →
      analyzed.stage.plan? = some plan → analyzed.compile = .ok compiled →
      compiled.stage.log? = some log → compiled.schema = .ok schema →
      ∀ l, ∀ entry ∈ log.entriesFor l, ∀ name key, entry.reference? name = some key →
        (∃ part ∈ [Section.objects, .classes, .profiles, .baseEvent, .attributes], ∃ shown,
          plan.shown? compiled.draft (.entry part shown) = some l) →
        (schema.lookup .objects key).isSome = true := by
  intro hclaim
  have hview : (wayOf (objectWithPart "_piece")).map (partView "_piece") =
      some ⟨["_piece"], some (.inCore .object "whole"), true, false⟩ := by decide +kernel
  rcases exists_of_wayOf hview with ⟨way, hfiles, hanalyze, hplan, hcompile, hschema, hpart⟩
  have hmade : "_piece" ∈ (partView "_piece" way).made := by simp [hpart]
  rcases exists_entry_of_partView hmade with ⟨log, hlog, entry, hentry, hkey⟩
  have hresolves := hclaim _ _ _ _ _ _ _ _ hfiles hanalyze hplan hcompile hlog hschema _ entry
    hentry "part" "_piece" hkey
    ⟨.objects, by decide, "whole", congrArg PartView.source hpart⟩
  rw [show (way.schema.lookup .objects "_piece").isSome = false from
    congrArg PartView.resolves hpart] at hresolves
  cases hresolves

end Compilation

end EventSchema
