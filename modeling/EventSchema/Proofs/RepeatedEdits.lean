import EventSchema.Proofs.MergeChanges
import EventSchema.Proofs.ObjectReferences

/-!
# Repeated edits

An operation that has been applied finds its target as it would make it, so that applying it again
changes nothing.  Most edits work on the attributes one by one and leave alone what they have made;
copies depend on their source only.  Two kinds of operation can take back what they did: a renaming
into a name that is renamed itself, and a patch that changes the name by which it recognizes what it
patches.

Main results:

- {lit}`Definition.editSlots_editSlots`: editing each object among the attributes a second time
  changes nothing.
- {lit}`SlotEdit.applyAll_applyAll`: the same for edits of attributes with different names.
- {lit}`Definition.missingSiblings_addSiblings`: no sibling is missing once they have been added.
- {lit}`Operation.apply_again_eq_unchanged`: an operation that has been applied and is applied again
  changes nothing.
-/

namespace EventSchema

open Std

namespace Definition

/-! ## Edits of each object -/

/-- An edit of an object that leaves alone what it has made. -/
def Repeats (edit : Fields → Fields × List FieldPath) : Prop :=
  ∀ body, (edit (edit body).1).1 = (edit body).1

/-- A merge of the same source is idle the second time. -/
theorem repeats_merge (rule : MergeRule) {right : Fields} (h : (Json.obj right).WellFormed) :
    Repeats fun body => rule.apply body right := by
  intro body
  have hagain := Fields.merge_merge rule.overwrite body (rule.wellFormed_admitted h)
  exact (congrArg Prod.fst hagain :)

/-- An edit of all objects is idle the second time if the edit of each is. -/
theorem editObjects_editObjects {edit : String → Fields → Fields × List FieldPath}
    (h : ∀ name, Repeats (edit name)) (fields : Fields) :
    (editObjects edit (editObjects edit fields).1).1 = (editObjects edit fields).1 := by
  simp only [editObjects_fst, List.map_map]
  apply List.map_congr_left
  intro e _
  cases hvalue : e.2 with
  | obj body => simp [hvalue, objectAfter, h e.1 body]
  | _ => simp [hvalue, objectAfter]

/-- To write the attributes that are there changes nothing. -/
theorem set_attributes_eq_self {d : Definition} {attributes : Fields}
    (h : d.attributes? = some attributes) : d.set attributesKey (.obj attributes) = d := by
  rw [set, Fields.set_eq_self (fields_get?_of_attributes? h)]

/-- An edit that leaves the attributes as they are leaves the definition as it is. -/
theorem definition_editSlots_eq_self {d : Definition}
    {edit : String → Fields → Fields × List FieldPath}
    (h : ∀ attributes, d.attributes? = some attributes →
      (editObjects edit attributes).1 = attributes) : (d.editSlots edit).definition = d := by
  unfold editSlots
  cases hattributes : d.attributes? with
  | none => rfl
  | some attributes =>
    dsimp only
    rw [h attributes hattributes, set_attributes_eq_self hattributes]

/-- Editing each object among the attributes a second time changes nothing. -/
theorem editSlots_editSlots (d : Definition) {edit : String → Fields → Fields × List FieldPath}
    (h : ∀ name, Repeats (edit name)) :
    ((d.editSlots edit).definition.editSlots edit).definition = (d.editSlots edit).definition := by
  apply definition_editSlots_eq_self
  intro after hafter
  unfold editSlots at hafter
  cases hattributes : d.attributes? with
  | none => simp [hattributes, unchanged] at hafter
  | some attributes =>
    simp only [hattributes, attributes?_set, Option.some.injEq] at hafter
    rw [← hafter, editObjects_editObjects h]

/-- An edit of all attributes is idle the second time if the edit of each is. -/
theorem editAttributes_editAttributes (d : Definition)
    {edit : String → Fields → Fields × List FieldPath} (h : ∀ name, Repeats (edit name)) :
    ((d.editAttributes edit).definition.editAttributes edit).definition =
      (d.editAttributes edit).definition := by
  apply editSlots_editSlots
  intro name body
  cases hplain : isDirective name with
  | true => simp
  | false => simpa using h name body

/-- An edit of types is idle the second time if the edit of each attribute is. -/
theorem editTyped_editTyped (d : Definition) (kind : Kind)
    {edit : Fields → Fields × List FieldPath} (h : Repeats edit) :
    ((d.editTyped kind edit).definition.editTyped kind edit).definition =
      (d.editTyped kind edit).definition := by
  unfold editTyped
  by_cases hkind : kind = .dictionary
  · simp [hkind, h d.fields]
  · simp only [hkind, if_false]
    exact d.editAttributes_editAttributes fun _ => h

/-- Tags are written once. -/
theorem tagProfile_tagProfile (d : Definition) (profile : String) :
    ((d.tagProfile profile).definition.tagProfile profile).definition =
      (d.tagProfile profile).definition := by
  apply editSlots_editSlots
  intro name
  apply repeats_merge
  simp [Json.WellFormed, Json.WellFormedFields]

/-- Annotations are written once. -/
theorem annotate_annotate {d : Definition} (h : d.WellFormed) :
    d.annotate.definition.annotate.definition = d.annotate.definition := by
  cases hannotations : (d.get? annotationsKey).bind Json.obj? with
  | none => simp [annotate, hannotations, unchanged]
  | some annotations =>
    have hedit (other : Definition) (ho : other.get? annotationsKey = d.get? annotationsKey) :
        other.annotate =
          other.editAttributes fun _ body => MergeRule.patch.apply body annotations := by
      simp [annotate, ho, hannotations]
    have hkept : Fields.get? (d.editAttributes fun _ body =>
        MergeRule.patch.apply body annotations).definition.fields annotationsKey =
          Fields.get? d.fields annotationsKey :=
      (d.attributesOnly_editSlots _).get? annotationsKey (by decide)
    rw [hedit d rfl, hedit _ (congrArg (Option.filter _) hkept)]
    apply editAttributes_editAttributes
    intro name
    exact repeats_merge MergeRule.patch (h.obj?_get? hannotations)

/-- A profile is removed once. -/
theorem removeProfile_removeProfile (d : Definition) (profile : String) (options : Options) :
    ((d.removeProfile profile options).definition.removeProfile profile options).definition =
      (d.removeProfile profile options).definition := by
  cases hattributes : d.attributes? with
  | none => simp [removeProfile, hattributes, unchanged]
  | some attributes =>
    have hkept := d.attributes?_set (attributes.filter fun e => !isInactive profile options e.2)
    simp only [removeProfile, hattributes, hkept, List.filter_filter, Bool.and_self]
    exact set_attributes_eq_self hkept

/-! ## Types -/

/-- The type that was set is found. -/
theorem typeOf?_set_typeKey (body : Fields) (type : String) :
    typeOf? (Fields.set typeKey (.str type) body) = some type := by
  simp [typeOf?, typeKey, Json.str?]

/-- A renaming leaves alone what it has made unless it renames a name that it gives. -/
theorem prefixTypes_prefixTypes (d : Definition) (kind : Kind)
    {renames : ExtTreeMap String String}
    (h : ∀ old new : String, renames[old]? = some new → renames[new]? = none) :
    ((d.prefixTypes kind renames).definition.prefixTypes kind renames).definition =
      (d.prefixTypes kind renames).definition := by
  apply editTyped_editTyped
  intro body
  cases hnew : (typeOf? body).bind (renames[·]?) with
  | none => simp [hnew]
  | some new =>
    obtain ⟨old, -, hold⟩ := Option.bind_eq_some_iff.1 hnew
    simp only [hnew, typeOf?_set_typeKey, Option.bind_some, h old new hold]

theorem isPrimitive_objectType : isPrimitive objectType = true := by decide

/-- A reference to an object has the type of objects. -/
theorem typeOf?_refer (type : String) (caption : Option String) (body : Fields) :
    typeOf? (refer type caption body) = some objectType := by
  have hnamed : typeOf? (Fields.set "object_type" (.str type)
      (Fields.set typeKey (.str objectType) body)) = some objectType := by
    rw [typeOf?, Fields.get?_set_of_ne _ _ (by decide)]
    exact typeOf?_set_typeKey body objectType
  cases caption with
  | none => exact hnamed
  | some caption =>
    rw [refer, typeOf?, Fields.get?_set_of_ne _ _ (by decide)]
    exact hnamed

/-- A reference to an object is made once. -/
theorem repeats_makeReference (objects : ExtTreeMap String (Option String)) :
    Repeats (makeReference objects) := by
  intro body
  unfold makeReference
  cases htype : typeOf? body with
  | none => simp [htype]
  | some type =>
    cases hprimitive : isPrimitive type with
    | true => simp [htype, hprimitive]
    | false =>
      cases hcaption : objects[type]? with
      | none => simp [htype, hprimitive, hcaption]
      | some caption => simp [hprimitive, hcaption, typeOf?_refer, isPrimitive_objectType]

/-- An edit of attributes is carried out on each of them. -/
theorem attributes_editAttributes (d : Definition)
    (edit : String → Fields → Fields × List FieldPath) :
    (d.editAttributes edit).definition.attributes =
      d.attributes.map fun a => (a.1, (edit a.1 a.2).1) := by
  unfold editAttributes editSlots
  cases hattributes : d.attributes? with
  | none => simp [attributes, unchanged, hattributes]
  | some before =>
    simp only [attributes, attributes?_set, hattributes, Option.getD_some, editObjects_fst,
      List.filterMap_map, List.map_filterMap]
    apply List.filterMap_congr
    intro e _
    cases hplain : isDirective e.1 with
    | true => simp [hplain]
    | false => cases hvalue : e.2 <;> simp [hplain, hvalue, objectAfter, Json.obj?]

/-- A type after an edit is that of an attribute from before, edited. -/
theorem exists_of_mem_types_editTyped {d : Definition} {kind : Kind}
    {edit : Fields → Fields × List FieldPath} {type : String}
    (h : type ∈ (d.editTyped kind edit).definition.types kind) :
    ∃ body, typeOf? (edit body).1 = some type ∧
      ∀ old, typeOf? body = some old → old ∈ d.types kind := by
  unfold editTyped types at h
  by_cases hkind : kind = .dictionary
  · simp only [hkind, if_true, Option.mem_toList] at h
    refine ⟨d.fields, h, ?_⟩
    intro old hold
    simp [types, hkind, hold]
  · simp only [hkind, if_false, attributes_editAttributes, List.filterMap_map] at h
    obtain ⟨a, ha, htype⟩ := List.mem_filterMap.1 h
    refine ⟨a.2, htype, ?_⟩
    intro old hold
    rw [types, if_neg hkind]
    exact List.mem_filterMap.2 ⟨a, ha, hold⟩

/-- A reference to a known object has a primitive type. -/
theorem isPrimitive_of_makeReference {objects : ExtTreeMap String (Option String)} {body : Fields}
    (h : ∀ old, typeOf? body = some old → isPrimitive old = true ∨ old ∈ objects) {type : String}
    (htype : typeOf? (makeReference objects body).1 = some type) : isPrimitive type = true := by
  unfold makeReference at htype
  cases hold : typeOf? body with
  | none => simp [hold] at htype
  | some old =>
    cases hprimitive : isPrimitive old with
    | true =>
      simp only [hold, hprimitive, if_true, Option.some.injEq] at htype
      rwa [← htype]
    | false =>
      have hknown : old ∈ objects := by simpa [hprimitive] using h old hold
      obtain ⟨caption, hcaption⟩ := Option.isSome_iff_exists.1
        (ExtTreeMap.mem_iff_isSome_getElem?.1 hknown)
      simp only [hold, hprimitive, hcaption, Bool.false_eq_true, if_false, typeOf?_refer,
        Option.some.injEq] at htype
      rw [← htype]
      exact isPrimitive_objectType

/-- References are made only if each type is primitive or a known object. -/
theorem isPrimitive_or_mem_of_setObjectTypes {d : Definition} {kind : Kind}
    {objects : ExtTreeMap String (Option String)} {revision : Revision}
    (h : d.setObjectTypes kind objects = .ok revision) {type : String}
    (htype : type ∈ d.types kind) : isPrimitive type = true ∨ type ∈ objects := by
  unfold setObjectTypes at h
  split at h
  · cases h
  · rename_i hnone
    have hhere := List.find?_eq_none.1 hnone type htype
    cases hprimitive : isPrimitive type with
    | true => simp
    | false => simpa [hprimitive] using hhere

/-- Once references have been made, every type is primitive. -/
theorem isPrimitive_of_mem_types_setObjectTypes {d : Definition} {kind : Kind}
    {objects : ExtTreeMap String (Option String)} {revision : Revision}
    (h : d.setObjectTypes kind objects = .ok revision) {type : String}
    (htype : type ∈ revision.definition.types kind) : isPrimitive type = true := by
  rw [eq_editTyped_of_setObjectTypes h] at htype
  obtain ⟨body, hbody, hold⟩ := exists_of_mem_types_editTyped htype
  refine isPrimitive_of_makeReference (fun old ho => ?_) hbody
  exact isPrimitive_or_mem_of_setObjectTypes h (hold old ho)

/-- References can be made a second time, and stay as they are. -/
theorem setObjectTypes_again {d : Definition} {kind : Kind}
    {objects : ExtTreeMap String (Option String)} {revision : Revision}
    (h : d.setObjectTypes kind objects = .ok revision) :
    ∃ again, revision.definition.setObjectTypes kind objects = .ok again ∧
      again.definition = revision.definition := by
  have hnone : (revision.definition.types kind).find?
      (fun type => !isPrimitive type && !objects.contains type) = none := by
    rw [List.find?_eq_none]
    intro type htype
    simp [isPrimitive_of_mem_types_setObjectTypes h htype]
  refine ⟨_, by rw [setObjectTypes, hnone], ?_⟩
  rw [eq_editTyped_of_setObjectTypes h]
  exact d.editTyped_editTyped kind (repeats_makeReference objects)

/-! ## One attribute -/

/-- The attribute that was inserted is found. -/
theorem slot?_insertAttribute (d : Definition) (name : String) (body : Fields) :
    (d.insertAttribute name body).slot? name = some body := by
  rw [slot?, insertAttribute, attributes?_set, Option.bind_some, Fields.get?_set_self]
  rfl

/-- To insert an attribute that is there changes nothing. -/
theorem insertAttribute_eq_self {d : Definition} {name : String} {body : Fields}
    (h : d.slot? name = some body) : d.insertAttribute name body = d := by
  obtain ⟨value, hvalue, hobj⟩ := Option.bind_eq_some_iff.1 h
  obtain ⟨attributes, hattributes, hget⟩ := Option.bind_eq_some_iff.1 hvalue
  cases value with
  | obj fields =>
    cases hobj
    rw [insertAttribute, hattributes, Option.getD_some, Fields.set_eq_self hget,
      set_attributes_eq_self hattributes]
  | _ => cases hobj

/-- Filling an attribute from the same entry a second time changes nothing. -/
theorem fillAttribute_again {d entry : Definition} (hentry : entry.WellFormed) {name : String}
    {revision : Revision} (h : d.fillAttribute name entry = .ok revision) :
    ∃ again, revision.definition.fillAttribute name entry = .ok again ∧
      again.definition = revision.definition := by
  unfold fillAttribute editSlot? at h ⊢
  cases hslot : d.slot? name with
  | none => simp [hslot] at h
  | some body =>
    simp only [hslot, Option.map_some, Except.ok.injEq] at h
    subst h
    simp only [slot?_insertAttribute, Option.map_some, Except.ok.injEq, exists_eq_left']
    rw [repeats_merge MergeRule.fill hentry body]
    exact insertAttribute_eq_self (d.slot?_insertAttribute name _)

/-- Give an object exactly some members. -/
def enumerate (members body : Fields) : Fields × List FieldPath :=
  if (Fields.get? body enumKey).any (· == .obj members) then (body, [])
  else (Fields.set enumKey (.obj members) body, [[enumKey]])

/-- Enumeration members are added to an attribute, or make one. -/
theorem setEnum_eq (d : Definition) (name : String) (members : Fields) :
    d.setEnum name members = (d.editSlot? name (enumerate members)).getD
      ⟨d.insertAttribute name [(enumKey, .obj members)], [[attributesKey, name]]⟩ := by
  unfold setEnum editSlot?
  cases d.slot? name <;> rfl

/-- To enumerate the members that are there changes nothing. -/
theorem enumerate_fst_of_get? {members body : Fields}
    (h : Fields.get? body enumKey = some (.obj members)) : (enumerate members body).1 = body := by
  unfold enumerate
  split
  · rfl
  · exact Fields.set_eq_self h

/-- Members are enumerated once. -/
theorem repeats_enumerate (members : Fields) : Repeats (enumerate members) := by
  intro body
  by_cases hcurrent : (Fields.get? body enumKey).any (· == .obj members) = true
  · simp only [enumerate, hcurrent, if_true]
  · apply enumerate_fst_of_get?
    simp [enumerate, hcurrent]

/-- Name a label at the end of the description of an object, if it has one. -/
def labelObject (label : String) (body : Fields) : Fields × List FieldPath :=
  match (Fields.get? body "description").bind Json.str? with
  | none => (body, [])
  | some text =>
    if labelled text label = text then (body, [])
    else (Fields.set "description" (.str (labelled text label)) body, [["description"]])

/-- A caption is an edit of one attribute. -/
theorem labelAttribute_eq (d : Definition) (name label : String) :
    d.labelAttribute name label = (d.editSlot? name (labelObject label)).getD d.unchanged := rfl

/-- A text that ends with a label gets it no second time. -/
theorem labelled_labelled (text label : String) :
    labelled (labelled text label) label = labelled text label := by
  have hending : (labelEnding label).toList.isSuffixOf (labelled text label).toList = true := by
    unfold labelled
    dsimp only
    split
    · assumption
    · simp
  rw [labelled, if_pos hending]

/-- An attribute gets a label once. -/
theorem repeats_labelObject (label : String) : Repeats (labelObject label) := by
  intro body
  cases htext : (Fields.get? body "description").bind Json.str? with
  | none => simp only [labelObject, htext]
  | some text =>
    by_cases hsame : labelled text label = text
    · simp only [labelObject, htext, hsame, if_true]
    · simp [labelObject, htext, hsame, Json.str?, labelled_labelled]

/-- Give an object the identifier of an observable. -/
def observe (id : Int) (body : Fields) : Fields × List FieldPath :=
  if observable? body = some id then (body, [])
  else (Fields.set observableKey (Json.ofInt id) body, [[observableKey]])

/-- An observable is an edit of one attribute. -/
theorem assignObservable_eq (d : Definition) (name : String) (id : Int) :
    d.assignObservable name id = (d.editSlot? name (observe id)).getD d.unchanged := rfl

/-- An observable is assigned once. -/
theorem repeats_observe (id : Int) : Repeats (observe id) := by
  intro body
  by_cases hsame : observable? body = some id
  · simp only [observe, hsame, if_true]
  · have hset : Fields.set observableKey (Json.ofInt id)
        (Fields.set observableKey (Json.ofInt id) body) =
          Fields.set observableKey (Json.ofInt id) body :=
      Fields.set_eq_self (Fields.get?_set_self _ _ _)
    simp only [observe, hsame, if_false, hset]
    split <;> rfl

end Definition

/-! ## Attributes with different names -/

/-- An edit of the object under one name among the attributes, where there may be none yet. -/
structure SlotEdit where
  name : String
  /-- The object that takes the place of what is there, if any does. -/
  act : Option Fields → Option Fields

namespace SlotEdit

open Definition

/-- The definition after an edit. -/
def apply (edit : SlotEdit) (d : Definition) : Definition :=
  match edit.act (d.slot? edit.name) with
  | some body => d.insertAttribute edit.name body
  | none => d

/-- The definition after some edits, one after another. -/
def applyAll (edits : List SlotEdit) (d : Definition) : Definition :=
  edits.foldl (fun d edit => edit.apply d) d

/-- An edit leaves alone what it has made. -/
def Repeats (edit : SlotEdit) : Prop :=
  ∀ slot body, edit.act slot = some body → edit.act (some body) = some body

/-- An edit finds the object as it would make it. -/
def Settled (edit : SlotEdit) (d : Definition) : Prop :=
  ∀ body, edit.act (d.slot? edit.name) = some body → d.slot? edit.name = some body

/-- A settled edit of an attribute changes nothing. -/
theorem apply_eq_self {edit : SlotEdit} {d : Definition} (h : edit.Settled d) :
    edit.apply d = d := by
  unfold apply
  cases hact : edit.act (d.slot? edit.name) with
  | none => rfl
  | some body => exact insertAttribute_eq_self (h body hact)

/-- An edit that repeats itself is settled by being applied. -/
theorem settled_apply {edit : SlotEdit} (h : edit.Repeats) (d : Definition) :
    edit.Settled (edit.apply d) := by
  intro body hbody
  cases hact : edit.act (d.slot? edit.name) with
  | none => simp [apply, hact] at hbody
  | some made =>
    simp only [apply, hact, slot?_insertAttribute, h _ made hact] at hbody ⊢
    exact hbody

/-- Edits under other names do not matter. -/
theorem Settled.apply {edit other : SlotEdit} {d : Definition} (h : edit.Settled d)
    (hname : edit.name ≠ other.name) : edit.Settled (other.apply d) := by
  unfold SlotEdit.apply
  split
  · intro body hbody
    rw [slot?_insertAttribute_of_ne d _ hname] at hbody ⊢
    exact h body hbody
  · exact h

/-- An edit of one attribute changes no other. -/
theorem attribute?_apply_of_ne {edit : SlotEdit} {name : String} (h : name ≠ edit.name)
    (d : Definition) : (edit.apply d).attribute? name = d.attribute? name := by
  unfold apply
  split
  · exact d.attribute?_insertAttribute_of_ne _ h
  · rfl

/-- Edits of other attributes leave an edit settled. -/
theorem Settled.applyAll {edit : SlotEdit} {edits : List SlotEdit} {d : Definition}
    (h : edit.Settled d) (hnames : edit.name ∉ edits.map name) :
    edit.Settled (applyAll edits d) := by
  induction edits generalizing d with
  | nil => exact h
  | cons first rest ih =>
    simp only [List.map_cons, List.mem_cons, not_or] at hnames
    exact ih (h.apply hnames.1) hnames.2

/-- Edits of different attributes are all settled by being applied. -/
theorem settled_applyAll {edits : List SlotEdit} (hnames : (edits.map name).Nodup)
    (h : ∀ edit ∈ edits, edit.Repeats) (d : Definition) :
    ∀ edit ∈ edits, edit.Settled (applyAll edits d) := by
  induction edits generalizing d with
  | nil => simp
  | cons first rest ih =>
    rw [List.map_cons, List.nodup_cons] at hnames
    rw [List.forall_mem_cons] at h ⊢
    constructor
    · exact (settled_apply h.1 d).applyAll hnames.1
    · exact ih hnames.2 h.2 (first.apply d)

/-- Settled edits change nothing. -/
theorem applyAll_eq_self {edits : List SlotEdit} {d : Definition}
    (h : ∀ edit ∈ edits, edit.Settled d) : applyAll edits d = d := by
  induction edits with
  | nil => rfl
  | cons first rest ih =>
    rw [List.forall_mem_cons] at h
    rw [applyAll, List.foldl_cons, apply_eq_self h.1]
    exact ih h.2

/-- Edits of attributes with different names, done a second time, change nothing. -/
theorem applyAll_applyAll {edits : List SlotEdit} (hnames : (edits.map name).Nodup)
    (h : ∀ edit ∈ edits, edit.Repeats) (d : Definition) :
    applyAll edits (applyAll edits d) = applyAll edits d :=
  applyAll_eq_self (settled_applyAll hnames h d)

/-- An edit of an object, where there is one. -/
def ofObject (name : String) (edit : Fields → Fields × List FieldPath) : SlotEdit :=
  ⟨name, Option.map fun body => (edit body).1⟩

/-- The edit that gives an attribute exactly some members. -/
def ofMembers (name : String) (members : Fields) : SlotEdit :=
  ⟨name, fun slot => some ((slot.map fun body => (enumerate members body).1).getD
    [(enumKey, .obj members)])⟩

/-- An edit of an attribute repeats itself if the edit of the body does. -/
theorem repeats_ofObject (name : String) {edit : Fields → Fields × List FieldPath}
    (h : Definition.Repeats edit) : (ofObject name edit).Repeats := by
  intro slot body hbody
  obtain ⟨old, -, rfl⟩ := Option.map_eq_some_iff.1 hbody
  simp [ofObject, h old]

/-- Enumeration members are set once. -/
theorem repeats_ofMembers (name : String) (members : Fields) :
    (ofMembers name members).Repeats := by
  intro slot body hbody
  cases slot with
  | none =>
    cases hbody
    simp only [ofMembers, Option.map_some, Option.getD_some, Option.some.injEq]
    apply enumerate_fst_of_get?
    simp [Fields.get?_cons]
  | some old =>
    cases hbody
    simp only [ofMembers, Option.map_some, Option.getD_some, repeats_enumerate members old]

/-- An edit of an attribute that need not be there is one of a body. -/
theorem definition_getD_editSlot? (d : Definition) (name : String)
    (edit : Fields → Fields × List FieldPath) :
    ((d.editSlot? name edit).getD d.unchanged).definition = (ofObject name edit).apply d := by
  unfold editSlot? apply ofObject
  cases d.slot? name <;> rfl

/-- To set enumeration members is an edit of one attribute. -/
theorem definition_setEnum (d : Definition) (name : String) (members : Fields) :
    (d.setEnum name members).definition = (ofMembers name members).apply d := by
  rw [setEnum_eq]
  unfold editSlot? apply ofMembers
  cases d.slot? name <;> rfl

end SlotEdit

namespace Definition

open SlotEdit

/-! ## Identifiers -/

/-- The edits that state an identifier among the attributes and name its label. -/
def stating (listed named : String) (uid : Int) (label : String)
    (description : Option String) : List SlotEdit :=
  [ofMembers listed [(toString uid, member label description)],
    ofObject named (labelObject label)]

/-- Numbers and names are stated once. -/
theorem applyAll_stating {listed named : String} (hne : listed ≠ named) (uid : Int)
    (label : String) (description : Option String) (d : Definition) :
    applyAll (stating listed named uid label description)
        (applyAll (stating listed named uid label description) d) =
      applyAll (stating listed named uid label description) d := by
  apply applyAll_applyAll
  · simp [stating, ofMembers, ofObject, hne]
  · simp [stating, repeats_ofMembers, repeats_ofObject, repeats_labelObject]

/-- A category states a number and a name. -/
theorem definition_assignCategory (d : Definition) (uid : Int) (label : String)
    (description : Option String) :
    (d.assignCategory uid label description).definition =
      applyAll (stating "category_uid" "category_name" uid label description) d := by
  simp [assignCategory, Revision.andThen, labelAttribute_eq, definition_getD_editSlot?,
    definition_setEnum, applyAll, stating]

/-- A class states a number and a name, beside its own identifier. -/
theorem definition_assignClass (d : Definition) (uid : Int) (label : String)
    (description : Option String) :
    (d.assignClass uid label description).definition =
      applyAll (stating "class_uid" "class_name" uid label description)
        (if d.uid? = some uid then d else d.set "uid" (Json.ofInt uid)) := by
  have hrest (first : Revision) : (Revision.andThen
      (Revision.andThen first fun d =>
        d.setEnum "class_uid" [(toString uid, member label description)])
      fun d => d.labelAttribute "class_name" label).definition =
        applyAll (stating "class_uid" "class_name" uid label description) first.definition := by
    simp [Revision.andThen, labelAttribute_eq, definition_getD_editSlot?, definition_setEnum,
      applyAll, stating]
  rw [assignClass, hrest]
  split <;> rfl

/-- A category is assigned once. -/
theorem assignCategory_assignCategory (d : Definition) (uid : Int) (label : String)
    (description : Option String) :
    ((d.assignCategory uid label description).definition.assignCategory
        uid label description).definition =
      (d.assignCategory uid label description).definition := by
  simp only [definition_assignCategory]
  exact applyAll_stating (by decide) uid label description d

/-- The numbers of a class are assigned once. -/
theorem assignClass_assignClass (d : Definition) (uid : Int) (label : String)
    (description : Option String) :
    ((d.assignClass uid label description).definition.assignClass
        uid label description).definition =
      (d.assignClass uid label description).definition := by
  have hset : (d.assignClass uid label description).definition.set "uid" (Json.ofInt uid) =
      (d.assignClass uid label description).definition := by
    rw [set, Fields.set_eq_self (d.statesUid_assignClass uid label description)]
  rw [definition_assignClass (d.assignClass uid label description).definition, hset, ite_self,
    definition_assignClass]
  exact applyAll_stating (by decide) uid label description _

/-- Members of other attributes do not count as activities. -/
theorem activities_setEnum_of_ne (d : Definition) {name : String} (hne : "activity_id" ≠ name)
    (members : Fields) : (d.setEnum name members).definition.activities = d.activities := by
  rw [activities, definition_setEnum, attribute?_apply_of_ne hne, activities]

/-- The types of a class can be stated a second time, and stay as they are. -/
theorem assignTypes_again {d : Definition} {classUid : Int} {label : String} {revision : Revision}
    (h : d.assignTypes classUid label = .ok revision) :
    ∃ again, revision.definition.assignTypes classUid label = .ok again ∧
      again.definition = revision.definition := by
  unfold assignTypes at h ⊢
  cases hactivities : d.activities with
  | nil =>
    simp only [hactivities, Except.ok.injEq] at h
    subst h
    simp [unchanged, hactivities]
  | cons first rest =>
    simp only [hactivities] at h
    cases hmembers : typeMembers classUid label (first :: rest) with
    | error cause => simp [hmembers, Except.map] at h
    | ok members =>
      simp only [hmembers, Except.map, Except.ok.injEq] at h
      subst h
      have hkept : (d.setEnum "type_uid" (Fields.ofList members)).definition.activities =
          d.activities := d.activities_setEnum_of_ne (by decide) _
      simp only [hkept, hactivities, hmembers, Except.map, Except.ok.injEq, exists_eq_left']
      simp only [definition_setEnum]
      exact apply_eq_self (settled_apply (repeats_ofMembers _ _) d)

/-! ## Observables -/

/-- Observables are edits of the attributes that they are assigned to. -/
theorem definition_assignObservables (d : Definition) (assignments : ExtTreeMap String Int) :
    (d.assignObservables assignments).definition =
      applyAll (assignments.toList.map fun e => ofObject e.1 (observe e.2)) d := by
  rw [assignObservables, definition_foldl_assignObservable, applyAll, List.foldl_map]
  simp only [assignObservable_eq, definition_getD_editSlot?]
  rfl

/-- The edits for observables are named like their assignments. -/
theorem keys_observe (assignments : ExtTreeMap String Int) :
    (assignments.toList.map fun e => SlotEdit.ofObject e.1 (observe e.2)).map SlotEdit.name =
      assignments.keys := by
  rw [List.map_map, ← ExtTreeMap.map_fst_toList_eq_keys]
  rfl

/-- Observables are assigned once. -/
theorem assignObservables_assignObservables (d : Definition)
    (assignments : ExtTreeMap String Int) :
    ((d.assignObservables assignments).definition.assignObservables assignments).definition =
      (d.assignObservables assignments).definition := by
  simp only [definition_assignObservables]
  apply applyAll_applyAll
  · rw [keys_observe]
    exact ExtTreeMap.nodup_keys
  · intro edit hedit
    obtain ⟨e, -, rfl⟩ := List.mem_map.1 hedit
    exact repeats_ofObject e.1 (repeats_observe e.2)

/-! ## Siblings -/

/-- The name of a sibling is no directive. -/
theorem isDirective_siblingName {name : String} (h : isDirective name = false) :
    isDirective (siblingName name) = false := by
  unfold isDirective siblingName at *
  cases hname : name.toList with
  | nil => simp [hname]
  | cons first rest => simpa [hname] using h

/-- A listed attribute of a well-formed definition is the one under its name. -/
theorem attribute?_of_mem_attributes {d : Definition} (h : d.WellFormed) {name : String}
    {body : Fields} (hmem : (name, body) ∈ d.attributes) : d.attribute? name = some body := by
  obtain ⟨e, he, hvalue⟩ := List.mem_filterMap.1 hmem
  obtain ⟨hplain, hvalue⟩ := Option.ite_none_left_eq_some.1 hvalue
  obtain ⟨fields, hobj, heq⟩ := Option.map_eq_some_iff.1 hvalue
  cases heq
  cases hattributes : d.attributes? with
  | none => simp [hattributes] at he
  | some attributes =>
    rw [hattributes, Option.getD_some] at he
    rw [attribute?_eq_some_iff]
    refine ⟨by simpa using hplain, attributes, hattributes, ?_⟩
    rw [Fields.get?_eq_some_iff_mem (Json.wellFormed_obj_iff.1 (h.obj?_get? hattributes)).1]
    cases hvalue : e.2 <;> simp [hvalue, Json.obj?] at hobj
    rw [← hobj, ← hvalue]
    exact he

/-- Each attribute beside added siblings was there before, or is a sibling. -/
theorem attribute?_addSiblings_cases {d : Definition} {name : String} {body : Fields}
    (h : d.addSiblings.definition.attribute? name = some body) :
    d.attribute? name = some body ∨ ∃ old, body = sibling old := by
  have hfold (items : List (String × Fields)) (before : Definition)
      (h : (items.foldl (fun d e => d.insertAttribute (siblingName e.1) (sibling e.2))
        before).attribute? name = some body) :
      before.attribute? name = some body ∨ ∃ old, body = sibling old := by
    induction items generalizing before with
    | nil => exact Or.inl h
    | cons e rest ih =>
      rcases ih _ h with hkept | hsibling
      · rcases attribute?_insertAttribute_cases hkept with ⟨-, hnew⟩ | ⟨-, hold⟩
        · exact Or.inr ⟨e.2, hnew⟩
        · exact Or.inl hold
      · exact Or.inr hsibling
  exact hfold d.missingSiblings d h

/-- An inserted attribute is there, and all others stay. -/
theorem isSome_attribute?_insertAttribute (d : Definition) {name other : String} {body : Fields}
    (hname : isDirective name = false) (h : name = other ∨ (d.attribute? name).isSome = true) :
    ((d.insertAttribute other body).attribute? name).isSome = true := by
  by_cases heq : name = other
  · subst heq
    simp [attribute?_insertAttribute d body hname]
  · rw [d.attribute?_insertAttribute_of_ne body heq]
    simpa [heq] using h

/-- The sibling that was missing has been added. -/
theorem isSome_attribute?_addSiblings {d : Definition} {e : String × Fields}
    (h : e ∈ d.missingSiblings) (hname : isDirective e.1 = false) :
    (d.addSiblings.definition.attribute? (siblingName e.1)).isSome = true := by
  have hfold (items : List (String × Fields)) (before : Definition)
      (h : e ∈ items ∨ (before.attribute? (siblingName e.1)).isSome = true) :
      ((items.foldl (fun d e => d.insertAttribute (siblingName e.1) (sibling e.2))
        before).attribute? (siblingName e.1)).isSome = true := by
    induction items generalizing before with
    | nil => simpa using h
    | cons first rest ih =>
      apply ih
      rcases h with hmem | hthere
      · rcases List.mem_cons.1 hmem with rfl | hmem
        · right
          exact before.isSome_attribute?_insertAttribute (isDirective_siblingName hname)
            (Or.inl rfl)
        · exact Or.inl hmem
      · right
        exact before.isSome_attribute?_insertAttribute (isDirective_siblingName hname)
          (Or.inr hthere)
  exact hfold d.missingSiblings d (Or.inl h)

/-- A sibling has the type of moments. -/
theorem typeOf?_sibling (body : Fields) : typeOf? (sibling body) = some "datetime_t" := by
  rw [sibling, typeOf?, Fields.get?_set_of_ne _ _ (by decide),
    Fields.get?_set_of_ne _ _ (by decide)]
  exact typeOf?_set_typeKey body "datetime_t"

/-- No sibling is missing once they have been added. -/
theorem missingSiblings_addSiblings {d : Definition} (h : d.WellFormed) :
    d.addSiblings.definition.missingSiblings = [] := by
  rw [missingSiblings, List.filter_eq_nil_iff]
  rintro ⟨name, body⟩ hmem hmissing
  simp only [Bool.and_eq_true, beq_iff_eq] at hmissing
  have hbody := attribute?_of_mem_attributes h.addSiblings hmem
  have hname : isDirective name = false := (attribute?_eq_some_iff.1 hbody).1
  rcases attribute?_addSiblings_cases hbody with hbefore | ⟨old, rfl⟩
  · have hnone : (d.attribute? (siblingName name)).isNone = true := by
      cases hsibling : d.attribute? (siblingName name) with
      | none => rfl
      | some other => simp [attribute?_addSiblings hsibling] at hmissing
    have hlisted : (name, body) ∈ d.missingSiblings := by
      apply List.mem_filter.2
      exact ⟨mem_attributes_of_attribute? hbefore, by simp [hmissing.1, hnone]⟩
    have hadded := isSome_attribute?_addSiblings hlisted hname
    rw [Option.isNone_iff_eq_none.1 hmissing.2] at hadded
    cases hadded
  · simp [typeOf?_sibling] at hmissing

/-! ## Composition -/

/-- A patch that keeps the name by which it recognizes what it patches changes nothing again. -/
theorem mergeExtension_mergeExtension (d : Definition) {source : Definition}
    (h : source.WellFormed) (hname : (d.mergeExtension source).definition.name? = d.name?) :
    ((d.mergeExtension source).definition.mergeExtension source).definition =
      (d.mergeExtension source).definition := by
  have hagain := d.merge_merge (MergeRule.patch.ignoring
    (if source.parentName?.isSome && source.parentName? == d.name? then [parentKey] else [])) h
  unfold mergeExtension at hname ⊢
  simp only [hname, hagain, unchanged]

/-- The same file is included once. -/
theorem includeFrom_includeFrom (d : Definition) {source : Definition} (h : source.WellFormed)
    (scope : IncludeScope) :
    ((d.includeFrom source scope).definition.includeFrom source scope).definition =
      (d.includeFrom source scope).definition := by
  cases scope <;> simp [includeFrom, d.merge_merge _ h, unchanged]

/-- The same parent is inherited from once. -/
theorem inherit_inherit (d : Definition) {parent : Definition} (h : parent.WellFormed) :
    ((d.inherit parent).definition.inherit parent).definition = (d.inherit parent).definition := by
  simp [inherit, d.merge_merge _ h, unchanged]

end Definition

/-! ## Operations -/

namespace Operation

/--
What it takes for an operation to leave alone what it makes of a definition: it reads another
location than it writes, it gives no name that it replaces, and it does not change the name by which
it recognizes what it patches.
-/
structure Repeatable (op : Operation) (before after : Definition) : Prop where
  apart : ∀ source, op.action.source? = some source → source ≠ op.target
  renames : ∀ renames, op.action = .prefixTypes renames →
    ∀ old new : String, renames[old]? = some new → renames[new]? = none
  name : ∀ source, op.action = .mergeExtension source → after.name? = before.name?

/-- A write elsewhere leaves a source as it is. -/
theorem source_write {draft : Draft} {l target : Location} {source : Definition}
    (hsource : draft.get? l = some source) (hne : l ≠ target) (d : Definition) :
    Operation.source (draft.write target d) l = .ok source := by
  rw [Operation.source, draft.get?_write, if_neg hne.symm, hsource]

/-- An edit that reads a source can be done again, since the source is another definition. -/
theorem map_source_again {draft : Draft} {l target : Location} (hne : l ≠ target)
    {f g : Definition → Revision} {revision : Revision}
    (h : (source draft l).map f = .ok revision)
    (hagain : ∀ d, draft.get? l = some d → f d = revision →
      (g d).definition = revision.definition) :
    ∃ again, (source (draft.write target revision.definition) l).map g = .ok again ∧
      again.definition = revision.definition := by
  obtain ⟨d, hd, hrevision⟩ := exists_of_map_source h
  refine ⟨g d, ?_, hagain d hd hrevision⟩
  rw [source_write hd hne]
  rfl

/-- The edit of an operation can be done a second time, and changes nothing then. -/
theorem edit_again {op : Operation} {draft : Draft} (hdraft : draft.WellFormed)
    {options : Options} {d : Definition} (hd : d.WellFormed) {revision : Revision}
    (hop : op.Repeatable d revision.definition) (h : op.edit draft options d = .ok revision) :
    ∃ again, op.edit (draft.write op.target revision.definition) options revision.definition =
      .ok again ∧ again.definition = revision.definition := by
  obtain ⟨target, action⟩ := op
  cases action with
  | tagProfile profile =>
    cases h
    exact ⟨_, rfl, d.tagProfile_tagProfile profile⟩
  | annotate =>
    cases h
    exact ⟨_, rfl, Definition.annotate_annotate hd⟩
  | mergeExtension l =>
    apply map_source_again (hop.apart l rfl) h
    rintro source hsource rfl
    exact d.mergeExtension_mergeExtension (hdraft l source hsource) (hop.name l rfl)
  | copyExtension l extension key =>
    apply map_source_again (hop.apart l rfl) h
    rintro source - rfl
    rfl
  | includeFrom l scope =>
    apply map_source_again (hop.apart l rfl) h
    rintro source hsource rfl
    exact d.includeFrom_includeFrom (hdraft l source hsource) scope
  | removeProfile profile =>
    cases h
    exact ⟨_, rfl, d.removeProfile_removeProfile profile options⟩
  | inherit l =>
    apply map_source_again (hop.apart l rfl) h
    rintro source hsource rfl
    exact d.inherit_inherit (hdraft l source hsource)
  | setCategory category =>
    have hthere : revision.definition.category?.isSome = true := by
      simp only [edit] at h
      split at h
      · cases h
        assumption
      · split at h
        · cases h
        · cases h
          rw [Definition.category?, Definition.text?, Definition.get?_set_self _ _ rfl]
          rfl
    exact ⟨revision.definition.unchanged, by simp [edit, hthere], rfl⟩
  | fillAttribute name l =>
    obtain ⟨entry, hentry, hfill⟩ := exists_of_bind_source h
    obtain ⟨again, hagain, hsame⟩ := Definition.fillAttribute_again (hdraft l entry hentry) hfill
    refine ⟨again, ?_, hsame⟩
    simp only [edit, source_write hentry (hop.apart l rfl)]
    exact hagain
  | assignCategory uid label description =>
    cases h
    exact ⟨_, rfl, d.assignCategory_assignCategory uid label description⟩
  | assignClass uid label description conflict =>
    cases conflict with
    | some other => cases h
    | none =>
      cases h
      exact ⟨_, rfl, d.assignClass_assignClass uid label description⟩
  | assignTypes classUid label => exact Definition.assignTypes_again h
  | assignObservables assignments =>
    cases h
    exact ⟨_, rfl, d.assignObservables_assignObservables assignments⟩
  | prefixTypes renames =>
    cases h
    exact ⟨_, rfl, d.prefixTypes_prefixTypes target.kind (hop.renames renames rfl)⟩
  | setObjectTypes objects => exact Definition.setObjectTypes_again h
  | addSiblings =>
    cases h
    refine ⟨_, rfl, ?_⟩
    rw [Definition.addSiblings, Definition.missingSiblings_addSiblings hd]
    rfl
  | copyRendered l =>
    apply map_source_again (hop.apart l rfl) h
    rintro source - rfl
    rfl

/-- What is applied is what the edit gives. -/
theorem edit_of_applied {op : Operation} {draft : Draft} {options : Options} {d : Definition}
    {changes : List FieldPath} (h : op.apply draft options = .applied d changes) :
    op.edit draft options ((draft.get? op.target).getD default) = .ok ⟨d, changes⟩ := by
  unfold apply at h
  dsimp only at h
  split at h
  · cases h
  · cases hedit : op.edit draft options ((draft.get? op.target).getD default) with
    | error cause => simp [hedit, outcomeOf] at h
    | ok revision =>
      simp only [hedit, outcomeOf] at h
      split at h
      · cases h
        rfl
      · split at h
        · cases h
        · cases h
          rfl

/-- An operation that has been applied, and is applied again to what it has written, changes
nothing. -/
theorem apply_again_eq_unchanged {op : Operation} {draft : Draft} (hdraft : draft.WellFormed)
    {options : Options} {d : Definition} {changes : List FieldPath}
    (hop : op.Repeatable ((draft.get? op.target).getD default) d)
    (h : op.apply draft options = .applied d changes) :
    op.apply (draft.write op.target d) options = .unchanged := by
  have hcurrent := hdraft.getD_get? op.target
  have hedit := edit_of_applied h
  have hself : (d == d) = true := Json.same_self (wellFormed_of_edit hdraft hcurrent hedit)
  obtain ⟨again, hagain, hsame⟩ := edit_again hdraft hcurrent hop hedit
  have hwritten : (draft.write op.target d).get? op.target = some d := by
    rw [draft.get?_write, if_pos rfl]
  unfold apply
  simp only [hwritten, Option.isNone_some, Option.getD_some, hagain, outcomeOf, hsame, hself]
  simp

/-- An object and a patch of it. -/
def patchedHost : Draft :=
  ((Draft.ofRepository .empty).write (.inCore .object "host")
    ⟨[("name", .str "host"), ("attributes", .obj [("ip", .obj [])])]⟩).write
      ((Location.inCore .object "host").inExtension "net")
      ⟨[("extends", .str "host"), ("attributes", .obj
        [("ip", .obj [("type", .str "ip_t")]), ("port", .obj [])])]⟩

/-- The patch is merged into the object. -/
def patchHost : Operation :=
  ⟨.inCore .object "host", .mergeExtension ((Location.inCore .object "host").inExtension "net")⟩

/-- A patch is merged once. -/
theorem host_is_patched_once :
    let patched : Definition := ⟨[("name", .str "host"), ("attributes", .obj
      [("ip", .obj [("type", .str "ip_t")]), ("port", .obj [])])]⟩
    patchedHost.WellFormed ∧
      patchHost.Repeatable ((patchedHost.get? patchHost.target).getD default) patched ∧
      patchHost.apply patchedHost {} = .applied patched
        [["attributes", "ip", "type"], ["attributes", "port"]] ∧
      patchHost.apply (patchedHost.write patchHost.target patched) {} = .unchanged := by
  intro patched
  have hdraft : patchedHost.WellFormed := by
    refine (Draft.wellFormed_empty.write _ ?_).write _ ?_ <;>
      simp [Definition.WellFormed, Definition.toJson, Json.WellFormed, Json.WellFormedFields]
  have htarget : patchedHost.get? patchHost.target =
      some ⟨[("name", .str "host"), ("attributes", .obj [("ip", .obj [])])]⟩ := by
    simp [patchedHost, patchHost, Draft.get?_write, Location.inCore, Location.inExtension]
  have hsource : patchedHost.get? ((Location.inCore .object "host").inExtension "net") =
      some ⟨[("extends", .str "host"), ("attributes", .obj
        [("ip", .obj [("type", .str "ip_t")]), ("port", .obj [])])]⟩ := by
    simp [patchedHost, Draft.get?_write]
  have happlied : patchHost.apply patchedHost {} = .applied patched
      [["attributes", "ip", "type"], ["attributes", "port"]] := by
    rw [apply, htarget]
    simp only [patchHost, edit, source, hsource]
    rfl
  have hrepeatable :
      patchHost.Repeatable ((patchedHost.get? patchHost.target).getD default) patched := by
    rw [htarget]
    constructor
    · intro source hread
      cases hread
      decide
    · intro renames haction
      cases haction
    · intro source _
      rfl
  exact ⟨hdraft, hrepeatable, happlied, apply_again_eq_unchanged hdraft hrepeatable happlied⟩

end Operation

end EventSchema
