import EventSchema.Proofs.InactiveTags
import EventSchema.Proofs.WellFormedRuns

/-!
# Members of enumerations

Activities and types of a class are the members of two of its attributes.  The edits that complete
a class set other fields of its attributes, or members of other attributes, so they leave these
members alone.  A copy has the members of its original, in some order.

Main results:

- {lit}`Definition.memberKeys_perm_of_same`: documents that are the same have the same members.
- {lit}`Definition.memberKeys_setEnum`: an attribute has the members that it was given.
- {lit}`Operation.enumeration?_of_edit`: which edits leave the members of an attribute alone.
- {lit}`Operation.exists_memberKeys_of_run`: what an edit states is there, written or not.
-/

namespace EventSchema

open Std

namespace Definition

/-- The members of an attribute. -/
def enumeration? (d : Definition) (name : String) : Option Fields :=
  ((d.attribute? name).bind (Fields.get? · enumKey)).bind Json.obj?

/-- The keys of the members of an attribute, in order. -/
def memberKeys (d : Definition) (name : String) : List String :=
  Fields.keys ((d.enumeration? name).getD [])

/-- The numbers that the keys of activities stand for, in order. -/
def activityIds (d : Definition) : List Int :=
  (d.memberKeys "activity_id").filterMap Word.ofText?

/-- Activities are listed with their numbers. -/
theorem map_id_activities (d : Definition) : d.activities.map Activity.id = d.activityIds := by
  unfold activities activityIds memberKeys enumeration? Fields.keys
  dsimp only
  rw [List.map_filterMap, List.filterMap_map]
  congr 1
  funext e
  cases h : Word.ofText? e.1 <;> simp [h]

/-- A class with numbers of activities has activities. -/
theorem activities_ne_nil {d : Definition} (h : d.activityIds ≠ []) : d.activities ≠ [] := by
  rw [← map_id_activities] at h
  exact fun hnil => h (by rw [hnil]; rfl)

/-- The keys of members depend on the enumeration only. -/
theorem memberKeys_congr {before after : Definition} {name : String}
    (h : after.enumeration? name = before.enumeration? name) :
    after.memberKeys name = before.memberKeys name := by
  rw [memberKeys, h, memberKeys]

/-- The numbers of activities depend on one enumeration only. -/
theorem activityIds_congr {before after : Definition}
    (h : after.enumeration? "activity_id" = before.enumeration? "activity_id") :
    after.activityIds = before.activityIds := by
  rw [activityIds, memberKeys_congr h, activityIds]

/-! ## Members of documents that are the same -/

/-- There is no object on either side, or both are the same, and the left one is well formed. -/
def SameObjects (left right : Option Fields) : Prop :=
  Option.Rel (fun a b => (Json.obj a).WellFormed ∧ (Json.obj a).same (.obj b) = true) left right

/-- Values that are the same hold the same objects, if any. -/
theorem sameObjects_obj? {left right : Json} (hleft : left.WellFormed)
    (h : left.same right = true) : SameObjects left.obj? right.obj? := by
  cases left with
  | obj fields =>
    cases right with
    | obj others => exact .some ⟨hleft, h⟩
    | _ => cases h
  | _ => cases right <;> first | exact .none | cases h

/-- Objects that are the same have the same objects under a key. -/
theorem SameObjects.field {left right : Option Fields} (h : SameObjects left right) (key : String) :
    SameObjects ((left.bind (Fields.get? · key)).bind Json.obj?)
      ((right.bind (Fields.get? · key)).bind Json.obj?) := by
  cases h with
  | none => exact .none
  | @some a b hab =>
    obtain ⟨ha, hsame⟩ := hab
    have hinner := Json.wellFormed_obj_iff.1 ha
    have hsame : (⟨a⟩ : Definition).same ⟨b⟩ = true := hsame
    rw [Option.bind_some, Option.bind_some]
    cases hget : Fields.get? a key with
    | none =>
      have hnone : Fields.get? b key = none := by
        refine Option.eq_none_iff_forall_not_mem.2 fun value hvalue => ?_
        obtain ⟨mine, hmine, -⟩ := exists_get?_of_same hinner.1 hsame hvalue
        rw [hget] at hmine
        cases hmine
      rw [hnone]
      exact .none
    | some value =>
      have hmem := Fields.mem_of_get?_eq_some hget
      obtain ⟨other, hother, hvalue⟩ := (same_iff.1 hsame).2 _ hmem
      rw [hother]
      exact sameObjects_obj? (hinner.2 _ hmem) hvalue

/-- The attributes are the object under their key. -/
theorem attributes?_eq_bind (d : Definition) :
    d.attributes? = ((some d.fields).bind (Fields.get? · attributesKey)).bind Json.obj? := by
  ext attributes
  rw [attributes?_eq_some_iff, Option.bind_some]
  cases Fields.get? d.fields attributesKey with
  | none => simp
  | some value => cases value <;> simp [Json.obj?]

/-- Documents that are the same have the same attributes. -/
theorem sameObjects_attribute? {d other : Definition} (hd : d.WellFormed)
    (h : d.same other = true) (name : String) :
    SameObjects (d.attribute? name) (other.attribute? name) := by
  have hroot : SameObjects (some d.fields) (some other.fields) := .some ⟨hd, h⟩
  have hattributes := hroot.field attributesKey
  rw [← attributes?_eq_bind, ← attributes?_eq_bind] at hattributes
  unfold attribute?
  split
  · exact .none
  · exact hattributes.field name

/-- Documents that are the same have the same members. -/
theorem memberKeys_perm_of_same {d other : Definition} (hd : d.WellFormed)
    (h : d.same other = true) (name : String) :
    (d.memberKeys name).Perm (other.memberKeys name) := by
  have hmembers : SameObjects (d.enumeration? name) (other.enumeration? name) :=
    (sameObjects_attribute? hd h name).field enumKey
  unfold memberKeys
  cases hd : d.enumeration? name with
  | none =>
    cases hother : other.enumeration? name with
    | none => exact .refl _
    | some members =>
      rw [hd, hother] at hmembers
      cases hmembers
  | some members =>
    cases hother : other.enumeration? name with
    | none =>
      rw [hd, hother] at hmembers
      cases hmembers
    | some others =>
      rw [hd, hother] at hmembers
      cases hmembers with
      | some hsame =>
        have hdistinct : (⟨members⟩ : Definition).Distinct := (Json.wellFormed_obj_iff.1 hsame.1).1
        exact keys_perm_of_same hdistinct hsame.2

/-- A copy has the members of its original. -/
theorem Renders.memberKeys_perm {shown d : Definition} (h : shown.Renders d)
    (hshown : shown.WellFormed) (name : String) :
    (shown.memberKeys name).Perm (d.memberKeys name) := by
  have hkept : (⟨d.renderedFields⟩ : Definition).memberKeys name = d.memberKeys name := by
    rw [memberKeys, enumeration?, attribute?_renderedFields, memberKeys, enumeration?]
  rw [← hkept]
  rcases h with rfl | hsame
  · exact .refl _
  · exact memberKeys_perm_of_same hshown hsame name

/-! ## Edits that leave members alone -/

/-- An edit of an attribute that leaves its field for members alone. -/
def LeavesMembers (edit : Fields → Fields × List FieldPath) : Prop :=
  ∀ body, Fields.get? (edit body).1 enumKey = Fields.get? body enumKey

/-- A new attribute leaves the enumerations of others. -/
theorem enumeration?_insertAttribute_of_ne (d : Definition) {name other : String} (body : Fields)
    (h : name ≠ other) : (d.insertAttribute other body).enumeration? name = d.enumeration? name := by
  rw [enumeration?, attribute?_insertAttribute_of_ne d body h, enumeration?]

/-- An edit of one attribute leaves the members of all if it leaves its own. -/
theorem enumeration?_editSlot? {d : Definition} {name other : String}
    {edit : Fields → Fields × List FieldPath} (hedit : name = other → LeavesMembers edit)
    {revision : Revision} (h : d.editSlot? other edit = some revision) :
    revision.definition.enumeration? name = d.enumeration? name := by
  obtain ⟨body, hbody, rfl⟩ := Option.map_eq_some_iff.1 h
  by_cases hname : name = other
  · subst hname
    cases hplain : isDirective name with
    | true => rw [enumeration?, enumeration?, attribute?, attribute?, hplain, if_pos rfl, if_pos rfl]
    | false =>
      dsimp only
      rw [enumeration?, attribute?_insertAttribute d _ hplain, enumeration?,
        d.attribute?_eq_slot? hplain, hbody, Option.bind_some, Option.bind_some, hedit rfl body]
  · exact d.enumeration?_insertAttribute_of_ne _ hname

/-- An edit of one attribute, which need not be there, leaves all members if it leaves its own. -/
theorem enumeration?_getD_editSlot? (d : Definition) {name other : String}
    {edit : Fields → Fields × List FieldPath} (hedit : name = other → LeavesMembers edit) :
    ((d.editSlot? other edit).getD d.unchanged).definition.enumeration? name =
      d.enumeration? name := by
  cases h : d.editSlot? other edit with
  | none => rfl
  | some revision => exact enumeration?_editSlot? hedit h

/-- An edit of all attributes that leaves members leaves those of each. -/
theorem enumeration?_editAttributes (d : Definition) {edit : Fields → Fields × List FieldPath}
    (hedit : LeavesMembers edit) (name : String) :
    (d.editAttributes fun _ body => edit body).definition.enumeration? name =
      d.enumeration? name := by
  rw [enumeration?, attribute?_editAttributes, enumeration?]
  cases d.attribute? name with
  | none => rfl
  | some body => rw [Option.map_some, Option.bind_some, Option.bind_some, hedit body]

/-- Edits that leave an enumeration leave it one after another. -/
theorem enumeration?_foldl {α : Type} {step : Definition → α → Definition} {items : List α}
    {name : String}
    (hstep : ∀ d, ∀ a ∈ items, (step d a).enumeration? name = d.enumeration? name)
    (d : Definition) : (items.foldl step d).enumeration? name = d.enumeration? name := by
  induction items generalizing d with
  | nil => rfl
  | cons a rest ih =>
    rw [List.foldl_cons, ih fun d b hb => hstep d b (List.mem_cons_of_mem a hb)]
    exact hstep d a List.mem_cons_self

/-- New members of one attribute leave those of others. -/
theorem enumeration?_setEnum_of_ne (d : Definition) {name other : String} (h : name ≠ other)
    (members : Fields) :
    (d.setEnum other members).definition.enumeration? name = d.enumeration? name := by
  unfold setEnum
  dsimp only
  split
  · rename_i revision hrevision
    exact enumeration?_editSlot? (fun heq => absurd heq h) hrevision
  · exact d.enumeration?_insertAttribute_of_ne _ h

/-- Fields at the root are not members. -/
theorem enumeration?_set (d : Definition) {key : String} (h : key ≠ attributesKey) (value : Json)
    (name : String) : (d.set key value).enumeration? name = d.enumeration? name := by
  unfold enumeration? attribute? slot? attributes?
  rw [d.get?_set_of_ne value h.symm]

/-- A caption for an attribute leaves all members. -/
theorem enumeration?_labelAttribute (d : Definition) (name other label : String) :
    (d.labelAttribute other label).definition.enumeration? name = d.enumeration? name := by
  refine d.enumeration?_getD_editSlot? fun _ body => ?_
  dsimp only
  split
  · rfl
  · split
    · rfl
    · exact Fields.get?_set_of_ne _ _ (by decide)

/-- Naming the category of a class comes after stating it, and leaves all members alone. -/
theorem enumeration?_assignCategory (d : Definition) (uid : Int) (label : String)
    (description : Option String) (name : String) :
    (d.assignCategory uid label description).definition.enumeration? name =
      (d.setEnum "category_uid"
        [(toString uid, member label description)]).definition.enumeration? name :=
  enumeration?_labelAttribute _ name _ label

/-- Naming a class comes after stating its identifier, and leaves all members alone. -/
theorem enumeration?_assignClass (d : Definition) (uid : Int) (label : String)
    (description : Option String) (name : String) :
    (d.assignClass uid label description).definition.enumeration? name =
      ((if d.uid? = some uid then d else d.set "uid" (Json.ofInt uid)).setEnum "class_uid"
        [(toString uid, member label description)]).definition.enumeration? name := by
  unfold assignClass
  by_cases huid : d.uid? = some uid
  · simp only [huid, if_true]
    exact enumeration?_labelAttribute _ name _ label
  · simp only [huid, if_false]
    exact enumeration?_labelAttribute _ name _ label

/-- Observables leave all members. -/
theorem enumeration?_assignObservables (d : Definition) (assignments : ExtTreeMap String Int)
    (name : String) :
    (d.assignObservables assignments).definition.enumeration? name = d.enumeration? name := by
  unfold assignObservables
  rw [definition_foldl_assignObservable]
  refine enumeration?_foldl (fun d e _ => d.enumeration?_getD_editSlot? fun _ body => ?_) d
  split
  · rfl
  · exact Fields.get?_set_of_ne _ _ (by decide)

/-- The name of a sibling ends in its own way. -/
theorem ne_siblingName {name : String} (h : name.toList.getLast? ≠ some 't') (other : String) :
    name ≠ siblingName other := by
  rintro rfl
  exact h (by simp [siblingName])

/-- Siblings leave the members of attributes that cannot be siblings by their name. -/
theorem enumeration?_addSiblings (d : Definition) {name : String}
    (h : name.toList.getLast? ≠ some 't') :
    d.addSiblings.definition.enumeration? name = d.enumeration? name :=
  enumeration?_foldl (fun d _ _ => d.enumeration?_insertAttribute_of_ne _ (ne_siblingName h _)) d

/-- An edit of types that leaves members leaves those of each attribute. -/
theorem enumeration?_editTyped (d : Definition) {kind : Kind} (hkind : kind ≠ .dictionary)
    {edit : Fields → Fields × List FieldPath} (hedit : LeavesMembers edit) (name : String) :
    (d.editTyped kind edit).definition.enumeration? name = d.enumeration? name := by
  unfold editTyped
  rw [if_neg hkind]
  exact d.enumeration?_editAttributes hedit name

/-- What changes only types leaves members. -/
theorem leavesMembers_of_typesOnly {edit : Fields → Fields × List FieldPath}
    (h : ∀ body, TypesOnly body (edit body).1) : LeavesMembers edit :=
  fun body => (h body).get? enumKey (by decide)

/-! ## Members that are given -/

/-- An attribute has the members that it was given. -/
theorem memberKeys_setEnum {d : Definition} (hd : d.WellFormed) {name : String}
    (hname : isDirective name = false) (members : Fields) :
    ((d.setEnum name members).definition.memberKeys name).Perm (Fields.keys members) := by
  unfold setEnum
  dsimp only
  split
  · rename_i revision hrevision
    obtain ⟨body, hbody, rfl⟩ := Option.map_eq_some_iff.1 hrevision
    rw [memberKeys, enumeration?, attribute?_insertAttribute d _ hname, Option.bind_some]
    dsimp only
    split
    · rename_i hcurrent
      obtain ⟨value, hvalue, hsame⟩ := (Option.any_eq_true _ _).1 hcurrent
      rw [hvalue, Option.bind_some]
      have hsame : value.same (.obj members) = true := hsame
      cases value with
      | obj mine =>
        have hinner := (Json.wellFormed_obj_iff.1 (hd.slot? hbody)).2 _
          (Fields.mem_of_get?_eq_some hvalue)
        have hdistinct : (⟨mine⟩ : Definition).Distinct := (Json.wellFormed_obj_iff.1 hinner).1
        exact keys_perm_of_same hdistinct hsame
      | _ => cases hsame
    · rw [Fields.get?_set_self]
      exact .refl _
  · rw [memberKeys, enumeration?, attribute?_insertAttribute d _ hname, Option.bind_some,
      Fields.get?_cons, if_pos rfl]
    exact .refl _

/-- An attribute whose members are given without a change has had them before. -/
theorem enumeration?_setEnum_of_changes {d : Definition} {name : String}
    (hname : isDirective name = false) {members : Fields}
    (h : (d.setEnum name members).changes = []) :
    (d.setEnum name members).definition.enumeration? name = d.enumeration? name := by
  unfold setEnum at h ⊢
  dsimp only at h ⊢
  split
  · rename_i revision hrevision
    obtain ⟨body, hbody, rfl⟩ := Option.map_eq_some_iff.1 hrevision
    rw [hrevision] at h
    dsimp only at h ⊢
    split at h
    · rename_i hcurrent
      rw [if_pos hcurrent, enumeration?, attribute?_insertAttribute d _ hname, enumeration?,
        d.attribute?_eq_slot? hname, hbody]
    · cases h
  · rename_i hnone
    rw [hnone] at h
    cases h

end Definition

namespace Operation

/-- Whether an action leaves the members of an attribute alone. -/
def LeavesMembersOf (name : String) : Action → Prop
  | .assignCategory _ _ _ => name ≠ "category_uid"
  | .assignClass _ _ _ _ => name ≠ "class_uid"
  | .assignTypes _ _ => name ≠ "type_uid"
  | .assignObservables _ | .prefixTypes _ | .setObjectTypes _ => True
  | .addSiblings => name.toList.getLast? ≠ some 't'
  | _ => False

/-- An edit that leaves the members of an attribute alone. -/
theorem enumeration?_of_edit {op : Operation} {name : String}
    (hop : LeavesMembersOf name op.action) (hkind : op.target.kind ≠ .dictionary) {draft : Draft}
    {options : Options} {d : Definition} {revision : Revision}
    (h : op.edit draft options d = .ok revision) :
    revision.definition.enumeration? name = d.enumeration? name := by
  rcases op with ⟨target, action⟩
  cases action with
  | assignCategory uid label description =>
    cases h
    rw [d.enumeration?_assignCategory]
    exact d.enumeration?_setEnum_of_ne hop _
  | assignClass uid label description conflict =>
    cases conflict with
    | some other => cases h
    | none =>
      cases h
      rw [d.enumeration?_assignClass, Definition.enumeration?_setEnum_of_ne _ hop]
      split
      · rfl
      · exact d.enumeration?_set (by decide) _ name
  | assignTypes classUid label =>
    rcases Definition.assignTypes_eq_ok h with ⟨-, rfl⟩ | ⟨members, -, rfl⟩
    · rfl
    · exact d.enumeration?_setEnum_of_ne hop _
  | assignObservables assignments =>
    cases h
    exact d.enumeration?_assignObservables assignments name
  | prefixTypes renames =>
    cases h
    rcases d.exists_typesOnly_of_prefixTypes target.kind renames with ⟨edit, heq, hedit⟩
    rw [heq]
    exact d.enumeration?_editTyped hkind (Definition.leavesMembers_of_typesOnly hedit) name
  | setObjectTypes objects =>
    rcases Definition.exists_typesOnly_of_setObjectTypes h with ⟨edit, rfl, hedit⟩
    exact d.enumeration?_editTyped hkind (Definition.leavesMembers_of_typesOnly hedit) name
  | addSiblings =>
    cases h
    exact d.enumeration?_addSiblings hop
  | _ => exact hop.elim

/-- An operation that leaves members leaves those of its target. -/
theorem enumeration?_run {op : Operation} {name : String} (hop : LeavesMembersOf name op.action)
    (hkind : op.target.kind ≠ .dictionary) {draft : Draft} {options : Options} {d : Definition}
    (hget : (op.run draft options).get? op.target = some d) :
    ∃ before, draft.get? op.target = some before ∧ d.enumeration? name = before.enumeration? name := by
  have hcreates : op.action.createsTarget = false := by
    rcases op with ⟨target, action⟩
    cases action <;> first | rfl | exact hop.elim
  obtain ⟨before, hbefore, rfl | ⟨revision, hedit, rfl⟩⟩ := exists_get?_of_run hcreates hget
  · exact ⟨d, hbefore, rfl⟩
  · exact ⟨before, hbefore, enumeration?_of_edit hop hkind hedit⟩

/--
An attribute of a definition that did not fail has the members that the edit gives to it, also where
the edit makes no difference.
-/
theorem exists_memberKeys_of_run {op : Operation} {draft : Draft} (hdraft : draft.WellFormed)
    {options : Options} (h : (op.run draft options).failure? op.target = none) {d : Definition}
    (hd : draft.get? op.target = some d) {name : String} {keys : List String}
    (hedit : ∀ revision, op.edit draft options d = .ok revision →
      (revision.definition.memberKeys name).Perm keys ∧
        (revision.changes = [] →
          revision.definition.enumeration? name = d.enumeration? name)) :
    ∃ after, (op.run draft options).get? op.target = some after ∧
      (after.memberKeys name).Perm keys := by
  have hintact := op.isNone_failure?_run_target draft options
  rw [h] at hintact
  rcases outcome_cases_of_get? options hd with ⟨hfailed, -⟩ | ⟨revision, hrevision, hout⟩
  · simp [hfailed] at hintact
  · obtain ⟨hgiven, hunchanged⟩ := hedit revision hrevision
    rcases hout with ⟨-, hget⟩ | ⟨-, hget, hsame⟩
    · exact ⟨_, hget, hgiven⟩
    · refine ⟨d, hget, ?_⟩
      rcases hsame with hchanges | hsame
      · rwa [Definition.memberKeys_congr (hunchanged hchanges)] at hgiven
      · exact (Definition.memberKeys_perm_of_same (hdraft _ _ hd) hsame name).trans hgiven

/-- A run that leaves the members of an attribute alone. -/
theorem enumeration?_runAll {options : Options} {ops : List Operation} {name : String}
    {l : Location} (hkind : l.kind ≠ .dictionary)
    (hops : ∀ op ∈ ops, op.target = l → LeavesMembersOf name op.action) {draft : Draft}
    {d : Definition} (hget : (runAll options draft ops).get? l = some d) :
    ∃ before, draft.get? l = some before ∧ d.enumeration? name = before.enumeration? name := by
  induction ops generalizing draft with
  | nil => exact ⟨d, hget, rfl⟩
  | cons op rest ih =>
    obtain ⟨middle, hmiddle, hrest⟩ :=
      ih (fun other hother => hops other (List.mem_cons_of_mem op hother)) hget
    by_cases htarget : op.target = l
    · subst htarget
      obtain ⟨before, hbefore, hhere⟩ :=
        enumeration?_run (hops op List.mem_cons_self rfl) hkind hmiddle
      exact ⟨before, hbefore, hrest.trans hhere⟩
    · rw [op.run_get?_of_ne draft options htarget] at hmiddle
      exact ⟨middle, hmiddle, hrest⟩

end Operation

end EventSchema
