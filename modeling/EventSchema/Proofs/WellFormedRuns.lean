import EventSchema.Proofs.Authored
import EventSchema.Proofs.Copies
import Mathlib.Data.List.Dedup

/-!
# Runs keep definitions well formed

Not only the edits that compose definitions keep them well formed.  Those that complete them set
fields of attributes, insert attributes, or make lists of members with different keys, so no object
of a compiled definition repeats a key, however deep it is nested.

Main results:

- {lit}`Json.keys_ofList_perm`: fields that are set one after another have the different keys.
- {lit}`Operation.wellFormed_of_edit`: every edit keeps definitions well formed.
- {lit}`Draft.WellFormed.runAll`: so does every run.
-/

namespace EventSchema

open Std

namespace Fields

/-! ## Fields set one after another -/

/-- Setting a field adds its name and no other. -/
theorem mem_keys_set {fields : Fields} {key other : String} {value : Json} :
    other ∈ Fields.keys (Fields.set key value fields) ↔ other = key ∨ other ∈ Fields.keys fields := by
  rw [keys_set]
  split
  · rename_i hkey
    constructor
    · exact Or.inr
    · rintro (rfl | h)
      · exact hkey
      · exact h
  · simp [or_comm]

/-- Setting fields adds their names and no others. -/
theorem mem_keys_foldl_set {entries : List (String × Json)} {fields : Fields} {key : String} :
    key ∈ Fields.keys (entries.foldl (fun fields e => Fields.set e.1 e.2 fields) fields) ↔
      key ∈ Fields.keys fields ∨ key ∈ entries.map Prod.fst := by
  induction entries generalizing fields with
  | nil => simp
  | cons e rest ih =>
    rw [List.foldl_cons, ih, mem_keys_set, List.map_cons, List.mem_cons, or_assoc, or_left_comm]

/-- An object stays well formed when well-formed values are set. -/
theorem wellFormed_foldl_set {entries : List (String × Json)}
    (hentries : ∀ e ∈ entries, e.2.WellFormed) {fields : Fields}
    (h : (Json.obj fields).WellFormed) :
    (Json.obj (entries.foldl (fun fields e => Fields.set e.1 e.2 fields) fields)).WellFormed := by
  induction entries generalizing fields with
  | nil => exact h
  | cons e rest ih =>
    exact ih (fun other hother => hentries other (List.mem_cons_of_mem e hother))
      (Json.wellFormed_set h e.1 (hentries e List.mem_cons_self))

/-- An object of well-formed entries is well formed, even if their names repeat. -/
theorem wellFormed_ofList {entries : List (String × Json)}
    (h : ∀ e ∈ entries, e.2.WellFormed) : (Json.obj (Fields.ofList entries)).WellFormed :=
  wellFormed_foldl_set h (Json.wellFormed_obj_iff.2 ⟨List.nodup_nil, by simp⟩)

/-- Fields that are set one after another have the keys of all of them, each once. -/
theorem keys_ofList_perm {entries : List (String × Json)}
    (h : ∀ e ∈ entries, e.2.WellFormed) :
    (Fields.keys (Fields.ofList entries)).Perm (entries.map Prod.fst).dedup := by
  have hnodup := (Json.wellFormed_obj_iff.1 (wellFormed_ofList h)).1
  refine (List.perm_ext_iff_of_nodup hnodup (List.nodup_dedup _)).2 fun key => ?_
  rw [List.mem_dedup]
  have hmem : key ∈ Fields.keys (Fields.ofList entries) ↔ _ := mem_keys_foldl_set
  simpa [Fields.keys] using hmem

end Fields

namespace Definition

/-! ## Edits of attributes -/

/-- The attributes of a well-formed definition are a well-formed object. -/
theorem WellFormed.attributes {d : Definition} (h : d.WellFormed) :
    (Json.obj (d.attributes?.getD [])).WellFormed := by
  cases hattributes : d.attributes? with
  | none => exact Json.wellFormed_obj_iff.2 ⟨List.nodup_nil, by simp⟩
  | some attributes => exact h.obj?_get? hattributes

/-- A definition stays well formed with a well-formed attribute. -/
theorem WellFormed.insertAttribute {d : Definition} (h : d.WellFormed) (name : String)
    {body : Fields} (hbody : (Json.obj body).WellFormed) :
    (d.insertAttribute name body).WellFormed :=
  h.set attributesKey (Json.wellFormed_set h.attributes name hbody)

/-- Each attribute of a well-formed definition is a well-formed object. -/
theorem WellFormed.slot? {d : Definition} (h : d.WellFormed) {name : String} {body : Fields}
    (hbody : d.slot? name = some body) : (Json.obj body).WellFormed := by
  obtain ⟨value, hvalue, hobj⟩ := Option.bind_eq_some_iff.1 hbody
  obtain ⟨attributes, hattributes, hget⟩ := Option.bind_eq_some_iff.1 hvalue
  have hinner := (Json.wellFormed_obj_iff.1 (h.obj?_get? hattributes)).2
  cases value <;> cases hobj
  exact hinner _ (Fields.mem_of_get?_eq_some hget)

/-- An edit of objects keeps them well formed. -/
def KeepsWellFormed (edit : Fields → Fields × List FieldPath) : Prop :=
  ∀ body, (Json.obj body).WellFormed → (Json.obj (edit body).1).WellFormed

/-- An edit of one attribute, if it is there, keeps a definition well formed. -/
theorem WellFormed.editSlot? {d : Definition} (h : d.WellFormed) {name : String}
    {edit : Fields → Fields × List FieldPath} (hedit : KeepsWellFormed edit) {revision : Revision}
    (hrevision : d.editSlot? name edit = some revision) : revision.definition.WellFormed := by
  obtain ⟨body, hbody, rfl⟩ := Option.map_eq_some_iff.1 hrevision
  exact h.insertAttribute name (hedit body (h.slot? hbody))

/-- An edit of one attribute, which need not be there, keeps a definition well formed. -/
theorem WellFormed.getD_editSlot? {d : Definition} (h : d.WellFormed) (name : String)
    {edit : Fields → Fields × List FieldPath} (hedit : KeepsWellFormed edit) :
    ((d.editSlot? name edit).getD d.unchanged).definition.WellFormed := by
  cases hrevision : d.editSlot? name edit with
  | none => exact h
  | some revision => exact h.editSlot? hedit hrevision

/-- New enumeration members keep a definition well formed. -/
theorem WellFormed.setEnum {d : Definition} (h : d.WellFormed) (name : String) {members : Fields}
    (hmembers : (Json.obj members).WellFormed) : (d.setEnum name members).definition.WellFormed := by
  unfold Definition.setEnum
  dsimp only
  split
  · rename_i revision hrevision
    refine h.editSlot? (fun body hbody => ?_) hrevision
    split
    · exact hbody
    · exact Json.wellFormed_set hbody enumKey hmembers
  · refine h.insertAttribute name (Json.wellFormed_obj_iff.2 ⟨by simp [Fields.keys], ?_⟩)
    intro e he
    rw [List.mem_singleton.1 he]
    exact hmembers

/-- A caption for an attribute keeps a definition well formed. -/
theorem WellFormed.labelAttribute {d : Definition} (h : d.WellFormed) (name label : String) :
    (d.labelAttribute name label).definition.WellFormed := by
  refine h.getD_editSlot? name fun body hbody => ?_
  dsimp only
  split
  · exact hbody
  · split
    · exact hbody
    · exact Json.wellFormed_set hbody "description" (by simp [Json.WellFormed])

/-- An attribute that is filled from a well-formed entry is well formed. -/
theorem WellFormed.fillAttribute {d entry : Definition} (h : d.WellFormed)
    (hentry : entry.WellFormed) {name : String} {revision : Revision}
    (hrevision : d.fillAttribute name entry = .ok revision) : revision.definition.WellFormed := by
  unfold Definition.fillAttribute at hrevision
  split at hrevision
  · rename_i filled hfilled
    cases hrevision
    refine h.editSlot? (fun body hbody => ?_) hfilled
    exact WellFormed.merge (d := ⟨body⟩) hbody hentry MergeRule.fill
  · cases hrevision

/-! ## Edits for identifiers -/

/-- A new enumeration member is well formed. -/
theorem wellFormed_member (caption : String) (description : Option String) :
    (member caption description).WellFormed := by
  unfold member
  cases description <;> simp [Json.WellFormed, Json.WellFormedFields]

/-- A list of one new enumeration member is well formed. -/
theorem wellFormed_singleton_member (key caption : String) (description : Option String) :
    (Json.obj [(key, member caption description)]).WellFormed := by
  rw [Json.wellFormed_obj_iff]
  exact ⟨by simp [Fields.keys], by simp [wellFormed_member]⟩

/-- A category keeps a definition well formed. -/
theorem WellFormed.assignCategory {d : Definition} (h : d.WellFormed) (uid : Int) (label : String)
    (description : Option String) :
    (d.assignCategory uid label description).definition.WellFormed :=
  (h.setEnum _ (wellFormed_singleton_member _ _ _)).labelAttribute _ _

/-- The numbers of a class keep a definition well formed. -/
theorem WellFormed.assignClass {d : Definition} (h : d.WellFormed) (uid : Int) (label : String)
    (description : Option String) : (d.assignClass uid label description).definition.WellFormed := by
  refine (WellFormed.setEnum ?_ _ (wellFormed_singleton_member _ _ _)).labelAttribute _ _
  split
  · exact h
  · exact h.set "uid" (by simp [Json.ofInt, Json.WellFormed])

/-- The members for the types of a class are well formed. -/
theorem wellFormed_of_typeMembers {classUid : Int} {label : String} {activities : List Activity}
    {members : Fields} (h : typeMembers classUid label activities = .ok members) :
    ∀ e ∈ members, e.2.WellFormed := by
  induction activities generalizing members with
  | nil =>
    cases h
    simp
  | cons activity rest ih =>
    rw [typeMembers] at h
    split at h
    · cases h
    · rename_i uid _
      cases hrest : typeMembers classUid label rest with
      | error cause => simp [hrest, Except.map] at h
      | ok more =>
        rw [hrest] at h
        cases h
        exact List.forall_mem_cons.2 ⟨wellFormed_member _ _, ih hrest⟩

/-- Stating types sets the members of one attribute, if there are activities. -/
theorem assignTypes_eq_ok {d : Definition} {classUid : Int} {label : String} {revision : Revision}
    (h : d.assignTypes classUid label = .ok revision) :
    d.activities = [] ∧ revision = d.unchanged ∨
      ∃ members, typeMembers classUid label d.activities = .ok members ∧
        revision = d.setEnum "type_uid" (Fields.ofList members) := by
  unfold Definition.assignTypes at h
  split at h
  · rename_i hnone
    exact Or.inl ⟨hnone, (Except.ok.inj h).symm⟩
  · cases hmembers : typeMembers classUid label d.activities with
    | error cause => simp_all [Except.map]
    | ok members =>
      simp only [hmembers, Except.map] at h
      exact Or.inr ⟨members, rfl, (Except.ok.inj h).symm⟩

/-- The types of a class keep a definition well formed. -/
theorem WellFormed.assignTypes {d : Definition} (h : d.WellFormed) {classUid : Int}
    {label : String} {revision : Revision} (hrevision : d.assignTypes classUid label = .ok revision) :
    revision.definition.WellFormed := by
  rcases assignTypes_eq_ok hrevision with ⟨-, rfl⟩ | ⟨members, hmembers, rfl⟩
  · exact h
  · exact h.setEnum _ (Fields.wellFormed_ofList (wellFormed_of_typeMembers hmembers))

/-! ## Edits for types -/

/-- Edits one after another keep a definition well formed if each of them does. -/
theorem wellFormed_foldl {α : Type} {step : Definition → α → Definition} {items : List α}
    (hstep : ∀ d, ∀ a ∈ items, d.WellFormed → (step d a).WellFormed) {d : Definition}
    (h : d.WellFormed) : (items.foldl step d).WellFormed := by
  induction items generalizing d with
  | nil => exact h
  | cons a rest ih =>
    exact ih (fun d b hb => hstep d b (List.mem_cons_of_mem a hb)) (hstep d a List.mem_cons_self h)

/-- Observables keep a definition well formed. -/
theorem WellFormed.assignObservables {d : Definition} (h : d.WellFormed)
    (assignments : ExtTreeMap String Int) :
    (d.assignObservables assignments).definition.WellFormed := by
  unfold Definition.assignObservables
  rw [definition_foldl_assignObservable]
  refine wellFormed_foldl (fun d e _ hd => hd.getD_editSlot? e.1 fun body hbody => ?_) h
  split
  · exact hbody
  · exact Json.wellFormed_set hbody observableKey (by simp [Json.ofInt, Json.WellFormed])

/-- The sibling of a well-formed timestamp is well formed. -/
theorem wellFormed_sibling {body : Fields} (h : (Json.obj body).WellFormed) :
    (Json.obj (sibling body)).WellFormed := by
  refine Json.wellFormed_set (Json.wellFormed_set (Json.wellFormed_set h _ ?_) _ ?_) _ ?_ <;>
    simp [Json.WellFormed]

/-- Every listed attribute of a well-formed definition is a well-formed object. -/
theorem WellFormed.mem_attributes {d : Definition} (h : d.WellFormed) {e : String × Fields}
    (he : e ∈ d.attributes) : (Json.obj e.2).WellFormed := by
  obtain ⟨⟨name, value⟩, hmem, hvalue⟩ := List.mem_filterMap.1 he
  obtain ⟨-, hvalue⟩ := Option.ite_none_left_eq_some.1 hvalue
  obtain ⟨body, hbody, rfl⟩ := Option.map_eq_some_iff.1 hvalue
  have hinner := (Json.wellFormed_obj_iff.1 h.attributes).2 _ hmem
  cases value <;> cases hbody
  exact hinner

/-- Siblings of timestamps keep a definition well formed. -/
theorem WellFormed.addSiblings {d : Definition} (h : d.WellFormed) :
    d.addSiblings.definition.WellFormed := by
  refine wellFormed_foldl (fun d' e he hd => ?_) h
  exact hd.insertAttribute _ (wellFormed_sibling (h.mem_attributes (List.mem_filter.1 he).1))

/-- An edit of types keeps a definition well formed. -/
theorem WellFormed.editTyped {d : Definition} (h : d.WellFormed) (kind : Kind)
    {edit : Fields → Fields × List FieldPath} (hedit : KeepsWellFormed edit) :
    (d.editTyped kind edit).definition.WellFormed := by
  unfold Definition.editTyped
  split
  · exact hedit d.fields h
  · refine h.editSlots fun name body hbody => ?_
    split
    · exact hbody
    · exact hedit body hbody

/-- Prefixes of types keep a definition well formed. -/
theorem WellFormed.prefixTypes {d : Definition} (h : d.WellFormed) (kind : Kind)
    (renames : ExtTreeMap String String) : (d.prefixTypes kind renames).definition.WellFormed := by
  refine h.editTyped kind fun body hbody => ?_
  split
  · exact Json.wellFormed_set hbody typeKey (by simp [Json.WellFormed])
  · exact hbody

/-- A reference to an object keeps an attribute well formed. -/
theorem wellFormed_refer {body : Fields} (h : (Json.obj body).WellFormed) (type : String)
    (caption : Option String) : (Json.obj (refer type caption body)).WellFormed := by
  have htext (text : String) : (Json.str text).WellFormed := by simp [Json.WellFormed]
  have hnamed := Json.wellFormed_set (Json.wellFormed_set h typeKey (htext objectType))
    "object_type" (htext type)
  unfold refer
  cases caption with
  | none => exact hnamed
  | some caption => exact Json.wellFormed_set hnamed "object_name" (htext caption)

/-- Types of objects keep a definition well formed. -/
theorem WellFormed.setObjectTypes {d : Definition} (h : d.WellFormed) {kind : Kind}
    {objects : ExtTreeMap String (Option String)} {revision : Revision}
    (hrevision : d.setObjectTypes kind objects = .ok revision) :
    revision.definition.WellFormed := by
  unfold Definition.setObjectTypes at hrevision
  split at hrevision
  · cases hrevision
  · refine (Except.ok.inj hrevision) ▸ h.editTyped kind fun body hbody => ?_
    split
    · exact hbody
    · split
      · exact hbody
      · split
        · exact wellFormed_refer hbody _ _
        · exact hbody

/-! ## Copies -/

theorem WellFormed.erase {d : Definition} (h : d.WellFormed) (key : String) :
    (d.erase key).WellFormed :=
  Json.wellFormed_filter h _

/-- A definition is well formed without its directives. -/
theorem WellFormed.withoutDirectives {d : Definition} (h : d.WellFormed) :
    d.withoutDirectives.WellFormed := by
  have hplain := (h.erase includeKey).erase keyKey
  unfold Definition.withoutDirectives
  dsimp only
  split
  · rename_i attributes hattributes
    exact hplain.set attributesKey (Json.wellFormed_filter (hplain.obj?_get? hattributes) _)
  · exact hplain

end Definition

/-! ## Operations -/

namespace Operation

/-- Every edit keeps definitions well formed. -/
theorem wellFormed_of_edit {op : Operation} {draft : Draft} (hdraft : draft.WellFormed)
    {options : Options} {d : Definition} (hd : d.WellFormed) {revision : Revision}
    (h : op.edit draft options d = .ok revision) : revision.definition.WellFormed := by
  by_cases hop : op.action.composes = true
  · exact wellFormed_edit hop hdraft hd h
  rcases op with ⟨target, action⟩
  cases action with
  | setCategory category =>
    simp only [edit] at h
    split at h
    · cases h
      exact hd
    · split at h
      · cases h
      · cases h
        exact hd.set "category" (by simp [Json.WellFormed])
  | fillAttribute name l =>
    obtain ⟨entry, hentry, hfill⟩ := exists_of_bind_source h
    exact hd.fillAttribute (hdraft l entry hentry) hfill
  | assignCategory uid label description =>
    cases h
    exact hd.assignCategory uid label description
  | assignClass uid label description conflict =>
    simp only [edit] at h
    split at h
    · cases h
    · cases h
      exact hd.assignClass uid label description
  | assignTypes classUid label => exact hd.assignTypes h
  | assignObservables assignments =>
    cases h
    exact hd.assignObservables assignments
  | prefixTypes renames =>
    cases h
    exact hd.prefixTypes target.kind renames
  | setObjectTypes objects => exact hd.setObjectTypes h
  | addSiblings =>
    cases h
    exact hd.addSiblings
  | copyRendered l =>
    obtain ⟨source, hsource, rfl⟩ := exists_of_map_source h
    exact (hdraft l source hsource).withoutDirectives
  | _ => exact absurd rfl hop

end Operation

namespace Draft

open Operation

theorem wellFormed_empty : (ofRepository .empty).WellFormed := by
  intro l d hget
  rw [get?_ofRepository, Repository.get?_empty] at hget
  cases hget

/-- A draft stays well formed when a well-formed definition is written. -/
theorem WellFormed.write {draft : Draft} (h : draft.WellFormed) (l : Location) {d : Definition}
    (hd : d.WellFormed) : (draft.write l d).WellFormed := by
  intro k other hget
  rw [draft.get?_write] at hget
  split at hget
  · cases hget
    exact hd
  · exact h k other hget

/-- An operation keeps a draft well formed. -/
theorem WellFormed.run {draft : Draft} (h : draft.WellFormed) (op : Operation)
    (options : Options) : (op.run draft options).WellFormed := by
  intro l d hget
  rcases get?_run_cases hget with hbefore | ⟨-, revision, hedit, rfl⟩
  · exact h l d hbefore
  · exact wellFormed_of_edit h (h.getD_get? l) hedit

/-- A run keeps definitions well formed. -/
theorem WellFormed.runAll {draft : Draft} (h : draft.WellFormed) (options : Options)
    (ops : List Operation) : (runAll options draft ops).WellFormed := by
  induction ops generalizing draft with
  | nil => exact h
  | cons op rest ih => exact ih (h.run op options)

end Draft

end EventSchema
