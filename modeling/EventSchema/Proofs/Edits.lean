import EventSchema.Operation.Basic

/-!
# What edits keep

Every edit keeps the keys of a definition distinct.  Most edits change nothing but the attributes:
all other fields of the definition stay as they are.

Main results:

- {lit}`Fields.nodup_keys_merge`: merging keeps keys distinct.
- {lit}`Definition.AttributesOnly`: two definitions differ in their attributes only.
- {lit}`Definition.TypesOnly`: two attributes differ in their types only.
- {lit}`Operation.distinct_edit`: an edit keeps keys distinct.
- {lit}`Operation.attributesOnly_edit`: the edits that change nothing but attributes.
-/

namespace EventSchema

open Std

namespace Fields

/-! ## Distinct keys -/

/-- A field that is set does not come twice. -/
theorem nodup_keys_set {fields : Fields} (h : (Fields.keys fields).Nodup) (key : String)
    (value : Json) : (Fields.keys (Fields.set key value fields)).Nodup := by
  rw [keys_set]
  split
  · exact h
  · rename_i hkey
    refine List.nodup_append.2 ⟨h, by simp, ?_⟩
    intro a ha b hb heq
    rw [heq, List.mem_singleton.1 hb] at ha
    exact hkey ha

/-- Erasing a field leaves the others as distinct as they were. -/
theorem nodup_keys_erase {fields : Fields} (h : (Fields.keys fields).Nodup) (key : String) :
    (Fields.keys (Fields.erase fields key)).Nodup :=
  h.sublist (List.Sublist.map _ List.filter_sublist)

/-- A field that is merged in does not come twice. -/
theorem nodup_keys_mergeField {fields : Fields} (h : (Fields.keys fields).Nodup)
    (overwrite : Bool) (key : String) (right : Json) :
    (Fields.keys (Fields.mergeField overwrite fields key right).1).Nodup := by
  unfold mergeField
  split
  · exact h
  · split
    · exact nodup_keys_set h key right
    · split
      · exact nodup_keys_set h key right
      · split
        · split
          · exact nodup_keys_set h key _
          · exact h
        · exact nodup_keys_set h key _

/-- Merging keeps keys distinct. -/
theorem nodup_keys_merge {fields : Fields} (h : (Fields.keys fields).Nodup) (overwrite : Bool)
    (right : Fields) : (Fields.keys (Fields.merge overwrite fields right).1).Nodup := by
  induction right generalizing fields with
  | nil => rwa [merge_nil]
  | cons e rest ih =>
    rw [merge_cons]
    exact ih (nodup_keys_mergeField h overwrite e.1 e.2)

end Fields

namespace Definition

/-- The fields of a definition have distinct keys. -/
def Distinct (d : Definition) : Prop := (Fields.keys d.fields).Nodup

theorem distinct_default : (default : Definition).Distinct := List.nodup_nil

/-- A definition stays free of doubled fields when one is set. -/
theorem Distinct.set {d : Definition} (h : d.Distinct) (key : String) (value : Json) :
    (d.set key value).Distinct :=
  Fields.nodup_keys_set h key value

/-- A definition stays free of doubled fields when one is erased. -/
theorem Distinct.erase {d : Definition} (h : d.Distinct) (key : String) : (d.erase key).Distinct :=
  Fields.nodup_keys_erase h key

/-- A merge doubles no field, whatever the source is like. -/
theorem Distinct.merge {d : Definition} (h : d.Distinct) (rule : MergeRule) (source : Definition) :
    (d.merge rule source).definition.Distinct :=
  Fields.nodup_keys_merge h rule.overwrite _

/-! ## Edits of attributes -/

/-- Two definitions differ in their attributes only. -/
structure AttributesOnly (before after : Definition) : Prop where
  get? : ∀ key, key ≠ attributesKey → Fields.get? after.fields key = Fields.get? before.fields key
  distinct : before.Distinct → after.Distinct

theorem AttributesOnly.refl (d : Definition) : d.AttributesOnly d := ⟨fun _ _ => rfl, id⟩

theorem AttributesOnly.trans {first second third : Definition} (h : first.AttributesOnly second)
    (h' : second.AttributesOnly third) : first.AttributesOnly third :=
  ⟨fun key hkey => (h'.get? key hkey).trans (h.get? key hkey),
    fun hd => h'.distinct (h.distinct hd)⟩

/-- Texts at the root stay when only attributes change. -/
theorem AttributesOnly.text?_eq {before after : Definition} (h : before.AttributesOnly after)
    {key : String} (hkey : key ≠ attributesKey) : after.text? key = before.text? key := by
  rw [text?, text?, Definition.get?, Definition.get?, h.get? key hkey]

/-- Setting the attributes changes nothing else. -/
theorem attributesOnly_set (d : Definition) (value : Json) :
    d.AttributesOnly (d.set attributesKey value) :=
  ⟨fun _ hkey => Fields.get?_set_of_ne _ _ hkey, fun hd => hd.set attributesKey value⟩

/-- A new attribute changes nothing outside of the attributes. -/
theorem attributesOnly_insertAttribute (d : Definition) (name : String) (body : Fields) :
    d.AttributesOnly (d.insertAttribute name body) :=
  d.attributesOnly_set _

/-- An edit of every attribute changes nothing outside of the attributes. -/
theorem attributesOnly_editSlots (d : Definition)
    (edit : String → Fields → Fields × List FieldPath) :
    d.AttributesOnly (d.editSlots edit).definition := by
  unfold editSlots
  split
  · exact .refl d
  · exact d.attributesOnly_set _

/-- An edit of one attribute, if it is there, changes nothing outside of the attributes. -/
theorem attributesOnly_editSlot? {d : Definition} {name : String}
    {edit : Fields → Fields × List FieldPath} {revision : Revision}
    (h : d.editSlot? name edit = some revision) : d.AttributesOnly revision.definition := by
  rcases Option.map_eq_some_iff.1 h with ⟨fields, -, rfl⟩
  exact d.attributesOnly_insertAttribute name _

/-- An edit of one attribute, which need not be there, changes nothing outside of the attributes. -/
theorem attributesOnly_getD_editSlot? (d : Definition) (name : String)
    (edit : Fields → Fields × List FieldPath) :
    d.AttributesOnly ((d.editSlot? name edit).getD d.unchanged).definition := by
  cases h : d.editSlot? name edit with
  | none => exact .refl d
  | some revision => exact attributesOnly_editSlot? h

/-- New enumeration members of an attribute change nothing outside of the attributes. -/
theorem attributesOnly_setEnum (d : Definition) (name : String) (members : Fields) :
    d.AttributesOnly (d.setEnum name members).definition := by
  unfold setEnum
  dsimp only
  split
  · rename_i revision h
    exact attributesOnly_editSlot? h
  · exact d.attributesOnly_insertAttribute name _

/-- A caption for an attribute changes nothing outside of the attributes. -/
theorem attributesOnly_labelAttribute (d : Definition) (name label : String) :
    d.AttributesOnly (d.labelAttribute name label).definition :=
  d.attributesOnly_getD_editSlot? name _

/-- The numbers and names of a category are written to attributes. -/
theorem attributesOnly_assignCategory (d : Definition) (uid : Int) (label : String)
    (description : Option String) :
    d.AttributesOnly (d.assignCategory uid label description).definition :=
  (d.attributesOnly_setEnum _ _).trans (attributesOnly_labelAttribute _ _ _)

/-- The types of a class are written to attributes. -/
theorem attributesOnly_assignTypes {d : Definition} {classUid : Int} {label : String}
    {revision : Revision} (h : d.assignTypes classUid label = .ok revision) :
    d.AttributesOnly revision.definition := by
  unfold assignTypes at h
  split at h
  · cases h
    exact .refl d
  · cases hmembers : typeMembers classUid label d.activities with
    | error cause => simp_all [Except.map]
    | ok members =>
      simp only [hmembers, Except.map] at h
      cases h
      exact d.attributesOnly_setEnum _ _

/-- Edits of attributes one after another are an edit of attributes. -/
theorem attributesOnly_foldl {α : Type} {step : Definition → α → Definition}
    (hstep : ∀ (d : Definition) a, d.AttributesOnly (step d a)) (items : List α) (d : Definition) :
    d.AttributesOnly (items.foldl step d) := by
  induction items generalizing d with
  | nil => exact .refl d
  | cons a rest ih => exact (hstep d a).trans (ih (step d a))

/-- Observables are assigned by definitions one after another, whatever changes are reported. -/
theorem definition_foldl_assignObservable (items : List (String × Int)) (revision : Revision) :
    (items.foldl (fun revision (name, id) =>
      let next := revision.definition.assignObservable name id
      (⟨next.definition, revision.changes ++ next.changes⟩ : Revision)) revision).definition =
      items.foldl (fun d e => (d.assignObservable e.1 e.2).definition) revision.definition := by
  induction items generalizing revision with
  | nil => rfl
  | cons e rest ih => exact ih _

/-- Observables are written to attributes. -/
theorem attributesOnly_assignObservables (d : Definition) (assignments : ExtTreeMap String Int) :
    d.AttributesOnly (d.assignObservables assignments).definition := by
  unfold assignObservables
  rw [definition_foldl_assignObservable]
  refine attributesOnly_foldl ?_ _ d
  intro d e
  exact d.attributesOnly_getD_editSlot? e.1 _

/-- Siblings of timestamps are attributes. -/
theorem attributesOnly_addSiblings (d : Definition) :
    d.AttributesOnly d.addSiblings.definition := by
  refine attributesOnly_foldl ?_ d.missingSiblings d
  rintro d ⟨name, body⟩
  exact d.attributesOnly_insertAttribute (siblingName name) (sibling body)

/-- An edit of types changes nothing outside of the attributes, unless it is of an entry of the
dictionary. -/
theorem attributesOnly_editTyped (d : Definition) {kind : Kind} (hkind : kind ≠ .dictionary)
    (edit : Fields → Fields × List FieldPath) :
    d.AttributesOnly (d.editTyped kind edit).definition := by
  unfold editTyped
  rw [if_neg hkind]
  exact d.attributesOnly_editSlots _

/-! ## Edits of types -/

/-- The fields that say what the type of an attribute is. -/
def typeFields : List String := [typeKey, "object_type", "object_name"]

/-- Two attributes differ in their types only. -/
structure TypesOnly (before after : Fields) : Prop where
  get? : ∀ key, key ∉ typeFields → Fields.get? after key = Fields.get? before key
  distinct : (Fields.keys before).Nodup → (Fields.keys after).Nodup

theorem TypesOnly.refl (body : Fields) : TypesOnly body body := ⟨fun _ _ => rfl, id⟩

/-- Setting a field that states a type changes nothing but types. -/
theorem TypesOnly.set {before after : Fields} (h : TypesOnly before after) (key : String)
    (hkey : key ∈ typeFields) (value : Json) : TypesOnly before (Fields.set key value after) := by
  refine ⟨fun other hother => ?_, fun hbefore => Fields.nodup_keys_set (h.distinct hbefore) key _⟩
  have hne : other ≠ key := fun heq => hother (heq ▸ hkey)
  rw [Fields.get?_set_of_ne _ _ hne, h.get? other hother]

/-- A reference to an object is stated in the fields for types. -/
theorem typesOnly_refer (type : String) (caption : Option String) (body : Fields) :
    TypesOnly body (refer type caption body) := by
  have hnamed := ((TypesOnly.refl body).set typeKey (by decide) (.str objectType)).set
    "object_type" (by decide) (.str type)
  unfold refer
  cases caption with
  | none => exact hnamed
  | some caption => exact hnamed.set "object_name" (by decide) (.str caption)

/-- Prefixes are written to the fields for types. -/
theorem exists_typesOnly_of_prefixTypes (d : Definition) (kind : Kind)
    (renames : ExtTreeMap String String) :
    ∃ edit, d.prefixTypes kind renames = d.editTyped kind edit ∧
      ∀ body, TypesOnly body (edit body).1 := by
  refine ⟨_, rfl, fun body => ?_⟩
  split
  · exact (TypesOnly.refl body).set typeKey (by decide) _
  · exact .refl body

/-- Types of objects are written to the fields for types. -/
theorem exists_typesOnly_of_setObjectTypes {d : Definition} {kind : Kind}
    {objects : ExtTreeMap String (Option String)} {revision : Revision}
    (h : d.setObjectTypes kind objects = .ok revision) :
    ∃ edit, revision = d.editTyped kind edit ∧ ∀ body, TypesOnly body (edit body).1 := by
  unfold setObjectTypes at h
  split at h
  · cases h
  · refine ⟨_, (Except.ok.inj h).symm, fun body => ?_⟩
    split
    · exact .refl body
    · split
      · exact .refl body
      · split
        · exact typesOnly_refer _ _ body
        · exact .refl body

/-- An edit of types doubles no field. -/
theorem distinct_editTyped {d : Definition} (h : d.Distinct) (kind : Kind)
    {edit : Fields → Fields × List FieldPath} (hedit : ∀ body, TypesOnly body (edit body).1) :
    (d.editTyped kind edit).definition.Distinct := by
  by_cases hkind : kind = .dictionary
  · unfold editTyped
    rw [if_pos hkind]
    exact (hedit d.fields).distinct h
  · exact (d.attributesOnly_editTyped hkind edit).distinct h

/-! ## Copies -/

/-- A definition without its directives has no field twice. -/
theorem distinct_withoutDirectives {d : Definition} (h : d.Distinct) :
    d.withoutDirectives.Distinct := by
  have hplain := (h.erase includeKey).erase keyKey
  unfold withoutDirectives
  dsimp only
  split
  · exact hplain.set attributesKey _
  · exact hplain

/-- A copy has no field twice if its source has none. -/
theorem distinct_copyExtension {source : Definition} (h : source.Distinct) (d : Definition)
    (extension : String) (key : Option String) :
    (d.copyExtension source extension key).definition.Distinct := by
  have hmarked := h.set sourceExtensionKey (.str extension)
  cases key with
  | none => exact hmarked
  | some key => exact hmarked.set keyKey (.str key)

/-- Apart from the identifier, only attributes are edited. -/
theorem attributesOnly_assignClass (d : Definition) (uid : Int) (label : String)
    (description : Option String) :
    (if d.uid? = some uid then d else d.set "uid" (Json.ofInt uid)).AttributesOnly
      (d.assignClass uid label description).definition := by
  have hrest (d : Definition) : d.AttributesOnly
      ((d.setEnum "class_uid" [(toString uid, member label description)]).definition.labelAttribute
        "class_name" label).definition :=
    (d.attributesOnly_setEnum _ _).trans (attributesOnly_labelAttribute _ _ _)
  unfold assignClass
  by_cases huid : d.uid? = some uid
  · simp only [huid, if_true]
    exact hrest d
  · simp only [huid, if_false]
    exact hrest _

/-- The numbers of a class double no field. -/
theorem distinct_assignClass {d : Definition} (h : d.Distinct) (uid : Int) (label : String)
    (description : Option String) : (d.assignClass uid label description).definition.Distinct := by
  refine (d.attributesOnly_assignClass uid label description).distinct ?_
  split
  · exact h
  · exact h.set "uid" _

end Definition

namespace Operation

/-- An edit that reads a source has found one. -/
theorem exists_of_map_source {α : Type} {draft : Draft} {l : Location} {f : Definition → α}
    {a : α} (h : (source draft l).map f = .ok a) : ∃ d, draft.get? l = some d ∧ f d = a := by
  unfold source at h
  split at h
  · rename_i d hd
    exact ⟨d, hd, Except.ok.inj h⟩
  · cases h

/-- An edit that reads a source, and may fail on it, has found one. -/
theorem exists_of_bind_source {α : Type} {draft : Draft} {l : Location}
    {f : Definition → Except Failure α} {a : α} (h : (source draft l).bind f = .ok a) :
    ∃ d, draft.get? l = some d ∧ f d = .ok a := by
  unfold source at h
  split at h
  · rename_i d hd
    exact ⟨d, hd, h⟩
  · cases h

/--
Whether an operation changes nothing but the attributes of its target.  The types of an entry of the
dictionary are among its own fields.
-/
def editsAttributes (op : Operation) : Bool :=
  match op.action with
  | .tagProfile _ | .annotate | .removeProfile _ | .fillAttribute _ _ | .assignCategory _ _ _
  | .assignTypes _ _ | .assignObservables _ | .addSiblings => true
  | .prefixTypes _ | .setObjectTypes _ => op.target.kind != .dictionary
  | _ => false

/-- The edits that change nothing but attributes. -/
theorem attributesOnly_edit {op : Operation} {draft : Draft} {options : Options} {d : Definition}
    {revision : Revision} (h : op.edit draft options d = .ok revision)
    (hop : op.editsAttributes = true) : d.AttributesOnly revision.definition := by
  unfold edit at h
  unfold editsAttributes at hop
  cases haction : op.action with
  | tagProfile profile =>
    simp only [haction] at h
    cases h
    exact d.attributesOnly_editSlots _
  | annotate =>
    simp only [haction] at h
    cases h
    unfold Definition.annotate
    split
    · exact .refl d
    · exact d.attributesOnly_editSlots _
  | removeProfile profile =>
    simp only [haction] at h
    cases h
    unfold Definition.removeProfile
    split
    · exact .refl d
    · exact d.attributesOnly_set _
  | fillAttribute name l =>
    simp only [haction] at h
    rcases exists_of_bind_source h with ⟨entry, -, h⟩
    unfold Definition.fillAttribute at h
    split at h
    · rename_i revision' hslot
      cases h
      exact Definition.attributesOnly_editSlot? hslot
    · cases h
  | assignCategory uid label description =>
    simp only [haction] at h
    cases h
    exact d.attributesOnly_assignCategory uid label description
  | assignTypes classUid label =>
    simp only [haction] at h
    exact Definition.attributesOnly_assignTypes h
  | assignObservables assignments =>
    simp only [haction] at h
    cases h
    exact d.attributesOnly_assignObservables assignments
  | prefixTypes renames =>
    simp only [haction] at h
    cases h
    exact d.attributesOnly_editTyped (by simpa [haction] using hop) _
  | setObjectTypes objects =>
    simp only [haction] at h
    rcases Definition.exists_typesOnly_of_setObjectTypes h with ⟨edit, rfl, -⟩
    exact d.attributesOnly_editTyped (by simpa [haction] using hop) edit
  | addSiblings =>
    simp only [haction] at h
    cases h
    exact d.attributesOnly_addSiblings
  | _ => simp [haction] at hop

/-- An edit keeps keys distinct, if those of what it reads are. -/
theorem distinct_edit {op : Operation} {draft : Draft} {options : Options} {d : Definition}
    {revision : Revision} (hdraft : ∀ l d, draft.get? l = some d → d.Distinct) (hd : d.Distinct)
    (h : op.edit draft options d = .ok revision) : revision.definition.Distinct := by
  by_cases hop : op.editsAttributes = true
  · exact (attributesOnly_edit h hop).distinct hd
  unfold edit at h
  unfold editsAttributes at hop
  cases haction : op.action with
  | mergeExtension l =>
    simp only [haction] at h
    rcases exists_of_map_source h with ⟨source, -, rfl⟩
    exact hd.merge _ source
  | copyExtension l extension key =>
    simp only [haction] at h
    rcases exists_of_map_source h with ⟨source, hsource, rfl⟩
    exact Definition.distinct_copyExtension (hdraft l source hsource) d extension key
  | includeFrom l scope =>
    simp only [haction] at h
    rcases exists_of_map_source h with ⟨source, -, rfl⟩
    cases scope with
    | definition => exact hd.merge _ source
    | attributes => exact hd.merge _ source
  | inherit l =>
    simp only [haction] at h
    rcases exists_of_map_source h with ⟨source, -, rfl⟩
    exact hd.merge _ source
  | setCategory category =>
    simp only [haction] at h
    split at h
    · cases h
      exact hd
    · split at h
      · cases h
      · cases h
        exact hd.set "category" _
  | assignClass uid label description conflict =>
    simp only [haction] at h
    split at h
    · cases h
    · cases h
      exact Definition.distinct_assignClass hd uid label description
  | prefixTypes renames =>
    simp only [haction] at h
    cases h
    rcases d.exists_typesOnly_of_prefixTypes op.target.kind renames with ⟨edit, heq, hedit⟩
    exact heq ▸ Definition.distinct_editTyped hd op.target.kind hedit
  | setObjectTypes objects =>
    simp only [haction] at h
    rcases Definition.exists_typesOnly_of_setObjectTypes h with ⟨edit, rfl, hedit⟩
    exact Definition.distinct_editTyped hd op.target.kind hedit
  | copyRendered l =>
    simp only [haction] at h
    rcases exists_of_map_source h with ⟨source, hsource, rfl⟩
    exact Definition.distinct_withoutDirectives (hdraft l source hsource)
  | _ => simp [haction] at hop

end Operation

end EventSchema
