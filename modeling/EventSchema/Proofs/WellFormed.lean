import EventSchema.Proofs.Edits

/-!
# Well-formed documents

No object of a well-formed document repeats a key, however deep it lies.  Setting and removing
fields and merging keep documents well formed, and so do the edits that compose definitions.

Main results:

- {lit}`Json.wellFormed_merge`, {lit}`Fields.wellFormed_merge`: merging well-formed documents gives
  a well-formed one.
- {lit}`Operation.wellFormed_edit`: the edits of the structural phase keep definitions well formed.
-/

namespace EventSchema

open Std

namespace Json

/-- Fields are well formed exactly if each value is. -/
theorem wellFormedFields_iff {fields : Fields} :
    WellFormedFields fields ↔ ∀ e ∈ fields, e.2.WellFormed := by
  induction fields with
  | nil => simp [WellFormedFields]
  | cons e rest ih =>
    rcases e with ⟨key, value⟩
    rw [WellFormedFields, ih, List.forall_mem_cons]

/-- Items are well formed exactly if each of them is. -/
theorem wellFormedItems_iff {items : List Json} :
    WellFormedItems items ↔ ∀ item ∈ items, item.WellFormed := by
  induction items with
  | nil => simp [WellFormedItems]
  | cons item rest ih => rw [WellFormedItems, ih, List.forall_mem_cons]

/-- An object is well formed exactly if no field comes twice and each value is well formed. -/
theorem wellFormed_obj_iff {fields : Fields} :
    (Json.obj fields).WellFormed ↔
      (Fields.keys fields).Nodup ∧ ∀ e ∈ fields, e.2.WellFormed := by
  rw [WellFormed, wellFormedFields_iff]
  rfl

/-- An array is well formed exactly if each item is. -/
theorem wellFormed_arr_iff {items : List Json} :
    (Json.arr items).WellFormed ↔ ∀ item ∈ items, item.WellFormed := by
  rw [WellFormed, wellFormedItems_iff]

/-- What is found in well-formed fields is well formed. -/
theorem wellFormed_of_get? {fields : Fields} (h : WellFormedFields fields) {key : String}
    {value : Json} (hget : Fields.get? fields key = some value) : value.WellFormed := by
  induction fields with
  | nil => cases hget
  | cons e rest ih =>
    rcases e with ⟨k, v⟩
    rw [WellFormedFields] at h
    rw [Fields.get?_cons] at hget
    split at hget
    · exact Option.some.inj hget ▸ h.1
    · exact ih h.2 hget

/-- An object stays well formed when a well-formed value is set. -/
theorem wellFormed_set {fields : Fields} (h : (Json.obj fields).WellFormed) (key : String)
    {value : Json} (hvalue : value.WellFormed) :
    (Json.obj (Fields.set key value fields)).WellFormed := by
  rw [wellFormed_obj_iff] at h ⊢
  refine ⟨Fields.nodup_keys_set h.1 key value, ?_⟩
  have hset (fields : Fields) (hfields : ∀ e ∈ fields, e.2.WellFormed) :
      ∀ e ∈ Fields.set key value fields, e.2.WellFormed := by
    induction fields with
    | nil =>
      intro e he
      rw [List.mem_singleton.1 he]
      exact hvalue
    | cons first rest ih =>
      rcases first with ⟨k, v⟩
      rw [List.forall_mem_cons] at hfields
      rw [Fields.set]
      split
      · exact List.forall_mem_cons.2 ⟨hvalue, hfields.2⟩
      · exact List.forall_mem_cons.2 ⟨hfields.1, ih hfields.2⟩
  exact hset fields h.2

/-- Removing fields keeps documents well formed. -/
theorem wellFormed_filter {fields : Fields} (h : (Json.obj fields).WellFormed)
    (p : String × Json → Bool) : (Json.obj (fields.filter p)).WellFormed := by
  rw [wellFormed_obj_iff] at h ⊢
  exact ⟨h.1.sublist (List.Sublist.map _ List.filter_sublist),
    fun e he => h.2 e (List.mem_filter.1 he).1⟩

/-! ## Merging -/

/-- Items that are added to others bring nothing malformed. -/
theorem wellFormed_gather {items right : List Json} (h : ∀ item ∈ items, item.WellFormed)
    (hright : ∀ item ∈ right, item.WellFormed) :
    ∀ item ∈ gather items right, item.WellFormed := by
  induction right generalizing items with
  | nil => exact h
  | cons first rest ih =>
    rw [List.forall_mem_cons] at hright
    refine ih ?_ hright.2
    dsimp only
    split
    · exact h
    · refine List.forall_mem_append.2 ⟨h, ?_⟩
      exact List.forall_mem_singleton.2 hright.1

/-- Joined tags are well formed. -/
theorem wellFormed_joinTags? {left right tags : Json} (h : joinTags? left right = some tags) :
    tags.WellFormed := by
  unfold joinTags? at h
  dsimp only at h
  split at h
  · cases h
  · cases h
    refine wellFormed_arr_iff.2 fun item hitem => ?_
    rcases List.mem_map.1 hitem with ⟨tag, -, rfl⟩
    simp [WellFormed]

/-- A value that may replace another is one of the two. -/
theorem wellFormed_replace {overwrite : Bool} {left right : Json} (h : left.WellFormed)
    (hright : right.WellFormed) : (replace overwrite left right).1.WellFormed := by
  unfold replace
  split
  · exact hright
  · exact h

end Json

/-- Merging a field keeps an object well formed if merging the values does. -/
theorem Fields.wellFormed_mergeField {overwrite : Bool} {left : Fields} {key : String}
    {right : Json} (h : (Json.obj left).WellFormed) (hright : right.WellFormed)
    (hmerge : ∀ existing : Json, existing.WellFormed →
      (Json.merge overwrite existing right).1.WellFormed) :
    (Json.obj (Fields.mergeField overwrite left key right).1).WellFormed := by
  unfold mergeField
  split
  · exact h
  · split
    · exact Json.wellFormed_set h key hright
    · rename_i existing hexisting
      split
      · exact Json.wellFormed_set h key hright
      · split
        · split
          · rename_i tags htags
            exact Json.wellFormed_set h key (Json.wellFormed_joinTags? htags)
          · exact h
        · rw [Json.WellFormed] at h
          exact Json.wellFormed_set (by rwa [Json.WellFormed]) key
            (hmerge existing (Json.wellFormed_of_get? h.2 hexisting))

mutual

/-- Merging well-formed values gives a well-formed one. -/
theorem Json.wellFormed_merge (overwrite : Bool) : ∀ {right left : Json}, left.WellFormed →
    right.WellFormed → (Json.merge overwrite left right).1.WellFormed
  | .obj right, left, h, hright => by
    cases left with
    | obj left =>
      rw [Json.WellFormed] at hright
      rw [Json.merge]
      exact Fields.wellFormed_merge overwrite h hright.2
    | _ =>
      simp only [Json.merge]
      exact Json.wellFormed_replace h hright
  | .arr right, left, h, hright => by
    cases left with
    | arr items =>
      rw [Json.wellFormed_arr_iff] at h hright
      rw [Json.merge]
      exact Json.wellFormed_arr_iff.2 (Json.wellFormed_gather h hright)
    | _ =>
      simp only [Json.merge]
      exact Json.wellFormed_replace h hright
  | .null, left, h, hright => by
    simp only [Json.merge]
    exact Json.wellFormed_replace h hright
  | .bool b, left, h, hright => by
    simp only [Json.merge]
    exact Json.wellFormed_replace h hright
  | .num n, left, h, hright => by
    simp only [Json.merge]
    exact Json.wellFormed_replace h hright
  | .str s, left, h, hright => by
    simp only [Json.merge]
    exact Json.wellFormed_replace h hright

/-- Merging well-formed values into fields keeps these well formed. -/
theorem Fields.wellFormed_merge (overwrite : Bool) : ∀ {right : List (String × Json)}
    {left : Fields}, (Json.obj left).WellFormed → Json.WellFormedFields right →
      (Json.obj (Fields.merge overwrite left right).1).WellFormed
  | [], left, h, _ => by rwa [Fields.merge_nil]
  | (key, value) :: rest, left, h, hright => by
    rw [Json.WellFormedFields] at hright
    rw [Fields.merge_cons]
    refine Fields.wellFormed_merge overwrite ?_ hright.2
    exact Fields.wellFormed_mergeField h hright.1 fun existing hexisting =>
      Json.wellFormed_merge overwrite hexisting hright.1

end

/-! ## Definitions -/

namespace Definition

/-- The document of a definition is well formed. -/
def WellFormed (d : Definition) : Prop := d.toJson.WellFormed

theorem wellFormed_default : (default : Definition).WellFormed :=
  Json.wellFormed_obj_iff.2 ⟨List.nodup_nil, by simp [default]⟩

/-- A well-formed definition has no field twice. -/
theorem WellFormed.distinct {d : Definition} (h : d.WellFormed) : d.Distinct :=
  (Json.wellFormed_obj_iff.1 h).1

/-- A definition stays well formed when a well-formed value is set. -/
theorem WellFormed.set {d : Definition} (h : d.WellFormed) (key : String) {value : Json}
    (hvalue : value.WellFormed) : (d.set key value).WellFormed :=
  Json.wellFormed_set h key hvalue

/-- What a well-formed definition holds is well formed. -/
theorem WellFormed.get? {d : Definition} (h : d.WellFormed) {key : String} {value : Json}
    (hget : d.get? key = some value) : value.WellFormed := by
  unfold WellFormed toJson at h
  rw [Json.WellFormed] at h
  exact Json.wellFormed_of_get? h.2 (Option.filter_eq_some_iff.1 hget).1

/-- An object that a well-formed definition holds is well formed. -/
theorem WellFormed.obj?_get? {d : Definition} (h : d.WellFormed) {key : String} {fields : Fields}
    (hget : (d.get? key).bind Json.obj? = some fields) : (Json.obj fields).WellFormed := by
  rcases Option.bind_eq_some_iff.1 hget with ⟨value, hvalue, hfields⟩
  cases value <;> cases hfields
  exact h.get? hvalue

/-- A merge of well-formed definitions is well formed. -/
theorem WellFormed.merge {d source : Definition} (h : d.WellFormed) (hsource : source.WellFormed)
    (rule : MergeRule) : (d.merge rule source).definition.WellFormed := by
  have hfiltered := Json.wellFormed_filter hsource fun e => rule.admits e.1
  rw [Json.WellFormed] at hfiltered
  exact Fields.wellFormed_merge rule.overwrite h hfiltered.2

/-- What an edit of objects makes of a value. -/
def objectAfter (edit : Fields → Fields × List FieldPath) : Json → Json
  | .obj body => .obj (edit body).1
  | value => value

/-- An edit of objects visits one field after another. -/
theorem editObjects_fst (edit : String → Fields → Fields × List FieldPath) (fields : Fields) :
    (editObjects edit fields).1 = fields.map fun e => (e.1, objectAfter (edit e.1) e.2) := by
  induction fields with
  | nil => rfl
  | cons e rest ih =>
    rcases e with ⟨name, value⟩
    rw [List.map_cons, ← ih]
    cases value <;> rfl

/-- An edit of objects keeps the names of the fields. -/
theorem keys_editObjects (edit : String → Fields → Fields × List FieldPath) (fields : Fields) :
    Fields.keys (editObjects edit fields).1 = Fields.keys fields := by
  rw [editObjects_fst, Fields.keys, Fields.keys, List.map_map]
  rfl

/-- An edit of objects keeps fields well formed if the edit of each does. -/
theorem wellFormed_editObjects {edit : String → Fields → Fields × List FieldPath}
    (hedit : ∀ name fields, (Json.obj fields).WellFormed →
      (Json.obj (edit name fields).1).WellFormed) {fields : Fields}
    (h : (Json.obj fields).WellFormed) : (Json.obj (editObjects edit fields).1).WellFormed := by
  rw [Json.wellFormed_obj_iff] at h ⊢
  refine ⟨keys_editObjects edit fields ▸ h.1, fun e he => ?_⟩
  rw [editObjects_fst] at he
  rcases List.mem_map.1 he with ⟨⟨name, value⟩, hmem, rfl⟩
  have hvalue := h.2 _ hmem
  cases value with
  | obj body => exact hedit name body hvalue
  | _ => exact hvalue

/-- An edit of every attribute keeps a definition well formed if the edit of each does. -/
theorem WellFormed.editSlots {d : Definition} (h : d.WellFormed)
    {edit : String → Fields → Fields × List FieldPath}
    (hedit : ∀ name fields, (Json.obj fields).WellFormed →
      (Json.obj (edit name fields).1).WellFormed) : (d.editSlots edit).definition.WellFormed := by
  unfold Definition.editSlots
  split
  · exact h
  · rename_i attributes hattributes
    exact h.set attributesKey (wellFormed_editObjects hedit (h.obj?_get? hattributes))

/-- Tagged attributes are well formed. -/
theorem WellFormed.tagProfile {d : Definition} (h : d.WellFormed) (profile : String) :
    (d.tagProfile profile).definition.WellFormed := by
  refine h.editSlots fun _ fields hfields => ?_
  refine Fields.wellFormed_merge _ hfields ?_
  simp [Json.wellFormedFields_iff, Json.WellFormed]

/-- Annotated attributes are well formed. -/
theorem WellFormed.annotate {d : Definition} (h : d.WellFormed) :
    d.annotate.definition.WellFormed := by
  unfold Definition.annotate
  split
  · exact h
  · rename_i annotations hannotations
    have hright := Json.wellFormed_filter (h.obj?_get? hannotations)
      fun e => MergeRule.patch.admits e.1
    rw [Json.WellFormed] at hright
    refine h.editSlots fun name fields hfields => ?_
    split
    · exact hfields
    · exact Fields.wellFormed_merge _ hfields hright.2

/-- What is left of a definition without a profile is well formed. -/
theorem WellFormed.removeProfile {d : Definition} (h : d.WellFormed) (profile : String)
    (options : Options) : (d.removeProfile profile options).definition.WellFormed := by
  unfold Definition.removeProfile
  split
  · exact h
  · rename_i attributes hattributes
    exact h.set attributesKey (Json.wellFormed_filter (h.obj?_get? hattributes) _)

/-- A copy of a well-formed definition is well formed. -/
theorem WellFormed.copyExtension {source : Definition} (h : source.WellFormed) (d : Definition)
    (extension : String) (key : Option String) :
    (d.copyExtension source extension key).definition.WellFormed := by
  have hmarked : (source.set sourceExtensionKey (.str extension)).WellFormed :=
    h.set _ (by simp [Json.WellFormed])
  unfold Definition.copyExtension
  cases key with
  | none => exact hmarked
  | some key => exact hmarked.set _ (by simp [Json.WellFormed])

/-- Including a well-formed definition keeps a definition well formed. -/
theorem WellFormed.includeFrom {d source : Definition} (h : d.WellFormed)
    (hsource : source.WellFormed) (scope : IncludeScope) :
    (d.includeFrom source scope).definition.WellFormed := by
  cases scope with
  | definition => exact h.merge hsource _
  | attributes => exact h.merge hsource _

end Definition

/-! ## Operations -/

namespace Action

/-- Whether an action composes definitions out of others, profiles and annotations. -/
def composes : Action → Bool
  | tagProfile _ | annotate | mergeExtension _ | copyExtension _ _ _ | includeFrom _ _
  | removeProfile _ | inherit _ => true
  | _ => false

end Action

namespace Operation

/-- The edits that compose definitions keep them well formed. -/
theorem wellFormed_edit {op : Operation} (hop : op.action.composes = true) {draft : Draft}
    (hdraft : ∀ l d, draft.get? l = some d → d.WellFormed) {options : Options} {d : Definition}
    (hd : d.WellFormed) {revision : Revision} (h : op.edit draft options d = .ok revision) :
    revision.definition.WellFormed := by
  rcases op with ⟨target, action⟩
  cases action with
  | tagProfile profile =>
    cases h
    exact hd.tagProfile profile
  | annotate =>
    cases h
    exact hd.annotate
  | mergeExtension l =>
    rcases exists_of_map_source h with ⟨source, hsource, rfl⟩
    exact hd.merge (hdraft l source hsource) _
  | copyExtension l extension key =>
    rcases exists_of_map_source h with ⟨source, hsource, rfl⟩
    exact (hdraft l source hsource).copyExtension d extension key
  | includeFrom l scope =>
    rcases exists_of_map_source h with ⟨source, hsource, rfl⟩
    exact hd.includeFrom (hdraft l source hsource) scope
  | removeProfile profile =>
    cases h
    exact hd.removeProfile profile options
  | inherit l =>
    rcases exists_of_map_source h with ⟨source, hsource, rfl⟩
    exact hd.merge (hdraft l source hsource) _
  | _ => cases hop

end Operation

end EventSchema
