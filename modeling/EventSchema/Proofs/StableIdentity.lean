import EventSchema.Proofs.MergedPaths
import EventSchema.Proofs.RepeatedEdits

/-!
# What identifies a definition

Operations are planned from what definitions say of themselves at their roots: names, keys, parents,
categories, numbers.  Apart from patches and copies, which bring another definition, no operation
changes what is said there.  A merge that fills only adds to containers, the other edits write to
attributes, types and the category that is missing; only the identifier of a class is assigned anew.

Main results:

- {lit}`Definition.keepsScalar_merge`: a filling merge keeps all scalars but profile tags.
- {lit}`Operation.keepsScalar_edit`: the scalars that an edit keeps.
- {lit}`Operation.states_run`: a text that identifies a definition stays in a step that brings no
  other one.
- {lit}`Operation.identity_is_stable`: what identifies a definition is the same after an operation.
-/

namespace EventSchema

/-! ## Scalars under merges -/

/-- A fill leaves a scalar. -/
theorem Json.merge_fill_of_isScalar {left : Json} (h : left.isScalar = true) (right : Json) :
    (Json.merge false left right).1 = left := by
  cases left <;> cases right <;> simp_all [Json.merge, Json.replace, Json.isScalar]

namespace Fields

/-- A fill of any field leaves a field with a scalar. -/
theorem get?_mergeField_fill_of_isScalar {left : Fields} {other : String} {value : Json}
    (hother : other ≠ profileKey) (hscalar : value.isScalar = true)
    (hvalue : Fields.get? left other = some value) (key : String) (right : Json) :
    Fields.get? (Fields.mergeField false left key right).1 other = some value := by
  by_cases hkey : other = key
  · subst hkey
    have hthere : (!value.isNull) = true := by rw [Json.isNull_of_isScalar hscalar]; rfl
    rw [get?_mergeField_self, hvalue, Option.filter_some, if_pos hthere]
    by_cases hright : right.isNull = true
    · rw [if_pos hright]
    · rw [if_neg hright]
      dsimp only
      rw [if_neg hother, Json.merge_fill_of_isScalar hscalar]
  · rwa [get?_mergeField_of_ne false left right hkey]

/-- A filling merge keeps scalars. -/
theorem get?_merge_fill_of_isScalar {left : Fields} {key : String} {value : Json}
    (hkey : key ≠ profileKey) (hscalar : value.isScalar = true)
    (hvalue : Fields.get? left key = some value) (right : Fields) :
    Fields.get? (Fields.merge false left right).1 key = some value := by
  induction right generalizing left with
  | nil => rwa [merge_nil]
  | cons e rest ih =>
    rw [merge_cons]
    exact ih (get?_mergeField_fill_of_isScalar hkey hscalar hvalue e.1 e.2)

end Fields

namespace Definition

/-! ## Scalars at the root of a definition -/

/-- A scalar at the root of one definition is there in another as well. -/
def KeepsScalar (before after : Definition) (key : String) : Prop :=
  ∀ value, value.isScalar = true → Fields.get? before.fields key = some value →
    Fields.get? after.fields key = some value

theorem KeepsScalar.refl (d : Definition) (key : String) : d.KeepsScalar d key :=
  fun _ _ h => h

theorem KeepsScalar.trans {first second third : Definition} {key : String}
    (h : first.KeepsScalar second key) (h' : second.KeepsScalar third key) :
    first.KeepsScalar third key :=
  fun value hscalar hvalue => h' value hscalar (h value hscalar hvalue)

/-- A field that stays keeps its scalar. -/
theorem keepsScalar_of_get?_eq {before after : Definition} {key : String}
    (h : Fields.get? after.fields key = Fields.get? before.fields key) :
    before.KeepsScalar after key :=
  fun _ _ hvalue => h.trans hvalue

/-- Edits of attributes keep the scalars at the root. -/
theorem AttributesOnly.keepsScalar {before after : Definition} (h : before.AttributesOnly after)
    {key : String} (hkey : key ≠ attributesKey) : before.KeepsScalar after key :=
  keepsScalar_of_get?_eq (h.get? key hkey)

/-- To set another field keeps a scalar. -/
theorem keepsScalar_set (d : Definition) {key other : String} (value : Json) (h : other ≠ key) :
    d.KeepsScalar (d.set key value) other :=
  keepsScalar_of_get?_eq (Fields.get?_set_of_ne d.fields value h)

/-- A filling merge keeps all scalars but profile tags. -/
theorem keepsScalar_merge (d source : Definition) {rule : MergeRule}
    (hrule : rule.overwrite = false) {key : String} (hkey : key ≠ profileKey) :
    d.KeepsScalar (d.merge rule source).definition key := by
  intro value hscalar hvalue
  unfold merge MergeRule.apply
  rw [hrule]
  exact Fields.get?_merge_fill_of_isScalar hkey hscalar hvalue _

/-- An entry of the dictionary is an attribute itself, so its types are at its root. -/
theorem keepsScalar_editTyped (d : Definition) (kind : Kind)
    {edit : Fields → Fields × List FieldPath} (hedit : ∀ body, TypesOnly body (edit body).1)
    {key : String} (hattributes : key ≠ attributesKey) (htypes : key ∉ typeFields) :
    d.KeepsScalar (d.editTyped kind edit).definition key := by
  by_cases hkind : kind = .dictionary
  · unfold editTyped
    rw [if_pos hkind]
    exact keepsScalar_of_get?_eq ((hedit d.fields).get? key htypes)
  · exact (d.attributesOnly_editTyped hkind edit).keepsScalar hattributes

/-- The numbers of a class keep all scalars but its identifier. -/
theorem keepsScalar_assignClass (d : Definition) (uid : Int) (label : String)
    (description : Option String) {key : String} (hattributes : key ≠ attributesKey)
    (huid : key ≠ "uid") : d.KeepsScalar (d.assignClass uid label description).definition key := by
  refine KeepsScalar.trans ?_
    ((d.attributesOnly_assignClass uid label description).keepsScalar hattributes)
  split
  · exact .refl d key
  · exact d.keepsScalar_set _ huid

end Definition

/-! ## Operations -/

/-- Whether an action brings another definition to its target: it patches it or makes it a copy. -/
def Action.bringsDefinition : Action → Bool
  | .mergeExtension _ | .copyExtension _ _ _ | .copyRendered _ => true
  | _ => false

/-- Whether an action assigns the identifier of a class. -/
def Action.assignsUid : Action → Bool
  | .assignClass _ _ _ _ => true
  | _ => false

namespace Operation

/-- The fields at the root that operations edit even where they hold scalars. -/
def rewrittenKeys : List String :=
  Definition.attributesKey :: profileKey :: Definition.typeFields

/-- A scalar that an operation leaves alone: its field is not edited, it is no identifier to be
assigned, and a category is only set where none is named. -/
structure LeavesScalar (op : Operation) (d : Definition) (key : String) : Prop where
  brings : op.action.bringsDefinition = false
  unedited : key ∉ rewrittenKeys
  uid : key = "uid" → op.action.assignsUid = false
  category : key = "category" → d.category?.isSome = true

/-- The scalars that an edit keeps. -/
theorem keepsScalar_edit {op : Operation} {draft : Draft} {options : Options} {d : Definition}
    {revision : Revision} {key : String} (hop : op.LeavesScalar d key)
    (h : op.edit draft options d = .ok revision) : d.KeepsScalar revision.definition key := by
  obtain ⟨hbrings, hkey, huid, hcategory⟩ := hop
  simp only [rewrittenKeys, List.mem_cons, not_or] at hkey
  obtain ⟨hattributes, hprofile, htypes⟩ := hkey
  by_cases hedits : op.editsAttributes = true
  · exact (attributesOnly_edit h hedits).keepsScalar hattributes
  unfold edit at h
  unfold editsAttributes at hedits
  cases haction : op.action with
  | includeFrom l scope =>
    simp only [haction] at h
    obtain ⟨source, -, rfl⟩ := exists_of_map_source h
    cases scope <;> exact d.keepsScalar_merge source rfl hprofile
  | inherit l =>
    simp only [haction] at h
    obtain ⟨parent, -, rfl⟩ := exists_of_map_source h
    exact d.keepsScalar_merge parent rfl hprofile
  | setCategory category =>
    simp only [haction] at h
    split at h
    · cases h
      exact .refl d key
    · rename_i hnone
      split at h
      · cases h
      · cases h
        exact d.keepsScalar_set _ fun heq => hnone (hcategory heq)
  | assignClass uid label description conflict =>
    simp only [haction] at h
    split at h
    · cases h
    · cases h
      refine d.keepsScalar_assignClass uid label description hattributes fun heq => ?_
      have hassigns := huid heq
      rw [haction] at hassigns
      cases hassigns
  | prefixTypes renames =>
    simp only [haction] at h
    cases h
    obtain ⟨edit, heq, hedit⟩ := d.exists_typesOnly_of_prefixTypes op.target.kind renames
    exact heq ▸ d.keepsScalar_editTyped op.target.kind hedit hattributes htypes
  | setObjectTypes objects =>
    simp only [haction] at h
    obtain ⟨edit, rfl, hedit⟩ := Definition.exists_typesOnly_of_setObjectTypes h
    exact d.keepsScalar_editTyped op.target.kind hedit hattributes htypes
  | mergeExtension _ | copyExtension _ _ _ | copyRendered _ =>
    rw [haction] at hbrings
    cases hbrings
  | _ => simp [haction] at hedits

/-- An operation that brings no definition needs one. -/
theorem createsTarget_of_bringsDefinition {op : Operation}
    (h : op.action.bringsDefinition = false) : op.action.createsTarget = false := by
  cases haction : op.action <;> rw [haction] at h <;> first | rfl | cases h

/-- The fields with what identifies a definition. -/
def identityKeys : List String :=
  ["name", Definition.keyKey, Definition.sourceExtensionKey, Definition.parentKey, "category",
    "caption", "description"]

/-- A field with a text that identifies a definition is left alone. -/
theorem leavesScalar_of_mem_identityKeys {op : Operation} (hop : op.action.bringsDefinition = false)
    {d : Definition} {key text : String} (hkey : key ∈ identityKeys)
    (htext : Fields.get? d.fields key = some (.str text)) : op.LeavesScalar d key := by
  have hunedited : ∀ other ∈ identityKeys, other ∉ rewrittenKeys := by decide
  refine ⟨hop, hunedited key hkey, ?_, ?_⟩
  · rintro rfl
    exact absurd hkey (by decide)
  · rintro rfl
    rw [Definition.category?, Definition.text?_eq_some_iff.2 htext]
    rfl

end Operation

/-! ## A step of a run -/

/-- A definition states a text at its root. -/
def Draft.States (draft : Draft) (l : Location) (key text : String) : Prop :=
  ∃ d, draft.get? l = some d ∧ Fields.get? d.fields key = some (.str text)

namespace Operation

section Runs

variable {draft : Draft} {l : Location} {key text : String}

/-- What identifies a definition stays unless another one is brought to its location. -/
theorem states_run (hkey : key ∈ identityKeys) {op : Operation}
    (hop : op.target = l → op.action.bringsDefinition = false) (options : Options)
    (h : draft.States l key text) : (op.run draft options).States l key text := by
  obtain ⟨d, hd, htext⟩ := h
  refine exists_get?_run_of_edit options hd htext fun hl revision hedit => ?_
  have hleaves := leavesScalar_of_mem_identityKeys (hop hl) hkey htext
  exact keepsScalar_edit hleaves hedit _ rfl htext

end Runs

/-! ## One operation -/

/--
What identifies a definition is the same after an operation.  Whenever an operation that neither
patches nor copies is applied, its target has a definition, and every text by which that is known
stays at its root; so does its identifier, as long as it is a scalar, unless that of a class is
assigned.
-/
theorem identity_is_stable {op : Operation} {draft : Draft} {options : Options}
    {after : Definition} {changes : List FieldPath} (hop : op.action.bringsDefinition = false)
    (h : op.apply draft options = .applied after changes) :
    ∃ before, draft.get? op.target = some before ∧
      (∀ key ∈ identityKeys, ∀ text, Fields.get? before.fields key = some (.str text) →
        Fields.get? after.fields key = some (.str text)) ∧
      ∀ uid, uid.isScalar = true → Fields.get? before.fields "uid" = some uid →
        op.action.assignsUid = false → Fields.get? after.fields "uid" = some uid := by
  have hedit := edit_of_applied h
  obtain ⟨before, hbefore⟩ : ∃ before, draft.get? op.target = some before := by
    cases hget : draft.get? op.target with
    | some before => exact ⟨before, rfl⟩
    | none => simp [apply, hget, createsTarget_of_bringsDefinition hop] at h
  rw [hbefore, Option.getD_some] at hedit
  refine ⟨before, hbefore, fun key hkey text htext => ?_, fun uid hscalar huid hassigns => ?_⟩
  · exact keepsScalar_edit (leavesScalar_of_mem_identityKeys hop hkey htext) hedit _ rfl htext
  · have hleaves : op.LeavesScalar before "uid" :=
      ⟨hop, by decide, fun _ => hassigns, fun heq => absurd heq (by decide)⟩
    exact keepsScalar_edit hleaves hedit uid hscalar huid

/-- A class of a category, with an identifier and a missing caption, and a fragment that would give
it other ones. -/
def loginWithFragment : Draft :=
  ((Draft.ofRepository .empty).write (.inCore .eventClass "login")
    ⟨[("name", .str "login"), ("category", .str "iam"), ("caption", .null),
      ("uid", .num (.int 2))]⟩).write (.inCore .file "includes/common.json")
      ⟨[("name", .str "common"), ("category", .str "other"), ("caption", .str "Common"),
        ("uid", .num (.int 7))]⟩

/-- A class includes a fragment. -/
def includeFragment : Operation :=
  ⟨.inCore .eventClass "login", .includeFrom (.inCore .file "includes/common.json") .definition⟩

/-- Of a fragment with all fields a class takes only the caption that it lacks. -/
theorem login_stays_login :
    let after : Definition := ⟨[("name", .str "login"), ("category", .str "iam"),
      ("caption", .str "Common"), ("uid", .num (.int 2))]⟩
    includeFragment.action.bringsDefinition = false ∧
      includeFragment.apply loginWithFragment {} = .applied after [["caption"]] ∧
      ∃ before, loginWithFragment.get? includeFragment.target = some before ∧
        Fields.get? before.fields "caption" = some .null ∧
        Fields.get? after.fields "name" = some (.str "login") ∧
        Fields.get? after.fields "category" = some (.str "iam") ∧
        Fields.get? after.fields "uid" = some (.num (.int 2)) := by
  intro after
  have htarget : loginWithFragment.get? includeFragment.target =
      some ⟨[("name", .str "login"), ("category", .str "iam"), ("caption", .null),
        ("uid", .num (.int 2))]⟩ := by
    simp [loginWithFragment, includeFragment, Draft.get?_write, Location.inCore]
  have hsource : loginWithFragment.get? (.inCore .file "includes/common.json") =
      some ⟨[("name", .str "common"), ("category", .str "other"), ("caption", .str "Common"),
        ("uid", .num (.int 7))]⟩ := by
    simp [loginWithFragment, Draft.get?_write]
  have happlied : includeFragment.apply loginWithFragment {} = .applied after [["caption"]] := by
    rw [apply, htarget]
    simp only [includeFragment, edit, source, hsource]
    rfl
  obtain ⟨before, hbefore, htexts, huid⟩ := identity_is_stable rfl happlied
  cases htarget.symm.trans hbefore
  refine ⟨rfl, happlied, _, htarget, rfl, ?_, ?_, ?_⟩
  · exact htexts "name" (by decide) "login" rfl
  · exact htexts "category" (by decide) "iam" rfl
  · exact huid _ rfl rfl rfl

end Operation

end EventSchema
