import EventSchema.Proofs.Contributions
import EventSchema.Proofs.MergedPaths

/-!
# Attributes that both sides have

Parents, includes and patches of extensions are merged into a definition.  Where both sides have an
attribute, its two bodies are merged like documents of their own, in the same mode.  The name of the
attribute makes no difference, with one exception: an attribute named like the field for profile
tags is taken for tags, and as it is no list of tags it stays as it is.

Main results:

- {lit}`Definition.attribute?_merge`: the bodies of an attribute are merged.
- {lit}`Definition.attribute?_merge_profile`: an attribute named like the field for tags stays.
- {lit}`Definition.attributes_merge_by_body`: so it is for each edit that takes in a definition.
-/

namespace EventSchema

namespace Definition

variable {child source : Definition} {rule : MergeRule} {name : String} {mine other : Fields}

/-- A rule that admits the attributes merges those of both sides. -/
theorem attributes?_merge (hsource : source.WellFormed) (hrule : rule.admits attributesKey = true)
    {attributes others : Fields} (hattributes : child.attributes? = some attributes)
    (hothers : source.attributes? = some others) :
    (child.merge rule source).definition.attributes? =
      some (Fields.merge rule.overwrite attributes others).1 := by
  refine attributes?_eq_some_iff.2 ?_
  rw [child.get?_merge hsource.distinct, attributes?_eq_some_iff.1 hothers, Option.filter_some,
    if_pos hrule]
  dsimp only
  rw [Fields.get?_mergeField_self, attributes?_eq_some_iff.1 hattributes]
  simp [Json.isNull, Option.filter, Json.merge, attributesKey, profileKey]

/-- The bodies of an attribute that both sides have are merged. -/
theorem attribute?_merge (hsource : source.WellFormed) (hrule : rule.admits attributesKey = true)
    (hname : name ≠ profileKey) (hmine : child.attribute? name = some mine)
    (hother : source.attribute? name = some other) :
    (child.merge rule source).definition.attribute? name =
      some (Fields.merge rule.overwrite mine other).1 := by
  obtain ⟨hplain, attributes, hattributes, hhere⟩ := attribute?_eq_some_iff.1 hmine
  obtain ⟨-, others, hothers, hthere⟩ := attribute?_eq_some_iff.1 hother
  have hdistinct := (Json.wellFormed_obj_iff.1 (hsource.obj?_get? hothers)).1
  refine attribute?_eq_some_iff.2
    ⟨hplain, _, attributes?_merge hsource hrule hattributes hothers, ?_⟩
  rw [Fields.get?_merge_of_values rule.overwrite hdistinct hname hhere rfl hthere rfl, Json.merge]

/-- Two objects have no tags that could be joined. -/
theorem joinTags?_obj (left right : Fields) : Json.joinTags? (.obj left) (.obj right) = none := rfl

/-- An attribute that is named like the field for tags stays as it is. -/
theorem attribute?_merge_profile (hsource : source.WellFormed)
    (hrule : rule.admits attributesKey = true) (hmine : child.attribute? profileKey = some mine)
    (hother : source.attribute? profileKey = some other) :
    (child.merge rule source).definition.attribute? profileKey = some mine := by
  obtain ⟨hplain, attributes, hattributes, hhere⟩ := attribute?_eq_some_iff.1 hmine
  obtain ⟨-, others, hothers, hthere⟩ := attribute?_eq_some_iff.1 hother
  have hdistinct := (Json.wellFormed_obj_iff.1 (hsource.obj?_get? hothers)).1
  refine attribute?_eq_some_iff.2
    ⟨hplain, _, attributes?_merge hsource hrule hattributes hothers, ?_⟩
  rw [Fields.get?_merge_profile rule.overwrite hdistinct hhere rfl hthere rfl, joinTags?_obj,
    Option.getD_none]

theorem apply_patch (left right : Fields) :
    MergeRule.patch.apply left right = Fields.merge true left right :=
  apply_of_admits (fun _ => rfl) left right

/--
A parent, an include of either scope and a patch of an extension merge an attribute that both sides
have like its two bodies, in the mode of the edit; only an attribute that is named like the field
for tags stays as it is.
-/
theorem attributes_merge_by_body (hsource : source.WellFormed)
    (hmine : child.attribute? name = some mine) (hother : source.attribute? name = some other) :
    (name ≠ profileKey →
      (child.inherit source).definition.attribute? name = some (MergeRule.fill.apply mine other).1 ∧
      (∀ scope, (child.includeFrom source scope).definition.attribute? name =
        some (MergeRule.fill.apply mine other).1) ∧
      (child.mergeExtension source).definition.attribute? name =
        some (MergeRule.patch.apply mine other).1) ∧
    (name = profileKey →
      (child.inherit source).definition.attribute? name = some mine ∧
      (∀ scope, (child.includeFrom source scope).definition.attribute? name = some mine) ∧
      (child.mergeExtension source).definition.attribute? name = some mine) := by
  have hpatch := @admits_mergeExtension child source attributesKey
    fun hkey => absurd hkey (by decide)
  rw [apply_fill, apply_patch]
  constructor
  · intro hname
    refine ⟨attribute?_merge hsource (by decide) hname hmine hother, fun scope => ?_,
      attribute?_merge hsource hpatch hname hmine hother⟩
    cases scope <;> exact attribute?_merge hsource (by decide) hname hmine hother
  · rintro rfl
    refine ⟨attribute?_merge_profile hsource (by decide) hmine hother, fun scope => ?_,
      attribute?_merge_profile hsource hpatch hmine hother⟩
    cases scope <;> exact attribute?_merge_profile hsource (by decide) hmine hother

/-- An object with two captioned attributes. -/
def captionedObject : Definition :=
  ⟨[("name", .str "b"), ("attributes", .obj [("profile", .obj [("caption", .str "P")]),
    ("ip", .obj [("caption", .str "P")])])]⟩

/-- An object with the same attributes, both of them described. -/
def describedObject : Definition :=
  ⟨[("name", .str "a"), ("attributes", .obj [("profile", .obj [("description", .str "D")]),
    ("ip", .obj [("description", .str "D")])])]⟩

theorem wellFormed_describedObject : describedObject.WellFormed := by
  simp [WellFormed, toJson, Json.WellFormed, Json.WellFormedFields, describedObject]

/-- One attribute takes in the description, the one named like the field for tags does not. -/
theorem described_attribute_is_inherited :
    (captionedObject.inherit describedObject).definition.attribute? "ip" =
        some [("caption", .str "P"), ("description", .str "D")] ∧
      (captionedObject.inherit describedObject).definition.attribute? "profile" =
        some [("caption", .str "P")] := by
  have hmine : captionedObject.attribute? "ip" = some [("caption", .str "P")] := rfl
  have hprofile : captionedObject.attribute? "profile" = some [("caption", .str "P")] := rfl
  have hmerged := (attributes_merge_by_body wellFormed_describedObject hmine rfl).1 (by decide)
  have hkept := (attributes_merge_by_body wellFormed_describedObject hprofile rfl).2 rfl
  exact ⟨hmerged.1, hkept.1⟩

/-- Names of attributes are not opaque to merging. -/
theorem described_profile_attribute_is_lost :
    ¬ ∀ (child source : Definition) (name : String) (mine other : Fields), child.WellFormed →
      source.WellFormed → isDirective name = false → child.attribute? name = some mine →
      source.attribute? name = some other →
        (child.inherit source).definition.attribute? name =
          some (MergeRule.fill.apply mine other).1 := by
  intro hclaim
  have hmerged := hclaim captionedObject describedObject "profile" _ _
    (by simp [WellFormed, toJson, Json.WellFormed, Json.WellFormedFields, captionedObject])
    wellFormed_describedObject (by decide) rfl rfl
  cases hmerged

end Definition

end EventSchema
