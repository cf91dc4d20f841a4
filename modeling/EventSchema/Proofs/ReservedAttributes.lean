import EventSchema.Proofs.Contributions
import EventSchema.Proofs.ObjectReferences

/-!
# Attributes that keep a tag

A merge that fills only leaves every value in place that is there.  So an attribute with a tag, or
anything that is no attribute but has taken its place, keeps an attribute without the tag out for
good.  Where a merge brings in a new attribute it reports the path of the attribute, or that of all
attributes.

Main results:

- {lit}`Definition.Secures.merge`, {lit}`Definition.secures_merge_of_attribute?`: filling keeps a
  place that is secured, and takes over the tag of an attribute.
- {lit}`Definition.Secures.removeProfile`: so does a removal that leaves the place alone.
- {lit}`Definition.mem_changes_merge_of_new`: a merge reports the attributes that it brings in.
- {lit}`Definition.TaggedBut.merge`, {lit}`Definition.TaggedBut.includeFrom`: what merges do to
  definitions whose attributes have a tag.
-/

namespace EventSchema

open Definition

/-! ## Filling -/

namespace Json

/-- An object that comes of filling was one before, and is merged with an object only. -/
theorem eq_obj_of_merge_fill {left right : Json} {body : Fields}
    (h : (Json.merge false left right).1 = .obj body) :
    left = .obj body ∧ (∀ r, right ≠ .obj r) ∨
      ∃ l r, left = .obj l ∧ right = .obj r ∧ body = (Fields.merge false l r).1 := by
  cases right with
  | obj r =>
    cases left with
    | obj l =>
      rw [Json.merge] at h
      exact Or.inr ⟨l, r, rfl, rfl, (Json.obj.inj h).symm⟩
    | _ => simp [Json.merge, Json.replace] at h
  | arr items =>
    cases left with
    | obj l => exact Or.inl (by simpa [Json.merge, Json.replace] using h)
    | _ => simp [Json.merge, Json.replace] at h
  | _ => exact Or.inl (by simpa [Json.merge, Json.replace] using h)

/-- A value that is no attribute without a tag. -/
def Stamped (tag : String) (value : Json) : Prop :=
  value.isNull = false ∧ ∀ body, value = .obj body → tag ∈ profileTags body

theorem Stamped.merge_left {tag : String} {left right : Json} (h : left.Stamped tag)
    (hright : right.WellFormed) (hnull : right.isNull = false) :
    (Json.merge false left right).1.Stamped tag := by
  refine ⟨isNull_merge h.1 hnull, fun body hbody => ?_⟩
  rcases eq_obj_of_merge_fill hbody with ⟨rfl, -⟩ | ⟨l, r, rfl, rfl, rfl⟩
  · exact h.2 body rfl
  · exact (mem_profileTags_merge false l (wellFormed_obj_iff.1 hright).1).2 (Or.inl (h.2 l rfl))

/-- Whatever an attribute with a tag is filled into, no attribute without the tag comes of it. -/
theorem stamped_merge_right {tag : String} {left : Json} (hleft : left.isNull = false) {r : Fields}
    (hright : (Json.obj r).WellFormed) (htag : tag ∈ profileTags r) :
    (Json.merge false left (.obj r)).1.Stamped tag := by
  refine ⟨isNull_merge hleft rfl, fun body hbody => ?_⟩
  rcases eq_obj_of_merge_fill hbody with ⟨-, hnone⟩ | ⟨l, other, -, heq, rfl⟩
  · exact absurd rfl (hnone r)
  · cases heq
    exact (mem_profileTags_merge false l (wellFormed_obj_iff.1 hright).1).2 (Or.inr htag)

end Json

namespace Fields

/-- A merge keeps a property of a value if merging into that value does. -/
theorem exists_get?_merge_left {P : Json → Prop} {overwrite : Bool} {left right : Fields}
    (hright : (Json.obj right).WellFormed) {key : String} (hkey : key ≠ profileKey) {value : Json}
    (hget : Fields.get? left key = some value) (hvalue : value.isNull = false) (h : P value)
    (hmerge : ∀ patch : Json, patch.WellFormed → patch.isNull = false →
      P (Json.merge overwrite value patch).1) :
    ∃ after, Fields.get? (Fields.merge overwrite left right).1 key = some after ∧ P after := by
  rcases Json.wellFormed_obj_iff.1 hright with ⟨hdistinct, hvalues⟩
  cases hpatch : Fields.get? right key with
  | none =>
    rw [get?_merge_of_not_mem overwrite left (get?_eq_none_iff.1 hpatch)]
    exact ⟨value, hget, h⟩
  | some patch =>
    rw [get?_merge_of_get? overwrite left hdistinct hpatch, get?_mergeField_self, hget]
    by_cases hnull : patch.isNull = true
    · rw [if_pos hnull]
      exact ⟨value, rfl, h⟩
    · have hthere : (some value).filter (fun value => !value.isNull) = some value := by
        rw [Option.filter_some, hvalue]
        rfl
      rw [if_neg hnull, hthere]
      exact ⟨_, if_neg hkey, hmerge patch (hvalues _ (mem_of_get?_eq_some hpatch))
        (Bool.eq_false_iff.2 hnull)⟩

/-- A merge has a property of a value on the right if merging that value has it. -/
theorem exists_get?_merge_right {P : Json → Prop} (overwrite : Bool) (left : Fields)
    {right : Fields} (hdistinct : (Fields.keys right).Nodup) {key : String}
    (hkey : key ≠ profileKey) {value : Json} (hget : Fields.get? right key = some value)
    (hvalue : value.isNull = false) (h : P value)
    (hmerge : ∀ existing : Json, existing.isNull = false →
      P (Json.merge overwrite existing value).1) :
    ∃ after, Fields.get? (Fields.merge overwrite left right).1 key = some after ∧ P after := by
  rw [get?_merge_of_get? overwrite left hdistinct hget, get?_mergeField_self,
    if_neg (Bool.eq_false_iff.1 hvalue)]
  cases hexisting : (Fields.get? left key).filter fun value => !value.isNull with
  | none => exact ⟨value, rfl, h⟩
  | some existing =>
    have hthere : existing.isNull = false := by
      simpa using (Option.filter_eq_some_iff.1 hexisting).2
    exact ⟨_, if_neg hkey, hmerge existing hthere⟩

/-! ## What filling reports -/

/-- What is reported under a key depends on the value there only. -/
theorem snd_mergeField_congr (overwrite : Bool) {left other : Fields} {key : String}
    (h : Fields.get? left key = Fields.get? other key) (value : Json) :
    (Fields.mergeField overwrite left key value).2 =
      (Fields.mergeField overwrite other key value).2 := by
  unfold mergeField
  rw [h]
  split
  · rfl
  · cases Fields.get? other key with
    | none => rfl
    | some existing =>
      dsimp only
      split
      · rfl
      · split
        · cases Json.joinTags? existing value <;> rfl
        · rfl

/-- A merge reports what merging one of the fields on the right reports. -/
theorem mem_changes_merge {overwrite : Bool} {left right : Fields}
    (hdistinct : (Fields.keys right).Nodup) {key : String} {value : Json}
    (hget : Fields.get? right key = some value) {path : FieldPath}
    (hpath : path ∈ (Fields.mergeField overwrite left key value).2) :
    path ∈ (Fields.merge overwrite left right).2 := by
  induction right generalizing left with
  | nil => cases hget
  | cons e rest ih =>
    rcases e with ⟨k, v⟩
    rcases List.nodup_cons.1 hdistinct with ⟨-, hrest⟩
    rw [merge_cons]
    rw [get?_cons] at hget
    by_cases hkey : key = k
    · subst hkey
      rw [if_pos rfl] at hget
      cases hget
      exact List.mem_append_left _ hpath
    · rw [if_neg hkey] at hget
      have hkept := get?_mergeField_of_ne overwrite left v hkey
      refine List.mem_append_right _ (ih hrest hget ?_)
      rwa [snd_mergeField_congr overwrite hkept value]

/-- An object that a filling merge leaves under a key was there before, or the key is reported, or
it is merged and the key is reported in front of what is reported inside. -/
theorem get?_merge_fill_cases {left right : Fields} (hdistinct : (Fields.keys right).Nodup)
    {key : String} {body : Fields}
    (h : Fields.get? (Fields.merge false left right).1 key = some (.obj body)) :
    Fields.get? left key = some (.obj body) ∨ [key] ∈ (Fields.merge false left right).2 ∨
      ∃ l r, Fields.get? left key = some (.obj l) ∧ Fields.get? right key = some (.obj r) ∧
        body = (Fields.merge false l r).1 ∧
        ∀ path ∈ (Fields.merge false l r).2, key :: path ∈ (Fields.merge false left right).2 := by
  cases hpatch : Fields.get? right key with
  | none =>
    rw [get?_merge_of_not_mem false left (get?_eq_none_iff.1 hpatch)] at h
    exact Or.inl h
  | some patch =>
    have hreported (path : FieldPath) (hpath : path ∈ (Fields.mergeField false left key patch).2) :
        path ∈ (Fields.merge false left right).2 := mem_changes_merge hdistinct hpatch hpath
    rw [get?_merge_of_get? false left hdistinct hpatch, get?_mergeField_self] at h
    by_cases hnull : patch.isNull = true
    · rw [if_pos hnull] at h
      exact Or.inl h
    rw [if_neg hnull] at h
    cases hleft : Fields.get? left key with
    | none =>
      refine Or.inr (Or.inl (hreported [key] ?_))
      simp [mergeField, hnull, hleft]
    | some existing =>
      by_cases hthere : existing.isNull = true
      · refine Or.inr (Or.inl (hreported [key] ?_))
        simp [mergeField, hnull, hleft, hthere]
      have hfilter : (some existing).filter (fun value => !value.isNull) = some existing := by
        simp [hthere]
      rw [hleft, hfilter] at h
      dsimp only at h
      by_cases hkey : key = profileKey
      · rw [if_pos hkey] at h
        cases hjoin : Json.joinTags? existing patch with
        | none =>
          rw [hjoin, Option.getD_none] at h
          exact Or.inl h
        | some tags =>
          rcases Json.exists_arr_of_joinTags? hjoin with ⟨items, rfl⟩
          rw [hjoin] at h
          cases h
      · rw [if_neg hkey] at h
        rcases Json.eq_obj_of_merge_fill (Option.some.inj h) with
          ⟨rfl, -⟩ | ⟨l, r, rfl, rfl, rfl⟩
        · exact Or.inl rfl
        · refine Or.inr (Or.inr ⟨l, r, rfl, rfl, rfl, fun path hpath => hreported _ ?_⟩)
          simpa [mergeField, Json.isNull, hleft, hkey, Json.merge] using hpath

end Fields

namespace Definition

/-! ## Secured places -/

/-- Among the attributes there is something under a name that is no attribute without a tag; or
something else stands in the place of the attributes. -/
def Secures (d : Definition) (name tag : String) : Prop :=
  ∃ value, Fields.get? d.fields attributesKey = some value ∧ value.isNull = false ∧
    ∀ attributes, value = .obj attributes →
      ∃ inner, Fields.get? attributes name = some inner ∧ inner.Stamped tag

theorem Secures.mem_profileTags {d : Definition} {name tag : String} (h : d.Secures name tag)
    {body : Fields} (hbody : d.attribute? name = some body) : tag ∈ profileTags body := by
  rcases attribute?_eq_some_iff.1 hbody with ⟨-, attributes, hattributes, hget⟩
  rcases h with ⟨value, hvalue, -, hinner⟩
  cases hvalue.symm.trans (attributes?_eq_some_iff.1 hattributes)
  rcases hinner attributes rfl with ⟨inner, hinner, hstamped⟩
  cases hinner.symm.trans hget
  exact hstamped.2 body rfl

theorem secures_of_attribute? {d : Definition} {name tag : String} {body : Fields}
    (hbody : d.attribute? name = some body) (htag : tag ∈ profileTags body) :
    d.Secures name tag := by
  rcases attribute?_eq_some_iff.1 hbody with ⟨-, attributes, hattributes, hget⟩
  refine ⟨.obj attributes, attributes?_eq_some_iff.1 hattributes, rfl, ?_⟩
  rintro _ ⟨⟩
  exact ⟨.obj body, hget, rfl, by rintro _ ⟨⟩; exact htag⟩

variable {rule : MergeRule}

/-- Filling keeps a place that is secured. -/
theorem Secures.merge {d : Definition} {name tag : String} (h : d.Secures name tag)
    (hname : name ≠ profileKey) {source : Definition} (hsource : source.WellFormed)
    (hfill : rule.overwrite = false) :
    (d.merge rule source).definition.Secures name tag := by
  rcases h with ⟨value, hvalue, hnull, hinner⟩
  unfold Secures Definition.merge MergeRule.apply
  rw [hfill]
  refine Fields.exists_get?_merge_left (Json.wellFormed_filter hsource _) (by decide) hvalue hnull
    ⟨hnull, hinner⟩ fun patch hpatch hsome => ⟨Json.isNull_merge hnull hsome, ?_⟩
  intro attributes hattributes
  rcases Json.eq_obj_of_merge_fill hattributes with ⟨rfl, -⟩ | ⟨l, r, rfl, rfl, rfl⟩
  · exact hinner attributes rfl
  · rcases hinner l rfl with ⟨inner, hget, hstamped⟩
    exact Fields.exists_get?_merge_left hpatch hname hget hstamped.1 hstamped
      fun patch hpatch hsome => hstamped.merge_left hpatch hsome

/-- Filling from a definition with an attribute secures the place for the tags of the attribute. -/
theorem secures_merge_of_attribute? (d : Definition) {source : Definition}
    (hsource : source.WellFormed) {name tag : String} (hname : name ≠ profileKey) {body : Fields}
    (hbody : source.attribute? name = some body) (htag : tag ∈ profileTags body)
    (hfill : rule.overwrite = false) (hadmits : rule.admits attributesKey = true) :
    (d.merge rule source).definition.Secures name tag := by
  rcases attribute?_eq_some_iff.1 hbody with ⟨-, attributes, hattributes, hget⟩
  have hinside := Json.wellFormed_obj_iff.1 (hsource.obj?_get? hattributes)
  have hright := (Json.wellFormed_obj_iff.1
    (Json.wellFormed_filter hsource fun e => rule.admits e.1)).1
  have hstamped : (Json.obj body).Stamped tag := ⟨rfl, by rintro _ ⟨⟩; exact htag⟩
  have hthere : Fields.get? (source.fields.filter fun e => rule.admits e.1) attributesKey =
      some (.obj attributes) :=
    (Fields.get?_filter_keys rule.admits source.fields hadmits).trans
      (attributes?_eq_some_iff.1 hattributes)
  unfold Secures Definition.merge MergeRule.apply
  rw [hfill]
  refine Fields.exists_get?_merge_right false d.fields hright (by decide) hthere rfl ⟨rfl, ?_⟩
    fun existing hexisting => ⟨Json.isNull_merge hexisting rfl, fun merged hmerged => ?_⟩
  · rintro _ ⟨⟩
    exact ⟨_, hget, hstamped⟩
  · rcases Json.eq_obj_of_merge_fill hmerged with ⟨-, hnone⟩ | ⟨l, r, -, heq, rfl⟩
    · exact absurd rfl (hnone attributes)
    · cases heq
      exact Fields.exists_get?_merge_right false l hinside.1 hname hget rfl hstamped
        fun existing hexisting => Json.stamped_merge_right hexisting
          (hinside.2 _ (Fields.mem_of_get?_eq_some hget)) htag

/-- A place stays secured under a removal that keeps the tag or does not report the attribute. -/
theorem Secures.removeProfile {d : Definition} (hd : d.WellFormed) {name tag : String}
    (h : d.Secures name tag) {profile : String} {options : Options}
    (hkept : options.isProfileEnabled tag = true ∨
      [attributesKey, name] ∉ (d.removeProfile profile options).changes) :
    (d.removeProfile profile options).definition.Secures name tag := by
  rcases h with ⟨value, hvalue, hnull, hinner⟩
  cases hattributes : d.attributes? with
  | none =>
    rw [d.removeProfile_noAttributes profile options hattributes]
    exact ⟨value, hvalue, hnull, hinner⟩
  | some attributes =>
    cases hvalue.symm.trans (attributes?_eq_some_iff.1 hattributes)
    rcases hinner attributes rfl with ⟨inner, hget, hstamped⟩
    have hmem := Fields.mem_of_get?_eq_some hget
    have hstays : isInactive profile options inner = false := by
      refine Bool.eq_false_iff.2 fun hinactive => ?_
      rcases hkept with hactive | hunreported
      · cases inner with
        | obj body =>
          simp only [isInactive, Json.obj?, Bool.and_eq_true, List.all_eq_true] at hinactive
          have hoff := hinactive.2 tag (hstamped.2 body rfl)
          rw [hactive] at hoff
          cases hoff
        | _ => cases hinactive
      · refine hunreported ?_
        simp only [Definition.removeProfile, hattributes]
        exact List.mem_map.2 ⟨_, List.mem_filter.2 ⟨hmem, hinactive⟩, rfl⟩
    simp only [Definition.removeProfile, hattributes]
    refine ⟨_, Fields.get?_set_self _ _ _, rfl, ?_⟩
    rintro _ ⟨⟩
    have hdistinct := (Json.wellFormed_obj_iff.1 (hd.obj?_get? hattributes)).1
    refine ⟨inner, (Fields.get?_eq_some_iff_mem ?_).2 (List.mem_filter.2 ⟨hmem, ?_⟩), hstamped⟩
    · exact hdistinct.sublist (List.Sublist.map _ List.filter_sublist)
    · rw [hstays]
      rfl

/-- Attributes that are the same have the same tags. -/
theorem SameObjects.profileTags_eq {body other : Fields}
    (h : SameObjects (some body) (some other)) : profileTags body = profileTags other := by
  cases h with
  | some hsame =>
    rcases hsame with ⟨hbody, hsame⟩
    have hdistinct : (⟨body⟩ : Definition).Distinct := (Json.wellFormed_obj_iff.1 hbody).1
    unfold profileTags
    cases hget : Fields.get? other profileKey with
    | some tags =>
      rcases exists_get?_of_same (d := ⟨body⟩) hdistinct hsame hget with ⟨before, hbefore, hvalue⟩
      rw [hbefore]
      exact Json.strings_eq_of_same hvalue
    | none =>
      have hsame : (⟨body⟩ : Definition).same ⟨other⟩ = true := hsame
      have hnone : Fields.get? body profileKey = none := get?_eq_none_of_same hsame hget
      rw [hnone]

/-- Documents that are the same secure the same places. -/
theorem Secures.of_same {d other : Definition} (hd : d.WellFormed) (h : d.same other = true)
    {name tag : String} (hother : other.Secures name tag) : d.Secures name tag := by
  rcases hother with ⟨value, hvalue, hnull, hinner⟩
  rcases exists_get?_of_same hd.distinct h hvalue with ⟨before, hbefore, hsame⟩
  refine ⟨before, hbefore, (isNull_of_same hsame).trans hnull, ?_⟩
  rintro attributes rfl
  have hinside := Json.wellFormed_obj_iff.1 (hd.obj?_get? (attributes?_eq_some_iff.2 hbefore))
  cases value with
  | obj others =>
    rcases hinner others rfl with ⟨inner, hget, hstamped⟩
    rcases exists_get?_of_same (d := ⟨attributes⟩) hinside.1 hsame hget with ⟨mine, hmine, hsame⟩
    refine ⟨mine, hmine, (isNull_of_same hsame).trans hstamped.1, ?_⟩
    rintro body rfl
    cases inner with
    | obj other =>
      have hobjects := sameObjects_obj? (hinside.2 _ (Fields.mem_of_get?_eq_some hmine)) hsame
      rw [SameObjects.profileTags_eq hobjects]
      exact hstamped.2 other rfl
    | _ => cases hsame
  | _ => cases hsame

/-! ## Definitions with a tag on their attributes -/

/-- Each attribute has a tag unless its name is exempt. -/
def TaggedBut (d : Definition) (tag : String) (exempt : String → Prop) : Prop :=
  ∀ name body, d.attribute? name = some body → exempt name ∨ tag ∈ profileTags body

variable {tag : String} {exempt : String → Prop}

theorem TaggedBut.mono {d : Definition} (h : d.TaggedBut tag exempt) {more : String → Prop}
    (hmore : ∀ name, exempt name → more name) : d.TaggedBut tag more :=
  fun name body hbody => (h name body hbody).imp (hmore name) id

theorem mem_profileTags_tag (body : Fields) (profile : String) :
    profile ∈ profileTags (MergeRule.fill.apply body [(profileKey, .str profile)]).1 := by
  have hdistinct : (Fields.keys [(profileKey, Json.str profile)]).Nodup := List.nodup_singleton _
  rw [apply_fill, mem_profileTags_merge false body hdistinct]
  exact Or.inr List.mem_cons_self

/-- Tagging puts the tag on every attribute. -/
theorem taggedBut_tagProfile (d : Definition) (profile : String) (exempt : String → Prop) :
    (d.tagProfile profile).definition.TaggedBut profile exempt := by
  intro name body hbody
  rw [tagProfile, attribute?_editSlots] at hbody
  rcases Option.map_eq_some_iff.1 hbody with ⟨old, -, rfl⟩
  exact Or.inr (mem_profileTags_tag old profile)

/-- Where tagging changes nothing every attribute has the tag. -/
theorem taggedBut_of_unchanged {d : Definition} (hd : d.WellFormed) {profile : String}
    (h : (d.tagProfile profile).changes = [] ∨ (d == (d.tagProfile profile).definition) = true)
    (exempt : String → Prop) : d.TaggedBut profile exempt := by
  intro name body hbody
  refine Or.inr ?_
  rcases h with hchanges | hsame
  · rcases attribute?_eq_some_iff.1 hbody with ⟨-, attributes, hattributes, hget⟩
    have hnone : (MergeRule.fill.apply body [(profileKey, .str profile)]).2 = [] := by
      refine List.eq_nil_iff_forall_not_mem.2 fun path hpath => ?_
      have hmem : attributesKey :: name :: path ∈ (d.tagProfile profile).changes := by
        unfold tagProfile editSlots
        rw [hattributes]
        refine List.mem_map_of_mem (mem_changes_editObjects.2
          ⟨name, body, path, Fields.mem_of_get?_eq_some hget, hpath, rfl⟩)
      rw [hchanges] at hmem
      cases hmem
    have hkept : (MergeRule.fill.apply body [(profileKey, .str profile)]).1 = body := by
      rw [apply_fill] at hnone ⊢
      exact Fields.merge_fst_of_changes false hnone
    rw [← hkept]
    exact mem_profileTags_tag body profile
  · have hafter : (d.tagProfile profile).definition.attribute? name =
        some (MergeRule.fill.apply body [(profileKey, .str profile)]).1 := by
      rw [tagProfile, attribute?_editSlots, hbody]
      rfl
    have hobjects := sameObjects_attribute? hd hsame name
    rw [hbody, hafter] at hobjects
    rw [hobjects.profileTags_eq]
    exact mem_profileTags_tag body profile

/-- Annotations keep the tags of attributes. -/
theorem TaggedBut.annotate {d : Definition} (hd : d.WellFormed) (h : d.TaggedBut tag exempt) :
    d.annotate.definition.TaggedBut tag exempt := by
  unfold Definition.annotate
  split
  · exact h
  · rename_i annotations hannotations
    have hdistinct := (Json.wellFormed_obj_iff.1
      (Json.wellFormed_filter (hd.obj?_get? hannotations) fun e => MergeRule.patch.admits e.1)).1
    intro name body hbody
    rw [attribute?_editAttributes] at hbody
    rcases Option.map_eq_some_iff.1 hbody with ⟨old, hold, rfl⟩
    refine (h name old hold).imp id fun htag => ?_
    exact (mem_profileTags_merge true old hdistinct).2 (Or.inl htag)

/-- Merging definitions whose attributes have a tag keeps the tag. -/
theorem TaggedBut.merge {d source : Definition} {rule : MergeRule}
    (hrule : rule.admits attributesKey = true) (hd : d.TaggedBut tag exempt)
    (hsource : source.TaggedBut tag exempt) (h : source.WellFormed) :
    (d.merge rule source).definition.TaggedBut tag exempt := by
  intro name body hbody
  rcases attribute?_merge_cases hrule h hbody with hl | hr | ⟨l, r, hl, hr, rfl⟩
  · exact hd name body hl
  · exact hsource name body hr
  · rcases attribute?_eq_some_iff.1 hr with ⟨-, attributes, hattributes, hget⟩
    have hattribute := (Json.wellFormed_obj_iff.1 (h.obj?_get? hattributes)).2 _
      (Fields.mem_of_get?_eq_some hget)
    refine (hd name l hl).imp id fun htag => ?_
    exact (mem_profileTags_merge _ l (Json.wellFormed_obj_iff.1 hattribute).1).2 (Or.inl htag)

/-! ## New attributes -/

/-- A filling merge reports the attributes that it brings in. -/
theorem mem_changes_merge_of_new {d source : Definition} (hsource : source.WellFormed)
    (hfill : rule.overwrite = false) {name : String} {body : Fields}
    (hnone : d.attribute? name = none)
    (hbody : (d.merge rule source).definition.attribute? name = some body) :
    [attributesKey] ∈ (d.merge rule source).changes ∨
      [attributesKey, name] ∈ (d.merge rule source).changes := by
  have hnew {attributes l : Fields} (hattributes : d.attributes? = some attributes)
      (hname : isDirective name = false) (hl : Fields.get? attributes name = some (.obj l)) :
      False := by
    have hsome := attribute?_eq_some_iff.2 ⟨hname, attributes, hattributes, hl⟩
    rw [hnone] at hsome
    cases hsome
  rcases attribute?_eq_some_iff.1 hbody with ⟨hname, attributes, hattributes, hget⟩
  have hright := Json.wellFormed_obj_iff.1
    (Json.wellFormed_filter hsource fun e => rule.admits e.1)
  have hfield := attributes?_eq_some_iff.1 hattributes
  unfold Definition.merge MergeRule.apply at hfield ⊢
  rw [hfill] at hfield ⊢
  rcases Fields.get?_merge_fill_cases hright.1 hfield with
    hkept | hreported | ⟨l, r, hl, hr, rfl, hinside⟩
  · exact absurd hget fun hget => hnew (attributes?_eq_some_iff.2 hkept) hname hget
  · exact Or.inl hreported
  · have hdistinct : (Fields.keys r).Nodup :=
      (Json.wellFormed_obj_iff.1 (hright.2 _ (Fields.mem_of_get?_eq_some hr))).1
    rcases Fields.get?_merge_fill_cases hdistinct hget with
      hkept | hreported | ⟨l', r', hl', -⟩
    · exact absurd hkept fun hget => hnew (attributes?_eq_some_iff.2 hl) hname hget
    · exact Or.inr (hinside _ hreported)
    · exact absurd hl' fun hget => hnew (attributes?_eq_some_iff.2 hl) hname hget

/-- Both scopes of an include fill the attributes. -/
theorem exists_rule_of_includeFrom (d source : Definition) (scope : IncludeScope) :
    ∃ rule : MergeRule, rule.overwrite = false ∧ rule.admits attributesKey = true ∧
      d.includeFrom source scope = d.merge rule source := by
  cases scope with
  | definition => exact ⟨_, rfl, by decide, rfl⟩
  | attributes => exact ⟨_, rfl, by decide, rfl⟩

/-- After an include each attribute still has the tag, unless the include reports it as new. -/
theorem TaggedBut.includeFrom {d source : Definition} (h : d.TaggedBut tag exempt)
    (hexempt : exempt profileKey) (hsource : source.WellFormed) (scope : IncludeScope) :
    (d.includeFrom source scope).definition.TaggedBut tag fun name => exempt name ∨
      [attributesKey] ∈ (d.includeFrom source scope).changes ∨
        [attributesKey, name] ∈ (d.includeFrom source scope).changes := by
  rcases d.exists_rule_of_includeFrom source scope with ⟨rule, hfill, -, heq⟩
  rw [heq]
  intro name body hbody
  cases hbefore : d.attribute? name with
  | none => exact Or.inl (Or.inr (mem_changes_merge_of_new hsource hfill hbefore hbody))
  | some old =>
    by_cases hname : name = profileKey
    · exact Or.inl (Or.inl (hname ▸ hexempt))
    rcases h name old hbefore with hout | htag
    · exact Or.inl (Or.inl hout)
    · have hsecured := (secures_of_attribute? hbefore htag).merge hname hsource hfill
      exact Or.inr (hsecured.mem_profileTags hbody)

end Definition

end EventSchema
