import EventSchema.Proofs.Merging
import EventSchema.Proofs.WellFormed

/-!
# Profile tags under edits

A merge leaves an attribute with the tags of both sides, so an attribute without an active tag comes
from attributes without one.  Edits that complete an attribute leave its tags alone, and new
attributes have no tags but that of an active profile.

Main results:

- {lit}`Definition.mem_profileTags_merge`: a merged attribute has the tags of both sides.
- {lit}`Definition.attribute?_merge_cases`: where the attributes of a merged definition come from.
- {lit}`Definition.Cleared.merge`, {lit}`Definition.Cleared.fillAttribute`: merging keeps it that
  inactive tags are stated.
- {lit}`Operation.keepsTags_edit`: the edits behind the structural phase leave tags alone.
-/

namespace EventSchema

open Std

namespace Fields

/-! ## What a merge leaves under a key -/

/-- What a merged field leaves under its own key. -/
theorem get?_mergeField_self (overwrite : Bool) (left : Fields) (key : String) (right : Json) :
    Fields.get? (Fields.mergeField overwrite left key right).1 key =
      if right.isNull then Fields.get? left key
      else
        match (Fields.get? left key).filter fun value => !value.isNull with
        | none => some right
        | some existing =>
          if key = profileKey then some ((Json.joinTags? existing right).getD existing)
          else some (Json.merge overwrite existing right).1 := by
  unfold mergeField
  by_cases hright : right.isNull = true
  · rw [if_pos hright, if_pos hright]
  rw [if_neg hright, if_neg hright]
  cases hget : Fields.get? left key with
  | none => simp
  | some existing =>
    by_cases hnull : existing.isNull = true
    · simp [hnull, Option.filter]
    · by_cases hkey : key = profileKey
      · subst hkey
        cases hjoin : Json.joinTags? existing right with
        | none => simp [hnull, hjoin, hget, Option.filter]
        | some tags => simp [hnull, hjoin, Option.filter]
      · simp [hnull, hkey, Option.filter]

/-- What a merge leaves under a key depends on the two values under it. -/
theorem get?_merge_of_get? (overwrite : Bool) (left : Fields) {right : Fields}
    (h : (Fields.keys right).Nodup) {key : String} {value : Json}
    (hvalue : Fields.get? right key = some value) :
    Fields.get? (Fields.merge overwrite left right).1 key =
      Fields.get? (Fields.mergeField overwrite left key value).1 key := by
  induction right generalizing left with
  | nil => cases hvalue
  | cons e rest ih =>
    rcases e with ⟨k, v⟩
    rcases List.nodup_cons.1 h with ⟨hnew, hrest⟩
    rw [merge_cons]
    rw [get?_cons] at hvalue
    by_cases hkey : key = k
    · subst hkey
      rw [if_pos rfl] at hvalue
      cases hvalue
      exact get?_merge_of_not_mem overwrite _ hnew
    · rw [if_neg hkey] at hvalue
      have hkept := get?_mergeField_of_ne overwrite left v hkey
      refine (ih _ hrest hvalue).trans ?_
      rw [get?_mergeField_self, get?_mergeField_self, hkept]

end Fields

namespace Definition

/-- A merged attribute has the tags of both sides. -/
theorem mem_profileTags_merge (overwrite : Bool) (left : Fields) {right : Fields}
    (h : (Fields.keys right).Nodup) {tag : String} :
    tag ∈ profileTags (Fields.merge overwrite left right).1 ↔
      tag ∈ profileTags left ∨ tag ∈ profileTags right := by
  unfold profileTags
  cases hright : Fields.get? right profileKey with
  | none =>
    rw [Fields.get?_merge_of_not_mem overwrite left (Fields.get?_eq_none_iff.1 hright)]
    simp [Json.strings]
  | some value =>
    rw [Fields.get?_merge_of_get? overwrite left h hright, Fields.get?_mergeField_self]
    by_cases hnull : value.isNull = true
    · rw [if_pos hnull]
      cases value with
      | null => simp [Json.strings]
      | _ => cases hnull
    rw [if_neg hnull]
    cases hleft : (Fields.get? left profileKey).filter fun value => !value.isNull with
    | none =>
      have hnone : Json.strings (Fields.get? left profileKey) = [] := by
        cases hget : Fields.get? left profileKey with
        | none => rfl
        | some existing =>
          rw [hget, Option.filter_eq_none_iff] at hleft
          cases existing with
          | null => rfl
          | _ => exact absurd rfl (hleft _ rfl)
      simp [hnone]
    | some existing =>
      rw [(Option.filter_eq_some_iff.1 hleft).1]
      simp only [if_true]
      cases hjoin : Json.joinTags? existing value with
      | none =>
        have hsub := Json.joinTags?_eq_none_iff.1 hjoin tag
        exact ⟨Or.inl, fun htag => htag.elim id hsub⟩
      | some tags =>
        rw [Option.getD_some, Json.strings_of_joinTags? hjoin]
        exact Json.mem_gatherTags

end Definition

/-! ## Values in a merge -/

/-- A merge leaves one side, or merges two objects, or makes a list. -/
theorem Json.merge_cases (overwrite : Bool) (left right : Json) :
    (Json.merge overwrite left right).1 = left ∨ (Json.merge overwrite left right).1 = right ∨
      (∃ l r, left = .obj l ∧ right = .obj r ∧
        (Json.merge overwrite left right).1 = .obj (Fields.merge overwrite l r).1) ∨
      ∃ items, (Json.merge overwrite left right).1 = .arr items := by
  have hreplace : (Json.replace overwrite left right).1 = left ∨
      (Json.replace overwrite left right).1 = right := by
    rcases Json.replace_cases overwrite left right with heq | heq
    · exact Or.inr (by rw [heq])
    · exact Or.inl (by rw [heq])
  cases right with
  | obj r =>
    cases left with
    | obj l =>
      rw [Json.merge]
      exact Or.inr (Or.inr (Or.inl ⟨l, r, rfl, rfl, rfl⟩))
    | _ => exact (by simpa [Json.merge] using hreplace.imp id Or.inl)
  | arr items =>
    cases left with
    | arr _ =>
      rw [Json.merge]
      exact Or.inr (Or.inr (Or.inr ⟨_, rfl⟩))
    | _ => exact (by simpa [Json.merge] using hreplace.imp id Or.inl)
  | _ => exact (by simpa [Json.merge] using hreplace.imp id Or.inl)

/-- Joined tags are a list. -/
theorem Json.exists_arr_of_joinTags? {left right tags : Json}
    (h : Json.joinTags? left right = some tags) : ∃ items, tags = .arr items := by
  obtain ⟨-, h⟩ := Option.ite_none_left_eq_some.1 h
  exact ⟨_, (Option.some.inj h).symm⟩

/-- Where a value that a merge leaves under a key comes from. -/
theorem Fields.get?_merge_cases {overwrite : Bool} {left right : Fields}
    (h : (Fields.keys right).Nodup) {key : String} {value : Json}
    (hget : Fields.get? (Fields.merge overwrite left right).1 key = some value) :
    Fields.get? left key = some value ∨ Fields.get? right key = some value ∨
      (∃ l r, Fields.get? left key = some (.obj l) ∧ Fields.get? right key = some (.obj r) ∧
        value = .obj (Fields.merge overwrite l r).1) ∨
      ∃ items, value = .arr items := by
  cases hright : Fields.get? right key with
  | none =>
    rw [Fields.get?_merge_of_not_mem overwrite left (Fields.get?_eq_none_iff.1 hright)] at hget
    exact Or.inl hget
  | some patch =>
    rw [Fields.get?_merge_of_get? overwrite left h hright, Fields.get?_mergeField_self] at hget
    split at hget
    · exact Or.inl hget
    split at hget
    · exact Or.inr (Or.inl hget)
    · rename_i existing hexisting
      have hleft := (Option.filter_eq_some_iff.1 hexisting).1
      split at hget
      · cases hjoin : Json.joinTags? existing patch with
        | none =>
          rw [hjoin, Option.getD_none] at hget
          exact Or.inl (hleft.trans hget)
        | some tags =>
          rw [hjoin, Option.getD_some] at hget
          cases hget
          exact Or.inr (Or.inr (Or.inr (Json.exists_arr_of_joinTags? hjoin)))
      · have hvalue := Option.some.inj hget
        rcases Json.merge_cases overwrite existing patch with
          heq | heq | ⟨l, r, rfl, rfl, heq⟩ | ⟨items, heq⟩
        · exact Or.inl (by rw [hleft, ← hvalue, heq])
        · exact Or.inr (Or.inl (by rw [← hvalue, heq]))
        · exact Or.inr (Or.inr (Or.inl ⟨l, r, hleft, rfl, hvalue.symm.trans heq⟩))
        · exact Or.inr (Or.inr (Or.inr ⟨items, hvalue.symm.trans heq⟩))

namespace Definition

/-! ## Attributes in a merge -/

/-- The attributes are the object under their key. -/
theorem attributes?_eq_some_iff {d : Definition} {attributes : Fields} :
    d.attributes? = some attributes ↔
      Fields.get? d.fields attributesKey = some (.obj attributes) := by
  refine ⟨fields_get?_of_attributes?, fun h => ?_⟩
  rw [attributes?, get?, h]
  rfl

/-- An attribute is an object among the attributes whose name is no directive. -/
theorem attribute?_eq_some_iff {d : Definition} {name : String} {body : Fields} :
    d.attribute? name = some body ↔ isDirective name = false ∧
      ∃ attributes, d.attributes? = some attributes ∧
        Fields.get? attributes name = some (.obj body) := by
  unfold attribute? slot?
  cases hname : isDirective name with
  | true => simp
  | false =>
    simp only [Bool.false_eq_true, if_false, true_and, Option.bind_eq_some_iff]
    constructor
    · rintro ⟨value, ⟨attributes, hattributes, hvalue⟩, hobj⟩
      cases value with
      | obj fields =>
        cases hobj
        exact ⟨attributes, hattributes, hvalue⟩
      | _ => cases hobj
    · rintro ⟨attributes, hattributes, hvalue⟩
      exact ⟨_, ⟨attributes, hattributes, hvalue⟩, rfl⟩

/-- An attribute is listed under its name. -/
theorem mem_attributes_of_attribute? {d : Definition} {name : String} {body : Fields}
    (h : d.attribute? name = some body) : (name, body) ∈ d.attributes := by
  rcases attribute?_eq_some_iff.1 h with ⟨hname, attributes, hattributes, hget⟩
  rw [Definition.attributes, hattributes]
  exact List.mem_filterMap.2 ⟨_, Fields.mem_of_get?_eq_some hget, by simp [hname, Json.obj?]⟩

/-- An attribute of a merged definition is that of one side, or merged from those of both. -/
theorem attribute?_merge_cases {d source : Definition} {rule : MergeRule}
    (hrule : rule.admits attributesKey = true) (h : source.WellFormed) {name : String}
    {body : Fields} (hbody : (d.merge rule source).definition.attribute? name = some body) :
    d.attribute? name = some body ∨ source.attribute? name = some body ∨
      ∃ l r, d.attribute? name = some l ∧ source.attribute? name = some r ∧
        body = (Fields.merge rule.overwrite l r).1 := by
  rcases attribute?_eq_some_iff.1 hbody with ⟨hname, attributes, hattributes, hget⟩
  have hadmitted := (Json.wellFormed_obj_iff.1
    (Json.wellFormed_filter h fun e => rule.admits e.1)).1
  have hsource (k : Fields) (hk : Fields.get? source.fields attributesKey = some (.obj k)) :=
    attributes?_eq_some_iff.2 hk
  have hcases := Fields.get?_merge_cases hadmitted (attributes?_eq_some_iff.1 hattributes)
  rw [Fields.get?_filter_keys rule.admits source.fields hrule] at hcases
  rcases hcases with hleft | hright | ⟨l, r, hleft, hright, ⟨⟩⟩ | ⟨items, ⟨⟩⟩
  · exact Or.inl (attribute?_eq_some_iff.2
      ⟨hname, attributes, attributes?_eq_some_iff.2 hleft, hget⟩)
  · exact Or.inr (Or.inl (attribute?_eq_some_iff.2 ⟨hname, attributes, hsource _ hright, hget⟩))
  · have hnodup : (Fields.keys r).Nodup :=
      (Json.wellFormed_obj_iff.1 (h.obj?_get? (hsource r hright))).1
    have hleft := attributes?_eq_some_iff.2 hleft
    rcases Fields.get?_merge_cases hnodup hget with
      hl | hr | ⟨l', r', hl, hr, hmerge⟩ | ⟨items, ⟨⟩⟩
    · exact Or.inl (attribute?_eq_some_iff.2 ⟨hname, l, hleft, hl⟩)
    · exact Or.inr (Or.inl (attribute?_eq_some_iff.2 ⟨hname, r, hsource r hright, hr⟩))
    · exact Or.inr (Or.inr ⟨l', r', attribute?_eq_some_iff.2 ⟨hname, l, hleft, hl⟩,
        attribute?_eq_some_iff.2 ⟨hname, r, hsource r hright, hr⟩, Json.obj.inj hmerge⟩)

/-! ## Inactive tags -/

/-- Attributes without an active tag have no tags but those stated for their names. -/
def Cleared (d : Definition) (options : Options) (stated : String → List String) : Prop :=
  ∀ name body, d.attribute? name = some body →
    (∀ tag ∈ profileTags body, options.isProfileEnabled tag = false) →
      ∀ tag ∈ profileTags body, tag ∈ stated name

variable {options : Options} {stated : String → List String}

/-- What is cleared of some tags is cleared if more of them are stated. -/
theorem Cleared.mono {d : Definition} {more : String → List String} (h : d.Cleared options stated)
    (hmore : ∀ name, ∀ tag ∈ stated name, tag ∈ more name) : d.Cleared options more :=
  fun name body hbody hinactive tag htag =>
    hmore name tag (h name body hbody hinactive tag htag)

/-- Tags that are joined are stated if those of both sides are. -/
theorem mem_stated_of_merge {overwrite : Bool} {l r : Fields} (hr : (Fields.keys r).Nodup)
    {allowed : List String}
    (hleft : (∀ tag ∈ profileTags l, options.isProfileEnabled tag = false) →
      ∀ tag ∈ profileTags l, tag ∈ allowed)
    (hright : (∀ tag ∈ profileTags r, options.isProfileEnabled tag = false) →
      ∀ tag ∈ profileTags r, tag ∈ allowed)
    (hinactive : ∀ tag ∈ profileTags (Fields.merge overwrite l r).1,
      options.isProfileEnabled tag = false) :
    ∀ tag ∈ profileTags (Fields.merge overwrite l r).1, tag ∈ allowed := by
  have hjoined (tag : String) :
      tag ∈ profileTags (Fields.merge overwrite l r).1 ↔
        tag ∈ profileTags l ∨ tag ∈ profileTags r :=
    mem_profileTags_merge overwrite l hr
  intro tag htag
  rcases (hjoined tag).1 htag with htag | htag
  · exact hleft (fun other ho => hinactive other ((hjoined other).2 (Or.inl ho))) tag htag
  · exact hright (fun other ho => hinactive other ((hjoined other).2 (Or.inr ho))) tag htag

/-- Merging one definition into another keeps it that inactive tags are stated. -/
theorem Cleared.merge {d source : Definition} {rule : MergeRule}
    (hrule : rule.admits attributesKey = true) (hd : d.Cleared options stated)
    (hsource : source.Cleared options stated) (h : source.WellFormed) :
    (d.merge rule source).definition.Cleared options stated := by
  intro name body hbody hinactive
  rcases attribute?_merge_cases hrule h hbody with hl | hr | ⟨l, r, hl, hr, rfl⟩
  · exact hd name body hl hinactive
  · exact hsource name body hr hinactive
  · rcases attribute?_eq_some_iff.1 hr with ⟨-, attributes, hattributes, hget⟩
    have hattribute := (Json.wellFormed_obj_iff.1 (h.obj?_get? hattributes)).2 _
      (Fields.mem_of_get?_eq_some hget)
    exact mem_stated_of_merge (Json.wellFormed_obj_iff.1 hattribute).1 (hd name l hl)
      (hsource name r hr) hinactive

/-- The attributes that were set are found. -/
theorem attributes?_set (d : Definition) (attributes : Fields) :
    (d.set attributesKey (.obj attributes)).attributes? = some attributes :=
  attributes?_eq_some_iff.2 (Fields.get?_set_self _ _ _)

/-- A new attribute leaves the slots of others. -/
theorem slot?_insertAttribute_of_ne (d : Definition) {name other : String} (body : Fields)
    (h : other ≠ name) : (d.insertAttribute name body).slot? other = d.slot? other := by
  rw [slot?, insertAttribute, attributes?_set, Option.bind_some, Fields.get?_set_of_ne _ _ h, slot?]
  cases d.attributes? <;> rfl

/-- A new attribute leaves others. -/
theorem attribute?_insertAttribute_of_ne (d : Definition) {name other : String} (body : Fields)
    (h : other ≠ name) : (d.insertAttribute name body).attribute? other = d.attribute? other := by
  rw [attribute?, d.slot?_insertAttribute_of_ne body h, attribute?]

/-- An inserted attribute is there, and the others stay. -/
theorem attribute?_insertAttribute_cases {d : Definition} {name other : String}
    {body inserted : Fields} (h : (d.insertAttribute name inserted).attribute? other = some body) :
    other = name ∧ body = inserted ∨ other ≠ name ∧ d.attribute? other = some body := by
  by_cases hname : other = name
  · subst hname
    have hplain := (attribute?_eq_some_iff.1 h).1
    rw [attribute?_insertAttribute d inserted hplain] at h
    exact Or.inl ⟨rfl, (Option.some.inj h).symm⟩
  · rw [attribute?_insertAttribute_of_ne d inserted hname] at h
    exact Or.inr ⟨hname, h⟩

/-- A name that is no directive is that of an attribute. -/
theorem attribute?_eq_slot? (d : Definition) {name : String} (h : isDirective name = false) :
    d.attribute? name = d.slot? name := by
  rw [attribute?, h]
  rfl

/-- A rule that admits everything merges all fields. -/
theorem apply_of_admits {rule : MergeRule} (h : ∀ key, rule.admits key = true)
    (left right : Fields) : rule.apply left right = Fields.merge rule.overwrite left right := by
  rw [MergeRule.apply, List.filter_eq_self.2 fun e _ => h e.1]

/-- To fill is to merge without overwriting. -/
theorem apply_fill (left right : Fields) :
    MergeRule.fill.apply left right = Fields.merge false left right :=
  apply_of_admits (fun _ => rfl) left right

/-- Filling an attribute from an entry adds tags that are stated there. -/
theorem Cleared.fillAttribute {d entry : Definition} {name : String} {revision : Revision}
    (h : d.fillAttribute name entry = .ok revision) (hd : d.Cleared options stated)
    (hentry : entry.WellFormed) (hstated : ∀ tag ∈ profileTags entry.fields, tag ∈ stated name) :
    revision.definition.Cleared options stated := by
  unfold Definition.fillAttribute at h
  split at h
  · rename_i filled hslot
    cases h
    rcases Option.map_eq_some_iff.1 hslot with ⟨l, hl, rfl⟩
    intro other body hbody hinactive
    rcases attribute?_insertAttribute_cases hbody with ⟨rfl, rfl⟩ | ⟨-, hkept⟩
    · have hleft := (d.attribute?_eq_slot? (attribute?_eq_some_iff.1 hbody).1).trans hl
      simp only [apply_fill] at hinactive ⊢
      exact mem_stated_of_merge hentry.distinct (hd other l hleft) (fun _ => hstated) hinactive
    · exact hd other body hkept hinactive
  · cases h

/-! ## Edits that leave tags alone -/

/-- The attributes after an edit have the tags from before, no tags, or an active one. -/
def KeepsTags (options : Options) (before after : Definition) : Prop :=
  ∀ name body, after.attribute? name = some body →
    (∃ old, before.attribute? name = some old ∧ profileTags old = profileTags body) ∨
      profileTags body = [] ∨ ∃ tag ∈ profileTags body, options.isProfileEnabled tag = true

theorem KeepsTags.refl (d : Definition) : KeepsTags options d d :=
  fun _ body hbody => Or.inl ⟨body, hbody, rfl⟩

theorem KeepsTags.trans {first second third : Definition} (h : KeepsTags options first second)
    (h' : KeepsTags options second third) : KeepsTags options first third := by
  intro name body hbody
  rcases h' name body hbody with ⟨old, hold, htags⟩ | hother
  · rw [← htags]
    rcases h name old hold with ⟨older, holder, heq⟩ | hother
    · exact Or.inl ⟨older, holder, heq⟩
    · exact Or.inr hother
  · exact Or.inr hother

/-- Where tags are left alone, inactive ones are stated as before. -/
theorem Cleared.of_keepsTags {before after : Definition} (h : before.Cleared options stated)
    (hkeeps : KeepsTags options before after) : after.Cleared options stated := by
  intro name body hbody hinactive
  rcases hkeeps name body hbody with ⟨old, hold, htags⟩ | hnone | ⟨active, hmem, hactive⟩
  · rw [← htags] at hinactive ⊢
    exact h name old hold hinactive
  · simp [hnone]
  · rw [hinactive active hmem] at hactive
    cases hactive

/-- Edits that keep tags keep them one after another. -/
theorem keepsTags_foldl {α : Type} {step : Definition → α → Definition} {items : List α}
    (hstep : ∀ (d : Definition), ∀ a ∈ items, KeepsTags options d (step d a)) (d : Definition) :
    KeepsTags options d (items.foldl step d) := by
  induction items generalizing d with
  | nil => exact .refl d
  | cons a rest ih =>
    exact (hstep d a List.mem_cons_self).trans
      (ih (fun d b hb => hstep d b (List.mem_cons_of_mem a hb)) (step d a))

/-- Fields other than the attributes do not matter to tags. -/
theorem keepsTags_set (d : Definition) {key : String} (hkey : key ≠ attributesKey) (value : Json) :
    KeepsTags options d (d.set key value) := by
  intro name body hbody
  have hattributes : (d.set key value).attributes? = d.attributes? := by
    rw [attributes?, get?_set_of_ne d value hkey.symm, attributes?]
  rw [attribute?, slot?, hattributes, ← slot?, ← attribute?] at hbody
  exact Or.inl ⟨body, hbody, rfl⟩

/-- A new attribute has no tags, or an active one. -/
theorem keepsTags_insertAttribute (d : Definition) (name : String) {body : Fields}
    (h : profileTags body = [] ∨ ∃ tag ∈ profileTags body, options.isProfileEnabled tag = true) :
    KeepsTags options d (d.insertAttribute name body) := by
  intro other found hfound
  rcases attribute?_insertAttribute_cases hfound with ⟨-, rfl⟩ | ⟨-, hkept⟩
  · exact Or.inr h
  · exact Or.inl ⟨found, hkept, rfl⟩

/-- An edit of an attribute that leaves its field for tags alone. -/
def LeavesTags (edit : Fields → Fields × List FieldPath) : Prop :=
  ∀ body, Fields.get? (edit body).1 profileKey = Fields.get? body profileKey

/-- An edit that leaves tags leaves the list of them. -/
theorem LeavesTags.profileTags_eq {edit : Fields → Fields × List FieldPath} (h : LeavesTags edit)
    (body : Fields) : profileTags (edit body).1 = profileTags body := by
  rw [profileTags, h body, profileTags]

/-- An edit of one attribute that leaves its tags keeps all tags. -/
theorem keepsTags_editSlot? {d : Definition} {name : String}
    {edit : Fields → Fields × List FieldPath} (hedit : LeavesTags edit) {revision : Revision}
    (h : d.editSlot? name edit = some revision) : KeepsTags options d revision.definition := by
  rcases Option.map_eq_some_iff.1 h with ⟨old, hold, rfl⟩
  intro other body hbody
  rcases attribute?_insertAttribute_cases hbody with ⟨rfl, rfl⟩ | ⟨-, hkept⟩
  · have hplain := (attribute?_eq_some_iff.1 hbody).1
    exact Or.inl ⟨old, (d.attribute?_eq_slot? hplain).trans hold, (hedit.profileTags_eq old).symm⟩
  · exact Or.inl ⟨body, hkept, rfl⟩

/-- An edit of one attribute, which need not be there, keeps all tags if it leaves its own. -/
theorem keepsTags_getD_editSlot? (d : Definition) (name : String)
    {edit : Fields → Fields × List FieldPath} (hedit : LeavesTags edit) :
    KeepsTags options d ((d.editSlot? name edit).getD d.unchanged).definition := by
  cases h : d.editSlot? name edit with
  | none => exact .refl d
  | some revision => exact keepsTags_editSlot? hedit h

/-- An edit of objects is carried out under each name. -/
theorem get?_editObjects (edit : String → Fields → Fields × List FieldPath) (fields : Fields)
    (name : String) :
    Fields.get? (editObjects edit fields).1 name =
      (Fields.get? fields name).map (objectAfter (edit name)) := by
  rw [editObjects_fst, Fields.get?_map_values fun name => objectAfter (edit name)]

/-- Editing each object among the attributes edits the one under a name. -/
theorem slot?_editSlots (d : Definition) (edit : String → Fields → Fields × List FieldPath)
    (name : String) :
    (d.editSlots edit).definition.slot? name =
      (d.slot? name).map fun body => (edit name body).1 := by
  unfold editSlots
  cases hattributes : d.attributes? with
  | none =>
    have hnone : d.slot? name = none := by rw [slot?, hattributes]; rfl
    exact hnone.trans (by rw [hnone]; rfl)
  | some attributes =>
    dsimp only
    rw [slot?, slot?, hattributes, attributes?_set]
    simp only [Option.bind_some, get?_editObjects]
    cases Fields.get? attributes name with
    | none => rfl
    | some value => cases value <;> rfl

/-- An edit of attributes is carried out under each name. -/
theorem attribute?_editSlots (d : Definition) (edit : String → Fields → Fields × List FieldPath)
    (name : String) :
    (d.editSlots edit).definition.attribute? name =
      (d.attribute? name).map fun body => (edit name body).1 := by
  unfold attribute?
  split
  · rfl
  · exact d.slot?_editSlots edit name

/-- Editing each attribute edits the one under a name. -/
theorem attribute?_editAttributes (d : Definition)
    (edit : String → Fields → Fields × List FieldPath) (name : String) :
    (d.editAttributes edit).definition.attribute? name =
      (d.attribute? name).map fun body => (edit name body).1 := by
  rw [editAttributes, attribute?_editSlots]
  cases hplain : isDirective name with
  | true => simp [attribute?, hplain]
  | false => rfl

/-- An edit of all attributes that leaves their tags keeps them. -/
theorem keepsTags_editAttributes (d : Definition) {edit : Fields → Fields × List FieldPath}
    (hedit : LeavesTags edit) :
    KeepsTags options d (d.editAttributes fun _ body => edit body).definition := by
  intro name body hbody
  rw [attribute?_editAttributes] at hbody
  rcases Option.map_eq_some_iff.1 hbody with ⟨old, hold, rfl⟩
  exact Or.inl ⟨old, hold, (hedit.profileTags_eq old).symm⟩

/-! ## Identifiers and types -/

/-- New enumeration members keep tags. -/
theorem keepsTags_setEnum (d : Definition) (name : String) (members : Fields) :
    KeepsTags options d (d.setEnum name members).definition := by
  unfold setEnum
  dsimp only
  split
  · rename_i revision h
    refine keepsTags_editSlot? (fun body => ?_) h
    split
    · rfl
    · exact Fields.get?_set_of_ne _ _ (by decide)
  · exact d.keepsTags_insertAttribute name (Or.inl rfl)

/-- A caption for an attribute keeps tags. -/
theorem keepsTags_labelAttribute (d : Definition) (name label : String) :
    KeepsTags options d (d.labelAttribute name label).definition := by
  refine d.keepsTags_getD_editSlot? name fun body => ?_
  dsimp only
  split
  · rfl
  · split
    · rfl
    · exact Fields.get?_set_of_ne _ _ (by decide)

/-- A category keeps tags. -/
theorem keepsTags_assignCategory (d : Definition) (uid : Int) (label : String)
    (description : Option String) :
    KeepsTags options d (d.assignCategory uid label description).definition :=
  (d.keepsTags_setEnum _ _).trans (keepsTags_labelAttribute _ _ _)

/-- The numbers of a class keep tags. -/
theorem keepsTags_assignClass (d : Definition) (uid : Int) (label : String)
    (description : Option String) :
    KeepsTags options d (d.assignClass uid label description).definition := by
  refine KeepsTags.trans ?_ ((keepsTags_setEnum _ _ _).trans (keepsTags_labelAttribute _ _ _))
  split
  · exact .refl d
  · exact d.keepsTags_set (by decide) _

/-- The types of a class keep tags. -/
theorem keepsTags_assignTypes {d : Definition} {classUid : Int} {label : String}
    {revision : Revision} (h : d.assignTypes classUid label = .ok revision) :
    KeepsTags options d revision.definition := by
  unfold assignTypes at h
  split at h
  · cases h
    exact .refl d
  · cases hmembers : typeMembers classUid label d.activities with
    | error cause => simp_all [Except.map]
    | ok members =>
      simp only [hmembers, Except.map] at h
      cases h
      exact d.keepsTags_setEnum _ _

/-- Observables keep tags. -/
theorem keepsTags_assignObservables (d : Definition) (assignments : ExtTreeMap String Int) :
    KeepsTags options d (d.assignObservables assignments).definition := by
  unfold assignObservables
  rw [definition_foldl_assignObservable]
  refine keepsTags_foldl (fun d e _ => ?_) d
  refine d.keepsTags_getD_editSlot? e.1 fun body => ?_
  split
  · rfl
  · exact Fields.get?_set_of_ne _ _ (by decide)

/-- A sibling has the tag of its profile. -/
theorem profileTags_sibling (body : Fields) : profileTags (sibling body) = [datetimeProfile] := by
  have hget : Fields.get? (sibling body) profileKey = some (.str datetimeProfile) := by
    rw [sibling, Fields.get?_set_of_ne _ _ (by decide), Fields.get?_set_self]
  rw [profileTags, hget]
  rfl

/-- Siblings keep tags as long as their own profile is enabled. -/
theorem keepsTags_addSiblings (d : Definition)
    (h : options.isProfileEnabled datetimeProfile = true) :
    KeepsTags options d d.addSiblings.definition := by
  refine keepsTags_foldl (fun d a _ => ?_) d
  refine d.keepsTags_insertAttribute _ (Or.inr ⟨datetimeProfile, ?_, h⟩)
  rw [profileTags_sibling]
  exact List.mem_singleton_self _

/-- What changes only types leaves tags. -/
theorem leavesTags_of_typesOnly {edit : Fields → Fields × List FieldPath}
    (h : ∀ body, TypesOnly body (edit body).1) : LeavesTags edit :=
  fun body => (h body).get? profileKey (by decide)

/-- Editing the types of attributes leaves their tags alone. -/
theorem keepsTags_editTyped (d : Definition) {kind : Kind} (hkind : kind ≠ .dictionary)
    {edit : Fields → Fields × List FieldPath} (hedit : LeavesTags edit) :
    KeepsTags options d (d.editTyped kind edit).definition := by
  unfold editTyped
  rw [if_neg hkind]
  exact d.keepsTags_editAttributes hedit

/-- Editing types leaves the tags of an entry of the dictionary alone. -/
theorem profileTags_editTyped (d : Definition) {kind : Kind} (hkind : kind = .dictionary)
    {edit : Fields → Fields × List FieldPath} (hedit : LeavesTags edit) :
    profileTags (d.editTyped kind edit).definition.fields = profileTags d.fields := by
  unfold editTyped
  rw [if_pos hkind]
  exact hedit.profileTags_eq d.fields

end Definition

/-- Whether an action completes definitions and leaves the tags of attributes alone. -/
def Action.leavesTags : Action → Bool
  | setCategory _ | assignCategory _ _ _ | assignClass _ _ _ _ | assignTypes _ _
  | assignObservables _ | prefixTypes _ | setObjectTypes _ | addSiblings => true
  | _ => false

/-- The edits behind the structural phase leave tags alone, except where the dictionary fills in. -/
theorem Operation.keepsTags_edit {op : Operation} (hop : op.action.leavesTags = true)
    (hkind : op.target.kind ≠ .dictionary) {options : Options}
    (hsiblings : op.action = .addSiblings →
      options.isProfileEnabled Definition.datetimeProfile = true)
    {draft : Draft} {d : Definition} {revision : Revision}
    (h : op.edit draft options d = .ok revision) :
    Definition.KeepsTags options d revision.definition := by
  rcases op with ⟨target, action⟩
  cases action with
  | setCategory category =>
    simp only [edit] at h
    split at h
    · cases h
      exact .refl d
    · split at h
      · cases h
      · cases h
        exact d.keepsTags_set (by decide) _
  | assignCategory uid label description =>
    cases h
    exact d.keepsTags_assignCategory uid label description
  | assignClass uid label description conflict =>
    simp only [edit] at h
    split at h
    · cases h
    · cases h
      exact d.keepsTags_assignClass uid label description
  | assignTypes classUid label => exact Definition.keepsTags_assignTypes h
  | assignObservables assignments =>
    cases h
    exact d.keepsTags_assignObservables assignments
  | prefixTypes renames =>
    cases h
    rcases d.exists_typesOnly_of_prefixTypes target.kind renames with ⟨edit, heq, hedit⟩
    rw [heq]
    exact d.keepsTags_editTyped hkind (Definition.leavesTags_of_typesOnly hedit)
  | setObjectTypes objects =>
    rcases Definition.exists_typesOnly_of_setObjectTypes h with ⟨edit, rfl, hedit⟩
    exact d.keepsTags_editTyped hkind (Definition.leavesTags_of_typesOnly hedit)
  | addSiblings =>
    cases h
    exact d.keepsTags_addSiblings (hsiblings rfl)
  | _ => cases hop

end EventSchema
