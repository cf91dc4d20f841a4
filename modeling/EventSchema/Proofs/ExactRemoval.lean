import EventSchema.Proofs.ProfileRemoval

/-!
# What removal leaves

One removal takes out of a record the attributes that have its profile as a tag and no active tag.
So what several removals take does not depend on their order, and all removals that are planned
leave each record with exactly the attributes that have no tag or an active one.

Main results:

- {lit}`Definition.filterAttributes_filterAttributes`: one removal after another.
- {lit}`Operation.get?_runAll_removals`: what any removals leave at a location.
- {lit}`Planner.removal_is_exact`: what the planned removals leave of a draft, in any order.
-/

namespace EventSchema

open Std

namespace Fields

/-- To set a field to its value changes nothing. -/
theorem set_of_get? {fields : Fields} {key : String} {value : Json}
    (h : Fields.get? fields key = some value) : Fields.set key value fields = fields := by
  induction fields with
  | nil => cases h
  | cons e rest ih =>
    obtain ⟨k, v⟩ := e
    rw [get?_cons] at h
    by_cases hk : key = k
    · rw [if_pos hk] at h
      cases h
      simp [set, hk]
    · rw [if_neg hk] at h
      simp [set, Ne.symm hk, ih h]

/-- A field that is set twice has the second value. -/
theorem set_set (fields : Fields) (key : String) (value value' : Json) :
    Fields.set key value' (Fields.set key value fields) = Fields.set key value' fields := by
  induction fields with
  | nil => simp [set]
  | cons e rest ih =>
    obtain ⟨k, v⟩ := e
    by_cases hk : k = key
    · simp [set, hk]
    · simp [set, hk, ih]

end Fields

namespace Definition

/-! ## Keeping some of the attributes -/

/-- Keep some of the values under the field for attributes. -/
def filterAttributes (d : Definition) (keep : String × Json → Bool) : Definition :=
  match d.attributes? with
  | none => d
  | some attributes => d.set attributesKey (.obj (attributes.filter keep))

/-- Without attributes there is nothing to filter. -/
theorem filterAttributes_of_none {d : Definition} (h : d.attributes? = none)
    (keep : String × Json → Bool) : d.filterAttributes keep = d := by
  rw [filterAttributes, h]

/-- The attributes are filtered in their place. -/
theorem filterAttributes_of_some {d : Definition} {attributes : Fields}
    (h : d.attributes? = some attributes) (keep : String × Json → Bool) :
    d.filterAttributes keep = d.set attributesKey (.obj (attributes.filter keep)) := by
  rw [filterAttributes, h]

/-- Filtered attributes are those that pass, in order. -/
theorem attributes?_filterAttributes (d : Definition) (keep : String × Json → Bool) :
    (d.filterAttributes keep).attributes? = d.attributes?.map (List.filter keep) := by
  cases h : d.attributes? with
  | none => rw [filterAttributes_of_none h, h, Option.map_none]
  | some attributes => rw [filterAttributes_of_some h, attributes?_set, Option.map_some]

/-- The attributes that are kept, if this is decided by name and fields. -/
theorem attributes_filterAttributes {d : Definition} {keep : String × Json → Bool}
    {retain : String × Fields → Bool}
    (h : ∀ name body, isDirective name = false → keep (name, .obj body) = retain (name, body)) :
    (d.filterAttributes keep).attributes = d.attributes.filter retain := by
  have hlist (attributes : Fields) :
      ((attributes.filter keep).filterMap fun e =>
        if isDirective e.1 then none else (Json.obj? e.2).map (e.1, ·)) =
      (attributes.filterMap fun e =>
        if isDirective e.1 then none else (Json.obj? e.2).map (e.1, ·)).filter retain := by
    rw [List.filterMap_filter, List.filter_filterMap]
    refine List.filterMap_congr fun e _ => ?_
    obtain ⟨name, value⟩ := e
    cases hname : isDirective name with
    | true => simp
    | false =>
      cases value with
      | obj body => simp [Json.obj?, h name body hname, Option.filter]
      | _ => simp [Json.obj?]
  rw [attributes, attributes?_filterAttributes, attributes]
  cases d.attributes? with
  | none => rfl
  | some attributes => exact hlist attributes

/-- Filters that agree on the attributes give the same definition. -/
theorem filterAttributes_congr {d : Definition} {keep keep' : String × Json → Bool}
    (h : ∀ attributes, d.attributes? = some attributes → ∀ e ∈ attributes, keep e = keep' e) :
    d.filterAttributes keep = d.filterAttributes keep' := by
  cases hattributes : d.attributes? with
  | none => rw [filterAttributes_of_none hattributes, filterAttributes_of_none hattributes]
  | some attributes =>
    rw [filterAttributes_of_some hattributes, filterAttributes_of_some hattributes,
      List.filter_congr (h attributes hattributes)]

/-- A filter that all attributes pass changes nothing. -/
theorem filterAttributes_eq_self {d : Definition} {keep : String × Json → Bool}
    (h : ∀ attributes, d.attributes? = some attributes → ∀ e ∈ attributes, keep e = true) :
    d.filterAttributes keep = d := by
  cases hattributes : d.attributes? with
  | none => exact filterAttributes_of_none hattributes keep
  | some attributes =>
    rw [filterAttributes_of_some hattributes, List.filter_eq_self.2 (h attributes hattributes), set,
      Fields.set_of_get? (fields_get?_of_attributes? hattributes)]

/-- What is kept twice is kept by both. -/
theorem filterAttributes_filterAttributes (d : Definition) (first second : String × Json → Bool) :
    (d.filterAttributes first).filterAttributes second =
      d.filterAttributes fun e => first e && second e := by
  cases h : d.attributes? with
  | none =>
    rw [filterAttributes_of_none h, filterAttributes_of_none h, filterAttributes_of_none h]
  | some attributes =>
    rw [filterAttributes_of_some h, filterAttributes_of_some h,
      filterAttributes_of_some (attributes?_set _ _), List.filter_filter, set, set, set,
      Fields.set_set]
    simp only [Bool.and_comm]

/-- To filter attributes changes nothing else. -/
theorem attributesOnly_filterAttributes (d : Definition) (keep : String × Json → Bool) :
    d.AttributesOnly (d.filterAttributes keep) := by
  unfold filterAttributes
  split
  · exact .refl d
  · exact d.attributesOnly_set _

/-- To filter attributes keeps all fields at the root. -/
theorem keys_filterAttributes (d : Definition) (keep : String × Json → Bool) :
    Fields.keys (d.filterAttributes keep).fields = Fields.keys d.fields := by
  cases h : d.attributes? with
  | none => rw [filterAttributes_of_none h]
  | some attributes =>
    have hmem := Fields.mem_of_get?_eq_some (fields_get?_of_attributes? h)
    rw [filterAttributes_of_some h, set, Fields.keys_set]
    exact if_pos (List.mem_map.2 ⟨_, hmem, rfl⟩)

/-- A removal keeps what is not inactive. -/
theorem definition_removeProfile (d : Definition) (profile : String) (options : Options) :
    (d.removeProfile profile options).definition =
      d.filterAttributes fun e => !isInactive profile options e.2 := by
  cases h : d.attributes? with
  | none => rw [removeProfile_noAttributes _ _ _ h, filterAttributes_of_none h, unchanged]
  | some attributes => simp only [removeProfile, h, filterAttributes_of_some h]

/-! ## Attributes without an active tag -/

/-- Whether an attribute has no tag or an active one. -/
def isRetained (options : Options) (body : Fields) : Bool :=
  (profileTags body).isEmpty || (profileTags body).any options.isProfileEnabled

/-- Whether a value under the field for attributes is no attribute, or one that is retained. -/
def outlastsRemoval (options : Options) (e : String × Json) : Bool :=
  isDirective e.1 || e.2.obj?.all (isRetained options)

/-- The second definition is the first one without the attributes that have no active tag. -/
structure RetainsActive (options : Options) (before after : Definition) : Prop where
  attributes : after.attributes = before.attributes.filter fun a => isRetained options a.2
  /-- Directives and values that are no objects stay between the attributes. -/
  values : after.attributes? = before.attributes?.map (List.filter (outlastsRemoval options))
  fields : ∀ key, key ≠ attributesKey →
    Fields.get? after.fields key = Fields.get? before.fields key
  keys : Fields.keys after.fields = Fields.keys before.fields

/-- The filter for active attributes retains exactly these. -/
theorem retainsActive_filterAttributes (d : Definition) (options : Options) :
    d.RetainsActive options (d.filterAttributes (outlastsRemoval options)) where
  attributes := attributes_filterAttributes fun name body hname => by
    simp [outlastsRemoval, hname, Json.obj?]
  values := d.attributes?_filterAttributes _
  fields := (d.attributesOnly_filterAttributes _).get?
  keys := d.keys_filterAttributes _

/-- An attribute is inactive for a profile if it has its tag and no tag of it is enabled. -/
theorem isInactive_obj {profile : String} {options : Options} {body : Fields} :
    isInactive profile options (.obj body) = true ↔ profile ∈ profileTags body ∧
      ∀ tag ∈ profileTags body, options.isProfileEnabled tag = false := by
  simp [isInactive, Json.obj?]

/-- An attribute is not retained if it has tags and none of them is enabled. -/
theorem isRetained_eq_false_iff {options : Options} {body : Fields} :
    isRetained options body = false ↔ profileTags body ≠ [] ∧
      ∀ tag ∈ profileTags body, options.isProfileEnabled tag = false := by
  simp [isRetained]

/-- The attributes that are not retained are those that some removal takes. -/
theorem isRetained_eq_true_iff {options : Options} {body : Fields} :
    isRetained options body = true ↔
      ∀ profile ∈ profileTags body, isInactive profile options (.obj body) = false := by
  constructor
  · intro hretained profile hprofile
    refine Bool.eq_false_iff.2 fun hinactive => ?_
    have hlost := isRetained_eq_false_iff.2
      ⟨List.ne_nil_of_mem hprofile, (isInactive_obj.1 hinactive).2⟩
    exact Bool.eq_false_iff.1 hlost hretained
  · intro hactive
    by_contra hlost
    obtain ⟨hne, hall⟩ := isRetained_eq_false_iff.1 (Bool.eq_false_iff.2 hlost)
    obtain ⟨tag, htag⟩ := List.exists_mem_of_ne_nil _ hne
    exact Bool.eq_false_iff.1 (hactive tag htag) (isInactive_obj.2 ⟨htag, hall⟩)

end Definition

namespace Operation

open Definition

/-! ## What removals leave -/

/-- Whether an operation leaves a value under the attributes of a location there. -/
def spares (op : Operation) (options : Options) (l : Location) (value : Json) : Bool :=
  match op.action with
  | .removeProfile profile => !(op.target == l && isInactive profile options value)
  | _ => true

/-- An attribute that all operations spare is inactive for none of the profiles to remove. -/
theorem all_spares_eq_true_iff {ops : List Operation} {options : Options} {l : Location}
    {value : Json} : (ops.all fun op => op.spares options l value) = true ↔
      ∀ profile, ⟨l, .removeProfile profile⟩ ∈ ops →
        isInactive profile options value = false := by
  rw [List.all_eq_true]
  constructor
  · intro hall profile hop
    simpa [spares] using hall _ hop
  · rintro hnone ⟨target, action⟩ hop
    cases action with
    | removeProfile profile =>
      by_cases htarget : target = l
      · subst htarget
        simp [spares, hnone profile hop]
      · simp [spares, htarget]
    | _ => rfl

/-- In a draft without failures a removal leaves what it spares, and does not fail. -/
theorem get?_run_removal {draft : Draft} (hintact : draft.Intact) (options : Options)
    {op : Operation} {profile : String} (hop : op.action = .removeProfile profile)
    (hthere : draft.contains op.target = true) {l : Location} {d : Definition}
    (hd : draft.get? l = some d) :
    (op.run draft options).Intact ∧ (op.run draft options).get? l =
      some (d.filterAttributes fun e => op.spares options l e.2) := by
  have hedits (draft : Draft) (options : Options) (d : Definition) :
      op.edit draft options d = .ok (d.removeProfile profile options) := by
    rw [edit, hop]
  have hreads : op.prerequisites = [] := by
    rw [prerequisites, hop]
    rfl
  have hsucceeds := isFailed_outcome_of_grounds
    (fun draft options d _ => ⟨_, hedits draft options d⟩) hintact
    (.of_contains hthere hreads) options
  refine ⟨intact_run hintact hsucceeds, ?_⟩
  by_cases htarget : op.target = l
  · subst htarget
    have hspares (e : String × Json) :
        op.spares options op.target e.2 = !isInactive profile options e.2 := by
      simp [spares, hop]
    simp only [hspares]
    rcases outcome_cases_of_get? options hd with
      ⟨hfailed, -⟩ | ⟨revision, hedit, ⟨-, hget⟩ | ⟨-, hget, hsame⟩⟩
    · rw [hsucceeds] at hfailed
      cases hfailed
    · cases (hedits draft options d).symm.trans hedit
      rw [hget, definition_removeProfile]
    · cases (hedits draft options d).symm.trans hedit
      rw [hget, filterAttributes_eq_self fun attributes hattributes e he => ?_]
      rw [isInactive_of_mem_unchanged hsame hattributes he, Bool.not_false]
  · rw [run_get?_of_ne op draft options htarget, hd, filterAttributes_eq_self]
    simp [spares, hop, htarget]

/-- In a draft without failures removals leave what each of them spares, and none fails. -/
theorem get?_runAll_removals {options : Options} {ops : List Operation}
    (hops : ∀ op ∈ ops, ∃ profile, op.action = .removeProfile profile) {draft : Draft}
    (hintact : draft.Intact) (hthere : ∀ op ∈ ops, draft.contains op.target = true) :
    (runAll options draft ops).Intact ∧ ∀ l d, draft.get? l = some d →
      (runAll options draft ops).get? l =
        some (d.filterAttributes fun e => ops.all fun op => op.spares options l e.2) := by
  induction ops generalizing draft with
  | nil =>
    refine ⟨hintact, fun l d hd => ?_⟩
    rw [filterAttributes_eq_self fun _ _ _ _ => List.all_nil, runAll_nil, hd]
  | cons op rest ih =>
    obtain ⟨profile, hop⟩ := hops op List.mem_cons_self
    have hhere := hthere op List.mem_cons_self
    have hrun {l : Location} {d : Definition} (hd : draft.get? l = some d) :=
      get?_run_removal hintact options hop hhere hd
    obtain ⟨target, htarget⟩ := Option.isSome_iff_exists.1 hhere
    obtain ⟨hrest, hkept⟩ := ih (fun other ho => hops other (List.mem_cons_of_mem op ho))
      (hrun htarget).1
      fun other ho => contains_run op options (hthere other (List.mem_cons_of_mem op ho))
    refine ⟨hrest, fun l d hd => ?_⟩
    rw [runAll_cons, hkept l _ (hrun hd).2, filterAttributes_filterAttributes]
    simp only [List.all_cons]

end Operation

/-- No directive among the attributes of a record has a tag. -/
def Draft.PlainDirectives (draft : Draft) : Prop :=
  ∀ l d attributes, l.isCore = true → l.kind ∈ Kind.records → draft.get? l = some d →
    d.attributes? = some attributes → ∀ name body, (name, .obj body) ∈ attributes →
      Definition.isDirective name = true → Definition.profileTags body = []

namespace Planner

open Definition Operation

/-- All planned removals spare what is no attribute and the attributes that are retained. -/
theorem all_spares_removeProfiles {draft : Draft} (hplain : draft.PlainDirectives)
    {options : Options} {l : Location} {d : Definition} (hcore : l.isCore = true)
    (hkind : l.kind ∈ Kind.records) (hd : draft.get? l = some d) {attributes : Fields}
    (hattributes : d.attributes? = some attributes) {e : String × Json} (he : e ∈ attributes) :
    ((removeProfiles draft options).all fun op => op.spares options l e.2) =
      outlastsRemoval options e := by
  obtain ⟨name, value⟩ := e
  rw [Bool.eq_iff_iff, all_spares_eq_true_iff]
  cases value with
  | obj body =>
    cases hname : isDirective name with
    | true =>
      have hnone := hplain l d attributes hcore hkind hd hattributes name body he hname
      simp [outlastsRemoval, hname, isInactive, Json.obj?, hnone]
    | false =>
      have hlisted : (name, body) ∈ d.attributes := by
        rw [Definition.attributes, hattributes]
        exact List.mem_filterMap.2 ⟨_, he, by simp [hname, Json.obj?]⟩
      have houtlasts : outlastsRemoval options (name, .obj body) = isRetained options body := by
        simp [outlastsRemoval, hname, Json.obj?]
      rw [houtlasts, isRetained_eq_true_iff]
      constructor
      · intro hplanned tag htag
        refine Bool.eq_false_iff.2 fun hinactive => ?_
        have hoff := (isInactive_obj.1 hinactive).2 tag htag
        have hremoval := mem_removeProfiles hd hcore hkind hlisted htag hoff
        exact Bool.eq_false_iff.1 (hplanned tag hremoval) hinactive
      · intro htags profile _
        refine Bool.eq_false_iff.2 fun hinactive => ?_
        exact Bool.eq_false_iff.1 (htags profile (isInactive_obj.1 hinactive).1) hinactive
  | _ => simp [outlastsRemoval, isInactive, Json.obj?]

/--
The planned removals, in any order, leave each record in core with exactly the attributes that have
no tag or an active one, and everything else as it is; none fails.
-/
theorem removal_is_exact {draft : Draft} (hintact : draft.Intact) (hplain : draft.PlainDirectives)
    (options : Options) {ops : List Operation} (hops : ops.Perm (removeProfiles draft options)) :
    (runAll options draft ops).Intact ∧
      (∀ l d, l.isCore = true → l.kind ∈ Kind.records → draft.get? l = some d →
        ∃ after, (runAll options draft ops).get? l = some after ∧
          d.RetainsActive options after) ∧
      ∀ l, (l.isCore = true → l.kind ∈ Kind.records → draft.get? l = none) →
        (runAll options draft ops).SameAt draft l := by
  have hremovals (op : Operation) (hop : op ∈ ops) :=
    exists_of_mem_removeProfiles (hops.mem_iff.1 hop)
  obtain ⟨hrest, hkept⟩ := get?_runAll_removals (fun op hop => (hremovals op hop).2) hintact
    fun op hop => (hremovals op hop).1.2.2
  refine ⟨hrest, fun l d hcore hkind hd => ?_, fun l hother => ?_⟩
  · refine ⟨_, (hkept l d hd).trans (congrArg some ?_), d.retainsActive_filterAttributes options⟩
    refine filterAttributes_congr fun attributes hattributes e he => ?_
    rw [hops.all_eq, all_spares_removeProfiles hplain hcore hkind hd hattributes he]
  · refine sameAt_runAll_of_forall_ne options (fun op hop htarget => ?_) draft
    obtain ⟨hcore, hkind, hthere⟩ := (hremovals op hop).1
    rw [htarget] at hcore hkind hthere
    rw [Draft.contains, hother hcore hkind] at hthere
    cases hthere

/-- A class with attributes of some profiles, and a reference among them. -/
def taggedClass : Definition :=
  ⟨[("name", .str "a"), ("attributes", .obj [("$include", .str "profiles/cloud.json"),
    ("both", .obj [("profile", .arr [.str "cloud", .str "host"])]),
    ("host", .obj [("profile", .str "host")]),
    ("mixed", .obj [("profile", .arr [.str "cloud", .str "linux"])]),
    ("plain", .obj [])])]⟩

/-- Nothing but that class. -/
def taggedDraft : Draft :=
  (Draft.ofRepository .empty).write (.inCore .eventClass "a") taggedClass

/-- Two of the profiles are left out. -/
def withoutCloudAndHost : Options :=
  { ignoredProfiles := ExtTreeSet.ofList ["cloud", "host"] }

theorem plainDirectives_taggedDraft : taggedDraft.PlainDirectives := by
  intro l d attributes _ _ hd hattributes name body hmem hname
  rw [taggedDraft, Draft.get?_write] at hd
  split at hd
  · cases hd
    cases hattributes
    simp only [List.mem_cons, Prod.mk.injEq, List.not_mem_nil, or_false, reduceCtorEq,
      and_false, false_or] at hmem
    rcases hmem with ⟨rfl, -⟩ | ⟨rfl, -⟩ | ⟨rfl, -⟩ | ⟨rfl, -⟩ <;> cases hname
  · rw [Draft.get?_ofRepository, Repository.get?_empty] at hd
    cases hd

/-- The removals of two profiles, the last one first, leave what has a third profile or none. -/
theorem tagged_class_keeps_two_attributes :
    (removeProfiles taggedDraft withoutCloudAndHost).length = 2 ∧
      ∃ after, (runAll withoutCloudAndHost taggedDraft
          (removeProfiles taggedDraft withoutCloudAndHost).reverse).get?
            (.inCore .eventClass "a") = some after ∧
        after.attributeNames = ["mixed", "plain"] := by
  have hintact : taggedDraft.Intact := fun l => Draft.failure?_ofRepository .empty l
  obtain ⟨-, hrecords, -⟩ := removal_is_exact hintact plainDirectives_taggedDraft
    withoutCloudAndHost (List.reverse_perm (removeProfiles taggedDraft withoutCloudAndHost))
  have hthere : taggedDraft.get? (.inCore .eventClass "a") = some taggedClass := by
    rw [taggedDraft, Draft.get?_write, if_pos rfl]
  obtain ⟨after, hafter, hretains⟩ := hrecords _ _ rfl (by decide) hthere
  refine ⟨by decide +kernel, after, hafter, ?_⟩
  rw [Definition.attributeNames, hretains.attributes]
  decide +kernel

end Planner

end EventSchema
