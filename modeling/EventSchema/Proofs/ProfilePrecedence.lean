import EventSchema.Proofs.ExactOutcomes
import EventSchema.Proofs.MergeAssociativity

/-!
# Precedence of profiles

What a definition includes fills its gaps, and the first value that comes to a gap stays.  Profiles
are therefore included in the order of their ranks, the highest one first, after everything else
that a definition includes; profiles of one rank stay in the order of their references.

A gap is a path that leads through objects to no value.  An include from a source with the same gap
leaves it open, one from a source with a scalar there puts the scalar in, and no later include takes
the scalar away.  Hence the value at a gap is the first offer in the order of includes, and since
the order is a stable sort this is the offer of the first profile of the highest rank.

Sources other than profiles count as they are when they are included: an object that has included a
profile of its own by then brings the values of this profile with it.

Main results:

- {lit}`Json.hasGap_merge_fill`, {lit}`Json.at?_merge_fill_of_hasGap`: what filling does to a gap.
- {lit}`Planner.exists_holds_runAll`: after some includes the first offer is there.
- {lit}`Planner.filter_arrangeIncludes`: profiles of one rank stay in their order.
- {lit}`Planner.exists_prevails_of_findSome?`: the first offer is that of the profile that prevails.
- {lit}`Planner.highest_profile_prevails`: the profile of the highest rank decides.
-/

namespace EventSchema

open Std

namespace Json

/-! ## Gaps -/

/-- A path leads through objects to no value. -/
def hasGap : Json → FieldPath → Bool
  | .null, _ => true
  | .obj fields, key :: rest => (Fields.get? fields key).all fun value => value.hasGap rest
  | _, _ => false

/-- A value with a gap is an object, and what it has on the way has the rest of the gap. -/
theorem exists_of_hasGap {value : Json} {path : FieldPath} (h : value.hasGap path = true)
    (hvalue : value.isNull = false) :
    ∃ fields key rest, value = .obj fields ∧ path = key :: rest ∧
      ∀ inner, Fields.get? fields key = some inner → inner.hasGap rest = true := by
  cases value with
  | null => cases hvalue
  | obj fields =>
    cases path with
    | nil => cases h
    | cons key rest =>
      refine ⟨fields, key, rest, rfl, rfl, fun inner hinner => ?_⟩
      rw [hasGap, hinner] at h
      exact h
  | _ => cases path <;> cases h

/-- An object has a gap where the value under the first key has one, if it is there. -/
theorem hasGap_cons_iff {fields : Fields} {key : String} {rest : FieldPath} :
    (Json.obj fields).hasGap (key :: rest) = true ↔
      ∀ inner, Fields.get? fields key = some inner → inner.hasGap rest = true := by
  rw [hasGap, Option.all_eq_true]

/-- There is no value in a gap. -/
theorem isNull_of_hasGap {value inner : Json} {path : FieldPath} (h : value.hasGap path = true)
    (hinner : value.at? path = some inner) : inner.isNull = true := by
  induction path generalizing value with
  | nil =>
    rw [at?_nil, Option.some.injEq] at hinner
    subst hinner
    cases value with
    | null => rfl
    | _ => cases h
  | cons key rest ih =>
    obtain ⟨fields, next, rfl, hnext, hinner⟩ := exists_of_at?_cons hinner
    exact ih (hasGap_cons_iff.1 h next hnext) hinner

/-- A gap that neither side fills is there after filling. -/
theorem hasGap_merge_fill {path : FieldPath} (hpath : profileKey ∉ path) {left right : Json}
    (hwellFormed : right.WellFormed) (hleft : left.hasGap path = true)
    (hright : right.hasGap path = true) (hmine : left.isNull = false)
    (hother : right.isNull = false) : (merge false left right).1.hasGap path = true := by
  induction path generalizing left right with
  | nil =>
    obtain ⟨_, _, _, -, hnil, -⟩ := exists_of_hasGap hleft hmine
    cases hnil
  | cons key rest ih =>
    obtain ⟨hkey, hrest⟩ := List.ne_and_not_mem_of_not_mem_cons hpath
    obtain ⟨l, _, _, rfl, ⟨⟩, hl⟩ := exists_of_hasGap hleft hmine
    obtain ⟨r, _, _, rfl, ⟨⟩, hr⟩ := exists_of_hasGap hright hother
    obtain ⟨hdistinct, hpatches⟩ := wellFormed_obj_iff.1 hwellFormed
    rw [merge, hasGap_cons_iff]
    by_cases hpatch : Fields.HasValue r key
    · obtain ⟨patch, hpatch, hsome⟩ := hpatch
      by_cases hexisting : Fields.HasValue l key
      · obtain ⟨existing, hexisting, hthere⟩ := hexisting
        rw [Fields.get?_merge_of_values false hdistinct hkey.symm hexisting hthere hpatch hsome]
        rintro _ ⟨⟩
        exact ih hrest (hpatches _ (Fields.mem_of_get?_eq_some hpatch)) (hl existing hexisting)
          (hr patch hpatch) hthere hsome
      · rw [Fields.get?_merge_of_not_hasValue_left false hdistinct hexisting hpatch hsome]
        rintro _ ⟨⟩
        exact hr patch hpatch
    · rw [Fields.get?_merge_of_not_hasValue_right false hdistinct hpatch]
      exact hl

/-- Filling puts a value into a gap. -/
theorem at?_merge_fill_of_hasGap {path : FieldPath} (hpath : profileKey ∉ path)
    {left right value : Json} (hwellFormed : right.WellFormed) (hleft : left.hasGap path = true)
    (hmine : left.isNull = false) (hvalue : right.at? path = some value)
    (hnull : value.isNull = false) : (merge false left right).1.at? path = some value := by
  induction path generalizing left right with
  | nil =>
    obtain ⟨_, _, _, -, hnil, -⟩ := exists_of_hasGap hleft hmine
    cases hnil
  | cons key rest ih =>
    obtain ⟨hkey, hrest⟩ := List.ne_and_not_mem_of_not_mem_cons hpath
    obtain ⟨l, _, _, rfl, ⟨⟩, hl⟩ := exists_of_hasGap hleft hmine
    obtain ⟨r, patch, rfl, hpatch, hinner⟩ := exists_of_at?_cons hvalue
    obtain ⟨hdistinct, hpatches⟩ := wellFormed_obj_iff.1 hwellFormed
    have hsome := isNull_of_at? hinner hnull
    rw [merge, at?_cons]
    by_cases hexisting : Fields.HasValue l key
    · obtain ⟨existing, hexisting, hthere⟩ := hexisting
      rw [Fields.get?_merge_of_values false hdistinct hkey.symm hexisting hthere hpatch hsome]
      exact ih hrest (hpatches _ (Fields.mem_of_get?_eq_some hpatch)) (hl existing hexisting)
        hthere hinner
    · rw [Fields.get?_merge_of_not_hasValue_left false hdistinct hexisting hpatch hsome]
      exact hinner

end Json

namespace Definition

/-! ## Includes at a path -/

/-- A path to a field of an attribute. -/
def fieldPath (name field : String) : FieldPath := [attributesKey, name, field]

/-- The rule by which an include of some scope fills. -/
def includeRule : IncludeScope → MergeRule
  | .definition => MergeRule.fill.ignoring [includeKey]
  | .attributes => MergeRule.fill.only [attributesKey]

/-- An include is a merge. -/
theorem includeFrom_eq (d source : Definition) (scope : IncludeScope) :
    d.includeFrom source scope = d.merge (includeRule scope) source := by
  cases scope <;> rfl

/-- Includes overwrite nothing. -/
theorem overwrite_includeRule (scope : IncludeScope) : (includeRule scope).overwrite = false := by
  cases scope <;> rfl

/-- Includes bring attributes. -/
theorem admits_includeRule (scope : IncludeScope) :
    (includeRule scope).admits attributesKey = true := by
  cases scope <;> decide

section

variable {d source : Definition} {scope : IncludeScope} {name field : String}

/-- What an include does at the path of a field is a merge with the source at this path. -/
theorem exists_includeFrom (hsource : source.WellFormed) (d : Definition) (scope : IncludeScope) :
    ∃ admitted : Fields, (Json.obj admitted).WellFormed ∧
      Fields.get? admitted attributesKey = Fields.get? source.fields attributesKey ∧
      (d.includeFrom source scope).definition.toJson =
        (Json.merge false d.toJson (.obj admitted)).1 := by
  refine ⟨(includeRule scope).admitted source.fields, MergeRule.wellFormed_admitted hsource, ?_, ?_⟩
  · exact Fields.get?_filter_keys _ _ (admits_includeRule scope)
  · rw [includeFrom_eq, toJson, toJson, merge, MergeRule.apply, Json.merge,
      overwrite_includeRule]
    rfl

/-- A field of an attribute does not stand below profile tags. -/
theorem profileKey_not_mem_fieldPath (hname : name ≠ profileKey) (hfield : field ≠ profileKey) :
    profileKey ∉ fieldPath name field := by
  have hattributes : profileKey ≠ attributesKey := by decide
  simp [fieldPath, hattributes, hname.symm, hfield.symm]

/-- A gap stays if the included file has it as well. -/
theorem hasGap_includeFrom (hpath : profileKey ∉ fieldPath name field)
    (hsource : source.WellFormed) (hd : d.toJson.hasGap (fieldPath name field) = true)
    (hgap : source.toJson.hasGap (fieldPath name field) = true) :
    (d.includeFrom source scope).definition.toJson.hasGap (fieldPath name field) = true := by
  obtain ⟨admitted, hadmitted, hattributes, heq⟩ := exists_includeFrom hsource d scope
  rw [heq]
  refine Json.hasGap_merge_fill hpath hadmitted hd ?_ rfl rfl
  rw [toJson, fieldPath, Json.hasGap_cons_iff] at hgap
  rwa [fieldPath, Json.hasGap_cons_iff, hattributes]

/-- A gap is filled from the included file. -/
theorem at?_includeFrom_of_hasGap (hpath : profileKey ∉ fieldPath name field)
    (hsource : source.WellFormed) (hd : d.toJson.hasGap (fieldPath name field) = true)
    {value : Json} (hvalue : source.toJson.at? (fieldPath name field) = some value)
    (hnull : value.isNull = false) :
    (d.includeFrom source scope).definition.toJson.at? (fieldPath name field) = some value := by
  obtain ⟨admitted, hadmitted, hattributes, heq⟩ := exists_includeFrom hsource d scope
  rw [heq]
  refine Json.at?_merge_fill_of_hasGap hpath hadmitted hd rfl ?_ hnull
  rw [toJson, fieldPath, Json.at?_cons] at hvalue
  rwa [fieldPath, Json.at?_cons, hattributes]

/-- A scalar stays whatever is included. -/
theorem at?_includeFrom_of_isScalar (hpath : profileKey ∉ fieldPath name field)
    (hsource : source.WellFormed) {value : Json}
    (hvalue : d.toJson.at? (fieldPath name field) = some value) (hscalar : value.isScalar = true) :
    (d.includeFrom source scope).definition.toJson.at? (fieldPath name field) = some value := by
  obtain ⟨admitted, hadmitted, -, heq⟩ := exists_includeFrom hsource d scope
  obtain ⟨other, hother⟩ :=
    Json.exists_at?_merge_fill hpath hadmitted hvalue (Json.isNull_of_isScalar hscalar)
  rw [heq, hother]
  cases value <;> cases other <;> simp_all [Json.isScalar, Json.merge, Json.replace]

end

end Definition

namespace Operation

/-! ## Runs of includes -/

/-- An include in a draft without failures fills its target from what is at its source. -/
theorem get?_run_includeFrom {draft : Draft} (hdraft : draft.WellFormed) (hintact : draft.Intact)
    {l source : Location} {d other : Definition} (hd : draft.get? l = some d)
    (hother : draft.get? source = some other) (scope : IncludeScope) (options : Options) :
    ((⟨l, .includeFrom source scope⟩ : Operation).run draft options).get? l =
      some (d.includeFrom other scope).definition := by
  have hedit : (⟨l, .includeFrom source scope⟩ : Operation).edit draft options d =
      .ok (d.includeFrom other scope) := by
    simp only [edit, Operation.source, hother]
    rfl
  have hsucceeds : ((⟨l, .includeFrom source scope⟩ : Operation).outcome draft options).isFailed =
      false := by
    rw [outcome, blocked?_of_intact hintact]
    dsimp only
    rw [apply_eq hd hedit]
    split <;> rfl
  rw [Definition.includeFrom_eq] at hedit ⊢
  exact get?_run_of_merge (hdraft source other hother) hd hedit hsucceeds

end Operation

namespace Planner

open Definition Operation

variable {draft : Draft} {options : Options} {l : Location} {d : Definition}

/-- A planner of the structural phase leaves a draft without failures at any time. -/
theorem established_of_analyze {planner : Planner} (hplanner : planner ∈ Phase.structural.planners)
    (hfiles : draft.repository.Hosted) (hintact : draft.Intact) {ops before after : List Operation}
    (h : planner.analyze draft options = .ok ops) (hsplit : ops = before ++ after) :
    Established (runAll options draft before) before :=
  established_of_grounds hintact options
    (fun _ hop => isTotal_of_emits hplanner (emits_of_mem h hop))
    (fun _ hop => grounds_of_mem hplanner hfiles h hop) hsplit

/-- The operations for what a definition includes. -/
def includesInto (l : Location) (found : List (Location × IncludeScope)) : List Operation :=
  found.map fun e => ⟨l, .includeFrom e.1 e.2⟩

/-- The includes of a definition stand together. -/
theorem exists_split_includeFiles (options : Options) (hd : draft.get? l = some d)
    (hcore : l.isCore = true) (hkind : l.kind ∈ Kind.withAttributes) :
    ∃ before after, includeFiles draft options =
        before ++ (includesInto l (arrangeIncludes options (includesOf draft l d)) ++ after) ∧
      (∀ op ∈ before, op.target ≠ l) ∧ ∀ op ∈ after, op.target ≠ l := by
  obtain ⟨first, last, hsplit⟩ := List.append_of_mem (Draft.mem_core.2 ⟨hd, hcore, hkind⟩)
  have hordered := draft.ordered_core Kind.withAttributes
  rw [hsplit] at hordered
  obtain ⟨-, hlast, hfirst⟩ := List.pairwise_append.1 hordered
  refine ⟨_, _, by rw [includeFiles, hsplit, List.flatMap_append, List.flatMap_cons]; rfl,
    fun op hop htarget => ?_, fun op hop htarget => ?_⟩
  · obtain ⟨e, he, hop⟩ := List.mem_flatMap.1 hop
    obtain ⟨_, -, rfl⟩ := List.mem_map.1 hop
    have hlt := hfirst e he (l, d) List.mem_cons_self
    rw [show e.1 = l from htarget, ReflOrd.compare_self] at hlt
    cases hlt
  · obtain ⟨e, he, hop⟩ := List.mem_flatMap.1 hop
    obtain ⟨_, -, rfl⟩ := List.mem_map.1 hop
    have hlt := (List.pairwise_cons.1 hlast).1 e he
    rw [show e.1 = l from htarget, ReflOrd.compare_self] at hlt
    cases hlt

/-! ## What profiles offer -/

/-- The value that an include of a profile brings to a path. -/
def offered? (draft : Draft) (path : FieldPath) (e : Location × IncludeScope) : Option Json :=
  if e.1.kind = .profile then
    ((draft.get? e.1).bind fun p => p.toJson.at? path).filter fun value => !value.isNull
  else none

/-- A definition leaves the value at a path to the profiles that it includes: it has none itself,
and each of these profiles has a scalar there or none, and is the target of no include. -/
structure LeftToProfiles (draft : Draft) (ops : List Operation) (l : Location) (d : Definition)
    (path : FieldPath) : Prop where
  own : d.toJson.hasGap path = true
  settled : ∀ e ∈ includesOf draft l d, e.1.kind = .profile → ∀ op ∈ ops, op.target ≠ e.1
  offers : ∀ e ∈ includesOf draft l d, e.1.kind = .profile → ∀ p ∈ draft.get? e.1,
    p.toJson.hasGap path = true ∨ ∃ value ∈ p.toJson.at? path, value.isScalar = true

instance (draft : Draft) (ops : List Operation) (l : Location) (d : Definition)
    (path : FieldPath) : Decidable (LeftToProfiles draft ops l d path) :=
  decidable_of_iff (d.toJson.hasGap path = true ∧
      (∀ e ∈ includesOf draft l d, e.1.kind = .profile → ∀ op ∈ ops, op.target ≠ e.1) ∧
      ∀ e ∈ includesOf draft l d, e.1.kind = .profile → ∀ p ∈ draft.get? e.1,
        p.toJson.hasGap path = true ∨ ∃ value ∈ p.toJson.at? path, value.isScalar = true)
    ⟨fun h => ⟨h.1, h.2.1, h.2.2⟩, fun h => ⟨h.own, h.settled, h.offers⟩⟩

/-- A profile has a gap, or a scalar that is what it offers. -/
theorem LeftToProfiles.cases {ops : List Operation} {path : FieldPath}
    (h : LeftToProfiles draft ops l d path)
    {e : Location × IncludeScope} (he : e ∈ includesOf draft l d)
    (hkind : e.1.kind = .profile) {p : Definition} (hp : draft.get? e.1 = some p) :
    p.toJson.hasGap path = true ∧ offered? draft path e = none ∨
      ∃ value, p.toJson.at? path = some value ∧ value.isScalar = true ∧
        offered? draft path e = some value := by
  rcases h.offers e he hkind p hp with hgap | ⟨value, hvalue, hscalar⟩
  · left
    refine ⟨hgap, ?_⟩
    rw [offered?, if_pos hkind, hp, Option.bind_some, Option.filter_eq_none_iff]
    intro value hvalue
    simp [Json.isNull_of_hasGap hgap hvalue]
  · right
    refine ⟨value, hvalue, hscalar, ?_⟩
    rw [offered?, if_pos hkind, hp, Option.bind_some, hvalue, Option.filter_some,
      Json.isNull_of_isScalar hscalar]
    rfl

/-- What profiles have offered in the course of a run: nothing, or a scalar that is there. -/
def Holds (draft : Draft) (path : FieldPath) (done : List (Location × IncludeScope))
    (here : Definition) : Prop :=
  done.findSome? (offered? draft path) = none ∧ here.toJson.hasGap path = true ∨
    ∃ value, done.findSome? (offered? draft path) = some value ∧ value.isScalar = true ∧
      here.toJson.at? path = some value

/-- One more include keeps what has been offered before, or brings what it offers. -/
theorem Holds.includeFrom {name field : String}
    (hpath : profileKey ∉ fieldPath name field) {done : List (Location × IncludeScope)}
    {here other : Definition} (hhere : Holds draft (fieldPath name field) done here)
    (hother : other.WellFormed) {e : Location × IncludeScope}
    (he : other.toJson.hasGap (fieldPath name field) = true ∧
        offered? draft (fieldPath name field) e = none ∨
      ∃ value, other.toJson.at? (fieldPath name field) = some value ∧ value.isScalar = true ∧
        offered? draft (fieldPath name field) e = some value) :
    Holds draft (fieldPath name field) (done ++ [e]) (here.includeFrom other e.2).definition := by
  unfold Holds at hhere ⊢
  rw [List.findSome?_append, List.findSome?_singleton]
  rcases hhere with ⟨hnone, hgap⟩ | ⟨value, hvalue, hscalar, hthere⟩
  · rw [hnone, Option.none_or]
    rcases he with ⟨hother', hoffered⟩ | ⟨value, hvalue, hscalar, hoffered⟩
    · exact .inl ⟨hoffered, hasGap_includeFrom hpath hother hgap hother'⟩
    · exact .inr ⟨value, hoffered, hscalar, at?_includeFrom_of_hasGap hpath hother hgap hvalue
        (Json.isNull_of_isScalar hscalar)⟩
  · right
    rw [hvalue, Option.some_or]
    exact ⟨value, rfl, hscalar, at?_includeFrom_of_isScalar hpath hother hthere hscalar⟩

/-- After some of the includes of a definition, the first offer is there. -/
theorem exists_holds_runAll (hdraft : draft.WellFormed) (hintact : draft.Intact)
    (hfiles : draft.repository.Hosted) (hd : draft.get? l = some d) {name field : String}
    (hpath : profileKey ∉ fieldPath name field)
    (h : LeftToProfiles draft (includeFiles draft options) l d (fieldPath name field))
    (hothers : ∀ before source scope after, includeFiles draft options =
        before ++ ⟨l, .includeFrom source scope⟩ :: after → source.kind ≠ .profile →
      ∀ other, (runAll options draft before).get? source = some other →
        other.toJson.hasGap (fieldPath name field) = true)
    {first last : List Operation} (hfirst : ∀ op ∈ first, op.target ≠ l)
    (hsplit : includeFiles draft options =
      first ++ (includesInto l (arrangeIncludes options (includesOf draft l d)) ++ last))
    {done rest : List (Location × IncludeScope)}
    (hdone : arrangeIncludes options (includesOf draft l d) = done ++ rest) :
    ∃ here, (runAll options draft (first ++ includesInto l done)).get? l = some here ∧
      Holds draft (fieldPath name field) done here := by
  induction done using List.reverseRecOn generalizing rest with
  | nil =>
    have hkept := (sameAt_runAll_of_forall_ne options hfirst draft).definition
    refine ⟨d, ?_, .inl ⟨rfl, h.own⟩⟩
    rw [includesInto, List.map_nil, List.append_nil, hkept, hd]
  | append_singleton done e ih =>
    rw [List.append_assoc, List.singleton_append] at hdone
    obtain ⟨here, hhere, hholds⟩ := ih hdone
    have hnow : includeFiles draft options = (first ++ includesInto l done) ++
        ⟨l, .includeFrom e.1 e.2⟩ :: (includesInto l rest ++ last) := by
      simp [hsplit, hdone, includesInto]
    have harranged : e ∈ arrangeIncludes options (includesOf draft l d) :=
      hdone ▸ List.mem_append_cons_self
    have hfound := mem_arrangeIncludes.1 harranged
    have hstructural : includes ∈ Phase.structural.planners := by decide
    have hseen := (established_of_analyze hstructural hfiles hintact rfl hnow).intact
    have hop : ⟨l, .includeFrom e.1 e.2⟩ ∈ includeFiles draft options :=
      hnow ▸ List.mem_append_cons_self
    have hthere := (grounds_of_mem hstructural hfiles rfl hop).sources e.1
      (List.mem_singleton_self e.1)
    obtain ⟨other, hother⟩ := Option.isSome_iff_exists.1
      (contains_runAll options hthere (first ++ includesInto l done))
    have hwellFormed := hdraft.runAll options (first ++ includesInto l done)
    refine ⟨(here.includeFrom other e.2).definition, ?_, hholds.includeFrom hpath
      (hwellFormed e.1 other hother) ?_⟩
    · have hrun := get?_run_includeFrom hwellFormed hseen hhere hother e.2 options
      rw [← hrun, includesInto, List.map_append, ← List.append_assoc, runAll_append]
      rfl
    · by_cases hkind : e.1.kind = .profile
      · refine h.cases hfound hkind ?_
        rw [← hother]
        refine (sameAt_runAll_of_forall_ne options (fun op hop => ?_) draft).definition.symm
        exact h.settled e hfound hkind op (by rw [hnow]; exact List.mem_append_left _ hop)
      · exact .inl ⟨hothers _ e.1 e.2 _ hnow hkind other hother, if_neg hkind⟩

/-- The first offer of a profile is there after everything has been included. -/
theorem exists_holds_runAll_includeFiles (hdraft : draft.WellFormed) (hintact : draft.Intact)
    (hfiles : draft.repository.Hosted) (hd : draft.get? l = some d) (hcore : l.isCore = true)
    (hkind : l.kind ∈ Kind.withAttributes) {name field : String}
    (hpath : profileKey ∉ fieldPath name field)
    (h : LeftToProfiles draft (includeFiles draft options) l d (fieldPath name field))
    (hothers : ∀ before source scope after, includeFiles draft options =
        before ++ ⟨l, .includeFrom source scope⟩ :: after → source.kind ≠ .profile →
      ∀ other, (runAll options draft before).get? source = some other →
        other.toJson.hasGap (fieldPath name field) = true) :
    ∃ here, (runAll options draft (includeFiles draft options)).get? l = some here ∧
      Holds draft (fieldPath name field) (arrangeIncludes options (includesOf draft l d)) here := by
  obtain ⟨first, last, hsplit, hfirst, hlast⟩ := exists_split_includeFiles options hd hcore hkind
  obtain ⟨here, hhere, hholds⟩ := exists_holds_runAll hdraft hintact hfiles hd hpath h hothers
    hfirst hsplit (List.append_nil _).symm
  refine ⟨here, ?_, hholds⟩
  rw [hsplit, ← List.append_assoc, runAll_append,
    (sameAt_runAll_of_forall_ne options hlast _).definition, hhere]

/-! ## The first profile of the highest rank -/

/-- The rank of a profile that is included. -/
def rankOf (options : Options) (e : Location × IncludeScope) : Nat :=
  options.profileRank (profileOfReference e.1.name)

/-- Includes are ranked by number. -/
theorem rankedBefore_iff {a b : Location × IncludeScope} :
    rankedBefore options a b = true ↔ rankOf options b ≤ rankOf options a :=
  decide_eq_true_iff

/-- The ranking is transitive. -/
theorem rankedBefore_trans (a b c : Location × IncludeScope)
    (hab : rankedBefore options a b = true) (hbc : rankedBefore options b c = true) :
    rankedBefore options a c = true :=
  rankedBefore_iff.2 ((rankedBefore_iff.1 hbc).trans (rankedBefore_iff.1 hab))

/-- The ranking is total. -/
theorem rankedBefore_total (a b : Location × IncludeScope) :
    (rankedBefore options a b || rankedBefore options b a) = true := by
  rw [Bool.or_eq_true, rankedBefore_iff, rankedBefore_iff]
  exact Nat.le_total _ _

/-- Sorting by rank leaves includes of one rank in their order. -/
theorem filter_mergeSort_rankedBefore (found : List (Location × IncludeScope))
    {p : Location × IncludeScope → Bool} {rank : Nat}
    (hp : ∀ e, p e = true → rankOf options e = rank) :
    (found.mergeSort (rankedBefore options)).filter p = found.filter p := by
  have hranked : (found.filter p).Pairwise fun a b => rankedBefore options a b = true := by
    refine List.pairwise_of_forall_mem_list fun a ha b hb => rankedBefore_iff.2 ?_
    rw [hp a (List.mem_filter.1 ha).2, hp b (List.mem_filter.1 hb).2]
  -- The sorted list has the includes in question in their order, and not more of them.
  have hsub := (List.sublist_mergeSort rankedBefore_trans rankedBefore_total hranked
    List.filter_sublist).filter p
  rw [List.filter_filter] at hsub
  simp only [Bool.and_self] at hsub
  have hlength := ((List.mergeSort_perm found (rankedBefore options)).filter p).length_eq
  exact (hsub.eq_of_length hlength.symm).symm

/-- Includes of profiles of one rank stay in the order of their references. -/
theorem filter_arrangeIncludes (found : List (Location × IncludeScope))
    {p : Location × IncludeScope → Bool} {rank : Nat}
    (hp : ∀ e, p e = true → e.1.kind = .profile ∧ rankOf options e = rank) :
    (arrangeIncludes options found).filter p = found.filter p := by
  have hothers : (found.filter fun e => !(e.1.kind == .profile)).filter p = [] := by
    rw [List.filter_eq_nil_iff]
    intro e he hpe
    have hkind := (List.mem_filter.1 he).2
    simp [(hp e hpe).1] at hkind
  have hprofiles : (found.filter fun e => e.1.kind == .profile).filter p = found.filter p := by
    rw [List.filter_filter]
    refine List.filter_congr fun e _ => ?_
    cases hpe : p e with
    | false => rfl
    | true => simp [(hp e hpe).1]
  unfold arrangeIncludes
  rw [List.filter_append, filter_mergeSort_rankedBefore _ fun e he => (hp e he).2, hprofiles]
  exact congrArg (· ++ found.filter p) hothers

/-- Profiles are included in the order of their ranks. -/
theorem pairwise_arrangeIncludes (options : Options) (found : List (Location × IncludeScope)) :
    (arrangeIncludes options found).Pairwise fun a b =>
      a.1.kind = .profile → rankOf options b ≤ rankOf options a := by
  rw [arrangeIncludes, List.pairwise_append]
  have hnone {a b : Location × IncludeScope}
      (ha : a ∈ found.filter fun e => !(e.1.kind == .profile)) :
      a.1.kind = .profile → rankOf options b ≤ rankOf options a := by
    intro hkind
    simp [hkind] at ha
  refine ⟨List.pairwise_of_forall_mem_list fun a ha b _ => hnone ha, ?_, fun a ha b _ => hnone ha⟩
  have hsorted : ((found.filter fun e => e.1.kind == .profile).mergeSort
      (rankedBefore options)).Pairwise fun a b => rankedBefore options a b = true :=
    List.pairwise_mergeSort rankedBefore_trans rankedBefore_total _
  refine hsorted.imp ?_
  intro a b hab _
  exact rankedBefore_iff.1 hab

/-- A profile prevails among what a definition includes: no other one with an offer has a higher
rank, and none of the same rank is referred to earlier. -/
structure Prevails (draft : Draft) (options : Options) (path : FieldPath)
    (before : List (Location × IncludeScope)) (winner : Location × IncludeScope)
    (after : List (Location × IncludeScope)) : Prop where
  earlier : ∀ e ∈ before, (offered? draft path e).isSome = true →
    rankOf options e < rankOf options winner
  later : ∀ e ∈ after, (offered? draft path e).isSome = true →
    rankOf options e ≤ rankOf options winner

instance (draft : Draft) (options : Options) (path : FieldPath)
    (before : List (Location × IncludeScope)) (winner : Location × IncludeScope)
    (after : List (Location × IncludeScope)) :
    Decidable (Prevails draft options path before winner after) :=
  decidable_of_iff ((∀ e ∈ before, (offered? draft path e).isSome = true →
      rankOf options e < rankOf options winner) ∧
      ∀ e ∈ after, (offered? draft path e).isSome = true →
        rankOf options e ≤ rankOf options winner)
    ⟨fun h => ⟨h.1, h.2⟩, fun h => ⟨h.earlier, h.later⟩⟩

/-- Only profiles make offers. -/
theorem kind_of_offered? {path : FieldPath} {e : Location × IncludeScope}
    (h : (offered? draft path e).isSome = true) : e.1.kind = .profile := by
  by_contra hkind
  rw [offered?, if_neg hkind] at h
  cases h

/-- The first offer in the order of includes is that of the profile that prevails. -/
theorem exists_prevails_of_findSome? {path : FieldPath} {found : List (Location × IncludeScope)}
    {value : Json} (h : (arrangeIncludes options found).findSome? (offered? draft path) =
      some value) :
    ∃ before winner after, found = before ++ winner :: after ∧
      offered? draft path winner = some value ∧
        Prevails draft options path before winner after := by
  obtain ⟨first, winner, last, hsplit, hvalue, hfirst⟩ := List.findSome?_eq_some_iff.1 h
  have hwinner : (offered? draft path winner).isSome = true := by
    rw [hvalue]
    rfl
  have hhighest (e : Location × IncludeScope) (he : e ∈ found)
      (hoffers : (offered? draft path e).isSome = true) :
      rankOf options e ≤ rankOf options winner := by
    have hordered := pairwise_arrangeIncludes options found
    rw [hsplit] at hordered
    obtain ⟨-, hordered, -⟩ := List.pairwise_append.1 hordered
    have hmem : e ∈ arrangeIncludes options found := mem_arrangeIncludes.2 he
    rw [hsplit, List.mem_append, List.mem_cons] at hmem
    rcases hmem with hmem | rfl | hmem
    · rw [hfirst e hmem] at hoffers
      cases hoffers
    · exact le_rfl
    · exact (List.pairwise_cons.1 hordered).1 e hmem (kind_of_offered? hwinner)
  -- Among the offers of the highest rank the first one in the order of includes is the first one
  -- in the order of references.
  let p (e : Location × IncludeScope) : Bool :=
    (offered? draft path e).isSome && rankOf options e == rankOf options winner
  have hp (e : Location × IncludeScope) (he : p e = true) :
      e.1.kind = .profile ∧ rankOf options e = rankOf options winner := by
    simp only [p, Bool.and_eq_true, beq_iff_eq] at he
    exact ⟨kind_of_offered? he.1, he.2⟩
  have hfilter := filter_arrangeIncludes found hp
  have hnone : first.filter p = [] := by
    rw [List.filter_eq_nil_iff]
    intro e he hpe
    simp [p, hfirst e he] at hpe
  have hthere : p winner = true := by simp [p, hvalue]
  rw [hsplit, List.filter_append, hnone, List.nil_append, List.filter_cons_of_pos hthere,
    eq_comm, List.filter_eq_cons_iff] at hfilter
  obtain ⟨before, after, rfl, hbefore, -, -⟩ := hfilter
  refine ⟨before, winner, after, rfl, hvalue, fun e he hoffers => ?_, fun e he hoffers => ?_⟩
  · refine (hhighest e (by simp [he]) hoffers).lt_of_ne fun heq => hbefore e he ?_
    simp [p, heq, hoffers]
  · exact hhighest e (by simp [he]) hoffers

/--
Where a definition leaves the value of a field of an attribute to the profiles that it includes, and
nothing else that it includes brings one by then, the field has after all includes the value of the
profile that prevails.
-/
theorem highest_profile_prevails (hdraft : draft.WellFormed) (hintact : draft.Intact)
    (hfiles : draft.repository.Hosted) {ops : List Operation}
    (hops : includes.analyze draft options = .ok ops) (hd : draft.get? l = some d)
    (hcore : l.isCore = true) (hkind : l.kind ∈ Kind.withAttributes) {name field : String}
    (hname : name ≠ profileKey) (hfield : field ≠ profileKey)
    (h : LeftToProfiles draft ops l d (fieldPath name field))
    (hothers : ∀ before source scope after,
      ops = before ++ ⟨l, .includeFrom source scope⟩ :: after →
      source.kind ≠ .profile → ∀ other ∈ (runAll options draft before).get? source,
        other.toJson.hasGap (fieldPath name field) = true)
    (hoffered : ∃ e ∈ includesOf draft l d,
      (offered? draft (fieldPath name field) e).isSome = true) :
    ∃ before winner after value, includesOf draft l d = before ++ winner :: after ∧
      offered? draft (fieldPath name field) winner = some value ∧
      Prevails draft options (fieldPath name field) before winner after ∧
      ∃ here, (runAll options draft ops).get? l = some here ∧
        here.toJson.at? (fieldPath name field) = some value := by
  cases hops
  obtain ⟨here, hhere, hholds⟩ := exists_holds_runAll_includeFiles hdraft hintact hfiles hd hcore
    hkind (profileKey_not_mem_fieldPath hname hfield) h hothers
  rcases hholds with ⟨hnone, -⟩ | ⟨value, hvalue, -, hthere⟩
  · obtain ⟨e, he, hsome⟩ := hoffered
    rw [List.findSome?_eq_none_iff.1 hnone e (mem_arrangeIncludes.2 he)] at hsome
    cases hsome
  · obtain ⟨before, winner, after, hsplit, hwinner, hprevails⟩ :=
      exists_prevails_of_findSome? hvalue
    exact ⟨before, winner, after, value, hsplit, hwinner, hprevails, here, hhere, hthere⟩

/-! ## Two profiles -/

/-- The operations for all includes, in the order of references. -/
def referredIncludes (draft : Draft) : List Operation :=
  (draft.core Kind.withAttributes).flatMap fun (l, d) => includesInto l (includesOf draft l d)

/-- Every include that is referred to is planned, and nothing else. -/
theorem mem_includeFiles_iff {op : Operation} :
    op ∈ includeFiles draft options ↔ op ∈ referredIncludes draft := by
  simp only [includeFiles, referredIncludes, includesInto, List.mem_flatMap, List.mem_map,
    mem_arrangeIncludes]

/-- Whether a field is left to profiles does not depend on the order of includes. -/
theorem leftToProfiles_includeFiles_iff {path : FieldPath} :
    LeftToProfiles draft (includeFiles draft options) l d path ↔
      LeftToProfiles draft (referredIncludes draft) l d path := by
  constructor <;> refine fun h => ⟨h.own, fun e he hkind op hop => ?_, h.offers⟩
  · exact h.settled e he hkind op (mem_includeFiles_iff.2 hop)
  · exact h.settled e he hkind op (mem_includeFiles_iff.1 hop)

/-- Whatever is included is a profile. -/
def profilesOnly (draft : Draft) : Bool :=
  (referredIncludes draft).all fun op => op.prerequisites.all fun l => l.kind == .profile

/-- If only profiles are included, no other source has anything to fill in. -/
theorem hasGap_of_profilesOnly (h : profilesOnly draft = true) (path : FieldPath) :
    ∀ before source scope after, includeFiles draft options =
        before ++ ⟨l, .includeFrom source scope⟩ :: after →
      source.kind ≠ .profile → ∀ other ∈ (runAll options draft before).get? source,
        other.toJson.hasGap path = true := by
  intro before source scope after hsplit hkind
  have hmem : ⟨l, .includeFrom source scope⟩ ∈ includeFiles draft options :=
    hsplit ▸ List.mem_append_cons_self
  have hsource := List.all_eq_true.1 h _ (mem_includeFiles_iff.1 hmem)
  rw [List.all_eq_true] at hsource
  exact absurd (beq_iff_eq.1 (hsource source (List.mem_singleton_self source))) hkind

/-- A definition leaves a value to profiles: what it includes, and what that offers as texts. -/
def Contested (draft : Draft) (l : Location) (d : Definition) (path : FieldPath)
    (included : List (Location × IncludeScope)) (offers : List (Option String)) : Prop :=
  LeftToProfiles draft (referredIncludes draft) l d path ∧ includesOf draft l d = included ∧
    included.map (fun e => (offered? draft path e).bind Json.str?) = offers

instance (draft : Draft) (l : Location) (d : Definition) (path : FieldPath)
    (included : List (Location × IncludeScope)) (offers : List (Option String)) :
    Decidable (Contested draft l d path included offers) :=
  inferInstanceAs (Decidable (_ ∧ _ ∧ _))

/-- What is seen of an object that some files define. -/
def objectSatisfies (files : List (Path × Json)) (name : String)
    (view : Draft → Definition → Bool) : Bool :=
  (Repository.ofFiles files).toOption.any fun repository =>
    ((Draft.ofRepository repository).get? (.inCore .object name)).any
      (view (.ofRepository repository))

theorem exists_of_objectSatisfies {files : List (Path × Json)} {name : String}
    {view : Draft → Definition → Bool} (h : objectSatisfies files name view = true) :
    ∃ repository d, Repository.ofFiles files = .ok repository ∧
      (Draft.ofRepository repository).get? (.inCore .object name) = some d ∧
      view (.ofRepository repository) d = true := by
  obtain ⟨repository, hrepository, h⟩ := (Option.any_eq_true _ _).1 h
  obtain ⟨d, hd, hview⟩ := (Option.any_eq_true _ _).1 h
  exact ⟨repository, d, Compilation.eq_ok_of_toOption hrepository, hd, hview⟩

/-- What reads as a text is one. -/
theorem eq_str_of_str? {value : Json} {text : String} (h : value.str? = some text) :
    value = .str text := by
  cases value <;> simp_all [Json.str?]

/-- An object that includes two profiles with an attribute of the same name. -/
def rankedProfiles : List (Path × Json) :=
  [(⟨"objects/device.json"⟩, .obj [("name", .str "device"), ("attributes", .obj [("$include",
      .arr [.str "profiles/host.json", .str "profiles/cloud.json"])])]),
    (⟨"profiles/host.json"⟩, .obj [("name", .str "host"),
      ("attributes", .obj [("region", .obj [("caption", .str "Host Region")])])]),
    (⟨"profiles/cloud.json"⟩, .obj [("name", .str "cloud"),
      ("attributes", .obj [("region", .obj [("caption", .str "Cloud Region")])])])]

/-- The profile that is referred to first has the higher rank. -/
def hostLast : Options := { profileOrder := ["cloud", "host"] }

theorem reachable_of_rankedProfiles {repository : Repository}
    (h : Repository.ofFiles rankedProfiles = .ok repository) : repository.Reachable := by
  refine Repository.Reachable.empty.insertFiles (fun file hfile => ?_) h
  simp only [rankedProfiles, List.mem_cons, List.not_mem_nil, or_false] at hfile
  rcases hfile with rfl | rfl | rfl <;>
    simp [Json.WellFormed, Json.WellFormedFields, Json.WellFormedItems]

/-- The object has the caption of the profile of the higher rank. -/
theorem host_region_prevails :
    ∃ repository here, Repository.ofFiles rankedProfiles = .ok repository ∧
      (runAll hostLast (.ofRepository repository)
        (includeFiles (.ofRepository repository) hostLast)).get? (.inCore .object "device") =
          some here ∧
      here.toJson.at? (fieldPath "region" "caption") = some (.str "Host Region") := by
  have hview : objectSatisfies rankedProfiles "device" (fun draft d => decide (Contested draft
      (.inCore .object "device") d (fieldPath "region" "caption")
      [(.inCore .profile "host", .attributes), (.inCore .profile "cloud", .attributes)]
      [some "Host Region", some "Cloud Region"]) && profilesOnly draft) = true := by
    decide +kernel
  obtain ⟨repository, d, hfiles, hd, hview⟩ := exists_of_objectSatisfies hview
  obtain ⟨hcontested, honly⟩ := (Bool.and_eq_true _ _).mp hview
  obtain ⟨hleft, hincluded, hoffers⟩ := of_decide_eq_true hcontested
  have hreachable := reachable_of_rankedProfiles hfiles
  simp only [List.map_cons, List.map_nil, List.cons.injEq, and_true] at hoffers
  obtain ⟨value, hvalue, htext⟩ := Option.bind_eq_some_iff.1 hoffers.1
  obtain ⟨before, winner, after, offer, hsplit, hoffer, hprevails, here, hhere, hthere⟩ :=
    highest_profile_prevails (Draft.wellFormed_ofRepository hreachable.sound)
      (Draft.failure?_ofRepository repository) hreachable.hosted rfl hd rfl (by decide) (by decide)
      (by decide) (leftToProfiles_includeFiles_iff.2 hleft) (hasGap_of_profilesOnly honly _)
      ⟨(.inCore .profile "host", .attributes), by rw [hincluded]; exact List.mem_cons_self,
        by rw [hvalue]; rfl⟩
  refine ⟨repository, here, hfiles, hhere, ?_⟩
  rw [hincluded] at hsplit
  rcases List.cons_eq_append_iff.1 hsplit with ⟨rfl, heq⟩ | ⟨rest, rfl, hrest⟩
  · obtain ⟨rfl, -⟩ := List.cons.inj heq
    rw [hthere, ← hoffer, hvalue, eq_str_of_str? htext]
  · have hwinner : winner ∈ [((.inCore .profile "cloud", .attributes) :
        Location × IncludeScope)] := by
      rw [hrest]
      exact List.mem_append_cons_self
    rw [List.mem_singleton.1 hwinner] at hprevails
    have hlower := hprevails.earlier _ List.mem_cons_self (by rw [hvalue]; rfl)
    exact absurd hlower (by decide +kernel)

/-! ## What else may prevail -/

/-- An object that includes a profile and another object, which includes a profile itself. -/
def profileOfObject : List (Path × Json) :=
  [(⟨"objects/a.json"⟩, .obj [("name", .str "a"), ("$include", .str "profiles/low.json")]),
    (⟨"objects/z.json"⟩, .obj [("name", .str "z"), ("$include",
      .arr [.str "objects/a.json", .str "profiles/high.json"])]),
    (⟨"profiles/high.json"⟩, .obj [("name", .str "high"),
      ("attributes", .obj [("x", .obj [("f", .str "high")])])]),
    (⟨"profiles/low.json"⟩, .obj [("name", .str "low"),
      ("attributes", .obj [("x", .obj [("f", .str "low")])])])]

/-- An object that includes a profile with an attribute of the name of profile tags. -/
def attributeOfTags : List (Path × Json) :=
  [(⟨"objects/z.json"⟩, .obj [("name", .str "z"), ("$include", .str "profiles/p.json"),
      ("attributes", .obj [("profile", .obj [])])]),
    (⟨"profiles/p.json"⟩, .obj [("name", .str "p"),
      ("attributes", .obj [("profile", .obj [("f", .str "p")])])])]

/-- The text at a path after all includes. -/
def textAfter? (draft : Draft) (options : Options) (l : Location) (path : FieldPath) :
    Option String :=
  ((runAll options draft (includeFiles draft options)).get? l).bind fun here =>
    (here.toJson.at? path).bind Json.str?

/--
An included object brings what it has included before.  And an attribute of the name of profile tags
is merged as tags.
-/
theorem profiles_alone_do_not_decide :
    (¬ ∀ files repository options ops, Repository.ofFiles files = .ok repository →
      includes.analyze (.ofRepository repository) options = .ok ops →
      ∀ l d name field, (Draft.ofRepository repository).get? l = some d → l.isCore = true →
        l.kind ∈ Kind.records → name ≠ profileKey → field ≠ profileKey →
        LeftToProfiles (.ofRepository repository) ops l d (fieldPath name field) →
        (∀ e ∈ includesOf (.ofRepository repository) l d, e.1.kind ≠ .profile →
          ∀ other ∈ (Draft.ofRepository repository).get? e.1,
            other.toJson.hasGap (fieldPath name field) = true) →
        ∀ before winner after value,
          includesOf (.ofRepository repository) l d = before ++ winner :: after →
          offered? (.ofRepository repository) (fieldPath name field) winner = some value →
          Prevails (.ofRepository repository) options (fieldPath name field) before winner after →
          ∃ here, (runAll options (.ofRepository repository) ops).get? l = some here ∧
            here.toJson.at? (fieldPath name field) = some value) ∧
    ¬ ∀ files repository options ops, Repository.ofFiles files = .ok repository →
      includes.analyze (.ofRepository repository) options = .ok ops →
      ∀ l d name field, (Draft.ofRepository repository).get? l = some d → l.isCore = true →
        l.kind ∈ Kind.records → field ≠ profileKey →
        LeftToProfiles (.ofRepository repository) ops l d (fieldPath name field) →
        (∀ before source scope after, ops = before ++ ⟨l, .includeFrom source scope⟩ :: after →
          source.kind ≠ .profile →
          ∀ other ∈ (runAll options (.ofRepository repository) before).get? source,
            other.toJson.hasGap (fieldPath name field) = true) →
        ∀ before winner after value,
          includesOf (.ofRepository repository) l d = before ++ winner :: after →
          offered? (.ofRepository repository) (fieldPath name field) winner = some value →
          Prevails (.ofRepository repository) options (fieldPath name field) before winner after →
          ∃ here, (runAll options (.ofRepository repository) ops).get? l = some here ∧
            here.toJson.at? (fieldPath name field) = some value := by
  constructor
  · intro hclaim
    have hview : objectSatisfies profileOfObject "z" (fun draft d => decide (Contested draft
        (.inCore .object "z") d (fieldPath "x" "f")
        [(.inCore .object "a", .definition), (.inCore .profile "high", .definition)]
        [none, some "high"] ∧
        Prevails draft {} (fieldPath "x" "f") [(.inCore .object "a", .definition)]
          (.inCore .profile "high", .definition) [] ∧
        (∀ e ∈ includesOf draft (.inCore .object "z") d, e.1.kind ≠ .profile →
          ∀ other ∈ draft.get? e.1, other.toJson.hasGap (fieldPath "x" "f") = true) ∧
        textAfter? draft {} (.inCore .object "z") (fieldPath "x" "f") = some "low")) = true := by
      decide +kernel
    obtain ⟨repository, d, hfiles, hd, hview⟩ := exists_of_objectSatisfies hview
    obtain ⟨⟨hleft, hincluded, hoffers⟩, hprevails, hothers, htext⟩ := of_decide_eq_true hview
    simp only [List.map_cons, List.map_nil, List.cons.injEq, and_true] at hoffers
    obtain ⟨value, hvalue, hhigh⟩ := Option.bind_eq_some_iff.1 hoffers.2
    obtain ⟨here, hhere, hthere⟩ := hclaim profileOfObject repository {} _ hfiles rfl _ d "x" "f" hd
      rfl (by decide) (by decide) (by decide) (leftToProfiles_includeFiles_iff.2 hleft) hothers _ _
      _ value hincluded hvalue hprevails
    rw [textAfter?, hhere, Option.bind_some, hthere, Option.bind_some, hhigh] at htext
    exact absurd (Option.some.inj htext) (by decide)
  · intro hclaim
    have hview : objectSatisfies attributeOfTags "z" (fun draft d => decide (Contested draft
        (.inCore .object "z") d (fieldPath "profile" "f")
        [(.inCore .profile "p", .definition)] [some "p"] ∧
        Prevails draft {} (fieldPath "profile" "f") [] (.inCore .profile "p", .definition) [] ∧
        profilesOnly draft = true ∧
        textAfter? draft {} (.inCore .object "z") (fieldPath "profile" "f") = none)) = true := by
      decide +kernel
    obtain ⟨repository, d, hfiles, hd, hview⟩ := exists_of_objectSatisfies hview
    obtain ⟨⟨hleft, hincluded, hoffers⟩, hprevails, honly, htext⟩ := of_decide_eq_true hview
    simp only [List.map_cons, List.map_nil, List.cons.injEq, and_true] at hoffers
    obtain ⟨value, hvalue, hp⟩ := Option.bind_eq_some_iff.1 hoffers
    obtain ⟨here, hhere, hthere⟩ := hclaim attributeOfTags repository {} _ hfiles rfl _ d "profile"
      "f" hd rfl (by decide) (by decide) (leftToProfiles_includeFiles_iff.2 hleft)
      (hasGap_of_profilesOnly honly _) [] _ _ value hincluded hvalue hprevails
    rw [textAfter?, hhere, Option.bind_some, hthere, Option.bind_some, hp] at htext
    cases htext

end Planner

end EventSchema
