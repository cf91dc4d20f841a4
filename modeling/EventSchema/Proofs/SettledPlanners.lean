import EventSchema.Proofs.ExactOutcomes
import EventSchema.Proofs.ExtensionTable
import EventSchema.Proofs.ReservedAttributes

/-!
# Planners that come to rest

A planner looks for what is missing from a definition, and the edit that it plans supplies it. The
two are written apart, and so it is a property of both of them together that nothing is missing once
the edits are done.

A definition is done for a planner if it lacks nothing that the planner looks for. What a planner
looks for is read off values, so that definitions which are the same are done alike. An edit that
changes something leaves its target done; one that changes nothing has met a definition that was
done before. Four of the planners plan at most one edit for each location, and the edit reads no other
location that they write to, hence what the edit has done is not undone. The dictionary's planner
plans an edit for each attribute, and these edits follow one another on the same definition; each of
them leaves the others' attributes alone.

Main results:

- {lit}`Planner.isDone_profileTag_iff`, {lit}`Planner.isDone_dictionary_iff`,
  {lit}`Planner.isDone_observable_iff`, {lit}`Planner.isDone_objectType_iff`,
  {lit}`Planner.isDone_datetime_iff`: a planner plans nothing for exactly the definitions that are
  done.
- {lit}`Operation.done_of_runAll`: what an edit leaves done at its target is done after a run.
- {lit}`Operation.filled_runAll`: so it is with an attribute and the gaps that its entry fills.
- {lit}`Planner.planners_come_to_rest`: a planner has nothing to plan once its plan is run.
-/

namespace EventSchema

open Std

namespace Definition

/-! ## Documents that are the same -/

/-- An object on the left has one on the right that is the same. -/
theorem SameObjects.exists_right {left right : Option Fields} (h : SameObjects left right)
    {body : Fields} (hbody : left = some body) :
    ∃ other, right = some other ∧ SameObjects (some body) (some other) := by
  subst hbody
  cases h with
  | some hab => exact ⟨_, rfl, .some hab⟩

/-- An object on the right has one on the left. -/
theorem SameObjects.exists_left {left right : Option Fields} (h : SameObjects left right)
    {other : Fields} (hother : right = some other) : ∃ body, left = some body := by
  subst hother
  cases h with
  | some hab => exact ⟨_, rfl⟩

/-- Values that are the same are the same identifiers. -/
theorem int?_eq_of_same {a b : Json} (h : a.same b = true) : a.int? = b.int? := by
  cases a <;> cases b <;> simp_all [Json.same, Json.int?]
  rename_i m n
  cases m <;> cases n <;> simp_all [Number.same]

/-- Attributes that are the same state the same type. -/
theorem SameObjects.typeOf?_eq {body other : Fields} (h : SameObjects (some body) (some other)) :
    typeOf? body = typeOf? other :=
  h.text typeKey

/-- Attributes that are the same state the same observable. -/
theorem SameObjects.observable?_eq {body other : Fields}
    (h : SameObjects (some body) (some other)) : observable? body = observable? other := by
  cases h with
  | some hsame =>
    obtain ⟨hbody, hsame⟩ := hsame
    have hdistinct : (⟨body⟩ : Definition).Distinct := (Json.wellFormed_obj_iff.1 hbody).1
    unfold observable?
    cases hget : Fields.get? other observableKey with
    | some value =>
      obtain ⟨before, hbefore, hvalue⟩ := exists_get?_of_same (d := ⟨body⟩) hdistinct hsame hget
      rw [hbefore]
      exact int?_eq_of_same hvalue
    | none =>
      have hsame : (⟨body⟩ : Definition).same ⟨other⟩ = true := hsame
      have hnone : Fields.get? body observableKey = none := get?_eq_none_of_same hsame hget
      rw [hnone]

/-- A text at the root is found by two look-ups. -/
theorem text?_eq_bind (d : Definition) (key : String) :
    d.text? key = ((some d.fields).bind (Fields.get? · key)).bind Json.str? := by
  unfold text? get?
  rw [Option.bind_some]
  cases Fields.get? d.fields key with
  | none => rfl
  | some value => cases value <;> simp [Json.isNull, Json.str?, Option.filter]

/-- Definitions that are the same state the same texts. -/
theorem text?_eq_of_same {d other : Definition} (hd : d.WellFormed) (h : d.same other = true)
    (key : String) : d.text? key = other.text? key := by
  have hroot : SameObjects (some d.fields) (some other.fields) := .some ⟨hd, h⟩
  rw [text?_eq_bind, text?_eq_bind]
  exact hroot.text key

/-! ## Types -/

/-- The listed attributes are those that are found by name. -/
theorem mem_attributes_iff {d : Definition} (hd : d.WellFormed) {name : String} {body : Fields} :
    (name, body) ∈ d.attributes ↔ d.attribute? name = some body :=
  ⟨attribute?_of_mem_attributes hd, mem_attributes_of_attribute?⟩

/-- The types of a definition are those of what is found under some name. -/
theorem mem_types_iff {d : Definition} (hd : d.WellFormed) {kind : Kind} {type : String} :
    type ∈ d.types kind ↔
      ∃ name body, d.typed? kind name = some body ∧ typeOf? body = some type := by
  unfold types typed?
  split
  · simp
  · simp only [List.mem_filterMap, Prod.exists, mem_attributes_iff hd]

/-- Documents that are the same have the same types. -/
theorem mem_types_of_same {d other : Definition} (hd : d.WellFormed) (hother : other.WellFormed)
    (h : d.same other = true) {kind : Kind} {type : String} (htype : type ∈ d.types kind) :
    type ∈ other.types kind := by
  obtain ⟨name, body, hbody, hstated⟩ := (mem_types_iff hd).1 htype
  obtain ⟨body', hbody', hsame⟩ := (sameObjects_typed? hd h kind name).exists_right hbody
  exact (mem_types_iff hother).2 ⟨name, body', hbody', hsame.typeOf?_eq ▸ hstated⟩

end Definition

/-! ## Attributes that are edited one by one -/

namespace SlotEdit

open Definition

/-- Edits of other attributes leave an attribute. -/
theorem attribute?_applyAll_of_not_mem {edits : List SlotEdit} {key : String}
    (h : key ∉ edits.map name) (d : Definition) :
    (applyAll edits d).attribute? key = d.attribute? key := by
  induction edits generalizing d with
  | nil => rfl
  | cons edit rest ih =>
    simp only [List.map_cons, List.mem_cons, not_or] at h
    exact (ih h.2 _).trans (attribute?_apply_of_ne h.1 d)

/-- An edit of an attribute is carried out on its body. -/
theorem attribute?_apply_ofObject (d : Definition) (key : String)
    (edit : Fields → Fields × List FieldPath) :
    ((ofObject key edit).apply d).attribute? key =
      (d.attribute? key).map fun body => (edit body).1 := by
  unfold apply ofObject attribute?
  cases hplain : isDirective key with
  | true => simp
  | false => cases hslot : d.slot? key <;> simp [hslot, slot?_insertAttribute]

/-- Of edits under different names only one comes to an attribute. -/
theorem attribute?_applyAll_ofObject {edits : List SlotEdit} (hnames : (edits.map name).Nodup)
    {key : String} {edit : Fields → Fields × List FieldPath} (h : ofObject key edit ∈ edits)
    (d : Definition) :
    (applyAll edits d).attribute? key = (d.attribute? key).map fun body => (edit body).1 := by
  induction edits generalizing d with
  | nil => cases h
  | cons first rest ih =>
    rw [List.map_cons, List.nodup_cons] at hnames
    rcases List.mem_cons.1 h with rfl | h
    · exact (attribute?_applyAll_of_not_mem hnames.1 _).trans (attribute?_apply_ofObject d key edit)
    · have hne : key ≠ first.name := by
        rintro rfl
        exact hnames.1 (List.mem_map.2 ⟨_, h, rfl⟩)
      refine (ih hnames.2 h (first.apply d)).trans ?_
      rw [attribute?_apply_of_ne hne]

end SlotEdit

namespace Definition

/-- The attributes after identifiers of observables have been assigned. -/
theorem attribute?_assignObservables (d : Definition) (assignments : ExtTreeMap String Int)
    (name : String) :
    (d.assignObservables assignments).definition.attribute? name =
      (d.attribute? name).map fun body =>
        match assignments[name]? with
        | some id => (observe id body).1
        | none => body := by
  rw [definition_assignObservables]
  cases hid : assignments[name]? with
  | some id =>
    refine SlotEdit.attribute?_applyAll_ofObject ?_ (List.mem_map.2 ⟨(name, id), ?_, rfl⟩) d
    · rw [keys_observe]
      exact ExtTreeMap.nodup_keys
    · exact ExtTreeMap.mem_toList_iff_getElem?_eq_some.2 hid
  | none =>
    rw [SlotEdit.attribute?_applyAll_of_not_mem, Option.map_id']
    rw [keys_observe, ExtTreeMap.mem_keys]
    simpa using hid

/-- An observable leaves the type. -/
theorem typeOf?_observe (id : Int) (body : Fields) :
    typeOf? (observe id body).1 = typeOf? body := by
  unfold observe
  split
  · rfl
  · rw [typeOf?, Fields.get?_set_of_ne _ _ (by decide), typeOf?]

/-- An identifier that can be read is there once it has been assigned. -/
theorem observable?_observe {id : Int} (hid : (Json.ofInt id).int? = some id) (body : Fields) :
    observable? (observe id body).1 = some id := by
  unfold observe
  split
  · assumption
  · rw [observable?, Fields.get?_set_self, Option.bind_some, hid]

/-- The number of an observable is read as it was written. -/
theorem int?_ofInt_of_observable? {body : Fields} {id : Int} (h : observable? body = some id) :
    (Json.ofInt id).int? = some id := by
  obtain ⟨value, -, hvalue⟩ := Option.bind_eq_some_iff.1 h
  cases value with
  | num n =>
    cases n with
    | int m =>
      have hm : m = id := by
        simp only [Json.int?] at hvalue
        exact (Option.ite_none_right_eq_some.1 hvalue).2 |> Option.some.inj
      rw [← hm]
      exact hm ▸ hvalue
    | real x => cases hvalue
  | _ => cases hvalue

end Definition

namespace Operation

/-! ## Runs that bring each definition to an end -/

/-- An operation that does not fail leaves its target done if its edit does. -/
theorem done_of_run {op : Operation} (hop : op.action.createsTarget = false) {draft : Draft}
    {options : Options} {d : Definition} (hd : draft.get? op.target = some d)
    (hsucceeds : (op.outcome draft options).isFailed = false) {P : Definition → Prop}
    (hedit : ∀ revision, op.edit draft options d = .ok revision → P revision.definition ∧
      (d.same revision.definition = true → P d)) :
    ∃ after, (op.run draft options).get? op.target = some after ∧ P after := by
  rcases outcome_cases_of_get? options hd with
    ⟨hfailed, -⟩ | ⟨revision, hrevision, ⟨-, hget⟩ | ⟨-, hget, hunchanged⟩⟩
  · rw [hsucceeds] at hfailed
    cases hfailed
  · exact ⟨_, hget, (hedit revision hrevision).1⟩
  · refine ⟨d, hget, ?_⟩
    rcases hunchanged with hchanges | hsame
    · rw [← accountsFor_edit hop hrevision hchanges]
      exact (hedit revision hrevision).1
    · exact (hedit revision hrevision).2 hsame

/-- An operation whose target is intact has not failed. -/
theorem isFailed_outcome_of_intact {op : Operation} {draft : Draft} {options : Options}
    (h : (op.run draft options).failure? op.target = none) :
    (op.outcome draft options).isFailed = false := by
  have hintact := op.isNone_failure?_run_target draft options
  rw [h, Option.isNone_none, eq_comm, Bool.and_eq_true, Bool.not_eq_true'] at hintact
  exact hintact.2

/-- Operations on different locations leave each definition done if each edit does. -/
theorem done_of_runAll {ops : List Operation}
    (hops : ops.Pairwise fun a b => a.target ≠ b.target)
    (hcreates : ∀ op ∈ ops, op.action.createsTarget = false) {draft : Draft}
    (hdraft : draft.WellFormed) {options : Options} (hintact : (runAll options draft ops).Intact)
    {l : Location} {d : Definition} (hd : draft.get? l = some d) {P : Definition → Prop}
    (hidle : (∀ op ∈ ops, op.target ≠ l) → P d)
    (hedit : ∀ op ∈ ops, op.target = l → ∀ seen : Draft, seen.WellFormed → ∀ revision,
      op.edit seen options d = .ok revision →
        P revision.definition ∧ (d.same revision.definition = true → P d)) :
    ∃ after, (runAll options draft ops).get? l = some after ∧ P after := by
  by_cases htarget : ∃ op ∈ ops, op.target = l
  · obtain ⟨op, hop, rfl⟩ := htarget
    obtain ⟨before, hafter, hbefore⟩ := exists_sameAt_runAll hops hop options draft
    rw [hafter.definition]
    have hsucceeds := isFailed_outcome_of_intact (hafter.failure.symm.trans (hintact op.target))
    exact done_of_run (hcreates op hop) (hbefore.definition.trans hd) hsucceeds
      (hedit op hop rfl _ (hdraft.runAll options before))
  · have hnone : ∀ op ∈ ops, op.target ≠ l := fun op hop heq => htarget ⟨op, hop, heq⟩
    exact ⟨d, (sameAt_runAll_of_forall_ne options hnone draft).definition.trans hd, hidle hnone⟩

end Operation

namespace Planner

open Definition Operation

/-! ## Definitions that need nothing more -/

/-- Whether a planner has nothing to do for a definition. -/
def IsDone (planner : Planner) (draft : Draft) (options : Options) (l : Location)
    (d : Definition) : Prop :=
  match planner with
  | profileTag =>
    l.kind = .profile → ∀ name body, d.attribute? name = some body →
      profileName l d ∈ profileTags body
  | dictionary =>
    l.isCore = true → l.kind ∈ Kind.withAttributes → ∀ name body entry,
      d.attribute? name = some body → draft.get? (.inCore .dictionary name) = some entry →
        MergeRule.fill.apply body entry.fields = (body, [])
  | observable =>
    options.setObservable = true → l.isCore = true → l.kind ∈ Kind.withAttributes →
      ∀ name body, d.attribute? name = some body → ∀ id,
        observableOf? (observablesOf draft .dictionary) (observablesOf draft .type) name body =
          some id → observable? body = some id
  | objectType =>
    options.setObjectTypes = true → l.isCore = true → l.kind ∈ typedKinds →
      ∀ type ∈ d.types l.kind, isPrimitive type = true
  | datetime =>
    options.isProfileEnabled datetimeProfile = true → l.isCore = true →
      l.kind ∈ Kind.withAttributes → ∀ name body, d.attribute? name = some body →
        typeOf? body = some "timestamp_t" → (d.attribute? (siblingName name)).isSome = true
  | _ => True

/-- Nothing is planned for a location exactly if nothing is planned from its entry. -/
theorem forall_target_ne_filterMap {entries : List (Location × Definition)}
    {plan : Location × Definition → Option Operation}
    (hplan : ∀ e op, plan e = some op → op.target = e.1) {l : Location} :
    (∀ op ∈ entries.filterMap plan, op.target ≠ l) ↔
      ∀ d, (l, d) ∈ entries → plan (l, d) = none := by
  constructor
  · intro h d hmem
    rw [Option.eq_none_iff_forall_not_mem]
    intro op hop
    exact h op (List.mem_filterMap.2 ⟨(l, d), hmem, hop⟩) (hplan _ _ hop)
  · intro h op hop htarget
    obtain ⟨⟨k, d⟩, hmem, hop⟩ := List.mem_filterMap.1 hop
    have hk : k = l := (hplan _ _ hop).symm.trans htarget
    subst hk
    rw [h d hmem] at hop
    cases hop

variable {draft : Draft} {options : Options} {l : Location} {d : Definition}

/-- Tags are written exactly where none are proposed. -/
theorem isDone_profileTag_iff (hdraft : draft.WellFormed) (hd : draft.get? l = some d) :
    profileTag.IsDone draft options l d ↔ ∀ op ∈ tagProfiles draft, op.target ≠ l := by
  unfold tagProfiles
  rw [forall_target_ne_filterMap]
  · simp only [List.mem_filter, Draft.mem_toList_definitions, hd, Option.some.injEq, beq_iff_eq,
      and_imp, forall_eq', IsDone]
    refine imp_congr_right fun _ => ?_
    simp [mem_attributes_iff (hdraft l d hd)]
  · intro e op hop
    obtain ⟨-, hop⟩ := Option.ite_none_right_eq_some.1 hop
    cases hop
    rfl

/-- What is planned from the entries of core says nothing of a location that is none of them. -/
theorem forall_mem_core_iff {kinds : List Kind} (hd : draft.get? l = some d)
    {P : Definition → Prop} :
    (∀ e, (l, e) ∈ draft.core kinds → P e) ↔ (l.isCore = true → l.kind ∈ kinds → P d) := by
  simp only [Draft.mem_core, hd, Option.some.injEq, and_imp, forall_eq']

/-- Observables are assigned exactly where none are proposed. -/
theorem isDone_observable_iff (hdraft : draft.WellFormed) (hd : draft.get? l = some d) :
    observable.IsDone draft options l d ↔
      ∀ op ∈ assignObservables draft options, op.target ≠ l := by
  unfold assignObservables IsDone
  by_cases hset : options.setObservable = true
  · simp only [hset, Bool.not_true, Bool.false_eq_true, if_false]
    rw [forall_target_ne_filterMap, forall_mem_core_iff hd]
    · simp [mem_attributes_iff (hdraft l d hd), Option.bind_eq_none_iff, List.filterMap_eq_nil_iff]
    · exact fun _ _ => target_eq_of_ite_none
  · simp [hset]

/-- Types of objects are set exactly where none are proposed. -/
theorem isDone_objectType_iff (hd : draft.get? l = some d) :
    objectType.IsDone draft options l d ↔ ∀ op ∈ setObjectTypes draft options, op.target ≠ l := by
  unfold setObjectTypes IsDone
  by_cases hset : options.setObjectTypes = true
  · simp only [hset, Bool.not_true, Bool.false_eq_true, if_false]
    rw [forall_target_ne_filterMap, forall_mem_core_iff hd]
    · simp
    · exact fun _ _ => target_eq_of_ite_none
  · simp [hset]

/-- No sibling is missing exactly if each timestamp has one. -/
theorem missingSiblings_eq_nil_iff (hd : d.WellFormed) :
    d.missingSiblings = [] ↔ ∀ name body, d.attribute? name = some body →
      typeOf? body = some "timestamp_t" → (d.attribute? (siblingName name)).isSome = true := by
  simp [missingSiblings, List.filter_eq_nil_iff, mem_attributes_iff hd, Option.isSome_iff_ne_none]

/-- Siblings are added exactly where none are proposed. -/
theorem isDone_datetime_iff (hdraft : draft.WellFormed) (hd : draft.get? l = some d) :
    datetime.IsDone draft options l d ↔ ∀ op ∈ addSiblings draft options, op.target ≠ l := by
  unfold addSiblings IsDone
  by_cases hset : options.isProfileEnabled datetimeProfile = true
  · simp only [hset, Bool.not_true, Bool.false_eq_true, if_false]
    rw [forall_target_ne_filterMap, forall_mem_core_iff hd]
    · simp [← missingSiblings_eq_nil_iff (hdraft l d hd)]
    · exact fun _ _ => target_eq_of_ite_none
  · simp [hset]

/-- An entry of the dictionary fills an attribute exactly if it changes something there. -/
theorem mem_fillAttributes_iff (hdraft : draft.WellFormed) (hd : draft.get? l = some d)
    {name : String} {source : Location} :
    ⟨l, .fillAttribute name source⟩ ∈ fillAttributes draft ↔
      (l.isCore = true ∧ l.kind ∈ Kind.withAttributes) ∧ source = .inCore .dictionary name ∧
        ∃ body entry, d.attribute? name = some body ∧ draft.get? source = some entry ∧
          (MergeRule.fill.apply body entry.fields).2 ≠ [] := by
  constructor
  · intro hop
    obtain ⟨⟨k, e⟩, hmem, hop⟩ := List.mem_flatMap.1 hop
    obtain ⟨⟨key, body⟩, hbody, hop⟩ := List.mem_filterMap.1 hop
    obtain ⟨entry, hentry, hop⟩ := Option.bind_eq_some_iff.1 hop
    obtain ⟨hchanges, hop⟩ := Option.ite_none_left_eq_some.1 hop
    cases hop
    obtain ⟨he, hcore, hkind⟩ := Draft.mem_core.1 hmem
    cases he.symm.trans hd
    rw [mem_attributes_iff (hdraft l d hd)] at hbody
    exact ⟨⟨hcore, hkind⟩, rfl, body, entry, hbody, hentry, by simpa using hchanges⟩
  · rintro ⟨⟨hcore, hkind⟩, rfl, body, entry, hbody, hentry, hchanges⟩
    refine List.mem_flatMap.2 ⟨(l, d), Draft.mem_core.2 ⟨hd, hcore, hkind⟩, ?_⟩
    refine List.mem_filterMap.2 ⟨(name, body), mem_attributes_of_attribute? hbody, ?_⟩
    simp [hentry, hchanges]

/-- Attributes are filled from the entry of their name. -/
theorem exists_fillAttribute {op : Operation} (hop : op ∈ fillAttributes draft) :
    ∃ name, op.action = .fillAttribute name (.inCore .dictionary name) := by
  have haction := (emits_fillAttributes hop).action
  cases hfill : op.action with
  | fillAttribute name source =>
    rw [hfill] at haction
    cases haction
    exact ⟨name, rfl⟩
  | _ =>
    rw [hfill] at haction
    exact haction.elim

/-- Attributes are filled exactly where nothing is proposed for them. -/
theorem isDone_dictionary_iff (hdraft : draft.WellFormed) (hd : draft.get? l = some d) :
    dictionary.IsDone draft options l d ↔ ∀ op ∈ fillAttributes draft, op.target ≠ l := by
  constructor
  · rintro hdone op hop rfl
    obtain ⟨name, haction⟩ := exists_fillAttribute hop
    obtain ⟨target, action⟩ := op
    cases haction
    obtain ⟨⟨hcore, hkind⟩, -, body, entry, hbody, hentry, hchanges⟩ :=
      (mem_fillAttributes_iff hdraft hd).1 hop
    exact hchanges (congrArg Prod.snd (hdone hcore hkind name body entry hbody hentry))
  · intro hnone hcore hkind name body entry hbody hentry
    by_contra hfilled
    refine hnone ⟨l, .fillAttribute name (.inCore .dictionary name)⟩
      ((mem_fillAttributes_iff hdraft hd).2 ?_) rfl
    refine ⟨⟨hcore, hkind⟩, rfl, body, entry, hbody, hentry, fun hchanges => hfilled ?_⟩
    exact Prod.ext (reports_merge _ _ body hchanges) hchanges

/-! ## Edits that leave nothing to do -/

/-- What is done for a definition is done for one that is the same. -/
theorem IsDone.of_same {planner : Planner} (hplanner : planner ≠ .dictionary) {other : Definition}
    (hd : d.WellFormed) (hother : other.WellFormed) (h : d.same other = true)
    (hdone : planner.IsDone draft options l other) : planner.IsDone draft options l d := by
  have hattribute {name : String} {body : Fields} (hbody : d.attribute? name = some body) :=
    (sameObjects_attribute? hd h name).exists_right hbody
  cases planner with
  | profileTag =>
    intro hkind name body hbody
    obtain ⟨body', hbody', hsame⟩ := hattribute hbody
    have hname : profileName l d = profileName l other := by
      rw [profileName, name?, text?_eq_of_same hd h]
      rfl
    rw [hname, hsame.profileTags_eq]
    exact hdone hkind name body' hbody'
  | observable =>
    intro hset hcore hkind name body hbody id hid
    obtain ⟨body', hbody', hsame⟩ := hattribute hbody
    rw [observableOf?, hsame.typeOf?_eq] at hid
    rw [hsame.observable?_eq]
    exact hdone hset hcore hkind name body' hbody' id hid
  | objectType =>
    intro hset hcore hkind type htype
    exact hdone hset hcore hkind type (mem_types_of_same hd hother h htype)
  | datetime =>
    intro hset hcore hkind name body hbody htype
    obtain ⟨body', hbody', hsame⟩ := hattribute hbody
    rw [hsame.typeOf?_eq] at htype
    have hthere := hdone hset hcore hkind name body' hbody' htype
    obtain ⟨sibling, hsibling⟩ := Option.isSome_iff_exists.1 hthere
    obtain ⟨mine, hmine⟩ :=
      (sameObjects_attribute? hd h (siblingName name)).exists_left hsibling
    simp [hmine]
  | dictionary => exact absurd rfl hplanner
  | _ => trivial

/-- A profile that has been tagged needs no more tags. -/
theorem isDone_tagProfile : profileTag.IsDone draft options l
    (d.tagProfile (profileName l d)).definition := by
  intro hkind name body hbody
  have hkept : (d.tagProfile (profileName l d)).definition.name? = d.name? :=
    (d.attributesOnly_editSlots _).text?_eq (by decide)
  have hname : profileName l (d.tagProfile (profileName l d)).definition = profileName l d := by
    rw [profileName, hkept, profileName]
  rw [hname]
  exact (d.taggedBut_tagProfile (profileName l d) (fun _ => False) name body hbody).resolve_left id

/-- The listed attributes have different names. -/
theorem pairwise_attributes (hd : d.WellFormed) :
    d.attributes.Pairwise fun a b => a.1 ≠ b.1 := by
  unfold attributes
  refine List.Pairwise.filterMap (R := fun a b : String × Json => a.1 ≠ b.1) _ ?_ ?_
  · intro a b hne a' ha b' hb
    obtain ⟨-, ha⟩ := Option.ite_none_left_eq_some.1 ha
    obtain ⟨-, hb⟩ := Option.ite_none_left_eq_some.1 hb
    obtain ⟨-, -, rfl⟩ := Option.map_eq_some_iff.1 ha
    obtain ⟨-, -, rfl⟩ := Option.map_eq_some_iff.1 hb
    exact hne
  · cases hattributes : d.attributes? with
    | none => exact .nil
    | some attributes =>
      exact List.pairwise_map.1 (Json.wellFormed_obj_iff.1 (hd.obj?_get? hattributes)).1

/-- The identifiers that the attributes of a definition are to get. -/
def assignmentsFor (names types : ExtTreeMap String Int) (d : Definition) : List (String × Int) :=
  d.attributes.filterMap fun (name, body) =>
    (observableOf? names types name body).bind fun id =>
      if observable? body = some id then none else some (name, id)

/-- An observable is assigned where its name or type has one that is not yet stated. -/
theorem getElem?_assignmentsFor (hd : d.WellFormed) {names types : ExtTreeMap String Int}
    {name : String} {id : Int} :
    (ExtTreeMap.ofList (assignmentsFor names types d))[name]? = some id ↔
      ∃ body, d.attribute? name = some body ∧ observableOf? names types name body = some id ∧
        observable? body ≠ some id := by
  rw [Inheritance.getElem?_ofList_eq_some_iff]
  · simp only [assignmentsFor, List.mem_filterMap, Option.bind_eq_some_iff, Prod.exists,
      mem_attributes_iff hd, Option.ite_none_left_eq_some, Option.some.injEq, Prod.mk.injEq]
    constructor
    · rintro ⟨name, body, hbody, id, hid, hnew, rfl, rfl⟩
      exact ⟨body, hbody, hid, hnew⟩
    · rintro ⟨body, hbody, hid, hnew⟩
      exact ⟨name, body, hbody, id, hid, hnew, rfl, rfl⟩
  · refine List.Pairwise.filterMap _ ?_ (pairwise_attributes hd)
    intro a b hne e he e' he' heq
    obtain ⟨id, -, he⟩ := Option.bind_eq_some_iff.1 he
    obtain ⟨id', -, he'⟩ := Option.bind_eq_some_iff.1 he'
    obtain ⟨-, he⟩ := Option.ite_none_left_eq_some.1 he
    obtain ⟨-, he'⟩ := Option.ite_none_left_eq_some.1 he'
    cases he
    cases he'
    exact hne (LawfulEqOrd.eq_of_compare heq)

/-- Observables are known by the names of their locations. -/
theorem getElem?_observablesOf (draft : Draft) (kind : Kind) (name : String) :
    (observablesOf draft kind)[name]? =
      (draft.get? (.inCore kind name)).bind fun d => observable? d.fields := by
  have hlocation {l : Location} {d : Definition} (hmem : (l, d) ∈ draft.core [kind]) :
      draft.get? l = some d ∧ l = .inCore kind l.name := by
    obtain ⟨hd, hcore, hkind⟩ := Draft.mem_core.1 hmem
    rw [List.mem_singleton] at hkind
    exact ⟨hd, hkind ▸ Draft.eq_inCore hcore⟩
  ext id
  rw [observablesOf, Inheritance.getElem?_ofList_eq_some_iff, Option.bind_eq_some_iff]
  · simp only [List.mem_filterMap, Option.map_eq_some_iff, Prod.exists, Prod.mk.injEq]
    constructor
    · rintro ⟨l, d, hmem, id, hid, rfl, rfl⟩
      obtain ⟨hd, hl⟩ := hlocation hmem
      exact ⟨d, hl ▸ hd, hid⟩
    · rintro ⟨d, hd, hid⟩
      exact ⟨_, d, Draft.mem_core.2 ⟨hd, rfl, List.mem_singleton_self kind⟩, id, hid, rfl, rfl⟩
  · refine List.Pairwise.filterMap _ ?_ ((draft.ordered_core [kind]).imp_of_mem
      (S := fun a b => a.1.name ≠ b.1.name) fun {a b} ha hb hlt heq => ?_)
    · intro a b hne e he e' he' heq
      obtain ⟨id, -, rfl⟩ := Option.map_eq_some_iff.1 he
      obtain ⟨id', -, rfl⟩ := Option.map_eq_some_iff.1 he'
      exact hne (LawfulEqOrd.eq_of_compare heq)
    · rw [(hlocation ha).2, (hlocation hb).2, heq, ReflOrd.compare_self] at hlt
      cases hlt

/-- Identifiers of observables can be read wherever they are written. -/
theorem int?_of_observableOf? {name : String} {body : Fields} {id : Int}
    (h : observableOf? (observablesOf draft .dictionary) (observablesOf draft .type) name body =
      some id) : (Json.ofInt id).int? = some id := by
  have hread {kind : Kind} {key : String} (hid : (observablesOf draft kind)[key]? = some id) :
      (Json.ofInt id).int? = some id := by
    rw [getElem?_observablesOf] at hid
    obtain ⟨entry, -, hid⟩ := Option.bind_eq_some_iff.1 hid
    exact int?_ofInt_of_observable? hid
  rcases Option.or_eq_some_iff.1 h with hname | ⟨-, htype⟩
  · exact hread hname
  · obtain ⟨type, -, htype⟩ := Option.bind_eq_some_iff.1 htype
    exact hread htype

/-- Once an attribute has its identifier there is none to give to it. -/
theorem isDone_assignObservables (hd : d.WellFormed) {assignments : ExtTreeMap String Int}
    (hassignments : assignments = ExtTreeMap.ofList (assignmentsFor
      (observablesOf draft .dictionary) (observablesOf draft .type) d)) :
    observable.IsDone draft options l (d.assignObservables assignments).definition := by
  intro hset hcore hkind name body' hbody' id hid
  have hassigned {new : Int} := @getElem?_assignmentsFor d hd (observablesOf draft .dictionary)
    (observablesOf draft .type) name new
  rw [← hassignments] at hassigned
  rw [attribute?_assignObservables] at hbody'
  obtain ⟨body, hbody, rfl⟩ := Option.map_eq_some_iff.1 hbody'
  cases hnew : assignments[name]? with
  | some new =>
    simp only [hnew, observableOf?, typeOf?_observe] at hid ⊢
    obtain ⟨body', hbody', hnew, -⟩ := hassigned.1 hnew
    cases hbody'.symm.trans hbody
    cases hnew.symm.trans hid
    exact observable?_observe (int?_of_observableOf? hid) body
  | none =>
    simp only [hnew] at hid ⊢
    by_contra hmissing
    rw [hassigned.2 ⟨body, hbody, hid, hmissing⟩] at hnew
    cases hnew

end Planner

/-! ## Attributes that lack nothing of their entries -/

namespace Definition

/-- The attribute under a name, if there is one, gets nothing from an entry. -/
def LacksNothingOf (d : Definition) (name : String) (entry : Definition) : Prop :=
  ∀ body, d.attribute? name = some body → MergeRule.fill.apply body entry.fields = (body, [])

/-- The attribute that is found is the one that was inserted. -/
theorem attribute?_insertAttribute_self {d : Definition} {name : String} {filled body : Fields}
    (h : (d.insertAttribute name filled).attribute? name = some body) : body = filled := by
  rcases attribute?_insertAttribute_cases h with ⟨-, heq⟩ | ⟨hne, -⟩
  · exact heq
  · exact absurd rfl hne

/-- A filled attribute was there, and is merged with the entry. -/
theorem exists_of_fillAttribute {d entry : Definition} {name : String} {revision : Revision}
    (h : d.fillAttribute name entry = .ok revision) :
    ∃ body, d.slot? name = some body ∧
      revision.definition = d.insertAttribute name (MergeRule.fill.apply body entry.fields).1 := by
  unfold fillAttribute at h
  split at h
  · rename_i filled hslot
    cases h
    obtain ⟨body, hbody, rfl⟩ := Option.map_eq_some_iff.1 hslot
    exact ⟨body, hbody, rfl⟩
  · cases h

/-- A filled attribute lacks nothing of its entry, and lacked nothing if it is still the same. -/
theorem lacksNothingOf_fillAttribute {d entry : Definition} (hd : d.WellFormed)
    (hentry : entry.WellFormed) {name : String} {revision : Revision}
    (h : d.fillAttribute name entry = .ok revision) :
    revision.definition.LacksNothingOf name entry ∧
      (d.same revision.definition = true → d.LacksNothingOf name entry) := by
  obtain ⟨old, hold, hrevision⟩ := exists_of_fillAttribute h
  rw [hrevision]
  constructor
  · intro body hbody
    rw [attribute?_insertAttribute_self hbody, apply_fill, apply_fill]
    exact Fields.merge_merge false old hentry
  · intro hsame body hbody
    have hplain := (attribute?_eq_some_iff.1 hbody).1
    rw [attribute?_eq_slot? d hplain, hold, Option.some.injEq] at hbody
    subst hbody
    have hobjects := sameObjects_attribute? hd hsame name
    rw [attribute?_insertAttribute d _ hplain, attribute?_eq_slot? d hplain, hold] at hobjects
    cases hobjects with
    | some hkept =>
      rw [apply_fill] at hkept ⊢
      exact Fields.merge_eq_self_of_same hentry hkept.2

/-- To fill another attribute leaves nothing lacking. -/
theorem LacksNothingOf.fillAttribute {d entry other : Definition} {name key : String}
    (h : d.LacksNothingOf name entry) (hkey : name ≠ key) {revision : Revision}
    (hfill : d.fillAttribute key other = .ok revision) :
    revision.definition.LacksNothingOf name entry := by
  obtain ⟨old, -, hrevision⟩ := exists_of_fillAttribute hfill
  intro body hbody
  rw [hrevision, d.attribute?_insertAttribute_of_ne _ hkey] at hbody
  exact h body hbody

end Definition

namespace Operation

/-- A location whose attribute of a name lacks nothing of the entry of the dictionary. -/
def Filled (draft : Draft) (l : Location) (name : String) (entry : Definition) : Prop :=
  ∀ d, draft.get? l = some d → d.LacksNothingOf name entry

/-- Filling an attribute from its entry leaves it without gaps, and keeps others without gaps. -/
theorem filled_run {op : Operation} {key : String}
    (hop : op.action = .fillAttribute key (.inCore .dictionary key)) {draft : Draft}
    (hdraft : draft.WellFormed) {options : Options}
    (hsucceeds : (op.outcome draft options).isFailed = false) {l : Location} {name : String}
    {entry : Definition} (hentry : draft.get? (.inCore .dictionary name) = some entry)
    (h : Filled draft l name entry ∨ op.target = l ∧ key = name) :
    Filled (op.run draft options) l name entry := by
  obtain ⟨target, action⟩ := op
  cases hop
  intro after hafter
  by_cases hhere : target = l ∧ key = name
  · obtain ⟨rfl, rfl⟩ := hhere
    obtain ⟨d, hd, -⟩ := exists_get?_of_run rfl hafter
    obtain ⟨_, hget, hdone⟩ := done_of_run (P := (·.LacksNothingOf key entry)) rfl hd hsucceeds
      fun revision hedit => by
        obtain ⟨found, hfound, hfill⟩ := exists_of_bind_source hedit
        cases hfound.symm.trans hentry
        exact Definition.lacksNothingOf_fillAttribute (hdraft _ _ hd) (hdraft _ _ hentry) hfill
    cases hget.symm.trans hafter
    exact hdone
  · have hbefore := h.resolve_right hhere
    by_cases htarget : target = l
    · subst htarget
      have hkey : name ≠ key := fun heq => hhere ⟨rfl, heq.symm⟩
      obtain ⟨d, hd, heq | ⟨revision, hedit, rfl⟩⟩ := exists_get?_of_run rfl hafter
      · exact heq ▸ hbefore d hd
      · obtain ⟨found, -, hfill⟩ := exists_of_bind_source hedit
        exact (hbefore d hd).fillAttribute hkey hfill
    · rw [run_get?_of_ne _ draft options htarget] at hafter
      exact hbefore after hafter

/-- An attribute that lacks nothing, or is filled in the course of a run, lacks nothing at the
end. -/
theorem filled_runAll {ops : List Operation}
    (hops : ∀ op ∈ ops, ∃ key, op.action = .fillAttribute key (.inCore .dictionary key))
    {name : String} (hkeeps : ∀ op ∈ ops, op.target ≠ .inCore .dictionary name) {draft : Draft}
    (hdraft : draft.WellFormed) {options : Options} (hintact : (runAll options draft ops).Intact)
    {l : Location} {entry : Definition}
    (hentry : draft.get? (.inCore .dictionary name) = some entry)
    (h : Filled draft l name entry ∨
      ⟨l, .fillAttribute name (.inCore .dictionary name)⟩ ∈ ops) :
    Filled (runAll options draft ops) l name entry := by
  induction ops generalizing draft with
  | nil => exact h.resolve_right List.not_mem_nil
  | cons op rest ih =>
    rw [List.forall_mem_cons] at hops hkeeps
    obtain ⟨key, hop⟩ := hops.1
    have hsucceeds : (op.outcome draft options).isFailed = false := by
      refine isFailed_outcome_of_intact (Option.not_isSome_iff_eq_none.1 fun hfailed => ?_)
      have hend : ((runAll options (op.run draft options) rest).failure? op.target).isSome =
          true := isSome_failure?_runAll hfailed rest
      rw [← runAll_cons, hintact op.target] at hend
      cases hend
    have hthere := (op.run_get?_of_ne draft options hkeeps.1).trans hentry
    have hrun := filled_run hop hdraft hsucceeds (l := l) hentry
    refine ih hops.2 hkeeps.2 (hdraft.run op options) hintact hthere ?_
    rcases h with hfilled | hmem
    · exact Or.inl (hrun (Or.inl hfilled))
    · rcases List.mem_cons.1 hmem with rfl | hmem
      · cases hop
        exact Or.inl (hrun (Or.inr ⟨rfl, rfl⟩))
      · exact Or.inr hmem

end Operation

namespace Planner

open Definition Operation

variable {draft : Draft} {options : Options} {l : Location} {d : Definition}

/-! ## Planning again -/

/-- The planners that find nothing to do once their operations have been run. -/
def resting : List Planner := [.profileTag, .dictionary, .observable, .objectType, .datetime]

/-- What is planned is about definitions that are there, and its edits leave nothing to do. -/
def LeavesDone (planner : Planner) (draft : Draft) (options : Options) (op : Operation) : Prop :=
  ∃ d, draft.get? op.target = some d ∧ ∀ seen revision, op.edit seen options d = .ok revision →
    planner.IsDone draft options op.target revision.definition

/-- A proposed tag is written by its operation. -/
theorem leavesDone_tagProfiles {op : Operation} (hop : op ∈ tagProfiles draft) :
    profileTag.LeavesDone draft options op := by
  obtain ⟨⟨l, d⟩, hmem, hop⟩ := List.mem_filterMap.1 hop
  obtain ⟨-, hop⟩ := Option.ite_none_right_eq_some.1 hop
  cases hop
  have hd := Draft.mem_toList_definitions.1 (List.mem_filter.1 hmem).1
  refine ⟨d, hd, fun seen revision hedit => ?_⟩
  cases hedit
  exact isDone_tagProfile

/-- A proposed observable is assigned by its operation. -/
theorem leavesDone_assignObservables (hdraft : draft.WellFormed) {op : Operation}
    (hop : op ∈ assignObservables draft options) :
    observable.LeavesDone draft options op := by
  obtain ⟨-, hop⟩ := List.mem_ite_nil_left.1 hop
  obtain ⟨⟨l, d⟩, hmem, hop⟩ := List.mem_filterMap.1 hop
  obtain ⟨-, hop⟩ := Option.ite_none_left_eq_some.1 hop
  cases hop
  have hd := (Draft.mem_core.1 hmem).1
  refine ⟨d, hd, fun seen revision hedit => ?_⟩
  cases hedit
  exact isDone_assignObservables (hdraft l d hd) rfl

/-- A proposed type of an object is set by its operation. -/
theorem leavesDone_setObjectTypes {op : Operation} (hop : op ∈ setObjectTypes draft options) :
    objectType.LeavesDone draft options op := by
  obtain ⟨-, hop⟩ := List.mem_ite_nil_left.1 hop
  obtain ⟨⟨l, d⟩, hmem, hop⟩ := List.mem_filterMap.1 hop
  obtain ⟨-, hop⟩ := Option.ite_none_left_eq_some.1 hop
  cases hop
  refine ⟨d, (Draft.mem_core.1 hmem).1, fun seen revision hedit _ _ _ type htype => ?_⟩
  exact isPrimitive_of_mem_types_setObjectTypes hedit htype

/-- A proposed sibling is added by its operation. -/
theorem leavesDone_addSiblings (hdraft : draft.WellFormed) {op : Operation}
    (hop : op ∈ addSiblings draft options) : datetime.LeavesDone draft options op := by
  obtain ⟨-, hop⟩ := List.mem_ite_nil_left.1 hop
  obtain ⟨⟨l, d⟩, hmem, hop⟩ := List.mem_filterMap.1 hop
  obtain ⟨-, hop⟩ := Option.ite_none_left_eq_some.1 hop
  cases hop
  have hd := (Draft.mem_core.1 hmem).1
  refine ⟨d, hd, fun seen revision hedit _ _ _ => ?_⟩
  cases hedit
  have hwellFormed := hdraft l d hd
  exact (missingSiblings_eq_nil_iff hwellFormed.addSiblings).1
    (missingSiblings_addSiblings hwellFormed)

/-- Operations of a planner that plans once for each definition leave every definition done. -/
theorem isDone_runAll {planner : Planner} (hplanner : planner ≠ .dictionary)
    (hdraft : draft.WellFormed) {ops : List Operation}
    (hdistinct : ops.Pairwise fun a b => a.target ≠ b.target)
    (hcreates : ∀ op ∈ ops, op.action.createsTarget = false)
    (hintact : (runAll options draft ops).Intact)
    (hidle : ∀ l d, draft.get? l = some d → (∀ op ∈ ops, op.target ≠ l) →
      planner.IsDone draft options l d)
    (hleaves : ∀ op ∈ ops, planner.LeavesDone draft options op) {after : Definition}
    (hafter : (runAll options draft ops).get? l = some after) :
    planner.IsDone draft options l after := by
  obtain ⟨d, hd⟩ : ∃ d, draft.get? l = some d := by
    by_cases htarget : ∃ op ∈ ops, op.target = l
    · obtain ⟨op, hop, rfl⟩ := htarget
      obtain ⟨d, hd, -⟩ := hleaves op hop
      exact ⟨d, hd⟩
    · have hkept := sameAt_runAll_of_forall_ne options
        (fun op hop heq => htarget ⟨op, hop, heq⟩) draft
      exact ⟨after, hkept.definition.symm.trans hafter⟩
  have hwellFormed := hdraft l d hd
  obtain ⟨_, hget, hdone⟩ := done_of_runAll (P := planner.IsDone draft options l) hdistinct hcreates
    hdraft hintact hd (hidle l d hd) fun op hop htarget seen hseen revision hedit => by
      obtain ⟨planned, hplanned, hdone⟩ := hleaves op hop
      rw [htarget] at hplanned hdone
      cases hplanned.symm.trans hd
      have hhere := hdone seen revision hedit
      exact ⟨hhere, fun hsame =>
        hhere.of_same hplanner hwellFormed (wellFormed_of_edit hseen hwellFormed hedit) hsame⟩
  cases hget.symm.trans hafter
  exact hdone

/-- Whether a planner has something to do depends on the dictionary besides the definition. -/
theorem isDone_congr {planner : Planner} {other : Draft}
    (hentries : planner ≠ .objectType → ∀ kind ∈ [Kind.dictionary, Kind.type], ∀ name,
      other.get? (.inCore kind name) = draft.get? (.inCore kind name)) :
    planner.IsDone other options l d ↔ planner.IsDone draft options l d := by
  have hobservables (hplanner : planner ≠ .objectType) (kind : Kind)
      (hkind : kind ∈ [Kind.dictionary, Kind.type]) :
      observablesOf other kind = observablesOf draft kind := by
    ext name : 1
    rw [getElem?_observablesOf, getElem?_observablesOf, hentries hplanner kind hkind]
  unfold IsDone
  cases planner with
  | dictionary => simp only [hentries (by decide) .dictionary (by simp)]
  | observable =>
    simp only [hobservables (by decide) .dictionary (by simp),
      hobservables (by decide) .type (by simp)]
  | _ => rfl

/-- Attributes are filled when all operations for them have succeeded. -/
theorem isDone_runAll_fillAttributes (hdraft : draft.WellFormed)
    (hintact : (runAll options draft (fillAttributes draft)).Intact) {after : Definition}
    (hafter : (runAll options draft (fillAttributes draft)).get? l = some after) :
    dictionary.IsDone draft options l after := by
  intro hcore hkind name body entry hbody hentry
  have hkeeps : ∀ op ∈ fillAttributes draft, op.target ≠ .inCore .dictionary name := by
    intro op hop htarget
    have htargets := (emits_fillAttributes hop).kind
    rw [htarget] at htargets
    simp [targetKinds, Kind.withAttributes, Location.inCore] at htargets
  refine filled_runAll (fun _ => exists_fillAttribute) hkeeps hdraft hintact hentry ?_ after
    hafter body hbody
  by_cases hplanned : ⟨l, .fillAttribute name (.inCore .dictionary name)⟩ ∈ fillAttributes draft
  · exact Or.inr hplanned
  · left
    intro d hd body hbody
    by_contra hfilled
    refine hplanned ((mem_fillAttributes_iff hdraft hd).2
      ⟨⟨hcore, hkind⟩, rfl, body, entry, hbody, hentry, fun hchanges => hfilled ?_⟩)
    exact Prod.ext (reports_merge _ _ body hchanges) hchanges

/-- A planner is done exactly where it proposes nothing. -/
theorem isDone_iff_forall_target_ne {planner : Planner} (hplanner : planner ∈ resting)
    (hdraft : draft.WellFormed) {ops : List Operation}
    (hops : planner.analyze draft options = .ok ops) (hd : draft.get? l = some d) :
    planner.IsDone draft options l d ↔ ∀ op ∈ ops, op.target ≠ l := by
  simp only [resting, List.mem_cons, List.not_mem_nil, or_false] at hplanner
  rcases hplanner with rfl | rfl | rfl | rfl | rfl <;> cases hops
  · exact isDone_profileTag_iff hdraft hd
  · exact isDone_dictionary_iff hdraft hd
  · exact isDone_observable_iff hdraft hd
  · exact isDone_objectType_iff hd
  · exact isDone_datetime_iff hdraft hd

/-- Tags are planned once for each profile. -/
theorem pairwise_target_tagProfiles (draft : Draft) :
    (tagProfiles draft).Pairwise fun a b => a.target ≠ b.target := by
  refine List.Pairwise.filterMap _ ?_ (draft.definitions.ordered_keys_toList.filter _)
  rintro ⟨l, d⟩ ⟨l', d'⟩ hlt op hop op' hop'
  obtain ⟨-, hop⟩ := Option.ite_none_right_eq_some.1 hop
  obtain ⟨-, hop'⟩ := Option.ite_none_right_eq_some.1 hop'
  cases hop
  cases hop'
  rintro rfl
  simp at hlt

/-- Identifiers of observables are planned once for each definition. -/
theorem pairwise_target_assignObservables (draft : Draft) (options : Options) :
    (assignObservables draft options).Pairwise fun a b => a.target ≠ b.target := by
  unfold assignObservables
  split
  · exact .nil
  · exact pairwise_target_filterMap fun _ _ => target_eq_of_ite_none

/-- Siblings are planned once for each definition. -/
theorem pairwise_target_addSiblings (draft : Draft) (options : Options) :
    (addSiblings draft options).Pairwise fun a b => a.target ≠ b.target := by
  unfold addSiblings
  split
  · exact .nil
  · exact pairwise_target_filterMap fun _ _ => target_eq_of_ite_none

/-- What has been planned leaves every definition done, if nothing fails. -/
theorem isDone_of_planned {planner : Planner} (hplanner : planner ∈ resting)
    (hdraft : draft.WellFormed) {ops : List Operation}
    (hops : planner.analyze draft options = .ok ops) (hintact : (runAll options draft ops).Intact)
    {after : Definition} (hafter : (runAll options draft ops).get? l = some after) :
    planner.IsDone draft options l after := by
  have hidle (k : Location) (d : Definition) (hd : draft.get? k = some d) :
      (∀ op ∈ ops, op.target ≠ k) → planner.IsDone draft options k d :=
    (isDone_iff_forall_target_ne hplanner hdraft hops hd).2
  have hcreates (op : Operation) (hop : op ∈ ops) : op.action.createsTarget = false := by
    refine (emits_of_mem hops hop).createsTarget ?_ ?_ <;> rintro rfl <;> simp [resting] at hplanner
  simp only [resting, List.mem_cons, List.not_mem_nil, or_false] at hplanner
  rcases hplanner with rfl | rfl | rfl | rfl | rfl <;> cases hops
  · exact isDone_runAll (by decide) hdraft (pairwise_target_tagProfiles draft) hcreates hintact
      hidle (fun _ => leavesDone_tagProfiles) hafter
  · exact isDone_runAll_fillAttributes hdraft hintact hafter
  · exact isDone_runAll (by decide) hdraft (pairwise_target_assignObservables draft options)
      hcreates hintact hidle (fun _ => leavesDone_assignObservables hdraft) hafter
  · exact isDone_runAll (by decide) hdraft (pairwise_target_setObjectTypes draft options)
      hcreates hintact hidle (fun _ => leavesDone_setObjectTypes) hafter
  · exact isDone_runAll (by decide) hdraft (pairwise_target_addSiblings draft options)
      hcreates hintact hidle (fun _ => leavesDone_addSiblings hdraft) hafter

/-- What is proposed for a location finds a definition there. -/
theorem exists_get?_of_planned {planner : Planner} (hplanner : planner ∈ resting)
    (hdraft : draft.WellFormed) {ops : List Operation}
    (hops : planner.analyze draft options = .ok ops) {op : Operation} (hop : op ∈ ops) :
    ∃ d, draft.get? op.target = some d := by
  have hthere {planner : Planner} (h : planner.LeavesDone draft options op) :
      ∃ d, draft.get? op.target = some d :=
    h.imp fun _ hd => hd.1
  simp only [resting, List.mem_cons, List.not_mem_nil, or_false] at hplanner
  rcases hplanner with rfl | rfl | rfl | rfl | rfl <;> cases hops
  · exact hthere (leavesDone_tagProfiles hop)
  · obtain ⟨⟨l, d⟩, hmem, hop⟩ := List.mem_flatMap.1 hop
    obtain ⟨⟨name, body⟩, -, hop⟩ := List.mem_filterMap.1 hop
    obtain ⟨entry, -, hop⟩ := Option.bind_eq_some_iff.1 hop
    obtain ⟨-, hop⟩ := Option.ite_none_left_eq_some.1 hop
    cases hop
    exact ⟨d, (Draft.mem_core.1 hmem).1⟩
  · exact hthere (leavesDone_assignObservables hdraft hop)
  · exact hthere (leavesDone_setObjectTypes hop)
  · exact hthere (leavesDone_addSiblings hdraft hop)

/-- A planner has nothing to plan if every definition is done. -/
theorem analyze_eq_nil {planner : Planner} (hplanner : planner ∈ resting)
    (hdraft : draft.WellFormed)
    (hdone : ∀ l d, draft.get? l = some d → planner.IsDone draft options l d) :
    planner.analyze draft options = .ok [] := by
  obtain ⟨ops, hops⟩ : ∃ ops, planner.analyze draft options = .ok ops := by
    simp only [resting, List.mem_cons, List.not_mem_nil, or_false] at hplanner
    rcases hplanner with rfl | rfl | rfl | rfl | rfl <;> exact ⟨_, rfl⟩
  rw [hops, Except.ok.injEq, List.eq_nil_iff_forall_not_mem]
  intro op hop
  obtain ⟨d, hd⟩ := exists_get?_of_planned hplanner hdraft hops hop
  exact (isDone_iff_forall_target_ne hplanner hdraft hops hd).1 (hdone op.target d hd) op hop rfl

/--
Where everything that a planner has planned for tags, gaps, observables, references or siblings is
run and nothing fails, the planner has nothing to plan afterwards: each attribute of a profile has
its tag, each attribute lacks nothing that its entry of the dictionary has, each has its identifier
as an observable, by name before type, no type is left that is not primitive, and each timestamp has
its sibling.
-/
theorem planners_come_to_rest (hdraft : draft.WellFormed) (hintact : draft.Intact)
    {planner : Planner} (hplanner : planner ∈ resting) {ops : List Operation}
    (hops : planner.analyze draft options = .ok ops)
    (hnone : ∀ entry ∈ trace options draft ops, entry.outcome.isFailed = false) :
    planner.analyze (runAll options draft ops) options = .ok [] ∧
      ∀ l d, (runAll options draft ops).get? l = some d →
        planner.IsDone (runAll options draft ops) options l d := by
  have hend : (runAll options draft ops).Intact := by
    intro l
    rw [failure?_runAll, hintact l, Option.none_or, ← Option.not_isSome_iff_eq_none,
      LogEntry.isSome_firstCause?_iff]
    rintro ⟨entry, hentry, hfailed⟩
    rw [hnone entry (LogEntry.mem_targeting.1 hentry).1] at hfailed
    cases hfailed
  have hdone (l : Location) (d : Definition) (hd : (runAll options draft ops).get? l = some d) :
      planner.IsDone (runAll options draft ops) options l d := by
    refine (isDone_congr fun hreferences kind hkind name => ?_).2
      (isDone_of_planned hplanner hdraft hops hend hd)
    refine (sameAt_runAll_of_forall_ne options (fun op hop htarget => ?_) draft).definition
    have htargets := (emits_of_mem hops hop).kind
    rw [htarget] at htargets
    simp only [resting, List.mem_cons, List.not_mem_nil, or_false] at hplanner hkind
    rcases hplanner with rfl | rfl | rfl | rfl | rfl <;> rcases hkind with rfl | rfl <;>
      first
      | exact hreferences rfl
      | simp [targetKinds, Kind.withAttributes, Location.inCore] at htargets
  exact ⟨analyze_eq_nil hplanner (hdraft.runAll options ops) hdone, hdone⟩

/-- An object, one that has an attribute of its type and a timestamp, a profile, and an entry of the
dictionary. -/
def untiedDraft : Draft :=
  let user : Definition := ⟨[("caption", .str "User")]⟩
  let login : Definition := ⟨[("attributes", .obj
    [("owner", .obj [("type", .str "user")]), ("time", .obj [("type", .str "timestamp_t")])])]⟩
  let host : Definition := ⟨[("attributes", .obj [("owner", .obj [])])]⟩
  let owner : Definition := ⟨[("observable", Json.ofInt 2), ("caption", .str "Owner")]⟩
  Draft.ofRepository .empty
    |>.write (.inCore .object "user") user
    |>.write (.inCore .object "login") login
    |>.write (.inCore .profile "host") host
    |>.write (.inCore .dictionary "owner") owner

theorem wellFormed_untiedDraft : untiedDraft.WellFormed := by
  refine (((Draft.wellFormed_empty.write _ ?_).write _ ?_).write _ ?_).write _ ?_ <;>
    simp [WellFormed, Definition.toJson, Json.WellFormed, Json.WellFormedFields, Json.ofInt]

/-- Options with all edits. -/
def observing : Options := { setObservable := true }

/-- What a planner plans for the draft. -/
def untiedPlan (planner : Planner) : List Operation :=
  (planner.analyze untiedDraft observing).toOption.getD []

/-- Each of the planners has something to do, and nothing more once it is done. -/
theorem untied_draft_comes_to_rest :
    (resting.map fun planner => (untiedPlan planner).length) = [1, 2, 2, 1, 1] ∧
      (resting.map fun planner =>
        planner.analyze (runAll observing untiedDraft (untiedPlan planner)) observing) =
          List.replicate resting.length (.ok []) := by
  refine ⟨by decide +kernel, List.map_eq_replicate_iff.2 fun planner hplanner => ?_⟩
  have hintact : untiedDraft.Intact := fun l => Draft.failure?_ofRepository .empty l
  have hops : planner.analyze untiedDraft observing = .ok (untiedPlan planner) := by
    simp only [resting, List.mem_cons, List.not_mem_nil, or_false] at hplanner
    rcases hplanner with rfl | rfl | rfl | rfl | rfl <;> rfl
  have hnone : ∀ planner ∈ resting, ∀ entry ∈ trace observing untiedDraft (untiedPlan planner),
      entry.outcome.isFailed = false := by
    decide +kernel
  exact (planners_come_to_rest wellFormed_untiedDraft hintact hplanner hops
    (hnone planner hplanner)).1

end Planner

end EventSchema
