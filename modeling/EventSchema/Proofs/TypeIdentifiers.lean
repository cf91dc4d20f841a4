import EventSchema.Proofs.ClassIdentifiers
import EventSchema.Proofs.EnumerationMembers
import Std.Data.String.ToInt

/-!
# The types of classes

The type of an activity is {lit}`class * 100 + activity`.  Types are stated once the classes have
their identifiers, from the activities that a class has by then, and what follows leaves both alone.
So a class of the schema has one type for each number of an activity.  Two classes share no type as
long as the numbers of their activities stay below a hundred.

Main results:

- {lit}`Definition.keys_of_typeMembers`: the keys of the types of a class.
- {lit}`Planner.memberKeys_runAll_assignTypes`: a class has the types of its activities once types
  have been stated.
- {lit}`Compilation.schema_types_match_activities`: types of the schema identify class and activity.
-/

namespace EventSchema

open Std

namespace Definition

/-- The key of the type of an activity. -/
def typeText (classUid activity : Int) : String := toString (classUid * 100 + activity)

theorem typeUid?_eq_some {classUid activity uid : Int} (h : typeUid? classUid activity = some uid) :
    uid = classUid * 100 + activity := by
  obtain ⟨base, hbase, hsum⟩ := Option.bind_eq_some_iff.1 h
  obtain ⟨rfl, -⟩ := Word.fit?_eq_some_iff.1 hbase
  obtain ⟨rfl, -⟩ := Word.fit?_eq_some_iff.1 hsum
  rfl

theorem typeText_injective (classUid : Int) : Function.Injective (typeText classUid) := by
  intro a b h
  have hsum : classUid * 100 + a = classUid * 100 + b := Int.repr_injective h
  omega

/-- Below a hundred, activities of different classes have different types. -/
theorem typeText_ne {classUid classUid' activity activity' : Int} (hne : classUid ≠ classUid')
    (h : 0 ≤ activity ∧ activity < 100) (h' : 0 ≤ activity' ∧ activity' < 100) :
    typeText classUid activity ≠ typeText classUid' activity' := by
  intro heq
  have hsum : classUid * 100 + activity = classUid' * 100 + activity' := Int.repr_injective heq
  omega

/-- Types are stated under their own keys, in the order of the activities. -/
theorem keys_of_typeMembers {classUid : Int} {label : String} {activities : List Activity}
    {members : Fields} (h : typeMembers classUid label activities = .ok members) :
    members.map Prod.fst = (activities.map Activity.id).map (typeText classUid) := by
  induction activities generalizing members with
  | nil =>
    cases h
    rfl
  | cons activity rest ih =>
    rw [typeMembers] at h
    split at h
    · cases h
    · rename_i uid huid
      cases hrest : typeMembers classUid label rest with
      | error cause => simp [hrest, Except.map] at h
      | ok more =>
        rw [hrest] at h
        cases h
        simp [ih hrest, typeText, typeUid?_eq_some huid]

/-- A class with activities gets one type for each of their numbers. -/
theorem memberKeys_assignTypes {d : Definition} (hd : d.WellFormed) {classUid : Int}
    {label : String} {revision : Revision} (h : d.assignTypes classUid label = .ok revision)
    (hids : d.activityIds ≠ []) :
    (revision.definition.memberKeys "type_uid").Perm
      (d.activityIds.dedup.map (typeText classUid)) := by
  rcases assignTypes_eq_ok h with ⟨hnone, -⟩ | ⟨members, hmembers, rfl⟩
  · exact absurd hnone (activities_ne_nil hids)
  · refine (memberKeys_setEnum hd (by decide) _).trans ?_
    refine (Fields.keys_ofList_perm (wellFormed_of_typeMembers hmembers)).trans ?_
    rw [keys_of_typeMembers hmembers, map_id_activities,
      List.dedup_map_of_injective (typeText_injective classUid)]

end Definition

namespace Operation

/-- Of operations on different locations only one comes to its target. -/
theorem exists_split_sameAt_runAll {ops : List Operation}
    (hops : ops.Pairwise fun a b => a.target ≠ b.target) {op : Operation} (hop : op ∈ ops)
    (options : Options) (draft : Draft) :
    ∃ before after, ops = before ++ op :: after ∧
      (runAll options draft ops).SameAt
        (op.run (runAll options draft before) options) op.target ∧
      (runAll options draft before).SameAt draft op.target := by
  obtain ⟨before, after, rfl⟩ := List.append_of_mem hop
  obtain ⟨-, hafter, hbefore⟩ := List.pairwise_append.1 hops
  refine ⟨before, after, rfl, ?_, ?_⟩
  · rw [runAll_append, runAll_cons]
    apply sameAt_runAll_of_forall_ne
    intro other hother
    exact ((List.pairwise_cons.1 hafter).1 other hother).symm
  · apply sameAt_runAll_of_forall_ne
    intro other hother
    exact hbefore other hother op List.mem_cons_self

theorem exists_sameAt_runAll {ops : List Operation}
    (hops : ops.Pairwise fun a b => a.target ≠ b.target) {op : Operation} (hop : op ∈ ops)
    (options : Options) (draft : Draft) :
    ∃ before, (runAll options draft ops).SameAt
        (op.run (runAll options draft before) options) op.target ∧
      (runAll options draft before).SameAt draft op.target := by
  obtain ⟨before, -, -, hrun⟩ := exists_split_sameAt_runAll hops hop options draft
  exact ⟨before, hrun⟩

/-- A class that did not fail has the types of its activities afterwards. -/
theorem exists_memberKeys_run_assignTypes {op : Operation} {classUid : Int} {label : String}
    (haction : op.action = .assignTypes classUid label) {draft : Draft} (hdraft : draft.WellFormed)
    {options : Options} (h : (op.run draft options).failure? op.target = none) {d : Definition}
    (hd : draft.get? op.target = some d) (hids : d.activityIds ≠ []) :
    ∃ after, (op.run draft options).get? op.target = some after ∧
      (after.memberKeys "type_uid").Perm
        (d.activityIds.dedup.map (Definition.typeText classUid)) := by
  refine exists_memberKeys_of_run hdraft h hd fun revision hedit => ?_
  have hedit : d.assignTypes classUid label = .ok revision := by
    unfold edit at hedit
    simpa only [haction] using hedit
  refine ⟨Definition.memberKeys_assignTypes (hdraft _ _ hd) hedit hids, fun hchanges => ?_⟩
  rcases Definition.assignTypes_eq_ok hedit with ⟨hnone, -⟩ | ⟨members, -, rfl⟩
  · exact absurd hnone (Definition.activities_ne_nil hids)
  · exact Definition.enumeration?_setEnum_of_changes (by decide) hchanges

end Operation

namespace Planner

open Operation

theorem target_eq_of_ite_none {c : Prop} [Decidable c] {l : Location} {action : Action}
    {op : Operation} (h : (if c then none else some (⟨l, action⟩ : Operation)) = some op) :
    op.target = l := by
  obtain ⟨-, h⟩ := Option.ite_none_left_eq_some.1 h
  cases h
  rfl

/-- What is planned from the listing of core for the listed locations is planned once for each. -/
theorem pairwise_target_filterMap {draft : Draft} {kinds : List Kind}
    {plan : Location × Definition → Option Operation}
    (hplan : ∀ e op, plan e = some op → op.target = e.1) :
    ((draft.core kinds).filterMap plan).Pairwise fun a b => a.target ≠ b.target := by
  refine List.Pairwise.filterMap _ ?_ (draft.ordered_core kinds)
  intro e e' hlt op hop op' hop' heq
  rw [hplan e op hop, hplan e' op' hop'] at heq
  rw [heq, ReflOrd.compare_self] at hlt
  cases hlt

/-- Types are stated once for each class. -/
theorem pairwise_target_assignTypes (draft : Draft) :
    (assignTypes draft).Pairwise fun a b => a.target ≠ b.target := by
  refine pairwise_target_filterMap fun e op hop => ?_
  obtain ⟨uid, -, hop⟩ := Option.bind_eq_some_iff.1 hop
  obtain ⟨-, hop⟩ := Option.ite_none_left_eq_some.1 hop
  cases hop
  rfl

theorem mem_assignTypes {draft : Draft} {l : Location} {d : Definition} (hd : draft.get? l = some d)
    (hcore : l.isCore = true) (hkind : l.kind ∈ [Kind.eventClass, Kind.event]) {uid : Int}
    (huid : d.uid? = some uid) (hids : d.activityIds ≠ []) :
    ⟨l, .assignTypes uid (labelOf l d)⟩ ∈ assignTypes draft := by
  refine List.mem_filterMap.2 ⟨(l, d), Draft.mem_core.2 ⟨hd, hcore, hkind⟩, ?_⟩
  have hactivities := Definition.activities_ne_nil hids
  simp [huid, hactivities]

theorem Emits.exists_assignTypes {op : Operation} (h : typeUid.Emits op) :
    ∃ uid label, op.action = .assignTypes uid label := by
  have haction := h.action
  cases hop : op.action with
  | assignTypes uid label => exact ⟨uid, label, rfl⟩
  | _ =>
    rw [hop] at haction
    exact haction.elim

/-- Once types have been stated, a class that did not fail has those of its activities. -/
theorem memberKeys_runAll_assignTypes {draft : Draft} (hdraft : draft.WellFormed) {l : Location}
    {d : Definition} (hd : draft.get? l = some d) (hcore : l.isCore = true)
    (hkind : l.kind ∈ [Kind.eventClass, Kind.event]) {uid : Int} (huid : d.uid? = some uid)
    (hids : d.activityIds ≠ []) {options : Options}
    (h : (runAll options draft (assignTypes draft)).failure? l = none) {after : Definition}
    (hafter : (runAll options draft (assignTypes draft)).get? l = some after) :
    (after.memberKeys "type_uid").Perm (d.activityIds.dedup.map (Definition.typeText uid)) := by
  have hop := mem_assignTypes hd hcore hkind huid hids
  obtain ⟨before, htypes, hbefore⟩ :=
    exists_sameAt_runAll (pairwise_target_assignTypes draft) hop options draft
  rw [htypes.failure] at h
  rw [htypes.definition] at hafter
  obtain ⟨typed, htyped, hkeys⟩ := exists_memberKeys_run_assignTypes rfl
    (hdraft.runAll options before) h (hbefore.definition.trans hd) hids
  cases hafter.symm.trans htyped
  exact hkeys

/-- The planners that follow leave activities and types alone. -/
theorem Emits.leavesMembersOf {planner : Planner} {op : Operation} (h : planner.Emits op)
    (hplanner : planner ∈ [.observable, .extensionTypes, .objectType, .datetime]) {name : String}
    (hname : name.toList.getLast? ≠ some 't') : LeavesMembersOf name op.action := by
  have haction := h.action
  cases hop : op.action <;> rw [hop] at haction
  all_goals first
    | trivial
    | exact hname
    | skip
  all_goals
    simp only [List.mem_cons, List.not_mem_nil, or_false] at hplanner
    rcases hplanner with rfl | rfl | rfl | rfl <;> exact haction.elim

/-- The identifier of a class fits 64 bits. -/
theorem lt_bound_of_classUid? {draft : Draft} {uids : ExtTreeMap String Int} {l : Location}
    {d : Definition} {uid : Int} (h : classUid? draft uids l d = some uid) : uid < Word.bound := by
  unfold classUid? at h
  split at h
  · simp only [Definition.classUid?, Option.bind_eq_bind, Option.bind_eq_some_iff] at h
    obtain ⟨high, -, middle, -, sum, -, huid⟩ := h
    obtain ⟨rfl, -, hfits⟩ := Word.fit?_eq_some_iff.1 huid
    exact hfits
  · obtain ⟨-, huid⟩ := Option.ite_none_right_eq_some.1 h
    cases huid
    decide

theorem exists_classUid?_of_mem_assignClassesFrom {draft : Draft} {uids : ExtTreeMap String Int}
    {assigned : ExtTreeMap Int Location} {entries : List (Location × Definition)} {op : Operation}
    (hop : op ∈ assignClassesFrom draft uids assigned entries) :
    ∃ d uid label description conflict, classUid? draft uids op.target d = some uid ∧
      op.action = .assignClass uid label description conflict := by
  induction entries generalizing assigned with
  | nil => cases hop
  | cons e rest ih =>
    obtain ⟨l, d⟩ := e
    rw [assignClassesFrom] at hop
    split at hop
    · exact ih hop
    · rename_i uid huid
      cases hop with
      | head => exact ⟨d, uid, _, _, _, huid, rfl⟩
      | tail _ hop => exact ih hop

/-- An identifier that is granted to a class is stated as a number of 64 bits. -/
theorem uid?_of_granted {draft : Draft} {op : Operation} (hop : op ∈ assignClasses draft)
    {uid : Int} (huid : op.grantedUid? = some uid) {d : Definition} (hd : d.StatesUid uid) :
    d.uid? = some uid := by
  have hfits : uid < Word.bound := by
    obtain ⟨label, description, haction⟩ := grantedUid?_eq_some_iff.1 huid
    obtain ⟨d, uid', label', description', conflict, hgiven, haction'⟩ :=
      exists_classUid?_of_mem_assignClassesFrom hop
    cases haction.symm.trans haction'
    exact lt_bound_of_classUid? hgiven
  have hget : d.get? "uid" = some (Json.ofInt uid) :=
    Option.filter_eq_some_iff.2 ⟨hd, rfl⟩
  rw [Definition.uid?, hget, Option.bind_some]
  exact if_pos hfits

end Planner

namespace Compilation

open Operation

/-- What is planned for types and after them leaves a class that did not fail with the types of its
activities. -/
theorem Proposes.memberKeys_types {options : Options} {draft : Draft} (hdraft : draft.WellFormed)
    {later : List Operation} (h : Proposes options draft
      [.typeUid, .observable, .extensionTypes, .objectType, .datetime] later) {l : Location}
    (hcore : l.isCore = true) (hkind : l.kind ∈ [Kind.eventClass, Kind.event]) {before : Definition}
    (hbefore : draft.get? l = some before) {uid : Int} (huid : before.uid? = some uid)
    (hfailure : (runAll options draft later).failure? l = none) {d : Definition}
    (hd : (runAll options draft later).get? l = some d) (hids : d.activityIds ≠ []) :
    (d.memberKeys "type_uid").Perm (d.activityIds.dedup.map (Definition.typeText uid)) := by
  have hdictionary : l.kind ≠ .dictionary := by
    intro hdictionary
    simp [hdictionary] at hkind
  cases h with
  | @cons _ _ _ types rest htypes hrest =>
    obtain rfl := Except.ok.inj htypes
    have hleaves (name : String) (hname : name.toList.getLast? ≠ some 't') (op : Operation)
        (hop : op ∈ rest) (_ : op.target = l) : LeavesMembersOf name op.action := by
      obtain ⟨planner, hplanner, hemits⟩ := hrest.exists_emits hop
      exact hemits.leavesMembersOf hplanner hname
    have hactivities (op : Operation) (hop : op ∈ Planner.assignTypes draft ++ rest)
        (htarget : op.target = l) : LeavesMembersOf "activity_id" op.action := by
      rcases List.mem_append.1 hop with hop | hop
      · obtain ⟨uid, label, haction⟩ := (Planner.emits_assignTypes hop).exists_assignTypes
        rw [haction]
        exact (by decide : "activity_id" ≠ "type_uid")
      · exact hleaves "activity_id" (by decide) op hop htarget
    obtain ⟨before', hbefore', hactivity⟩ := enumeration?_runAll hdictionary hactivities hd
    cases hbefore.symm.trans hbefore'
    rw [runAll_append] at hd hfailure
    obtain ⟨middle, hmiddle, htype⟩ :=
      enumeration?_runAll hdictionary (hleaves "type_uid" (by decide)) hd
    rw [failure?_runAll, Option.or_eq_none_iff] at hfailure
    have hids' := Definition.activityIds_congr hactivity
    rw [Definition.memberKeys_congr htype, hids']
    exact Planner.memberKeys_runAll_assignTypes hdraft hbefore hcore hkind huid (hids' ▸ hids)
      hfailure.1 hmiddle

section

variable {repository : Repository} {options : Options} {plan : Plan} {seen : Draft}
  {structural dictionary identifiers categories later : List Operation}
  (hr : repository.Sound)
  (hsplit : IdentifiersSplit options (.ofRepository repository) seen structural dictionary
    identifiers categories later)

include hr hsplit

/-- Once identifiers have been given, the base event states one, unless it has failed. -/
theorem isSome_uid?_of_intact {l : Location} (hcore : l.isCore = true)
    (hl : l.kind = .event ∧ l.name = Planner.baseEvent)
    (hfailure : (runAll options seen (Planner.assignClasses seen)).failure? l = none)
    {d : Definition} (hd : (runAll options seen (Planner.assignClasses seen)).get? l = some d) :
    d.uid?.isSome = true := by
  by_cases hplanned : ∃ op ∈ Planner.assignClasses seen, op.target = l
  · have hseen : seen.Distinct := by
      rw [hsplit.seen_eq]
      exact distinct_runAll (distinct_ofRepository hr) options _
    have hgrants (op : Operation) (hop : op ∈ Planner.assignClasses seen) (_ : op.target = l) :
        op.GrantsOrEdits := Or.inr (Planner.emits_assignClasses hop).exists_assignClass
    obtain ⟨op, hop, htarget⟩ := hplanned
    obtain ⟨granting, hgranting, -, uid, d', hgranted, hd', huid⟩ :=
      exists_grantedUid_of_runAll hgrants hseen hfailure
        ⟨op, hop, htarget, (Planner.emits_assignClasses hop).not_editsAttributes⟩
    cases hd.symm.trans hd'
    rw [Planner.uid?_of_granted hgranting hgranted huid, Option.isSome_some]
  · have hne (op : Operation) (hop : op ∈ Planner.assignClasses seen) : op.target ≠ l := by
      intro htarget
      exact hplanned ⟨op, hop, htarget⟩
    rw [(sameAt_runAll_of_forall_ne options hne seen).definition] at hd
    have hoverflows := Planner.classUidOverflows_of_forall_ne hd hcore (Or.inr hl) hne
    rw [Planner.classUidOverflows, hd, Option.any_some, Bool.and_eq_true] at hoverflows
    exact hoverflows.1

/-- A class that the last planner has seen without a failure has the types of its activities. -/
theorem exists_types_of_seen {l : Location} {d : Definition}
    (hd : (seenByRendering options repository structural dictionary identifiers).get? l = some d)
    (hfailure : (seenByRendering options repository structural dictionary identifiers).failure? l =
      none) (hcore : l.isCore = true)
    (hl : l.kind = .eventClass ∧ d.uid?.isSome = true ∨
      l.kind = .event ∧ l.name = Planner.baseEvent) (hids : d.activityIds ≠ []) :
    ∃ uid, d.uid? = some uid ∧
      (d.memberKeys "type_uid").Perm (d.activityIds.dedup.map (Definition.typeText uid)) := by
  have hkind : l.kind ∈ [Kind.eventClass, Kind.event] := by
    rcases hl with ⟨hkind, -⟩ | ⟨hkind, -⟩ <;> simp [hkind]
  have hdictionary : l.kind ≠ .dictionary := by
    rcases hl with ⟨hkind, -⟩ | ⟨hkind, -⟩ <;> simp [hkind]
  rw [seenByRendering, hsplit.identifiers_eq, ← List.append_assoc, runAll_append,
    ← hsplit.seen_eq, runAll_append] at hd hfailure
  -- The class as it was when types were planned.
  obtain ⟨before, hbefore, hattributes⟩ :=
    attributesOnly_runAll (fun op hop htarget =>
      hsplit.editsAttributes op (List.mem_append_right _ hop) (htarget ▸ hdictionary)) hd
  have huid := hattributes.uid?_eq
  have hstated : before.uid?.isSome = true := by
    rcases hl with ⟨-, hstated⟩ | hbase
    · rwa [← huid]
    · have hfirst := hfailure
      rw [failure?_runAll, Option.or_eq_none_iff] at hfirst
      exact isSome_uid?_of_intact hr hsplit hcore hbase hfirst.1 hbefore
  have hwellFormed : (runAll options seen (Planner.assignClasses seen)).WellFormed := by
    rw [hsplit.seen_eq]
    exact ((Draft.wellFormed_ofRepository hr).runAll options _).runAll options _
  obtain ⟨uid, hown⟩ := Option.isSome_iff_exists.1 hstated
  exact ⟨uid, huid.trans hown, hsplit.proposes_later.memberKeys_types hwellFormed hcore hkind
    hbefore hown hfailure hd hids⟩

end

/-- Definitions of the compiled draft are well formed. -/
theorem wellFormed_compiled {repository : Repository} {options : Options} {plan : Plan}
    {structural dictionary identifiers : List Operation} (hr : repository.Sound)
    (h : PlannedAs options (.ofRepository repository) plan structural dictionary identifiers) :
    (finalDraft options repository plan).WellFormed := by
  rw [finalDraft_eq h, beforeSchema]
  exact ((Draft.wellFormed_ofRepository hr).runAll options _).runAll options _

/-- The class that is shown under a key depends on no premature include. -/
def ClassSettled (plan : Plan) (compiled : Draft) (key : String) : Prop :=
  ∀ source, plan.shown? compiled (.entry .classes key) = some source → plan.SettledAt source

/-- A schema shows a class with an identifier and activities. -/
structure ShowsActive (schema : Schema) (key : String) (d : Definition) (uid : Int) : Prop where
  shown : schema.classes[key]? = some d
  statesUid : d.StatesUid uid
  activities : d.activityIds ≠ []

/-- A class of the schema has one type for each number of an activity. -/
theorem memberKeys_types_of_showsActive {repository : Repository} {options : Options} {plan : Plan}
    {structural dictionary identifiers categories later : List Operation} {seen last : Draft}
    (hr : repository.Sound)
    (h : PlannedAs options (.ofRepository repository) plan structural dictionary identifiers)
    (hsplit : IdentifiersSplit options (.ofRepository repository) seen structural dictionary
      identifiers categories later)
    (hplan : planPhases options (.ofRepository repository) Phase.all = .ok (last, plan.phases))
    (hlast : last = runAll options
      (seenByRendering options repository structural dictionary identifiers) (Planner.render
        (seenByRendering options repository structural dictionary identifiers) options))
    {key : String} {d : Definition} {uid : Int}
    (hd : ShowsActive (Schema.render (finalDraft options repository plan)) key d uid)
    (hsettled : ClassSettled plan (finalDraft options repository plan) key) :
    (d.memberKeys "type_uid").Perm (d.activityIds.dedup.map (Definition.typeText uid)) := by
  have hpart : (Location.entry .classes key).part? ≠ none := Option.some_ne_none _
  have hcopy := (classes_render_compiled hr h key).symm.trans hd.shown
  obtain ⟨source, hsource, original, hshown, horiginal, hrenders⟩ :=
    exists_source_of_get? hr h hpart hcopy
  obtain ⟨planned, hplanned, hcore, hentry⟩ := exists_entry_of_mem_sourcesOf h hpart hsource
  have hseen := sameAt_seenByRendering hplan hlast (part?_of_mem_sourcesOf h hpart hsource)
    (hsettled source hshown)
  -- What the last planner has seen is what was copied.
  cases hplanned.symm.trans (hseen.definition.symm.trans horiginal)
  have hfailure := Option.isNone_iff_eq_none.1 (Bool.and_eq_true_iff.1 (isIntact_of_shown? hshown)).1
  rw [hseen.failure] at hfailure
  have hclass : source.kind = .eventClass ∧ original.uid?.isSome = true ∨
      source.kind = .event ∧ source.name = Planner.baseEvent := by
    rcases Planner.mem_entriesOf_classes hentry with ⟨hkind, huid, -⟩ | ⟨hkind, hname, -⟩
    · exact Or.inl ⟨hkind, huid⟩
    · exact Or.inr ⟨hkind, hname⟩
  have hwellFormed := wellFormed_compiled hr h _ d hcopy
  have hids : d.activityIds.Perm original.activityIds :=
    (hrenders.memberKeys_perm hwellFormed "activity_id").filterMap _
  have hne : original.activityIds ≠ [] := by
    intro hnil
    rw [hnil] at hids
    exact hd.activities hids.eq_nil
  obtain ⟨granted, hgranted, htypes⟩ :=
    exists_types_of_seen hr hsplit hplanned hfailure hcore hclass hne
  have huid : original.StatesUid uid :=
    (hrenders.get?_eq_some_iff (distinct_compiled hr h _ _ hcopy) (by decide) (by decide)
      (by decide) (Json.isExact_ofInt uid)).1 hd.statesUid
  rw [huid.unique (Definition.statesUid_of_uid?_eq_some hgranted)]
  have hkept := hrenders.memberKeys_perm hwellFormed "type_uid"
  exact (hkept.trans htypes).trans (hids.symm.dedup.map _)

/--
Each class of the schema with an identifier and activities has one type for each number of an
activity.  Two classes whose identifiers fit share none, as long as the numbers stay below a hundred.
-/
theorem schema_types_match_activities {repository : Repository} {options : Options}
    {analyzed compiled : Compilation} {plan : Plan} {schema : Schema}
    (hrepository : repository.Reachable)
    (hanalyze : (ofRepository repository options).analyze = .ok analyzed)
    (hplan : analyzed.stage.plan? = some plan) (hcompile : analyzed.compile = .ok compiled)
    (hschema : compiled.schema = .ok schema) :
    ∃ seen, seenBy options (.ofRepository repository) .classUid = .ok seen ∧
      (∀ (key : String) (d : Definition) (uid : Int), ShowsActive schema key d uid →
        ClassSettled plan compiled.draft key →
        (d.memberKeys "type_uid").Perm (d.activityIds.dedup.map (Definition.typeText uid))) ∧
      ∀ (key key' : String) (d d' : Definition) (uid uid' : Int), key ≠ key' →
        ShowsActive schema key d uid → ShowsActive schema key' d' uid' →
        ClassSettled plan compiled.draft key → ClassSettled plan compiled.draft key' →
        ClassUidFits plan compiled.draft seen key → ClassUidFits plan compiled.draft seen key' →
        (∀ activity ∈ d.activityIds, 0 ≤ activity ∧ activity < 100) →
        (∀ activity ∈ d'.activityIds, 0 ≤ activity ∧ activity < 100) →
        ∀ text ∈ d.memberKeys "type_uid", text ∉ d'.memberKeys "type_uid" := by
  obtain ⟨last, _, hplanned, rfl⟩ := analyze_ofRepository_eq_ok_iff.1 hanalyze
  cases hplan
  obtain ⟨structural, dictionary, identifiers, h, hlast⟩ := exists_plannedAs hplanned
  rw [compile_analyzed] at hcompile
  cases hcompile
  obtain ⟨-, rfl⟩ := schema_compiled_eq_ok_iff.1 hschema
  have hr := hrepository.sound
  obtain ⟨seen, categories, later, hseen, hsplit⟩ := exists_identifiersSplit h
  have htypes (key : String) (d : Definition) (uid : Int)
      (hd : ShowsActive (Schema.render (finalDraft options repository plan)) key d uid)
      (hsettled : ClassSettled plan (finalDraft options repository plan) key) :=
    memberKeys_types_of_showsActive hr h hsplit hplanned hlast hd hsettled
  refine ⟨seen, hseen, htypes, ?_⟩
  intro key key' d d' uid uid' hkeys hd hd' hsettled hsettled' hfits hfits' hsmall hsmall' text
    htext htext'
  have huids : uid ≠ uid' := by
    have hcopy := (classes_render_compiled hr h key).symm.trans hd.shown
    have hcopy' := (classes_render_compiled hr h key').symm.trans hd'.shown
    exact ne_of_statesUid hsplit hr h hkeys hcopy hcopy' hfits hfits' hd.statesUid hd'.statesUid
  obtain ⟨activity, hactivity, rfl⟩ :=
    List.mem_map.1 ((htypes key d uid hd hsettled).mem_iff.1 htext)
  obtain ⟨activity', hactivity', heq⟩ :=
    List.mem_map.1 ((htypes key' d' uid' hd' hsettled').mem_iff.1 htext')
  exact Definition.typeText_ne huids (hsmall activity (List.mem_dedup.1 hactivity))
    (hsmall' activity' (List.mem_dedup.1 hactivity')) heq.symm

/-! ## Types of two classes -/

/-- Attributes with these activities. -/
def activities (keys : List String) : String × Json :=
  ("attributes", .obj [("activity_id", .obj [("enum", .obj (keys.map fun key => (key, .obj [])))])])

/-- Two classes of one category with these activities. -/
def activeClasses (first second : List String) : List (Path × Json) :=
  networkClasses 4 [("name", .str "a"), ("uid", Json.ofInt 1), activities first]
    [("name", .str "b"), ("uid", Json.ofInt 2), activities second]

/-- An identifier, the numbers of activities and the types. -/
structure TypedClass where
  uid : Int
  activities : List Int
  types : List String
deriving DecidableEq

/-- What the schema shows for a class. -/
def typesOf (key : String) (way : Way) : Option TypedClass :=
  way.schema.classes[key]?.bind fun d =>
    d.uid?.map fun uid => ⟨uid, d.activityIds, d.memberKeys "type_uid"⟩

theorem exists_of_typesOf {key : String} {uid activity : Int} {ids : List Int}
    {types : List String} {way : Way} (h : typesOf key way = some ⟨uid, activity :: ids, types⟩) :
    ∃ d, ShowsActive way.schema key d uid ∧ d.activityIds = activity :: ids ∧
      d.memberKeys "type_uid" = types := by
  obtain ⟨d, hd, htypes⟩ := Option.bind_eq_some_iff.1 h
  obtain ⟨own, huid, heq⟩ := Option.map_eq_some_iff.1 htypes
  simp only [TypedClass.mk.injEq] at heq
  obtain ⟨rfl, hids, hkeys⟩ := heq
  refine ⟨d, ⟨hd, Definition.statesUid_of_uid?_eq_some huid, ?_⟩, hids, hkeys⟩
  rw [hids]
  exact List.cons_ne_nil _ _

theorem reachable_of_activeClasses {repository : Repository}
    (h : Repository.ofFiles (activeClasses ["0", "1"] ["0", "1"]) = .ok repository) :
    repository.Reachable := by
  refine Repository.Reachable.empty.insertFiles (fun file hfile => ?_) h
  simp only [activeClasses, networkClasses, List.mem_cons, List.not_mem_nil, or_false] at hfile
  rcases hfile with rfl | rfl | rfl <;>
    simp [Json.WellFormed, Json.WellFormedFields, Json.ofInt, activities]

/-- Two classes with two activities each have four types. -/
theorem two_classes_have_four_types :
    ∃ way : Way, ∃ d d',
      Repository.ofFiles (activeClasses ["0", "1"] ["0", "1"]) = .ok way.repository ∧
      way.schema.classes["a"]? = some d ∧ way.schema.classes["b"]? = some d' ∧
      (d.memberKeys "type_uid").Perm ["400100", "400101"] ∧
      (d'.memberKeys "type_uid").Perm ["400200", "400201"] ∧
      ∀ text ∈ d.memberKeys "type_uid", text ∉ d'.memberKeys "type_uid" := by
  have hview : (wayOf (activeClasses ["0", "1"] ["0", "1"])).map (fun way =>
      (way.plan.isSettled && fits "a" way && fits "b" way, typesOf "a" way, typesOf "b" way)) =
      some (true, some ⟨4001, [0, 1], ["400100", "400101"]⟩,
        some ⟨4002, [0, 1], ["400200", "400201"]⟩) := by decide +kernel
  obtain ⟨way, hfiles, hanalyze, hplan, hcompile, hschema, hway⟩ := exists_of_wayOf hview
  simp only [Prod.mk.injEq, Bool.and_eq_true] at hway
  obtain ⟨⟨⟨hall, hfits⟩, hfits'⟩, htypes, htypes'⟩ := hway
  obtain ⟨d, hd, hids, -⟩ := exists_of_typesOf htypes
  obtain ⟨d', hd', hids', -⟩ := exists_of_typesOf htypes'
  have hsettled (key : String) : ClassSettled way.plan way.compiled.draft key :=
    fun source _ => Plan.settledAt_of_isSettled hall source
  obtain ⟨seen, hseen, hmatch, hapart⟩ := schema_types_match_activities
    (reachable_of_activeClasses hfiles) hanalyze hplan hcompile hschema
  refine ⟨way, d, d', hfiles, hd.shown, hd'.shown, ?_, ?_, ?_⟩
  · have htypes := hmatch "a" d 4001 hd (hsettled "a")
    rw [hids] at htypes
    exact htypes
  · have htypes := hmatch "b" d' 4002 hd' (hsettled "b")
    rw [hids'] at htypes
    exact htypes
  · apply hapart "a" "b" d d' 4001 4002 (by decide) hd hd' (hsettled "a") (hsettled "b")
    · exact classUidFits_of_fits hfits hseen
    · exact classUidFits_of_fits hfits' hseen
    · simp [hids]
    · simp [hids']

/-! ## Types that classes share, and types that they lack -/

/-- What holds of the schema of any files. -/
def HoldsOfSchemas (P : Schema → Prop) : Prop :=
  ∀ files repository options analyzed compiled schema,
    Repository.ofFiles files = .ok repository →
    (ofRepository repository options).analyze = .ok analyzed →
    analyzed.compile = .ok compiled → compiled.schema = .ok schema → P schema

theorem HoldsOfSchemas.exists_way {P : Schema → Prop} (h : HoldsOfSchemas P) {α : Type}
    {files : List (Path × Json)} {view : Way → α} {a : α}
    (hview : (wayOf files).map view = some a) : ∃ way : Way, P way.schema ∧ view way = a := by
  obtain ⟨way, hfiles, hanalyze, -, hcompile, hschema, hway⟩ := exists_of_wayOf hview
  exact ⟨way, h files way.repository {} way.analyzed way.compiled way.schema hfiles hanalyze
    hcompile hschema, hway⟩

/-- Classes with the same identifier, as that of the first does not fit 64 bits. -/
def overflowingActivities : List (Path × Json) :=
  networkClasses 100000000000000000 [("name", .str "a"), ("uid", Json.ofInt 3), activities ["1"]]
    [("name", .str "b"), ("category", .str "none"), ("uid", Json.ofInt 3), activities ["1"]]

/-- A class that includes a profile before the profile includes its activities. -/
def prematureActivities : List (Path × Json) :=
  [(⟨"events/network/a.json"⟩,
      .obj [("name", .str "a"), ("category", .str "none"), ("uid", Json.ofInt 1),
        ("$include", .str "profiles/z.json")]),
    (⟨"profiles/z.json"⟩, .obj [("name", .str "z"), ("$include", .str "includes/x.json")]),
    (⟨"includes/x.json"⟩, .obj [activities ["1"]])]

/--
Types do not always match activities.  Activities with the same number have one type; a class has
no types for activities that the planner missed; activities beyond a hundred have the types of
another class, and so have activities of a class whose identifier does not fit.
-/
theorem types_miss_activities :
    (¬ HoldsOfSchemas fun schema => ∀ key d uid, ShowsActive schema key d uid →
      (d.memberKeys "type_uid").length = d.activityIds.length) ∧
    (¬ HoldsOfSchemas fun schema => ∀ key d uid, ShowsActive schema key d uid →
      (d.memberKeys "type_uid").length = d.activityIds.dedup.length) ∧
    (¬ HoldsOfSchemas fun schema => ∀ key key' d d' uid uid', key ≠ key' →
      ShowsActive schema key d uid → ShowsActive schema key' d' uid' →
      ∀ text ∈ d.memberKeys "type_uid", text ∉ d'.memberKeys "type_uid") ∧
    ¬ HoldsOfSchemas fun schema => ∀ key key' d d' uid uid', key ≠ key' →
      ShowsActive schema key d uid → ShowsActive schema key' d' uid' →
      (∀ activity ∈ d.activityIds, 0 ≤ activity ∧ activity < 100) →
      (∀ activity ∈ d'.activityIds, 0 ≤ activity ∧ activity < 100) →
      ∀ text ∈ d.memberKeys "type_uid", text ∉ d'.memberKeys "type_uid" := by
  refine ⟨fun hclaim => ?_, fun hclaim => ?_, fun hclaim => ?_, fun hclaim => ?_⟩
  · have hview : (wayOf (activeClasses ["1", "01"] ["1"])).map (typesOf "a") =
        some (some ⟨4001, [1, 1], ["400101"]⟩) := by decide +kernel
    obtain ⟨way, hholds, htypes⟩ := hclaim.exists_way hview
    obtain ⟨d, hd, hids, hkeys⟩ := exists_of_typesOf htypes
    have hlength := hholds "a" d 4001 hd
    simp [hids, hkeys] at hlength
  · have hview : (wayOf prematureActivities).map (typesOf "a") =
        some (some ⟨1, [1], []⟩) := by decide +kernel
    obtain ⟨way, hholds, htypes⟩ := hclaim.exists_way hview
    obtain ⟨d, hd, hids, hkeys⟩ := exists_of_typesOf htypes
    have hlength := hholds "a" d 1 hd
    simp [hids, hkeys] at hlength
  · have hview : (wayOf (activeClasses ["101"] ["1"])).map (fun way =>
        (typesOf "a" way, typesOf "b" way)) =
        some (some ⟨4001, [101], ["400201"]⟩, some ⟨4002, [1], ["400201"]⟩) := by decide +kernel
    obtain ⟨way, hholds, hway⟩ := hclaim.exists_way hview
    obtain ⟨htypes, htypes'⟩ := Prod.mk.inj hway
    obtain ⟨d, hd, hids, hkeys⟩ := exists_of_typesOf htypes
    obtain ⟨d', hd', hids', hkeys'⟩ := exists_of_typesOf htypes'
    have hapart := hholds "a" "b" d d' 4001 4002 (by decide) hd hd'
    exact hapart "400201" (by simp [hkeys]) (by simp [hkeys'])
  · have hview : (wayOf overflowingActivities).map (fun way =>
        (typesOf "a" way, typesOf "b" way)) =
        some (some ⟨3, [1], ["301"]⟩, some ⟨3, [1], ["301"]⟩) := by decide +kernel
    obtain ⟨way, hholds, hway⟩ := hclaim.exists_way hview
    obtain ⟨htypes, htypes'⟩ := Prod.mk.inj hway
    obtain ⟨d, hd, hids, hkeys⟩ := exists_of_typesOf htypes
    obtain ⟨d', hd', hids', hkeys'⟩ := exists_of_typesOf htypes'
    have hapart := hholds "a" "b" d d' 3 3 (by decide) hd hd' (by simp [hids]) (by simp [hids'])
    exact hapart "301" (by simp [hkeys]) (by simp [hkeys'])

end Compilation

end EventSchema
