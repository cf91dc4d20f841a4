import EventSchema.Proofs.Rendering
import Mathlib.Data.List.Pairwise

/-!
# The identifiers of classes

Classes are given identifiers in order of location.  The planner keeps a table of those that have
been given, and an operation with one that is in the table fails its class.  A class whose
identifier does not fit 64 bits gets no operation, and keeps the number that it states.

Main results:

- {lit}`Planner.pairwise_assignClassesFrom`: no identifier is granted twice.
- {lit}`Operation.exists_grantedUid_of_runAll`: a class shows the identifier it was granted.
- {lit}`Compilation.schema_class_uids_distinct`: the classes of a schema have different identifiers.
-/

namespace EventSchema

open Std

namespace Operation

/-- The identifier that an operation gives to a class, if no other class has it. -/
def grantedUid? (op : Operation) : Option Int :=
  match op.action with
  | .assignClass uid _ _ none => some uid
  | _ => none

/-- An identifier is granted by an assignment without a conflict. -/
theorem grantedUid?_eq_some_iff {op : Operation} {uid : Int} :
    op.grantedUid? = some uid ↔
      ∃ label description, op.action = .assignClass uid label description none := by
  unfold grantedUid?
  split
  · rename_i granted label description haction
    rw [haction]
    simp
  · rename_i hother
    refine ⟨fun h => (by cases h), fun ⟨label, description, haction⟩ => ?_⟩
    exact absurd haction (hother uid label description)

/-- No identifier is granted by both of two operations. -/
def GrantsApart (op other : Operation) : Prop :=
  ∀ uid, op.grantedUid? = some uid → other.grantedUid? ≠ some uid

instance : Std.Symm GrantsApart := ⟨fun _ _ h uid huid huid' => h uid huid' huid⟩

end Operation

namespace Planner

/-! ## The table of identifiers -/

/-- What is in the table is not granted again. -/
theorem not_granted_of_mem {draft : Draft} {uids : ExtTreeMap String Int}
    {assigned : ExtTreeMap Int Location} {entries : List (Location × Definition)} {op : Operation}
    (hop : op ∈ assignClassesFrom draft uids assigned entries) {uid : Int}
    (huid : uid ∈ assigned) : op.grantedUid? ≠ some uid := by
  induction entries generalizing assigned with
  | nil => cases hop
  | cons e rest ih =>
    rcases e with ⟨l, d⟩
    rw [assignClassesFrom] at hop
    split at hop
    · exact ih hop huid
    · rename_i here hhere
      rcases List.mem_cons.1 hop with rfl | hop
      · intro hgranted
        rcases Operation.grantedUid?_eq_some_iff.1 hgranted with ⟨label, description, haction⟩
        rcases Action.assignClass.inj haction with ⟨rfl, -, -, hfree⟩
        rw [ExtTreeMap.mem_iff_isSome_getElem?, hfree] at huid
        cases huid
      · exact ih hop (ExtTreeMap.mem_insertIfNew.2 (Or.inr huid))

/-- No identifier is granted twice. -/
theorem pairwise_assignClassesFrom (draft : Draft) (uids : ExtTreeMap String Int)
    (assigned : ExtTreeMap Int Location) (entries : List (Location × Definition)) :
    (assignClassesFrom draft uids assigned entries).Pairwise Operation.GrantsApart := by
  induction entries generalizing assigned with
  | nil => exact List.Pairwise.nil
  | cons e rest ih =>
    rcases e with ⟨l, d⟩
    rw [assignClassesFrom]
    split
    · exact ih assigned
    · rename_i here hhere
      refine List.pairwise_cons.2 ⟨fun later hlater uid hgranted => ?_, ih _⟩
      rcases Operation.grantedUid?_eq_some_iff.1 hgranted with ⟨label, description, haction⟩
      rcases Action.assignClass.inj haction with ⟨rfl, -, -, -⟩
      -- Granted or not, the identifier is in the table from here on.
      exact not_granted_of_mem hlater ExtTreeMap.mem_insertIfNew_self

/-- No identifier is granted twice. -/
theorem ne_of_granted {draft : Draft} {op other : Operation} (hop : op ∈ assignClasses draft)
    (hother : other ∈ assignClasses draft) (hne : op ≠ other) {uid uid' : Int}
    (huid : op.grantedUid? = some uid) (huid' : other.grantedUid? = some uid') : uid ≠ uid' := by
  rintro rfl
  have hpairs := pairwise_assignClassesFrom draft (extensionUids draft) ∅
    (draft.core [.eventClass, .event])
  exact hpairs.forall hop hother hne uid huid huid'

/-- The identifier of a class does not fit 64 bits when it is composed. -/
def classUidOverflows (draft : Draft) (l : Location) : Bool :=
  (draft.get? l).any fun d => d.uid?.isSome && (classUid? draft (extensionUids draft) l d).isNone

/-- Every listed class with an identifier is planned for. -/
theorem exists_mem_assignClassesFrom {draft : Draft} {uids : ExtTreeMap String Int}
    (assigned : ExtTreeMap Int Location) {entries : List (Location × Definition)} {l : Location}
    {d : Definition} (hmem : (l, d) ∈ entries) {uid : Int}
    (huid : classUid? draft uids l d = some uid) :
    ∃ op ∈ assignClassesFrom draft uids assigned entries, op.target = l := by
  induction entries generalizing assigned with
  | nil => cases hmem
  | cons e rest ih =>
    rcases e with ⟨l', d'⟩
    rw [assignClassesFrom]
    rcases List.mem_cons.1 hmem with heq | hmem
    · cases heq
      rw [huid]
      exact ⟨_, List.mem_cons_self, rfl⟩
    · split
      · exact ih assigned hmem
      · rcases ih _ hmem with ⟨op, hop, htarget⟩
        exact ⟨op, List.mem_cons_of_mem _ hop, htarget⟩

/-- A class that no operation is planned for states an identifier that does not fit. -/
theorem classUidOverflows_of_forall_ne {draft : Draft} {l : Location} {d : Definition}
    (hget : draft.get? l = some d) (hcore : l.isCore = true)
    (hl : l.kind = .eventClass ∧ d.uid?.isSome = true ∨ l.kind = .event ∧ l.name = baseEvent)
    (hne : ∀ op ∈ assignClasses draft, op.target ≠ l) : classUidOverflows draft l = true := by
  have hkind : l.kind ∈ [Kind.eventClass, Kind.event] := by
    rcases hl with ⟨hkind, -⟩ | ⟨hkind, -⟩ <;> simp [hkind]
  have hmem : (l, d) ∈ draft.core [.eventClass, .event] := Draft.mem_core.2 ⟨hget, hcore, hkind⟩
  have hnone : classUid? draft (extensionUids draft) l d = none := by
    refine Option.eq_none_iff_forall_not_mem.2 fun uid huid => ?_
    rcases exists_mem_assignClassesFrom ∅ hmem huid with ⟨op, hop, htarget⟩
    exact hne op hop htarget
  have hown : d.uid?.isSome = true := by
    rcases hl with ⟨-, hown⟩ | ⟨-, hname⟩
    · exact hown
    · cases howned : d.uid? with
      | some own => rfl
      | none => simp [classUid?, howned, hname] at hnone
  simp [classUidOverflows, hget, hown, hnone]

end Planner

/-! ## The identifier that a class shows -/

namespace Definition

/-- A definition states a number as its identifier. -/
def StatesUid (d : Definition) (uid : Int) : Prop :=
  Fields.get? d.fields "uid" = some (Json.ofInt uid)

/-- A definition states one identifier. -/
theorem StatesUid.unique {d : Definition} {uid other : Int} (h : d.StatesUid uid)
    (hother : d.StatesUid other) : uid = other := by
  cases h.symm.trans hother
  rfl

/-- The identifier that is read from a definition is stated by it. -/
theorem statesUid_of_uid?_eq_some {d : Definition} {uid : Int} (h : d.uid? = some uid) :
    d.StatesUid uid := by
  rcases Option.bind_eq_some_iff.1 h with ⟨value, hvalue, hint⟩
  have hget := fields_get?_of_get? hvalue
  unfold Json.int? at hint
  split at hint
  · cases (Option.ite_none_right_eq_some.1 hint).2
    exact hget
  · cases hint

theorem AttributesOnly.get?_uid {before after : Definition} (h : before.AttributesOnly after) :
    Fields.get? after.fields "uid" = Fields.get? before.fields "uid" :=
  h.get? "uid" (by decide)

/-- Edits of attributes leave the identifier that is read. -/
theorem AttributesOnly.uid?_eq {before after : Definition} (h : before.AttributesOnly after) :
    after.uid? = before.uid? := by
  rw [uid?, uid?, Definition.get?, Definition.get?, h.get?_uid]

/-- Edits of attributes leave the identifier that is stated. -/
theorem AttributesOnly.statesUid {before after : Definition} (h : before.AttributesOnly after)
    {uid : Int} (huid : before.StatesUid uid) : after.StatesUid uid :=
  h.get?_uid.trans huid

/-- A class that gets an identifier states it. -/
theorem statesUid_assignClass (d : Definition) (uid : Int) (label : String)
    (description : Option String) :
    (d.assignClass uid label description).definition.StatesUid uid := by
  refine (d.attributesOnly_assignClass uid label description).statesUid ?_
  split
  · rename_i huid
    exact statesUid_of_uid?_eq_some huid
  · exact Fields.get?_set_self _ _ _

end Definition

namespace Operation

/-- A target that has not failed after an operation had not failed before. -/
theorem failure?_of_run {op : Operation} {draft : Draft} {options : Options}
    (h : (op.run draft options).failure? op.target = none) : draft.failure? op.target = none := by
  have hintact := op.isNone_failure?_run_target draft options
  rw [h] at hintact
  exact Option.isNone_iff_eq_none.1 (Bool.and_eq_true_iff.1 hintact.symm).1

/-- No definition is lost. -/
theorem exists_get?_run {op : Operation} {draft : Draft} {options : Options} {d : Definition}
    (h : draft.get? op.target = some d) :
    ∃ after, (op.run draft options).get? op.target = some after := by
  rw [op.get?_run_target]
  split
  · exact ⟨_, rfl⟩
  · exact ⟨d, h⟩

/-- A class that did not fail shows the identifier it was granted. -/
theorem exists_grantedUid_of_run {op : Operation} {draft : Draft} (hdraft : draft.Distinct)
    {options : Options} {uid : Int} {label : String} {description : Option String}
    {conflict : Option Location} (haction : op.action = .assignClass uid label description conflict)
    (h : (op.run draft options).failure? op.target = none) :
    op.grantedUid? = some uid ∧
      ∃ d, (op.run draft options).get? op.target = some d ∧ d.StatesUid uid := by
  have hintact := op.isNone_failure?_run_target draft options
  rw [h] at hintact
  have htarget := op.get?_run_target draft options
  rcases op.outcome_cases draft options with
    ⟨cause, hout⟩ | ⟨-, revision, hedit, hout⟩
  · simp [hout, Outcome.isFailed] at hintact
  · unfold edit at hedit
    simp only [haction] at hedit
    cases conflict with
    | some other => cases hedit
    | none =>
      cases hedit
      refine ⟨grantedUid?_eq_some_iff.2 ⟨label, description, haction⟩, ?_⟩
      have hstates (d : Definition) := d.statesUid_assignClass uid label description
      rcases hout with hout | ⟨hout, d, hd, hsame⟩
      · rw [hout] at htarget
        exact ⟨_, htarget, hstates _⟩
      · rw [hout] at htarget
        rw [hd, Option.getD_some] at hsame
        refine ⟨d, htarget.trans hd, ?_⟩
        rcases hsame with hchanges | hsame
        · refine Definition.statesUid_of_uid?_eq_some (Decidable.byContradiction fun hne => ?_)
          simp [Definition.assignClass, Definition.Revision.andThen, hne] at hchanges
        · exact (Definition.get?_eq_some_iff_of_same (hdraft _ _ hd) hsame
            (Json.isExact_ofInt uid)).2 (hstates d)

/-- An operation gives a class its identifier, or it edits attributes only. -/
def GrantsOrEdits (op : Operation) : Prop :=
  op.editsAttributes = true ∨
    ∃ uid label description conflict, op.action = .assignClass uid label description conflict

/--
A class that did not fail in a run shows the identifier that one of the operations granted, if any
of them was about its identifier.
-/
theorem exists_grantedUid_of_runAll {options : Options} {l : Location} {ops : List Operation}
    (hops : ∀ op ∈ ops, op.target = l → op.GrantsOrEdits) {draft : Draft}
    (hdraft : draft.Distinct) (h : (runAll options draft ops).failure? l = none)
    (hassigned : ∃ op ∈ ops, op.target = l ∧ ¬ op.editsAttributes = true) :
    ∃ op ∈ ops, op.target = l ∧ ∃ uid d, op.grantedUid? = some uid ∧
      (runAll options draft ops).get? l = some d ∧ d.StatesUid uid := by
  induction ops using List.reverseRecOn with
  | nil =>
    rcases hassigned with ⟨op, hop, -⟩
    cases hop
  | append_singleton before last ih =>
    rw [runAll_append, runAll_cons, runAll_nil] at h ⊢
    have hbefore := distinct_runAll hdraft options before
    have hrest := ih fun op hop => hops op (List.mem_append_left _ hop)
    generalize runAll options draft before = current at *
    rcases hassigned with ⟨op, hop, htarget, hedits⟩
    by_cases hl : last.target = l
    · subst hl
      rcases hops last (by simp) rfl with hlast | ⟨uid, label, description, conflict, haction⟩
      · have hop : op ∈ before := by
          rcases List.mem_append.1 hop with hop | hop
          · exact hop
          · exact absurd hlast (List.mem_singleton.1 hop ▸ hedits)
        rcases hrest (failure?_of_run h) ⟨op, hop, htarget, hedits⟩ with
          ⟨granting, hmem, htarget, uid, d, hgranted, hd, huid⟩
        rcases exists_get?_run hd with ⟨after, hafter⟩
        rcases attributesOnly_run hlast hafter with ⟨d', hd', hattributes⟩
        cases hd.symm.trans hd'
        exact ⟨granting, List.mem_append_left _ hmem, htarget, uid, after, hgranted, hafter,
          hattributes.statesUid huid⟩
      · rcases exists_grantedUid_of_run hbefore haction h with ⟨hgranted, d, hd, huid⟩
        exact ⟨last, by simp, rfl, uid, d, hgranted, hd, huid⟩
    · have hop : op ∈ before := by
        rcases List.mem_append.1 hop with hop | hop
        · exact hop
        · exact absurd (List.mem_singleton.1 hop ▸ htarget) hl
      have hsame := last.sameAt_run_of_ne current options hl
      rcases hrest (hsame.failure.symm.trans h) ⟨op, hop, htarget, hedits⟩ with
        ⟨granting, hmem, htarget, uid, d, hgranted, hd, huid⟩
      exact ⟨granting, List.mem_append_left _ hmem, htarget, uid, d, hgranted,
        hsame.definition.trans hd, huid⟩

end Operation

/-! ## The operations of the phase -/

namespace Planner

/-- The planner of identifiers assigns identifiers and nothing else. -/
theorem Emits.exists_assignClass {op : Operation} (h : classUid.Emits op) :
    ∃ uid label description conflict, op.action = .assignClass uid label description conflict := by
  have haction := h.action
  cases hop : op.action with
  | assignClass uid label description conflict => exact ⟨uid, label, description, conflict, rfl⟩
  | _ =>
    rw [hop] at haction
    exact haction.elim

/-- To assign an identifier is no edit of attributes. -/
theorem Emits.not_editsAttributes {op : Operation} (h : classUid.Emits op) :
    ¬ op.editsAttributes = true := by
  rcases h.exists_assignClass with ⟨uid, label, description, conflict, haction⟩
  simp [Operation.editsAttributes, haction]

/-- The other planners for identifiers edit attributes only, except in the dictionary. -/
theorem Emits.editsAttributes {planner : Planner} {op : Operation} (h : planner.Emits op)
    (hphase : planner.phase = .identifiers) (hplanner : planner ≠ classUid)
    (hkind : op.target.kind ≠ .dictionary) : op.editsAttributes = true := by
  have haction := h.action
  unfold Operation.editsAttributes
  cases hop : op.action <;> rw [hop] at haction
  all_goals first
    | rfl
    | simpa using hkind
    | skip
  all_goals cases planner
  all_goals first
    | exact haction.elim
    | exact absurd rfl hplanner
    | cases hphase

end Planner

namespace Compilation

/-- The identifier of the class that is shown under a key fits 64 bits. -/
def ClassUidFits (plan : Plan) (compiled seen : Draft) (key : String) : Prop :=
  ∀ source, plan.shown? compiled (.entry .classes key) = some source →
    Planner.classUidOverflows seen source = false

section

variable {repository : Repository} {options : Options} {plan : Plan} {seen : Draft}
  {structural dictionary identifiers : List Operation}

/-- What is planned for identifiers before and after those of classes edits attributes. -/
structure IdentifiersSplit (options : Options) (draft seen : Draft)
    (structural dictionary identifiers categories later : List Operation) : Prop where
  seen_eq : seen = Operation.runAll options draft (structural ++ dictionary ++ categories)
  identifiers_eq : identifiers = categories ++ (Planner.assignClasses seen ++ later)
  editsAttributes : ∀ op ∈ categories ++ later, op.target.kind ≠ .dictionary →
    op.editsAttributes = true
  proposes_later : Proposes options (Operation.runAll options seen (Planner.assignClasses seen))
    [.typeUid, .observable, .extensionTypes, .objectType, .datetime] later

/-- The phase of identifiers has a part before and a part after those of classes. -/
theorem exists_identifiersSplit
    (h : PlannedAs options (.ofRepository repository) plan structural dictionary identifiers) :
    ∃ seen categories later, seenBy options (.ofRepository repository) .classUid = .ok seen ∧
      IdentifiersSplit options (.ofRepository repository) seen structural dictionary identifiers
        categories later := by
  have hidentifiers := h.proposes_identifiers
  unfold Phase.planners at hidentifiers
  cases hidentifiers with
  | @cons _ _ _ categories _ hcategories hafter =>
    cases hafter with
    | @cons _ _ _ classes later hclasses hlater =>
      have hbefore : Proposes options (.ofRepository repository)
          (Phase.structural.planners ++ Phase.dictionary.planners ++ [.categoryUid])
          (structural ++ dictionary ++ categories) := by
        refine (h.proposes_structural.append h.proposes_dictionary).append ?_
        rw [← List.append_nil categories]
        exact .cons hcategories (.nil _)
      rw [← Operation.runAll_append] at hclasses
      obtain rfl := Except.ok.inj hclasses
      rw [← Operation.runAll_append options _ (structural ++ dictionary)] at hlater
      refine ⟨_, categories, later, seenBy_eq_ok_iff.2 ⟨_, hbefore, rfl⟩, rfl, rfl,
        fun op hop hkind => ?_, hlater⟩
      rcases List.mem_append.1 hop with hop | hop
      · exact (Planner.emits_of_mem hcategories hop).editsAttributes rfl (by decide) hkind
      · rcases hlater.exists_emits hop with ⟨planner, hplanner, hemits⟩
        refine hemits.editsAttributes ?_ ?_ hkind
        · simp at hplanner
          rcases hplanner with rfl | rfl | rfl | rfl | rfl <;> rfl
        · simp at hplanner
          rcases hplanner with rfl | rfl | rfl | rfl | rfl <;> decide

/-- A definition is rendered to one class at most. -/
theorem eq_key_of_mem_sourcesOf
    (h : PlannedAs options (.ofRepository repository) plan structural dictionary identifiers)
    {key key' : String} {source : Location}
    (hsource : source ∈ plan.sourcesOf (.entry .classes key))
    (hsource' : source ∈ plan.sourcesOf (.entry .classes key')) : key = key' := by
  have hpart (key : String) : (Location.entry .classes key).part? ≠ none := Option.some_ne_none _
  rcases exists_entry_of_mem_sourcesOf h (hpart key) hsource with ⟨d, hd, -, hentry⟩
  rcases exists_entry_of_mem_sourcesOf h (hpart key') hsource' with ⟨d', hd', -, hentry'⟩
  cases hd.symm.trans hd'
  rcases Planner.mem_entriesOf_classes hentry with ⟨hkind, -, rfl⟩ | ⟨hkind, -, rfl⟩ <;>
    rcases Planner.mem_entriesOf_classes hentry' with ⟨hkind', -, rfl⟩ | ⟨hkind', -, rfl⟩
  · rfl
  · rw [hkind] at hkind'
    cases hkind'
  · rw [hkind] at hkind'
    cases hkind'
  · rfl

variable {categories later : List Operation}
  (hsplit : IdentifiersSplit options (.ofRepository repository) seen structural dictionary
    identifiers categories later)

include hsplit

/-- The phase of identifiers schedules assignments to classes and the rest. -/
theorem mem_schedule_identifiers {op : Operation} :
    op ∈ (PhasePlan.ofOperations .identifiers identifiers).schedule ↔
      op ∈ Planner.assignClasses seen ∨ op ∈ categories ++ later := by
  rw [(PhasePlan.schedule_perm _ _).mem_iff, hsplit.identifiers_eq]
  simp only [List.mem_append]
  tauto

/-- A class that is rendered was planned an identifier for, unless that does not fit. -/
theorem exists_assignClasses_of_entry {l : Location} {d : Definition}
    (hd : (seenByRendering options repository structural dictionary identifiers).get? l = some d)
    (hcore : l.isCore = true)
    (hl : l.kind = .eventClass ∧ d.uid?.isSome = true ∨
      l.kind = .event ∧ l.name = Planner.baseEvent)
    (hfits : Planner.classUidOverflows seen l = false) :
    ∃ op ∈ Planner.assignClasses seen, op.target = l := by
  by_contra hnone
  have hne (op : Operation) (hop : op ∈ Planner.assignClasses seen) : op.target ≠ l := by
    intro htarget
    exact hnone ⟨op, hop, htarget⟩
  have hkind : l.kind ≠ .dictionary := by
    rcases hl with ⟨hkind, -⟩ | ⟨hkind, -⟩ <;> simp [hkind]
  have hedits (op : Operation) (hop : op ∈ Planner.assignClasses seen ++ later)
      (htarget : op.target = l) : op.editsAttributes = true := by
    rcases List.mem_append.1 hop with hop | hop
    · exact absurd htarget (hne op hop)
    · exact hsplit.editsAttributes op (List.mem_append_right _ hop) (htarget ▸ hkind)
  rw [seenByRendering, hsplit.identifiers_eq, ← List.append_assoc, Operation.runAll_append,
    ← hsplit.seen_eq] at hd
  rcases Operation.attributesOnly_runAll hedits hd with ⟨before, hbefore, hattributes⟩
  have hstated : l.kind = .eventClass ∧ before.uid?.isSome = true ∨
      l.kind = .event ∧ l.name = Planner.baseEvent := by
    rwa [hattributes.uid?_eq] at hl
  have hoverflows := Planner.classUidOverflows_of_forall_ne hbefore hcore hstated hne
  rw [hfits] at hoverflows
  cases hoverflows

/-- A class that did not fail shows the identifier that was granted to it, if one was planned. -/
theorem exists_granted_of_intact (hr : repository.Sound) {l : Location}
    (hkind : l.kind ≠ .dictionary)
    (hfailure : (beforeSchema options repository structural dictionary identifiers).failure? l =
      none) (hplanned : ∃ op ∈ Planner.assignClasses seen, op.target = l) :
    ∃ op ∈ Planner.assignClasses seen, op.target = l ∧ ∃ uid d, op.grantedUid? = some uid ∧
      (beforeSchema options repository structural dictionary identifiers).get? l = some d ∧
      d.StatesUid uid := by
  rw [beforeSchema, Operation.runAll_append] at hfailure ⊢
  have hbefore : (Operation.runAll options (.ofRepository repository)
      ((PhasePlan.ofOperations .structural structural).schedule ++
        (PhasePlan.ofOperations .dictionary dictionary).schedule)).Distinct :=
    Operation.distinct_runAll (distinct_ofRepository hr) options _
  have hops (op : Operation)
      (hop : op ∈ (PhasePlan.ofOperations .identifiers identifiers).schedule)
      (htarget : op.target = l) : op.GrantsOrEdits := by
    rcases (mem_schedule_identifiers hsplit).1 hop with hop | hop
    · exact Or.inr (Planner.emits_assignClasses hop).exists_assignClass
    · exact Or.inl (hsplit.editsAttributes op hop (htarget ▸ hkind))
  have hassigned : ∃ op ∈ (PhasePlan.ofOperations .identifiers identifiers).schedule,
      op.target = l ∧ ¬ op.editsAttributes = true := by
    rcases hplanned with ⟨op, hop, htarget⟩
    exact ⟨op, (mem_schedule_identifiers hsplit).2 (Or.inl hop), htarget,
      (Planner.emits_assignClasses hop).not_editsAttributes⟩
  rcases Operation.exists_grantedUid_of_runAll hops hbefore hfailure hassigned with
    ⟨op, hop, htarget, uid, d, hgranted, hd, huid⟩
  refine ⟨op, ?_, htarget, uid, d, hgranted, hd, huid⟩
  rcases (mem_schedule_identifiers hsplit).1 hop with hop | hop
  · exact hop
  · rcases Operation.grantedUid?_eq_some_iff.1 hgranted with ⟨label, description, haction⟩
    have hedits := hsplit.editsAttributes op hop (htarget ▸ hkind)
    simp [Operation.editsAttributes, haction] at hedits

/-- A class of the schema states the identifier that was granted to it. -/
theorem exists_granted_of_get? (hr : repository.Sound)
    (h : PlannedAs options (.ofRepository repository) plan structural dictionary identifiers)
    {key : String} {copy : Definition}
    (hcopy : (finalDraft options repository plan).get? (.entry .classes key) = some copy)
    (hfits : ClassUidFits plan (finalDraft options repository plan) seen key) :
    ∃ op ∈ Planner.assignClasses seen, op.target ∈ plan.sourcesOf (.entry .classes key) ∧
      ∃ uid, op.grantedUid? = some uid ∧ copy.StatesUid uid := by
  have hpart : (Location.entry .classes key).part? ≠ none := Option.some_ne_none _
  rcases exists_source_of_get? hr h hpart hcopy with ⟨source, hsource, d, hshown, hd, hrenders⟩
  rcases exists_entry_of_mem_sourcesOf h hpart hsource with ⟨planned, hplanned, hcore, hentry⟩
  have hclass : source.kind = .eventClass ∧ planned.uid?.isSome = true ∨
      source.kind = .event ∧ source.name = Planner.baseEvent := by
    rcases Planner.mem_entriesOf_classes hentry with ⟨hkind, huid, -⟩ | ⟨hkind, hname, -⟩
    · exact Or.inl ⟨hkind, huid⟩
    · exact Or.inr ⟨hkind, hname⟩
  have hkind : source.kind ≠ .dictionary := by
    rcases hclass with ⟨hkind, -⟩ | ⟨hkind, -⟩ <;> simp [hkind]
  have hassigned := exists_assignClasses_of_entry hsplit hplanned hcore hclass
    (hfits source hshown)
  have hsame := sameAt_compiled h (part?_of_mem_sourcesOf h hpart hsource)
  have hfailure : (finalDraft options repository plan).failure? source = none :=
    Option.isNone_iff_eq_none.1 (Bool.and_eq_true_iff.1 (isIntact_of_shown? hshown)).1
  rw [hsame.failure] at hfailure
  rcases exists_granted_of_intact hsplit hr hkind hfailure hassigned with
    ⟨op, hop, rfl, uid, d', hgranted, hd', huid⟩
  rw [← hsame.definition, hd] at hd'
  cases hd'
  refine ⟨op, hop, hsource, uid, hgranted, ?_⟩
  exact (hrenders.get?_eq_some_iff (distinct_compiled hr h _ _ hcopy) (by decide) (by decide)
    (by decide) (Json.isExact_ofInt uid)).2 huid

/-- Classes under different keys state different identifiers. -/
theorem ne_of_statesUid (hr : repository.Sound)
    (h : PlannedAs options (.ofRepository repository) plan structural dictionary identifiers)
    {key key' : String} (hkeys : key ≠ key') {copy copy' : Definition}
    (hcopy : (finalDraft options repository plan).get? (.entry .classes key) = some copy)
    (hcopy' : (finalDraft options repository plan).get? (.entry .classes key') = some copy')
    (hfits : ClassUidFits plan (finalDraft options repository plan) seen key)
    (hfits' : ClassUidFits plan (finalDraft options repository plan) seen key') {uid uid' : Int}
    (huid : copy.StatesUid uid) (huid' : copy'.StatesUid uid') : uid ≠ uid' := by
  rcases exists_granted_of_get? hsplit hr h hcopy hfits with
    ⟨op, hop, hsource, granted, hgranted, hstates⟩
  rcases exists_granted_of_get? hsplit hr h hcopy' hfits' with
    ⟨op', hop', hsource', granted', hgranted', hstates'⟩
  have hne : op ≠ op' := by
    rintro rfl
    exact hkeys (eq_key_of_mem_sourcesOf h hsource hsource')
  rw [huid.unique hstates, huid'.unique hstates']
  exact Planner.ne_of_granted hop hop' hne hgranted hgranted'

end

/-- The classes of the schema are what the compiled draft shows under their keys. -/
theorem classes_render_compiled {repository : Repository} {options : Options} {plan : Plan}
    {structural dictionary identifiers : List Operation} (hr : repository.Sound)
    (h : PlannedAs options (.ofRepository repository) plan structural dictionary identifiers)
    (key : String) :
    (Schema.render (finalDraft options repository plan)).classes[key]? =
      (finalDraft options repository plan).get? (.entry .classes key) := by
  change (Schema.render (finalDraft options repository plan)).lookup .classes key = _
  apply lookup_render_compiled hr h
  · decide
  · intro hbase
    cases hbase

/--
The classes of a schema have different identifiers, as long as these fit 64 bits when the planner
composes them.
-/
theorem schema_class_uids_distinct {repository : Repository} {options : Options}
    {analyzed compiled : Compilation} {plan : Plan} {schema : Schema}
    (hrepository : repository.Reachable)
    (hanalyze : (ofRepository repository options).analyze = .ok analyzed)
    (hplan : analyzed.stage.plan? = some plan) (hcompile : analyzed.compile = .ok compiled)
    (hschema : compiled.schema = .ok schema) :
    ∃ seen, seenBy options (.ofRepository repository) .classUid = .ok seen ∧
      ∀ (key key' : String) (d d' : Definition) (uid uid' : Int), key ≠ key' →
        schema.classes[key]? = some d → schema.classes[key']? = some d' →
        ClassUidFits plan compiled.draft seen key → ClassUidFits plan compiled.draft seen key' →
        d.StatesUid uid → d'.StatesUid uid' → uid ≠ uid' := by
  rcases exists_plannedAs_of_schema hanalyze hcompile hschema with
    ⟨plan', structural, dictionary, identifiers, h, hstage, hdraft, -, rfl⟩
  rw [hstage] at hplan
  cases hplan
  have hr := hrepository.sound
  rcases exists_identifiersSplit h with ⟨seen, categories, later, hseen, hsplit⟩
  refine ⟨seen, hseen, ?_⟩
  intro key key' d d' uid uid' hkeys hd hd' hfits hfits' huid huid'
  rw [hdraft] at hd hd' hfits hfits'
  rw [classes_render_compiled hr h] at hd hd'
  exact ne_of_statesUid hsplit hr h hkeys hd hd' hfits hfits' huid huid'

/-- A category of network activity with this identifier, and two classes. -/
def networkClasses (uid : Int) (first second : Fields) : List (Path × Json) :=
  [(⟨"categories.json"⟩,
      .obj [("attributes", .obj [("network", .obj [("uid", Json.ofInt uid)])])]),
    (⟨"events/network/a.json"⟩, .obj first), (⟨"events/network/b.json"⟩, .obj second)]

/-- Two classes of one category. -/
def twoClasses : List (Path × Json) :=
  networkClasses 4 [("name", .str "a"), ("uid", Json.ofInt 1)]
    [("name", .str "b"), ("uid", Json.ofInt 2)]

/-- The identifier of the first class does not fit 64 bits; the second has the same own number. -/
def overflowingClass : List (Path × Json) :=
  networkClasses 100000000000000000 [("name", .str "a"), ("uid", Json.ofInt 3)]
    [("name", .str "b"), ("category", .str "none"), ("uid", Json.ofInt 3)]

/-- The identifier that the schema shows for a class. -/
def uidOf (key : String) (way : Way) : Option Int :=
  way.schema.classes[key]?.bind Definition.uid?

/-- Whether the identifier of the class that is shown under a key fits 64 bits. -/
def fits (key : String) (way : Way) : Bool :=
  match seenBy {} (.ofRepository way.repository) .classUid with
  | .ok seen => (way.plan.shown? way.compiled.draft (.entry .classes key)).all
      fun source => !Planner.classUidOverflows seen source
  | .error _ => false

theorem classUidFits_of_fits {way : Way} {key : String} (h : fits key way = true) {seen : Draft}
    (hseen : seenBy {} (.ofRepository way.repository) .classUid = .ok seen) :
    ClassUidFits way.plan way.compiled.draft seen key := by
  intro source hshown
  unfold fits at h
  rw [hseen, hshown] at h
  simpa using h

theorem exists_of_uidOf {key : String} {uid : Int} {way : Way} (h : uidOf key way = some uid) :
    ∃ d, way.schema.classes[key]? = some d ∧ d.StatesUid uid := by
  rcases Option.bind_eq_some_iff.1 h with ⟨d, hd, huid⟩
  exact ⟨d, hd, Definition.statesUid_of_uid?_eq_some huid⟩

theorem reachable_of_twoClasses {repository : Repository}
    (h : Repository.ofFiles twoClasses = .ok repository) : repository.Reachable := by
  refine Repository.Reachable.empty.insertFiles (fun file hfile => ?_) h
  simp only [twoClasses, networkClasses, List.mem_cons, List.not_mem_nil, or_false] at hfile
  rcases hfile with rfl | rfl | rfl <;> simp [Json.WellFormed, Json.WellFormedFields, Json.ofInt]

/-- Two classes of one category have different identifiers. -/
theorem two_classes_have_different_uids :
    ∃ way : Way, ∃ d d', Repository.ofFiles twoClasses = .ok way.repository ∧
      way.schema.classes["a"]? = some d ∧ way.schema.classes["b"]? = some d' ∧
      d.StatesUid 4001 ∧ d'.StatesUid 4002 ∧ (4001 : Int) ≠ 4002 := by
  have hview : (wayOf twoClasses).map (fun way => (uidOf "a" way, uidOf "b" way, fits "a" way,
      fits "b" way)) = some (some 4001, some 4002, true, true) := by decide +kernel
  rcases exists_of_wayOf hview with ⟨way, hfiles, hanalyze, hplan, hcompile, hschema, hway⟩
  rcases Prod.mk.inj hway with ⟨huid, hway⟩
  rcases Prod.mk.inj hway with ⟨huid', hway⟩
  rcases Prod.mk.inj hway with ⟨hfits, hfits'⟩
  rcases exists_of_uidOf huid with ⟨d, hd, hstates⟩
  rcases exists_of_uidOf huid' with ⟨d', hd', hstates'⟩
  rcases schema_class_uids_distinct (reachable_of_twoClasses hfiles) hanalyze hplan hcompile hschema
      with
    ⟨seen, hseen, hdistinct⟩
  exact ⟨way, d, d', hfiles, hd, hd', hstates, hstates',
    hdistinct "a" "b" d d' 4001 4002 (by decide) hd hd' (classUidFits_of_fits hfits hseen)
      (classUidFits_of_fits hfits' hseen) hstates hstates'⟩

/-- Without the condition, classes of a schema may have the same identifier. -/
theorem overflowing_class_shares_uid :
    ¬ ∀ files repository options analyzed compiled schema,
      Repository.ofFiles files = .ok repository →
      (ofRepository repository options).analyze = .ok analyzed →
      analyzed.compile = .ok compiled → compiled.schema = .ok schema →
      ∀ (key key' : String) (d d' : Definition) (uid uid' : Int), key ≠ key' →
        schema.classes[key]? = some d → schema.classes[key']? = some d' →
        d.StatesUid uid → d'.StatesUid uid' → uid ≠ uid' := by
  intro hclaim
  have hview : (wayOf overflowingClass).map (fun way => (uidOf "a" way, uidOf "b" way)) =
      some (some 3, some 3) := by decide +kernel
  rcases exists_of_wayOf hview with ⟨way, hfiles, hanalyze, -, hcompile, hschema, hway⟩
  rcases Prod.mk.inj hway with ⟨huid, huid'⟩
  rcases exists_of_uidOf huid with ⟨d, hd, hstates⟩
  rcases exists_of_uidOf huid' with ⟨d', hd', hstates'⟩
  exact hclaim overflowingClass way.repository {} way.analyzed way.compiled way.schema hfiles
    hanalyze hcompile hschema "a" "b" d d' 3 3 (by decide) hd hd' hstates hstates' rfl

end Compilation

end EventSchema
