import EventSchema.Proofs.Contributions
import EventSchema.Proofs.IdentifierArithmetic
import EventSchema.Proofs.TrimmedPlanning

/-!
# The identifiers of copied classes

A class that is copied out of an extension is marked with the declared name of the extension, and
its identifier is composed from what stands under that name in the table of extensions.  The mark
stays unless a later copy or patch of the class brings another one.  In the table the last extension
wins that goes by the name, be it by its declared name or by its directory, so the class gets the
identifier of its own extension as long as no later one that goes by the name has another.

Main results:

- {lit}`Operation.sourceExtension?_edit_of_some`: an edit that brings no other mark keeps it.
- {lit}`Draft.isMarked_runAll`: so does a run.
- {lit}`Compilation.copied_class_gets_uid_of_extension`: the identifier of a copied class.
-/

namespace EventSchema

open Std

namespace Definition

/-! ## Marks that stay -/

/-- Another definition states no extension that it was copied from, unless it is this one. -/
def LeavesMark (source : Definition) (mark : String) : Prop :=
  ∀ value, source.get? sourceExtensionKey = some value → value = .str mark

/-- A merge keeps the mark, unless it overwrites it with another one. -/
theorem sourceExtension?_merge_of_some {d source : Definition} (h : source.Distinct)
    (rule : MergeRule) {mark : String} (hmark : d.sourceExtension? = some mark)
    (hleaves : rule.overwrite = true → source.LeavesMark mark) :
    (d.merge rule source).definition.sourceExtension? = some mark := by
  have hhere := text?_eq_some_iff.1 hmark
  refine text?_eq_some_iff.2 ?_
  rw [d.get?_merge h]
  cases hthere : (Fields.get? source.fields sourceExtensionKey).filter
      fun _ => rule.admits sourceExtensionKey with
  | none => exact hhere
  | some value =>
    dsimp only
    rw [Fields.get?_mergeField_self]
    by_cases hnull : value.isNull = true
    · rw [if_pos hnull, hhere]
    have hkept : (Json.merge rule.overwrite (.str mark) value).1 = .str mark := by
      cases hrule : rule.overwrite with
      | false => cases value <;> rfl
      | true =>
        have hstated : source.get? sourceExtensionKey = some value := by
          simp [Definition.get?, (Option.filter_eq_some_iff.1 hthere).1, hnull]
        simp only [hleaves hrule value hstated, Json.merge, Json.replace]
        split <;> rfl
    rw [if_neg hnull, hhere]
    exact (if_neg (by decide)).trans (congrArg some hkept)

end Definition

namespace Operation

/-- An operation brings no other mark to its target. -/
def KeepsMark (draft : Draft) (mark : String) (op : Operation) : Prop :=
  match op.action with
  | .copyExtension _ extension _ => extension = mark
  | .mergeExtension l => ∀ patch, draft.get? l = some patch → patch.LeavesMark mark
  | .copyRendered _ => False
  | _ => True

/-- An edit that brings no other mark keeps it. -/
theorem sourceExtension?_edit_of_some {op : Operation} {draft : Draft} (hdraft : draft.Distinct)
    {options : Options} {d : Definition} {revision : Revision}
    (h : op.edit draft options d = .ok revision) {mark : String} (hop : op.KeepsMark draft mark)
    (hmark : d.sourceExtension? = some mark) :
    revision.definition.sourceExtension? = some mark := by
  unfold KeepsMark at hop
  rcases sourceExtension?_edit_cases h with hsame | ⟨l, source, rule, -, hsource, rfl, hpatch⟩ |
    ⟨l, extension, key, haction, hcopy⟩ | ⟨l, source, haction, -, -⟩
  · exact hsame.trans hmark
  · refine Definition.sourceExtension?_merge_of_some (hdraft l source hsource) rule hmark
      fun hoverwrite => ?_
    rw [hpatch hoverwrite] at hop
    exact hop source hsource
  · rw [haction] at hop
    rw [hcopy, show extension = mark from hop]
  · rw [haction] at hop
    exact hop.elim

theorem KeepsMark.congr {left right : Draft} {mark : String} {op : Operation}
    (h : op.KeepsMark left mark)
    (hsame : ∀ l, op.action = .mergeExtension l → left.get? l = right.get? l) :
    op.KeepsMark right mark := by
  unfold KeepsMark at h ⊢
  split at h
  · exact h
  · rename_i l haction
    rwa [← hsame l haction]
  · exact h
  · trivial

end Operation

/-! ## Marks in a run -/

/-- Locations that are left as they are authored: extensions, and the classes in them. -/
def Location.StaysAuthored (l : Location) : Prop :=
  l.kind = .extension ∨ l.kind = .eventClass ∧ l.isCore = false

namespace Draft

/-- A definition is marked with an extension. -/
def IsMarked (draft : Draft) (l : Location) (mark : String) : Prop :=
  ∃ d, draft.get? l = some d ∧ d.sourceExtension? = some mark

open Operation

/-- An operation that brings no other mark to its target keeps the mark there. -/
theorem isMarked_run {draft : Draft} (hdraft : draft.Distinct) {op : Operation} {mark : String}
    (hop : op.KeepsMark draft mark) (h : draft.IsMarked op.target mark) (options : Options) :
    (op.run draft options).IsMarked op.target mark := by
  obtain ⟨d, hd, hmark⟩ := h
  obtain ⟨after, hafter⟩ : ∃ after, (op.run draft options).get? op.target = some after :=
    exists_get?_run hd
  rcases get?_run_cases hafter with hbefore | ⟨-, revision, hedit, rfl⟩
  · exact ⟨after, hafter, by rwa [← Option.some.inj (hd.symm.trans hbefore)]⟩
  · rw [hd, Option.getD_some] at hedit
    exact ⟨_, hafter, sourceExtension?_edit_of_some hdraft hedit hop hmark⟩

/-- A copy that does not fail marks its target. -/
theorem isMarked_run_copy {draft : Draft} (hdraft : draft.WellFormed) {options : Options}
    {l source : Location} {mark : String} {key : Option String}
    (h : (Operation.outcome ⟨l, .copyExtension source mark key⟩ draft options).isFailed = false) :
    (Operation.run ⟨l, .copyExtension source mark key⟩ draft options).IsMarked l mark := by
  obtain ⟨revision, after, hedit, hafter, hcarries⟩ := landed_run rfl hdraft h
  obtain ⟨copied, -, rfl⟩ := exists_of_map_source hedit
  have hcopy := Definition.text?_eq_some_iff.1
    (((draft.get? l).getD default).sourceExtension?_copyExtension copied mark key)
  obtain ⟨mine, hmine, hsame⟩ := hcarries _ _ hcopy
  rw [((Json.isExact_str mark) mine).1.1 hsame] at hmine
  exact ⟨after, hafter, Definition.text?_eq_some_iff.2 hmine⟩

/-- A run in which nothing brings another mark keeps the mark. -/
theorem isMarked_runAll {base : Draft} {l : Location} {mark : String} {ops : List Operation}
    (hops : ∀ op ∈ ops, ¬ op.target.StaysAuthored ∧ (op.target = l → op.KeepsMark base mark ∧
      ∀ k, op.action = .mergeExtension k → k.StaysAuthored))
    {draft : Draft} (hdraft : draft.Distinct)
    (hbase : ∀ k, k.StaysAuthored → draft.get? k = base.get? k) (h : draft.IsMarked l mark)
    (options : Options) : (runAll options draft ops).IsMarked l mark := by
  induction ops generalizing draft with
  | nil => exact h
  | cons op rest ih =>
    obtain ⟨⟨hapart, hkeeps⟩, hrest⟩ := List.forall_mem_cons.1 hops
    refine ih hrest (distinct_run hdraft op options) (fun k hk => ?_) ?_
    · rw [op.run_get?_of_ne draft options fun heq => hapart (heq ▸ hk), hbase k hk]
    · by_cases htarget : op.target = l
      · obtain ⟨hop, hpatch⟩ := hkeeps htarget
        subst htarget
        refine isMarked_run hdraft (hop.congr fun k haction => ?_) h options
        exact (hbase k (hpatch k haction)).symm
      · unfold IsMarked
        rwa [op.run_get?_of_ne draft options htarget]

end Draft

/-! ## What planners propose -/

/-- The identifier that an operation is planned to give to a class. -/
def Operation.plannedUid? (op : Operation) : Option Int :=
  match op.action with
  | .assignClass uid _ _ _ => some uid
  | _ => none

namespace Planner

open Operation

theorem Emits.eq_extension {planner : Planner} {op : Operation} (h : planner.Emits op)
    {l : Location} (hop : op.action.lineage? = some l) : planner = extension := by
  have haction := h.action
  cases hcase : op.action <;> rw [hcase] at haction hop <;> cases hop
  all_goals
    cases planner with
    | extension => rfl
    | _ => exact haction.elim

theorem Emits.eq_classUid {planner : Planner} {op : Operation} (h : planner.Emits op) {uid : Int}
    (hop : op.plannedUid? = some uid) : planner = classUid := by
  have haction := h.action
  unfold plannedUid? at hop
  split at hop
  · rename_i hcase
    rw [hcase] at haction
    cases planner with
    | classUid => rfl
    | _ => exact haction.elim
  · cases hop

/-- A class with an identifier of its own is planned the sum, if it can be composed. -/
theorem plannedUids_assignClasses {draft : Draft} {l : Location} {d : Definition} {own : Int}
    (hd : draft.get? l = some d) (hcore : l.isCore = true) (hkind : l.kind = .eventClass)
    (hown : d.uid? = some own) :
    (targeting (assignClasses draft) l).filterMap plannedUid? =
      (Definition.classUid? (draft.extensionUid d) ((draft.categoryUid? d).getD 0) own).toList := by
  have hlisted {d' : Definition} (hmem : (l, d') ∈ draft.core [.eventClass, .event]) : d = d' :=
    Option.some.inj (hd.symm.trans (Draft.mem_core.1 hmem).1)
  rw [← classUid?_eq (l := l) hown]
  cases huid : classUid? draft (extensionUids draft) l d with
  | none =>
    have hnone : targeting (assignClasses draft) l = [] := by
      refine targeting_eq_nil_iff.2 fun op hop htarget => ?_
      obtain ⟨d', uid, conflict, hmem, hcomposed, -⟩ := mem_assignClassesFrom hop
      rw [htarget] at hmem hcomposed
      cases hlisted hmem
      rw [huid] at hcomposed
      cases hcomposed
    rw [hnone]
    rfl
  | some uid =>
    have hmem : (l, d) ∈ draft.core [.eventClass, .event] :=
      Draft.mem_core.2 ⟨hd, hcore, by simp [hkind]⟩
    obtain ⟨op, hop, rfl⟩ := exists_mem_assignClassesFrom ∅ hmem huid
    obtain ⟨d', uid', conflict, hmem, hcomposed, haction⟩ := mem_assignClassesFrom hop
    cases hlisted hmem
    cases huid.symm.trans hcomposed
    rw [targeting_eq_singleton (pairwise_target_assignClasses draft) hop]
    simp [plannedUid?, haction]

/-- Extensions and their classes are not edited. -/
theorem Emits.not_staysAuthored {planner : Planner} {op : Operation} (h : planner.Emits op) :
    ¬ op.target.StaysAuthored := by
  rintro (hkind | ⟨hkind, hcore⟩)
  · exact extension_not_mem_targetKinds planner (hkind ▸ h.kind)
  · have hleaves : planner.leavesCore = true := by
      by_contra hstays
      rw [h.core (Bool.eq_false_iff.2 hstays)] at hcore
      cases hcore
    have hkinds := h.kind
    rw [hkind] at hkinds
    cases planner <;> cases hleaves <;> simp [targetKinds] at hkinds

/-- What is brought to a class in core comes from a class of an extension. -/
theorem staysAuthored_of_lineage? {planner : Planner} {draft : Draft} {options : Options}
    {ops : List Operation} (h : planner.analyze draft options = .ok ops) {op : Operation}
    (hop : op ∈ ops) (hkind : op.target.kind = .eventClass) {l : Location}
    (hl : op.action.lineage? = some l) : l.StaysAuthored := by
  cases (emits_of_mem h hop).eq_extension hl
  cases h
  have hread := mem_prerequisites_of_lineage? hl
  refine Or.inr ⟨((grounds_applyExtensions hop).2 l hread).trans hkind, ?_⟩
  exact (emits_applyExtensions hop).reads hread

end Planner

/-! ## What is planned for a copied class -/

/-- The identifiers that are planned for a class. -/
def Plan.classUids (plan : Plan) (l : Location) : List Int :=
  (plan.operationsFor l).filterMap Operation.plannedUid?

/-- The extension of a directory has an identifier, and no extension of a later directory that goes
by its declared name has another one. -/
structure Repository.Prevails (r : Repository) (directory declared : String) (uid : Int) :
    Prop where
  states : (r.get? (.inCore .extension directory)).bind Definition.uid? = some uid
  last : ∀ later d other, r.get? (.inCore .extension later) = some d → d.uid? = some other →
    compare directory later = .lt → later = declared ∨ d.name?.getD later = declared → other = uid

/-- Whether an identifier prevails can be told from the definitions of a repository. -/
theorem Repository.prevails_iff {r : Repository} {directory declared : String} {uid : Int} :
    r.Prevails directory declared uid ↔
      (r.get? (.inCore .extension directory)).bind Definition.uid? = some uid ∧
        ∀ e ∈ r.definitions.toList, e.1 = .inCore .extension e.1.name →
          ∀ other ∈ e.2.uid?, compare directory e.1.name = .lt →
            e.1.name = declared ∨ e.2.name?.getD e.1.name = declared → other = uid := by
  constructor
  · rintro ⟨hstates, hlast⟩
    refine ⟨hstates, fun e he hl other hother => ?_⟩
    exact hlast e.1.name e.2 other (hl ▸ mem_toList_definitions.1 he) hother
  · rintro ⟨hstates, hlast⟩
    refine ⟨hstates, fun later d other hd hother => ?_⟩
    exact hlast (.inCore .extension later, d) (mem_toList_definitions.2 hd) rfl other hother

instance (r : Repository) (directory declared : String) (uid : Int) :
    Decidable (r.Prevails directory declared uid) :=
  decidable_of_iff' _ Repository.prevails_iff

namespace Compilation

open Operation Planner

/-- What is not in the second list splits the first one. -/
theorem exists_of_append_eq_append_cons {α : Type} {first second before after : List α} {a : α}
    (h : first ++ second = before ++ a :: after) (ha : a ∉ second) :
    ∃ rest, first = before ++ a :: rest ∧ after = rest ++ second := by
  rcases List.append_eq_append_iff.1 h with ⟨between, -, hsecond⟩ | ⟨rest, rfl, hsecond⟩
  · exact absurd (hsecond ▸ List.mem_append_right _ List.mem_cons_self) ha
  · cases rest with
    | nil =>
      rw [List.nil_append] at hsecond
      exact absurd (hsecond ▸ List.mem_cons_self) ha
    | cons b rest =>
      obtain ⟨rfl, rfl⟩ := List.cons.inj hsecond
      exact ⟨rest, rfl, rfl⟩

section

variable {options : Options} {draft : Draft} {planners : List Planner} {ops : List Operation}

/-- Whatever is proposed, extensions and their classes stay as they are. -/
theorem Proposes.get?_of_staysAuthored (h : Proposes options draft planners ops)
    {before after : List Operation} (hsplit : ops = before ++ after) {l : Location}
    (hl : l.StaysAuthored) : (runAll options draft before).get? l = draft.get? l := by
  refine (sameAt_runAll_of_forall_ne options (fun op hop heq => ?_) draft).definition
  obtain ⟨planner, -, hemits⟩ := h.exists_emits (hsplit ▸ List.mem_append_left after hop)
  exact hemits.not_staysAuthored (heq ▸ hl)

/-- What only one planner emits is not proposed by others. -/
theorem Proposes.not_mem_of_emits (h : Proposes options draft planners ops) {op : Operation}
    {only : Planner} (honly : ∀ planner : Planner, planner.Emits op → planner = only)
    (hplanners : only ∉ planners) : op ∉ ops := by
  intro hop
  obtain ⟨planner, hplanner, hemits⟩ := h.exists_emits hop
  exact hplanners (honly planner hemits ▸ hplanner)

/-- A copy is made in the declared name of the extension that it comes from. -/
theorem Proposes.declaredNames_of_copy (h : Proposes options draft planners ops)
    {l source : Location} {declared : String} {key : Option String}
    (hop : ⟨l, .copyExtension source declared key⟩ ∈ ops) {directory : String}
    (hdirectory : source.extension = some directory) :
    draft.declaredNames[directory]? = some declared := by
  obtain ⟨planner, -, before, here, after, hsplit, hanalyze, hop⟩ := h.exists_analyze_runAll hop
  cases (emits_of_mem hanalyze hop).eq_extension rfl
  cases hanalyze
  obtain ⟨l', directory', name, -, hfrom, hname, -, heq⟩ := exists_of_mem_applyExtensions hop
  have hcopies : (applyExtension (runAll options draft before) options name l').action =
      .copyExtension source declared key := congrArg Operation.action heq.symm
  have hreads := prerequisites_applyExtension (runAll options draft before) options name l'
  rw [prerequisites, hcopies] at hreads
  cases List.singleton_inj.1 hreads
  cases hdirectory.symm.trans hfrom
  rw [eq_of_applyExtension hcopies, ← hname]
  exact congrArg (·[directory]?) (Draft.declaredNames_congr fun k hk =>
    (h.get?_of_staysAuthored hsplit (Or.inl hk)).symm)

end

/-- Whose identifier stands in the table under the declared name of an extension. -/
theorem getElem?_extensionUids_of_prevails {draft : Draft} {repository : Repository}
    (hplaced : repository.Placed)
    (hsame : ∀ l, l.kind = .extension → draft.get? l = repository.get? l)
    {directory declared : String} {uid : Int}
    (hprevails : repository.Prevails directory declared uid)
    (hname : draft.declaredNames[directory]? = some declared) :
    (extensionUids draft)[declared]? = some uid := by
  have hcore (l : Location) (d : Definition) (hget : draft.get? l = some d)
      (hkind : l.kind = .extension) : l.isCore = true :=
    hplaced.isCore ((hsame l hkind).symm.trans hget) hkind
  refine getElem?_extensionUids hname ?_ fun later name hlater hlt hgoes other hother => ?_
  · rw [hsame _ rfl]
    exact hprevails.states
  · rw [Draft.getElem?_declaredNames hcore, hsame _ rfl] at hlater
    rw [hsame _ rfl] at hother
    obtain ⟨d, hd, rfl⟩ := Option.map_eq_some_iff.1 hlater
    rw [hd, Option.bind_some] at hother
    exact hprevails.last later d other hd hother hlt (hgoes.imp Eq.symm Eq.symm)

section

variable {repository : Repository} {options : Options} {plan : Plan}
  {structural dictionary identifiers : List Operation}
  (h : PlannedAs options (.ofRepository repository) plan structural dictionary identifiers)

include h

/-- What is planned for a location is planned phase by phase. -/
theorem operationsFor_eq_targeting_append (l : Location) :
    plan.operationsFor l = targeting (structural ++ (dictionary ++ (identifiers ++ Planner.render
      (seenByRendering options repository structural dictionary identifiers) options))) l := by
  simp [Plan.operationsFor, h.phases_eq, PhasePlan.get_ofOperations, seenByRendering]

/-- Where an operation of an extension is planned for a location, the phases split at it. -/
theorem exists_split_of_lineage? {op : Operation} {l source : Location}
    (hop : op.action.lineage? = some source) {before after : List Operation}
    (hplanned : plan.operationsFor l = before ++ op :: after) :
    ∃ front back, structural = front ++ op :: back ∧
      ∀ other ∈ back ++ dictionary, other.target = l → other ∈ after := by
  rw [operationsFor_eq_targeting_append h] at hplanned
  obtain ⟨front, rest, hall, -, hrest⟩ := List.filter_eq_append_iff.1 hplanned
  obtain ⟨between, back, rfl, -, rfl⟩ := exists_split_of_targeting hrest
  -- Behind the structural phase nothing is brought out of extensions.
  have hlater : op ∉ dictionary ++ (identifiers ++ Planner.render
      (seenByRendering options repository structural dictionary identifiers) options) := by
    simp only [List.mem_append, not_or]
    have honly (planner : Planner) (hemits : planner.Emits op) : planner = .extension :=
      hemits.eq_extension hop
    refine ⟨h.proposes_dictionary.not_mem_of_emits honly (by decide),
      h.proposes_identifiers.not_mem_of_emits honly (by decide), fun hmem => ?_⟩
    cases honly _ (emits_render hmem)
  rw [← List.append_assoc front] at hall
  obtain ⟨rest, hstructural, rfl⟩ := exists_of_append_eq_append_cons hall hlater
  refine ⟨front ++ between, rest, hstructural, fun other hother htarget => ?_⟩
  refine mem_targeting.2 ⟨?_, htarget⟩
  rcases List.mem_append.1 hother with hother | hother <;> simp [hother]

theorem exists_split_of_operationsFor {l source : Location} {declared : String}
    {key : Option String} {before after : List Operation}
    (hcopy : plan.operationsFor l = before ++ ⟨l, .copyExtension source declared key⟩ :: after) :
    ∃ front back, structural = front ++ ⟨l, .copyExtension source declared key⟩ :: back ∧
      ∀ op ∈ back ++ dictionary, op.target = l → op ∈ after :=
  exists_split_of_lineage? h rfl hcopy

/-- A copied class is marked when identifiers are planned, unless another mark is brought. -/
theorem isMarked_of_copy (hr : repository.Reachable) {l source : Location} {declared : String}
    {key : Option String} {front back : List Operation} (hkind : l.kind = .eventClass)
    (hcopy : structural = front ++ ⟨l, .copyExtension source declared key⟩ :: back)
    (hkeeps : ∀ op ∈ back ++ dictionary, op.target = l →
      op.KeepsMark (.ofRepository repository) declared) :
    (runAll options (.ofRepository repository) (structural ++ dictionary)).IsMarked l
      declared := by
  have hproposes := h.proposes_structural.append h.proposes_dictionary
  have hwellFormed := wellFormed_of_proposes hr h.proposes_structural hcopy
  have hintact := intact_of_proposes hr (fun _ hmem => hmem) h.proposes_structural l
  rw [List.append_cons] at hcopy
  rw [hcopy, runAll_append, failure?_runAll] at hintact
  have hcopied := (Option.or_eq_none_iff.1 hintact).1
  have hmarked : (runAll options (.ofRepository repository)
      (front ++ [⟨l, .copyExtension source declared key⟩])).IsMarked l declared := by
    rw [runAll_append, runAll_cons, runAll_nil] at hcopied ⊢
    refine Draft.isMarked_run_copy hwellFormed ?_
    have hnone := Operation.isNone_failure?_run_target
      ⟨l, .copyExtension source declared key⟩ (runAll options (.ofRepository repository) front)
      options
    rw [hcopied] at hnone
    simpa using (Bool.and_eq_true_iff.1 hnone.symm).2
  have hsplit : structural ++ dictionary =
      (front ++ [⟨l, .copyExtension source declared key⟩]) ++ (back ++ dictionary) := by
    rw [hcopy, List.append_assoc]
  rw [hsplit, runAll_append]
  refine Draft.isMarked_runAll (fun op hop => ?_) ?_
    (fun k hk => hproposes.get?_of_staysAuthored hsplit hk) hmarked options
  · obtain ⟨planner, -, seen, here, hanalyze, hmem, -⟩ :=
      hproposes.exists_analyze (hsplit ▸ List.mem_append_right _ hop)
    refine ⟨(emits_of_mem hanalyze hmem).not_staysAuthored, fun htarget =>
      ⟨hkeeps op hop htarget, fun k haction => ?_⟩⟩
    exact staysAuthored_of_lineage? hanalyze hmem (htarget ▸ hkind) (by rw [haction]; rfl)
  · exact distinct_runAll (distinct_ofRepository hr.sound) options _

/-- The identifiers that are planned for a class are those of the planner for classes. -/
theorem classUids_eq {seen : Draft}
    (hseen : seen = runAll options (.ofRepository repository) (structural ++ dictionary))
    (l : Location) :
    plan.classUids l = (targeting (assignClasses (runAll options seen (assignCategories seen)))
      l).filterMap plannedUid? := by
  have hnone {planners : List Planner} {ops : List Operation}
      (hops : ∀ op ∈ ops, ∃ planner ∈ planners, planner.Emits op)
      (hplanners : .classUid ∉ planners) : (targeting ops l).filterMap plannedUid? = [] := by
    refine List.filterMap_eq_nil_iff.2 fun op hop => ?_
    refine Option.eq_none_iff_forall_not_mem.2 fun uid huid => ?_
    obtain ⟨planner, hplanner, hemits⟩ := hops op (mem_targeting.1 hop).1
    exact hplanners (hemits.eq_classUid huid ▸ hplanner)
  have hidentifiers := h.proposes_identifiers
  rw [Plan.classUids, operationsFor_eq_targeting_append h]
  rw [← hseen] at hidentifiers
  unfold Phase.planners at hidentifiers
  cases hidentifiers with
  | @cons _ _ _ categories _ hcategories hafter =>
    cases hafter with
    | @cons _ _ _ classes later hclasses hlater =>
      cases hcategories
      cases hclasses
      simp only [targeting_append, List.filterMap_append,
        hnone (fun op hop => h.proposes_structural.exists_emits hop) (by decide),
        hnone (fun op hop => h.proposes_dictionary.exists_emits hop) (by decide),
        hnone (fun op hop => hlater.exists_emits hop) (by decide),
        hnone (fun op hop => ⟨.categoryUid, List.mem_singleton_self _,
          emits_assignCategories hop⟩) (by decide),
        hnone (fun op hop => ⟨.rendering, List.mem_singleton_self _, emits_render hop⟩)
          (by decide), List.nil_append, List.append_nil]

/-- A class with an identifier of its own is planned the sum, if it can be composed. -/
theorem classUids_of_uid? {seen : Draft}
    (hseen : seen = runAll options (.ofRepository repository) (structural ++ dictionary))
    {l : Location} {d : Definition} {own : Int} (hd : seen.get? l = some d)
    (hcore : l.isCore = true) (hkind : l.kind = .eventClass) (hown : d.uid? = some own) :
    plan.classUids l =
      (Definition.classUid? (seen.extensionUid d) ((seen.categoryUid? d).getD 0) own).toList := by
  -- Categories are stated first, which changes none of the three numbers.
  obtain ⟨categorised, hcategorised, honly⟩ := exists_attributesOnly_assignCategories options hd
  have hstays (k : Location) (hk : k.kind = .category ∨ k.kind = .extension) :=
    get?_runAll_assignCategories options seen hk
  rw [classUids_eq h hseen,
    plannedUids_assignClasses hcategorised hcore hkind (honly.uid?_eq.trans hown),
    extensionUid_congr hstays honly, categoryUid?_congr hstays honly]

/-- The extension of a copied class is the one it was copied from, if its identifier prevails. -/
theorem extensionUid_of_copy (hr : repository.Reachable) {seen : Draft}
    (hseen : seen = runAll options (.ofRepository repository) (structural ++ dictionary))
    {l source : Location} {directory declared : String} {key : Option String}
    {front back : List Operation} {uid : Int} {d : Definition} (hkind : l.kind = .eventClass)
    (hdirectory : source.extension = some directory)
    (hcopy : structural = front ++ ⟨l, .copyExtension source declared key⟩ :: back)
    (hkeeps : ∀ op ∈ back ++ dictionary, op.target = l →
      op.KeepsMark (.ofRepository repository) declared)
    (hprevails : repository.Prevails directory declared uid) (hd : seen.get? l = some d) :
    seen.extensionUid d = uid := by
  have hproposes := h.proposes_structural.append h.proposes_dictionary
  have hsame (k : Location) (hk : k.kind = .extension) :
      seen.get? k = (Draft.ofRepository repository).get? k := by
    rw [hseen]
    exact hproposes.get?_of_staysAuthored (List.append_nil _).symm (Or.inl hk)
  have hmarked := isMarked_of_copy h hr hkind hcopy hkeeps
  rw [← hseen] at hmarked
  obtain ⟨marked, hget, hmark⟩ := hmarked
  cases hd.symm.trans hget
  have hname : seen.declaredNames[directory]? = some declared := by
    rw [Draft.declaredNames_congr hsame]
    exact h.proposes_structural.declaredNames_of_copy
      (hcopy ▸ List.mem_append_cons_self) hdirectory
  have htable := getElem?_extensionUids_of_prevails hr.placed
    (fun k hk => (hsame k hk).trans (Draft.get?_ofRepository repository k)) hprevails hname
  rw [Draft.extensionUid, hmark, Option.bind_some, htable, Option.getD_some]

end

/--
A class that is copied out of an extension, and that has an identifier of its own and a category
with one when identifiers are planned, is planned the sum of the three, unless that does not fit 64
bits.  Two things have to hold: nothing that is planned for the class behind the copy brings another
mark, and no extension of a later directory that goes by the declared name has another identifier.
-/
theorem copied_class_gets_uid_of_extension {repository : Repository} {options : Options}
    {analyzed : Compilation} {plan : Plan} (hrepository : repository.Reachable)
    (hanalyze : (ofRepository repository options).analyze = .ok analyzed)
    (hplan : analyzed.stage.plan? = some plan) :
    ∃ seen, seenBy options (.ofRepository repository) .categoryUid = .ok seen ∧
      ∀ (l source : Location) (directory declared : String) (key : Option String)
        (before after : List Operation) (d : Definition) (extension category own : Int),
        l.kind = .eventClass → source.extension = some directory →
        plan.operationsFor l = before ++ ⟨l, .copyExtension source declared key⟩ :: after →
        (∀ op ∈ after, op.KeepsMark (.ofRepository repository) declared) →
        repository.Prevails directory declared extension →
        seen.get? l = some d → d.uid? = some own → seen.categoryUid? d = some category →
          plan.classUids l = (Definition.classUid? extension category own).toList ∧
          ∀ uid ∈ plan.classUids l, uid = extension * 100000 + category * 1000 + own := by
  obtain ⟨scratch, plan', hphases, rfl⟩ := analyze_ofRepository_eq_ok_iff.1 hanalyze
  cases hplan
  obtain ⟨structural, dictionary, identifiers, h, -⟩ := exists_plannedAs hphases
  have hproposes := h.proposes_structural.append h.proposes_dictionary
  refine ⟨_, seenBy_eq_ok_iff.2 ⟨_, hproposes, rfl⟩, ?_⟩
  intro l source directory declared key before after d extension category own hkind hdirectory
    hplanned hkeeps hprevails hd hown hcategory
  obtain ⟨front, back, hcopy, hback⟩ := exists_split_of_operationsFor h hplanned
  have hcore : l.isCore = true := (exists_copy_of_createsTarget h.proposes_structural
    (hcopy ▸ List.mem_append_cons_self) rfl).1
  have huids := classUids_of_uid? h rfl hd hcore hkind hown
  rw [extensionUid_of_copy h hrepository rfl hkind hdirectory hcopy
    (fun op hop htarget => hkeeps op (hback op hop htarget)) hprevails hd, hcategory,
    Option.getD_some] at huids
  refine ⟨huids, fun uid huid => ?_⟩
  rw [huids, Option.mem_toList] at huid
  exact Definition.classUid?_eq_some huid

/-- A class in an extension that goes by another name than its directory, and a second extension in
a later directory. -/
def extensionClass (later : String) : List (Path × Json) :=
  [(⟨"categories.json"⟩,
      .obj [("attributes", .obj [("system", .obj [("uid", Json.ofInt 1)])])]),
    (⟨"extensions/a/extension.json"⟩, .obj [("name", .str "b"), ("uid", Json.ofInt 1)]),
    (⟨"extensions/a/events/system/x.json"⟩,
      .obj [("name", .str "x"), ("category", .str "system"), ("uid", Json.ofInt 5)]),
    (⟨"extensions/" ++ later ++ "/extension.json"⟩,
      .obj [("name", .str "c"), ("uid", Json.ofInt 2)])]

/-- Where the class is copied to. -/
def copiedClass : Location := .inCore .eventClass "b/x"

/-- The copied class comes from this directory, and nothing is brought to it later. -/
def isCopiedFrom (directory declared : String) (plan : Plan) : Bool :=
  match plan.operationsFor copiedClass with
  | ⟨target, .copyExtension source name _⟩ :: after =>
    target == copiedClass && source.extension == some directory && name == declared &&
      after.all fun op => op.action.lineage?.isNone && !op.action.createsTarget
  | _ => false

theorem exists_of_isCopiedFrom {directory declared : String} {plan : Plan}
    (h : isCopiedFrom directory declared plan = true) :
    ∃ source key after, source.extension = some directory ∧
      plan.operationsFor copiedClass = ⟨copiedClass, .copyExtension source declared key⟩ :: after ∧
      ∀ (draft : Draft), ∀ op ∈ after, op.KeepsMark draft declared := by
  unfold isCopiedFrom at h
  split at h
  · rename_i target source name key after hplanned
    simp only [Bool.and_eq_true, beq_iff_eq, List.all_eq_true, Option.isNone_iff_eq_none,
      Bool.not_eq_true'] at h
    obtain ⟨⟨⟨rfl, hdirectory⟩, rfl⟩, hafter⟩ := h
    refine ⟨source, key, after, hdirectory, hplanned, fun draft op hop => ?_⟩
    obtain ⟨hnothing, hcreates⟩ := hafter op hop
    unfold KeepsMark
    split <;> rename_i haction
    · rw [haction] at hcreates
      cases hcreates
    · rw [haction] at hnothing
      cases hnothing
    · rw [haction] at hcreates
      cases hcreates
    · trivial
  · cases h

/-- The own identifier of the copied class and that of its category when identifiers are planned. -/
def numbersOf (way : Way) : Option (Int × Int) := do
  let seen ← (seenBy {} (.ofRepository way.repository) .categoryUid).toOption
  let d ← seen.get? copiedClass
  return (← d.uid?, ← seen.categoryUid? d)

theorem exists_of_numbersOf {way : Way} {own category : Int}
    (h : numbersOf way = some (own, category)) :
    ∃ seen d, seenBy {} (.ofRepository way.repository) .categoryUid = .ok seen ∧
      seen.get? copiedClass = some d ∧ d.uid? = some own ∧
      seen.categoryUid? d = some category := by
  simp only [numbersOf, Option.bind_eq_bind, Option.bind_eq_some_iff, Option.pure_def,
    Option.some.injEq, Prod.mk.injEq] at h
  obtain ⟨seen, hseen, d, hd, _, hown, _, hcategory, rfl, rfl⟩ := h
  exact ⟨seen, d, eq_ok_of_toOption hseen, hd, hown, hcategory⟩

theorem reachable_of_extensionClass {repository : Repository} {later : String}
    (h : Repository.ofFiles (extensionClass later) = .ok repository) : repository.Reachable := by
  refine Repository.Reachable.empty.insertFiles (fun file hfile => ?_) h
  simp only [extensionClass, List.mem_cons, List.not_mem_nil, or_false] at hfile
  rcases hfile with rfl | rfl | rfl | rfl <;>
    simp [Json.WellFormed, Json.WellFormedFields, Json.ofInt]

/-- The copied class is planned the sum. -/
theorem extension_class_is_planned_its_sum :
    ∃ way : Way, Repository.ofFiles (extensionClass "c") = .ok way.repository ∧
      way.plan.classUids copiedClass = [101005] := by
  have hview : (wayOf (extensionClass "c")).map (fun way => (isCopiedFrom "a" "b" way.plan,
      decide (way.repository.Prevails "a" "b" 1), numbersOf way)) =
        some (true, true, some (5, 1)) := by decide +kernel
  obtain ⟨way, hfiles, hanalyze, hplan, -, -, hway⟩ := exists_of_wayOf hview
  obtain ⟨hcopied, hway⟩ := Prod.mk.inj hway
  obtain ⟨hprevails, hnumbers⟩ := Prod.mk.inj hway
  obtain ⟨source, key, after, hdirectory, hplanned, hkeeps⟩ := exists_of_isCopiedFrom hcopied
  obtain ⟨seen, d, hseen, hd, hown, hcategory⟩ := exists_of_numbersOf hnumbers
  obtain ⟨seen', hseen', hsums⟩ := copied_class_gets_uid_of_extension
    (reachable_of_extensionClass hfiles) hanalyze hplan
  cases hseen.symm.trans hseen'
  obtain ⟨huids, -⟩ := hsums copiedClass source "a" "b" key [] after d 1 1 5 rfl hdirectory hplanned
    (hkeeps _) (of_decide_eq_true hprevails) hd hown hcategory
  exact ⟨way, hfiles, huids.trans (by decide)⟩

/-- Without the conditions, the identifier of another extension may take the place. -/
theorem shared_name_takes_other_uid :
    ¬ ∀ files repository options analyzed plan seen, Repository.ofFiles files = .ok repository →
      (ofRepository repository options).analyze = .ok analyzed →
      analyzed.stage.plan? = some plan →
      seenBy options (.ofRepository repository) .categoryUid = .ok seen →
      ∀ (l source : Location) (directory declared : String) (key : Option String)
        (declaration d : Definition) (extension category own : Int), l.kind = .eventClass →
        source.extension = some directory →
        ⟨l, .copyExtension source declared key⟩ ∈ plan.operationsFor l →
        repository.get? (.inCore .extension directory) = some declaration →
        declaration.uid? = some extension →
        seen.get? l = some d → d.uid? = some own → seen.categoryUid? d = some category →
          ∀ uid ∈ plan.classUids l, uid = extension * 100000 + category * 1000 + own := by
  intro hclaim
  have hview : (wayOf (extensionClass "b")).map (fun way => (isCopiedFrom "a" "b" way.plan,
      (way.repository.get? (.inCore .extension "a")).bind Definition.uid?, numbersOf way,
      way.plan.classUids copiedClass)) = some (true, some 1, some (5, 1), [201005]) := by
    decide +kernel
  obtain ⟨way, hfiles, hanalyze, hplan, -, -, hway⟩ := exists_of_wayOf hview
  obtain ⟨hcopied, hway⟩ := Prod.mk.inj hway
  obtain ⟨hextension, hway⟩ := Prod.mk.inj hway
  obtain ⟨hnumbers, huids⟩ := Prod.mk.inj hway
  obtain ⟨source, key, after, hdirectory, hplanned, -⟩ := exists_of_isCopiedFrom hcopied
  obtain ⟨declaration, hdeclaration, huid⟩ := Option.bind_eq_some_iff.1 hextension
  obtain ⟨seen, d, hseen, hd, hown, hcategory⟩ := exists_of_numbersOf hnumbers
  have hsum := hclaim _ way.repository {} way.analyzed way.plan seen hfiles hanalyze hplan hseen
    copiedClass source "a" "b" key declaration d 1 1 5 rfl hdirectory (by simp [hplanned])
    hdeclaration huid hd hown hcategory 201005 (by simp [huids])
  exact absurd hsum (by decide)

end Compilation

end EventSchema
