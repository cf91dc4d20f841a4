import EventSchema.Proofs.Authored
import EventSchema.Proofs.Openings
import EventSchema.Proofs.ParentLinks
import EventSchema.Proofs.Reordering

/-!
# Everything is there when it is read

A planner proposes edits of definitions that it sees, and reads only such; the copies of extensions
are the only operations of the structural phase whose target may be missing.  So whatever is not in
the repository is edited first by such a copy, and the copy reads a location that nothing is planned
for.  The target then opens with the copy, and all of its readers come later in the schedule, even
where dependencies form a cycle.

Main results:

- {lit}`Planner.grounds_of_mem`: planners of the structural phase edit and read what they see.
- {lit}`Compilation.createsTarget_of_targeting`: what is missing is created first.
-/

namespace EventSchema

open Std

/-! ## What planners see -/

namespace Repository

/-- The files of a repository lead to definitions. -/
def Hosted (r : Repository) : Prop :=
  ∀ components l, r.locationAt? components = some l → ∃ d, r.get? l = some d

/-- An insertion that registers no file keeps files at what they host. -/
theorem Hosted.insert {r : Repository} (h : r.Hosted) (path : Path) (l : Location)
    (d : Definition) : (r.insert path l d).1.Hosted := by
  obtain ⟨existing, -, heq⟩ | ⟨-, heq⟩ := r.insert_cases path l d
  · rw [heq]
    exact h
  · have hget := get?_insert heq
    rw [heq]
    intro components k hk
    rw [hget]
    split
    · exact ⟨d, rfl⟩
    · exact h components k hk

/-- Files lead to definitions after any insertion. -/
theorem Hosted.insertFile {r : Repository} (h : r.Hosted) (path : Path) (value : Json) :
    (r.insertFile path value).1.Hosted := by
  refine insertFile_preserves h (fun _ l d _ hr => hr.insert path l d) ?_
  intro next l d _ hsource hnext components k hk
  rw [locationAt?, register, ExtTreeMap.getElem?_insert] at hk
  split at hk
  · cases hk
    exact ⟨d, (sources_eq_some_iff.1 hsource).1⟩
  · exact hnext components k hk

/-- The files of a repository that was filled by insertions lead to definitions. -/
theorem Reachable.hosted {r : Repository} (h : r.Reachable) : r.Hosted := by
  induction h with
  | empty => exact fun components l hl => by simp [locationAt?, Repository.empty] at hl
  | insertFile _ path _ ih => exact ih.insertFile path _
  | stamp _ fingerprint ih => exact ih

end Repository

namespace Draft

/-- What has a definition is there. -/
theorem contains_of_get? {draft : Draft} {l : Location} {d : Definition}
    (h : draft.get? l = some d) : draft.contains l = true := by
  rw [contains, h]
  rfl

/-- What is listed in core is there. -/
theorem contains_of_mem_core {draft : Draft} {kinds : List Kind} {e : Location × Definition}
    (h : e ∈ draft.core kinds) : draft.contains e.1 = true :=
  contains_of_get? (mem_core.1 h).1

/-- What the repository defines is there, edited or not. -/
theorem contains_of_repository {draft : Draft} {l : Location} {d : Definition}
    (h : draft.repository.get? l = some d) : draft.contains l = true := by
  unfold contains get?
  rw [h]
  cases draft.edited[l]? <;> rfl

/-- Every listed location is there. -/
theorem contains_of_mem_locations {draft : Draft} {l : Location} (h : l ∈ draft.locations) :
    draft.contains l = true := by
  rw [locations, ExtTreeMap.mem_keys, ExtTreeMap.mem_iff_isSome_getElem?,
    getElem?_definitions] at h
  exact h

/-- What an operation edits is there, unless it creates it, and so is what it reads. -/
structure Grounds (draft : Draft) (op : Operation) : Prop where
  target : op.action.createsTarget = true ∨ draft.contains op.target = true
  sources : ∀ p ∈ op.prerequisites, draft.contains p = true

/-- An operation that reads nothing may run where its target is. -/
theorem Grounds.of_contains {draft : Draft} {op : Operation} (h : draft.contains op.target = true)
    (hnothing : op.prerequisites = []) : draft.Grounds op :=
  ⟨Or.inr h, fun _ hp => absurd (hnothing ▸ hp) List.not_mem_nil⟩

/-- What an operation edits and reads is there, or has been edited before; only what the operation
creates may be missing. -/
structure Supplies (draft : Draft) (before : List Operation) (op : Operation) : Prop where
  target : op.action.createsTarget = true ∨ draft.contains op.target = true ∨
    ∃ earlier ∈ before, earlier.target = op.target
  sources : ∀ p ∈ op.prerequisites, draft.contains p = true ∨
    ∃ earlier ∈ before, earlier.target = p

/-- Operations that have been run before take nothing away. -/
theorem Grounds.supplies {draft : Draft} {op : Operation} (h : draft.Grounds op)
    (before : List Operation) : draft.Supplies before op :=
  ⟨h.target.imp id .inl, fun p hp => .inl (h.sources p hp)⟩

end Draft

namespace Planner

/-- What extensions propose has its source, and its target unless it is a copy; both are of one
kind. -/
theorem grounds_applyExtensions {draft : Draft} {options : Options} {op : Operation}
    (h : op ∈ applyExtensions draft options) :
    draft.Grounds op ∧ ∀ p ∈ op.prerequisites, p.kind = op.target.kind := by
  rcases List.mem_filterMap.1 h with ⟨l, hmem, hop⟩
  have hl := Draft.contains_of_mem_locations (List.mem_filter.1 hmem).1
  rcases Option.bind_eq_some_iff.1 hop with ⟨directory, -, hop⟩
  rcases Option.bind_eq_some_iff.1 hop with ⟨declared, -, hop⟩
  rcases Option.ite_none_right_eq_some.1 hop with ⟨-, hop⟩
  cases hop
  unfold applyExtension
  split
  · rename_i hcore
    refine ⟨⟨Or.inr hcore, fun p hp => ?_⟩, fun p hp => ?_⟩
    · rwa [List.mem_singleton.1 hp]
    · rw [List.mem_singleton.1 hp]
      rfl
  · refine ⟨⟨Or.inl rfl, fun p hp => ?_⟩, fun p hp => ?_⟩
    · rwa [List.mem_singleton.1 hp]
    · rw [List.mem_singleton.1 hp]
      rfl

/-- To arrange includes adds and drops none. -/
theorem mem_arrangeIncludes {options : Options} {found : List (Location × IncludeScope)}
    {e : Location × IncludeScope} : e ∈ arrangeIncludes options found ↔ e ∈ found := by
  rw [arrangeIncludes, List.mem_append, List.mem_mergeSort, List.mem_filter, List.mem_filter]
  by_cases hprofile : e.1.kind = .profile <;> simp [hprofile]

/-- A reference leads to a file of the repository. -/
theorem exists_locationAt?_of_resolveReference? {draft : Draft} {subject l : Location}
    {reference : String} (h : resolveReference? draft subject reference = some l) :
    ∃ components, draft.repository.locationAt? components = some l := by
  rcases Option.bind_eq_some_iff.1 h with ⟨file, -, h⟩
  rcases List.exists_of_findSome?_eq_some h with ⟨place, -, h⟩
  rcases List.exists_of_findSome?_eq_some h with ⟨path, -, h⟩
  exact ⟨_, h⟩

/-- What is included is the location of a file. -/
theorem exists_locationAt?_of_includeFiles {draft : Draft} {options : Options} {op : Operation}
    (h : op ∈ includeFiles draft options) {p : Location} (hp : p ∈ op.prerequisites) :
    ∃ components, draft.repository.locationAt? components = some p := by
  rcases List.mem_flatMap.1 h with ⟨⟨l, d⟩, -, hop⟩
  rcases List.mem_map.1 hop with ⟨⟨source, scope⟩, hsource, rfl⟩
  rw [List.mem_singleton.1 hp]
  rcases List.mem_append.1 (mem_arrangeIncludes.1 hsource) with hfound | hfound
  all_goals
    rcases List.mem_filterMap.1 hfound with ⟨reference, -, hreference⟩
    rcases Option.map_eq_some_iff.1 hreference with ⟨found, hresolved, heq⟩
    cases heq
    exact exists_locationAt?_of_resolveReference? hresolved

/-- Planners of the structural phase edit and read what they see. -/
theorem grounds_of_mem {planner : Planner} (hplanner : planner ∈ Phase.structural.planners)
    {draft : Draft} {options : Options} {ops : List Operation} (hfiles : draft.repository.Hosted)
    (h : planner.analyze draft options = .ok ops) {op : Operation} (hop : op ∈ ops) :
    draft.Grounds op := by
  simp only [Phase.planners, List.mem_cons, List.not_mem_nil, or_false] at hplanner
  rcases hplanner with rfl | rfl | rfl | rfl | rfl | rfl
  · cases h
    rcases List.mem_filterMap.1 hop with ⟨⟨l, d⟩, hmem, hop⟩
    rcases Option.ite_none_right_eq_some.1 hop with ⟨-, hop⟩
    cases hop
    have hget := Draft.mem_toList_definitions.1 (List.mem_filter.1 hmem).1
    exact .of_contains (Draft.contains_of_get? hget) rfl
  · cases h
    rcases List.mem_filterMap.1 hop with ⟨⟨l, d⟩, hmem, hop⟩
    rcases Option.ite_none_right_eq_some.1 hop with ⟨-, hop⟩
    cases hop
    have hget := Draft.mem_toList_definitions.1 (List.mem_filter.1 hmem).1
    exact .of_contains (Draft.contains_of_get? hget) rfl
  · cases h
    exact (grounds_applyExtensions hop).1
  · cases h
    refine ⟨?_, fun p hp => ?_⟩
    · rcases List.mem_flatMap.1 hop with ⟨⟨l, d⟩, hmem, hop⟩
      rcases List.mem_map.1 hop with ⟨⟨source, scope⟩, -, rfl⟩
      exact Or.inr (Draft.contains_of_mem_core hmem)
    · rcases exists_locationAt?_of_includeFiles hop hp with ⟨components, hcomponents⟩
      rcases hfiles components p hcomponents with ⟨d, hd⟩
      exact Draft.contains_of_repository hd
  · cases h
    rcases List.mem_flatMap.1 hop with ⟨⟨l, d⟩, hmem, hop⟩
    rcases List.mem_map.1 hop with ⟨profile, -, rfl⟩
    exact .of_contains (Draft.contains_of_mem_core hmem) rfl
  · rcases ((inheritsOnce_of_inherit h).1.complete op).1 hop with ⟨child, parent, hparent, rfl⟩
    rcases hparent with ⟨d, name, hd, -, -, -, -, -, hfound, -⟩
    rcases Draft.exists_of_find? hfound with ⟨d', hmem⟩
    refine ⟨Or.inr (Draft.contains_of_get? hd), fun p hp => ?_⟩
    rw [List.mem_singleton.1 hp]
    exact Draft.contains_of_mem_core hmem

end Planner

/-! ## What is created -/

namespace Operation

@[simp]
theorem repository_run (op : Operation) (draft : Draft) (options : Options) :
    (op.run draft options).repository = draft.repository := by
  have hlineage (d : Draft) : (op.recordLineage d).repository = d.repository := by
    unfold recordLineage
    split <;> rfl
  unfold run commit
  split
  · exact hlineage _
  · exact hlineage _
  · rfl

/-- Operations leave the repository. -/
theorem repository_runAll (options : Options) (draft : Draft) (ops : List Operation) :
    (runAll options draft ops).repository = draft.repository := by
  induction ops generalizing draft with
  | nil => rfl
  | cons op rest ih => rw [runAll_cons, ih, repository_run]

/-- A location without operations is there afterwards if it was before. -/
theorem contains_runAll_of_targeting_eq_nil (options : Options) (draft : Draft)
    {ops : List Operation} {l : Location} (h : targeting ops l = []) :
    (runAll options draft ops).contains l = draft.contains l := by
  have hsame := sameAt_runAll_of_forall_ne options (targeting_eq_nil_iff.1 h) draft
  rw [Draft.contains, hsame.definition, Draft.contains]

end Operation

namespace Compilation

open Operation

/-- What is proposed comes from a planner that sees what those before it have led to. -/
theorem Proposes.exists_analyze_runAll {options : Options} {draft : Draft}
    {planners : List Planner} {ops : List Operation} (h : Proposes options draft planners ops)
    {op : Operation} (hop : op ∈ ops) :
    ∃ planner ∈ planners, ∃ before here after, ops = before ++ (here ++ after) ∧
      planner.analyze (runAll options draft before) options = .ok here ∧ op ∈ here := by
  induction h with
  | nil => cases hop
  | @cons _ _ _ first more hfirst _ ih =>
    rcases List.mem_append.1 hop with hop | hop
    · exact ⟨_, List.mem_cons_self, [], first, more, rfl, hfirst, hop⟩
    · rcases ih hop with ⟨planner, hmem, before, here, after, rfl, hanalyze, hop⟩
      refine ⟨planner, List.mem_cons_of_mem _ hmem, first ++ before, here, after, by simp, ?_, hop⟩
      rwa [runAll_append]

/-- What is proposed comes from a planner that sees the same repository. -/
theorem Proposes.exists_analyze {options : Options} {draft : Draft} {planners : List Planner}
    {ops : List Operation} (h : Proposes options draft planners ops) {op : Operation}
    (hop : op ∈ ops) : ∃ planner ∈ planners, ∃ seen here, planner.analyze seen options = .ok here ∧
      op ∈ here ∧ seen.repository = draft.repository := by
  rcases h.exists_analyze_runAll hop with ⟨planner, hmem, before, here, after, -, hanalyze, hop⟩
  exact ⟨planner, hmem, _, here, hanalyze, hop, repository_runAll options draft before⟩

/-- What is supplied at the start of some operations or by them is supplied by all of them. -/
theorem supplies_of_append {options : Options} {draft : Draft} {ops before : List Operation}
    {op : Operation} (h : (runAll options draft ops).Supplies before op) :
    draft.Supplies (ops ++ before) op := by
  have hearlier {l : Location} (hl : (runAll options draft ops).contains l = true ∨
      ∃ earlier ∈ before, earlier.target = l) :
      draft.contains l = true ∨ ∃ earlier ∈ ops ++ before, earlier.target = l := by
    rcases hl with hl | ⟨earlier, hmem, heq⟩
    · by_cases hnone : targeting ops l = []
      · rw [contains_runAll_of_targeting_eq_nil options draft hnone] at hl
        exact Or.inl hl
      · rcases List.exists_mem_of_ne_nil _ hnone with ⟨earlier, hmem⟩
        rcases mem_targeting.1 hmem with ⟨hmem, heq⟩
        exact Or.inr ⟨earlier, List.mem_append_left _ hmem, heq⟩
    · exact Or.inr ⟨earlier, List.mem_append_right _ hmem, heq⟩
  exact ⟨h.target.imp id hearlier, fun p hp => hearlier (h.sources p hp)⟩

/-- Planners of the structural phase propose edits of what is there or has been edited before. -/
theorem Proposes.supplies {options : Options} {draft : Draft} {planners : List Planner}
    {ops : List Operation} (h : Proposes options draft planners ops)
    (hplanners : ∀ planner ∈ planners, planner ∈ Phase.structural.planners)
    (hfiles : draft.repository.Hosted) {before after : List Operation} {op : Operation}
    (hsplit : ops = before ++ op :: after) : draft.Supplies before op := by
  induction h generalizing before with
  | nil => simp at hsplit
  | @cons draft planner _ here more hanalyze _ ih =>
    have hlater {between : List Operation} (hmore : more = between ++ op :: after) :
        draft.Supplies (here ++ between) op := by
      refine supplies_of_append (ih (fun other ho => hplanners other
        (List.mem_cons_of_mem _ ho)) ?_ hmore)
      rwa [repository_runAll]
    rcases List.append_eq_append_iff.1 hsplit with ⟨between, rfl, hmore⟩ | ⟨between, rfl, hhere⟩
    · exact hlater hmore
    · cases between with
      | nil =>
        have hmore : more = [] ++ op :: after := hhere.symm
        simpa using hlater hmore
      | cons first rest =>
        rcases List.cons.inj hhere with ⟨rfl, -⟩
        have hgrounds := Planner.grounds_of_mem (hplanners planner List.mem_cons_self) hfiles
          hanalyze (List.mem_append_right _ List.mem_cons_self)
        exact ⟨hgrounds.target.imp id Or.inl, fun p hp => Or.inl (hgrounds.sources p hp)⟩

/-! ## Creation in the schedule -/

section Structural

variable {options : Options} {draft : Draft} {ops : List Operation}

/-- What is missing is created before anything else is done to it. -/
theorem createsTarget_of_targeting (h : Proposes options draft Phase.structural.planners ops)
    (hfiles : draft.repository.Hosted) {l : Location} (hl : draft.contains l = false)
    {first : Operation} {rest : List Operation} (hfirst : targeting ops l = first :: rest) :
    first.action.createsTarget = true := by
  rcases exists_split_of_targeting hfirst with ⟨before, after, hsplit, hbefore, -⟩
  have htarget : first.target = l := (mem_targeting.1 (hfirst ▸ List.mem_cons_self)).2
  rcases (h.supplies (fun _ hmem => hmem) hfiles hsplit).target with
    hcreates | hthere | ⟨earlier, hmem, heq⟩
  · exact hcreates
  · rw [htarget, hl] at hthere
    cases hthere
  · exact absurd (heq.trans htarget) (hbefore earlier hmem)

/-- What is created comes from a location of the same kind outside of core. -/
theorem exists_copy_of_createsTarget (h : Proposes options draft Phase.structural.planners ops)
    {op : Operation} (hop : op ∈ ops) (hcreates : op.action.createsTarget = true) :
    op.target.isCore = true ∧
      ∀ p ∈ op.prerequisites, p.isCore = false ∧ p.kind = op.target.kind := by
  rcases h.exists_analyze hop with ⟨planner, hplanner, seen, here, hanalyze, hop, -⟩
  have hemits := Planner.emits_of_mem hanalyze hop
  have hplanner : planner = .extension := by
    have haction := hemits.action
    cases hcase : op.action <;> rw [hcase] at haction hcreates <;> cases hcreates
    all_goals
      cases planner <;> first
        | rfl
        | exact haction.elim
        | simp [Phase.planners] at hplanner
  subst hplanner
  refine ⟨hemits.core rfl, fun p hp => ⟨hemits.reads hp, ?_⟩⟩
  exact (Planner.grounds_applyExtensions (Except.ok.inj hanalyze ▸ hop)).2 p hp

/-- What is read although it is not there at first is a record. -/
theorem kind_mem_records_of_missing (h : Proposes options draft Phase.structural.planners ops)
    (hfiles : draft.repository.Hosted) {op : Operation} (hop : op ∈ ops) {p : Location}
    (hp : p ∈ op.prerequisites) (hmissing : draft.contains p = false)
    (hcore : p.isCore = true) : p.kind ∈ Kind.records := by
  rcases h.exists_analyze hop with ⟨planner, hplanner, seen, here, hanalyze, hop, hrepository⟩
  have hreads := (Planner.emits_of_mem hanalyze hop).reads hp
  simp only [Phase.planners, List.mem_cons, List.not_mem_nil, or_false] at hplanner
  rcases hplanner with rfl | rfl | rfl | rfl | rfl | rfl
  · exact hreads.elim
  · exact hreads.elim
  · have hout : p.isCore = false := hreads
    rw [hcore] at hout
    cases hout
  · cases hanalyze
    rcases Planner.exists_locationAt?_of_includeFiles hop hp with ⟨components, hcomponents⟩
    rw [hrepository] at hcomponents
    rcases hfiles components p hcomponents with ⟨d, hd⟩
    rw [Draft.contains_of_repository hd] at hmissing
    cases hmissing
  · exact hreads.elim
  · rcases ((Planner.inheritsOnce_of_inherit hanalyze).1.complete op).1 hop with
      ⟨child, parent, ⟨d, name, -, -, -, -, -, -, hfound, -⟩, rfl⟩
    rcases Draft.exists_of_find? hfound with ⟨d', hmem⟩
    rw [List.mem_singleton.1 hp]
    exact Kind.mem_records_of_family (Draft.mem_core.1 hmem).2.2

/-- Nothing is planned for the records of an extension. -/
theorem targeting_eq_nil_of_extension (h : Proposes options draft Phase.structural.planners ops)
    {l : Location} (hcore : l.isCore = false) (hkind : l.kind ∈ Kind.records) :
    targeting ops l = [] := by
  refine targeting_eq_nil_iff.2 fun op hop htarget => ?_
  rcases h.exists_emits hop with ⟨planner, hplanner, hemits⟩
  rw [← htarget] at hcore hkind
  have hleaves : planner.leavesCore = true := by
    by_contra hstays
    rw [hemits.core (Bool.eq_false_iff.2 hstays)] at hcore
    cases hcore
  have hrare := hemits.kind
  cases planner <;> cases hleaves
  all_goals
    revert hrare hkind
    cases op.target.kind <;> simp [Planner.targetKinds, Kind.records]

/-- In the schedule, too, what an operation edits and reads is there or has been edited before. -/
theorem supplies_schedule (h : Proposes options draft Phase.structural.planners ops)
    (hfiles : draft.repository.Hosted) {before after : List Operation} {op : Operation}
    (hsplit : (PhasePlan.ofOperations .structural ops).schedule = before ++ op :: after) :
    draft.Supplies before op := by
  have hop : op ∈ ops :=
    (PhasePlan.schedule_perm .structural ops).mem_iff.1 (by simp [hsplit])
  constructor
  · by_cases hthere : draft.contains op.target = true
    · exact Or.inr (Or.inl hthere)
    -- The operations of a target keep their order, and the first one creates it.
    have hmissing := Bool.eq_false_iff.2 hthere
    have hall := PhasePlan.targeting_schedule_ofOperations .structural ops op.target
    rw [hsplit, targeting_append, targeting_cons_self] at hall
    cases hbefore : targeting before op.target with
    | nil =>
      rw [hbefore, List.nil_append] at hall
      exact Or.inl (createsTarget_of_targeting h hfiles hmissing hall.symm)
    | cons first rest =>
      rcases mem_targeting.1 (hbefore ▸ List.mem_cons_self) with ⟨hmem, heq⟩
      exact Or.inr (Or.inr ⟨first, hmem, heq⟩)
  · intro p hp
    by_cases hthere : draft.contains p = true
    · exact Or.inl hthere
    have hmissing := Bool.eq_false_iff.2 hthere
    refine Or.inr ?_
    rcases List.append_of_mem hop with ⟨front, back, hemitted⟩
    rcases (h.supplies (fun _ hmem => hmem) hfiles hemitted).sources p hp with
      hknown | ⟨earlier, hmem, heq⟩
    · exact absurd hknown hthere
    cases hfirst : targeting ops p with
    | nil => exact absurd heq (targeting_eq_nil_iff.1 hfirst earlier (by simp [hemitted, hmem]))
    | cons first rest =>
      -- The source is a record that is copied from an extension, where nothing is planned.
      have hcreates := createsTarget_of_targeting h hfiles hmissing hfirst
      rcases mem_targeting.1 (hfirst ▸ List.mem_cons_self) with ⟨hmem, htarget⟩
      rcases exists_copy_of_createsTarget h hmem hcreates with ⟨hcore, hcopied⟩
      rw [htarget] at hcore hcopied
      have hrecord := kind_mem_records_of_missing h hfiles hop hp hmissing hcore
      have hfiled := PhasePlan.filed_ofOperations .structural ops
      have hstarts := PhasePlan.startsWith_ofOperations .structural hfirst fun q hq =>
        targeting_eq_nil_of_extension h (hcopied q hq).1 ((hcopied q hq).2 ▸ hrecord)
      exact ⟨first, PhasePlan.first_mem_of_schedule _ hfiled hsplit hp hstarts, htarget⟩

end Structural

end Compilation

end EventSchema
