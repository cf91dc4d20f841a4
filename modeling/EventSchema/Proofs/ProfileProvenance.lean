import EventSchema.Proofs.Preparations

/-!
# Attributes of profiles

The attributes of a profile get its name as a tag before anything includes them.  Patches of
extensions come with tags of their own, so all attributes have the tag when the profile is read,
but for those that its own includes have brought in.  An include then secures the place of each
attribute in its target, and nothing that follows gives up that place, except removals.

Main results:

- {lit}`Operation.taggedBut_run`, {lit}`Compilation.taggedBut_schedule`: the attributes of a profile
  keep its tag, through one operation and through the schedule.
- {lit}`Operation.secures_run`, {lit}`Operation.secures_runAll`: so do the places of attributes in
  what includes the profile.
- {lit}`Compilation.included_attributes_are_tagged`: after the structural phase attributes that come
  from a profile have its tag.
-/

namespace EventSchema

open Std

/-! ## What the log tells about attributes -/

/-- The paths that an outcome reports as changed. -/
def Outcome.changes : Outcome → List FieldPath
  | .applied _ changes => changes
  | _ => []

/-- The attribute under a name in the definition at a location. -/
def Draft.attribute? (draft : Draft) (l : Location) (name : String) : Option Fields :=
  (draft.get? l).bind (·.attribute? name)

namespace LogEntry

/-- An include that reports an attribute as new, or all attributes. -/
def BringsIn (entry : LogEntry) (name : String) : Prop :=
  entry.operation.action.includes = true ∧
    ([Definition.attributesKey] ∈ entry.outcome.changes ∨
      [Definition.attributesKey, name] ∈ entry.outcome.changes)

/-- A removal that reports an attribute. -/
def TakesAway (entry : LogEntry) (name : String) : Prop :=
  entry.operation.action.removes = true ∧
    [Definition.attributesKey, name] ∈ entry.outcome.changes

instance (entry : LogEntry) (name : String) : Decidable (entry.BringsIn name) :=
  inferInstanceAs (Decidable (_ ∧ _))

instance (entry : LogEntry) (name : String) : Decidable (entry.TakesAway name) :=
  inferInstanceAs (Decidable (_ ∧ _))

/-- Includes have brought in an attribute, as far as their entries tell. -/
def BroughtIn (entries : List LogEntry) (name : String) : Prop :=
  ∃ entry ∈ entries, entry.BringsIn name

/-- Removals have taken an attribute away, as far as their entries tell. -/
def TakenAway (entries : List LogEntry) (name : String) : Prop :=
  ∃ entry ∈ entries, entry.TakesAway name

instance (entries : List LogEntry) (name : String) : Decidable (BroughtIn entries name) :=
  inferInstanceAs (Decidable (∃ entry ∈ entries, entry.BringsIn name))

instance (entries : List LogEntry) (name : String) : Decidable (TakenAway entries name) :=
  inferInstanceAs (Decidable (∃ entry ∈ entries, entry.TakesAway name))

theorem broughtIn_append {entries more : List LogEntry} {name : String} :
    BroughtIn (entries ++ more) name ↔ BroughtIn entries name ∨ BroughtIn more name := by
  simp only [BroughtIn, List.mem_append, or_and_right, exists_or]

theorem takenAway_append {entries more : List LogEntry} {name : String} :
    TakenAway (entries ++ more) name ↔ TakenAway entries name ∨ TakenAway more name := by
  simp only [TakenAway, List.mem_append, or_and_right, exists_or]

theorem broughtIn_cons {entry : LogEntry} {entries : List LogEntry} {name : String} :
    BroughtIn (entry :: entries) name ↔ entry.BringsIn name ∨ BroughtIn entries name := by
  simp [BroughtIn]

theorem takenAway_cons {entry : LogEntry} {entries : List LogEntry} {name : String} :
    TakenAway (entry :: entries) name ↔ entry.TakesAway name ∨ TakenAway entries name := by
  simp [TakenAway]

end LogEntry

namespace Operation

variable {options : Options} {draft : Draft}

/-! ## Tags on a profile -/

/-- What happens to a definition whose attributes have a tag, up to and with its includes. -/
theorem taggedBut_run {op : Operation} {tag : String} {exempt : String → Prop}
    (hexempt : exempt profileKey) (hdraft : draft.WellFormed) {d after : Definition}
    (hd : draft.get? op.target = some d)
    (hafter : (op.run draft options).get? op.target = some after)
    (haction : op.action.includes = true ∨ op.action.prepares = true)
    (hcreates : op.action.createsTarget = false)
    (hsucceeds : (op.outcome draft options).isFailed = false)
    (htag : ∀ profile, op.action = .tagProfile profile → profile = tag)
    (hbefore : (∀ profile, op.action ≠ .tagProfile profile) → d.TaggedBut tag exempt)
    (hsource : ∀ l source, op.action = .mergeExtension l → draft.get? l = some source →
      source.TaggedBut tag exempt) :
    after.TaggedBut tag fun name => exempt name ∨
      (⟨op, op.outcome draft options⟩ : LogEntry).BringsIn name := by
  have hwellFormed := hdraft _ _ hd
  rcases outcome_cases_of_get? options hd with
    ⟨hfailed, -⟩ | ⟨revision, hedit, ⟨hout, hget⟩ | ⟨-, hget, hsame⟩⟩
  · rw [hsucceeds] at hfailed
    cases hfailed
  · cases hafter.symm.trans hget
    rw [hout]
    rcases op with ⟨target, action⟩
    cases action with
    | tagProfile profile =>
      cases hedit
      cases htag profile rfl
      exact d.taggedBut_tagProfile _ _
    | annotate =>
      cases hedit
      exact ((hbefore nofun).annotate hwellFormed).mono fun _ => Or.inl
    | mergeExtension l =>
      rcases exists_of_map_source hedit with ⟨source, hthere, rfl⟩
      refine ((hbefore nofun).merge ?_ (hsource l source rfl hthere) (hdraft l source hthere)).mono
        fun _ => Or.inl
      exact Definition.admits_mergeExtension fun hkey => absurd hkey (by decide)
    | includeFrom l scope =>
      rcases exists_of_map_source hedit with ⟨source, hthere, rfl⟩
      refine ((hbefore nofun).includeFrom hexempt (hdraft l source hthere) scope).mono
        fun name => ?_
      exact Or.imp id fun hreported => ⟨rfl, hreported⟩
    | copyExtension l extension key => cases hcreates
    | _ => rcases haction with (haction | haction) <;> cases haction
  · cases hafter.symm.trans hget
    by_cases htags : ∃ profile, op.action = .tagProfile profile
    · rcases htags with ⟨profile, haction⟩
      cases htag profile haction
      rw [edit, haction] at hedit
      cases hedit
      exact Definition.taggedBut_of_unchanged hwellFormed hsame _
    · exact (hbefore fun profile haction => htags ⟨profile, haction⟩).mono fun _ => Or.inl

/-! ## What includes bring in -/

/-- An attribute that an include leaves has been there before, unless the include reports it. -/
theorem exists_attribute?_of_run {op : Operation} (hdraft : draft.WellFormed)
    (hincludes : op.action.includes = true) {d after : Definition}
    (hd : draft.get? op.target = some d)
    (hafter : (op.run draft options).get? op.target = some after) {name : String}
    (hbrings : ¬ (⟨op, op.outcome draft options⟩ : LogEntry).BringsIn name) {body : Fields}
    (hbody : after.attribute? name = some body) : ∃ old, d.attribute? name = some old := by
  rcases outcome_cases_of_get? options hd with
    ⟨-, hget⟩ | ⟨revision, hedit, ⟨hout, hget⟩ | ⟨-, hget, -⟩⟩
  · cases hafter.symm.trans hget
    exact ⟨body, hbody⟩
  · cases hafter.symm.trans hget
    rw [hout] at hbrings
    rcases op with ⟨target, action⟩
    cases action with
    | includeFrom l scope =>
      rcases exists_of_map_source hedit with ⟨source, hsource, rfl⟩
      rcases d.exists_rule_of_includeFrom source scope with ⟨rule, hfill, -, heq⟩
      refine Option.ne_none_iff_exists'.1 fun hnone => hbrings ⟨rfl, ?_⟩
      rw [heq] at hbody ⊢
      exact Definition.mem_changes_merge_of_new (hdraft _ _ hsource) hfill hnone hbody
    | _ => cases hincludes
  · cases hafter.symm.trans hget
    exact ⟨body, hbody⟩

/-- An attribute that includes leave has been there before, unless one of them reports it. -/
theorem exists_attribute?_of_runAll {ops : List Operation} (hdraft : draft.WellFormed)
    (hops : ∀ op ∈ ops, op.action.composes = true) {l : Location}
    (hincludes : ∀ op ∈ ops, op.target = l → op.action.includes = true) {name : String}
    (hbrought : ¬ LogEntry.BroughtIn (LogEntry.targeting (trace options draft ops) l) name)
    {d after : Definition} (hd : draft.get? l = some d)
    (hafter : (runAll options draft ops).get? l = some after) {body : Fields}
    (hbody : after.attribute? name = some body) : ∃ old, d.attribute? name = some old := by
  induction ops generalizing draft d with
  | nil =>
    cases hd.symm.trans hafter
    exact ⟨body, hbody⟩
  | cons op rest ih =>
    have hrest := ih (wellFormed_run hdraft (hops op List.mem_cons_self) options)
      (fun other ho => hops other (List.mem_cons_of_mem op ho))
      fun other ho => hincludes other (List.mem_cons_of_mem op ho)
    rw [trace, LogEntry.targeting_cons] at hbrought
    by_cases htarget : op.target = l
    · subst htarget
      rw [if_pos rfl, LogEntry.broughtIn_cons, not_or] at hbrought
      rcases Option.isSome_iff_exists.1 (contains_run op options (Draft.contains_of_get? hd)) with
        ⟨next, hnext⟩
      rcases hrest hbrought.2 hnext hafter with ⟨old, hold⟩
      exact exists_attribute?_of_run hdraft (hincludes op List.mem_cons_self rfl) hd hnext
        hbrought.1 hold
    · rw [if_neg htarget] at hbrought
      exact hrest hbrought ((op.run_get?_of_ne draft options htarget).trans hd) hafter

/-! ## Tags on what includes a profile -/

/-- An include secures the place of an attribute for the tags that the attribute has. -/
theorem secures_run_includeFrom {op : Operation} {source : Location} {scope : IncludeScope}
    (haction : op.action = .includeFrom source scope) (hdraft : draft.WellFormed)
    {d included : Definition} (hd : draft.get? op.target = some d)
    (hsource : draft.get? source = some included) {name tag : String} (hname : name ≠ profileKey)
    {body : Fields} (hbody : included.attribute? name = some body)
    (htag : tag ∈ Definition.profileTags body)
    (hsucceeds : (op.outcome draft options).isFailed = false) :
    ∃ after, (op.run draft options).get? op.target = some after ∧ after.Secures name tag := by
  rcases outcome_cases_of_get? options hd with ⟨hfailed, -⟩ | ⟨revision, hedit, hout⟩
  · rw [hsucceeds] at hfailed
    cases hfailed
  rw [edit, haction] at hedit
  rcases exists_of_map_source hedit with ⟨found, hfound, rfl⟩
  cases hfound.symm.trans hsource
  rcases d.exists_rule_of_includeFrom included scope with ⟨rule, hfill, hadmits, heq⟩
  have hsecured := Definition.secures_merge_of_attribute? d (hdraft _ _ hsource) hname hbody htag
    hfill hadmits
  rw [← heq] at hsecured
  rcases hout with ⟨-, hget⟩ | ⟨-, hget, hchanges | hsame⟩
  · exact ⟨_, hget, hsecured⟩
  · refine ⟨d, hget, ?_⟩
    rw [heq] at hchanges hsecured
    have hkept : (d.merge rule included).definition = d :=
      congrArg Definition.mk (Fields.merge_fst_of_changes rule.overwrite hchanges)
    rwa [hkept] at hsecured
  · exact ⟨d, hget, hsecured.of_same (hdraft _ _ hd) hsame⟩

/-- A place stays secured as its definition is completed, unless the tag is inactive and a removal
takes the attribute away. -/
theorem secures_run {op : Operation} (hdraft : draft.WellFormed)
    (hcompletes : op.action.completes = true) {d : Definition}
    (hd : draft.get? op.target = some d) {name tag : String} (hname : name ≠ profileKey)
    (hsecured : d.Secures name tag)
    (hkept : options.isProfileEnabled tag = true ∨
      ¬ (⟨op, op.outcome draft options⟩ : LogEntry).TakesAway name) :
    ∃ after, (op.run draft options).get? op.target = some after ∧ after.Secures name tag := by
  rcases outcome_cases_of_get? options hd with
    ⟨-, hget⟩ | ⟨revision, hedit, ⟨hout, hget⟩ | ⟨-, hget, -⟩⟩
  · exact ⟨d, hget, hsecured⟩
  · refine ⟨_, hget, ?_⟩
    rw [hout] at hkept
    rcases op with ⟨target, action⟩
    cases action with
    | includeFrom l scope =>
      rcases exists_of_map_source hedit with ⟨source, hsource, rfl⟩
      rcases d.exists_rule_of_includeFrom source scope with ⟨rule, hfill, -, heq⟩
      rw [heq]
      exact hsecured.merge hname (hdraft _ _ hsource) hfill
    | inherit l =>
      rcases exists_of_map_source hedit with ⟨source, hsource, rfl⟩
      exact hsecured.merge hname (hdraft _ _ hsource) rfl
    | removeProfile profile =>
      cases hedit
      refine hsecured.removeProfile (hdraft _ _ hd) (hkept.imp id fun hleft hmem => ?_)
      exact hleft ⟨rfl, hmem⟩
    | _ => cases hcompletes
  · exact ⟨d, hget, hsecured⟩

/-- A place that is secured stays so through the run that completes its definition. -/
theorem secures_runAll {ops : List Operation} (hdraft : draft.WellFormed)
    (hops : ∀ op ∈ ops, op.action.composes = true) {l : Location}
    (hcompletes : ∀ op ∈ ops, op.target = l → op.action.completes = true) {d : Definition}
    (hd : draft.get? l = some d) {name tag : String} (hname : name ≠ profileKey)
    (hsecured : d.Secures name tag)
    (hkept : options.isProfileEnabled tag = true ∨
      ¬ LogEntry.TakenAway (LogEntry.targeting (trace options draft ops) l) name) :
    ∃ after, (runAll options draft ops).get? l = some after ∧ after.Secures name tag := by
  induction ops generalizing draft d with
  | nil => exact ⟨d, hd, hsecured⟩
  | cons op rest ih =>
    have hrest {next : Definition} := ih (d := next)
      (wellFormed_run hdraft (hops op List.mem_cons_self) options)
      (fun other ho => hops other (List.mem_cons_of_mem op ho))
      fun other ho => hcompletes other (List.mem_cons_of_mem op ho)
    rw [trace, LogEntry.targeting_cons] at hkept
    by_cases htarget : op.target = l
    · subst htarget
      rw [if_pos rfl, LogEntry.takenAway_cons, not_or] at hkept
      rcases secures_run hdraft (hcompletes op List.mem_cons_self rfl) hd hname hsecured
        (hkept.imp id And.left) with ⟨next, hnext, hstill⟩
      exact hrest hnext hstill (hkept.imp id And.right)
    · rw [if_neg htarget] at hkept
      exact hrest ((op.run_get?_of_ne draft options htarget).trans hd) hsecured hkept

end Operation

namespace Compilation

open Operation

section Runs

variable {repository : Repository} {options : Options} {ops : List Operation}

/-- Nothing is brought in by includes outside of core. -/
theorem not_broughtIn_of_extension {draft : Draft}
    (h : Proposes options draft Phase.structural.planners ops) {before after : List Operation}
    (hsplit : (PhasePlan.ofOperations .structural ops).schedule = before ++ after)
    {l : Location} (hout : l.isCore = false) (name : String) :
    ¬ LogEntry.BroughtIn (LogEntry.targeting (trace options draft before) l) name := by
  rintro ⟨entry, hentry, hincludes, -⟩
  rcases LogEntry.mem_targeting.1 hentry with ⟨hentry, htarget⟩
  rcases mem_trace_iff.1 hentry with ⟨first, op, rest, hbefore, rfl⟩
  have hop : op ∈ ops :=
    (PhasePlan.schedule_perm .structural ops).mem_iff.1 (by simp [hsplit, hbefore])
  have hcore := isCore_of_includes h hop hincludes
  rw [htarget, hout] at hcore
  cases hcore

/-- Once its tags are over, the attributes of a profile that nothing is copied onto have its name as
a tag, but for those that its includes report as new, provided that its patches have the tag. -/
theorem taggedBut_of_patches (hr : repository.Reachable)
    (h : Proposes options (.ofRepository repository) Phase.structural.planners ops)
    {before after : List Operation}
    (hsplit : (PhasePlan.ofOperations .structural ops).schedule = before ++ after)
    {l : Location} (hkind : l.kind = .profile) {authored : Definition}
    (hauthored : repository.get? l = some authored)
    (hcopied : ∀ op ∈ ops, op.target = l → op.action.createsTarget = false)
    (htags : ∀ profile, ⟨l, .tagProfile profile⟩ ∈ ops → ⟨l, .tagProfile profile⟩ ∈ before)
    (hpatches : ∀ first rest patch source, before = first ++ ⟨l, .mergeExtension patch⟩ :: rest →
      (runAll options (.ofRepository repository) first).get? patch = some source →
      source.TaggedBut l.name (· = profileKey))
    {d : Definition} (hd : (runAll options (.ofRepository repository) before).get? l = some d) :
    d.TaggedBut l.name fun name => name = profileKey ∨ LogEntry.BroughtIn
      (LogEntry.targeting (trace options (.ofRepository repository) before) l) name := by
  induction before using List.reverseRecOn generalizing after d with
  | nil =>
    have hget : (Draft.ofRepository repository).get? l = some d := hd
    rw [Draft.get?_ofRepository] at hget
    exact taggedBut_of_no_tagProfile hr h hkind hget
      (fun profile hmem => List.not_mem_nil (htags profile hmem)) _
  | append_singleton before op ih =>
    rw [List.append_assoc, List.singleton_append] at hsplit
    rw [runAll_append, runAll_cons, runAll_nil] at hd
    rw [trace_append, LogEntry.targeting_append]
    have hop : op ∈ ops :=
      (PhasePlan.schedule_perm .structural ops).mem_iff.1 (by simp [hsplit])
    have hbefore (hother : ∀ profile, op ≠ ⟨l, .tagProfile profile⟩) {here : Definition} :=
      ih (d := here) hsplit
        (fun profile hmem => (List.mem_append.1 (htags profile hmem)).resolve_right fun hlast =>
          hother profile (List.mem_singleton.1 hlast).symm)
        fun first rest patch source heq =>
          hpatches first (rest ++ [op]) patch source (by rw [heq, List.append_assoc]; rfl)
    by_cases htarget : op.target = l
    · subst htarget
      rcases Option.isSome_iff_exists.1 (contains_runAll options (l := op.target)
        (Draft.contains_of_get? ((Draft.get?_ofRepository _ _).trans hauthored)) before) with
        ⟨here, hhere⟩
      have hafter := taggedBut_run (Or.inl rfl) (wellFormed_schedule hr h hsplit) hhere hd
        (includes_or_prepares h hop hkind) (hcopied op hop rfl) (succeeds_schedule hr h hsplit).2
        (fun profile haction => eq_name_of_tagProfile hr h (haction ▸ hop))
        (fun hother => hbefore (fun profile heq => hother profile (heq ▸ rfl)) hhere)
        fun patch source haction hsource =>
          (hpatches before [] patch source (haction ▸ rfl) hsource).mono fun _ => Or.inl
      refine hafter.mono fun name => ?_
      rintro ((hname | hbrought) | hbrings)
      · exact Or.inl hname
      · exact Or.inr (LogEntry.broughtIn_append.2 (Or.inl hbrought))
      · exact Or.inr (LogEntry.broughtIn_append.2 (Or.inr ⟨_, by simp [trace,
          LogEntry.targeting], hbrings⟩))
    · rw [op.run_get?_of_ne _ _ htarget] at hd
      refine (hbefore (fun profile heq => htarget (heq ▸ rfl)) hd).mono fun name => ?_
      exact Or.imp id fun hbrought => LogEntry.broughtIn_append.2 (Or.inl hbrought)

/-- When an extension's profile is merged into core its attributes have the name of the profile as a
tag. -/
theorem taggedBut_of_mergeExtension (hr : repository.Reachable)
    (h : Proposes options (.ofRepository repository) Phase.structural.planners ops)
    {before after : List Operation} {l patch : Location}
    (hsplit : (PhasePlan.ofOperations .structural ops).schedule =
      before ++ ⟨l, .mergeExtension patch⟩ :: after) (hkind : l.kind = .profile)
    {source : Definition}
    (hsource : (runAll options (.ofRepository repository) before).get? patch = some source) :
    source.TaggedBut l.name (· = profileKey) := by
  set op : Operation := ⟨l, .mergeExtension patch⟩
  have hop : op ∈ ops := (PhasePlan.schedule_perm .structural ops).mem_iff.1 (by simp [hsplit])
  have hread : patch ∈ op.prerequisites := List.mem_cons_self
  rcases core_eq_of_mergeExtension h hop with ⟨rfl, hout⟩
  have hthere := contains_of_extension h hr.hosted hop hread hout
  rw [Draft.contains, Draft.get?_ofRepository, Option.isSome_iff_exists] at hthere
  rcases hthere with ⟨stated, hstated⟩
  -- Outside of core there are neither copies nor patches nor includes.
  have hcopied : ∀ other ∈ ops, other.target = patch → other.action.createsTarget = false := by
    refine fun other hother hsame => Bool.eq_false_iff.2 fun hcreates => ?_
    have hinside := (exists_copy_of_createsTarget h hother hcreates).1
    rw [hsame, hout] at hinside
    cases hinside
  have hpatches (first rest : List Operation) (inner : Location) (d : Definition)
      (heq : before = first ++ ⟨patch, .mergeExtension inner⟩ :: rest)
      (_ : (runAll options (.ofRepository repository) first).get? inner = some d) :
      d.TaggedBut patch.name (· = profileKey) := by
    have hmerge : (⟨patch, .mergeExtension inner⟩ : Operation) ∈ ops :=
      (PhasePlan.schedule_perm .structural ops).mem_iff.1 (by simp [hsplit, heq])
    rw [← (core_eq_of_mergeExtension h hmerge).1] at hout
    cases hout
  have hprofile : patch.kind = .profile := hkind
  have htagged := taggedBut_of_patches hr h hsplit hprofile hstated hcopied
    (fun profile hmem => (prepared_of_schedule h hsplit hread).1 _ hmem rfl rfl) hpatches hsource
  refine htagged.mono fun name hexempt => ?_
  exact hexempt.resolve_right (not_broughtIn_of_extension h hsplit hout name)

/-- Once its tags are over, the attributes of a profile that nothing is copied onto have its name as
a tag, but for those that its includes report as new. -/
theorem taggedBut_schedule (hr : repository.Reachable)
    (h : Proposes options (.ofRepository repository) Phase.structural.planners ops)
    {before after : List Operation}
    (hsplit : (PhasePlan.ofOperations .structural ops).schedule = before ++ after)
    {l : Location} (hkind : l.kind = .profile) {authored : Definition}
    (hauthored : repository.get? l = some authored)
    (hcopied : ∀ op ∈ ops, op.target = l → op.action.createsTarget = false)
    (htags : ∀ profile, ⟨l, .tagProfile profile⟩ ∈ ops → ⟨l, .tagProfile profile⟩ ∈ before)
    {d : Definition} (hd : (runAll options (.ofRepository repository) before).get? l = some d) :
    d.TaggedBut l.name fun name => name = profileKey ∨ LogEntry.BroughtIn
      (LogEntry.targeting (trace options (.ofRepository repository) before) l) name := by
  refine taggedBut_of_patches hr h hsplit hkind hauthored hcopied htags
    (fun first rest patch source heq hsource => ?_) hd
  rw [heq, List.append_assoc, List.cons_append] at hsplit
  exact taggedBut_of_mergeExtension hr h hsplit hkind hsource

/-- What a profile has in the end it has had when it was included, with its tag, unless its includes
have brought it in. -/
theorem exists_tagged_of_includeFrom (hr : repository.Reachable)
    (h : Proposes options (.ofRepository repository) Phase.structural.planners ops)
    {before after : List Operation} {target source : Location} {scope : IncludeScope}
    (hsplit : (PhasePlan.ofOperations .structural ops).schedule =
      before ++ ⟨target, .includeFrom source scope⟩ :: after) (hkind : source.kind = .profile)
    {authored : Definition} (hauthored : repository.get? source = some authored)
    (hcopied : ∀ op ∈ ops, op.target = source → op.action.createsTarget = false)
    {name : String} (hname : name ≠ profileKey)
    (hbrought : ¬ LogEntry.BroughtIn (LogEntry.targeting (trace options (.ofRepository repository)
      (before ++ ⟨target, .includeFrom source scope⟩ :: after)) source) name) {inner : Fields}
    (hinner : (runAll options (.ofRepository repository)
      (before ++ ⟨target, .includeFrom source scope⟩ :: after)).attribute? source name =
        some inner) :
    ∃ included body, (runAll options (.ofRepository repository) before).get? source =
        some included ∧
      included.attribute? name = some body ∧ source.name ∈ Definition.profileTags body := by
  set op : Operation := ⟨target, .includeFrom source scope⟩
  have hread : source ∈ op.prerequisites := List.mem_cons_self
  rcases prepared_of_schedule h hsplit hread with ⟨hprepared, hcompleted⟩
  rcases Option.isSome_iff_exists.1 ((succeeds_schedule hr h hsplit).1.sources source hread) with
    ⟨included, hincluded⟩
  have hmem {other : Operation} (ho : other ∈ op :: after) : other ∈ ops :=
    (PhasePlan.schedule_perm .structural ops).mem_iff.1 (hsplit ▸ List.mem_append_right _ ho)
  rw [trace_append, LogEntry.targeting_append, LogEntry.broughtIn_append, not_or] at hbrought
  rw [runAll_append] at hinner
  rcases Option.bind_eq_some_iff.1 hinner with ⟨last, hlast, hinner⟩
  -- From here on only includes act on the profile.
  have hincludes : ∀ other ∈ op :: after, other.target = source →
      other.action.includes = true := by
    intro other ho htarget
    refine (includes_or_prepares h (hmem ho) (htarget ▸ hkind)).resolve_right ?_
    simp [Action.prepares_eq_false (hcompleted other ho htarget)]
  rcases exists_attribute?_of_runAll (wellFormed_schedule hr h hsplit)
    (fun other ho => composes_of_proposes h (hmem ho)) hincludes hbrought.2 hincluded hlast
    hinner with ⟨body, hbody⟩
  have htagged := taggedBut_schedule hr h hsplit hkind hauthored hcopied
    (fun profile hplanned => hprepared _ hplanned rfl rfl) hincluded
  exact ⟨included, body, hincluded, hbody, (htagged name body hbody).resolve_left
    fun hexempt => hexempt.elim hname hbrought.1⟩

/-- After the structural phase an attribute of a definition that includes a profile has the tag of
the profile if the profile has an attribute of that name, which nothing has brought in late and
nothing has taken away. -/
theorem mem_profileTags_schedule (hr : repository.Reachable)
    (h : Proposes options (.ofRepository repository) Phase.structural.planners ops)
    {target source : Location} {scope : IncludeScope}
    (hop : ⟨target, .includeFrom source scope⟩ ∈ ops) (hkind : source.kind = .profile)
    {authored : Definition} (hauthored : repository.get? source = some authored)
    (hcopied : ∀ op ∈ ops, op.target = source → op.action.createsTarget = false)
    {done : List Operation} (hdone : (PhasePlan.ofOperations .structural ops).schedule = done)
    {name : String} (hname : name ≠ profileKey)
    (hbrought : ¬ LogEntry.BroughtIn
      (LogEntry.targeting (trace options (.ofRepository repository) done) source) name)
    (hkept : options.isProfileEnabled source.name = true ∨ ¬ LogEntry.TakenAway
      (LogEntry.targeting (trace options (.ofRepository repository) done) target) name)
    {body inner : Fields}
    (hinner : (runAll options (.ofRepository repository) done).attribute? source name = some inner)
    (hbody : (runAll options (.ofRepository repository) done).attribute? target name = some body) :
    source.name ∈ Definition.profileTags body := by
  rcases List.append_of_mem ((PhasePlan.schedule_perm .structural ops).mem_iff.2 hop) with
    ⟨before, after, hsplit⟩
  rw [hsplit] at hdone
  subst hdone
  rcases exists_tagged_of_includeFrom hr h hsplit hkind hauthored hcopied hname hbrought hinner with
    ⟨included, old, hincluded, hold, htag⟩
  set op : Operation := ⟨target, .includeFrom source scope⟩
  have hcomposes {other : Operation} (ho : other ∈ op :: after) : other.action.composes = true :=
    composes_of_proposes h ((PhasePlan.schedule_perm .structural ops).mem_iff.1
      (hsplit ▸ List.mem_append_right _ ho))
  have hwellFormed := wellFormed_schedule hr h hsplit
  rw [trace_append, LogEntry.targeting_append, LogEntry.takenAway_append, not_or] at hkept
  rw [runAll_append] at hbody
  set seen := runAll options (.ofRepository repository) before
  -- The include secures the attribute of the target, and nothing that follows takes it away.
  rcases succeeds_schedule hr h hsplit with ⟨hgrounds, hsucceeds⟩
  obtain ⟨d, hd⟩ : ∃ d, seen.get? target = some d :=
    Option.isSome_iff_exists.1 (hgrounds.target.resolve_left Bool.false_ne_true)
  rcases secures_run_includeFrom rfl hwellFormed hd hincluded hname hold htag hsucceeds with
    ⟨filled, hfilled, hsecured⟩
  have hlater (hnone : ¬ LogEntry.TakenAway
      (LogEntry.targeting (trace options seen (op :: after)) target) name) :
      ¬ LogEntry.TakenAway
        (LogEntry.targeting (trace options (op.run seen options) after) target) name := by
    rw [trace, LogEntry.targeting_cons, if_pos rfl, LogEntry.takenAway_cons, not_or] at hnone
    exact hnone.2
  rcases secures_runAll (wellFormed_run hwellFormed (hcomposes List.mem_cons_self) options)
    (fun other ho => hcomposes (List.mem_cons_of_mem _ ho)) (completes_of_later h hsplit rfl)
    hfilled hname hsecured (hkept.imp id fun hleft => hlater hleft.2) with
    ⟨final, hfinal, hstill⟩
  rcases Option.bind_eq_some_iff.1 hbody with ⟨found, hfound, hbody⟩
  cases hfinal.symm.trans hfound
  exact hstill.mem_profileTags hbody

end Runs

/-! ## After the structural phase -/

/-- Whether a copy of the definition of an extension is planned over a location. -/
def CopiesOnto (plan : PhasePlan) (l : Location) : Prop :=
  ∃ op ∈ plan.get l, op.action.createsTarget = true

instance (plan : PhasePlan) (l : Location) : Decidable (CopiesOnto plan l) :=
  inferInstanceAs (Decidable (∃ op ∈ plan.get l, op.action.createsTarget = true))

/-- A planned include of a profile, and an attribute that both of its sides have in the end. -/
structure SharesAttribute (repository : Repository) (plan : PhasePlan) (settled : Draft)
    (target source : Location) (authored : Definition) (name : String) (body : Fields) :
    Prop where
  planned : ∃ op ∈ plan.get target, ∃ scope, op.action = .includeFrom source scope
  profile : source.kind = .profile
  authored : repository.get? source = some authored
  inner : (settled.attribute? source name).isSome = true
  body : settled.attribute? target name = some body

/--
A repository that can be analyzed can be compiled, which begins with the structural phase.  Take an
attribute that is in the end both in a profile and in a definition that has been planned to include
it.  There the attribute has the name of the profile as a tag, which is the declared one or else
that of its location, provided that no copy from an extension is planned over the profile, that no
include of the profile itself has reported the attribute as new, and that the profile is active or
no removal has taken the attribute away from the definition.  An attribute with the name of the
field for tags is left out.
-/
theorem included_attributes_are_tagged {repository : Repository} (hr : repository.Reachable)
    {options : Options} {analyzed : Compilation}
    (h : (ofRepository repository options).analyze = .ok analyzed) :
    ∃ plan structural later settled recorded compiled log,
      analyzed.stage = .analyzed plan ∧ plan.phases = structural :: later ∧
      structural.phase = .structural ∧
      applyPhase options (.ofRepository repository) structural = (settled, recorded) ∧
      analyzed.compile = .ok compiled ∧ compiled.stage = .compiled plan log ∧
      log.phase? .structural = some recorded ∧
      compiled.draft = (applyPhases options settled later).1 ∧
      (∀ target, ∀ op ∈ structural.get target, ∀ source ∈ op.prerequisites,
        source.kind = .profile → ∃ authored, repository.get? source = some authored) ∧
      ∀ target source authored name body,
        SharesAttribute repository structural settled target source authored name body →
        name ≠ profileKey → ¬ CopiesOnto structural source →
        ¬ LogEntry.BroughtIn (recorded.get source) name →
        (options.isProfileEnabled (Planner.profileName source authored) = true ∨
          ¬ LogEntry.TakenAway (recorded.get target) name) →
        Planner.profileName source authored ∈ Definition.profileTags body := by
  rcases analyze_ofRepository_eq_ok_iff.1 h with ⟨scratch, plan, hplan, rfl⟩
  rcases planPhases_cons_eq_ok_iff.1 hplan with ⟨ops, later, hops, -, hphases⟩
  refine ⟨plan, .ofOperations .structural ops, later,
    (applyPhase options (.ofRepository repository) (.ofOperations .structural ops)).1,
    (applyPhase options (.ofRepository repository) (.ofOperations .structural ops)).2, _, _, rfl,
    hphases, PhasePlan.phase_ofOperations _ _, rfl, compile_analyzed _ _ _, rfl, ?_, ?_, ?_, ?_⟩
  · simp [Log.phase?, hphases, applyPhases]
  · rw [hphases]
    rfl
  · intro target op hop source hsource hkind
    rw [PhasePlan.get_ofOperations] at hop
    have hthere := contains_of_profile hops hr.hosted (mem_targeting.1 hop).1 hsource hkind
    rwa [Draft.contains, Draft.get?_ofRepository, Option.isSome_iff_exists] at hthere
  · intro target source authored name body hshares hname hcopied hbrought hkept
    rcases hshares.planned with ⟨op, hop, scope, haction⟩
    rw [PhasePlan.get_ofOperations] at hop
    rcases mem_targeting.1 hop with ⟨hmem, rfl⟩
    have hinclude : (⟨op.target, .includeFrom source scope⟩ : Operation) ∈ ops := haction ▸ hmem
    have hnone : ∀ other ∈ ops, other.target = source → other.action.createsTarget = false := by
      refine fun other hother htarget => Bool.eq_false_iff.2 fun hcreates => hcopied ?_
      refine ⟨other, ?_, hcreates⟩
      rw [PhasePlan.get_ofOperations]
      exact mem_targeting.2 ⟨hother, htarget⟩
    rcases Option.isSome_iff_exists.1 hshares.inner with ⟨inner, hinner⟩
    have hbody := hshares.body
    rw [hr.profileName_eq hshares.authored hshares.profile] at hkept ⊢
    rw [get_applyPhase] at hbrought hkept
    rw [draft_applyPhase] at hinner hbody
    exact mem_profileTags_schedule hr hops hinclude hshares.profile hshares.authored hnone rfl hname
      hbrought hkept hinner hbody

/-! ## An attribute of a patch -/

/-- What comes of an include of a profile. -/
structure IncludeView where
  /-- The name of the profile. -/
  profile : String
  /-- The tags of the attribute in the end. -/
  tags : List String
  /-- Whether a copy is planned over the profile. -/
  copied : Bool
  /-- Whether includes have brought the attribute in. -/
  brought : Bool
  /-- Whether the profile is active. -/
  active : Bool
  /-- Whether removals have taken the attribute away. -/
  taken : Bool
deriving DecidableEq

/-- What comes of the include of a profile, as far as an attribute goes that both sides have. -/
def includeView (options : Options) (target source : Location) (name : String) (way : Way) :
    Option IncludeView := do
  let structural ← way.plan.phase? .structural
  let (settled, recorded) := applyPhase options (.ofRepository way.repository) structural
  let authored ← way.repository.get? source
  let body ← settled.attribute? target name
  let includes (op : Operation) : Bool :=
    match op.action with
    | .includeFrom l _ => l == source
    | _ => false
  if (structural.get target).any includes && (settled.attribute? source name).isSome then
    some {
      profile := Planner.profileName source authored
      tags := Definition.profileTags body
      copied := decide (CopiesOnto structural source)
      brought := decide (LogEntry.BroughtIn (recorded.get source) name)
      active := options.isProfileEnabled (Planner.profileName source authored)
      taken := decide (LogEntry.TakenAway (recorded.get target) name) }
  else none

theorem exists_of_includeView {options : Options} {files : List (Path × Json)}
    {target source : Location} {name : String} {view : IncludeView}
    (h : (wayWith options files).map (includeView options target source name) = some (some view))
    (hkind : source.kind = .profile) :
    ∃ way : Way, ∃ structural settled recorded authored body,
      Repository.ofFiles files = .ok way.repository ∧
      (ofRepository way.repository options).analyze = .ok way.analyzed ∧
      way.analyzed.stage.plan? = some way.plan ∧ way.plan.phase? .structural = some structural ∧
      applyPhase options (.ofRepository way.repository) structural = (settled, recorded) ∧
      SharesAttribute way.repository structural settled target source authored name body ∧
      view = {
        profile := Planner.profileName source authored
        tags := Definition.profileTags body
        copied := decide (CopiesOnto structural source)
        brought := decide (LogEntry.BroughtIn (recorded.get source) name)
        active := options.isProfileEnabled (Planner.profileName source authored)
        taken := decide (LogEntry.TakenAway (recorded.get target) name) } := by
  rcases exists_of_wayWith h with ⟨way, hfiles, hanalyze, hplan, -, -, hway⟩
  simp only [includeView, Option.bind_eq_bind, Option.bind_eq_some_iff] at hway
  rcases hway with ⟨structural, hphase, authored, hauthored, body, hbody, hview⟩
  rcases Option.ite_none_right_eq_some.1 hview with ⟨hthere, hview⟩
  rw [Bool.and_eq_true, List.any_eq_true] at hthere
  rcases hthere with ⟨⟨op, hop, hincludes⟩, hinner⟩
  refine ⟨way, structural, _, _, authored, body, hfiles, hanalyze, hplan, hphase, rfl, ?_,
    (Option.some.inj hview).symm⟩
  refine ⟨⟨op, hop, ?_⟩, hkind, hauthored, hinner, hbody⟩
  split at hincludes
  · rename_i l scope haction
    exact ⟨scope, by rw [haction, beq_iff_eq.1 hincludes]⟩
  · cases hincludes

/-- A profile that an object includes, with a patch by an extension. -/
def patchedProfile : List (Path × Json) :=
  [(⟨"profiles/p.json"⟩, .obj [("name", .str "p"), ("attributes", .obj [("x", .obj [])])]),
    (⟨"extensions/e/extension.json"⟩, .obj [("name", .str "e")]),
    (⟨"extensions/e/profiles/p.json"⟩,
      .obj [("name", .str "p"), ("attributes", .obj [("y", .obj [])])]),
    (⟨"objects/o.json"⟩, .obj [("name", .str "o"), ("$include", .str "profiles/p.json")])]

theorem reachable_of_patchedProfile {repository : Repository}
    (h : Repository.ofFiles patchedProfile = .ok repository) : repository.Reachable := by
  refine Repository.Reachable.empty.insertFiles (fun file hfile => ?_) h
  simp only [patchedProfile, List.mem_cons, List.not_mem_nil, or_false] at hfile
  rcases hfile with rfl | rfl | rfl | rfl <;> simp [Json.WellFormed, Json.WellFormedFields]

/-- An attribute that a patch has added to a profile has the tag of the profile in an object. -/
theorem patch_is_tagged :
    ∃ way : Way, ∃ structural settled recorded authored body,
      Repository.ofFiles patchedProfile = .ok way.repository ∧
      (ofRepository way.repository {}).analyze = .ok way.analyzed ∧
      way.analyzed.stage.plan? = some way.plan ∧ way.plan.phase? .structural = some structural ∧
      applyPhase {} (.ofRepository way.repository) structural = (settled, recorded) ∧
      SharesAttribute way.repository structural settled (.inCore .object "o") (.inCore .profile "p")
        authored "y" body ∧
      "p" ∈ Definition.profileTags body := by
  have hview : (wayWith {} patchedProfile).map
      (includeView {} (.inCore .object "o") (.inCore .profile "p") "y") =
        some (some ⟨"p", ["p"], false, false, true, false⟩) := by decide +kernel
  rcases exists_of_includeView hview rfl with ⟨way, structural, settled, recorded, authored, body,
    hfiles, hanalyze, hplan, hphase, hrun, hshares, hway⟩
  obtain ⟨hprofile, -, hcopied, hbrought, hactive, -⟩ := by simpa using hway
  rcases included_attributes_are_tagged (reachable_of_patchedProfile hfiles) hanalyze with
    ⟨plan, structural', later, settled', recorded', compiled, log, hstage, hphases, hstructural,
      hrun', -, -, -, -, -, htagged⟩
  obtain rfl : plan = way.plan := by simpa [hstage, Stage.analyzed] using hplan
  obtain rfl : structural' = structural := by
    simpa [Plan.phase?, hphases, hstructural] using hphase
  obtain ⟨rfl, rfl⟩ := Prod.mk.inj (hrun'.symm.trans hrun)
  refine ⟨way, _, _, _, authored, body, hfiles, hanalyze, hplan, hphase, hrun, hshares, ?_⟩
  rw [hprofile]
  exact htagged _ _ authored "y" body hshares (by decide) hcopied hbrought (Or.inl hactive)

/-! ## Attributes without the tag -/

/-- The tags of profiles are on the attributes that a definition has in common with a profile that
it includes, wherever a proviso holds of the two, the attribute and the tag. -/
def CarriesTags (proviso : Options → PhasePlan → PhaseLog → Location → Location → String → String →
    Prop) : Prop :=
  ∀ files repository options analyzed plan structural settled recorded,
    Repository.ofFiles files = .ok repository →
    (ofRepository repository options).analyze = .ok analyzed →
    analyzed.stage.plan? = some plan → plan.phase? .structural = some structural →
    applyPhase options (.ofRepository repository) structural = (settled, recorded) →
    ∀ target source authored name body,
      SharesAttribute repository structural settled target source authored name body →
      proviso options structural recorded target source name (Planner.profileName source authored) →
      Planner.profileName source authored ∈ Definition.profileTags body

/-- What comes of an include does not keep to the proviso if the tag is missing. -/
theorem CarriesTags.exists_proviso {proviso : Options → PhasePlan → PhaseLog → Location → Location →
    String → String → Prop} (h : CarriesTags proviso) {options : Options}
    {files : List (Path × Json)} {target source : Location} {name : String} {view : IncludeView}
    (hview : (wayWith options files).map (includeView options target source name) =
      some (some view)) (hkind : source.kind = .profile) (htag : view.profile ∉ view.tags) :
    ∃ structural recorded,
      (CopiesOnto structural source ↔ view.copied = true) ∧
      (LogEntry.BroughtIn (recorded.get source) name ↔ view.brought = true) ∧
      options.isProfileEnabled view.profile = view.active ∧
      (LogEntry.TakenAway (recorded.get target) name ↔ view.taken = true) ∧
      ¬ proviso options structural recorded target source name view.profile := by
  rcases exists_of_includeView hview hkind with ⟨way, structural, settled, recorded, authored, body,
    hfiles, hanalyze, hplan, hphase, hrun, hshares, rfl⟩
  refine ⟨structural, recorded, decide_eq_true_iff.symm, decide_eq_true_iff.symm, rfl,
    decide_eq_true_iff.symm, fun hproviso => htag ?_⟩
  exact h files _ options _ _ _ settled recorded hfiles hanalyze hplan hphase hrun _ _ authored name
    body hshares hproviso

/-- A profile that includes an attribute itself. -/
def includingProfile : List (Path × Json) :=
  [(⟨"profiles/p.json"⟩, .obj [("name", .str "p"),
      ("attributes", .obj [("$include", .str "includes/f.json")])]),
    (⟨"includes/f.json"⟩, .obj [("attributes", .obj [("x", .obj [])])]),
    (⟨"objects/o.json"⟩, .obj [("name", .str "o"), ("$include", .str "profiles/p.json")])]

/-- An object that inherits the attribute of a profile which it includes. -/
def inheritingObject : List (Path × Json) :=
  [(⟨"profiles/p.json"⟩, .obj [("name", .str "p"), ("attributes", .obj [("x", .obj [])])]),
    (⟨"objects/a.json"⟩, .obj [("name", .str "a"), ("attributes", .obj [("x", .obj [])])]),
    (⟨"objects/o.json"⟩, .obj [("name", .str "o"), ("extends", .str "a"),
      ("$include", .str "profiles/p.json")])]

/-- Options under which the profile is not active. -/
def withoutProfile : Options := { ignoredProfiles := ExtTreeSet.ofList ["p"] }

/-- A profile with the name that a profile of an extension gets in core. -/
def coveredProfile : List (Path × Json) :=
  [(⟨"profiles/p.json"⟩, .obj [("name", .str "e/p"), ("attributes", .obj [("x", .obj [])])]),
    (⟨"extensions/e/extension.json"⟩, .obj [("name", .str "e")]),
    (⟨"extensions/e/profiles/p.json"⟩,
      .obj [("name", .str "p"), ("attributes", .obj [("x", .obj [])])]),
    (⟨"objects/o.json"⟩, .obj [("name", .str "o"), ("$include", .str "profiles/p.json")])]

/-- A profile and an object with an attribute named like the field for tags. -/
def attributeNamedProfile : List (Path × Json) :=
  [(⟨"profiles/p.json"⟩, .obj [("name", .str "p"), ("attributes", .obj [("profile", .obj [])])]),
    (⟨"objects/o.json"⟩, .obj [("name", .str "o"), ("$include", .str "profiles/p.json"),
      ("attributes", .obj [("profile", .obj [])])])]

/--
Attributes do not always have the tag of a profile that they come from.  It is missing where the
profile has included them itself, where a removal has made place for those of a parent, where the
profile has been covered by a copy from an extension, and where they are taken for tags.
-/
theorem included_attributes_lack_tags :
    (¬ CarriesTags fun _ _ _ _ _ _ _ => True) ∧
    (¬ CarriesTags fun options structural recorded target source name tag =>
      name ≠ profileKey ∧ ¬ CopiesOnto structural source ∧
      (options.isProfileEnabled tag = true ∨
        ¬ LogEntry.TakenAway (recorded.get target) name)) ∧
    (¬ CarriesTags fun _ structural recorded _ source name _ =>
      name ≠ profileKey ∧ ¬ CopiesOnto structural source ∧
      ¬ LogEntry.BroughtIn (recorded.get source) name) ∧
    (¬ CarriesTags fun options _ recorded target source name tag =>
      name ≠ profileKey ∧ ¬ LogEntry.BroughtIn (recorded.get source) name ∧
      (options.isProfileEnabled tag = true ∨
        ¬ LogEntry.TakenAway (recorded.get target) name)) ∧
    ¬ CarriesTags fun options structural recorded target source name tag =>
      ¬ CopiesOnto structural source ∧ ¬ LogEntry.BroughtIn (recorded.get source) name ∧
      (options.isProfileEnabled tag = true ∨
        ¬ LogEntry.TakenAway (recorded.get target) name) := by
  have hincluding : (wayWith {} includingProfile).map
      (includeView {} (.inCore .object "o") (.inCore .profile "p") "x") =
        some (some ⟨"p", [], false, true, true, false⟩) := by decide +kernel
  have hinheriting : (wayWith withoutProfile inheritingObject).map
      (includeView withoutProfile (.inCore .object "o") (.inCore .profile "p") "x") =
        some (some ⟨"p", [], false, false, false, true⟩) := by decide +kernel
  have hcovered : (wayWith {} coveredProfile).map
      (includeView {} (.inCore .object "o") (.inCore .profile "e/p") "x") =
        some (some ⟨"e/p", ["p"], true, false, true, false⟩) := by decide +kernel
  have hnamed : (wayWith {} attributeNamedProfile).map
      (includeView {} (.inCore .object "o") (.inCore .profile "p") "profile") =
        some (some ⟨"p", [], false, false, true, false⟩) := by decide +kernel
  refine ⟨fun hclaim => ?_, fun hclaim => ?_, fun hclaim => ?_, fun hclaim => ?_, fun hclaim => ?_⟩
  · rcases hclaim.exists_proviso hincluding rfl (by decide) with ⟨_, _, -, -, -, -, hproviso⟩
    exact hproviso trivial
  · rcases hclaim.exists_proviso hincluding rfl (by decide) with
      ⟨_, _, hcopied, -, hactive, -, hproviso⟩
    exact hproviso ⟨by decide, by simp [hcopied], Or.inl hactive⟩
  · rcases hclaim.exists_proviso hinheriting rfl (by decide) with
      ⟨_, _, hcopied, hbrought, -, -, hproviso⟩
    exact hproviso ⟨by decide, by simp [hcopied], by simp [hbrought]⟩
  · rcases hclaim.exists_proviso hcovered rfl (by decide) with
      ⟨_, _, -, hbrought, hactive, -, hproviso⟩
    exact hproviso ⟨by decide, by simp [hbrought], Or.inl hactive⟩
  · rcases hclaim.exists_proviso hnamed rfl (by decide) with
      ⟨_, _, hcopied, hbrought, hactive, -, hproviso⟩
    exact hproviso ⟨by simp [hcopied], by simp [hbrought], Or.inl hactive⟩

end Compilation

end EventSchema
