import EventSchema.Proofs.DryRun
import EventSchema.Proofs.ProfileRemoval
import EventSchema.Proofs.Rendering

/-!
# Inactive tags in the schema

The schema shows what the planner of the last phase has seen, as far as no premature include comes
in between, and nothing is ever included in an entry of the dictionary.  So an attribute in the
schema without an active tag has no tags but those that the dictionary states for its name.

Main results:

- {lit}`Compilation.settledAt_of_dictionary`: entries of the dictionary have no premature includes.
- {lit}`Definition.Renders.exists_attribute?`: an attribute of a copy has the tags of the original.
- {lit}`Compilation.inactive_tags_come_from_dictionary`: which inactive tags the schema may show.
-/

namespace EventSchema

open Relation Std

/-! ## The dictionary is settled -/

namespace Planner

/-- Entries of the dictionary are edited by three planners; what these read is of the dictionary. -/
theorem kind_eq_dictionary_of_consults {planner : Planner} {draft : Draft} {options : Options}
    {ops : List Operation} (h : planner.analyze draft options = .ok ops) {op : Operation}
    (hop : op ∈ ops) (hkind : op.target.kind = .dictionary) :
    planner ≠ .includes ∧ ∀ l, op.Consults l → l.kind = .dictionary := by
  have hemits := emits_of_mem h hop
  have htarget := hemits.kind
  rw [hkind] at htarget
  cases planner with
  | extension =>
    refine ⟨by decide, fun l hl => ?_⟩
    rcases (Operation.consults_iff_of_emits hemits (by decide)).1 hl with rfl | hmem
    · exact hkind
    · exact ((grounds_applyExtensions (Except.ok.inj h ▸ hop)).2 l hmem).trans hkind
  | extensionTypes =>
    refine ⟨by decide, fun l hl => ?_⟩
    rw [Operation.eq_target_of_consults hemits (by decide) (fun _ hreads => hreads) hl, hkind]
  | objectType =>
    refine ⟨by decide, fun l hl => ?_⟩
    rw [Operation.eq_target_of_consults hemits (by decide) (fun _ hreads => hreads) hl, hkind]
  | _ =>
    simp [targetKinds, Kind.withAttributes, Kind.records] at htarget

end Planner

namespace Compilation

open Operation

section

variable {repository : Repository} {options : Options} {plan : Plan}
  {structural dictionary identifiers : List Operation}

/-- What is planned for a location comes from a planner, in one of the phases. -/
theorem exists_analyze_of_mem_operationsFor
    (h : PlannedAs options (.ofRepository repository) plan structural dictionary identifiers)
    {l : Location} {op : Operation} (hop : op ∈ plan.operationsFor l) :
    op.target = l ∧ ∃ planner : Planner, ∃ seen ops, planner.analyze seen options = .ok ops ∧
      op ∈ ops := by
  simp only [Plan.operationsFor, h.phases_eq, List.flatMap_cons, List.flatMap_nil,
    PhasePlan.get_ofOperations, List.mem_append, List.append_nil, mem_targeting] at hop
  rcases hop with ⟨hop, rfl⟩ | ⟨hop, rfl⟩ | ⟨hop, rfl⟩ | ⟨hop, rfl⟩
  · rcases h.proposes_structural.exists_analyze hop with ⟨planner, -, seen, ops, hops, hmem, -⟩
    exact ⟨rfl, planner, seen, ops, hops, hmem⟩
  · rcases h.proposes_dictionary.exists_analyze hop with ⟨planner, -, seen, ops, hops, hmem, -⟩
    exact ⟨rfl, planner, seen, ops, hops, hmem⟩
  · rcases h.proposes_identifiers.exists_analyze hop with ⟨planner, -, seen, ops, hops, hmem, -⟩
    exact ⟨rfl, planner, seen, ops, hops, hmem⟩
  · exact ⟨rfl, .rendering, _, _, rfl, hop⟩

/-- Entries of the dictionary depend on no premature includes. -/
theorem settledAt_of_dictionary
    (h : PlannedAs options (.ofRepository repository) plan structural dictionary identifiers)
    {l : Location} (hl : l.kind = .dictionary) : plan.SettledAt l := by
  intro m hm
  have hkind : m.kind = .dictionary := by
    induction hm with
    | refl => exact hl
    | tail _ hconsults ih =>
      rcases hconsults with ⟨op, hop, hconsults⟩
      rcases exists_analyze_of_mem_operationsFor h hop with ⟨rfl, planner, seen, ops, hops, hmem⟩
      exact (Planner.kind_eq_dictionary_of_consults hops hmem ih).2 _ hconsults
  intro op hop
  rcases exists_analyze_of_mem_operationsFor h hop with ⟨rfl, planner, seen, ops, hops, hmem⟩
  refine Bool.eq_false_iff.2 fun hpremature => ?_
  rcases isPremature_iff.1 hpremature with ⟨source, scope, haction, -⟩
  have hacts := (Planner.emits_of_mem hops hmem).action
  rw [haction] at hacts
  cases planner with
  | includes => exact (Planner.kind_eq_dictionary_of_consults hops hmem hkind).1 rfl
  | _ => exact hacts.elim

/-! ## What the last planner has seen -/

/-- Outside of the schema a compiled draft shows what the last planner has seen, as far as no
premature include comes in between. -/
theorem sameAt_seenByRendering {last : Draft}
    (hplan : planPhases options (.ofRepository repository) Phase.all = .ok (last, plan.phases))
    (hlast : last = runAll options
      (seenByRendering options repository structural dictionary identifiers) (Planner.render
        (seenByRendering options repository structural dictionary identifiers) options))
    {l : Location} (hl : l.part? = none) (hsettled : plan.SettledAt l) :
    (finalDraft options repository plan).SameAt
      (seenByRendering options repository structural dictionary identifiers) l := by
  have hclosed (m : Location) (hm : ReflTransGen plan.Consults l m) (op : Operation)
      (hop : op ∈ plan.operationsFor m) (k : Location) (hk : op.Consults k) :
      ReflTransGen plan.Consults l k :=
    hm.tail ⟨op, hop, hk⟩
  have hagree := agreeOn_applyPhases hplan hclosed hsettled (.refl _ _) l .refl
  refine hagree.trans ?_
  rw [hlast]
  refine sameAt_runAll_of_forall_ne options (fun op hop heq => ?_) _
  exact (Planner.emits_render hop).part?_target_ne (heq ▸ hl)

end

end Compilation

namespace Json

/-! ## Tags of a copy -/

theorem str?_eq_of_same {a b : Json} (h : a.same b = true) : a.str? = b.str? := by
  cases a <;> cases b <;> simp_all [Json.same, str?]

theorem filterMap_str?_of_sameItems {left right : List Json} (h : sameItems left right = true) :
    left.filterMap str? = right.filterMap str? := by
  induction left generalizing right with
  | nil =>
    cases right with
    | nil => rfl
    | cons b rest => cases h
  | cons a items ih =>
    cases right with
    | nil => cases h
    | cons b rest =>
      rw [sameItems, Bool.and_eq_true] at h
      rw [List.filterMap_cons, List.filterMap_cons, str?_eq_of_same h.1, ih h.2]

/-- The same values hold the same tags. -/
theorem strings_eq_of_same {a b : Json} (h : a.same b = true) :
    strings (some a) = strings (some b) := by
  cases a with
  | arr items =>
    cases b with
    | arr others =>
      rw [Json.same] at h
      exact filterMap_str?_of_sameItems h
    | _ => cases h
  | str text =>
    have htext := str?_eq_of_same h
    cases b <;> simp_all [str?, strings]
  | _ => cases b <;> first | rfl | cases h

end Json

namespace Definition

theorem get?_renderedFields_attributes (d : Definition) :
    Fields.get? d.renderedFields attributesKey =
      (Fields.get? d.fields attributesKey).map Json.withoutInclude := by
  rw [d.get?_renderedFields (by decide) (by decide)]
  simp

/-- A copy has the attributes of the original. -/
theorem attribute?_renderedFields (d : Definition) (name : String) :
    (⟨d.renderedFields⟩ : Definition).attribute? name = d.attribute? name := by
  ext body
  simp only [attribute?_eq_some_iff, attributes?_eq_some_iff, get?_renderedFields_attributes,
    Option.map_eq_some_iff]
  refine and_congr_right fun hname => ?_
  have hinclude : (name != includeKey) = true := by
    rw [bne_iff_ne]
    rintro rfl
    cases hname
  have hkept (attributes : Fields) :=
    Fields.get?_filter_keys (fun key => key != includeKey) attributes hinclude
  constructor
  · rintro ⟨attributes, ⟨value, hvalue, hobj⟩, hget⟩
    cases value with
    | obj fields =>
      cases hobj
      exact ⟨fields, hvalue, (hkept fields).symm.trans hget⟩
    | _ => cases hobj
  · rintro ⟨attributes, hattributes, hget⟩
    exact ⟨_, ⟨_, hattributes, rfl⟩, (hkept attributes).trans hget⟩

/-- An attribute has counterparts with the same tags in documents that are the same. -/
theorem exists_attribute?_of_same {d copy : Definition} (h : d.same copy = true) {name : String}
    {body : Fields} (hbody : d.attribute? name = some body) :
    ∃ other, copy.attribute? name = some other ∧
      (profileTags body = [] ∨ profileTags body = profileTags other) := by
  rcases attribute?_eq_some_iff.1 hbody with ⟨hname, attributes, hattributes, hget⟩
  rcases (same_iff.1 h).2 _ (Fields.mem_of_get?_eq_some (fields_get?_of_attributes? hattributes))
    with ⟨value, hvalue, hsame⟩
  cases value with
  | obj others =>
    rw [Json.same, Bool.and_eq_true] at hsame
    rcases sameFields_iff.1 hsame.2 _ (Fields.mem_of_get?_eq_some hget) with
      ⟨found, hfound, hsame⟩
    cases found with
    | obj other =>
      rw [Json.same, Bool.and_eq_true] at hsame
      refine ⟨other, attribute?_eq_some_iff.2
        ⟨hname, others, attributes?_eq_some_iff.2 hvalue, hfound⟩, ?_⟩
      unfold profileTags
      cases htags : Fields.get? body profileKey with
      | none => exact Or.inl rfl
      | some tags =>
        rcases sameFields_iff.1 hsame.2 _ (Fields.mem_of_get?_eq_some htags) with
          ⟨tags', htags', hsame⟩
        rw [htags']
        exact Or.inr (Json.strings_eq_of_same hsame)
    | _ => cases hsame
  | _ => cases hsame

/-- An attribute of a copy has the tags of the original, if it has some. -/
theorem Renders.exists_attribute? {shown d : Definition} (h : shown.Renders d) {name : String}
    {body : Fields} (hbody : shown.attribute? name = some body) :
    ∃ other, d.attribute? name = some other ∧
      (profileTags body = [] ∨ profileTags body = profileTags other) := by
  rcases h with rfl | hsame
  · rw [attribute?_renderedFields] at hbody
    exact ⟨body, hbody, Or.inr rfl⟩
  · rcases exists_attribute?_of_same hsame hbody with ⟨other, hother, htags⟩
    rw [attribute?_renderedFields] at hother
    exact ⟨other, hother, htags⟩

end Definition

/-! ## Records in the schema -/

/-- A schema shows a record: an object or a class under its key, or the base event. -/
inductive Schema.ShowsRecord (s : Schema) : Location → Definition → Prop
  | object {key : String} {d : Definition} (h : s.objects[key]? = some d) :
    s.ShowsRecord (.entry .objects key) d
  | eventClass {key : String} {d : Definition} (h : s.classes[key]? = some d) :
    s.ShowsRecord (.entry .classes key) d
  | baseEvent {d : Definition} (h : s.baseEvent = some d) :
    s.ShowsRecord (.entry .baseEvent Planner.baseEvent) d

/-- What is shown as a record is an entry under its key. -/
theorem Schema.ShowsRecord.exists_lookup {s : Schema} {target : Location} {d : Definition}
    (h : s.ShowsRecord target d) :
    ∃ part key, target = .entry part key ∧ part ∈ [.objects, .classes, .baseEvent] ∧
      (part = .baseEvent → key = Planner.baseEvent) ∧ s.lookup part key = some d := by
  cases h with
  | object h => exact ⟨.objects, _, rfl, by decide, nofun, h⟩
  | eventClass h => exact ⟨.classes, _, rfl, by decide, nofun, h⟩
  | baseEvent h => exact ⟨.baseEvent, _, rfl, by decide, fun _ => rfl, h⟩

/-- Records are rendered to the entries of records. -/
theorem Planner.kind_mem_records_of_mem_entriesOf {options : Options}
    {declared : ExtTreeMap String String} {l : Location} {d : Definition} {part : Section}
    {key : String} (h : .entry part key ∈ entriesOf options declared l d)
    (hpart : part ∈ [.objects, .classes, .baseEvent]) : l.kind ∈ Kind.records := by
  simp only [List.mem_cons, List.not_mem_nil, or_false] at hpart
  cases hkind : l.kind with
  | object | eventClass | event => simp [Kind.records]
  | _ =>
    -- Definitions of other kinds have their entries in other sections.
    rcases hpart with rfl | rfl | rfl <;>
      simp [entriesOf, hkind, Location.entry, Location.inCore] at h

namespace Compilation

open Operation

/-- A record in the schema is a copy of one that the last planner has seen, as far as no premature
include comes in between. -/
theorem exists_seen_of_showsRecord {repository : Repository} {options : Options} {plan : Plan}
    {structural dictionary identifiers : List Operation} (hr : repository.Sound)
    (h : PlannedAs options (.ofRepository repository) plan structural dictionary identifiers)
    {last : Draft}
    (hplan : planPhases options (.ofRepository repository) Phase.all = .ok (last, plan.phases))
    (hlast : last = runAll options
      (seenByRendering options repository structural dictionary identifiers) (Planner.render
        (seenByRendering options repository structural dictionary identifiers) options))
    {target : Location} {d : Definition}
    (hd : (Schema.render (finalDraft options repository plan)).ShowsRecord target d)
    (hsettled : ∀ source, plan.shown? (finalDraft options repository plan) target = some source →
      plan.SettledAt source) :
    ∃ source original, source.isCore = true ∧ source.kind ∈ Kind.records ∧
      (seenByRendering options repository structural dictionary identifiers).get? source =
        some original ∧ d.Renders original := by
  rcases hd.exists_lookup with ⟨part, key, rfl, hrecord, hbase, hlookup⟩
  have hpart : (Location.entry part key).part? ≠ none := Option.some_ne_none part
  have hversion : part ≠ .version := by
    rintro rfl
    simp at hrecord
  have hcopy := (lookup_render_compiled hr h hversion hbase).symm.trans hlookup
  rcases exists_source_of_get? hr h hpart hcopy with
    ⟨source, hsource, original, hshown, horiginal, hrenders⟩
  rcases exists_entry_of_mem_sourcesOf h hpart hsource with ⟨_, -, hcore, hentry⟩
  have hseen := sameAt_seenByRendering hplan hlast
    (part?_of_mem_sourcesOf h hpart hsource) (hsettled source hshown)
  exact ⟨source, original, hcore, Planner.kind_mem_records_of_mem_entriesOf hentry hrecord,
    hseen.definition.symm.trans horiginal, hrenders⟩

/--
An attribute of a record in the schema whose tags are all inactive has no tags but those that the
compiled entry of the dictionary states for its name, provided that the record that is shown
depends on no premature include.
-/
theorem inactive_tags_come_from_dictionary {repository : Repository} {options : Options}
    {analyzed compiled : Compilation} {plan : Plan} {schema : Schema}
    (hrepository : repository.Reachable)
    (hanalyze : (ofRepository repository options).analyze = .ok analyzed)
    (hplan : analyzed.stage.plan? = some plan) (hcompile : analyzed.compile = .ok compiled)
    (hschema : compiled.schema = .ok schema) {target : Location} {d : Definition}
    (hd : schema.ShowsRecord target d)
    (hsettled : ∀ source, plan.shown? compiled.draft target = some source → plan.SettledAt source)
    {name : String} {body : Fields} (hbody : d.attribute? name = some body)
    (hinactive : ∀ tag ∈ Definition.profileTags body, options.isProfileEnabled tag = false) :
    ∀ tag ∈ Definition.profileTags body,
      ∃ entry, compiled.draft.get? (.inCore .dictionary name) = some entry ∧
        tag ∈ Definition.profileTags entry.fields := by
  intro tag htag
  rcases analyze_ofRepository_eq_ok_iff.1 hanalyze with ⟨last, _, hplanned, rfl⟩
  cases hplan
  rcases exists_plannedAs hplanned with ⟨structural, dictionary, identifiers, h, hlast⟩
  rw [compile_analyzed] at hcompile
  cases hcompile
  rcases schema_compiled_eq_ok_iff.1 hschema with ⟨-, rfl⟩
  change ∀ source, plan.shown? (finalDraft options repository plan) target = some source →
    plan.SettledAt source at hsettled
  change ∃ entry, (finalDraft options repository plan).get? _ = some entry ∧ _
  rcases exists_seen_of_showsRecord hrepository.sound h hplanned hlast hd hsettled with
    ⟨source, original, hcore, hkind, horiginal, hrenders⟩
  have hcleared := cleared_beforeSchema hrepository h source original hcore hkind horiginal
  rcases hrenders.exists_attribute? hbody with ⟨other, hother, hnone | htags⟩
  · rw [hnone] at htag
    cases htag
  rw [htags] at htag hinactive
  rcases Draft.mem_statedTags.1 (hcleared name other hother hinactive tag htag) with
    ⟨entry, hget, hstated⟩
  have hdictionary : (finalDraft options repository plan).SameAt _ (.inCore .dictionary name) :=
    sameAt_seenByRendering hplanned hlast rfl (settledAt_of_dictionary h rfl)
  exact ⟨entry, hdictionary.definition.trans hget, hstated⟩

/-! ## A tag in the dictionary -/

/-- An object whose attribute has a profile by its entry in the dictionary only. -/
def taggedEntry : List (Path × Json) :=
  [(⟨"dictionary.json"⟩,
      .obj [("attributes", .obj [("p", .obj [("caption", .str "P"), ("profile", .str "off")])])]),
    (⟨"objects/a.json"⟩, .obj [("name", .str "a"), ("attributes", .obj [("p", .obj [])])])]

/-- Options under which that profile is not active. -/
def withoutOff : Options := { ignoredProfiles := ExtTreeSet.ofList ["off"] }

/-- Whether a plan is settled, and the tags that the schema shows for an attribute of an object. -/
def tagsOf (key name : String) (way : Way) : Bool × Option (List String) :=
  (way.plan.isSettled,
    ((way.schema.objects[key]?).bind (Definition.attribute? · name)).map Definition.profileTags)

theorem exists_of_taggedEntry :
    ∃ way : Way, ∃ d body, Repository.ofFiles taggedEntry = .ok way.repository ∧
      (ofRepository way.repository withoutOff).analyze = .ok way.analyzed ∧
      way.analyzed.stage.plan? = some way.plan ∧ way.analyzed.compile = .ok way.compiled ∧
      way.compiled.schema = .ok way.schema ∧ way.plan.isSettled = true ∧
      way.schema.ShowsRecord (.entry .objects "a") d ∧ d.attribute? "p" = some body ∧
      Definition.profileTags body = ["off"] := by
  have hview : (wayWith withoutOff taggedEntry).map (tagsOf "a" "p") =
      some (true, some ["off"]) := by decide +kernel
  rcases exists_of_wayWith hview with ⟨way, hfiles, hanalyze, hplan, hcompile, hschema, hway⟩
  rcases Prod.mk.inj hway with ⟨hsettled, htags⟩
  rcases Option.map_eq_some_iff.1 htags with ⟨body, hbody, htags⟩
  rcases Option.bind_eq_some_iff.1 hbody with ⟨d, hd, hbody⟩
  exact ⟨way, d, body, hfiles, hanalyze, hplan, hcompile, hschema, hsettled, .object hd, hbody,
    htags⟩

theorem isProfileEnabled_withoutOff : withoutOff.isProfileEnabled "off" = false := by
  decide +kernel

theorem reachable_of_taggedEntry {repository : Repository}
    (h : Repository.ofFiles taggedEntry = .ok repository) : repository.Reachable := by
  refine Repository.Reachable.empty.insertFiles (fun file hfile => ?_) h
  simp only [taggedEntry, List.mem_cons, List.not_mem_nil, or_false] at hfile
  rcases hfile with rfl | rfl <;> simp [Json.WellFormed, Json.WellFormedFields]

/-- The inactive tag of an attribute stands in the dictionary. -/
theorem tagged_entry_states_inactive_tag :
    ∃ way : Way, ∃ d body, Repository.ofFiles taggedEntry = .ok way.repository ∧
      (ofRepository way.repository withoutOff).analyze = .ok way.analyzed ∧
      way.analyzed.compile = .ok way.compiled ∧
      way.schema.ShowsRecord (.entry .objects "a") d ∧ d.attribute? "p" = some body ∧
      Definition.profileTags body = ["off"] ∧
      ∃ entry, way.compiled.draft.get? (.inCore .dictionary "p") = some entry ∧
        "off" ∈ Definition.profileTags entry.fields := by
  rcases exists_of_taggedEntry with
    ⟨way, d, body, hfiles, hanalyze, hplan, hcompile, hschema, hsettled, hd, hbody, htags⟩
  have hinactive : ∀ tag ∈ Definition.profileTags body,
      withoutOff.isProfileEnabled tag = false := by
    intro tag htag
    rw [htags] at htag
    rw [List.mem_singleton.1 htag]
    exact isProfileEnabled_withoutOff
  refine ⟨way, d, body, hfiles, hanalyze, hcompile, hd, hbody, htags, ?_⟩
  exact inactive_tags_come_from_dictionary (reachable_of_taggedEntry hfiles) hanalyze hplan hcompile
    hschema hd (fun source _ => Plan.settledAt_of_isSettled hsettled source) hbody hinactive "off"
    (htags ▸ List.mem_singleton_self _)

/-- A record in the schema may have an attribute with inactive tags only. -/
theorem schema_keeps_inactive_tag :
    ¬ ∀ files repository options analyzed compiled schema,
      Repository.ofFiles files = .ok repository →
      (ofRepository repository options).analyze = .ok analyzed →
      analyzed.compile = .ok compiled → compiled.schema = .ok schema →
      ∀ target d name body, schema.ShowsRecord target d → d.attribute? name = some body →
        Definition.profileTags body ≠ [] →
        ∃ tag ∈ Definition.profileTags body, options.isProfileEnabled tag = true := by
  intro hclaim
  rcases exists_of_taggedEntry with
    ⟨way, d, body, hfiles, hanalyze, -, hcompile, hschema, -, hd, hbody, htags⟩
  rcases hclaim taggedEntry way.repository withoutOff way.analyzed way.compiled way.schema hfiles
      hanalyze hcompile hschema _ d "p" body hd hbody (by simp [htags]) with
    ⟨tag, htag, hactive⟩
  rw [htags] at htag
  rw [List.mem_singleton.1 htag, isProfileEnabled_withoutOff] at hactive
  cases hactive

end Compilation

end EventSchema
