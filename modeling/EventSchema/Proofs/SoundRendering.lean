import EventSchema.Proofs.Incompleteness
import EventSchema.Proofs.TypeIdentifiers

/-!
# Rendering is sound

A schema has exactly the entries that copies are planned to.  Each entry is the compiled definition
of one of the locations that are copied to it, one that has not failed, without what only the
compiler reads.

Main results:

- {lit}`Definition.Renders.same`: what is shown is the same document as the copy of a definition.
- {lit}`Definition.Renders.free`: it has nothing that only the compiler reads.
- {lit}`Compilation.isSome_lookup_iff_copies`: a schema has the entries that are planned.
- {lit}`Compilation.rendering_is_sound`: where the entries of a schema come from.
-/

namespace EventSchema

open Std

/-- A key that is left out of fields is none of the keys that stay. -/
theorem Fields.get?_filter_eq_none {p : String → Bool} {key : String} (h : p key = false)
    (fields : Fields) : Fields.get? (fields.filter fun e => p e.1) key = none := by
  refine Fields.get?_eq_none_iff.2 fun hmem => ?_
  rcases List.mem_map.1 hmem with ⟨e, he, rfl⟩
  have hkept : p e.1 = true := (List.mem_filter.1 he).2
  rw [h] at hkept
  cases hkept

namespace Definition

/-! ## What is shown of a definition -/

/-- A definition has nothing that only the compiler reads. -/
structure Free (d : Definition) : Prop where
  includes : Fields.get? d.fields includeKey = none
  key : Fields.get? d.fields keyKey = none
  attributeIncludes : ∀ attributes : Fields,
    Fields.get? d.fields attributesKey = some (.obj attributes) →
      Fields.get? attributes includeKey = none

/-- A document that is the same as one without directives has none. -/
theorem Free.of_same {d copy : Definition} (hcopy : copy.Free) (h : d.same copy = true) :
    d.Free := by
  refine ⟨get?_eq_none_of_same h hcopy.includes, get?_eq_none_of_same h hcopy.key, ?_⟩
  intro attributes hattributes
  rcases (same_iff.1 h).2 _ (Fields.mem_of_get?_eq_some hattributes) with ⟨value, hvalue, hsame⟩
  cases value with
  | obj others =>
    have hsame : (⟨attributes⟩ : Definition).same ⟨others⟩ = true := hsame
    exact get?_eq_none_of_same hsame (hcopy.attributeIncludes others hvalue)
  | _ => cases hsame

/-- The fields of a rendered copy have nothing that only the compiler reads. -/
theorem free_renderedFields (d : Definition) : (⟨d.renderedFields⟩ : Definition).Free := by
  have hgone {key : String} (hkey : (key != includeKey && key != keyKey) = false) :
      Fields.get? d.renderedFields key = none := by
    rw [renderedFields_eq, Fields.get?_map_values fun key value =>
      if key = attributesKey then value.withoutInclude else value]
    rw [Fields.get?_filter_eq_none (p := fun key => key != includeKey && key != keyKey) hkey]
    rfl
  refine ⟨hgone (by simp), hgone (by simp), fun attributes hattributes => ?_⟩
  rw [get?_renderedFields_attributes] at hattributes
  rcases Option.map_eq_some_iff.1 hattributes with ⟨value, -, hvalue⟩
  cases value with
  | obj fields =>
    cases hvalue
    exact Fields.get?_filter_eq_none (p := fun key => key != includeKey) (by simp) fields
  | _ => cases hvalue

/-- What is shown of a definition is the same document as its rendered copy. -/
theorem Renders.same {shown d : Definition} (h : shown.Renders d) (hd : d.WellFormed) :
    shown.same ⟨d.renderedFields⟩ = true := by
  rcases h with rfl | hsame
  · rw [← withoutDirectives_eq hd.distinct]
    exact Json.same_self hd.withoutDirectives
  · exact hsame

/-- What is shown of a definition has nothing that only the compiler reads. -/
theorem Renders.free {shown d : Definition} (h : shown.Renders d) (hd : d.WellFormed) :
    shown.Free :=
  d.free_renderedFields.of_same (h.same hd)

end Definition

namespace Compilation

section

variable {repository : Repository} {options : Options} {plan : Plan}
  {structural dictionary identifiers : List Operation}
  (hr : repository.Sound)
  (h : PlannedAs options (.ofRepository repository) plan structural dictionary identifiers)

include h

/-- What copies are planned to are entries of the schema. -/
theorem eq_entry_of_copies {source target : Location} (hcopies : plan.Copies source target)
    {part : Section} (hpart : target.kind = .schema part) :
    target = .entry part target.name ∧ (part = .baseEvent → target.name = Planner.baseEvent) := by
  have htarget := part?_ne_of_copies h hcopies
  rcases exists_entry_of_mem_sourcesOf h htarget ((copies_iff_mem_sourcesOf h htarget).1 hcopies)
    with ⟨d, -, -, hentry⟩
  rcases (Planner.part?_of_mem_entriesOf hentry).2 with ⟨part', key, rfl⟩
  cases hpart
  refine ⟨rfl, ?_⟩
  rintro rfl
  exact Planner.eq_baseEvent_of_mem_entriesOf hentry

/-- What the last planner renders to an entry is planned to be copied there. -/
theorem copies_of_mem_entriesOf {source target : Location} {d : Definition}
    (hd : (seenByRendering options repository structural dictionary identifiers).get? source =
      some d) (hcore : source.isCore = true)
    (hentry : target ∈ Planner.entriesOf options
      (seenByRendering options repository structural dictionary identifiers).declaredNames
      source d) : plan.Copies source target := by
  have hop := Planner.mem_render_of_mem_entriesOf hd hcore hentry
  unfold Plan.Copies
  rw [operationsFor_eq_targeting h (Planner.emits_render hop).part?_target_ne]
  exact Operation.mem_targeting.2 ⟨hop, rfl⟩

include hr

/-- What is shown under a key is the definition at an entry that the key stands for. -/
theorem exists_entry_of_lookup {part : Section} {key : String} {copy : Definition}
    (hlookup : (Schema.render (finalDraft options repository plan)).lookup part key = some copy) :
    ∃ target, Schema.Fills target part key ∧ target.part? ≠ none ∧
      (finalDraft options repository plan).get? target = some copy := by
  have hpart : part ≠ .version := by
    rintro rfl
    cases hlookup
  by_cases hbase : part = .baseEvent
  · subst hbase
    exact ⟨.entry .baseEvent Planner.baseEvent, ⟨rfl, Or.inl rfl⟩, Option.some_ne_none _,
      (lookup_render_compiled hr h hpart fun _ => rfl).symm.trans hlookup⟩
  · exact ⟨.entry part key, ⟨rfl, Or.inr rfl⟩, Option.some_ne_none _,
      (lookup_render_compiled hr h hpart fun heq => absurd heq hbase).symm.trans hlookup⟩

/-- What is at an entry is shown under every key that the entry stands for. -/
theorem lookup_of_fills {part : Section} (hpart : part ≠ .version) {target : Location}
    {key : String} (hfills : Schema.Fills target part key) {copy : Definition}
    (hcopy : (finalDraft options repository plan).get? target = some copy) :
    (Schema.render (finalDraft options repository plan)).lookup part key = some copy := by
  rcases eq_entry_of_get? hr h hfills.1 hcopy with ⟨heq, hbase, -⟩
  have hget := lookup_render_compiled hr h hpart hbase
  rw [← heq, hcopy] at hget
  rcases hfills.2 with rfl | rfl
  · exact hget
  · exact hget

/-- A complete schema has an entry exactly if a copy is planned to it. -/
theorem isSome_lookup_iff_copies
    (hmissing : missing (finalDraft options repository plan) plan = []) {part : Section}
    (hpart : part ≠ .version) (key : String) :
    ((Schema.render (finalDraft options repository plan)).lookup part key).isSome = true ↔
      ∃ source target, plan.Copies source target ∧ Schema.Fills target part key := by
  constructor
  · intro hsome
    rcases Option.isSome_iff_exists.1 hsome with ⟨copy, hcopy⟩
    rcases exists_entry_of_lookup hr h hcopy with ⟨target, hfills, htarget, hget⟩
    rcases exists_source_of_get? hr h htarget hget with ⟨source, hsource, -⟩
    exact ⟨source, target, (copies_iff_mem_sourcesOf h htarget).2 hsource, hfills⟩
  · rintro ⟨source, target, hcopies, hfills⟩
    have htarget := part?_ne_of_copies h hcopies
    rcases exists_get?_of_missing h hmissing htarget
      ((copies_iff_mem_sourcesOf h htarget).1 hcopies) with ⟨copy, hcopy⟩
    rw [lookup_of_fills hr h hpart hfills hcopy]
    rfl

/-- What is shown under a key renders a location that is copied there and has not failed. -/
theorem exists_copies_of_lookup {part : Section} {key : String} {copy : Definition}
    (hlookup : (Schema.render (finalDraft options repository plan)).lookup part key = some copy) :
    ∃ source target d, plan.Copies source target ∧ Schema.Fills target part key ∧
      (finalDraft options repository plan).get? source = some d ∧
      (finalDraft options repository plan).failure? source = none ∧ copy.Renders d := by
  rcases exists_entry_of_lookup hr h hlookup with ⟨target, hfills, htarget, hget⟩
  rcases exists_source_of_get? hr h htarget hget with ⟨source, hsource, d, hshown, hd, hrenders⟩
  have hintact := (Bool.and_eq_true_iff.1 (isIntact_of_shown? hshown)).1
  exact ⟨source, target, d, (copies_iff_mem_sourcesOf h htarget).2 hsource, hfills, hd,
    Option.isNone_iff_eq_none.1 hintact, hrenders⟩

end

/--
Rendering is sound.  The keys of each section are those that copies are planned to, and there is a
base event exactly if one is planned.  Whatever a schema shows has no references to files and no key
of its own; without these it is the same document as the compiled definition of a location that is
planned to be copied there and has not failed.
-/
theorem rendering_is_sound {repository : Repository} {options : Options}
    {analyzed compiled : Compilation} {plan : Plan} {schema : Schema}
    (hrepository : repository.Reachable)
    (hanalyze : (ofRepository repository options).analyze = .ok analyzed)
    (hplan : analyzed.stage.plan? = some plan) (hcompile : analyzed.compile = .ok compiled)
    (hschema : compiled.schema = .ok schema) :
    (∀ part, part ≠ .version → ∀ key, (schema.lookup part key).isSome = true ↔
      ∃ source target, plan.Copies source target ∧ Schema.Fills target part key) ∧
    ∀ part key copy, schema.lookup part key = some copy →
      copy.Free ∧ ∃ source target d, plan.Copies source target ∧ Schema.Fills target part key ∧
        compiled.draft.get? source = some d ∧ compiled.draft.failure? source = none ∧
        copy.same ⟨d.renderedFields⟩ = true := by
  rcases exists_plannedAs_of_schema hanalyze hcompile hschema with
    ⟨plan', structural, dictionary, identifiers, h, hstage, hdraft, hmissing, rfl⟩
  rw [hstage] at hplan
  cases hplan
  have hr := hrepository.sound
  rw [hdraft] at hmissing ⊢
  refine ⟨fun part hpart key => isSome_lookup_iff_copies hr h hmissing hpart key, ?_⟩
  intro part key copy hlookup
  rcases exists_copies_of_lookup hr h hlookup with
    ⟨source, target, d, hcopies, hfills, hd, hfailure, hrenders⟩
  have hwellFormed := wellFormed_compiled hr h source d hd
  exact ⟨hrenders.free hwellFormed, source, target, d, hcopies, hfills, hd, hfailure,
    hrenders.same hwellFormed⟩

/-! ## An object with references and a key -/

/-- An object that states a key and refers to a file twice. -/
def referringObject : List (Path × Json) :=
  [(⟨"includes/common.json"⟩, .obj [("caption", .str "Common"),
      ("attributes", .obj [("uid", .obj [("type", .str "string_t")])])]),
    (⟨"objects/a.json"⟩, .obj [("name", .str "a"), ("key", .str "k"),
      ("$include", .str "includes/common.json"),
      ("attributes", .obj [("$include", .str "includes/common.json")])])]

theorem reachable_of_referringObject {repository : Repository}
    (h : Repository.ofFiles referringObject = .ok repository) : repository.Reachable := by
  refine Repository.Reachable.empty.insertFiles (fun file hfile => ?_) h
  simp only [referringObject, List.mem_cons, List.not_mem_nil, or_false] at hfile
  rcases hfile with rfl | rfl <;> simp [Json.WellFormed, Json.WellFormedFields]

/-- The object is shown under its key and not under its name, without key and references. -/
theorem referring_object_is_shown_freely :
    ∃ way : Way, ∃ copy, Repository.ofFiles referringObject = .ok way.repository ∧
      way.schema.lookup .objects "k" = some copy ∧ copy.Free ∧
      way.schema.lookup .objects "a" = none ∧
      ∃ source target, way.plan.Copies source target ∧ Schema.Fills target .objects "k" := by
  have hview : (wayOf referringObject).map (fun way =>
      ((way.schema.lookup .objects "k").isSome, (way.schema.lookup .objects "a").isSome)) =
      some (true, false) := by decide +kernel
  rcases exists_of_wayOf hview with ⟨way, hfiles, hanalyze, hplan, hcompile, hschema, hshown⟩
  rcases Prod.mk.inj hshown with ⟨hkey, hname⟩
  rcases rendering_is_sound (reachable_of_referringObject hfiles) hanalyze hplan hcompile hschema
    with ⟨-, hsound⟩
  rcases Option.isSome_iff_exists.1 hkey with ⟨copy, hcopy⟩
  rcases hsound .objects "k" copy hcopy with ⟨hfree, source, target, d, hcopies, hfills, -⟩
  exact ⟨way, copy, hfiles, hcopy, hfree, by simpa using hname, source, target, hcopies, hfills⟩

end Compilation

end EventSchema
