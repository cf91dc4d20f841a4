import EventSchema.Proofs.Agreement
import EventSchema.Proofs.SourceTables
import EventSchema.Proofs.WellFormed

/-!
# Authored definitions

A repository is filled by inserting files, one after another.  Documents never repeat a key, so the
definitions of such a repository are well formed, and no file defines an entry of the rendered
schema.  Runs of operations keep the keys of all definitions distinct, and those that compose
definitions keep them well formed.

Main results:

- {lit}`Repository.Reachable.sound`: what holds of every repository that files were inserted into.
- {lit}`Operation.distinct_runAll`: a run keeps keys distinct.
- {lit}`Operation.wellFormed_runAll`: a run that composes definitions keeps them well formed.
-/

namespace EventSchema

open Std

namespace Json

/-- Each value of well-formed fields is well formed. -/
theorem wellFormed_of_mem {fields : Fields} (h : WellFormedFields fields) {e : String × Json}
    (he : e ∈ fields) : e.2.WellFormed := by
  induction fields with
  | nil => cases he
  | cons e' rest ih =>
    rcases e' with ⟨k, v⟩
    rw [WellFormedFields] at h
    rcases List.mem_cons.1 he with rfl | he
    · exact h.1
    · exact ih h.2 he

end Json

namespace Repository

/-- Repositories that files have been inserted into, whether they were accepted or not. -/
inductive Reachable : Repository → Prop
  | empty : Reachable .empty
  | insertFile {r : Repository} (before : Reachable r) (path : Path) {value : Json}
      (hvalue : value.WellFormed) : Reachable (r.insertFile path value).1
  | stamp {r : Repository} (before : Reachable r) (fingerprint : Option String) :
      Reachable { r with fingerprint }

/-- Definitions are well formed, and none is an entry of the rendered schema. -/
structure Sound (r : Repository) : Prop where
  wellFormed : ∀ l d, r.get? l = some d → d.WellFormed
  part? : ∀ l d, r.get? l = some d → l.part? = none

/-- What has been read has no field twice. -/
theorem Sound.distinct {r : Repository} (h : r.Sound) (l : Location) (d : Definition)
    (hd : r.get? l = some d) : d.Distinct :=
  (h.wellFormed l d hd).distinct

/-- What a file may define: a well-formed definition at a location outside of the schema. -/
def Entry.Sound (e : Entry) : Prop := ∀ d, e.2 = .ok d → d.WellFormed ∧ e.1.part? = none

/-- An insertion keeps a repository sound, given that what is inserted may be defined. -/
theorem Sound.insert {r : Repository} (h : r.Sound) (path : Path) {l : Location} {d : Definition}
    (he : Entry.Sound (l, .ok d)) : (r.insert path l d).1.Sound := by
  obtain ⟨existing, -, heq⟩ | ⟨-, heq⟩ := r.insert_cases path l d
  · rw [heq]
    exact h
  · obtain ⟨hd, hl⟩ := he d rfl
    have hget := get?_insert heq
    rw [heq]
    constructor
    · intro k e hk
      rw [hget] at hk
      split at hk
      · exact Option.some.inj hk ▸ hd
      · exact h.wellFormed k e hk
    · intro k e hk
      rw [hget] at hk
      split at hk
      · rename_i heq
        exact heq ▸ hl
      · exact h.part? k e hk

/-! ## What files define -/

/-- The owner of a location does not make it an entry of the schema. -/
theorem part?_owned (extension : Option String) (l : Location) :
    (owned extension l).part? = l.part? := by
  cases extension <;> rfl

/-- A well-formed value is a sound entry outside of the schema. -/
theorem sound_entry {l : Location} (hl : l.part? = none) {value : Json} (h : value.WellFormed) :
    Entry.Sound (entry l value) := by
  unfold entry
  intro d hd
  cases value with
  | obj fields =>
    cases hd
    exact ⟨h, hl⟩
  | _ => cases hd

/-- An object in well-formed fields is well formed. -/
theorem wellFormed_objectAt {fields : Fields} (h : Json.WellFormedFields fields) (key : String) :
    Json.WellFormedFields (objectAt fields key) := by
  unfold objectAt
  cases hget : Fields.get? fields key with
  | none => trivial
  | some value =>
    have hvalue := Json.wellFormed_of_get? h hget
    cases value with
    | obj inner =>
      rw [Json.WellFormed] at hvalue
      exact hvalue.2
    | _ => trivial

/-- The entries of a well-formed dictionary are sound. -/
theorem sound_dictionaryEntries (extension : Option String) {fields : Fields}
    (h : Json.WellFormedFields fields) :
    ∀ e ∈ dictionaryEntries extension fields, Entry.Sound e := by
  intro e he
  rcases List.mem_append.1 he with he | he
  · rcases List.mem_map.1 he with ⟨field, hfield, rfl⟩
    exact sound_entry (part?_owned extension _)
      (Json.wellFormed_of_mem (wellFormed_objectAt h _) hfield)
  · rcases List.mem_map.1 he with ⟨field, hfield, rfl⟩
    exact sound_entry (part?_owned extension _)
      (Json.wellFormed_of_mem (wellFormed_objectAt (wellFormed_objectAt h _) _) hfield)

/-- A well-formed category is a sound entry, also if its name is added. -/
theorem sound_categoryEntry (extension : Option String) (name : String) {value : Json}
    (h : value.WellFormed) : Entry.Sound (categoryEntry extension name value) := by
  have hentry := sound_entry (part?_owned extension (.inCore .category name)) h
  unfold categoryEntry
  generalize entry (owned extension (.inCore .category name)) value = found at hentry
  rcases found with ⟨l, read⟩
  intro d hd
  cases read with
  | error defect => cases hd
  | ok original =>
    rcases hentry original rfl with ⟨horiginal, hl⟩
    refine ⟨?_, hl⟩
    cases hd
    dsimp only
    split
    · exact horiginal
    · exact horiginal.set "name" (by simp [Json.WellFormed])

/-- What a file defines, if it defines anything. -/
theorem sound_contents {extension : Option String} {place : List String} {fields : Fields}
    (h : (Json.obj fields).WellFormed) {found : Contents}
    (hfound : contents extension place fields = .ok found) : ∀ e ∈ found.list, Entry.Sound e := by
  have hsingle {l : Location} (hl : l.part? = none) :
      ∀ e ∈ (Contents.single l ⟨fields⟩).list, Entry.Sound e := by
    intro e he
    cases List.mem_singleton.1 he
    intro d hd
    cases hd
    exact ⟨h, hl⟩
  have hwhole (l : Location) (hl : l.part? = none) :
      ∀ e ∈ (Contents.single (owned extension l) ⟨fields⟩).list, Entry.Sound e :=
    hsingle ((part?_owned extension l).trans hl)
  have hfields : Json.WellFormedFields fields := by
    rw [Json.WellFormed] at h
    exact h.2
  unfold contents at hfound
  dsimp only at hfound
  split at hfound
  · cases hfound
    exact sound_dictionaryEntries extension hfields
  · cases hfound
    intro e he
    rcases List.mem_map.1 he with ⟨field, hfield, rfl⟩
    exact sound_categoryEntry extension field.1
      (Json.wellFormed_of_mem (wellFormed_objectAt hfields _) hfield)
  · split at hfound
    · cases hfound
      exact hsingle rfl
    · cases hfound
  · split at hfound
    · split at hfound
      · cases hfound
        exact hwhole _ rfl
      · cases hfound
    · cases hfound
      exact hwhole _ rfl
  all_goals cases hfound
  all_goals exact hwhole _ rfl

/-- What a file defines is well formed and not in the schema. -/
theorem sound_entriesOf {value : Json} (h : value.WellFormed) (path : Path) :
    ∀ e ∈ entriesOf (path, value), Entry.Sound e := by
  unfold entriesOf
  cases hfound : contentsOf? (path, value) with
  | none => simp
  | some found =>
    obtain ⟨fields, rfl, hcontents⟩ := contentsOf?_eq_some_iff.1 hfound
    exact sound_contents h hcontents

/-- A repository stays sound when a well-formed document is inserted. -/
theorem Sound.insertFile {r : Repository} (h : r.Sound) (path : Path) {value : Json}
    (hvalue : value.WellFormed) : (r.insertFile path value).1.Sound :=
  insertFile_preserves h (fun _ _ _ hmem hr => hr.insert path (sound_entriesOf hvalue path _ hmem))
    fun _ _ _ _ _ hr => ⟨hr.wellFormed, hr.part?⟩

/-- What holds of every repository that files were inserted into. -/
theorem Reachable.sound {r : Repository} (h : r.Reachable) : r.Sound := by
  induction h with
  | empty => exact ⟨by simp, by simp⟩
  | insertFile _ path hvalue ih => exact ih.insertFile path hvalue
  | stamp _ fingerprint ih => exact ⟨ih.wellFormed, ih.part?⟩

/-- Every definition of a repository that files were inserted into came from a file. -/
theorem Reachable.aligned {r : Repository} (h : r.Reachable) : r.Aligned := by
  induction h with
  | empty => exact aligned_empty
  | insertFile _ path _ ih => exact ih.insertFile path _
  | stamp _ fingerprint ih => exact ih

/-- A repository of files is one that files were inserted into. -/
theorem Reachable.insertFiles {r next : Repository} (h : r.Reachable) {files : List (Path × Json)}
    (hfiles : ∀ file ∈ files, file.2.WellFormed) (hnext : r.insertFiles files = .ok next) :
    next.Reachable := by
  induction files generalizing r with
  | nil =>
    cases hnext
    exact h
  | cons file rest ih =>
    have hhere := h.insertFile file.1 (hfiles file List.mem_cons_self)
    rw [Repository.insertFiles] at hnext
    split at hnext
    · cases hnext
    · rename_i after hafter
      rw [hafter] at hhere
      exact ih hhere (fun other ho => hfiles other (List.mem_cons_of_mem file ho)) hnext

end Repository

/-! ## Runs -/

namespace Draft

@[simp]
theorem get?_ofRepository (r : Repository) (l : Location) : (ofRepository r).get? l = r.get? l := by
  simp [ofRepository, get?]

@[simp]
theorem failure?_ofRepository (r : Repository) (l : Location) :
    (ofRepository r).failure? l = none := by
  simp [ofRepository, failure?]

/-- All definitions of a draft have distinct keys. -/
def Distinct (draft : Draft) : Prop := ∀ l d, draft.get? l = some d → d.Distinct

/-- All definitions of a draft are well formed. -/
def WellFormed (draft : Draft) : Prop := ∀ l d, draft.get? l = some d → d.WellFormed

/-- A location without a definition counts as well formed. -/
theorem WellFormed.getD_get? {draft : Draft} (h : draft.WellFormed) (l : Location) :
    ((draft.get? l).getD default).WellFormed := by
  cases hcurrent : draft.get? l with
  | none => exact Definition.wellFormed_default
  | some before => exact h l before hcurrent

/-- A draft of a sound repository is well formed. -/
theorem wellFormed_ofRepository {r : Repository} (h : r.Sound) : (ofRepository r).WellFormed := by
  intro l d hget
  rw [get?_ofRepository] at hget
  exact h.wellFormed l d hget

end Draft

namespace Operation

/-- An operation that edits attributes needs its target. -/
theorem createsTarget_of_editsAttributes {op : Operation} (h : op.editsAttributes = true) :
    op.action.createsTarget = false := by
  unfold editsAttributes at h
  cases haction : op.action <;> simp [haction, Action.createsTarget] at h ⊢

/-- An operation that needs its target has found it when it is applied. -/
theorem exists_get?_of_applied {op : Operation} {draft : Draft} {options : Options}
    {d : Definition} {changes : List FieldPath}
    (h : op.outcome draft options = .applied d changes) (hop : op.action.createsTarget = false) :
    ∃ before, draft.get? op.target = some before := by
  cases hget : draft.get? op.target with
  | some before => exact ⟨before, rfl⟩
  | none =>
    unfold outcome at h
    split at h
    · cases h
    · simp [apply, hget, hop] at h

/-- What an operation shows at a target that it does not create was there before, or is what the edit
has made of that. -/
theorem exists_get?_of_run {op : Operation} (hop : op.action.createsTarget = false) {draft : Draft}
    {options : Options} {d : Definition} (h : (op.run draft options).get? op.target = some d) :
    ∃ before, draft.get? op.target = some before ∧ (d = before ∨ ∃ revision,
      op.edit draft options before = .ok revision ∧ revision.definition = d) := by
  obtain ⟨before, hbefore⟩ : ∃ before, draft.get? op.target = some before := by
    rcases get?_run_cases h with hkept | ⟨-, revision, -, rfl⟩
    · exact ⟨d, hkept⟩
    · rw [op.get?_run_target] at h
      split at h
      · rename_i hout
        exact exists_get?_of_applied hout hop
      · exact ⟨_, h⟩
  refine ⟨before, hbefore, ?_⟩
  rcases get?_run_cases h with hkept | ⟨-, revision, hedit, rfl⟩
  · exact Or.inl (Option.some.inj (hkept.symm.trans hbefore))
  · rw [hbefore] at hedit
    exact Or.inr ⟨revision, hedit, rfl⟩

/-- An operation doubles no field. -/
theorem distinct_run {draft : Draft} (h : draft.Distinct) (op : Operation) (options : Options) :
    (op.run draft options).Distinct := by
  intro l d hget
  rcases get?_run_cases hget with hbefore | ⟨-, revision, hedit, rfl⟩
  · exact h l d hbefore
  · refine distinct_edit h ?_ hedit
    cases hcurrent : draft.get? l with
    | none => exact Definition.distinct_default
    | some current => exact h l current hcurrent

/-- What only its attributes are edited of has its other fields from before. -/
theorem attributesOnly_run {op : Operation} {draft : Draft} {options : Options}
    (hop : op.editsAttributes = true) {d : Definition}
    (hget : (op.run draft options).get? op.target = some d) :
    ∃ before, draft.get? op.target = some before ∧ before.AttributesOnly d := by
  rcases exists_get?_of_run (createsTarget_of_editsAttributes hop) hget with
    ⟨before, hbefore, rfl | ⟨revision, hedit, rfl⟩⟩
  · exact ⟨d, hbefore, .refl d⟩
  · exact ⟨before, hbefore, attributesOnly_edit hedit hop⟩

/-- Operations that edit attributes change nothing else, one after another. -/
theorem attributesOnly_runAll {options : Options} {ops : List Operation} {l : Location}
    (hops : ∀ op ∈ ops, op.target = l → op.editsAttributes = true) {draft : Draft}
    {d : Definition} (hget : (runAll options draft ops).get? l = some d) :
    ∃ before, draft.get? l = some before ∧ before.AttributesOnly d := by
  induction ops generalizing draft with
  | nil => exact ⟨d, hget, .refl d⟩
  | cons op rest ih =>
    rcases ih (fun other ho => hops other (List.mem_cons_of_mem op ho)) hget with
      ⟨middle, hmiddle, hrest⟩
    by_cases hl : op.target = l
    · subst hl
      rcases attributesOnly_run (hops op List.mem_cons_self rfl) hmiddle with
        ⟨before, hbefore, hhere⟩
      exact ⟨before, hbefore, hhere.trans hrest⟩
    · rw [op.run_get?_of_ne draft options hl] at hmiddle
      exact ⟨middle, hmiddle, hrest⟩

/-- A run keeps the keys of all definitions distinct. -/
theorem distinct_runAll {draft : Draft} (h : draft.Distinct) (options : Options)
    (ops : List Operation) : (runAll options draft ops).Distinct := by
  induction ops generalizing draft with
  | nil => exact h
  | cons op rest ih => exact ih (distinct_run h op options)

/-- An operation that composes definitions keeps a draft well formed. -/
theorem wellFormed_run {draft : Draft} (h : draft.WellFormed) {op : Operation}
    (hop : op.action.composes = true) (options : Options) : (op.run draft options).WellFormed := by
  intro l d hget
  rcases get?_run_cases hget with hbefore | ⟨-, revision, hedit, rfl⟩
  · exact h l d hbefore
  · exact wellFormed_edit hop h (h.getD_get? l) hedit

/-- A run of operations that compose definitions keeps these well formed. -/
theorem wellFormed_runAll {draft : Draft} (h : draft.WellFormed) (options : Options)
    {ops : List Operation} (hops : ∀ op ∈ ops, op.action.composes = true) :
    (runAll options draft ops).WellFormed := by
  induction ops generalizing draft with
  | nil => exact h
  | cons op rest ih =>
    exact ih (wellFormed_run h (hops op List.mem_cons_self) options)
      fun other ho => hops other (List.mem_cons_of_mem op ho)

end Operation

end EventSchema
