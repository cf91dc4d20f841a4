import EventSchema.Proofs.ProfileRemoval
import EventSchema.Proofs.PartialSchedules
import EventSchema.Proofs.WithoutExtension

/-!
# Drafts without an extension

Two drafts are compared, one over a repository and one over the repository without an extension.
They agree wherever nothing belongs to the extension.  Operations that do not read anything of the
extension keep it so, even if more of them are run on the first draft, as long as these are on
locations of the extension.

Definitions are marked with the extension they were copied from.  A mark comes with a copy or is
taken over from what an operation reads, so definitions outside of the extension never get its mark.

Main results:

- {lit}`Operation.sourceExtension?_edit_cases`: the edits that have to do with marks.
- {lit}`Operation.sourceExtension?_edit`: where the mark of an edited definition comes from.
- {lit}`Draft.KeepsApart.runAll`: definitions outside of an extension do not get its mark.
- {lit}`Draft.Trims.runAll`: a run of operations that spare an extension keeps drafts in agreement.
-/

namespace EventSchema

open Std

namespace Definition

/-! ## Marks -/

/-- Edits of attributes leave the mark of an extension. -/
theorem AttributesOnly.sourceExtension?_eq {before after : Definition}
    (h : before.AttributesOnly after) : after.sourceExtension? = before.sourceExtension? :=
  h.text?_eq (by decide)

/-- To set another field leaves the mark of an extension. -/
theorem sourceExtension?_set (d : Definition) {key : String} (hkey : sourceExtensionKey ≠ key)
    (value : Json) : (d.set key value).sourceExtension? = d.sourceExtension? := by
  unfold sourceExtension? text?
  rw [get?_set_of_ne d value hkey]

/-- The mark of a merge was on one of the two sides. -/
theorem sourceExtension?_merge (d : Definition) {source : Definition} (h : source.Distinct)
    (rule : MergeRule) {mark : String}
    (hmark : (d.merge rule source).definition.sourceExtension? = some mark) :
    d.sourceExtension? = some mark ∨ source.sourceExtension? = some mark := by
  have hdistinct : (Fields.keys (source.fields.filter fun e => rule.admits e.1)).Nodup :=
    h.sublist (List.Sublist.map _ List.filter_sublist)
  rcases Fields.get?_merge_cases hdistinct (text?_eq_some_iff.1 hmark) with
    hleft | hright | ⟨l, r, -, -, ⟨⟩⟩ | ⟨items, ⟨⟩⟩
  · exact Or.inl (text?_eq_some_iff.2 hleft)
  · have hadmitted := (List.mem_filter.1 (Fields.mem_of_get?_eq_some hright)).1
    exact Or.inr (text?_eq_some_iff.2 ((Fields.get?_eq_some_iff_mem h).2 hadmitted))

/-- A copy is marked with its extension. -/
theorem sourceExtension?_copyExtension (d source : Definition) (extension : String)
    (key : Option String) :
    (d.copyExtension source extension key).definition.sourceExtension? = some extension := by
  have hmarked : (source.set sourceExtensionKey (.str extension)).sourceExtension? =
      some extension := by
    unfold sourceExtension? text?
    rw [get?_set_self source sourceExtensionKey rfl]
    rfl
  cases key with
  | none => exact hmarked
  | some key => exact (sourceExtension?_set _ (by decide) _).trans hmarked

/-- Edits of types leave the mark of an extension. -/
theorem sourceExtension?_editTyped (d : Definition) (kind : Kind)
    {edit : Fields → Fields × List FieldPath} (hedit : ∀ body, TypesOnly body (edit body).1) :
    (d.editTyped kind edit).definition.sourceExtension? = d.sourceExtension? := by
  by_cases hkind : kind = .dictionary
  · unfold editTyped
    rw [if_pos hkind]
    unfold sourceExtension? text? Definition.get?
    rw [(hedit d.fields).get? sourceExtensionKey (by decide)]
  · exact (d.attributesOnly_editTyped hkind edit).sourceExtension?_eq

/-- The numbers of a class leave the mark of an extension. -/
theorem sourceExtension?_assignClass (d : Definition) (uid : Int) (label : String)
    (description : Option String) :
    (d.assignClass uid label description).definition.sourceExtension? = d.sourceExtension? := by
  rw [(d.attributesOnly_assignClass uid label description).sourceExtension?_eq]
  split
  · rfl
  · exact sourceExtension?_set d (by decide) _

/-- Without directives a definition keeps the mark of an extension. -/
theorem sourceExtension?_withoutDirectives (d : Definition) :
    d.withoutDirectives.sourceExtension? = d.sourceExtension? := by
  have herase (d : Definition) {key : String} (hkey : sourceExtensionKey ≠ key) :
      (d.erase key).sourceExtension? = d.sourceExtension? := by
    unfold sourceExtension? text? Definition.get? erase
    rw [Fields.get?_erase_of_ne _ hkey]
  have hplain : ((d.erase includeKey).erase keyKey).sourceExtension? = d.sourceExtension? :=
    (herase _ (by decide)).trans (herase _ (by decide))
  unfold withoutDirectives
  dsimp only
  split
  · exact (sourceExtension?_set _ (by decide) _).trans hplain
  · exact hplain

end Definition

namespace Operation

/-- The mark of an edited definition is as it was, or it comes out of a merge or with a copy. -/
theorem sourceExtension?_edit_cases {op : Operation} {draft : Draft} {options : Options}
    {d : Definition} {revision : Revision} (h : op.edit draft options d = .ok revision) :
    revision.definition.sourceExtension? = d.sourceExtension? ∨
      (∃ l source rule, op.action.source? = some l ∧ draft.get? l = some source ∧
        revision = d.merge rule source ∧
        (rule.overwrite = true → op.action = .mergeExtension l)) ∨
      (∃ l extension key, op.action = .copyExtension l extension key ∧
        revision.definition.sourceExtension? = some extension) ∨
      ∃ l source, op.action = .copyRendered l ∧ draft.get? l = some source ∧
        revision.definition.sourceExtension? = source.sourceExtension? := by
  by_cases hop : op.editsAttributes = true
  · exact Or.inl (attributesOnly_edit h hop).sourceExtension?_eq
  rcases op with ⟨target, action⟩
  cases action with
  | mergeExtension l =>
    obtain ⟨source, hsource, rfl⟩ := exists_of_map_source h
    exact Or.inr (Or.inl ⟨l, source, _, rfl, hsource, rfl, fun _ => rfl⟩)
  | copyExtension l extension key =>
    obtain ⟨source, -, rfl⟩ := exists_of_map_source h
    exact Or.inr (Or.inr (Or.inl ⟨l, extension, key, rfl,
      d.sourceExtension?_copyExtension source extension key⟩))
  | includeFrom l scope =>
    obtain ⟨source, hsource, rfl⟩ := exists_of_map_source h
    cases scope <;> exact Or.inr (Or.inl ⟨l, source, _, rfl, hsource, rfl, nofun⟩)
  | inherit l =>
    obtain ⟨source, hsource, rfl⟩ := exists_of_map_source h
    exact Or.inr (Or.inl ⟨l, source, _, rfl, hsource, rfl, nofun⟩)
  | setCategory category =>
    left
    simp only [edit] at h
    split at h
    · cases h
      rfl
    · split at h
      · cases h
      · cases h
        exact Definition.sourceExtension?_set d (by decide) _
  | assignClass uid label description conflict =>
    left
    simp only [edit] at h
    split at h
    · cases h
    · cases h
      exact d.sourceExtension?_assignClass uid label description
  | prefixTypes renames =>
    left
    cases h
    rcases d.exists_typesOnly_of_prefixTypes target.kind renames with ⟨edit, heq, hedit⟩
    rw [heq, d.sourceExtension?_editTyped target.kind hedit]
  | setObjectTypes objects =>
    left
    rcases Definition.exists_typesOnly_of_setObjectTypes h with ⟨edit, rfl, hedit⟩
    exact d.sourceExtension?_editTyped target.kind hedit
  | copyRendered l =>
    obtain ⟨source, hsource, rfl⟩ := exists_of_map_source h
    exact Or.inr (Or.inr (Or.inr ⟨l, source, rfl, hsource,
      source.sourceExtension?_withoutDirectives⟩))
  | _ => exact absurd rfl hop

/-- The mark of an edited definition was there, or on what was read, or it comes with a copy. -/
theorem sourceExtension?_edit {op : Operation} {draft : Draft} (hdraft : draft.Distinct)
    {options : Options} {d : Definition} {revision : Revision}
    (h : op.edit draft options d = .ok revision) {mark : String}
    (hmark : revision.definition.sourceExtension? = some mark) :
    d.sourceExtension? = some mark ∨
      (∃ p ∈ op.prerequisites, ∃ source, draft.get? p = some source ∧
        source.sourceExtension? = some mark) ∨
      ∃ source key, op.action = .copyExtension source mark key := by
  rcases sourceExtension?_edit_cases h with hsame | ⟨l, source, rule, hl, hsource, rfl, -⟩ |
    ⟨l, extension, key, haction, hcopy⟩ | ⟨l, source, haction, hsource, hcopy⟩
  · exact Or.inl (hsame.symm.trans hmark)
  · rcases d.sourceExtension?_merge (hdraft l source hsource) rule hmark with hmine | htheirs
    · exact Or.inl hmine
    · exact Or.inr (Or.inl ⟨l, Option.mem_toList.2 hl, source, hsource, htheirs⟩)
  · cases hcopy.symm.trans hmark
    exact Or.inr (Or.inr ⟨l, key, haction⟩)
  · refine Or.inr (Or.inl ⟨l, Option.mem_toList.2 ?_, source, hsource, hcopy.symm.trans hmark⟩)
    rw [haction]
    rfl

/-! ## Operations that spare an extension -/

/-- The extension location that an operation brings contents from is read. -/
theorem mem_prerequisites_of_lineage? {op : Operation} {origin : Location}
    (h : op.action.lineage? = some origin) : origin ∈ op.prerequisites := by
  rw [prerequisites, Option.mem_toList]
  cases haction : op.action <;> rw [haction] at h <;> cases h <;> rfl

/-- Contents came from an origin before, or an operation brings them from there. -/
theorem origin?_run_cases {op : Operation} {draft : Draft} {options : Options}
    {l origin : Location} (h : (op.run draft options).origin? l = some origin) :
    draft.origin? l = some origin ∨ op.action.lineage? = some origin := by
  have hrecord (draft : Draft) (h : (op.recordLineage draft).origin? l = some origin) :
      draft.origin? l = some origin ∨ op.action.lineage? = some origin := by
    rw [origin?_recordLineage, Option.or_eq_some_iff] at h
    exact h.imp id fun h => (Option.ite_none_right_eq_some.1 h.2).2
  unfold run commit at h
  split at h
  · have hwritten := hrecord _ h
    rwa [Draft.origin?_write] at hwritten
  · exact hrecord draft h
  · exact Or.inl h

/--
An operation has nothing to do with an extension, unless it edits a location of the extension without
reading anything.  It declares no extension, and copies from others only.
-/
structure Spares (extension declared : String) (op : Operation) : Prop where
  reads : ∀ p ∈ op.prerequisites, ¬ op.target.BelongsTo extension ∧ ¬ p.BelongsTo extension
  kind : op.target.kind ≠ .extension
  mark : ∀ source other key, op.action = .copyExtension source other key →
    other ≠ extension ∧ other ≠ declared

end Operation

open Operation

namespace Repository

/-- The list of definitions shows what look-ups find. -/
theorem mem_toList_definitions {r : Repository} {e : Location × Definition} :
    e ∈ r.definitions.toList ↔ r.get? e.1 = some e.2 :=
  ExtTreeMap.mem_toList_iff_getElem?_eq_some

/-- Nothing is marked with the directory or the declared name of an extension. -/
def Unmarked (r : Repository) (extension declared : String) : Prop :=
  ∀ l d, r.get? l = some d →
    d.sourceExtension? ≠ some extension ∧ d.sourceExtension? ≠ some declared

instance (r : Repository) (extension declared : String) :
    Decidable (r.Unmarked extension declared) :=
  decidable_of_iff (∀ e ∈ r.definitions.toList, e.2.sourceExtension? ≠ some extension ∧
    e.2.sourceExtension? ≠ some declared) (by
      constructor
      · exact fun h l d hd => h (l, d) (mem_toList_definitions.2 hd)
      · exact fun h e he => h e.1 e.2 (mem_toList_definitions.1 he))

end Repository

namespace Draft

/-- Outside of an extension nothing has its mark, or came from there. -/
structure KeepsApart (extension declared : String) (draft : Draft) : Prop where
  distinct : draft.Distinct
  declarations : ∀ l, l.kind = .extension → draft.get? l = draft.repository.get? l
  origins : ∀ l origin, draft.origin? l = some origin → ¬ origin.BelongsTo extension
  marks : ∀ l, ¬ l.BelongsTo extension → ∀ d, draft.get? l = some d →
    ∀ mark, d.sourceExtension? = some mark → mark ≠ extension ∧ mark ≠ declared

namespace KeepsApart

variable {extension declared : String} {draft : Draft}

/-- An operation that spares an extension leaves no mark of it elsewhere. -/
theorem marks_run (h : draft.KeepsApart extension declared) {op : Operation}
    (hop : op.Spares extension declared) (options : Options) {l : Location}
    (hl : ¬ l.BelongsTo extension) {d : Definition}
    (hd : (op.run draft options).get? l = some d) {mark : String}
    (hmark : d.sourceExtension? = some mark) : mark ≠ extension ∧ mark ≠ declared := by
  rcases get?_run_cases hd with hbefore | ⟨rfl, revision, hedit, rfl⟩
  · exact h.marks l hl d hbefore mark hmark
  · rcases sourceExtension?_edit h.distinct hedit hmark with
      hmine | ⟨p, hp, source, hsource, htheirs⟩ | ⟨source, key, hcopy⟩
    · cases hcurrent : draft.get? op.target with
      | none =>
        rw [hcurrent] at hmine
        cases hmine
      | some current =>
        rw [hcurrent] at hmine
        exact h.marks _ hl current hcurrent mark hmine
    · exact h.marks p (hop.reads p hp).2 source hsource mark htheirs
    · exact hop.mark source mark key hcopy

/-- An operation that spares an extension keeps its mark from spreading. -/
theorem run (h : draft.KeepsApart extension declared) {op : Operation}
    (hop : op.Spares extension declared) (options : Options) :
    (op.run draft options).KeepsApart extension declared := by
  refine ⟨distinct_run h.distinct op options, fun l hl => ?_, fun l origin horigin => ?_,
    fun l hl d hd mark hmark => h.marks_run hop options hl hd hmark⟩
  · have hne : op.target ≠ l := fun heq => hop.kind (heq ▸ hl)
    rw [op.run_get?_of_ne draft options hne, repository_run, h.declarations l hl]
  · rcases origin?_run_cases horigin with hbefore | hlineage
    · exact h.origins l origin hbefore
    · exact (hop.reads origin (mem_prerequisites_of_lineage? hlineage)).2

/-- A run of operations that spare an extension keeps its mark from spreading. -/
theorem runAll (h : draft.KeepsApart extension declared) (options : Options) {ops : List Operation}
    (hops : ∀ op ∈ ops, op.Spares extension declared) :
    (runAll options draft ops).KeepsApart extension declared := by
  induction ops generalizing draft with
  | nil => exact h
  | cons op rest ih =>
    obtain ⟨hop, hrest⟩ := List.forall_mem_cons.1 hops
    exact ih (h.run hop options) hrest

end KeepsApart

/-! ## Drafts over the rest of a repository -/

/-- A draft over a repository without an extension agrees with one over the whole repository. -/
structure Trims (extension : String) (draft trimmed : Draft) : Prop where
  repository : trimmed.repository = draft.repository.without extension
  agree : AgreeOn (fun l => ¬ l.BelongsTo extension) draft trimmed
  absent : ∀ l, l.BelongsTo extension → trimmed.get? l = none

namespace Trims

variable {extension : String} {draft trimmed : Draft}

/-- A trimmed draft has all definitions but those of the extension. -/
theorem get?_eq (h : draft.Trims extension trimmed) (l : Location) :
    trimmed.get? l = if l.BelongsTo extension then none else draft.get? l := by
  split
  · rename_i hl
    exact h.absent l hl
  · rename_i hl
    exact (h.agree l hl).definition.symm

/-- An operation outside of an extension that reads nothing of it sees the same. -/
theorem outcome_eq (h : draft.Trims extension trimmed) {op : Operation}
    (hop : ¬ op.target.BelongsTo extension)
    (hreads : ∀ p ∈ op.prerequisites, ¬ p.BelongsTo extension) (options : Options) :
    op.outcome draft options = op.outcome trimmed options := by
  refine outcome_congr (h.agree.mono fun l hl => ?_) options
  rcases hl with rfl | hl | ⟨-, hkind, hcore⟩
  · exact hop
  · exact hreads l hl
  · exact Location.not_belongsTo_of_isCore hcore (by simp [hkind]) extension

/-- Both drafts can run an operation that has nothing to do with an extension. -/
theorem run (h : draft.Trims extension trimmed) {op : Operation}
    (hop : ¬ op.target.BelongsTo extension)
    (hreads : ∀ p ∈ op.prerequisites, ¬ p.BelongsTo extension) (options : Options) :
    (op.run draft options).Trims extension (op.run trimmed options) := by
  refine ⟨by rw [repository_run, repository_run, h.repository], fun l hl => ?_, fun l hl => ?_⟩
  · by_cases htarget : op.target = l
    · subst htarget
      exact sameAt_run (h.outcome_eq hop hreads options) (h.agree _ hl)
    · exact ((op.sameAt_run_of_ne draft options htarget).trans (h.agree l hl)).trans
        (op.sameAt_run_of_ne trimmed options htarget).symm
  · have hne : op.target ≠ l := fun heq => hop (heq ▸ hl)
    rw [op.run_get?_of_ne trimmed options hne, h.absent l hl]

/-- An operation on a location of an extension makes no difference outside of it. -/
theorem run_left (h : draft.Trims extension trimmed) {op : Operation}
    (hop : op.target.BelongsTo extension) (options : Options) :
    (op.run draft options).Trims extension trimmed := by
  refine ⟨by rw [repository_run, h.repository], fun l hl => ?_, h.absent⟩
  have hne : op.target ≠ l := fun heq => hl (heq ▸ hop)
  exact (op.sameAt_run_of_ne draft options hne).trans (h.agree l hl)

/-- A run that spares an extension can leave out what is done to the extension. -/
theorem runAll (h : draft.Trims extension trimmed) (options : Options) {ops : List Operation}
    (hops : ReadsWithin (fun l => ¬ l.BelongsTo extension) ops) :
    (runAll options draft ops).Trims extension
      (runAll options trimmed (within (fun l => ¬ l.BelongsTo extension) ops)) := by
  induction ops generalizing draft trimmed with
  | nil => exact h
  | cons op rest ih =>
    obtain ⟨hop, hrest⟩ := List.forall_mem_cons.1 hops
    by_cases htarget : op.target.BelongsTo extension
    · rw [within_cons_of_not_mem (not_not.2 htarget)]
      exact ih (h.run_left htarget options) hrest
    · rw [within_cons_of_mem htarget]
      exact ih (h.run htarget (fun p hp => (hop p hp).2) options) hrest

end Trims

/-! ## Drafts without edits -/

/-- The draft of a repository without an extension is the trimmed one. -/
theorem trims_ofRepository {r : Repository} (hr : r.Placed) (extension : String) :
    (ofRepository r).Trims extension (ofRepository (r.without extension)) := by
  refine ⟨rfl, fun l hl => ⟨?_, by simp, rfl⟩, fun l hl => ?_⟩
  · rw [get?_ofRepository, get?_ofRepository, Repository.get?_without hr, if_neg hl]
  · rw [get?_ofRepository, Repository.get?_without hr, if_pos hl]

/-- At first nothing outside of an extension has its mark, if no definition states it. -/
theorem keepsApart_ofRepository {r : Repository} (hr : r.Reachable) {extension declared : String}
    (hmarks : (r.without extension).Unmarked extension declared) :
    (ofRepository r).KeepsApart extension declared := by
  refine ⟨fun l d hget => ?_, fun l _ => get?_ofRepository r l, fun l origin horigin => ?_,
    fun l hl d hget mark hmark => ?_⟩
  · rw [get?_ofRepository] at hget
    exact hr.sound.distinct l d hget
  · simp [ofRepository, origin?] at horigin
  · have hremains : (r.without extension).get? l = some d := by
      rwa [Repository.get?_without hr.placed, if_neg hl, ← get?_ofRepository]
    obtain ⟨hne, hne'⟩ := hmarks l d hremains
    rw [hmark] at hne hne'
    exact ⟨fun heq => hne (congrArg some heq), fun heq => hne' (congrArg some heq)⟩

end Draft

end EventSchema
