import EventSchema.Proofs.Contributions
import EventSchema.Proofs.RepeatedEdits

/-!
# Exact outcomes

Whether an operation has changed its target is told from the changes that its edit reports.  Every
edit accounts for what it does: where it reports nothing, it leaves the definition as it is.  The one
exception is the copy of a definition of an extension, which reports the fields that are new or
different but not those that go; a copy that only drops fields passes for no change.

Main results:

- {lit}`Operation.accountsFor_edit`: an edit that does not copy and reports nothing changes nothing.
- {lit}`Operation.apply_copyExtension_eq_unchanged_iff`: the copy of a definition is skipped exactly
  if its target has all of its values.
- {lit}`Operation.outcome_is_exact`: an operation leaves its target alone exactly if the edit gives
  the same document, unless it is a copy that only drops fields.
-/

namespace EventSchema

open Std

/-! ## Revisions that account for what they do -/

/-- A revision of a definition that reports no change leaves the definition as it is. -/
def Revision.AccountsFor (revision : Revision) (d : Definition) : Prop :=
  revision.changes = [] → revision.definition = d

namespace Definition

/-- A definition that is left alone is accounted for. -/
theorem accountsFor_unchanged (d : Definition) : d.unchanged.AccountsFor d := fun _ => rfl

/-- One edit that accounts for what it does after another does so as well. -/
theorem accountsFor_andThen {d : Definition} {first : Revision} {edit : Definition → Revision}
    (h : first.AccountsFor d) (hedit : ∀ d, (edit d).AccountsFor d) :
    (Revision.andThen first edit).AccountsFor d := by
  intro hchanges
  obtain ⟨hfirst, hsecond⟩ := List.append_eq_nil_iff.1 hchanges
  exact (hedit first.definition hsecond).trans (h hfirst)

/-- A merge accounts for what it does. -/
theorem accountsFor_merge (d : Definition) (rule : MergeRule) (source : Definition) :
    (d.merge rule source).AccountsFor d := by
  intro hchanges
  have hfields : (d.merge rule source).definition.fields = d.fields :=
    Fields.merge_fst_of_changes rule.overwrite hchanges
  exact congrArg Definition.mk hfields

/-- A merge that leaves the same document leaves the definition. -/
theorem definition_merge_eq_self_of_same {d source : Definition} (hsource : source.WellFormed)
    {rule : MergeRule} (h : d.same (d.merge rule source).definition = true) :
    (d.merge rule source).definition = d := by
  have hmerged := Fields.merge_eq_self_of_same (rule.wellFormed_admitted hsource) h
  exact congrArg (fun merged : Fields × List FieldPath => (⟨merged.1⟩ : Definition)) hmerged

/-- An edit of an object that changes nothing where it reports nothing. -/
def Reports (edit : Fields → Fields × List FieldPath) : Prop :=
  ∀ body, (edit body).2 = [] → (edit body).1 = body

/-- A merge of fields reports what it does. -/
theorem reports_merge (rule : MergeRule) (right : Fields) :
    Reports fun body => rule.apply body right :=
  fun _ hchanges => Fields.merge_fst_of_changes rule.overwrite hchanges

/-- An edit of objects that reports nothing changes nothing if the edit of each does. -/
theorem fst_editObjects_of_changes {edit : String → Fields → Fields × List FieldPath}
    (h : ∀ name, Reports (edit name)) {fields : Fields}
    (hchanges : (editObjects edit fields).2 = []) : (editObjects edit fields).1 = fields := by
  induction fields with
  | nil => rfl
  | cons e rest ih =>
    obtain ⟨name, value⟩ := e
    cases value with
    | obj body =>
      simp only [editObjects, List.append_eq_nil_iff, List.map_eq_nil_iff] at hchanges
      simp only [editObjects, h name body hchanges.1, ih hchanges.2]
    | _ =>
      simp only [editObjects] at hchanges ⊢
      rw [ih hchanges]

/-- An edit of every attribute accounts for what it does if the edit of each reports it. -/
theorem accountsFor_editSlots (d : Definition)
    {edit : String → Fields → Fields × List FieldPath} (h : ∀ name, Reports (edit name)) :
    (d.editSlots edit).AccountsFor d := by
  intro hchanges
  apply definition_editSlots_eq_self
  intro attributes hattributes
  simp only [editSlots, hattributes, List.map_eq_nil_iff] at hchanges
  exact fst_editObjects_of_changes h hchanges

/-- An edit of all attributes accounts for what it does if the edit of each reports it. -/
theorem accountsFor_editAttributes (d : Definition)
    {edit : String → Fields → Fields × List FieldPath} (h : ∀ name, Reports (edit name)) :
    (d.editAttributes edit).AccountsFor d := by
  apply accountsFor_editSlots
  intro name body
  cases hplain : isDirective name with
  | true => simp
  | false => simpa using h name body

/-- An edit of types accounts for what it does if the edit of each attribute reports it. -/
theorem accountsFor_editTyped (d : Definition) (kind : Kind)
    {edit : Fields → Fields × List FieldPath} (h : Reports edit) :
    (d.editTyped kind edit).AccountsFor d := by
  unfold editTyped
  split
  · intro hchanges
    exact congrArg Definition.mk (h d.fields hchanges)
  · exact d.accountsFor_editAttributes fun _ => h

/-- An edit of one attribute accounts for what it does if it reports it. -/
theorem accountsFor_of_editSlot? {d : Definition} {name : String}
    {edit : Fields → Fields × List FieldPath} (hedit : Reports edit) {revision : Revision}
    (h : d.editSlot? name edit = some revision) : revision.AccountsFor d := by
  intro hchanges
  obtain ⟨body, hbody, rfl⟩ := Option.map_eq_some_iff.1 h
  simp only [List.map_eq_nil_iff] at hchanges
  simp only [hedit body hchanges, insertAttribute_eq_self hbody]

/-- An edit of one attribute, or another if it is not there, accounts for what it does if both do. -/
theorem accountsFor_getD_editSlot? (d : Definition) (name : String)
    {edit : Fields → Fields × List FieldPath} (hedit : Reports edit) {other : Revision}
    (hother : other.AccountsFor d) : ((d.editSlot? name edit).getD other).AccountsFor d := by
  cases h : d.editSlot? name edit with
  | none => exact hother
  | some revision => exact accountsFor_of_editSlot? hedit h

/-! ## Every edit but a copy -/

/-- Annotations are reported. -/
theorem accountsFor_annotate (d : Definition) : d.annotate.AccountsFor d := by
  unfold annotate
  split
  · exact d.accountsFor_unchanged
  · exact d.accountsFor_editAttributes fun _ => reports_merge _ _

/-- Removed attributes are reported. -/
theorem accountsFor_removeProfile (d : Definition) (profile : String) (options : Options) :
    (d.removeProfile profile options).AccountsFor d := by
  intro hchanges
  cases hattributes : d.attributes? with
  | none => rw [d.removeProfile_noAttributes profile options hattributes, unchanged]
  | some attributes =>
    simp only [removeProfile, hattributes, List.map_eq_nil_iff, List.filter_eq_nil_iff] at hchanges ⊢
    have hall : attributes.filter (fun e => !isInactive profile options e.2) = attributes := by
      rw [List.filter_eq_self]
      intro e he
      simpa using hchanges e he
    rw [hall, set_attributes_eq_self hattributes]

/-- New enumeration members are reported. -/
theorem accountsFor_setEnum (d : Definition) (name : String) (members : Fields) :
    (d.setEnum name members).AccountsFor d := by
  rw [setEnum_eq]
  apply accountsFor_getD_editSlot?
  · intro body hchanges
    cases hcurrent : (Fields.get? body enumKey).any (· == .obj members) with
    | true => simp [enumerate, hcurrent]
    | false => simp [enumerate, hcurrent] at hchanges
  · intro hchanges
    cases hchanges

/-- A new caption is reported. -/
theorem accountsFor_labelAttribute (d : Definition) (name label : String) :
    (d.labelAttribute name label).AccountsFor d := by
  rw [labelAttribute_eq]
  apply accountsFor_getD_editSlot? _ _ _ d.accountsFor_unchanged
  intro body hchanges
  cases htext : (Fields.get? body "description").bind Json.str? with
  | none => simp only [labelObject, htext]
  | some text =>
    by_cases hsame : labelled text label = text
    · simp only [labelObject, htext, hsame, if_true]
    · simp [labelObject, htext, hsame] at hchanges

/-- The numbers and names of a category are reported. -/
theorem accountsFor_assignCategory (d : Definition) (uid : Int) (label : String)
    (description : Option String) : (d.assignCategory uid label description).AccountsFor d :=
  accountsFor_andThen (d.accountsFor_setEnum _ _) fun d => d.accountsFor_labelAttribute _ _

/-- The numbers and names of a class are reported. -/
theorem accountsFor_assignClass (d : Definition) (uid : Int) (label : String)
    (description : Option String) : (d.assignClass uid label description).AccountsFor d := by
  apply accountsFor_andThen
  · apply accountsFor_andThen
    · split
      · exact d.accountsFor_unchanged
      · intro hchanges
        cases hchanges
    · intro d
      exact d.accountsFor_setEnum _ _
  · intro d
    exact d.accountsFor_labelAttribute _ _

/-- The types of a class are reported. -/
theorem accountsFor_assignTypes {d : Definition} {classUid : Int} {label : String}
    {revision : Revision} (h : d.assignTypes classUid label = .ok revision) :
    revision.AccountsFor d := by
  rcases assignTypes_eq_ok h with ⟨-, rfl⟩ | ⟨members, -, rfl⟩
  · exact d.accountsFor_unchanged
  · exact d.accountsFor_setEnum _ _

/-- A new observable is reported. -/
theorem accountsFor_assignObservable (d : Definition) (name : String) (id : Int) :
    (d.assignObservable name id).AccountsFor d := by
  rw [assignObservable_eq]
  apply accountsFor_getD_editSlot? _ _ _ d.accountsFor_unchanged
  intro body hchanges
  by_cases hsame : observable? body = some id
  · simp [observe, hsame]
  · simp [observe, hsame] at hchanges

/-- New observables are reported. -/
theorem accountsFor_assignObservables (d : Definition) (assignments : ExtTreeMap String Int) :
    (d.assignObservables assignments).AccountsFor d := by
  have hfold (items : List (String × Int)) (revision : Revision) (h : revision.AccountsFor d) :
      (items.foldl (fun revision e =>
        Revision.andThen revision fun d => d.assignObservable e.1 e.2) revision).AccountsFor d := by
    induction items generalizing revision with
    | nil => exact h
    | cons e rest ih =>
      apply ih
      exact accountsFor_andThen h fun d => d.accountsFor_assignObservable e.1 e.2
  exact hfold assignments.toList d.unchanged d.accountsFor_unchanged

/-- New prefixes are reported. -/
theorem accountsFor_prefixTypes (d : Definition) (kind : Kind)
    (renames : ExtTreeMap String String) : (d.prefixTypes kind renames).AccountsFor d := by
  apply accountsFor_editTyped
  intro body hchanges
  cases hnew : (typeOf? body).bind (renames[·]?) with
  | none => simp only [hnew]
  | some new => simp only [hnew, List.cons_ne_nil] at hchanges

/-- New types of objects are reported. -/
theorem accountsFor_setObjectTypes {d : Definition} {kind : Kind}
    {objects : ExtTreeMap String (Option String)} {revision : Revision}
    (h : d.setObjectTypes kind objects = .ok revision) : revision.AccountsFor d := by
  rw [eq_editTyped_of_setObjectTypes h]
  apply accountsFor_editTyped
  intro body hchanges
  cases htype : typeOf? body with
  | none => simp only [makeReference, htype]
  | some type =>
    cases hprimitive : isPrimitive type with
    | true => simp [makeReference, htype, hprimitive]
    | false =>
      cases hcaption : objects[type]? with
      | none => simp [makeReference, htype, hprimitive, hcaption]
      | some caption => simp [makeReference, htype, hprimitive, hcaption] at hchanges

/-- New siblings are reported. -/
theorem accountsFor_addSiblings (d : Definition) : d.addSiblings.AccountsFor d := by
  intro hchanges
  have hnone : d.missingSiblings = [] := List.map_eq_nil_iff.1 hchanges
  rw [addSiblings, hnone]
  rfl

/-! ## Copies -/

/-- No key differs in a copy exactly if the definition has every value of it. -/
theorem differingKeys_eq_nil_iff {d copy : Definition} (hcopy : copy.Distinct) :
    d.differingKeys copy = [] ↔ d.Carries copy := by
  refine ⟨carries_of_differingKeys, fun h => ?_⟩
  rw [differingKeys, List.map_eq_nil_iff, List.filter_eq_nil_iff]
  intro e he
  obtain ⟨mine, hmine, hsame⟩ := h e.1 e.2 ((Fields.get?_eq_some_iff_mem hcopy).2 he)
  have hequal : (mine == e.2) = true := hsame
  simp [hmine, bne, hequal]

/-- A copy drops fields of a definition and changes nothing else. -/
def OnlyDrops (d copy : Definition) : Prop :=
  d.Carries copy ∧ ∃ key ∈ Fields.keys d.fields, key ∉ Fields.keys copy.fields

/-- A definition that has every value of a copy is the same document, unless fields are dropped. -/
theorem Carries.same {d copy : Definition} (h : d.Carries copy) (hd : d.Distinct)
    (hcopy : copy.Distinct) (hdrops : ¬ d.OnlyDrops copy) : d.same copy = true := by
  apply same_of_values hd hcopy
  · intro key hkey
    by_contra hgone
    exact hdrops ⟨h, key, hkey, hgone⟩
  · intro e he
    exact h e.1 e.2 ((Fields.get?_eq_some_iff_mem hcopy).2 he)

end Definition

namespace Operation

/-- An edit that does not copy and reports nothing leaves the definition as it is. -/
theorem accountsFor_edit {op : Operation} (hop : op.action.createsTarget = false) {draft : Draft}
    {options : Options} {d : Definition} {revision : Revision}
    (h : op.edit draft options d = .ok revision) : revision.AccountsFor d := by
  obtain ⟨target, action⟩ := op
  cases action with
  | tagProfile profile =>
    cases h
    exact d.accountsFor_editSlots fun _ => Definition.reports_merge _ _
  | annotate =>
    cases h
    exact d.accountsFor_annotate
  | mergeExtension l =>
    obtain ⟨source, -, rfl⟩ := exists_of_map_source h
    exact d.accountsFor_merge _ source
  | includeFrom l scope =>
    obtain ⟨source, -, rfl⟩ := exists_of_map_source h
    cases scope <;> exact d.accountsFor_merge _ source
  | removeProfile profile =>
    cases h
    exact d.accountsFor_removeProfile profile options
  | inherit l =>
    obtain ⟨source, -, rfl⟩ := exists_of_map_source h
    exact d.accountsFor_merge _ source
  | setCategory category =>
    simp only [edit] at h
    split at h
    · cases h
      exact d.accountsFor_unchanged
    · split at h
      · cases h
      · cases h
        intro hchanges
        cases hchanges
  | fillAttribute name l =>
    obtain ⟨entry, -, hfill⟩ := exists_of_bind_source h
    unfold Definition.fillAttribute at hfill
    split at hfill
    · rename_i filled hslot
      cases hfill
      exact Definition.accountsFor_of_editSlot? (Definition.reports_merge _ _) hslot
    · cases hfill
  | assignCategory uid label description =>
    cases h
    exact d.accountsFor_assignCategory uid label description
  | assignClass uid label description conflict =>
    cases conflict with
    | some other => cases h
    | none =>
      cases h
      exact d.accountsFor_assignClass uid label description
  | assignTypes classUid label => exact Definition.accountsFor_assignTypes h
  | assignObservables assignments =>
    cases h
    exact d.accountsFor_assignObservables assignments
  | prefixTypes renames =>
    cases h
    exact d.accountsFor_prefixTypes target.kind renames
  | setObjectTypes objects => exact Definition.accountsFor_setObjectTypes h
  | addSiblings =>
    cases h
    exact d.accountsFor_addSiblings
  | copyExtension l extension key => cases hop
  | copyRendered l => cases hop

section

variable {op : Operation} {draft : Draft} {options : Options} {current : Definition}
  {revision : Revision}

/-- An edit is applied if it reports a change and gives another document. -/
theorem apply_eq (hcurrent : draft.get? op.target = some current)
    (hedit : op.edit draft options current = .ok revision) :
    op.apply draft options =
      if revision.changes.isEmpty || current.same revision.definition then .unchanged
      else .applied revision.definition revision.changes := by
  unfold apply
  simp only [hcurrent, Option.isNone_some, Bool.false_and, Option.getD_some, hedit, outcomeOf]
  rfl

/-- An edit is skipped exactly if it reports no change or gives the same document. -/
theorem apply_eq_unchanged_iff (hcurrent : draft.get? op.target = some current)
    (hedit : op.edit draft options current = .ok revision) :
    op.apply draft options = .unchanged ↔
      revision.changes = [] ∨ current.same revision.definition = true := by
  rw [apply_eq hcurrent hedit]
  split
  · rename_i hsame
    simpa using hsame
  · rename_i hdiffers
    simpa using hdiffers

/-- An operation that merges and does not fail leaves the merge at its target, written or not. -/
theorem get?_run_of_merge {source : Definition} (hsource : source.WellFormed) {rule : MergeRule}
    (hcurrent : draft.get? op.target = some current)
    (hedit : op.edit draft options current = .ok (current.merge rule source))
    (h : (op.outcome draft options).isFailed = false) :
    (op.run draft options).get? op.target = some (current.merge rule source).definition := by
  rcases outcome_cases_of_get? options hcurrent with
    ⟨hfailed, -⟩ | ⟨revision, hother, ⟨-, hget⟩ | ⟨-, hget, hkept⟩⟩
  · rw [h] at hfailed
    cases hfailed
  · cases hedit.symm.trans hother
    exact hget
  · cases hedit.symm.trans hother
    refine hget.trans (congrArg some ?_)
    rcases hkept with hchanges | hsame
    · exact (current.accountsFor_merge rule source hchanges).symm
    · exact (Definition.definition_merge_eq_self_of_same hsource hsame).symm

/-- A copy of a definition of an extension is skipped exactly if its target has all of its values,
whatever other fields the target has. -/
theorem apply_copyExtension_eq_unchanged_iff (hdraft : draft.WellFormed) {target l : Location}
    {extension : String} {key : Option String} {source : Definition}
    (hcurrent : draft.get? target = some current) (hsource : draft.get? l = some source) :
    (⟨target, .copyExtension l extension key⟩ : Operation).apply draft options = .unchanged ↔
      current.Carries (current.copyExtension source extension key).definition := by
  have hedit : (⟨target, .copyExtension l extension key⟩ : Operation).edit draft options current =
      .ok (current.copyExtension source extension key) := by
    simp only [edit, Operation.source, hsource]
    rfl
  have hcopy := Definition.distinct_copyExtension (hdraft l source hsource).distinct current
    extension key
  rw [apply_eq_unchanged_iff hcurrent hedit, ← Definition.differingKeys_eq_nil_iff hcopy]
  constructor
  · rintro (hchanges | hsame)
    · exact hchanges
    · rw [Definition.differingKeys_eq_nil_iff hcopy]
      exact Definition.carries_of_same (hdraft target current hcurrent).distinct hsame
  · exact Or.inl

/-- An edit that reports nothing gives the same document, unless it only drops fields by a copy. -/
theorem same_of_changes_eq_nil (hdraft : draft.WellFormed) (hcurrent : current.WellFormed)
    (hedit : op.edit draft options current = .ok revision)
    (hdrops : ∀ source extension key, op.action = .copyExtension source extension key →
      ¬ current.OnlyDrops revision.definition)
    (hchanges : revision.changes = []) : current.same revision.definition = true := by
  have hafter := (wellFormed_of_edit hdraft hcurrent hedit).distinct
  cases hop : op.action.createsTarget with
  | false =>
    rw [accountsFor_edit hop hedit hchanges]
    exact Json.same_self hcurrent
  | true =>
    obtain ⟨target, action⟩ := op
    cases action with
    | copyExtension l extension key =>
      obtain ⟨source, -, rfl⟩ := exists_of_map_source hedit
      have hcarries := Definition.carries_of_differingKeys hchanges
      exact hcarries.same hcurrent.distinct hafter (hdrops l extension key rfl)
    | copyRendered l =>
      obtain ⟨source, -, rfl⟩ := exists_of_map_source hedit
      exact Definition.same_of_changes_eq_nil hcurrent.distinct hafter hchanges
    | _ => cases hop

/--
An operation on a definition that is there leaves it alone exactly if the edit gives the same
document, and otherwise gives that document with at least one change.  The exception is the copy of a
definition of an extension that does nothing but drop fields of its target.
-/
theorem outcome_is_exact (hdraft : draft.WellFormed)
    (hcurrent : draft.get? op.target = some current)
    (hedit : op.edit draft options current = .ok revision)
    (hdrops : ∀ source extension key, op.action = .copyExtension source extension key →
      ¬ current.OnlyDrops revision.definition) :
    (op.apply draft options = .unchanged ↔ current.same revision.definition = true) ∧
      (current.same revision.definition = false →
        op.apply draft options = .applied revision.definition revision.changes ∧
          revision.changes ≠ []) := by
  have hsame (hchanges : revision.changes = []) : current.same revision.definition = true :=
    same_of_changes_eq_nil hdraft (hdraft _ _ hcurrent) hedit hdrops hchanges
  rw [apply_eq_unchanged_iff hcurrent hedit]
  constructor
  · constructor
    · rintro (hchanges | hequal)
      · exact hsame hchanges
      · exact hequal
    · exact Or.inr
  · intro hdiffers
    have hreported : revision.changes ≠ [] := by
      intro hchanges
      rw [hsame hchanges] at hdiffers
      cases hdiffers
    rw [apply_eq hcurrent hedit]
    simp [hdiffers, hreported]

end

/-- An object, and an object of an extension with the same name and a caption. -/
def captionedHost : Draft :=
  ((Draft.ofRepository .empty).write (.inCore .object "host") ⟨[("name", .str "host")]⟩).write
    ((Location.inCore .object "host").inExtension "net")
    ⟨[("name", .str "host"), ("caption", .str "Host")]⟩

/-- The object of the extension takes the place of the other one. -/
def replaceHost : Operation :=
  ⟨.inCore .object "host",
    .copyExtension ((Location.inCore .object "host").inExtension "net") "net" none⟩

/-- A copy with more fields than its target is applied. -/
theorem host_is_replaced :
    let current : Definition := ⟨[("name", .str "host")]⟩
    let copied : Definition :=
      ⟨[("name", .str "host"), ("caption", .str "Host"), ("src_extension", .str "net")]⟩
    captionedHost.WellFormed ∧ captionedHost.get? replaceHost.target = some current ∧
      replaceHost.edit captionedHost {} current =
        .ok ⟨copied, [["caption"], ["src_extension"]]⟩ ∧
      ¬ current.OnlyDrops copied ∧ current.same copied = false ∧
      replaceHost.apply captionedHost {} = .applied copied [["caption"], ["src_extension"]] := by
  intro current copied
  have hdraft : captionedHost.WellFormed := by
    refine (Draft.wellFormed_empty.write _ ?_).write _ ?_ <;>
      simp [Definition.WellFormed, Definition.toJson, Json.WellFormed, Json.WellFormedFields]
  have htarget : captionedHost.get? replaceHost.target = some current := by
    simp [captionedHost, replaceHost, current, Draft.get?_write, Location.inCore,
      Location.inExtension]
  have hsource : captionedHost.get? ((Location.inCore .object "host").inExtension "net") =
      some ⟨[("name", .str "host"), ("caption", .str "Host")]⟩ := by
    simp [captionedHost, Draft.get?_write]
  have hedit : replaceHost.edit captionedHost {} current =
      .ok ⟨copied, [["caption"], ["src_extension"]]⟩ := by
    simp only [replaceHost, edit, source, hsource]
    rfl
  have hdrops : ¬ current.OnlyDrops copied := by
    rintro ⟨-, key, hkey, hgone⟩
    simp only [current, copied, Fields.keys, List.map_cons, List.map_nil, List.mem_cons,
      List.not_mem_nil, or_false] at hkey hgone
    exact hgone (Or.inl hkey)
  have hdiffers : current.same copied = false := rfl
  have hexact := outcome_is_exact hdraft htarget hedit fun _ _ _ _ => hdrops
  exact ⟨hdraft, htarget, hedit, hdrops, hdiffers, (hexact.2 hdiffers).1⟩

end Operation

namespace Compilation

open Operation

/-- Two extensions of the same name with an object of the same name, only one with a caption. -/
def copiedTwice : List (Path × Json) :=
  [(⟨"extensions/a/extension.json"⟩, .obj [("name", .str "e")]),
    (⟨"extensions/a/objects/x.json"⟩, .obj [("name", .str "x"), ("caption", .str "X")]),
    (⟨"extensions/b/extension.json"⟩, .obj [("name", .str "e")]),
    (⟨"extensions/b/objects/x.json"⟩, .obj [("name", .str "x")])]

/-- The second operation of extensions reports no change although it would make one. -/
def conceals (seen : Draft) : Bool :=
  match Planner.applyExtensions seen {} with
  | [first, second] =>
    ((first.run seen {}).get? second.target).any fun current =>
      (second.edit (first.run seen {}) {} current).toOption.any fun revision =>
        revision.changes.isEmpty && !current.same revision.definition
  | _ => false

/-- An operation of an extension may be skipped although its edit would change the target. -/
theorem smaller_copy_is_skipped :
    ¬ ∀ files repository options seen, Repository.ofFiles files = .ok repository →
      seenBy options (.ofRepository repository) .extension = .ok seen →
      ∀ before op after, Planner.applyExtensions seen options = before ++ op :: after →
        ∀ current revision, (runAll options seen before).get? op.target = some current →
          op.edit (runAll options seen before) options current = .ok revision →
          (op.apply (runAll options seen before) options = .unchanged ↔
            current.same revision.definition = true) := by
  intro hclaim
  have hview : (seenByExtensions copiedTwice).map conceals = some true := by decide +kernel
  obtain ⟨repository, seen, hfiles, hseen, hconceals⟩ := exists_of_seenByExtensions hview
  unfold conceals at hconceals
  split at hconceals
  · rename_i first second hops
    simp only [Option.any_eq_true, Bool.and_eq_true, Bool.not_eq_true', List.isEmpty_iff]
      at hconceals
    obtain ⟨current, hcurrent, revision, hedit, hchanges, hdiffers⟩ := hconceals
    have hedit := eq_ok_of_toOption hedit
    have hexact := hclaim copiedTwice repository {} seen hfiles hseen [first] second [] hops
      current revision hcurrent hedit
    rw [hexact.1 ((apply_eq_unchanged_iff hcurrent hedit).2 (Or.inl hchanges))] at hdiffers
    cases hdiffers
  · cases hconceals

end Compilation

end EventSchema
