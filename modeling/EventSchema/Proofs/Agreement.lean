import EventSchema.Operation.Basic
import Mathlib.Data.List.Find

/-!
# Drafts that agree on some locations

What an operation makes of a draft depends only on the locations that it consults: its target, its
prerequisites and, when it looks for a category, the categories in core.  It changes nothing but its
target.  So two drafts that agree on a set of locations still agree there after a run, as long as
the set has everything that the operations on it consult.

Main results:

- {lit}`Operation.outcome_congr`: the outcome depends on what is looked at.
- {lit}`Operation.sameAt_run_of_ne`: other locations than the target stay as they are.
- {lit}`Operation.agreeOn_runAll_within`: operations outside of a closed set do not matter to it.
-/

namespace EventSchema

open Std

/-- Two drafts show the same at a location: its definition, its failure and its origin. -/
structure Draft.SameAt (left right : Draft) (l : Location) : Prop where
  definition : left.get? l = right.get? l
  failure : left.failure? l = right.failure? l
  origin : left.origin? l = right.origin? l

/-- Two drafts show the same at every location of a set. -/
def Draft.AgreeOn (S : Location → Prop) (left right : Draft) : Prop :=
  ∀ l, S l → left.SameAt right l

namespace Draft

@[simp]
theorem failure?_write (draft : Draft) (l k : Location) (d : Definition) :
    (draft.write l d).failure? k = draft.failure? k := rfl

@[simp]
theorem origin?_write (draft : Draft) (l k : Location) (d : Definition) :
    (draft.write l d).origin? k = draft.origin? k := rfl

@[simp]
theorem origin?_markFailed (draft : Draft) (l k : Location) (failure : Failure) :
    (draft.markFailed l failure).origin? k = draft.origin? k := rfl

theorem origin?_recordLineage (draft : Draft) (l k origin : Location) :
    (draft.recordLineage l origin).origin? k =
      (draft.origin? k).or (if l = k then some origin else none) := by
  unfold origin? recordLineage
  rw [ExtTreeMap.getElem?_insertIfNew]
  by_cases h : l = k
  · subst h
    by_cases hm : l ∈ draft.lineage
    · simp [hm]
    · simp [hm]
  · simp [h]

theorem SameAt.refl (draft : Draft) (l : Location) : draft.SameAt draft l := ⟨rfl, rfl, rfl⟩

theorem SameAt.symm {left right : Draft} {l : Location} (h : left.SameAt right l) :
    right.SameAt left l :=
  ⟨h.definition.symm, h.failure.symm, h.origin.symm⟩

theorem SameAt.trans {first second third : Draft} {l : Location} (h : first.SameAt second l)
    (h' : second.SameAt third l) : first.SameAt third l :=
  ⟨h.definition.trans h'.definition, h.failure.trans h'.failure, h.origin.trans h'.origin⟩

theorem AgreeOn.refl (S : Location → Prop) (draft : Draft) : AgreeOn S draft draft :=
  fun l _ => .refl draft l

theorem AgreeOn.symm {S : Location → Prop} {left right : Draft} (h : AgreeOn S left right) :
    AgreeOn S right left :=
  fun l hl => (h l hl).symm

theorem AgreeOn.trans {S : Location → Prop} {first second third : Draft}
    (h : AgreeOn S first second) (h' : AgreeOn S second third) : AgreeOn S first third :=
  fun l hl => (h l hl).trans (h' l hl)

/-- Drafts that agree at locations agree at fewer. -/
theorem AgreeOn.mono {S T : Location → Prop} {left right : Draft} (h : AgreeOn S left right)
    (hsub : ∀ l, T l → S l) : AgreeOn T left right :=
  fun l hl => h l (hsub l hl)

/-- The listing of some locations depends on what is seen there. -/
theorem listing_congr {left right : Draft} (wanted : Location → Bool)
    (h : ∀ l, wanted l = true → left.get? l = right.get? l) :
    (left.definitions.toList.filter fun e => wanted e.1) =
      right.definitions.toList.filter fun e => wanted e.1 := by
  have hfilter : (left.definitions.filter fun l _ => wanted l) =
      right.definitions.filter fun l _ => wanted l := by
    ext l : 1
    rw [ExtTreeMap.getElem?_filter', ExtTreeMap.getElem?_filter', getElem?_definitions,
      getElem?_definitions]
    by_cases hl : wanted l = true
    · rw [h l hl]
    · simp only [hl]
      cases left.get? l <;> cases right.get? l <;> rfl
  have hlist := congrArg ExtTreeMap.toList hfilter
  rwa [ExtTreeMap.toList_filter, ExtTreeMap.toList_filter] at hlist

/-- The definitions in core of some kinds depend on what is seen at locations of these kinds. -/
theorem core_congr {left right : Draft} {kinds : List Kind}
    (h : ∀ l, l.isCore = true → l.kind ∈ kinds → left.get? l = right.get? l) :
    left.core kinds = right.core kinds := by
  refine listing_congr (fun l => l.isCore && kinds.contains l.kind) fun l hl => ?_
  obtain ⟨hcore, hkind⟩ := Bool.and_eq_true_iff.1 hl
  exact h l hcore (List.contains_iff_mem.1 hkind)

/-- What a name means depends on what is seen at locations of the kinds in question. -/
theorem find?_congr {left right : Draft} {kinds : List Kind}
    (h : ∀ l, l.isCore = true → l.kind ∈ kinds → left.get? l = right.get? l) (name : String)
    (extension : Option String) :
    left.find? kinds name extension = right.find? kinds name extension := by
  rw [find?, find?, core_congr h]

end Draft

namespace Operation

/-! ## What an operation consults -/

/-- The locations on which the outcome of an operation depends. -/
def Consults (op : Operation) (l : Location) : Prop :=
  l = op.target ∨ l ∈ op.prerequisites ∨
    (∃ category, op.action = .setCategory category) ∧ l.kind = .category

/-- An operation consults its target. -/
theorem consults_target (op : Operation) : op.Consults op.target := Or.inl rfl

/-- An operation consults what it requires. -/
theorem consults_prerequisite {op : Operation} {p : Location} (h : p ∈ op.prerequisites) :
    op.Consults p :=
  Or.inr (Or.inl h)

/-- Of the locations that an operation consults, those that decide its outcome. -/
def LooksAt (op : Operation) (l : Location) : Prop :=
  l = op.target ∨ l ∈ op.prerequisites ∨
    (∃ category, op.action = .setCategory category) ∧ l.kind = .category ∧ l.isCore = true

/-- What an operation looks at it consults. -/
theorem LooksAt.consults {op : Operation} {l : Location} (h : op.LooksAt l) : op.Consults l := by
  rcases h with h | h | ⟨haction, hkind, -⟩
  · exact Or.inl h
  · exact Or.inr (Or.inl h)
  · exact Or.inr (Or.inr ⟨haction, hkind⟩)

/-- An operation looks at its target. -/
theorem looksAt_target (op : Operation) : op.LooksAt op.target := Or.inl rfl

/-- An operation looks at what it requires. -/
theorem looksAt_prerequisite {op : Operation} {p : Location} (h : p ∈ op.prerequisites) :
    op.LooksAt p :=
  Or.inr (Or.inl h)

/-- A source depends on the definition at its location. -/
theorem source_congr {left right : Draft} {l : Location} (h : left.get? l = right.get? l) :
    source left l = source right l := by
  rw [source, source, h]

/-- An edit depends on what the operation looks at. -/
theorem edit_congr {op : Operation} {left right : Draft} (h : Draft.AgreeOn op.LooksAt left right)
    (options : Options) (d : Definition) : op.edit left options d = op.edit right options d := by
  have hsource (l : Location) (hl : op.action.source? = some l) :
      source left l = source right l := by
    apply source_congr
    refine (h l (looksAt_prerequisite ?_)).definition
    simp [prerequisites, hl]
  rcases op with ⟨target, action⟩
  cases action with
  | mergeExtension l => simp only [edit, hsource l rfl]
  | copyExtension l extension key => simp only [edit, hsource l rfl]
  | includeFrom l scope => simp only [edit, hsource l rfl]
  | inherit l => simp only [edit, hsource l rfl]
  | fillAttribute name l => simp only [edit, hsource l rfl]
  | copyRendered l => simp only [edit, hsource l rfl]
  | setCategory category =>
    have hfind : left.find? [.category] category none = right.find? [.category] category none := by
      apply Draft.find?_congr
      intro l hcore hkind
      exact (h l (Or.inr (Or.inr ⟨⟨category, rfl⟩, by simpa using hkind, hcore⟩))).definition
    simp only [edit, hfind]
  | _ => rfl

/-- Whether an operation is blocked depends on what it looks at. -/
theorem blocked?_congr {op : Operation} {left right : Draft}
    (h : Draft.AgreeOn op.LooksAt left right) : op.blocked? left = op.blocked? right := by
  have hfailure : ∀ l ∈ op.prerequisites ++ [op.target],
      (left.failure? l).isSome = (right.failure? l).isSome := by
    intro l hl
    rcases List.mem_append.1 hl with hl | hl
    · rw [(h l (looksAt_prerequisite hl)).failure]
    · rw [List.mem_singleton.1 hl, (h op.target op.looksAt_target).failure]
  rw [blocked?, blocked?, List.find?_congr hfailure]

/-- The outcome of an operation depends on the locations that it looks at. -/
theorem outcome_congr {op : Operation} {left right : Draft}
    (h : Draft.AgreeOn op.LooksAt left right) (options : Options) :
    op.outcome left options = op.outcome right options := by
  have hcurrent := (h op.target op.looksAt_target).definition
  have happly : op.apply left options = op.apply right options := by
    simp only [apply, hcurrent, edit_congr h]
  rw [outcome, outcome, blocked?_congr h, happly]

/-! ## What an operation changes -/

@[simp]
theorem failure?_recordLineage (op : Operation) (draft : Draft) (l : Location) :
    (op.recordLineage draft).failure? l = draft.failure? l := by
  unfold recordLineage
  split <;> rfl

theorem origin?_recordLineage (op : Operation) (draft : Draft) (l : Location) :
    (op.recordLineage draft).origin? l =
      (draft.origin? l).or (if op.target = l then op.action.lineage? else none) := by
  unfold recordLineage
  split <;> rename_i heq
  · rw [Draft.origin?_recordLineage, heq]
  · simp [heq]

/-- An operation leaves every location but its target as it is. -/
theorem sameAt_run_of_ne (op : Operation) (draft : Draft) (options : Options) {l : Location}
    (h : op.target ≠ l) : (op.run draft options).SameAt draft l := by
  refine ⟨op.run_get?_of_ne draft options h, ?_, ?_⟩
  · unfold run commit
    split <;> simp [Draft.failure?_markFailed, h]
  · unfold run commit
    split <;> simp [origin?_recordLineage, h]

/-- An operation fails, or its edit succeeds and is written unless it makes no difference. -/
theorem outcome_cases (op : Operation) (draft : Draft) (options : Options) :
    (∃ cause, op.outcome draft options = .failed cause) ∨
      op.blocked? draft = none ∧ ∃ revision,
        op.edit draft options ((draft.get? op.target).getD default) = .ok revision ∧
        (op.outcome draft options = .applied revision.definition revision.changes ∨
          op.outcome draft options = .unchanged ∧ ∃ d, draft.get? op.target = some d ∧
            (revision.changes = [] ∨ (d == revision.definition) = true)) := by
  unfold outcome
  cases hblocked : op.blocked? draft with
  | some cause => exact Or.inl ⟨cause, rfl⟩
  | none =>
    unfold apply
    dsimp only
    split
    · exact Or.inl ⟨_, rfl⟩
    · cases hedit : op.edit draft options ((draft.get? op.target).getD default) with
      | error cause => exact Or.inl ⟨cause, rfl⟩
      | ok revision =>
        refine Or.inr ⟨rfl, revision, rfl, ?_⟩
        cases hcurrent : draft.get? op.target with
        | none => exact Or.inl rfl
        | some d =>
          by_cases hsame : (revision.changes.isEmpty || d == revision.definition) = true
          · refine Or.inr ⟨if_pos hsame, d, rfl, ?_⟩
            simpa using hsame
          · exact Or.inl (if_neg hsame)

/-- What an operation shows at its target afterwards. -/
theorem get?_run_target (op : Operation) (draft : Draft) (options : Options) :
    (op.run draft options).get? op.target =
      match op.outcome draft options with
      | .applied d _ => some d
      | _ => draft.get? op.target := by
  unfold run
  cases op.outcome draft options <;> simp [commit, Draft.get?_write]

/-- What may come of an operation on a definition that is there. -/
theorem outcome_cases_of_get? {draft : Draft} (options : Options) {op : Operation}
    {d : Definition} (hd : draft.get? op.target = some d) :
    (op.outcome draft options).isFailed = true ∧
        (op.run draft options).get? op.target = some d ∨
      ∃ revision, op.edit draft options d = .ok revision ∧
        (op.outcome draft options = .applied revision.definition revision.changes ∧
            (op.run draft options).get? op.target = some revision.definition ∨
          op.outcome draft options = .unchanged ∧
            (op.run draft options).get? op.target = some d ∧
            (revision.changes = [] ∨ (d == revision.definition) = true)) := by
  rw [op.get?_run_target]
  rcases op.outcome_cases draft options with
    ⟨cause, hout⟩ | ⟨-, revision, hedit, hout | ⟨hout, current, hcurrent, hsame⟩⟩
  · rw [hout]
    exact Or.inl ⟨rfl, hd⟩
  · rw [hd, Option.getD_some] at hedit
    rw [hout]
    exact Or.inr ⟨revision, hedit, Or.inl ⟨rfl, rfl⟩⟩
  · cases hcurrent.symm.trans hd
    rw [hd, Option.getD_some] at hedit
    rw [hout]
    exact Or.inr ⟨revision, hedit, Or.inr ⟨rfl, hd, hsame⟩⟩

/-- What holds of a definition still does after an operation, if the edit of its location keeps
it. -/
theorem exists_get?_run_of_edit {P : Definition → Prop} {draft : Draft} (options : Options)
    {op : Operation} {l : Location} {d : Definition} (hd : draft.get? l = some d) (h : P d)
    (hedit : op.target = l → ∀ revision, op.edit draft options d = .ok revision →
      P revision.definition) :
    ∃ after, (op.run draft options).get? l = some after ∧ P after := by
  by_cases hl : op.target = l
  · subst hl
    rcases outcome_cases_of_get? options hd with
      ⟨-, hget⟩ | ⟨revision, hrevision, ⟨-, hget⟩ | ⟨-, hget, -⟩⟩
    · exact ⟨d, hget, h⟩
    · exact ⟨revision.definition, hget, hedit rfl revision hrevision⟩
    · exact ⟨d, hget, h⟩
  · exact ⟨d, (op.run_get?_of_ne draft options hl).trans hd, h⟩

/-- What a location shows after an operation was there before, or is what its edit led to. -/
theorem get?_run_cases {op : Operation} {draft : Draft} {options : Options} {l : Location}
    {d : Definition} (h : (op.run draft options).get? l = some d) :
    draft.get? l = some d ∨ op.target = l ∧ ∃ revision,
      op.edit draft options ((draft.get? l).getD default) = .ok revision ∧
        revision.definition = d := by
  by_cases hl : op.target = l
  · subst hl
    rw [op.get?_run_target] at h
    rcases op.outcome_cases draft options with
      ⟨cause, hout⟩ | ⟨-, revision, hedit, hout | ⟨hout, -⟩⟩
    · rw [hout] at h
      exact Or.inl h
    · rw [hout] at h
      exact Or.inr ⟨rfl, revision, hedit, Option.some.inj h⟩
    · rw [hout] at h
      exact Or.inl h
  · rw [op.run_get?_of_ne draft options hl] at h
    exact Or.inl h

/-- A target is without failure after an operation if it was before and the operation succeeds. -/
theorem isNone_failure?_run_target (op : Operation) (draft : Draft) (options : Options) :
    ((op.run draft options).failure? op.target).isNone =
      ((draft.failure? op.target).isNone && !(op.outcome draft options).isFailed) := by
  unfold run
  cases op.outcome draft options <;>
    simp [commit, Draft.failure?_markFailed, Outcome.isFailed]

/-- Runs with the same outcome on drafts that show the same at the target do so afterwards. -/
theorem sameAt_run {op : Operation} {left right : Draft} {options : Options}
    (houtcome : op.outcome left options = op.outcome right options)
    (h : left.SameAt right op.target) :
    (op.run left options).SameAt (op.run right options) op.target := by
  rw [run, run, ← houtcome]
  cases op.outcome left options with
  | applied d changes =>
    refine ⟨?_, ?_, ?_⟩
    · simp [commit, Draft.get?_write]
    · simpa [commit] using h.failure
    · simp [commit, origin?_recordLineage, h.origin]
  | unchanged =>
    refine ⟨?_, ?_, ?_⟩
    · simpa [commit] using h.definition
    · simpa [commit] using h.failure
    · simp [commit, origin?_recordLineage, h.origin]
  | failed cause =>
    refine ⟨?_, ?_, h.origin⟩
    · simpa [commit] using h.definition
    · simp [commit, Draft.failure?_markFailed, h.failure]

/-- An operation that consults only locations of a set keeps agreement on the set. -/
theorem agreeOn_run {S : Location → Prop} {op : Operation} {left right : Draft}
    (h : Draft.AgreeOn S left right) (hop : ∀ l, op.Consults l → S l) (options : Options) :
    Draft.AgreeOn S (op.run left options) (op.run right options) := by
  intro l hl
  by_cases htarget : op.target = l
  · subst htarget
    exact sameAt_run (outcome_congr (h.mono fun k hk => hop k hk.consults) options)
      (h op.target hl)
  · exact ((op.sameAt_run_of_ne left options htarget).trans (h l hl)).trans
      (op.sameAt_run_of_ne right options htarget).symm

/-! ## Runs of several operations -/

@[simp]
theorem runAll_nil (options : Options) (draft : Draft) : runAll options draft [] = draft := rfl

/-- The first operation is run first. -/
@[simp]
theorem runAll_cons (options : Options) (draft : Draft) (op : Operation) (ops : List Operation) :
    runAll options draft (op :: ops) = runAll options (op.run draft options) ops := rfl

/-- Operations after others run on the draft that those leave. -/
theorem runAll_append (options : Options) (draft : Draft) (ops more : List Operation) :
    runAll options draft (ops ++ more) = runAll options (runAll options draft ops) more :=
  List.foldl_append

/-- A run leaves every location as it is that no operation targets. -/
theorem sameAt_runAll_of_forall_ne (options : Options) {ops : List Operation} {l : Location}
    (h : ∀ op ∈ ops, op.target ≠ l) (draft : Draft) :
    (runAll options draft ops).SameAt draft l := by
  induction ops generalizing draft with
  | nil => exact .refl draft l
  | cons op rest ih =>
    have hrest := ih (fun other ho => h other (List.mem_cons_of_mem op ho)) (op.run draft options)
    exact hrest.trans (op.sameAt_run_of_ne draft options (h op List.mem_cons_self))

/-- A set has everything that the operations on its locations consult. -/
def Closed (ops : List Operation) (S : Location → Prop) : Prop :=
  ∀ op ∈ ops, S op.target → ∀ l, op.Consults l → S l

/-- The operations on the locations of a set. -/
noncomputable def within (S : Location → Prop) (ops : List Operation) : List Operation :=
  open Classical in ops.filter fun op => S op.target

/-- The operations within some locations are those with a target there. -/
theorem mem_within {S : Location → Prop} {ops : List Operation} {op : Operation} :
    op ∈ within S ops ↔ op ∈ ops ∧ S op.target := by
  simp [within]

/-- Operations within some locations keep their order. -/
theorem within_append (S : Location → Prop) (ops more : List Operation) :
    within S (ops ++ more) = within S ops ++ within S more :=
  List.filter_append ..

/-- An operation with a target at some locations is within them. -/
theorem within_cons_of_mem {S : Location → Prop} {op : Operation} (h : S op.target)
    (ops : List Operation) : within S (op :: ops) = op :: within S ops := by
  simp [within, h]

/-- An operation with another target is not within these locations. -/
theorem within_cons_of_not_mem {S : Location → Prop} {op : Operation} (h : ¬ S op.target)
    (ops : List Operation) : within S (op :: ops) = within S ops := by
  simp [within, h]

/-- Operations within some locations can be turned around before or after. -/
theorem within_reverse (S : Location → Prop) (ops : List Operation) :
    within S ops.reverse = (within S ops).reverse := by
  simp [within]

/-- Operations with all targets at some locations are all within them. -/
theorem within_eq_self {S : Location → Prop} {ops : List Operation} (h : ∀ op ∈ ops, S op.target) :
    within S ops = ops :=
  open Classical in List.filter_eq_self.2 fun op hop => decide_eq_true (h op hop)

/-- Operations outside of a closed set do not matter to it. -/
theorem agreeOn_runAll_within {S : Location → Prop} (options : Options) {ops : List Operation}
    (hclosed : Closed ops S) {left right : Draft} (h : Draft.AgreeOn S left right) :
    Draft.AgreeOn S (runAll options left ops) (runAll options right (within S ops)) := by
  induction ops generalizing left right with
  | nil => exact h
  | cons op rest ih =>
    have hrest : Closed rest S := fun other ho => hclosed other (List.mem_cons_of_mem op ho)
    by_cases hop : S op.target
    · rw [within_cons_of_mem hop, runAll_cons, runAll_cons]
      exact ih hrest (agreeOn_run h (hclosed op List.mem_cons_self hop) options)
    · rw [within_cons_of_not_mem hop, runAll_cons]
      refine ih hrest fun l hl => ?_
      have hne : op.target ≠ l := fun heq => hop (heq ▸ hl)
      exact (op.sameAt_run_of_ne left options hne).trans (h l hl)

end Operation

end EventSchema
