import EventSchema.Proofs.ExtensionTable
import EventSchema.Proofs.TypeIdentifiers

/-!
# The arithmetic of identifiers

Categories, identifiers and types of classes are stated one after another, and each planner reads
what the one before has written.  What a class states in the end follows from the draft in front of
the first of them: its identifier is the exact sum of what its extension, its category and the class
itself contribute, and its types are the exact sums of that identifier and its activities.

Main results:

- {lit}`Planner.classUid?_congr`: what the identifier of a class depends on.
- {lit}`Planner.exists_runAll_assignClasses`: what a class that is granted an identifier states.
- {lit}`Compilation.identifiers_are_exact`: what a class states once all three planners are through.
-/

namespace EventSchema

open Std

namespace Draft

/-- What the name of a category means depends on the categories. -/
theorem category?_congr {left right : Draft}
    (h : ∀ l, l.kind = .category → left.get? l = right.get? l) (name : String) :
    left.category? name = right.category? name := by
  have hkind (l : Location) (hl : l.kind ∈ [Kind.category]) : l.kind = .category :=
    List.mem_singleton.1 hl
  rw [category?, category?, find?_congr fun l _ hl => h l (hkind l hl)]
  cases hfound : right.find? [.category] name none with
  | none => rfl
  | some l =>
    obtain ⟨d, hmem⟩ := exists_of_find? hfound
    exact h l (hkind l (mem_core.1 hmem).2.2)

/-- The identifier of the category of a definition, if the category is known and has one. -/
def categoryUid? (draft : Draft) (d : Definition) : Option Int :=
  (d.category?.bind draft.category?).bind Definition.uid?

/-- The identifier of the extension that a definition came from, or zero. -/
def extensionUid (draft : Draft) (d : Definition) : Int :=
  (d.sourceExtension?.bind ((Planner.extensionUids draft)[·]?)).getD 0

/-- The sum of what extension, category and class contribute to the identifier of a class. -/
def composedUid (draft : Draft) (d : Definition) (own : Int) : Int :=
  draft.extensionUid d * 100000 + (draft.categoryUid? d).getD 0 * 1000 + own

end Draft

namespace Planner

open Operation

/-! ## What identifiers depend on -/

theorem classUid?_eq {draft : Draft} {l : Location} {d : Definition} {own : Int}
    (hown : d.uid? = some own) :
    classUid? draft (extensionUids draft) l d =
      Definition.classUid? (draft.extensionUid d) ((draft.categoryUid? d).getD 0) own := by
  simp only [classUid?, hown]
  rfl

/-- The identifier of a class is the exact sum, where it is composed. -/
theorem eq_composedUid_of_classUid? {draft : Draft} {l : Location} {d : Definition} {own uid : Int}
    (hown : d.uid? = some own) (h : classUid? draft (extensionUids draft) l d = some uid) :
    uid = draft.composedUid d own :=
  Definition.classUid?_eq_some ((classUid?_eq hown).symm.trans h)

section

variable {left right : Draft}
  (h : ∀ l, l.kind = .category ∨ l.kind = .extension → left.get? l = right.get? l)
  {d after : Definition} (hafter : d.AttributesOnly after)

include h hafter

/-- Where categories are the same, a class has the same one. -/
theorem categoryUid?_congr : left.categoryUid? after = right.categoryUid? d := by
  have hcategory : left.category? = right.category? := by
    funext name
    exact Draft.category?_congr (fun l hl => h l (Or.inl hl)) name
  have hname : after.category? = d.category? := hafter.text?_eq (by decide)
  rw [Draft.categoryUid?, Draft.categoryUid?, hcategory, hname]

/-- Where extensions are the same, a class has the same one. -/
theorem extensionUid_congr : left.extensionUid after = right.extensionUid d := by
  have hmark : after.sourceExtension? = d.sourceExtension? := hafter.text?_eq (by decide)
  rw [Draft.extensionUid, Draft.extensionUid, hmark,
    extensionUids_congr fun l hl => h l (Or.inr hl)]

/-- Where categories and extensions are the same, a class has the same sum. -/
theorem composedUid_congr (own : Int) : left.composedUid after own = right.composedUid d own := by
  rw [Draft.composedUid, Draft.composedUid, categoryUid?_congr h hafter,
    extensionUid_congr h hafter]

end

/-! ## Each class is planned for once -/

theorem Emits.exists_assignCategory {op : Operation} (h : categoryUid.Emits op) :
    ∃ uid label description, op.action = .assignCategory uid label description := by
  have haction := h.action
  cases hop : op.action with
  | assignCategory uid label description => exact ⟨uid, label, description, rfl⟩
  | _ =>
    rw [hop] at haction
    exact haction.elim

theorem mem_assignCategories {draft : Draft} {l : Location} {d : Definition}
    (hd : draft.get? l = some d) (hcore : l.isCore = true) (hkind : l.kind = .eventClass)
    {uid : Int} (huid : draft.categoryUid? d = some uid) :
    ∃ label description, ⟨l, .assignCategory uid label description⟩ ∈ assignCategories draft := by
  obtain ⟨category, hcategory, hnumber⟩ := Option.bind_eq_some_iff.1 huid
  refine ⟨(category.caption?.or category.name?).getD "", category.description?, ?_⟩
  refine List.mem_filterMap.2 ⟨(l, d), Draft.mem_core.2 ⟨hd, hcore, by simp [hkind]⟩, ?_⟩
  simp [hcategory, hnumber]

/-- Categories are stated once for each class. -/
theorem pairwise_target_assignCategories (draft : Draft) :
    (assignCategories draft).Pairwise fun a b => a.target ≠ b.target := by
  refine pairwise_target_filterMap fun e op hop => ?_
  obtain ⟨category, -, hop⟩ := Option.bind_eq_some_iff.1 hop
  obtain ⟨uid, -, rfl⟩ := Option.map_eq_some_iff.1 hop
  rfl

theorem pairwise_target_assignClassesFrom {draft : Draft} {uids : ExtTreeMap String Int}
    {entries : List (Location × Definition)} (h : entries.Pairwise fun a b => a.1 ≠ b.1)
    (assigned : ExtTreeMap Int Location) :
    (assignClassesFrom draft uids assigned entries).Pairwise fun a b => a.target ≠ b.target := by
  induction entries generalizing assigned with
  | nil => exact List.Pairwise.nil
  | cons e rest ih =>
    obtain ⟨l, d⟩ := e
    obtain ⟨hhere, hrest⟩ := List.pairwise_cons.1 h
    rw [assignClassesFrom]
    split
    · exact ih hrest assigned
    · refine List.pairwise_cons.2 ⟨fun later hlater => ?_, ih hrest _⟩
      obtain ⟨d', uid, conflict, hmem, -⟩ := mem_assignClassesFrom hlater
      exact hhere _ hmem

/-- Identifiers are stated once for each class. -/
theorem pairwise_target_assignClasses (draft : Draft) :
    (assignClasses draft).Pairwise fun a b => a.target ≠ b.target := by
  refine pairwise_target_assignClassesFrom ?_ ∅
  refine (draft.ordered_core [.eventClass, .event]).imp fun {a b} hlt heq => ?_
  rw [heq, ReflOrd.compare_self] at hlt
  cases hlt

end Planner

/-! ## What one operation makes a class state -/

namespace Operation

variable {op : Operation} {draft : Draft} {options : Options} {d : Definition}

/-- A class that did not fail has the category that was stated as its only member afterwards. -/
theorem exists_memberKeys_run_assignCategory {uid : Int} {label : String}
    {description : Option String} (haction : op.action = .assignCategory uid label description)
    (hdraft : draft.WellFormed) (h : (op.run draft options).failure? op.target = none)
    (hd : draft.get? op.target = some d) :
    ∃ after, (op.run draft options).get? op.target = some after ∧
      (after.memberKeys "category_uid").Perm [toString uid] := by
  refine exists_memberKeys_of_run hdraft h hd fun revision hedit => ?_
  unfold edit at hedit
  simp only [haction] at hedit
  cases hedit
  have hset := d.enumeration?_assignCategory uid label description "category_uid"
  constructor
  · rw [Definition.memberKeys_congr hset]
    exact Definition.memberKeys_setEnum (hdraft _ d hd) (by decide) _
  · intro hchanges
    exact hset.trans (Definition.enumeration?_setEnum_of_changes (by decide)
      (List.append_eq_nil_iff.1 hchanges).1)

/-- A class that did not fail has the identifier that was stated as its only member afterwards. -/
theorem exists_memberKeys_run_assignClass {uid : Int} {label : String} {description : Option String}
    (haction : op.action = .assignClass uid label description none) (hdraft : draft.WellFormed)
    (h : (op.run draft options).failure? op.target = none) (hd : draft.get? op.target = some d) :
    ∃ after, (op.run draft options).get? op.target = some after ∧
      (after.memberKeys "class_uid").Perm [toString uid] := by
  refine exists_memberKeys_of_run hdraft h hd fun revision hedit => ?_
  unfold edit at hedit
  simp only [haction] at hedit
  cases hedit
  have hset := d.enumeration?_assignClass uid label description "class_uid"
  constructor
  · rw [Definition.memberKeys_congr hset]
    refine Definition.memberKeys_setEnum ?_ (by decide) _
    split
    · exact hdraft _ d hd
    · exact (hdraft _ d hd).set "uid" trivial
  · intro hchanges
    -- Without a change the class has had its number, so that only members have been set.
    have hown : d.uid? = some uid := by
      by_contra hne
      simp [Definition.assignClass, Definition.Revision.andThen, hne] at hchanges
    rw [hset]
    rw [if_pos hown]
    refine Definition.enumeration?_setEnum_of_changes (by decide) ?_
    unfold Definition.assignClass at hchanges
    rw [if_pos hown] at hchanges
    exact (List.append_eq_nil_iff.1 (List.append_eq_nil_iff.1 hchanges).1).2

end Operation

namespace Planner

open Operation

/-! ## What each planner makes a class state -/

section

variable {options : Options} {draft : Draft} {l : Location} {d : Definition}

/-- Stating categories keeps all but attributes. -/
theorem exists_attributesOnly_assignCategories (options : Options) (hd : draft.get? l = some d) :
    ∃ after, (runAll options draft (assignCategories draft)).get? l = some after ∧
      d.AttributesOnly after := by
  obtain ⟨after, hafter⟩ := Option.isSome_iff_exists.1
    (contains_runAll options (Draft.contains_of_get? hd) (assignCategories draft))
  have hedits (op : Operation) (hop : op ∈ assignCategories draft) (_ : op.target = l) :
      op.editsAttributes = true := by
    obtain ⟨uid, label, description, haction⟩ :=
      (emits_assignCategories hop).exists_assignCategory
    simp [editsAttributes, haction]
  obtain ⟨before, hbefore, honly⟩ := attributesOnly_runAll hedits hafter
  cases hd.symm.trans hbefore
  exact ⟨after, hafter, honly⟩

/-- Stating categories gives a class that has one its number, and keeps all but attributes. -/
theorem exists_runAll_assignCategories (hdraft : draft.WellFormed) (hd : draft.get? l = some d)
    (hcore : l.isCore = true) (hkind : l.kind = .eventClass)
    (h : (runAll options draft (assignCategories draft)).failure? l = none) :
    ∃ after, (runAll options draft (assignCategories draft)).get? l = some after ∧
      d.AttributesOnly after ∧
      after.enumeration? "activity_id" = d.enumeration? "activity_id" ∧
      ∀ uid, draft.categoryUid? d = some uid →
        after.memberKeys "category_uid" = [toString uid] := by
  have hleaves (op : Operation) (hop : op ∈ assignCategories draft) (_ : op.target = l) :
      LeavesMembersOf "activity_id" op.action := by
    obtain ⟨uid, label, description, haction⟩ :=
      (emits_assignCategories hop).exists_assignCategory
    simp [haction, LeavesMembersOf]
  obtain ⟨after, hafter, honly⟩ := exists_attributesOnly_assignCategories options hd
  refine ⟨after, hafter, honly, ?_, fun uid huid => ?_⟩
  · obtain ⟨before, hbefore, hkept⟩ := enumeration?_runAll (by simp [hkind]) hleaves hafter
    cases hd.symm.trans hbefore
    exact hkept
  · obtain ⟨label, description, hop⟩ := mem_assignCategories hd hcore hkind huid
    obtain ⟨before, hstated, hbefore⟩ :=
      exists_sameAt_runAll (pairwise_target_assignCategories draft) hop options draft
    rw [hstated.failure] at h
    obtain ⟨stated, hget, hkeys⟩ := exists_memberKeys_run_assignCategory rfl
      (hdraft.runAll options before) h (hbefore.definition.trans hd)
    cases hafter.symm.trans (hstated.definition.trans hget)
    exact List.perm_singleton.1 hkeys

/-- A class that is granted an identifier states it, and keeps the members of other attributes. -/
theorem exists_runAll_assignClasses (hdraft : draft.WellFormed) {op : Operation}
    (hop : op ∈ assignClasses draft) (hd : draft.get? op.target = some d) {uid : Int}
    (hgranted : op.grantedUid? = some uid)
    (h : (runAll options draft (assignClasses draft)).failure? op.target = none) :
    ∃ after, (runAll options draft (assignClasses draft)).get? op.target = some after ∧
      after.uid? = some uid ∧ after.memberKeys "class_uid" = [toString uid] ∧
      ∀ name, name ≠ "class_uid" → after.enumeration? name = d.enumeration? name := by
  have hemits := emits_assignClasses hop
  obtain ⟨label, description, haction⟩ := grantedUid?_eq_some_iff.1 hgranted
  obtain ⟨before, hstated, hbefore⟩ :=
    exists_sameAt_runAll (pairwise_target_assignClasses draft) hop options draft
  rw [hstated.failure] at h
  have hwellFormed := hdraft.runAll options before
  obtain ⟨after, hget, hkeys⟩ := exists_memberKeys_run_assignClass haction hwellFormed h
    (hbefore.definition.trans hd)
  obtain ⟨-, stated, hstates, huid⟩ := exists_grantedUid_of_run
    (fun k e he => (hwellFormed k e he).distinct) haction h
  cases hget.symm.trans hstates
  have hafter := hstated.definition.trans hget
  refine ⟨after, hafter, uid?_of_granted hop hgranted huid, List.perm_singleton.1 hkeys, ?_⟩
  intro name hname
  have hkind : op.target.kind ≠ .dictionary := by
    intro hdictionary
    have hkinds := hemits.kind
    rw [hdictionary] at hkinds
    simp [targetKinds] at hkinds
  have hleaves (other : Operation) (hother : other ∈ assignClasses draft)
      (_ : other.target = op.target) : LeavesMembersOf name other.action := by
    obtain ⟨uid, label, description, conflict, haction⟩ :=
      (emits_assignClasses hother).exists_assignClass
    rw [haction]
    exact hname
  obtain ⟨first, hfirst, hkept⟩ := enumeration?_runAll hkind hleaves hafter
  cases hd.symm.trans hfirst
  exact hkept

/-- Stating types gives a class those of its activities, and keeps everything else it states. -/
theorem exists_runAll_assignTypes (hdraft : draft.WellFormed) (hd : draft.get? l = some d)
    (hcore : l.isCore = true) (hkind : l.kind = .eventClass) {uid : Int} (huid : d.uid? = some uid)
    (h : (runAll options draft (assignTypes draft)).failure? l = none) :
    ∃ after, (runAll options draft (assignTypes draft)).get? l = some after ∧
      after.uid? = some uid ∧
      (∀ name, name ≠ "type_uid" → after.memberKeys name = d.memberKeys name) ∧
      (d.activityIds ≠ [] → (after.memberKeys "type_uid").Perm
        (d.activityIds.dedup.map (Definition.typeText uid))) := by
  have hshape (name : String) (hname : name ≠ "type_uid") (op : Operation)
      (hop : op ∈ assignTypes draft) (_ : op.target = l) :
      op.editsAttributes = true ∧ LeavesMembersOf name op.action := by
    obtain ⟨uid, label, haction⟩ := (emits_assignTypes hop).exists_assignTypes
    simp [editsAttributes, haction, LeavesMembersOf, hname]
  obtain ⟨after, hafter⟩ := Option.isSome_iff_exists.1
    (contains_runAll options (Draft.contains_of_get? hd) (assignTypes draft))
  refine ⟨after, hafter, ?_, fun name hname => ?_, fun hids => ?_⟩
  · obtain ⟨before, hbefore, hattributes⟩ := attributesOnly_runAll
      (fun op hop htarget => (hshape "activity_id" (by decide) op hop htarget).1) hafter
    cases hd.symm.trans hbefore
    rw [hattributes.uid?_eq, huid]
  · obtain ⟨before, hbefore, hkept⟩ := enumeration?_runAll (by simp [hkind])
      (fun op hop htarget => (hshape name hname op hop htarget).2) hafter
    cases hd.symm.trans hbefore
    exact Definition.memberKeys_congr hkept
  · exact memberKeys_runAll_assignTypes hdraft hd hcore (by simp [hkind]) huid hids h hafter

end

end Planner

/-- What a class with these activities states, given its identifier and that of its category. -/
structure Definition.StatesNumbers (d : Definition) (uid : Int) (category : Option Int)
    (activities : List Int) : Prop where
  stated : d.uid? = some uid
  classUid : d.memberKeys "class_uid" = [toString uid]
  categoryUid : ∀ number, category = some number → d.memberKeys "category_uid" = [toString number]
  typeUid : activities ≠ [] →
    (d.memberKeys "type_uid").Perm (activities.dedup.map (Definition.typeText uid))

namespace Compilation

open Operation Planner

/-- What the planners for categories, identifiers and types of classes propose in turn. -/
def numberOperations (options : Options) (draft : Draft) : List Operation :=
  let categories := assignCategories draft
  let categorised := runAll options draft categories
  let classes := assignClasses categorised
  categories ++ (classes ++ assignTypes (runAll options categorised classes))

theorem proposes_numberOperations (options : Options) (draft : Draft) :
    Proposes options draft [.categoryUid, .classUid, .typeUid]
      (numberOperations options draft) := by
  unfold numberOperations
  dsimp only
  rw [← List.append_nil (assignTypes _)]
  exact .cons rfl (.cons rfl (.cons rfl (.nil _)))

/-- Only the planner for classes grants identifiers. -/
theorem mem_assignClasses_of_grantedUid? {options : Options} {draft : Draft} {op : Operation}
    (hop : op ∈ numberOperations options draft) {uid : Int} (h : op.grantedUid? = some uid) :
    op ∈ assignClasses (runAll options draft (assignCategories draft)) := by
  obtain ⟨label, description, haction⟩ := grantedUid?_eq_some_iff.1 h
  simp only [numberOperations, List.mem_append] at hop
  rcases hop with hop | hop | hop
  · obtain ⟨uid, label, description, hother⟩ := (emits_assignCategories hop).exists_assignCategory
    rw [haction] at hother
    cases hother
  · exact hop
  · obtain ⟨uid, label, hother⟩ := (emits_assignTypes hop).exists_assignTypes
    rw [haction] at hother
    cases hother

/-- Stating categories leaves the definitions alone on which identifiers depend. -/
theorem get?_runAll_assignCategories (options : Options) (draft : Draft) {l : Location}
    (hl : l.kind = .category ∨ l.kind = .extension) :
    (runAll options draft (assignCategories draft)).get? l = draft.get? l := by
  refine (sameAt_runAll_of_forall_ne options (fun op hop heq => ?_) draft).definition
  have hkind := List.mem_singleton.1 (emits_assignCategories hop).kind
  rw [← heq, hkind] at hl
  rcases hl with hl | hl <;> cases hl

/--
The planners for categories, identifiers and types can always be run in turn.  A class in core that
is granted an identifier and has not failed in the end states the exact sum of what its extension,
its category and itself contribute, the number of its category, and the exact sums for its
activities.
-/
theorem identifiers_are_exact {draft : Draft} (hdraft : draft.WellFormed) (options : Options) :
    Proposes options draft [.categoryUid, .classUid, .typeUid] (numberOperations options draft) ∧
      ∀ l d own, l.isCore = true → l.kind = .eventClass → draft.get? l = some d →
        d.uid? = some own →
        (∃ op ∈ numberOperations options draft, op.target = l ∧ op.grantedUid?.isSome = true) →
        (runAll options draft (numberOperations options draft)).failure? l = none →
        ∃ after, (runAll options draft (numberOperations options draft)).get? l = some after ∧
          after.StatesNumbers
            (draft.extensionUid d * 100000 + (draft.categoryUid? d).getD 0 * 1000 + own)
            (draft.categoryUid? d) d.activityIds := by
  refine ⟨proposes_numberOperations options draft, ?_⟩
  rintro l d own hcore hkind hd hown ⟨op, hop, rfl, hgrants⟩ hfailure
  obtain ⟨uid, hgranted⟩ := Option.isSome_iff_exists.1 hgrants
  have hclass := mem_assignClasses_of_grantedUid? hop hgranted
  unfold numberOperations at hfailure ⊢
  dsimp only at hfailure ⊢
  rw [runAll_append, runAll_append] at hfailure ⊢
  have hclasses := (Option.or_eq_none_iff.1 ((failure?_runAll options _ _ _).symm.trans hfailure)).1
  have hcategories :=
    (Option.or_eq_none_iff.1 ((failure?_runAll options _ _ _).symm.trans hclasses)).1
  -- Each planner starts from what the one before has made of the class.
  obtain ⟨first, hfirst, honly, hactivities, hcategory⟩ :=
    exists_runAll_assignCategories hdraft hd hcore hkind hcategories
  have hcategorised := hdraft.runAll options (assignCategories draft)
  obtain ⟨second, hsecond, huid, hkey, hkept⟩ :=
    exists_runAll_assignClasses hcategorised hclass hfirst hgranted hclasses
  obtain ⟨third, hthird, hnumber, hothers, htypes⟩ := exists_runAll_assignTypes
    (hcategorised.runAll options _) hsecond hcore hkind huid hfailure
  have hsum : uid = draft.composedUid d own := by
    obtain ⟨d', uid', conflict, hmem, hcomposed, haction⟩ := mem_assignClassesFrom hclass
    obtain ⟨label, description, hgrant⟩ := grantedUid?_eq_some_iff.1 hgranted
    cases hgrant.symm.trans haction
    cases hfirst.symm.trans (Draft.mem_core.1 hmem).1
    rw [eq_composedUid_of_classUid? (honly.uid?_eq.trans hown) hcomposed]
    exact composedUid_congr (fun k hk => get?_runAll_assignCategories options draft hk) honly own
  have hids : second.activityIds = d.activityIds :=
    Definition.activityIds_congr ((hkept _ (by decide)).trans hactivities)
  refine ⟨third, hthird, ?_⟩
  show third.StatesNumbers (draft.composedUid d own) _ _
  rw [← hsum]
  refine ⟨hnumber, ?_, fun number hnumber => ?_, fun hne => ?_⟩
  · rw [hothers _ (by decide), hkey]
  · rw [hothers _ (by decide), Definition.memberKeys_congr (hkept _ (by decide)),
      hcategory number hnumber]
  · rw [← hids]
    exact htypes (hids ▸ hne)

/-- A class of an extension with a category and two activities. -/
def numberedClass : Definition :=
  ⟨[("name", .str "a"), ("uid", Json.ofInt 1), ("category", .str "network"),
    ("src_extension", .str "linux"), activities ["1", "2"]]⟩

/-- That class, its category and its extension. -/
def numberedDraft : Draft :=
  (((Draft.ofRepository .empty).write (.inCore .extension "linux")
    ⟨[("uid", Json.ofInt 2)]⟩).write (.inCore .category "network")
    ⟨[("uid", Json.ofInt 4)]⟩).write (.inCore .eventClass "a") numberedClass

/-- The class states its sum, its category and the sums of its activities. -/
theorem numbered_class_states_its_sums :
    ∃ after, (runAll {} numberedDraft (numberOperations {} numberedDraft)).get?
        (.inCore .eventClass "a") = some after ∧
      after.StatesNumbers (2 * 100000 + 4 * 1000 + 1) (some 4) [1, 2] := by
  have hdraft : numberedDraft.WellFormed := by
    refine ((Draft.wellFormed_empty.write _ ?_).write _ ?_).write _ ?_ <;>
      simp [Definition.WellFormed, Definition.toJson, Json.WellFormed, Json.WellFormedFields,
        Json.ofInt, numberedClass, activities]
  have hthere : numberedDraft.get? (.inCore .eventClass "a") = some numberedClass := by
    rw [numberedDraft, Draft.get?_write, if_pos rfl]
  have hplanned : (numberOperations {} numberedDraft).any (fun op =>
      op.target == .inCore .eventClass "a" && op.grantedUid?.isSome) = true := by decide +kernel
  obtain ⟨op, hop, hgrants⟩ := List.any_eq_true.1 hplanned
  obtain ⟨htarget, hgrants⟩ := Bool.and_eq_true_iff.1 hgrants
  have hintact : ((runAll {} numberedDraft (numberOperations {} numberedDraft)).failure?
      (.inCore .eventClass "a")).isNone = true := by decide +kernel
  have hextension : numberedDraft.extensionUid numberedClass = 2 := by decide +kernel
  have hcategory : numberedDraft.categoryUid? numberedClass = some 4 := by decide +kernel
  have hactivities : numberedClass.activityIds = [1, 2] := by decide +kernel
  obtain ⟨after, hafter, hstates⟩ := (identifiers_are_exact hdraft {}).2 _ _ 1 rfl rfl hthere
    (by decide +kernel) ⟨op, hop, eq_of_beq htarget, hgrants⟩ (Option.isNone_iff_eq_none.1 hintact)
  rw [hextension, hcategory, hactivities] at hstates
  exact ⟨after, hafter, hstates⟩

end Compilation

end EventSchema
