import EventSchema.Proofs.Emission
import EventSchema.Proofs.Inheritance
import Mathlib.Data.List.Perm.Subperm

/-!
# Parents and cycles

Every record has at most one parent.  The walk down the links leaves a record after its children,
except for children that are still open then; such a child is an ancestor of the record, and the two
lie on a cycle.  So a parent that is listed behind its child is on a cycle, and without a cycle the
order has parents first.  The line of a record that is followed for as many steps as there are
records comes to all of its ancestors, which on a cycle are the members of the cycle.

Main results:

- {lit}`Inheritance.mem_order`: the walk leaves every record.
- {lit}`Inheritance.on_cycle_of_lateParent?`: a parent behind its child lies on a cycle.
- {lit}`Inheritance.mem_cycleOf`: what is reported is the cycle.
- {lit}`Planner.inherit_parents_first_or_cycle`: inheritance is planned parents first, exactly once
  for each record with a parent, unless there is a cycle; then one cycle is reported.
-/

namespace EventSchema

open Relation Std

namespace Inheritance

/-- A record and its parent. -/
def Link (i : Inheritance) (child parent : Location) : Prop := i.parents[child]? = some parent

/-- A record and itself or one of its ancestors. -/
def Descends (i : Inheritance) : Location → Location → Prop := ReflTransGen i.Link

/-- Links lead from records to records. -/
structure Closed (i : Inheritance) : Prop where
  child : ∀ {l parent}, i.Link l parent → l ∈ i.records
  parent : ∀ {l parent}, i.Link l parent → parent ∈ i.records

/-- The children of a location are those that are linked to it. -/
theorem mem_children {i : Inheritance} (hclosed : i.Closed) {child l : Location} :
    child ∈ i.children l ↔ i.Link child l := by
  rw [children, List.mem_filter, beq_iff_eq]
  exact ⟨fun h => h.2, fun h => ⟨hclosed.child h, h⟩⟩

/-! ## The walk down the links -/

/-- Each record that has been left comes in front of its children, unless it descends from them. -/
def Arranged (i : Inheritance) (left : List Location) : Prop :=
  ∀ before l after, left = before ++ l :: after → ∀ child, i.Link child l →
    child ∈ after ∨ i.Descends l child

/-- A location may be put in front of its children. -/
theorem Arranged.cons {i : Inheritance} {left : List Location} (h : i.Arranged left) {l : Location}
    (hl : ∀ child, i.Link child l → child ∈ left ∨ i.Descends l child) :
    i.Arranged (l :: left) := by
  intro before k after hsplit child hlink
  cases before with
  | nil =>
    rcases List.cons.inj hsplit with ⟨rfl, rfl⟩
    exact hl child hlink
  | cons first rest =>
    exact h rest k after (List.cons.inj hsplit).2 child hlink

/-- A walk while some records are open: whatever else it has come to, it has left. -/
structure Descent.Sound (i : Inheritance) (opened : List Location) (walk : Descent) : Prop where
  left : ∀ l ∈ walk.discovered, l ∈ walk.left ∨ l ∈ opened
  arranged : i.Arranged walk.left

/-- The number of records that a walk has not come to. -/
def undiscovered (i : Inheritance) (walk : Descent) : Nat :=
  (i.records.filter fun l => l ∉ walk.discovered).length

/-- A walk discovers more and more. -/
theorem undiscovered_le_of_later {i : Inheritance} {before after : Descent}
    (h : before.Later after) : i.undiscovered after ≤ i.undiscovered before := by
  apply List.Sublist.length_le
  apply List.monotone_filter_right
  intro l hl
  simp only [decide_eq_true_eq] at hl ⊢
  exact fun hmem => hl (h.discovered l hmem)

/-- There is less to discover once a record is. -/
theorem undiscovered_cons_lt {i : Inheritance} {walk : Descent} {l : Location}
    (hl : l ∈ i.records) (h : l ∉ walk.discovered) :
    i.undiscovered { walk with discovered := l :: walk.discovered } < i.undiscovered walk := by
  have hsplit : (i.records.filter fun k => k ∉ l :: walk.discovered) =
      (i.records.filter fun k => k ∉ walk.discovered).filter fun k => k ≠ l := by
    rw [List.filter_filter]
    apply List.filter_congr
    intro k _
    simp
  rw [undiscovered, hsplit]
  apply List.length_filter_lt_length_iff_exists.2
  exact ⟨l, List.mem_filter.2 ⟨hl, by simpa using h⟩, by simp⟩

/-- A visit comes to its record, as long as its depth is more than what is left to discover. -/
def DescendSound (i : Inheritance) (depth : Nat) : Prop :=
  ∀ (opened : List Location) (walk : Descent) (l : Location), walk.Sound i opened → l ∈ i.records →
    (∀ k ∈ opened, i.Descends l k) → i.undiscovered walk < depth →
    (i.descend depth walk l).Sound i opened ∧ l ∈ (i.descend depth walk l).discovered

/-- A descent to places one after another is sound if each is, and discovers all of them. -/
theorem foldl_descend_sound {i : Inheritance} {depth : Nat} (hdescend : i.DescendSound depth)
    {opened : List Location} (places : List Location) :
    ∀ walk : Descent, walk.Sound i opened → (∀ l ∈ places, l ∈ i.records) →
      (∀ l ∈ places, ∀ k ∈ opened, i.Descends l k) → i.undiscovered walk < depth →
      (places.foldl (i.descend depth) walk).Sound i opened ∧
        ∀ l ∈ places, l ∈ (places.foldl (i.descend depth) walk).discovered := by
  induction places with
  | nil => exact fun walk h _ _ _ => ⟨h, by simp⟩
  | cons l rest ih =>
    intro walk h hrecords hopened hdepth
    rcases hdescend opened walk l h (hrecords l List.mem_cons_self) (hopened l List.mem_cons_self)
        hdepth with
      ⟨hsound, hmem⟩
    have hlater := i.later_descend depth walk l
    rcases ih (i.descend depth walk l) hsound
        (fun k hk => hrecords k (List.mem_cons_of_mem l hk))
        (fun k hk => hopened k (List.mem_cons_of_mem l hk))
        (Nat.lt_of_le_of_lt (undiscovered_le_of_later hlater) hdepth) with
      ⟨hsound', hmem'⟩
    refine ⟨hsound', fun k hk => ?_⟩
    rcases List.mem_cons.1 hk with rfl | hk
    · exact (later_foldl (i.later_descend depth) rest _).discovered _ hmem
    · exact hmem' k hk

/-- A descent of any depth is sound. -/
theorem descendSound {i : Inheritance} (hclosed : i.Closed) (depth : Nat) :
    i.DescendSound depth := by
  induction depth with
  | zero => exact fun _ _ _ _ _ _ hdepth => absurd hdepth (Nat.not_lt_zero _)
  | succ depth ih =>
    intro opened walk l h hl hopened hdepth
    rw [descend]
    split
    · rename_i hmem
      exact ⟨h, List.contains_iff_mem.1 hmem⟩
    rename_i hnew
    have hl' : l ∉ walk.discovered := fun hmem => hnew (List.contains_iff_mem.2 hmem)
    set entered : Descent := { walk with discovered := l :: walk.discovered } with hentered
    have hsound : entered.Sound i (l :: opened) := by
      refine ⟨fun k hk => ?_, h.arranged⟩
      rcases List.mem_cons.1 hk with rfl | hk
      · exact .inr List.mem_cons_self
      · exact (h.left k hk).imp id (List.mem_cons_of_mem l)
    have hdescends : ∀ child ∈ i.children l, ∀ k ∈ l :: opened, i.Descends child k := by
      intro child hchild k hk
      have hlink : i.Link child l := (mem_children hclosed).1 hchild
      rcases List.mem_cons.1 hk with rfl | hk
      · exact .single hlink
      · exact (hopened k hk).head hlink
    have hless := undiscovered_cons_lt hl hl'
    obtain ⟨hbelow, hall⟩ := foldl_descend_sound ih (i.children l) entered hsound
      (fun child hchild => hclosed.child ((mem_children hclosed).1 hchild)) hdescends
      (Nat.lt_of_lt_of_le hless (Nat.le_of_lt_succ hdepth))
    have hlater := later_foldl (i.later_descend depth) (i.children l) entered
    refine ⟨⟨fun k hk => ?_, hbelow.arranged.cons fun child hlink => ?_⟩,
      hlater.discovered l List.mem_cons_self⟩
    · rcases hbelow.left k hk with hleft | hk
      · exact .inl (List.mem_cons_of_mem l hleft)
      · exact (List.mem_cons.1 hk).imp (fun heq => by rw [heq]; exact List.mem_cons_self) id
    · -- By now the child has been left, or it is open and the record descends from it.
      have hfound := hall child ((mem_children hclosed).2 hlink)
      rcases hbelow.left child hfound with hleft | hopen
      · exact .inl hleft
      · rcases List.mem_cons.1 hopen with rfl | hopen
        · exact .inr .refl
        · exact .inr (hopened child hopen)

/-- The order of a walk puts locations before their children, and covers all records. -/
theorem arranged_order {i : Inheritance} (hclosed : i.Closed) :
    i.Arranged i.order ∧ ∀ l ∈ i.records, l ∈ i.order := by
  have hstart : Descent.Sound i [] {} :=
    ⟨by simp, fun before l after hsplit => by simp at hsplit⟩
  have hdepth : i.undiscovered {} < i.records.length + 1 :=
    Nat.lt_succ_of_le (List.length_filter_le _ _)
  rcases foldl_descend_sound (descendSound hclosed (i.records.length + 1)) i.records {} hstart
      (fun _ h => h) (by simp) hdepth with
    ⟨hsound, hall⟩
  refine ⟨hsound.arranged, fun l hl => ?_⟩
  rcases hsound.left l (hall l hl) with hleft | hopen
  · exact hleft
  · cases hopen

/-- The walk leaves every record. -/
theorem mem_order {i : Inheritance} (hclosed : i.Closed) {l : Location} (hl : l ∈ i.records) :
    l ∈ i.order :=
  (arranged_order hclosed).2 l hl

/-! ## Late parents -/

/-- A parent that is late comes behind its child. -/
theorem exists_split_of_lateParent? {i : Inheritance} {seen items : List Location}
    {parent : Location} (h : i.lateParent? seen items = some parent) :
    ∃ before child after, items = before ++ child :: after ∧ i.Link child parent ∧
      parent ∉ before ∧ parent ∉ seen := by
  induction items generalizing seen with
  | nil => cases h
  | cons l rest ih =>
    have hlater (h : i.lateParent? (l :: seen) rest = some parent) :
        ∃ before child after, l :: rest = before ++ child :: after ∧ i.Link child parent ∧
          parent ∉ before ∧ parent ∉ seen := by
      rcases ih h with ⟨before, child, after, hsplit, hlink, hbefore, hseen⟩
      rcases List.ne_and_not_mem_of_not_mem_cons hseen with ⟨hne, hseen⟩
      exact ⟨l :: before, child, after, congrArg (l :: ·) hsplit, hlink,
        List.not_mem_cons_of_ne_of_not_mem hne hbefore, hseen⟩
    rw [lateParent?] at h
    split at h
    · rename_i p hlink
      split at h
      · exact hlater h
      · rename_i hnew
        cases h
        exact ⟨[], l, rest, rfl, hlink, List.not_mem_nil,
          fun hmem => hnew (List.contains_iff_mem.2 hmem)⟩
    · exact hlater h

/-- A parent behind its child lies on a cycle. -/
theorem on_cycle_of_lateParent? {i : Inheritance} (hclosed : i.Closed) {parent : Location}
    (h : i.lateParent? [] i.order = some parent) : TransGen i.Link parent parent := by
  rcases exists_split_of_lateParent? h with ⟨before, child, after, hsplit, hlink, hnew, -⟩
  have hdescends : i.Descends parent child := by
    have hparent := mem_order hclosed (hclosed.parent hlink)
    rw [hsplit] at hparent
    rcases List.mem_cons.1 ((List.mem_append.1 hparent).resolve_left hnew) with rfl | hafter
    · exact .refl
    · -- Were the child behind its parent as well, it would be listed twice.
      rcases List.append_of_mem hafter with ⟨between, rest, hrest⟩
      have hsplit' : i.order = (before ++ child :: between) ++ parent :: rest := by
        rw [hsplit, hrest, List.append_assoc, List.cons_append]
      rcases (arranged_order hclosed).1 _ parent rest hsplit' child hlink with hmem | hdescends
      · have hnodup := i.nodup_order
        rw [hsplit'] at hnodup
        exact absurd rfl ((List.nodup_append.1 hnodup).2.2 child (by simp) child
          (List.mem_cons_of_mem parent hmem))
      · exact hdescends
  exact TransGen.tail' hdescends hlink

/-- An order with parents first is the order of the walk. -/
theorem order_of_parentsFirst {i : Inheritance} {order : List Location}
    (h : i.parentsFirst = .ok order) : order = i.order := by
  unfold parentsFirst at h
  split at h
  · cases h
  · exact (Except.ok.inj h).symm

/-- Without a late parent, ancestors come first. -/
theorem idxOf_lt_of_ancestor {i : Inheritance} (hclosed : i.Closed) {order : List Location}
    (h : i.parentsFirst = .ok order) {l ancestor : Location} (hl : TransGen i.Link l ancestor) :
    order.idxOf ancestor < order.idxOf l := by
  have hlink {child parent : Location} (hlink : i.Link child parent) :
      order.idxOf parent < order.idxOf child := by
    have hmem : child ∈ order := by
      rw [order_of_parentsFirst h]
      exact mem_order hclosed (hclosed.child hlink)
    rcases List.eq_append_cons_of_mem hmem with ⟨before, after, hsplit, hnew⟩
    have hparent := parent_before h hsplit hlink
    calc order.idxOf parent
      _ = before.idxOf parent := by rw [hsplit, List.idxOf_append_of_mem hparent]
      _ < before.length := List.idxOf_lt_length_of_mem hparent
      _ = order.idxOf child := by rw [hsplit, List.idxOf_append_of_notMem hnew]; simp
  induction hl with
  | single hfirst => exact hlink hfirst
  | tail _ hlast ih => exact (hlink hlast).trans ih

/-! ## Cycles -/

/-- A line of ancestors begins like a longer one. -/
theorem take_lineFrom (i : Inheritance) (n k : Nat) (l : Location) :
    (i.lineFrom n l).take k = i.lineFrom (min k n) l := by
  induction n generalizing k l with
  | zero => simp [lineFrom]
  | succ n ih =>
    cases k with
    | zero => simp [lineFrom]
    | succ k =>
      rw [Nat.succ_min_succ, lineFrom, lineFrom, List.take_succ_cons]
      split
      · rw [ih]
      · rw [List.take_nil]

/-- A line of ancestors consists of ancestors. -/
theorem descends_of_mem_lineFrom {i : Inheritance} {n : Nat} {l other : Location}
    (h : other ∈ i.lineFrom n l) : i.Descends l other := by
  induction n generalizing l with
  | zero => cases h
  | succ n ih =>
    rw [lineFrom] at h
    rcases List.mem_cons.1 h with rfl | h
    · exact .refl
    · split at h
      · rename_i parent hlink
        exact (ih h).head hlink
      · cases h

/-- From a place in a line, the rest of it is the line of that place. -/
theorem exists_append_lineFrom {i : Inheritance} {n : Nat} {l other : Location}
    (h : other ∈ i.lineFrom n l) :
    ∃ before k, i.lineFrom n l = before ++ i.lineFrom (k + 1) other := by
  induction n generalizing l with
  | zero => cases h
  | succ n ih =>
    rw [lineFrom] at h
    rcases List.mem_cons.1 h with rfl | h
    · exact ⟨[], n, rfl⟩
    · split at h
      · rename_i parent hlink
        rcases ih h with ⟨before, k, hsplit⟩
        refine ⟨l :: before, k, ?_⟩
        rw [lineFrom, hlink]
        exact congrArg (l :: ·) hsplit
      · cases h

/-- An ancestor ends a line without repetition. -/
theorem exists_line_of_descends {i : Inheritance} {l other : Location} (h : i.Descends l other) :
    ∃ n, (i.lineFrom n l).Nodup ∧ (i.lineFrom n l).getLast? = some other := by
  induction h using ReflTransGen.head_induction_on with
  | refl => exact ⟨1, by simp [lineFrom]; split <;> simp, by simp [lineFrom]; split <;> simp⟩
  | @head l parent hlink hrest ih =>
    rcases ih with ⟨n, hnodup, hlast⟩
    by_cases hmem : l ∈ i.lineFrom n parent
    · -- The line has come back to the record: what came before is a detour.
      rcases exists_append_lineFrom hmem with ⟨detour, k, hsplit⟩
      rw [hsplit] at hnodup hlast
      refine ⟨k + 1, (List.nodup_append.1 hnodup).2.1, ?_⟩
      rwa [List.getLast?_append_of_ne_nil] at hlast
      simp [lineFrom]
    · have hline : i.lineFrom (n + 1) l = l :: i.lineFrom n parent := by
        rw [lineFrom, hlink]
      refine ⟨n + 1, ?_, ?_⟩
      · rw [hline]
        exact List.nodup_cons.2 ⟨hmem, hnodup⟩
      · rw [hline, List.getLast?_cons, hlast]
        rfl

/-- Ancestors of records are records. -/
theorem mem_records_of_descends {i : Inheritance} (hclosed : i.Closed) {l other : Location}
    (hl : l ∈ i.records) (h : i.Descends l other) : other ∈ i.records := by
  induction h with
  | refl => exact hl
  | tail _ hlink _ => exact hclosed.parent hlink

/-- As many steps as there are records are enough to come to every ancestor. -/
theorem reaches_iff {i : Inheritance} (hclosed : i.Closed) {l other : Location}
    (hl : l ∈ i.records) : i.reaches l other = true ↔ i.Descends l other := by
  rw [reaches, List.contains_iff_mem]
  refine ⟨descends_of_mem_lineFrom, fun h => ?_⟩
  rcases exists_line_of_descends h with ⟨n, hnodup, hlast⟩
  have hshort : (i.lineFrom n l).length ≤ i.records.length :=
    (List.subperm_of_subset hnodup fun k hk =>
      mem_records_of_descends hclosed hl (descends_of_mem_lineFrom hk)).length_le
  have hmem : other ∈ i.lineFrom (min i.records.length n) l := by
    rw [← take_lineFrom, List.take_of_length_le hshort]
    exact List.mem_of_getLast? hlast
  rw [Nat.min_comm, ← take_lineFrom] at hmem
  exact List.mem_of_mem_take hmem

/-- A parent is unique. -/
theorem link_unique {i : Inheritance} {l parent parent' : Location} (h : i.Link l parent)
    (h' : i.Link l parent') : parent = parent' :=
  Option.some.inj (h.symm.trans h')

/-- On a cycle, every ancestor descends from the record. -/
theorem descends_of_on_cycle {i : Inheritance} {l other : Location} (hcycle : TransGen i.Link l l)
    (h : i.Descends l other) : i.Descends other l := by
  induction h with
  | refl => exact .refl
  | tail _ hlink ih =>
    -- The line of the record before leaves by the one link there is.
    rcases ReflTransGen.cases_head ih with heq | ⟨next, hnext, hrest⟩
    · subst heq
      rcases TransGen.head'_iff.1 hcycle with ⟨next, hnext, hrest⟩
      rwa [link_unique hlink hnext]
    · rwa [link_unique hlink hnext]

/-- What is reported is the cycle. -/
theorem mem_cycleOf {i : Inheritance} (hclosed : i.Closed) {l other : Location}
    (hcycle : TransGen i.Link l l) : other ∈ i.cycleOf l ↔ i.Descends l other := by
  have hl : l ∈ i.records := by
    rcases TransGen.head'_iff.1 hcycle with ⟨next, hnext, -⟩
    exact hclosed.child hnext
  rw [cycleOf, List.mem_filter, Bool.and_eq_true, reaches_iff hclosed hl]
  refine ⟨fun h => h.2.1, fun h => ?_⟩
  have hother := mem_records_of_descends hclosed hl h
  exact ⟨hother, h, (reaches_iff hclosed hother).2 (descends_of_on_cycle hcycle h)⟩

end Inheritance

/-! ## Parents in a draft -/

namespace Draft

/--
One location is the parent of another: a record in core states the name of a parent that is neither
its own name nor that of its location, and another location of its family goes by that name.
-/
def HasParent (draft : Draft) (child parent : Location) : Prop :=
  ∃ d name, draft.get? child = some d ∧ child.isCore = true ∧ child.kind ∈ Kind.records ∧
    d.parentName? = some name ∧ d.name? ≠ some name ∧ child.name ≠ name ∧
    draft.find? child.kind.family name d.sourceExtension? = some parent ∧ parent ≠ child

/-- A location that goes by a name is one in core of the kinds in question. -/
theorem exists_of_find? {draft : Draft} {kinds : List Kind} {name : String}
    {extension : Option String} {l : Location} (h : draft.find? kinds name extension = some l) :
    ∃ d, (l, d) ∈ draft.core kinds := by
  rcases Option.map_eq_some_iff.1 h with ⟨⟨k, d⟩, hfound, rfl⟩
  have hmem : (k, d) ∈ (draft.core kinds).filter fun e => answersTo e.1 e.2 name := by
    rcases Option.or_eq_some_iff.1 hfound with hfound | ⟨-, hfound⟩
    · rcases Option.or_eq_some_iff.1 hfound with hfound | ⟨-, hfound⟩
      · rcases Option.bind_eq_some_iff.1 hfound with ⟨x, -, hfound⟩
        exact List.mem_of_find?_eq_some hfound
      · exact List.mem_of_find?_eq_some hfound
    · exact List.mem_of_head? hfound
  exact ⟨d, (List.mem_filter.1 hmem).1⟩

end Draft

/-- Kinds of parents are kinds of records. -/
theorem Kind.mem_records_of_family {kind parent : Kind} (h : parent ∈ kind.family) :
    parent ∈ Kind.records := by
  have hsubset : kind.family ⊆ Kind.records := by
    cases kind <;> simp [family, records]
  exact hsubset h

namespace Inheritance

/-- A parent is found by the name that a definition states, unless that is its own. -/
theorem parentOf?_eq_some_iff {draft : Draft} {l parent : Location} {d : Definition} :
    parentOf? draft l d = some parent ↔ ∃ name, d.parentName? = some name ∧
      d.name? ≠ some name ∧ l.name ≠ name ∧
      draft.find? l.kind.family name d.sourceExtension? = some parent ∧ parent ≠ l := by
  rw [parentOf?, Option.bind_eq_some_iff]
  refine exists_congr fun name => and_congr_right fun _ => ?_
  simp only [Option.ite_none_left_eq_some, not_or, Option.filter_eq_some_iff, bne_iff_ne, ne_eq,
    and_assoc]

/-- A map that is made of distinct keys has just the listed entries. -/
theorem getElem?_ofList_eq_some_iff {κ α : Type} [Ord κ] [TransOrd κ] [BEq κ] [LawfulBEq κ]
    [LawfulBEqOrd κ] {entries : List (κ × α)}
    (hdistinct : entries.Pairwise fun a b => ¬ compare a.1 b.1 = .eq) {l : κ} {value : α} :
    (ExtTreeMap.ofList entries)[l]? = some value ↔ (l, value) ∈ entries := by
  refine ⟨fun h => ?_, ExtTreeMap.getElem?_ofList_of_mem ReflOrd.compare_self hdistinct⟩
  have hmem : l ∈ ExtTreeMap.ofList entries :=
    ExtTreeMap.mem_iff_isSome_getElem?.2 (by rw [h]; rfl)
  rw [ExtTreeMap.mem_ofList, List.contains_iff_mem, List.mem_map] at hmem
  rcases hmem with ⟨⟨k, other⟩, hmem, rfl⟩
  rw [ExtTreeMap.getElem?_ofList_of_mem ReflOrd.compare_self hdistinct hmem] at h
  cases h
  exact hmem

/-- The links among the records of a draft are those from records to their parents. -/
theorem link_ofDraft {draft : Draft} {l parent : Location} :
    (ofDraft draft).Link l parent ↔ draft.HasParent l parent := by
  rw [Link, ofDraft, getElem?_ofList_eq_some_iff]
  · simp only [List.mem_filterMap, Option.map_eq_some_iff, Prod.mk.injEq, Prod.exists,
      Draft.mem_core, Draft.HasParent]
    constructor
    · rintro ⟨k, d, ⟨hd, hcore, hkind⟩, p, hp, rfl, rfl⟩
      rcases parentOf?_eq_some_iff.1 hp with ⟨name, hname⟩
      exact ⟨d, name, hd, hcore, hkind, hname⟩
    · rintro ⟨d, name, hd, hcore, hkind, hname⟩
      exact ⟨l, d, ⟨hd, hcore, hkind⟩, parent, parentOf?_eq_some_iff.2 ⟨name, hname⟩, rfl, rfl⟩
  · -- The records are in order, so that no two links go from the same one.
    refine List.Pairwise.filterMap _ ?_ (draft.ordered_core Kind.records)
    rintro ⟨k, d⟩ ⟨k', d'⟩ hlt x hx y hy
    rcases Option.map_eq_some_iff.1 hx with ⟨p, -, rfl⟩
    rcases Option.map_eq_some_iff.1 hy with ⟨p', -, rfl⟩
    rw [hlt]
    decide

/-- The links of a draft lead to parents. -/
theorem link_eq_hasParent (draft : Draft) : (ofDraft draft).Link = draft.HasParent := by
  funext child parent
  exact propext link_ofDraft

/-- Both ends of a link are records. -/
theorem closed_ofDraft (draft : Draft) : (ofDraft draft).Closed := by
  have hrecord {l : Location} {d : Definition} (h : (l, d) ∈ draft.core Kind.records) :
      l ∈ (ofDraft draft).records := List.mem_map_of_mem h
  constructor
  · intro l parent h
    rcases link_ofDraft.1 h with ⟨d, name, hd, hcore, hkind, -⟩
    exact hrecord (Draft.mem_core.2 ⟨hd, hcore, hkind⟩)
  · intro l parent h
    rcases link_ofDraft.1 h with ⟨d, name, -, -, -, -, -, -, hparent, -⟩
    rcases Draft.exists_of_find? hparent with ⟨d', hmem⟩
    rcases Draft.mem_core.1 hmem with ⟨hd', hcore, hkind⟩
    exact hrecord (Draft.mem_core.2 ⟨hd', hcore, Kind.mem_records_of_family hkind⟩)

end Inheritance

namespace Draft

/-- The members of a cycle of parents, in order and each once. -/
structure IsCycle (draft : Draft) (cycle : List Location) : Prop where
  ordered : cycle.Pairwise fun a b => compare a b = .lt
  nodup : cycle.Nodup
  members : ∃ l, TransGen draft.HasParent l l ∧
    ∀ m, m ∈ cycle ↔ ReflTransGen draft.HasParent l m

/-- Operations that let every record with a parent inherit from it once, parents first. -/
structure InheritsOnce (draft : Draft) (ops : List Operation) : Prop where
  complete : ∀ op, op ∈ ops ↔
    ∃ child parent, draft.HasParent child parent ∧ op = ⟨child, .inherit parent⟩
  once : (ops.map Operation.target).Nodup
  ordered : ∀ before op after, ops = before ++ op :: after → ∀ other ∈ ops,
    op.action = .inherit other.target → other ∈ before

end Draft

namespace Inheritance

/-- Whoever descends from itself lies on the cycle that is reported for it. -/
theorem isCycle_cycleOf {draft : Draft} {l : Location}
    (h : TransGen (ofDraft draft).Link l l) : draft.IsCycle ((ofDraft draft).cycleOf l) := by
  have hordered : ((ofDraft draft).cycleOf l).Pairwise fun a b => compare a b = .lt :=
    (List.pairwise_map.2 (draft.ordered_core Kind.records)).sublist List.filter_sublist
  refine ⟨hordered, hordered.imp fun {a b} hlt heq => ?_, l, ?_, fun m => ?_⟩
  · rw [heq, ReflOrd.compare_self] at hlt
    cases hlt
  · rwa [link_eq_hasParent] at h
  · rw [mem_cycleOf (closed_ofDraft draft) h, Descends, link_eq_hasParent]

/-- With parents first, everyone inherits once, from a parent that is done. -/
theorem inheritsOnce_of_parentsFirst {draft : Draft} {order : List Location}
    (h : (ofDraft draft).parentsFirst = .ok order) :
    draft.InheritsOnce (order.filterMap fun child =>
      (ofDraft draft).parents[child]?.map fun parent => ⟨child, .inherit parent⟩) := by
  have hclosed := closed_ofDraft draft
  have hmem (op : Operation) : op ∈ (order.filterMap fun child =>
      (ofDraft draft).parents[child]?.map fun parent => (⟨child, .inherit parent⟩ : Operation)) ↔
        ∃ child parent, (ofDraft draft).Link child parent ∧ op = ⟨child, .inherit parent⟩ := by
    rw [order_of_parentsFirst h, List.mem_filterMap]
    constructor
    · rintro ⟨child, -, hop⟩
      rcases Option.map_eq_some_iff.1 hop with ⟨parent, hlink, rfl⟩
      exact ⟨child, parent, hlink, rfl⟩
    · rintro ⟨child, parent, hlink, rfl⟩
      exact ⟨child, mem_order hclosed (hclosed.child hlink), Option.map_eq_some_iff.2
        ⟨parent, hlink, rfl⟩⟩
  refine ⟨fun op => ?_, ?_, fun before op after hsplit other hother haction => ?_⟩
  · simp only [hmem, link_ofDraft]
  · rw [List.Nodup, List.pairwise_map, List.pairwise_filterMap]
    refine (nodup_of_parentsFirst h).imp fun {a b} hne op hop op' hop' heq => hne ?_
    rcases Option.map_eq_some_iff.1 hop with ⟨p, -, rfl⟩
    rcases Option.map_eq_some_iff.1 hop' with ⟨p', -, rfl⟩
    exact heq
  · rcases List.filterMap_eq_append_iff.1 hsplit with ⟨front, rest, rfl, hfront, hrest⟩
    rcases List.filterMap_eq_cons_iff.1 hrest with ⟨skipped, child, back, rfl, hskipped, hchild, -⟩
    rcases Option.map_eq_some_iff.1 hchild with ⟨parent, hlink, rfl⟩
    rcases (hmem other).1 hother with ⟨parent', grandparent, hlink', rfl⟩
    have heq : parent = parent' := by simpa using haction
    subst heq
    have hbefore : parent ∈ front ++ skipped :=
      parent_before h (List.append_assoc front skipped (child :: back)).symm hlink
    rcases List.mem_append.1 hbefore with hbefore | hbefore
    · rw [← hfront]
      exact List.mem_filterMap.2
        ⟨parent, hbefore, Option.map_eq_some_iff.2 ⟨grandparent, hlink', rfl⟩⟩
    · have hnone := hskipped parent hbefore
      rw [Option.map_eq_none_iff, show (ofDraft draft).parents[parent]? = some grandparent from
        hlink'] at hnone
      cases hnone

end Inheritance

namespace Planner

/-- Inheritance is planned for each record once, and only if there is no cycle. -/
theorem inheritsOnce_of_inherit {draft : Draft} {ops : List Operation}
    (h : inherit draft = .ok ops) :
    draft.InheritsOnce ops ∧ ∀ l, ¬ TransGen draft.HasParent l l := by
  unfold inherit at h
  dsimp only at h
  split at h
  · cases h
  · rename_i order horder
    cases h
    refine ⟨Inheritance.inheritsOnce_of_parentsFirst horder, fun l hl => ?_⟩
    rw [← Inheritance.link_eq_hasParent] at hl
    exact Nat.lt_irrefl _
      (Inheritance.idxOf_lt_of_ancestor (Inheritance.closed_ofDraft draft) horder hl)

/-- Inheritance is refused for a cycle. -/
theorem isCycle_of_inherit {draft : Draft} {error : Error} (h : inherit draft = .error error) :
    ∃ cycle, error = .cyclicInheritance .structural cycle ∧ draft.IsCycle cycle := by
  unfold inherit at h
  dsimp only at h
  split at h
  · rename_i cycle hcycle
    cases h
    refine ⟨cycle, rfl, ?_⟩
    unfold Inheritance.parentsFirst at hcycle
    split at hcycle
    · rename_i l hlate
      cases hcycle
      exact Inheritance.isCycle_cycleOf
        (Inheritance.on_cycle_of_lateParent? (Inheritance.closed_ofDraft draft) hlate)
    · cases hcycle
  · cases h

/--
Inheritance is planned unless the parents of a draft have a cycle.  Then the members of one cycle
are reported; otherwise every record with a parent inherits from it once, parents first.
-/
theorem inherit_parents_first_or_cycle (draft : Draft) :
    ((∃ error, inherit draft = .error error) ↔ ∃ l, TransGen draft.HasParent l l) ∧
    (∀ error, inherit draft = .error error →
      ∃ cycle, error = .cyclicInheritance .structural cycle ∧ draft.IsCycle cycle) ∧
    ∀ ops, inherit draft = .ok ops → draft.InheritsOnce ops := by
  refine ⟨⟨?_, ?_⟩, fun error => isCycle_of_inherit, fun ops h => (inheritsOnce_of_inherit h).1⟩
  · rintro ⟨error, h⟩
    rcases isCycle_of_inherit h with ⟨cycle, -, hcycle⟩
    rcases hcycle.members with ⟨l, hl, -⟩
    exact ⟨l, hl⟩
  · rintro ⟨l, hl⟩
    cases h : inherit draft with
    | error error => exact ⟨error, rfl⟩
    | ok ops => exact absurd hl ((inheritsOnce_of_inherit h).2 l)

end Planner

end EventSchema
