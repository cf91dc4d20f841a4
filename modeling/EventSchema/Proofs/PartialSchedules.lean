import EventSchema.Proofs.Reordering

/-!
# The schedule of a part

Operations may fall into two parts that have nothing to do with each other: those on the locations of
a set, which read only that set, and others that read nothing.  The walk over all targets then takes
the same steps on the set as a walk over the part alone, and what it does elsewhere stays apart.

Main results:

- {lit}`PhasePlan.schedule_within`: the schedule of the part is the part of the schedule.
-/

namespace EventSchema

open Std

namespace Operation

/-- Only operations on a set read anything, and they read only the set. -/
def ReadsWithin (S : Location → Prop) (ops : List Operation) : Prop :=
  ∀ op ∈ ops, ∀ p ∈ op.prerequisites, S op.target ∧ S p

/-- At the chosen locations the chosen operations are all. -/
theorem targeting_within_of_mem {S : Location → Prop} {l : Location} (hl : S l)
    (ops : List Operation) : targeting (within S ops) l = targeting ops l := by
  rw [targeting, within, List.filter_filter]
  refine List.filter_congr fun op _ => ?_
  by_cases h : op.target = l
  · simp [h, hl]
  · simp [h]

/-- Elsewhere there are no chosen operations. -/
theorem targeting_within_of_not_mem {S : Location → Prop} {l : Location} (hl : ¬ S l)
    (ops : List Operation) : targeting (within S ops) l = [] := by
  rw [targeting_eq_nil_iff]
  rintro op hop rfl
  exact hl (mem_within.1 hop).2

end Operation

open Operation

/-- What a walk has visited and put out within a set. -/
structure PhasePlan.Walk.Within (S : Location → Prop) (walk part : PhasePlan.Walk) : Prop where
  visited : ∀ l, l ∈ part.visited ↔ l ∈ walk.visited ∧ S l
  scheduled : part.scheduled = within S walk.scheduled

namespace PhasePlan

variable {S : Location → Prop} {walk part : Walk}

/-- A walk enters a chosen location in both schedules. -/
theorem Walk.Within.enter (h : walk.Within S part) {l : Location} (hl : S l) :
    (walk.enter l).Within S (part.enter l) := by
  refine ⟨fun k => ?_, h.scheduled⟩
  change k ∈ l :: part.visited ↔ k ∈ l :: walk.visited ∧ S k
  rw [List.mem_cons, List.mem_cons, h.visited]
  constructor
  · rintro (rfl | ⟨hk, hS⟩)
    · exact ⟨Or.inl rfl, hl⟩
    · exact ⟨Or.inr hk, hS⟩
  · rintro ⟨rfl | hk, hS⟩
    · exact Or.inl rfl
    · exact Or.inr ⟨hk, hS⟩

/-- A walk enters another location in the whole schedule only. -/
theorem Walk.Within.enter_left (h : walk.Within S part) {l : Location} (hl : ¬ S l) :
    (walk.enter l).Within S part := by
  refine ⟨fun k => ?_, h.scheduled⟩
  change _ ↔ k ∈ l :: walk.visited ∧ S k
  rw [h.visited, List.mem_cons]
  constructor
  · exact fun ⟨hk, hS⟩ => ⟨Or.inr hk, hS⟩
  · rintro ⟨rfl | hk, hS⟩
    · exact absurd hS hl
    · exact ⟨hk, hS⟩

/-- A chosen operation is scheduled on both sides. -/
theorem Walk.Within.emit (h : walk.Within S part) {op : Operation} (hop : S op.target) :
    (walk.emit op).Within S (part.emit op) := by
  refine ⟨h.visited, ?_⟩
  change op :: part.scheduled = within S (op :: walk.scheduled)
  rw [within_cons_of_mem hop, h.scheduled]

/-- Another operation is scheduled on the left only. -/
theorem Walk.Within.emit_left (h : walk.Within S part) {op : Operation} (hop : ¬ S op.target) :
    (walk.emit op).Within S part := by
  refine ⟨h.visited, ?_⟩
  change part.scheduled = within S (op :: walk.scheduled)
  rw [within_cons_of_not_mem hop, h.scheduled]

/-- Walks that take the same steps on a set stay together there. -/
theorem Walk.Within.foldl {α : Type} {f g : Walk → α → Walk} {items : List α}
    (hstep : ∀ walk part, walk.Within S part → ∀ a ∈ items, (f walk a).Within S (g part a))
    (h : walk.Within S part) : (items.foldl f walk).Within S (items.foldl g part) := by
  induction items generalizing walk part with
  | nil => exact h
  | cons a rest ih =>
    exact ih (fun walk part hwalk b hb => hstep walk part hwalk b (List.mem_cons_of_mem a hb))
      (hstep walk part h a List.mem_cons_self)

section

variable (phase : Phase) {ops : List Operation}

/-- At the chosen locations the same is planned. -/
theorem contains_within {l : Location} (hl : S l) :
    (ofOperations phase (within S ops)).operations.contains l =
      (ofOperations phase ops).operations.contains l := by
  rw [Bool.eq_iff_iff, proper_ofOperations, proper_ofOperations, get_ofOperations,
    get_ofOperations, targeting_within_of_mem hl]

/-- A visit of a location of the set is the same step of both walks; any other is none of the part. -/
theorem visit_within (h : ReadsWithin S ops) (depth : Nat) (l : Location)
    (hwalk : walk.Within S part) :
    (S l → ((ofOperations phase ops).visit depth walk l).Within S
        ((ofOperations phase (within S ops)).visit depth part l)) ∧
      (¬ S l → ((ofOperations phase ops).visit depth walk l).Within S part) := by
  induction depth generalizing walk part l with
  | zero => exact ⟨fun _ => hwalk, fun _ => hwalk⟩
  | succ depth ih =>
    have hplanned (op : Operation) (hop : op ∈ (ofOperations phase ops).get l) :
        op ∈ ops ∧ op.target = l := by
      rwa [get_ofOperations, mem_targeting] at hop
    constructor
    · intro hl
      by_cases hmem : l ∈ walk.visited
      · rw [visit_of_mem _ depth hmem, visit_of_mem _ depth ((hwalk.visited l).2 ⟨hmem, hl⟩)]
        exact hwalk
      have hmem' : l ∉ part.visited := fun hpart => hmem ((hwalk.visited l).1 hpart).1
      rw [visit_of_not_mem _ depth hmem, visit_of_not_mem _ depth hmem', get_ofOperations,
        get_ofOperations, targeting_within_of_mem hl, ← get_ofOperations phase]
      refine Walk.Within.foldl (fun walk part hwalk op hop => ?_) (hwalk.enter hl)
      obtain ⟨hmine, rfl⟩ := hplanned op hop
      have hfilter : op.prerequisites.filter (ofOperations phase ops).operations.contains =
          op.prerequisites.filter (ofOperations phase (within S ops)).operations.contains :=
        List.filter_congr fun p hp => (contains_within phase (h op hmine p hp).2).symm
      unfold serve
      rw [hfilter]
      refine Walk.Within.emit (Walk.Within.foldl (fun walk part hwalk p hp => ?_) hwalk) hl
      exact (ih p hwalk).1 (h op hmine p (List.mem_filter.1 hp).1).2
    · intro hl
      by_cases hmem : l ∈ walk.visited
      · rw [visit_of_mem _ depth hmem]
        exact hwalk
      rw [visit_of_not_mem _ depth hmem]
      have hfold : (((ofOperations phase ops).get l).foldl (fun part _ => part) part) = part := by
        simp
      rw [← hfold]
      refine Walk.Within.foldl (fun walk part hwalk op hop => ?_) (hwalk.enter_left hl)
      obtain ⟨hmine, rfl⟩ := hplanned op hop
      -- An operation outside of the set reads nothing, so no other visit comes before it.
      have hnil : op.prerequisites = [] :=
        List.eq_nil_iff_forall_not_mem.2 fun p hp => hl (h op hmine p hp).1
      unfold serve
      rw [hnil]
      exact hwalk.emit_left hl

/-- A plan files operations under their targets, and nothing else. -/
theorem getElem?_ofOperations (ops : List Operation) (l : Location) :
    (ofOperations phase ops).operations[l]? =
      if targeting ops l = [] then none else some (targeting ops l) := by
  have hproper := proper_ofOperations phase ops l
  have hget := get_ofOperations phase ops l
  rw [get] at hproper hget
  cases hl : (ofOperations phase ops).operations[l]? with
  | none => simp [← hget, hl]
  | some planned =>
    rw [hl, Option.getD_some] at hproper hget
    rw [← hget, if_neg (hproper.1 (by simp [ExtTreeMap.contains_eq_isSome_getElem?, hl]))]

open Classical in
/-- The targets of the part are those in the set. -/
theorem targets_within :
    (ofOperations phase (within S ops)).targets = (ofOperations phase ops).targets.filter S := by
  have hoperations : (ofOperations phase (within S ops)).operations =
      (ofOperations phase ops).operations.filter fun l _ => S l := by
    ext l : 1
    rw [ExtTreeMap.getElem?_filter', getElem?_ofOperations, getElem?_ofOperations]
    by_cases hl : S l
    · rw [targeting_within_of_mem hl, decide_eq_true hl]
      split <;> rfl
    · rw [targeting_within_of_not_mem hl, if_pos rfl, decide_eq_false hl]
      split <;> rfl
  rw [targets, targets, hoperations, ← ExtTreeMap.map_fst_toList_eq_keys,
    ← ExtTreeMap.map_fst_toList_eq_keys, ExtTreeMap.toList_filter, List.filter_map]
  rfl

/-- The schedule of the operations on a set is that part of the whole schedule. -/
theorem schedule_within (h : ReadsWithin S ops) :
    (ofOperations phase (within S ops)).schedule = within S (ofOperations phase ops).schedule := by
  classical
  have hlength (ops : List Operation) :
      (ofOperations phase ops).targets.length = (ofOperations phase ops).operations.size :=
    ExtTreeMap.length_keys
  have hdepth : (ofOperations phase (within S ops)).operations.size <
      (ofOperations phase ops).operations.size + 1 := by
    rw [← hlength, ← hlength, targets_within]
    exact Nat.lt_succ_of_le (List.length_filter_le _ _)
  have hwalk : ((ofOperations phase ops).targets.foldl ((ofOperations phase ops).visit
      ((ofOperations phase ops).operations.size + 1)) {}).Within S
        ((ofOperations phase (within S ops)).targets.foldl
          ((ofOperations phase (within S ops)).visit
            ((ofOperations phase ops).operations.size + 1)) {}) := by
    rw [targets_within, List.foldl_filter]
    refine Walk.Within.foldl (fun walk part hwalk l _ => ?_) ⟨by simp, rfl⟩
    by_cases hl : S l
    · simpa [hl] using (visit_within phase h _ l hwalk).1 hl
    · simpa [hl] using (visit_within phase h _ l hwalk).2 hl
  rw [← schedule_eq_of_lt _ hdepth, hwalk.scheduled, ← within_reverse, schedule]

end

end PhasePlan

end EventSchema
