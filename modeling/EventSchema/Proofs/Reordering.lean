import EventSchema.Proofs.Agreement
import EventSchema.Proofs.Schedule

/-!
# Runs in another order

Two operations are independent if neither consults the target of the other; then their order does
not matter.  A list of operations is settled if nothing is edited any more after another location
has read it.  Two settled lists with the same operations on every target lead to the same draft:
the first operation of one list can be moved to the front of the other.

Main results:

- {lit}`Operation.agreeOn_run_comm`: independent operations commute.
- {lit}`Operation.agreeOn_runAll_of_settled`: settled lists with the same operations on every
  target lead to the same draft.
- {lit}`Operation.settled_within_schedule`: a schedule is settled if its operations were emitted so.
-/

namespace EventSchema

open Relation

namespace Operation

/-! ## Independent operations -/

/-- Neither of two operations consults the target of the other. -/
def Independent (op other : Operation) : Prop :=
  ¬ op.Consults other.target ∧ ¬ other.Consults op.target

theorem Independent.target_ne {op other : Operation} (h : Independent op other) :
    op.target ≠ other.target :=
  fun heq => h.1 (heq ▸ op.consults_target)

/-- An operation has the same outcome before and after an independent one. -/
theorem outcome_run_of_independent {op other : Operation} (h : Independent op other) (draft : Draft)
    (options : Options) :
    op.outcome (other.run draft options) options = op.outcome draft options := by
  apply outcome_congr
  intro l hl
  apply sameAt_run_of_ne
  intro heq
  exact h.1 (heq ▸ hl.consults)

/-- Independent operations commute. -/
theorem agreeOn_run_comm {op other : Operation} (h : Independent op other) (draft : Draft)
    (options : Options) (S : Location → Prop) :
    Draft.AgreeOn S (op.run (other.run draft options) options)
      (other.run (op.run draft options) options) := by
  intro l _
  by_cases hop : op.target = l
  · subst hop
    have hother := h.target_ne.symm
    have hleft := sameAt_run (outcome_run_of_independent h draft options)
      (other.sameAt_run_of_ne draft options hother)
    exact hleft.trans (other.sameAt_run_of_ne _ options hother).symm
  · have hleft := op.sameAt_run_of_ne (other.run draft options) options hop
    by_cases hother : other.target = l
    · subst hother
      have hright := sameAt_run (outcome_run_of_independent ⟨h.2, h.1⟩ draft options)
        (op.sameAt_run_of_ne draft options hop)
      exact hleft.trans hright.symm
    · have hright := (other.sameAt_run_of_ne (op.run draft options) options hother).trans
        (op.sameAt_run_of_ne draft options hop)
      exact (hleft.trans (other.sameAt_run_of_ne draft options hother)).trans hright.symm

theorem agreeOn_runAll {left right : Draft} (h : Draft.AgreeOn (fun _ => True) left right)
    (options : Options) (ops : List Operation) :
    Draft.AgreeOn (fun _ => True) (runAll options left ops) (runAll options right ops) := by
  induction ops generalizing left right with
  | nil => exact h
  | cons op rest ih => exact ih (agreeOn_run h (fun _ _ => trivial) options)

/-- An operation that is independent of those before it can go first. -/
theorem agreeOn_runAll_move_front (options : Options) {op : Operation} {before : List Operation}
    (h : ∀ other ∈ before, Independent op other) (after : List Operation) (draft : Draft) :
    Draft.AgreeOn (fun _ => True) (runAll options draft (before ++ op :: after))
      (runAll options draft (op :: before ++ after)) := by
  induction before generalizing draft with
  | nil => exact .refl _ _
  | cons other rest ih =>
    have hrest := ih (fun o ho => h o (List.mem_cons_of_mem other ho)) (other.run draft options)
    have hswap := agreeOn_run_comm (h other List.mem_cons_self) draft options fun _ => True
    exact hrest.trans (agreeOn_runAll hswap options (rest ++ after))

/-! ## Settled lists -/

/-- After an operation nothing edits what it has consulted, its own target apart. -/
def Settled (ops : List Operation) : Prop :=
  ops.Pairwise fun op later => op.Consults later.target → later.target = op.target

/-- The first operation on a target splits a list. -/
theorem exists_split_of_targeting {ops rest : List Operation} {op : Operation} {l : Location}
    (h : targeting ops l = op :: rest) :
    ∃ before after, ops = before ++ op :: after ∧ (∀ other ∈ before, other.target ≠ l) ∧
      targeting after l = rest := by
  rcases List.filter_eq_cons_iff.1 h with ⟨before, after, hsplit, hbefore, -, hafter⟩
  exact ⟨before, after, hsplit, fun other ho heq => hbefore other ho (by simp [heq]), hafter⟩

/-- Settled lists with the same operations on every target lead to the same draft. -/
theorem agreeOn_runAll_of_settled (options : Options) {ops other : List Operation}
    (hops : Settled ops) (hother : Settled other)
    (h : ∀ l, targeting ops l = targeting other l) (draft : Draft) :
    Draft.AgreeOn (fun _ => True) (runAll options draft ops) (runAll options draft other) := by
  induction ops generalizing other draft with
  | nil =>
    have hnil : other = [] := List.nil_perm.1 (perm_of_targeting_eq h)
    rw [hnil]
    exact .refl _ _
  | cons op rest ih =>
    have hperm := perm_of_targeting_eq h
    rcases List.pairwise_cons.1 hops with ⟨hop, hrest⟩
    rcases exists_split_of_targeting ((h op.target).symm.trans (targeting_cons_self op rest)) with
      ⟨before, after, rfl, hbefore, hafter⟩
    have hindependent : ∀ o ∈ before, Independent op o := by
      intro o ho
      refine ⟨fun hreads => ?_, fun hreads => ?_⟩
      · -- The operation is first in its list, so what it consults is never edited.
        have hmem : o ∈ op :: rest := hperm.mem_iff.2 (List.mem_append_left _ ho)
        rcases List.mem_cons.1 hmem with rfl | hmem
        · exact hbefore o ho rfl
        · exact hbefore o ho (hop o hmem hreads)
      · have hlater := (List.pairwise_append.1 hother).2.2 o ho op List.mem_cons_self hreads
        exact hbefore o ho hlater.symm
    have htargets (l : Location) : targeting rest l = targeting (before ++ after) l := by
      by_cases hl : op.target = l
      · subst hl
        rw [targeting_append, targeting_eq_nil_iff.2 hbefore, hafter, List.nil_append]
      · have hboth := h l
        rwa [targeting_cons_of_ne hl, targeting_append, targeting_cons_of_ne hl,
          ← targeting_append] at hboth
    have hsettled : Settled (before ++ after) :=
      hother.sublist (List.Sublist.append_left (List.sublist_cons_self op after) before)
    have hmoved := agreeOn_runAll_move_front options hindependent after draft
    exact (ih hrest hsettled htargets (op.run draft options)).trans hmoved.symm

/-! ## Settled schedules -/

/-- Operations that consult no target of another one are settled in any order. -/
theorem settled_of_forall {ops : List Operation}
    (h : ∀ op ∈ ops, ∀ other ∈ ops, op.Consults other.target → other.target = op.target) :
    Settled ops :=
  List.pairwise_of_forall_mem_list fun op hop other hother => h op hop other hother

/-- Targets can be ranked so that operations of a settled list consult lower ranks only. -/
theorem exists_rank_of_settled {ops : List Operation} (h : Settled ops) :
    ∃ rank : Location → Nat, ∀ op ∈ ops, ∀ p, op.Consults p → p ≠ op.target →
      (∃ other ∈ ops, other.target = p) → rank p < rank op.target := by
  classical
  induction ops with
  | nil => exact ⟨fun _ => 0, by simp⟩
  | cons first rest ih =>
    rcases List.pairwise_cons.1 h with ⟨hfirst, hrest⟩
    rcases ih hrest with ⟨rank, hrank⟩
    -- What is edited only by the first operation ranks below everything else.
    refine ⟨fun l => if ∃ other ∈ rest, other.target = l then rank l + 1 else 0, ?_⟩
    intro op hop p hconsults hne hp
    rcases List.mem_cons.1 hop with rfl | hop
    · rcases hp with ⟨other, hmem, rfl⟩
      rcases List.mem_cons.1 hmem with rfl | hmem
      · exact absurd rfl hne
      · exact absurd (hfirst other hmem hconsults) hne
    · have htarget : ∃ other ∈ rest, other.target = op.target := ⟨op, hop, rfl⟩
      by_cases hrestp : ∃ other ∈ rest, other.target = p
      · simpa [htarget, hrestp] using hrank op hop p hconsults hne hrestp
      · simp [htarget, hrestp]

/-- In a settled closed part of a list nothing depends on a location that reads it. -/
theorem not_dependsOn_of_settled {ops : List Operation} {S : Location → Prop}
    (hclosed : Closed ops S) (hsettled : Settled (within S ops)) {op : Operation}
    (hop : op ∈ within S ops) {p : Location} (hp : p ∈ op.prerequisites) (hne : p ≠ op.target) :
    ¬ DependsOn ops p op.target := by
  rcases exists_rank_of_settled hsettled with ⟨rank, hrank⟩
  have hlower {a b : Location} (hread : Reads ops a b) (ha : S a)
      (hb : ∃ other ∈ within S ops, other.target = b) : rank b ≤ rank a := by
    rcases hread with ⟨reader, hreader, rfl, hmem⟩
    by_cases hself : b = reader.target
    · rw [hself]
    · exact (hrank reader (mem_within.2 ⟨hreader, ha⟩) b (consults_prerequisite hmem) hself hb).le
  have hstep {a b : Location} (hread : Reads ops a b) (ha : S a) : S b := by
    rcases hread with ⟨reader, hreader, rfl, hmem⟩
    exact hclosed reader hreader ha b (consults_prerequisite hmem)
  have hchain (a : Location) (hdepends : TransGen (Reads ops) a op.target) :
      S a → rank op.target ≤ rank a := by
    induction hdepends using TransGen.head_induction_on with
    | single hread => exact fun ha => hlower hread ha ⟨op, hop, rfl⟩
    | head hread hrest ih =>
      intro ha
      have hb := hstep hread ha
      rcases TransGen.head'_iff.1 hrest with ⟨c, ⟨reader, hreader, hreads, -⟩, -⟩
      have hedited : ∃ other ∈ within S ops, other.target = _ :=
        ⟨reader, mem_within.2 ⟨hreader, hreads ▸ hb⟩, hreads⟩
      exact (ih hb).trans (hlower hread ha hedited)
  intro hdepends
  have hS : S p := hclosed op (mem_within.1 hop).1 (mem_within.1 hop).2 p (consults_prerequisite hp)
  rcases TransGen.head'_iff.1 hdepends with ⟨c, ⟨reader, hreader, hreads, -⟩, -⟩
  have hless := hrank op hop p (consults_prerequisite hp) hne
    ⟨reader, mem_within.2 ⟨hreader, hreads ▸ hS⟩, hreads⟩
  exact absurd (hchain p hdepends hS) (Nat.not_le.2 hless)

theorem pairwise_of_split {α : Type} {R : α → α → Prop} {items : List α}
    (h : ∀ before a after, items = before ++ a :: after → ∀ b ∈ after, R a b) :
    items.Pairwise R := by
  induction items with
  | nil => exact .nil
  | cons a rest ih =>
    refine List.pairwise_cons.2 ⟨h [] a rest rfl, ih fun before b after hsplit => ?_⟩
    exact h (a :: before) b after (by rw [hsplit, List.cons_append])

/-- The schedule of operations that were emitted in a settled order is settled, too. -/
theorem settled_within_schedule (phase : Phase) {ops : List Operation} {S : Location → Prop}
    (hclosed : Closed ops S) (hsettled : Settled (within S ops))
    (hplain : ∀ op ∈ ops, ∀ category, op.action ≠ .setCategory category) :
    Settled (within S (PhasePlan.ofOperations phase ops).schedule) := by
  unfold Settled within
  rw [List.pairwise_filter]
  refine pairwise_of_split fun before op after hsplit other hother hS hS' hconsults => ?_
  have hperm := PhasePlan.schedule_perm phase ops
  have hop : op ∈ ops := hperm.mem_iff.1 (by simp [hsplit])
  rcases hconsults with heq | hreads | ⟨⟨category, hcategory⟩, -⟩
  · exact heq
  · by_contra hne
    have hindependent := not_dependsOn_of_settled hclosed hsettled
      (mem_within.2 ⟨hop, by simpa using hS⟩) hreads hne
    have hafter := PhasePlan.targeting_after_of_schedule phase hsplit hreads hne hindependent
    exact targeting_eq_nil_iff.1 hafter other hother rfl
  · exact absurd hcategory (hplain op hop category)

/-- Operations that were emitted in a settled order on a closed set can be run as scheduled. -/
theorem agreeOn_runAll_schedule (phase : Phase) (options : Options) {ops : List Operation}
    {S : Location → Prop} (hclosed : Closed ops S) (hsettled : Settled (within S ops))
    (hsettled' : Settled (within S (PhasePlan.ofOperations phase ops).schedule))
    {left right : Draft} (h : Draft.AgreeOn S left right) :
    Draft.AgreeOn S (runAll options left (PhasePlan.ofOperations phase ops).schedule)
      (runAll options right ops) := by
  have hperm := PhasePlan.schedule_perm phase ops
  have hclosed' : Closed (PhasePlan.ofOperations phase ops).schedule S :=
    fun op hop => hclosed op (hperm.mem_iff.1 hop)
  have htargets (l : Location) :
      targeting (within S (PhasePlan.ofOperations phase ops).schedule) l =
        targeting (within S ops) l := by
    classical
    have hcomm (list : List Operation) :
        targeting (within S list) l = within S (targeting list l) := by
      simp only [targeting, within, List.filter_filter, Bool.and_comm]
    rw [hcomm, hcomm, PhasePlan.targeting_schedule_ofOperations]
  have hleft := agreeOn_runAll_within options hclosed' h
  have hmiddle := agreeOn_runAll_of_settled options hsettled' hsettled htargets right
  have hright := agreeOn_runAll_within options hclosed (Draft.AgreeOn.refl S right)
  exact (hleft.trans (hmiddle.mono fun _ _ => trivial)).trans hright.symm

end Operation

end EventSchema
