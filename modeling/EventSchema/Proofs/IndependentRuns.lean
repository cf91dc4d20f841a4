import EventSchema.Proofs.DryRun
import EventSchema.Proofs.Replay

/-!
# Independent runs

What happens at a location in a run is decided by the operations on it, as long as no other
operation touches what they look at.  So operations that read nothing that any of them edits lead to
the same draft, with the same outcomes at every location, in any order that keeps the operations of
each target in theirs.

Main results:

- {lit}`Operation.targeting_trace`: the outcomes at a location come from the operations on it.
- {lit}`Operation.uncoupled_operations_commute`: uncoupled operations can be run in any order.
-/

namespace EventSchema

open Std

namespace Draft

/-- Drafts that agree everywhere list the same definitions. -/
theorem AgreeOn.definitions_eq {left right : Draft} (h : AgreeOn (fun _ => True) left right) :
    left.definitions = right.definitions := by
  ext l : 1
  rw [getElem?_definitions, getElem?_definitions, (h l trivial).definition]

/-- Drafts that agree everywhere have the same failures. -/
theorem AgreeOn.failed_eq {left right : Draft} (h : AgreeOn (fun _ => True) left right) :
    left.failed = right.failed := by
  ext l : 1
  exact (h l trivial).failure

/-- Drafts that agree everywhere have their contents from the same extensions. -/
theorem AgreeOn.lineage_eq {left right : Draft} (h : AgreeOn (fun _ => True) left right) :
    left.lineage = right.lineage := by
  ext l : 1
  exact (h l trivial).origin

end Draft

namespace Operation

/-! ## What happens at one location -/

/-- A run leaves the entries of a location to the operations on it. -/
theorem targeting_trace (options : Options) {ops : List Operation} {l : Location}
    {S : Location → Prop} (hl : S l) (hreads : ∀ op ∈ ops, op.target = l → ∀ k, op.LooksAt k → S k)
    (hkeeps : ∀ op ∈ ops, S op.target → op.target = l) {left right : Draft}
    (h : Draft.AgreeOn S left right) :
    LogEntry.targeting (trace options left ops) l = trace options right (targeting ops l) := by
  -- The right run skips all operations elsewhere, and these leave agreement on the set alone.
  induction ops generalizing left right with
  | nil => rfl
  | cons op rest ih =>
    have hrest {left right : Draft} (h : Draft.AgreeOn S left right) :=
      ih (fun other ho => hreads other (List.mem_cons_of_mem op ho))
        (fun other ho => hkeeps other (List.mem_cons_of_mem op ho)) h
    rw [trace, LogEntry.targeting_cons]
    by_cases htarget : op.target = l
    · subst htarget
      have houtcome := outcome_congr (h.mono (hreads op List.mem_cons_self rfl)) options
      have hnext : Draft.AgreeOn S (op.run left options) (op.run right options) := by
        intro k hk
        by_cases hne : op.target = k
        · subst hne
          exact sameAt_run houtcome (h op.target hl)
        · exact ((op.sameAt_run_of_ne left options hne).trans (h k hk)).trans
            (op.sameAt_run_of_ne right options hne).symm
      rw [if_pos rfl, targeting_cons_self, trace, houtcome, hrest hnext]
    · rw [if_neg htarget, targeting_cons_of_ne htarget]
      refine hrest fun k hk => ?_
      have hne : op.target ≠ k := by
        rintro rfl
        exact htarget (hkeeps op List.mem_cons_self hk)
      exact (op.sameAt_run_of_ne left options hne).trans (h k hk)

/-! ## Any order -/

/-- No operation reads what one of them edits, be it by its location or among all categories. -/
structure Uncoupled (ops : List Operation) : Prop where
  prerequisites : ∀ op ∈ ops, ∀ p ∈ op.prerequisites, ∀ other ∈ ops, other.target ≠ p
  categories : (∃ op ∈ ops, ∃ category, op.action = .setCategory category) →
    ∀ op ∈ ops, op.target.kind ≠ .category

namespace Uncoupled

variable {ops other : List Operation}

/-- What an uncoupled operation consults is edited only by operations with its target. -/
theorem target_eq (h : Uncoupled ops) {op writer : Operation} (hop : op ∈ ops)
    (hwriter : writer ∈ ops) (hconsults : op.Consults writer.target) :
    writer.target = op.target := by
  rcases hconsults with htarget | hread | ⟨hcategory, hkind⟩
  · exact htarget
  · exact absurd rfl (h.prerequisites op hop _ hread writer hwriter)
  · exact absurd hkind (h.categories ⟨op, hop, hcategory⟩ writer hwriter)

theorem perm (h : Uncoupled ops) (hperm : ops.Perm other) : Uncoupled other := by
  constructor
  · intro op hop p hp writer hwriter
    exact h.prerequisites op (hperm.mem_iff.2 hop) p hp writer (hperm.mem_iff.2 hwriter)
  · rintro ⟨op, hop, hcategory⟩ writer hwriter
    exact h.categories ⟨op, hperm.mem_iff.2 hop, hcategory⟩ writer (hperm.mem_iff.2 hwriter)

theorem settled (h : Uncoupled ops) : Settled ops :=
  settled_of_forall fun _ hop _ hwriter hconsults => h.target_eq hop hwriter hconsults

/-- The outcomes of uncoupled operations on a location do not depend on the others. -/
theorem targeting_trace (h : Uncoupled ops) (options : Options) (draft : Draft) (l : Location) :
    LogEntry.targeting (trace options draft ops) l = trace options draft (targeting ops l) := by
  let S (k : Location) : Prop := k = l ∨ ∃ op ∈ ops, op.target = l ∧ op.Consults k
  refine Operation.targeting_trace options (S := S) (Or.inl rfl) ?_ ?_ (.refl S draft)
  · exact fun op hop htarget k hk => Or.inr ⟨op, hop, htarget, hk.consults⟩
  · rintro op hop (htarget | ⟨reader, hreader, rfl, hconsults⟩)
    · exact htarget
    · exact h.target_eq hreader hop hconsults

/-- In another order uncoupled operations have the same outcomes at every location. -/
theorem targeting_trace_eq (h : Uncoupled ops)
    (htargets : ∀ l, targeting ops l = targeting other l) (options : Options) (draft : Draft)
    (l : Location) :
    LogEntry.targeting (trace options draft ops) l =
      LogEntry.targeting (trace options draft other) l := by
  rw [h.targeting_trace, (h.perm (perm_of_targeting_eq htargets)).targeting_trace, htargets l]

/-- In another order uncoupled operations lead to the same draft. -/
theorem agreeOn_runAll (h : Uncoupled ops)
    (htargets : ∀ l, targeting ops l = targeting other l) (options : Options) (draft : Draft) :
    Draft.AgreeOn (fun _ => True) (runAll options draft ops) (runAll options draft other) :=
  agreeOn_runAll_of_settled options h.settled (h.perm (perm_of_targeting_eq htargets)).settled
    htargets draft

end Uncoupled

/--
Uncoupled operations commute: in two orders that have the same operations on every target, one after
another, they lead to the same definitions, the same failures for the same reasons and the same
origins, with the same outcomes at every target.
-/
theorem uncoupled_operations_commute (options : Options) (draft : Draft)
    {ops other : List Operation} (huncoupled : Uncoupled ops)
    (htargets : ∀ l, targeting ops l = targeting other l) :
    (runAll options draft ops).definitions = (runAll options draft other).definitions ∧
      (runAll options draft ops).failed = (runAll options draft other).failed ∧
      (runAll options draft ops).lineage = (runAll options draft other).lineage ∧
      ∀ l, LogEntry.targeting (trace options draft ops) l =
        LogEntry.targeting (trace options draft other) l := by
  have hagree := huncoupled.agreeOn_runAll htargets options draft
  exact ⟨hagree.definitions_eq, hagree.failed_eq, hagree.lineage_eq,
    huncoupled.targeting_trace_eq htargets options draft⟩

/-- A draft with a class, a category for it and a dictionary for its attribute. -/
def classToFill : Draft :=
  (((Draft.ofRepository .empty).write (.inCore .category "network")
    ⟨[("name", .str "network")]⟩).write (.inCore .dictionary "uid")
    ⟨[("type", .str "string_t")]⟩).write (.inCore .eventClass "http")
    ⟨[("name", .str "http"), ("attributes", .obj [("uid", .obj [])])]⟩

/-- The class gets its category and its attribute filled, and an object is missing. -/
def fillAndCategorize : List Operation :=
  [⟨.inCore .object "user", .fillAttribute "uid" (.inCore .dictionary "uid")⟩,
    ⟨.inCore .eventClass "http", .fillAttribute "uid" (.inCore .dictionary "uid")⟩,
    ⟨.inCore .eventClass "http", .setCategory "network"⟩]

/-- The same operations, with the one for the object last. -/
def fillAndCategorizeLate : List Operation :=
  [⟨.inCore .eventClass "http", .fillAttribute "uid" (.inCore .dictionary "uid")⟩,
    ⟨.inCore .eventClass "http", .setCategory "network"⟩,
    ⟨.inCore .object "user", .fillAttribute "uid" (.inCore .dictionary "uid")⟩]

theorem fill_and_categorize_commute :
    (runAll {} classToFill fillAndCategorize).definitions =
        (runAll {} classToFill fillAndCategorizeLate).definitions ∧
      (((runAll {} classToFill fillAndCategorizeLate).get? (.inCore .eventClass "http")).bind
        Definition.category?) = some "network" ∧
      (((runAll {} classToFill fillAndCategorizeLate).failure? (.inCore .object "user")).map
        Failure.reason) = some "target object:user not found" := by
  have huncoupled : Uncoupled fillAndCategorize := by
    constructor
    · simp [fillAndCategorize, prerequisites, Action.source?, Location.inCore]
    · simp [fillAndCategorize, Location.inCore]
  have htargets (l : Location) :
      targeting fillAndCategorize l = targeting fillAndCategorizeLate l := by
    by_cases hobject : Location.inCore .object "user" = l
    · subst hobject
      rfl
    · simp [targeting, fillAndCategorize, fillAndCategorizeLate, List.filter_cons, hobject]
  have hcommute := uncoupled_operations_commute {} classToFill huncoupled htargets
  exact ⟨hcommute.1, by decide +kernel, by decide +kernel⟩

end Operation

end EventSchema
