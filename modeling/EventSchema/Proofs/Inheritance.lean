import EventSchema.Planner.Inheritance
import EventSchema.Proofs.Reordering

/-!
# The order of inheritance

The walk down the links of inheritance leaves every record once.  If it finds no parent behind its
child, each record inherits after its parent has done so, and no parent changes any more.

Main results:

- {lit}`Inheritance.nodup_order`: no record is listed twice.
- {lit}`Inheritance.parent_before`: in an order without a late parent, parents come first.
- {lit}`Planner.settled_inherit`: what is planned for inheritance is settled.
-/

namespace EventSchema

namespace Inheritance

/-! ## Every record once -/

/-- One walk down the links has come further than another. -/
structure Descent.Later (before after : Descent) : Prop where
  discovered : ∀ l ∈ before.discovered, l ∈ after.discovered
  /-- What has been left since had not been discovered before. -/
  left : ∃ fresh, after.left = fresh ++ before.left ∧ fresh.Nodup ∧
    ∀ l ∈ fresh, l ∈ after.discovered ∧ l ∉ before.discovered

theorem Descent.Later.refl (walk : Descent) : walk.Later walk :=
  ⟨fun _ h => h, [], rfl, .nil, by simp⟩

theorem Descent.Later.trans {first second third : Descent} (h : first.Later second)
    (h' : second.Later third) : first.Later third := by
  rcases h.left with ⟨fresh, hfresh, hnodup, hnew⟩
  rcases h'.left with ⟨fresh', hfresh', hnodup', hnew'⟩
  refine ⟨fun l hl => h'.discovered l (h.discovered l hl), fresh' ++ fresh, ?_, ?_, ?_⟩
  · rw [hfresh', hfresh, List.append_assoc]
  · refine List.nodup_append.2 ⟨hnodup', hnodup, fun a ha b hb heq => ?_⟩
    exact (hnew' a ha).2 (heq ▸ (hnew b hb).1)
  · intro l hl
    rcases List.mem_append.1 hl with hl | hl
    · exact ⟨(hnew' l hl).1, fun hold => (hnew' l hl).2 (h.discovered l hold)⟩
    · exact ⟨h'.discovered l (hnew l hl).1, (hnew l hl).2⟩

/-- Steps that go on are later one after another. -/
theorem later_foldl {f : Descent → Location → Descent}
    (hf : ∀ (walk : Descent) l, walk.Later (f walk l)) (places : List Location) (walk : Descent) :
    walk.Later (places.foldl f walk) := by
  induction places generalizing walk with
  | nil => exact .refl walk
  | cons l rest ih => exact (hf walk l).trans (ih (f walk l))

/-- A descent goes on. -/
theorem later_descend (i : Inheritance) (depth : Nat) (walk : Descent) (l : Location) :
    walk.Later (i.descend depth walk l) := by
  induction depth generalizing walk l with
  | zero => exact .refl walk
  | succ depth ih =>
    rw [descend]
    split
    · exact .refl walk
    · rename_i hnew
      have hl : l ∉ walk.discovered := fun hmem => hnew (List.contains_iff_mem.2 hmem)
      have hbelow := later_foldl ih (i.children l) { walk with discovered := l :: walk.discovered }
      rcases hbelow.left with ⟨fresh, hfresh, hnodup, hfreshnew⟩
      refine ⟨fun k hk => hbelow.discovered k (List.mem_cons_of_mem l hk), l :: fresh, ?_, ?_, ?_⟩
      · exact congrArg (l :: ·) hfresh
      · refine List.nodup_cons.2 ⟨fun hmem => ?_, hnodup⟩
        exact (hfreshnew l hmem).2 List.mem_cons_self
      · intro k hk
        rcases List.mem_cons.1 hk with rfl | hk
        · exact ⟨hbelow.discovered k List.mem_cons_self, hl⟩
        · have hkept := hfreshnew k hk
          exact ⟨hkept.1, fun hold => hkept.2 (List.mem_cons_of_mem l hold)⟩

/-- No record is listed twice. -/
theorem nodup_order (i : Inheritance) : i.order.Nodup := by
  have hlater := later_foldl (i.later_descend (i.records.length + 1)) i.records {}
  rcases hlater.left with ⟨fresh, hfresh, hnodup, -⟩
  rw [order, hfresh]
  simpa using hnodup

/-! ## Parents first -/

/-- If no parent is late, each comes before its child. -/
theorem parent_mem_of_lateParent? {i : Inheritance} {seen items : List Location}
    (h : i.lateParent? seen items = none) {before after : List Location} {child parent : Location}
    (hsplit : items = before ++ child :: after) (hparent : i.parents[child]? = some parent) :
    parent ∈ before ∨ parent ∈ seen := by
  induction before generalizing seen items with
  | nil =>
    subst hsplit
    rw [List.nil_append, lateParent?, hparent] at h
    by_cases hseen : parent ∈ seen
    · exact Or.inr hseen
    · simp [hseen] at h
  | cons first rest ih =>
    subst hsplit
    have hrest : i.lateParent? (first :: seen) (rest ++ child :: after) = none := by
      rw [List.cons_append, lateParent?] at h
      split at h
      · split at h
        · exact h
        · cases h
      · exact h
    rcases ih hrest rfl with hmem | hmem
    · exact Or.inl (List.mem_cons_of_mem first hmem)
    · rcases List.mem_cons.1 hmem with rfl | hmem
      · exact Or.inl List.mem_cons_self
      · exact Or.inr hmem

/-- In an order without a late parent, each parent comes before its children. -/
theorem parent_before {i : Inheritance} {order : List Location} (h : i.parentsFirst = .ok order)
    {before after : List Location} {child parent : Location}
    (hsplit : order = before ++ child :: after) (hparent : i.parents[child]? = some parent) :
    parent ∈ before := by
  unfold parentsFirst at h
  split at h
  · cases h
  · rename_i hlate
    cases h
    rcases parent_mem_of_lateParent? hlate hsplit hparent with hmem | hmem
    · exact hmem
    · cases hmem

/-- An order with parents first lists no location twice. -/
theorem nodup_of_parentsFirst {i : Inheritance} {order : List Location}
    (h : i.parentsFirst = .ok order) : order.Nodup := by
  unfold parentsFirst at h
  split at h
  · cases h
  · cases h
    exact i.nodup_order

end Inheritance

namespace Planner

/-- What is planned for inheritance is settled: parents are finished before they are read. -/
theorem settled_inherit {draft : Draft} {ops : List Operation} (h : inherit draft = .ok ops) :
    Operation.Settled ops := by
  unfold inherit at h
  dsimp only at h
  split at h
  · cases h
  · rename_i order horder
    cases h
    rw [Operation.Settled, List.pairwise_filterMap]
    refine Operation.pairwise_of_split fun before child after hsplit later hlater => ?_
    intro op hop other hother hconsults
    rcases Option.map_eq_some_iff.1 hop with ⟨parent, hparent, rfl⟩
    rcases Option.map_eq_some_iff.1 hother with ⟨parent', -, rfl⟩
    rcases hconsults with heq | hreads | ⟨⟨category, hcategory⟩, -⟩
    · exact heq
    · have hlate : later = parent := by simpa [Operation.prerequisites, Action.source?] using hreads
      have hbefore := Inheritance.parent_before horder hsplit hparent
      have hnodup := Inheritance.nodup_of_parentsFirst horder
      rw [hsplit] at hnodup
      have hdisjoint := (List.nodup_append.1 hnodup).2.2 parent hbefore later
        (List.mem_cons_of_mem child hlater)
      exact absurd hlate.symm hdisjoint
    · cases hcategory

end Planner

end EventSchema
