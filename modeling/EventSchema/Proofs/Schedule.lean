import EventSchema.Plan.Basic
import Mathlib.Data.List.Basic
import Mathlib.Logic.Relation

/-!
# The schedule of a phase

The schedule of a phase comes from a depth-first walk over the targets that puts out the operations
of a target while it is under way.  A target is open while its own operations are being put out,
and closed afterwards.  Whatever is open depends on the target the walk has come to, so a
prerequisite that does not depend on its reader is never open: it is closed, or the walk closes it
before it goes on.

Main results:

- {lit}`PhasePlan.targeting_schedule`: the schedule keeps the order of the operations of a target.
- {lit}`PhasePlan.schedule_perm`: the schedule has every operation exactly once.
- {lit}`PhasePlan.targeting_before_of_schedule`: what an operation reads is finished before it.
- {lit}`PhasePlan.schedule_complete_and_ordered`: all of it for a plan made by pushing.
-/

namespace EventSchema

open Relation Std

/-- Lists that agree on what they have for every location are permutations of each other. -/
theorem perm_of_filter_eq {α : Type} (place : α → Location) {items other : List α}
    (h : ∀ l, (items.filter fun a => place a == l) = other.filter fun a => place a == l) :
    items.Perm other := by
  classical
  rw [List.perm_iff_count]
  intro a
  have hself (list : List α) : (list.filter fun b => place b == place a).count a = list.count a :=
    List.count_filter (by simp)
  rw [← hself items, ← hself other, h (place a)]

namespace Operation

/-- The operations with a target, in order. -/
def targeting (ops : List Operation) (l : Location) : List Operation :=
  ops.filter fun op => op.target == l

@[simp]
theorem targeting_nil (l : Location) : targeting [] l = [] := rfl

@[simp]
theorem targeting_append (ops more : List Operation) (l : Location) :
    targeting (ops ++ more) l = targeting ops l ++ targeting more l :=
  List.filter_append ..

@[simp]
theorem targeting_cons_self (op : Operation) (ops : List Operation) :
    targeting (op :: ops) op.target = op :: targeting ops op.target := by
  simp [targeting]

/-- The operations on a location are not those on others. -/
theorem targeting_cons_of_ne {op : Operation} {l : Location} (h : op.target ≠ l)
    (ops : List Operation) : targeting (op :: ops) l = targeting ops l := by
  simp [targeting, h]

/-- The operations on a location are those with it as their target. -/
theorem mem_targeting {ops : List Operation} {l : Location} {op : Operation} :
    op ∈ targeting ops l ↔ op ∈ ops ∧ op.target = l := by
  simp [targeting]

/-- A location without operations is no target. -/
theorem targeting_eq_nil_iff {ops : List Operation} {l : Location} :
    targeting ops l = [] ↔ ∀ op ∈ ops, op.target ≠ l := by
  simp [targeting]

/-- Of operations on different locations only one is about its target. -/
theorem targeting_eq_singleton {ops : List Operation}
    (h : ops.Pairwise fun a b => a.target ≠ b.target) {op : Operation} (hop : op ∈ ops) :
    targeting ops op.target = [op] := by
  obtain ⟨before, after, rfl⟩ := List.append_of_mem hop
  obtain ⟨-, hafter, hbefore⟩ := List.pairwise_append.1 h
  rw [targeting_append, targeting_cons_self,
    targeting_eq_nil_iff.2 fun other hother => hbefore other hother op List.mem_cons_self,
    targeting_eq_nil_iff.2 fun other hother => ((List.pairwise_cons.1 hafter).1 other hother).symm,
    List.nil_append]

/-- Lists that agree on the operations of every target are permutations of each other. -/
theorem perm_of_targeting_eq {ops other : List Operation}
    (h : ∀ l, targeting ops l = targeting other l) : ops.Perm other :=
  perm_of_filter_eq Operation.target h

/-- Some operation with one location as its target reads the other. -/
def Reads (ops : List Operation) (l p : Location) : Prop :=
  ∃ op ∈ ops, op.target = l ∧ p ∈ op.prerequisites

/-- A location reads another one through a chain of operations. -/
def DependsOn (ops : List Operation) (l p : Location) : Prop := TransGen (Reads ops) l p

end Operation

open Operation

namespace PhasePlan

/-! ## Plans made by pushing -/

/-- The operations planned for a target are those that were pushed for it. -/
theorem get_ofOperations (phase : Phase) (ops : List Operation) (l : Location) :
    (ofOperations phase ops).get l = targeting ops l := by
  have hfold (plan : PhasePlan) : (ops.foldl push plan).get l = plan.get l ++ targeting ops l := by
    induction ops generalizing plan with
    | nil => simp
    | cons op rest ih =>
      rw [List.foldl_cons, ih, get_push]
      by_cases h : op.target = l
      · simp [targeting, h]
      · simp [targeting, h]
  rw [ofOperations, hfold]
  simp [get]

/-- A location is a target exactly if something is planned for it. -/
def Proper (plan : PhasePlan) : Prop :=
  ∀ l, plan.operations.contains l = true ↔ plan.get l ≠ []

/-- A plan lists no target without operations. -/
theorem proper_ofOperations (phase : Phase) (ops : List Operation) :
    (ofOperations phase ops).Proper := by
  have hfold (plan : PhasePlan) (h : plan.Proper) : (ops.foldl push plan).Proper := by
    induction ops generalizing plan with
    | nil => exact h
    | cons op rest ih =>
      refine ih _ fun l => ?_
      rw [get_push, push]
      by_cases hl : op.target = l
      · simp [hl]
      · simpa [hl] using h l
  exact hfold _ fun l => by simp [get]

/-- Every planned operation has the target it is planned for. -/
def Filed (plan : PhasePlan) : Prop := ∀ l, ∀ op ∈ plan.get l, op.target = l

/-- A plan files each operation under its target. -/
theorem filed_ofOperations (phase : Phase) (ops : List Operation) :
    (ofOperations phase ops).Filed := by
  intro l op hop
  rw [get_ofOperations] at hop
  exact (mem_targeting.1 hop).2

/-! ## One visit -/

/-- Put out one operation behind what is planned for the locations that it reads. -/
def serve (plan : PhasePlan) (depth : Nat) (walk : Walk) (op : Operation) : Walk :=
  ((op.prerequisites.filter plan.operations.contains).foldl (plan.visit depth) walk).emit op

/-- Open a target. -/
def Walk.enter (walk : Walk) (l : Location) : Walk := { walk with visited := l :: walk.visited }

/-- A location is visited once. -/
theorem visit_of_mem (plan : PhasePlan) (depth : Nat) {walk : Walk} {l : Location}
    (h : l ∈ walk.visited) : plan.visit (depth + 1) walk l = walk := by
  simp [visit, h]

/-- A visit serves the operations on a location one after another. -/
theorem visit_of_not_mem (plan : PhasePlan) (depth : Nat) {walk : Walk} {l : Location}
    (h : l ∉ walk.visited) :
    plan.visit (depth + 1) walk l = (plan.get l).foldl (plan.serve depth) (walk.enter l) := by
  simp only [visit, List.contains_iff_mem, h]
  rfl

/-- What a walk does later: it visits more, and puts out nothing for what it has visited before. -/
structure Walk.Later (before after : Walk) : Prop where
  visited : ∀ t ∈ before.visited, t ∈ after.visited
  kept : ∀ t ∈ before.visited,
    targeting after.scheduled.reverse t = targeting before.scheduled.reverse t

theorem Walk.Later.refl (walk : Walk) : walk.Later walk := ⟨fun _ h => h, fun _ _ => rfl⟩

theorem Walk.Later.trans {first second third : Walk} (h : first.Later second)
    (h' : second.Later third) : first.Later third :=
  ⟨fun t ht => h'.visited t (h.visited t ht),
    fun t ht => (h'.kept t (h.visited t ht)).trans (h.kept t ht)⟩

/-- What is planned for one location reads the other. -/
def Reads (plan : PhasePlan) (l p : Location) : Prop :=
  ∃ op ∈ plan.get l, p ∈ op.prerequisites

/--
The state of a walk while some targets are open.  Nothing is out for a target that has not been
visited, everything for one that is closed, and each operation that is out came behind all
operations on what it reads, unless that depends on its own target.
-/
structure Walk.Sound (plan : PhasePlan) (opened : List Location) (walk : Walk) : Prop where
  fresh : ∀ t, t ∉ walk.visited → targeting walk.scheduled.reverse t = []
  closed : ∀ t ∈ walk.visited, t ∉ opened → targeting walk.scheduled.reverse t = plan.get t
  ordered : ∀ op earlier, op :: earlier <:+ walk.scheduled → ∀ p ∈ op.prerequisites,
    p ≠ op.target → ¬ TransGen plan.Reads p op.target → targeting earlier.reverse p = plan.get p

/-- The number of targets that a walk has not come to. -/
def unvisited (plan : PhasePlan) (walk : Walk) : Nat :=
  (plan.targets.filter fun t => t ∉ walk.visited).length

/-- The more is visited, the less is left. -/
theorem unvisited_le_of_visited {plan : PhasePlan} {before after : Walk}
    (h : ∀ t ∈ before.visited, t ∈ after.visited) :
    plan.unvisited after ≤ plan.unvisited before := by
  apply List.Sublist.length_le
  apply List.monotone_filter_right
  intro t ht
  simp only [decide_eq_true_eq] at ht ⊢
  exact fun hmem => ht (h t hmem)

/-- There is less left to visit once a target is. -/
theorem unvisited_enter_lt {plan : PhasePlan} {walk : Walk} {l : Location} (hl : l ∈ plan.targets)
    (h : l ∉ walk.visited) : plan.unvisited (walk.enter l) < plan.unvisited walk := by
  have hsplit : (plan.targets.filter fun t => t ∉ (walk.enter l).visited) =
      (plan.targets.filter fun t => t ∉ walk.visited).filter fun t => t ≠ l := by
    rw [List.filter_filter]
    apply List.filter_congr
    intro t _
    simp [Walk.enter]
  rw [unvisited, hsplit]
  apply List.length_filter_lt_length_iff_exists.2
  exact ⟨l, List.mem_filter.2 ⟨hl, by simpa using h⟩, by simp⟩

/-- A visit closes what it comes to, as long as its depth is more than what is left to visit. -/
def VisitSound (plan : PhasePlan) (depth : Nat) : Prop :=
  ∀ (opened : List Location) (walk : Walk) (l : Location), walk.Sound plan opened →
    l ∈ plan.targets → (∀ t ∈ opened, TransGen plan.Reads t l) → plan.unvisited walk < depth →
    (plan.visit depth walk l).Sound plan opened ∧ walk.Later (plan.visit depth walk l) ∧
      l ∈ (plan.visit depth walk l).visited

/-- Visits one after another are sound if each is, and reach all places. -/
theorem foldl_visit_sound {plan : PhasePlan} {depth : Nat} (hvisit : plan.VisitSound depth)
    {opened : List Location} (places : List Location) :
    ∀ walk : Walk, walk.Sound plan opened → (∀ p ∈ places, p ∈ plan.targets) →
      (∀ p ∈ places, ∀ t ∈ opened, TransGen plan.Reads t p) → plan.unvisited walk < depth →
      (places.foldl (plan.visit depth) walk).Sound plan opened ∧
        walk.Later (places.foldl (plan.visit depth) walk) ∧
        ∀ p ∈ places, p ∈ (places.foldl (plan.visit depth) walk).visited := by
  induction places with
  | nil =>
    intro walk h _ _ _
    exact ⟨h, .refl walk, by simp⟩
  | cons p rest ih =>
    intro walk h htargets hopened hdepth
    rcases hvisit opened walk p h (htargets p List.mem_cons_self) (hopened p List.mem_cons_self)
        hdepth with
      ⟨hsound, hlater, hmem⟩
    rcases ih (plan.visit depth walk p) hsound (fun q hq => htargets q (List.mem_cons_of_mem p hq))
        (fun q hq => hopened q (List.mem_cons_of_mem p hq)) (Nat.lt_of_le_of_lt
        (unvisited_le_of_visited hlater.visited) hdepth) with
      ⟨hsound', hlater', hmem'⟩
    refine ⟨hsound', hlater.trans hlater', fun q hq => ?_⟩
    rcases List.mem_cons.1 hq with rfl | hq
    · exact hlater'.visited _ hmem
    · exact hmem' q hq

/-- Putting out one operation of a target keeps the other targets as they are. -/
theorem Walk.Sound.emit {plan : PhasePlan} {opened : List Location} {walk : Walk} {l : Location}
    {op : Operation} (h : walk.Sound plan (l :: opened)) (hl : l ∈ walk.visited)
    (htarget : op.target = l)
    (hreads : ∀ p ∈ op.prerequisites, p ≠ op.target → ¬ TransGen plan.Reads p op.target →
      targeting walk.scheduled.reverse p = plan.get p) :
    (walk.emit op).Sound plan (l :: opened) := by
  have hother (t : Location) (ht : t ≠ l) :
      targeting (walk.emit op).scheduled.reverse t = targeting walk.scheduled.reverse t := by
    simp [Walk.emit, targeting_cons_of_ne (htarget.trans_ne ht.symm)]
  refine ⟨fun t ht => ?_, fun t ht hopen => ?_, fun other earlier hsuffix => ?_⟩
  · have hne : t ≠ l := fun heq => ht (heq ▸ hl)
    rw [hother t hne]
    exact h.fresh t ht
  · have hne : t ≠ l := fun heq => hopen (heq ▸ List.mem_cons_self)
    rw [hother t hne]
    exact h.closed t ht hopen
  · rcases List.suffix_cons_iff.1 hsuffix with heq | hsuffix
    · rcases List.cons.inj heq with ⟨rfl, rfl⟩
      exact hreads
    · exact h.ordered other earlier hsuffix

/-- Serving an operation of an open target adds it to what is out for that target. -/
theorem serve_sound {plan : PhasePlan} {depth : Nat} (hproper : plan.Proper) (hfiled : plan.Filed)
    (hvisit : plan.VisitSound depth) {opened : List Location} {walk : Walk} {l : Location}
    {op : Operation} (h : walk.Sound plan (l :: opened)) (hl : l ∈ walk.visited)
    (hop : op ∈ plan.get l) (hopened : ∀ t ∈ opened, TransGen plan.Reads t l)
    (hdepth : plan.unvisited walk < depth) :
    (plan.serve depth walk op).Sound plan (l :: opened) ∧
      (∀ t ∈ walk.visited, t ∈ (plan.serve depth walk op).visited ∧ (t ≠ l →
        targeting (plan.serve depth walk op).scheduled.reverse t =
          targeting walk.scheduled.reverse t)) ∧
      targeting (plan.serve depth walk op).scheduled.reverse l =
        targeting walk.scheduled.reverse l ++ [op] := by
  have htarget : op.target = l := hfiled l op hop
  have hdepends : ∀ p ∈ op.prerequisites, ∀ t ∈ l :: opened, TransGen plan.Reads t p := by
    intro p hp t ht
    have hread : plan.Reads l p := ⟨op, hop, hp⟩
    rcases List.mem_cons.1 ht with rfl | ht
    · exact .single hread
    · exact (hopened t ht).tail hread
  obtain ⟨hsound, hlater, hmem⟩ := foldl_visit_sound hvisit
    (op.prerequisites.filter plan.operations.contains) walk h
    (fun p hp => by
      rw [targets, ExtTreeMap.mem_keys, ← ExtTreeMap.contains_iff_mem]
      exact (List.mem_filter.1 hp).2)
    (fun p hp => hdepends p (List.mem_filter.1 hp).1) hdepth
  set before := (op.prerequisites.filter plan.operations.contains).foldl (plan.visit depth) walk
    with hbefore
  have hserve : plan.serve depth walk op = before.emit op := rfl
  rw [hserve]
  refine ⟨hsound.emit (hlater.visited l hl) htarget ?_, fun t ht => ⟨hlater.visited t ht, ?_⟩, ?_⟩
  · -- What is read is closed by now: an open location would depend on the target.
    intro p hp hne hindependent
    have hclosed : p ∉ l :: opened := by
      intro hopen
      rcases List.mem_cons.1 hopen with rfl | hopen
      · exact hne htarget.symm
      · exact hindependent (htarget ▸ hopened p hopen)
    by_cases hp' : p ∈ before.visited
    · exact hsound.closed p hp' hclosed
    · have hnone : plan.get p = [] := by
        by_contra hsome
        exact hp' (hmem p (List.mem_filter.2 ⟨hp, (hproper p).2 hsome⟩))
      rw [hsound.fresh p hp', hnone]
  · intro hne
    rw [← hlater.kept t ht]
    simp [Walk.emit, targeting_cons_of_ne (htarget.trans_ne hne.symm)]
  · rw [← hlater.kept l hl]
    simp [Walk.emit, ← htarget]

/-- Serving the rest of an open target's operations puts all of them out, in order. -/
theorem foldl_serve_sound {plan : PhasePlan} {depth : Nat} (hproper : plan.Proper)
    (hfiled : plan.Filed) (hvisit : plan.VisitSound depth) {opened : List Location} {l : Location}
    (hopened : ∀ t ∈ opened, TransGen plan.Reads t l) (ops : List Operation) :
    ∀ walk : Walk, walk.Sound plan (l :: opened) → l ∈ walk.visited →
      (∀ op ∈ ops, op ∈ plan.get l) → plan.unvisited walk < depth →
      (ops.foldl (plan.serve depth) walk).Sound plan (l :: opened) ∧
        (∀ t ∈ walk.visited, t ∈ (ops.foldl (plan.serve depth) walk).visited ∧ (t ≠ l →
          targeting (ops.foldl (plan.serve depth) walk).scheduled.reverse t =
            targeting walk.scheduled.reverse t)) ∧
        targeting (ops.foldl (plan.serve depth) walk).scheduled.reverse l =
          targeting walk.scheduled.reverse l ++ ops := by
  induction ops with
  | nil =>
    intro walk h _ _ _
    exact ⟨h, fun t ht => ⟨ht, fun _ => rfl⟩, by simp⟩
  | cons op rest ih =>
    intro walk h hl hops hdepth
    rcases serve_sound hproper hfiled hvisit h hl (hops op List.mem_cons_self) hopened hdepth with
      ⟨hsound, hkept, hout⟩
    rcases ih (plan.serve depth walk op) hsound (hkept l hl).1 (fun other ho => hops other
        (List.mem_cons_of_mem op ho)) (Nat.lt_of_le_of_lt (unvisited_le_of_visited fun t ht =>
        (hkept t ht).1) hdepth) with
      ⟨hsound', hkept', hout'⟩
    refine ⟨hsound', fun t ht => ⟨(hkept' t (hkept t ht).1).1, fun hne => ?_⟩, ?_⟩
    · exact ((hkept' t (hkept t ht).1).2 hne).trans ((hkept t ht).2 hne)
    · rw [List.foldl_cons, hout', hout, List.append_assoc, List.singleton_append]

/-- A visit of any depth is sound. -/
theorem visitSound (plan : PhasePlan) (hproper : plan.Proper) (hfiled : plan.Filed)
    (depth : Nat) : plan.VisitSound depth := by
  induction depth with
  | zero => exact fun _ _ _ _ _ _ hdepth => absurd hdepth (Nat.not_lt_zero _)
  | succ depth ih =>
    intro opened walk l h hl hopened hdepth
    by_cases hmem : l ∈ walk.visited
    · rw [visit_of_mem plan depth hmem]
      exact ⟨h, .refl walk, hmem⟩
    · rw [visit_of_not_mem plan depth hmem]
      have hentered : (walk.enter l).Sound plan (l :: opened) := by
        refine ⟨fun t ht => h.fresh t fun hv => ht (List.mem_cons_of_mem l hv), ?_, h.ordered⟩
        intro t ht hopen
        rcases List.mem_cons.1 ht with rfl | ht
        · exact absurd List.mem_cons_self hopen
        · exact h.closed t ht fun hv => hopen (List.mem_cons_of_mem l hv)
      rcases foldl_serve_sound hproper hfiled ih hopened (plan.get l) (walk.enter l) hentered
          List.mem_cons_self (fun _ hop => hop) (Nat.lt_of_lt_of_le (unvisited_enter_lt hl hmem)
          (Nat.le_of_lt_succ hdepth)) with
        ⟨hsound, hkept, hout⟩
      refine ⟨⟨hsound.fresh, fun t ht hopen => ?_, hsound.ordered⟩, ⟨?_, ?_⟩,
        (hkept l List.mem_cons_self).1⟩
      · by_cases hne : t = l
        · subst hne
          rw [hout]
          change targeting walk.scheduled.reverse t ++ plan.get t = plan.get t
          rw [h.fresh t hmem, List.nil_append]
        · exact hsound.closed t ht fun hv => (List.mem_cons.1 hv).elim hne hopen
      · exact fun t ht => (hkept t (List.mem_cons_of_mem l ht)).1
      · intro t ht
        have hne : t ≠ l := fun heq => hmem (heq ▸ ht)
        exact (hkept t (List.mem_cons_of_mem l ht)).2 hne

/-! ## The whole walk -/

/-- No more is left to visit than there are targets. -/
theorem unvisited_lt (plan : PhasePlan) (walk : Walk) :
    plan.unvisited walk < plan.operations.size + 1 := by
  have hlength : plan.targets.length = plan.operations.size := ExtTreeMap.length_keys
  exact Nat.lt_succ_of_le (hlength ▸ List.length_filter_le _ plan.targets)

/-- At the end of the walk no target is open, and all targets have been visited. -/
theorem sound_schedule (plan : PhasePlan) (hproper : plan.Proper) (hfiled : plan.Filed) :
    ∃ walk : Walk, plan.schedule = walk.scheduled.reverse ∧ walk.Sound plan [] ∧
      ∀ t ∈ plan.targets, t ∈ walk.visited := by
  have hstart : Walk.Sound plan [] {} := by
    refine ⟨by simp, by simp, fun op earlier hsuffix => ?_⟩
    simpa using List.suffix_nil.1 hsuffix
  obtain ⟨hsound, -, hmem⟩ := foldl_visit_sound
    (plan.visitSound hproper hfiled (plan.operations.size + 1)) plan.targets {} hstart
    (fun _ h => h) (by simp) (plan.unvisited_lt {})
  exact ⟨_, rfl, hsound, hmem⟩

/-- The schedule has exactly the operations of each target, in their order. -/
theorem targeting_schedule (plan : PhasePlan) (hproper : plan.Proper) (hfiled : plan.Filed)
    (l : Location) : targeting plan.schedule l = plan.get l := by
  rcases plan.sound_schedule hproper hfiled with ⟨walk, hschedule, hsound, hall⟩
  rw [hschedule]
  by_cases hl : l ∈ walk.visited
  · exact hsound.closed l hl List.not_mem_nil
  · have hnone : plan.get l = [] := by
      by_contra hsome
      refine hl (hall l ?_)
      rw [targets, ExtTreeMap.mem_keys, ← ExtTreeMap.contains_iff_mem]
      exact (hproper l).2 hsome
    rw [hsound.fresh l hl, hnone]

/-- Before an operation come all operations on a location that it reads independently. -/
theorem targeting_before (plan : PhasePlan) (hproper : plan.Proper) (hfiled : plan.Filed)
    {before after : List Operation} {op : Operation} (h : plan.schedule = before ++ op :: after)
    {p : Location} (hp : p ∈ op.prerequisites) (hne : p ≠ op.target)
    (hindependent : ¬ TransGen plan.Reads p op.target) : targeting before p = plan.get p := by
  rcases plan.sound_schedule hproper hfiled with ⟨walk, hschedule, hsound, -⟩
  have hreverse : walk.scheduled = after.reverse ++ op :: before.reverse := by
    rw [← List.reverse_reverse walk.scheduled, ← hschedule, h]
    simp
  have hordered := hsound.ordered op before.reverse ⟨after.reverse, hreverse.symm⟩ p hp hne
    hindependent
  rwa [List.reverse_reverse] at hordered

/-! ## The depth of the walk -/

/-- Folds that agree wherever an invariant holds agree from there on. -/
theorem foldl_congr_of_invariant {α β : Type} {f g : β → α → β} (P : β → Prop) (items : List α)
    (hstep : ∀ b, P b → ∀ a ∈ items, f b a = g b a ∧ P (f b a)) (b : β) (hb : P b) :
    items.foldl f b = items.foldl g b := by
  induction items generalizing b with
  | nil => rfl
  | cons a rest ih =>
    rcases hstep b hb a List.mem_cons_self with ⟨heq, hnext⟩
    rw [List.foldl_cons, List.foldl_cons, ← heq]
    exact ih (fun b hb a ha => hstep b hb a (List.mem_cons_of_mem _ ha)) _ hnext

/-- Visits one after another keep what has been visited. -/
theorem visited_foldl_visit {plan : PhasePlan} {depth : Nat}
    (hvisit : ∀ walk l, ∀ t ∈ walk.visited, t ∈ (plan.visit depth walk l).visited)
    (places : List Location) (walk : Walk) :
    ∀ t ∈ walk.visited, t ∈ (places.foldl (plan.visit depth) walk).visited := by
  induction places generalizing walk with
  | nil => exact fun _ h => h
  | cons p rest ih => exact fun t ht => ih _ t (hvisit walk p t ht)

/-- A visit keeps what has been visited. -/
theorem visited_visit (plan : PhasePlan) (depth : Nat) (walk : Walk) (l : Location) :
    ∀ t ∈ walk.visited, t ∈ (plan.visit depth walk l).visited := by
  induction depth generalizing walk l with
  | zero => exact fun _ h => h
  | succ depth ih =>
    by_cases hmem : l ∈ walk.visited
    · rw [visit_of_mem plan depth hmem]
      exact fun _ h => h
    · rw [visit_of_not_mem plan depth hmem]
      have hfold (ops : List Operation) (w : Walk) :
          ∀ t ∈ w.visited, t ∈ (ops.foldl (plan.serve depth) w).visited := by
        induction ops generalizing w with
        | nil => exact fun _ h => h
        | cons op rest ihops =>
          exact fun t ht => ihops _ t (visited_foldl_visit ih _ w t ht)
      exact fun t ht => hfold _ _ t (List.mem_cons_of_mem l ht)

/-- The depth does not matter as long as it is more than what is left to visit. -/
theorem visit_eq_visit (plan : PhasePlan) {depth other : Nat} {walk : Walk} {l : Location}
    (hl : l ∈ plan.targets) (hdepth : plan.unvisited walk < depth)
    (hother : plan.unvisited walk < other) : plan.visit depth walk l = plan.visit other walk l := by
  induction depth generalizing other walk l with
  | zero => exact absurd hdepth (Nat.not_lt_zero _)
  | succ depth ih =>
    rcases other with _ | other
    · exact absurd hother (Nat.not_lt_zero _)
    by_cases hmem : l ∈ walk.visited
    · rw [visit_of_mem plan depth hmem, visit_of_mem plan other hmem]
    rw [visit_of_not_mem plan depth hmem, visit_of_not_mem plan other hmem]
    let P (w : Walk) : Prop := plan.unvisited w < depth ∧ plan.unvisited w < other
    have hle {w w' : Walk} (hw : P w) (hv : ∀ t ∈ w.visited, t ∈ w'.visited) : P w' :=
      ⟨Nat.lt_of_le_of_lt (unvisited_le_of_visited hv) hw.1,
        Nat.lt_of_le_of_lt (unvisited_le_of_visited hv) hw.2⟩
    have hless := unvisited_enter_lt hl hmem
    refine foldl_congr_of_invariant P _ (fun w hw op _ => ⟨?_, ?_⟩) _ ⟨by omega, by omega⟩
    · unfold serve
      congr 1
      refine foldl_congr_of_invariant P _ (fun v hv p hp => ⟨?_, ?_⟩) w hw
      · refine ih ?_ hv.1 hv.2
        rw [targets, ExtTreeMap.mem_keys, ← ExtTreeMap.contains_iff_mem]
        exact (List.mem_filter.1 hp).2
      · exact hle hv (plan.visited_visit depth v p)
    · exact hle hw (visited_foldl_visit (plan.visited_visit depth) _ w)

/-- With any greater depth the walk puts out the same operations. -/
theorem schedule_eq_of_lt (plan : PhasePlan) {depth : Nat} (hdepth : plan.operations.size < depth) :
    (plan.targets.foldl (plan.visit depth) {}).scheduled.reverse = plan.schedule := by
  have hle (w : Walk) : plan.unvisited w < depth :=
    Nat.lt_of_lt_of_le (plan.unvisited_lt w) hdepth
  have hfold := foldl_congr_of_invariant (f := plan.visit depth)
    (g := plan.visit (plan.operations.size + 1)) (fun _ => True) plan.targets
    (fun w _ p hp => ⟨plan.visit_eq_visit hp (hle w) (plan.unvisited_lt w), trivial⟩) {} trivial
  rw [hfold, schedule]

/-! ## Plans made by pushing -/

/-- A plan reads what its operations read. -/
theorem reads_ofOperations (phase : Phase) (ops : List Operation) :
    (ofOperations phase ops).Reads = Operation.Reads ops := by
  funext l p
  simp only [Reads, Operation.Reads, get_ofOperations, mem_targeting, and_assoc]

/-- The schedule keeps the order of the operations of a target. -/
theorem targeting_schedule_ofOperations (phase : Phase) (ops : List Operation) (l : Location) :
    targeting (ofOperations phase ops).schedule l = targeting ops l := by
  rw [targeting_schedule _ (proper_ofOperations phase ops) (filed_ofOperations phase ops),
    get_ofOperations]

/-- The schedule has every operation exactly once. -/
theorem schedule_perm (phase : Phase) (ops : List Operation) :
    (ofOperations phase ops).schedule.Perm ops :=
  perm_of_targeting_eq (targeting_schedule_ofOperations phase ops)

/-- What an operation reads is finished before it, unless that depends on its own target. -/
theorem targeting_before_of_schedule (phase : Phase) {ops before after : List Operation}
    {op : Operation} (h : (ofOperations phase ops).schedule = before ++ op :: after) {p : Location}
    (hp : p ∈ op.prerequisites) (hne : p ≠ op.target)
    (hindependent : ¬ DependsOn ops p op.target) : targeting before p = targeting ops p := by
  rw [← get_ofOperations phase ops p]
  apply targeting_before _ (proper_ofOperations phase ops) (filed_ofOperations phase ops) h hp hne
  rwa [reads_ofOperations]

/-- After an operation nothing is done to what it reads, unless that depends on its own target. -/
theorem targeting_after_of_schedule (phase : Phase) {ops before after : List Operation}
    {op : Operation} (h : (ofOperations phase ops).schedule = before ++ op :: after) {p : Location}
    (hp : p ∈ op.prerequisites) (hne : p ≠ op.target)
    (hindependent : ¬ DependsOn ops p op.target) : targeting after p = [] := by
  have hbefore := targeting_before_of_schedule phase h hp hne hindependent
  have hall := targeting_schedule_ofOperations phase ops p
  rwa [h, targeting_append, hbefore, targeting_cons_of_ne hne.symm,
    List.append_right_eq_self] at hall

/--
The schedule of a plan that was made by pushing operations: the walk ends without its depth being
used up, it puts out every operation once and those of a target in the order they were pushed, and
an operation comes behind everything planned for a prerequisite that does not depend on its target.
-/
theorem schedule_complete_and_ordered (phase : Phase) (ops : List Operation) :
    let plan := ofOperations phase ops
    (∀ depth, plan.operations.size < depth →
      (plan.targets.foldl (plan.visit depth) {}).scheduled.reverse = plan.schedule) ∧
    plan.schedule.Perm ops ∧
    (∀ l, targeting plan.schedule l = targeting ops l) ∧
    ∀ before op after, plan.schedule = before ++ op :: after →
      ∀ p ∈ op.prerequisites, p ≠ op.target → ¬ DependsOn ops p op.target →
        targeting before p = targeting ops p ∧ targeting after p = [] := by
  intro plan
  refine ⟨fun depth => plan.schedule_eq_of_lt, schedule_perm phase ops,
    targeting_schedule_ofOperations phase ops, ?_⟩
  intro before op after h p hp hne hindependent
  constructor
  · exact targeting_before_of_schedule phase h hp hne hindependent
  · exact targeting_after_of_schedule phase h hp hne hindependent

end PhasePlan

end EventSchema
