import EventSchema.Proofs.Planning
import EventSchema.Proofs.Schedule
import Mathlib.Data.List.TakeWhile

/-!
# How a location opens

A location is quiet if what is planned for it reads nothing that is planned; the walk behind the
schedule goes through a quiet location without a step aside.  What is planned for a location opens
with the operations in front of the first that reads something else than quiet locations.  The walk
puts all of them out before it can come to another target with a longer way, and so in front of
every reader of the location, even where dependencies form a cycle.

Main results:

- {lit}`PhasePlan.opening_of_schedule`: before an operation that reads a location, everything with
  which that location opens has been done.
- {lit}`PhasePlan.first_mem_of_schedule`: an operation that waits for nothing comes before every
  reader of its target.
-/

namespace EventSchema

open Std

namespace PhasePlan

open Operation

/-! ## Quiet locations -/

/-- Whether what is planned for a location reads nothing that something is planned for. -/
def isQuiet (plan : PhasePlan) (l : Location) : Bool :=
  (plan.get l).all fun op => op.prerequisites.all fun p => !plan.operations.contains p

/-- The operations planned for a location in front of the first that reads more than what is
quiet. -/
def opening (plan : PhasePlan) (l : Location) : List Operation :=
  (plan.get l).takeWhile fun op => op.prerequisites.all plan.isQuiet

/-- The targets of a plan are the locations it has operations for. -/
theorem mem_targets_iff {plan : PhasePlan} {l : Location} :
    l ∈ plan.targets ↔ plan.operations.contains l = true := by
  rw [targets, ExtTreeMap.mem_keys, ExtTreeMap.contains_iff_mem]

/-- A location is quiet if its operations require nothing that is planned. -/
theorem isQuiet_iff {plan : PhasePlan} {l : Location} : plan.isQuiet l = true ↔
    ∀ op ∈ plan.get l, ∀ p ∈ op.prerequisites, plan.operations.contains p = false := by
  simp [isQuiet]

/-- A location that is not planned has no operations. -/
theorem get_of_contains_eq_false {plan : PhasePlan} {l : Location}
    (h : plan.operations.contains l = false) : plan.get l = [] := by
  by_contra hsome
  rcases List.exists_mem_of_ne_nil _ hsome with ⟨op, hop⟩
  have hplanned := mem_targets_iff.1 (mem_targets_of_mem_get hop)
  rw [h] at hplanned
  cases hplanned

/-- A location that is not planned is quiet. -/
theorem isQuiet_of_contains_eq_false {plan : PhasePlan} {l : Location}
    (h : plan.operations.contains l = false) : plan.isQuiet l = true := by
  rw [isQuiet, get_of_contains_eq_false h]
  rfl

/-- A location that is not planned has no opening. -/
theorem opening_of_contains_eq_false {plan : PhasePlan} {l : Location}
    (h : plan.operations.contains l = false) : plan.opening l = [] := by
  rw [opening, get_of_contains_eq_false h]
  rfl

/-- An opening is how the operations of a location begin. -/
theorem opening_prefix (plan : PhasePlan) (l : Location) : plan.opening l <+: plan.get l :=
  List.takeWhile_prefix _

/-- An opening requires quiet locations only. -/
theorem isQuiet_of_mem_opening {plan : PhasePlan} {l p : Location} {op : Operation}
    (hop : op ∈ plan.opening l) (hp : p ∈ op.prerequisites) : plan.isQuiet p = true := by
  unfold opening at hop
  have hall := List.mem_takeWhile_imp hop
  exact List.all_eq_true.1 hall p hp

/-- A location opens with what is planned first, as long as that reads only what is quiet. -/
theorem prefix_opening {plan : PhasePlan} {l : Location} {early late : List Operation}
    (hget : plan.get l = early ++ late)
    (hearly : ∀ op ∈ early, ∀ p ∈ op.prerequisites, plan.isQuiet p = true) :
    early <+: plan.opening l := by
  rw [opening, hget, List.takeWhile_append_of_pos]
  · exact List.prefix_append _ _
  · exact fun op hop => List.all_eq_true.2 (hearly op hop)

/-- No location is read by an operation of its own if it is quiet. -/
theorem ne_of_isQuiet {plan : PhasePlan} {l p : Location} {op : Operation} (hop : op ∈ plan.get l)
    (hp : p ∈ op.prerequisites) (hquiet : plan.isQuiet p = true) : p ≠ l := by
  rintro rfl
  have hnone := isQuiet_iff.1 hquiet op hop p hp
  rw [mem_targets_iff.1 (mem_targets_of_mem_get hop)] at hnone
  cases hnone

/-! ## Walks that open locations -/

/-- A walk has put out what the locations open with that it has visited, but for a location that is
just being opened, and has done so before every reader of them. -/
structure Walk.Opened (plan : PhasePlan) (busy : Option Location) (walk : Walk) : Prop where
  fresh : ∀ t, t ∉ walk.visited → targeting walk.scheduled.reverse t = []
  begun : ∀ t ∈ walk.visited, some t ≠ busy → plan.opening t <+: targeting walk.scheduled.reverse t
  ordered : ∀ op earlier, op :: earlier <:+ walk.scheduled → ∀ p ∈ op.prerequisites,
    plan.opening p <+: targeting earlier.reverse p

/-- An operation that is scheduled comes last at its target. -/
theorem targeting_scheduled_emit (walk : Walk) (op : Operation) (t : Location) :
    targeting (walk.emit op).scheduled.reverse t =
      targeting walk.scheduled.reverse t ++ targeting [op] t := by
  rw [Walk.emit, List.reverse_cons, targeting_append]

/-- Openings stay in front when an operation is scheduled whose sources are open. -/
theorem Walk.Opened.emit {plan : PhasePlan} {busy : Option Location} {walk : Walk}
    (h : walk.Opened plan busy) {op : Operation} (htarget : op.target ∈ walk.visited)
    (hreads : ∀ p ∈ op.prerequisites, plan.opening p <+: targeting walk.scheduled.reverse p) :
    (walk.emit op).Opened plan busy := by
  refine ⟨fun t ht => ?_, fun t ht hbusy => ?_, fun other earlier hsuffix => ?_⟩
  · have hne : op.target ≠ t := fun heq => ht (heq ▸ htarget)
    rw [targeting_scheduled_emit, h.fresh t ht, targeting_cons_of_ne hne]
    rfl
  · rw [targeting_scheduled_emit]
    exact (h.begun t ht hbusy).trans (List.prefix_append _ _)
  · rcases List.suffix_cons_iff.1 hsuffix with heq | hsuffix
    · rcases List.cons.inj heq with ⟨rfl, rfl⟩
      exact hreads
    · exact h.ordered other earlier hsuffix

/-- What an operation reads has been opened once all planned locations among it are visited. -/
theorem Walk.Opened.reads {plan : PhasePlan} {busy : Option Location} {walk : Walk}
    (h : walk.Opened plan busy) {op : Operation}
    (hvisited : ∀ p ∈ op.prerequisites.filter plan.operations.contains,
      p ∈ walk.visited ∧ some p ≠ busy) :
    ∀ p ∈ op.prerequisites, plan.opening p <+: targeting walk.scheduled.reverse p := by
  intro p hp
  cases hplanned : plan.operations.contains p with
  | true =>
    rcases hvisited p (List.mem_filter.2 ⟨hp, hplanned⟩) with ⟨hmem, hbusy⟩
    exact h.begun p hmem hbusy
  | false =>
    rw [opening_of_contains_eq_false hplanned]
    exact List.nil_prefix

/-- A walk that serves operations keeps what it has visited. -/
theorem visited_foldl_serve (plan : PhasePlan) (depth : Nat) (ops : List Operation)
    (walk : Walk) : ∀ t ∈ walk.visited, t ∈ (ops.foldl (plan.serve depth) walk).visited := by
  induction ops generalizing walk with
  | nil => exact fun _ h => h
  | cons op rest ih =>
    exact fun t ht => ih _ t (visited_foldl_visit (plan.visited_visit depth) _ walk t ht)

/-- A visit comes to its target, as long as its depth is no less than what is left to visit. -/
theorem mem_visited_visit {plan : PhasePlan} {depth : Nat} {walk : Walk} {l : Location}
    (hl : l ∈ plan.targets) (hdepth : plan.unvisited walk ≤ depth) :
    l ∈ (plan.visit depth walk l).visited := by
  by_cases hmem : l ∈ walk.visited
  · exact plan.visited_visit depth walk l l hmem
  · cases depth with
    | zero => exact absurd (unvisited_enter_lt hl hmem) (by omega)
    | succ depth =>
      rw [visit_of_not_mem plan depth hmem]
      exact plan.visited_foldl_serve depth _ _ l List.mem_cons_self

/-! ## Visits of quiet locations -/

/-- An operation that waits for nothing is put out at once. -/
theorem serve_of_waits (plan : PhasePlan) (depth : Nat) (walk : Walk) {op : Operation}
    (h : ∀ p ∈ op.prerequisites, plan.operations.contains p = false) :
    plan.serve depth walk op = walk.emit op := by
  have hnil : op.prerequisites.filter plan.operations.contains = [] :=
    List.filter_eq_nil_iff.2 fun p hp => by simp [h p hp]
  rw [serve, hnil, List.foldl_nil]

/-- A visit of a quiet location puts out what is planned for it and nothing else. -/
theorem visit_of_isQuiet {plan : PhasePlan} {l : Location} (hl : plan.isQuiet l = true)
    (depth : Nat) {walk : Walk} (h : l ∉ walk.visited) :
    plan.visit (depth + 1) walk l =
      ⟨l :: walk.visited, (plan.get l).reverse ++ walk.scheduled⟩ := by
  have hfold (ops : List Operation) (hops : ∀ op ∈ ops, op ∈ plan.get l) (w : Walk) :
      ops.foldl (plan.serve depth) w = ⟨w.visited, ops.reverse ++ w.scheduled⟩ := by
    induction ops generalizing w with
    | nil => rfl
    | cons op rest ih =>
      have hserve := plan.serve_of_waits depth w
        (isQuiet_iff.1 hl op (hops op List.mem_cons_self))
      rw [List.foldl_cons, hserve, ih fun other ho => hops other (List.mem_cons_of_mem op ho)]
      simp [Walk.emit]
  rw [visit_of_not_mem plan depth h, hfold (plan.get l) fun _ hop => hop]
  rfl

/-- A visit to a quiet location schedules nothing elsewhere. -/
theorem targeting_scheduled_of_isQuiet {plan : PhasePlan} (hfiled : plan.Filed)
    {l : Location} (hl : plan.isQuiet l = true) (depth : Nat) (walk : Walk) {t : Location}
    (ht : t ≠ l) : targeting (plan.visit depth walk l).scheduled.reverse t =
      targeting walk.scheduled.reverse t := by
  cases depth with
  | zero => rfl
  | succ depth =>
    by_cases hmem : l ∈ walk.visited
    · rw [visit_of_mem plan depth hmem]
    · have hnone : targeting (plan.get l) t = [] :=
        targeting_eq_nil_iff.2 fun op hop heq => ht (heq.symm.trans (hfiled l op hop))
      rw [visit_of_isQuiet hl depth hmem, List.reverse_append, List.reverse_reverse,
        targeting_append, hnone, List.append_nil]

/-- A visit of a quiet location opens it, whatever else is being opened. -/
theorem Walk.Opened.visit_of_isQuiet {plan : PhasePlan} (hfiled : plan.Filed)
    {busy : Option Location} {walk : Walk} (h : walk.Opened plan busy) {l : Location}
    (hl : plan.isQuiet l = true) (depth : Nat) : (plan.visit depth walk l).Opened plan busy := by
  have hother {t : Location} (ht : t ≠ l) :=
    targeting_scheduled_of_isQuiet hfiled hl depth walk ht
  cases depth with
  | zero => exact h
  | succ depth =>
    by_cases hmem : l ∈ walk.visited
    · rwa [visit_of_mem plan depth hmem]
    have hvisit := PhasePlan.visit_of_isQuiet hl depth hmem
    refine ⟨fun t ht => ?_, fun t ht hbusy => ?_, fun op earlier hsuffix p hp => ?_⟩
    · rw [hvisit] at ht
      rcases List.ne_and_not_mem_of_not_mem_cons ht with ⟨hne, ht⟩
      rw [hother hne, h.fresh t ht]
    · by_cases hne : t = l
      · subst hne
        have hall : targeting (plan.get t) t = plan.get t :=
          List.filter_eq_self.2 fun op hop => beq_iff_eq.2 (hfiled t op hop)
        rw [hvisit, List.reverse_append, List.reverse_reverse, targeting_append, hall,
          h.fresh t hmem]
        exact plan.opening_prefix t
      · rw [hvisit] at ht
        rw [hother hne]
        exact h.begun t ((List.mem_cons.1 ht).resolve_left hne) hbusy
    · rw [hvisit] at hsuffix
      rcases hsuffix with ⟨front, hfront⟩
      rcases List.append_eq_append_iff.1 hfront with ⟨between, hnew, hold⟩ | ⟨between, -, hold⟩
      · cases between with
        | nil => exact h.ordered op earlier ⟨[], hold⟩ p hp
        | cons first rest =>
          -- What is planned for a quiet location reads nothing that could have been opened.
          rcases List.cons.inj hold with ⟨rfl, -⟩
          have hop : op ∈ plan.get l := List.mem_reverse.1 (hnew ▸ by simp)
          rw [opening_of_contains_eq_false (isQuiet_iff.1 hl op hop p hp)]
          exact List.nil_prefix
      · exact h.ordered op earlier ⟨between, hold.symm⟩ p hp

/-! ## Other visits -/

/-- Visits that each keep it that locations are opened, one after another. -/
theorem foldl_visit_opened {plan : PhasePlan} {depth : Nat} {busy : Option Location}
    (places : List Location)
    (hvisit : ∀ p ∈ places, ∀ walk : Walk, walk.Opened plan busy → plan.unvisited walk ≤ depth →
      (plan.visit depth walk p).Opened plan busy) :
    ∀ walk : Walk, walk.Opened plan busy → (∀ p ∈ places, p ∈ plan.targets) →
      plan.unvisited walk ≤ depth →
      (places.foldl (plan.visit depth) walk).Opened plan busy ∧
        ∀ p ∈ places, p ∈ (places.foldl (plan.visit depth) walk).visited := by
  induction places with
  | nil => exact fun walk h _ _ => ⟨h, by simp⟩
  | cons p rest ih =>
    intro walk h htargets hdepth
    rcases ih (fun q hq => hvisit q (List.mem_cons_of_mem p hq)) (plan.visit depth walk p)
        (hvisit p List.mem_cons_self walk h hdepth)
        (fun q hq => htargets q (List.mem_cons_of_mem p hq))
        ((unvisited_le_of_visited (plan.visited_visit depth walk p)).trans hdepth) with
      ⟨hopened, hmem⟩
    refine ⟨hopened, fun q hq => ?_⟩
    rcases List.mem_cons.1 hq with rfl | hq
    · exact visited_foldl_visit (plan.visited_visit depth) rest _ q
        (mem_visited_visit (htargets q List.mem_cons_self) hdepth)
    · exact hmem q hq

/-- A visit keeps it that locations are opened when none of them is just being opened. -/
def VisitOpened (plan : PhasePlan) (depth : Nat) : Prop :=
  ∀ (walk : Walk) (l : Location), walk.Opened plan none → plan.unvisited walk ≤ depth →
    (plan.visit depth walk l).Opened plan none

/-- What is required and planned is a target of the plan. -/
theorem planned_of_mem_filter {plan : PhasePlan} {op : Operation} {p : Location}
    (hp : p ∈ op.prerequisites.filter plan.operations.contains) : p ∈ plan.targets :=
  mem_targets_iff.2 (List.mem_filter.1 hp).2

/-- To serve an operation keeps openings in front. -/
theorem serve_opened {plan : PhasePlan} {depth : Nat} (hvisit : plan.VisitOpened depth)
    {walk : Walk} (h : walk.Opened plan none) (hdepth : plan.unvisited walk ≤ depth)
    {op : Operation} (htarget : op.target ∈ walk.visited) :
    (plan.serve depth walk op).Opened plan none := by
  rcases foldl_visit_opened (op.prerequisites.filter plan.operations.contains)
      (fun p _ walk => hvisit walk p) walk h (fun p hp => planned_of_mem_filter hp) hdepth with
    ⟨hopened, hmem⟩
  refine hopened.emit ?_ (hopened.reads fun p hp => ⟨hmem p hp, nofun⟩)
  exact visited_foldl_visit (plan.visited_visit depth) _ walk _ htarget

/-- To serve operations one after another keeps openings in front. -/
theorem foldl_serve_opened {plan : PhasePlan} {depth : Nat} (hvisit : plan.VisitOpened depth)
    (ops : List Operation) : ∀ walk : Walk, walk.Opened plan none → plan.unvisited walk ≤ depth →
      (∀ op ∈ ops, op.target ∈ walk.visited) →
      (ops.foldl (plan.serve depth) walk).Opened plan none := by
  induction ops with
  | nil => exact fun walk h _ _ => h
  | cons op rest ih =>
    intro walk h hdepth htargets
    have hvisited := plan.visited_foldl_serve depth [op] walk
    refine ih (plan.serve depth walk op)
      (serve_opened hvisit h hdepth (htargets op List.mem_cons_self))
      ((unvisited_le_of_visited hvisited).trans hdepth) fun other ho => ?_
    exact hvisited _ (htargets other (List.mem_cons_of_mem op ho))

/-- While a location is being opened the walk goes aside to quiet locations only. -/
theorem serve_opening {plan : PhasePlan} (hfiled : plan.Filed) {depth : Nat} {walk : Walk}
    {l : Location} (h : walk.Opened plan (some l)) (hl : l ∈ walk.visited)
    (hdepth : plan.unvisited walk ≤ depth) {op : Operation} (hop : op ∈ plan.get l)
    (hquiet : ∀ p ∈ op.prerequisites, plan.isQuiet p = true) :
    (plan.serve depth walk op).Opened plan (some l) ∧
      targeting (plan.serve depth walk op).scheduled.reverse l =
        targeting walk.scheduled.reverse l ++ [op] := by
  have htarget : op.target = l := hfiled l op hop
  have hplaces {p : Location} (hp : p ∈ op.prerequisites.filter plan.operations.contains) :
      plan.isQuiet p = true ∧ p ≠ l := by
    have hread := (List.mem_filter.1 hp).1
    exact ⟨hquiet p hread, ne_of_isQuiet hop hread (hquiet p hread)⟩
  rcases foldl_visit_opened (op.prerequisites.filter plan.operations.contains)
      (fun p hp walk hwalk _ => hwalk.visit_of_isQuiet hfiled (hplaces hp).1 depth) walk h
      (fun p hp => planned_of_mem_filter hp) hdepth with
    ⟨hopened, hmem⟩
  have hkept : ∀ (places : List Location) (w : Walk),
      (∀ p ∈ places, plan.isQuiet p = true ∧ p ≠ l) →
      targeting (places.foldl (plan.visit depth) w).scheduled.reverse l =
        targeting w.scheduled.reverse l := by
    intro places
    induction places with
    | nil => exact fun _ _ => rfl
    | cons p rest ih =>
      intro w hrest
      rcases hrest p List.mem_cons_self with ⟨hp, hne⟩
      rw [List.foldl_cons, ih _ fun q hq => hrest q (List.mem_cons_of_mem p hq)]
      exact targeting_scheduled_of_isQuiet hfiled hp depth w hne.symm
  refine ⟨hopened.emit ?_ (hopened.reads fun p hp => ⟨hmem p hp, ?_⟩), ?_⟩
  · rw [htarget]
    exact visited_foldl_visit (plan.visited_visit depth) _ walk l hl
  · exact fun heq => (hplaces hp).2 (Option.some.inj heq)
  · rw [serve, targeting_scheduled_emit, hkept _ walk fun p hp => hplaces hp, ← htarget,
      targeting_cons_self, targeting_nil]

/-- The operations of an opening are scheduled one after another. -/
theorem foldl_serve_opening {plan : PhasePlan} (hfiled : plan.Filed) {depth : Nat}
    {l : Location} (ops : List Operation) : ∀ walk : Walk, walk.Opened plan (some l) →
      l ∈ walk.visited → plan.unvisited walk ≤ depth → (∀ op ∈ ops, op ∈ plan.get l) →
      (∀ op ∈ ops, ∀ p ∈ op.prerequisites, plan.isQuiet p = true) →
      (ops.foldl (plan.serve depth) walk).Opened plan (some l) ∧
        targeting (ops.foldl (plan.serve depth) walk).scheduled.reverse l =
          targeting walk.scheduled.reverse l ++ ops := by
  induction ops with
  | nil => exact fun walk h _ _ _ _ => ⟨h, by simp⟩
  | cons op rest ih =>
    intro walk h hl hdepth hops hquiet
    rcases serve_opening hfiled h hl hdepth (hops op List.mem_cons_self)
        (hquiet op List.mem_cons_self) with
      ⟨hserved, hout⟩
    have hvisited := plan.visited_foldl_serve depth [op] walk
    rcases ih (plan.serve depth walk op) hserved (hvisited l hl)
        ((unvisited_le_of_visited hvisited).trans hdepth)
        (fun other ho => hops other (List.mem_cons_of_mem op ho))
        (fun other ho => hquiet other (List.mem_cons_of_mem op ho)) with
      ⟨hopened, hall⟩
    exact ⟨hopened, by rw [List.foldl_cons, hall, hout, List.append_assoc, List.singleton_append]⟩

/-- A visit of any depth puts openings in front. -/
theorem visitOpened (plan : PhasePlan) (hfiled : plan.Filed) (depth : Nat) :
    plan.VisitOpened depth := by
  induction depth with
  | zero => exact fun walk l h _ => h
  | succ depth ih =>
    intro walk l h hdepth
    by_cases hmem : l ∈ walk.visited
    · rwa [visit_of_mem plan depth hmem]
    rw [visit_of_not_mem plan depth hmem]
    have hentered : (walk.enter l).Opened plan (some l) := by
      refine ⟨fun t ht => h.fresh t fun hv => ht (List.mem_cons_of_mem l hv), fun t ht hbusy => ?_,
        h.ordered⟩
      have hne : t ≠ l := fun heq => hbusy (congrArg some heq)
      exact h.begun t ((List.mem_cons.1 ht).resolve_left hne) nofun
    cases hops : plan.get l with
    | nil =>
      refine ⟨hentered.fresh, fun t ht _ => ?_, hentered.ordered⟩
      by_cases hne : t = l
      · subst hne
        rw [opening, hops]
        exact List.nil_prefix
      · exact hentered.begun t ht fun heq => hne (Option.some.inj heq)
    | cons first rest =>
      have hless : plan.unvisited (walk.enter l) ≤ depth := by
        have hl : l ∈ plan.targets := mem_targets_of_mem_get (hops ▸ List.mem_cons_self)
        have hlt := unvisited_enter_lt hl hmem
        omega
      -- First the opening is put out, and from there on the location counts as opened.
      rcases foldl_serve_opening hfiled (plan.opening l) (walk.enter l) hentered
          List.mem_cons_self hless (fun op hop => (plan.opening_prefix l).subset hop)
          (fun op hop p hp => isQuiet_of_mem_opening hop hp) with
        ⟨hopening, hout⟩
      have hout' : targeting ((plan.opening l).foldl (plan.serve depth)
          (walk.enter l)).scheduled.reverse l = plan.opening l := by
        rw [hout]
        exact congrArg (· ++ plan.opening l) (h.fresh l hmem)
      have hvisited := plan.visited_foldl_serve depth (plan.opening l) (walk.enter l)
      have hsplit : first :: rest = plan.opening l ++
          (plan.get l).dropWhile fun op => op.prerequisites.all plan.isQuiet := by
        rw [← hops]
        exact List.takeWhile_append_dropWhile.symm
      rw [hsplit, List.foldl_append]
      refine foldl_serve_opened ih _ _ ⟨hopening.fresh, fun t ht _ => ?_, hopening.ordered⟩
        ((unvisited_le_of_visited hvisited).trans hless) fun op hop => ?_
      · by_cases hne : t = l
        · subst hne
          exact hout'.symm ▸ List.prefix_refl _
        · exact hopening.begun t ht fun heq => hne (Option.some.inj heq)
      · rw [hfiled l op ((List.dropWhile_suffix _).subset hop)]
        exact hvisited l List.mem_cons_self

/-! ## In the schedule -/

/-- Before an operation that reads a location, everything with which it opens has been done. -/
theorem opening_of_schedule (plan : PhasePlan) (hfiled : plan.Filed)
    {before after : List Operation} {op : Operation}
    (h : plan.schedule = before ++ op :: after) {p : Location} (hp : p ∈ op.prerequisites) :
    plan.opening p <+: targeting before p := by
  set walk := plan.targets.foldl (plan.visit (plan.operations.size + 1)) {} with hwalk
  have hopened : walk.Opened plan none := by
    refine (foldl_visit_opened plan.targets (fun l _ walk => plan.visitOpened hfiled _ walk l) {}
      ⟨by simp, by simp, fun other earlier hsuffix => ?_⟩ (fun _ ht => ht)
      (plan.unvisited_lt {}).le).1
    simpa using List.suffix_nil.1 hsuffix
  have hreverse : walk.scheduled = after.reverse ++ op :: before.reverse := by
    have hschedule : plan.schedule = walk.scheduled.reverse := rfl
    rw [← List.reverse_reverse walk.scheduled, ← hschedule, h]
    simp
  have hprefix := hopened.ordered op before.reverse ⟨after.reverse, hreverse.symm⟩ p hp
  rwa [List.reverse_reverse] at hprefix

/-- What is planned for a location begins with an operation that reads only what is not planned. -/
structure StartsWith (plan : PhasePlan) (l : Location) (first : Operation) : Prop where
  head : (plan.get l).head? = some first
  waits : ∀ p ∈ first.prerequisites, plan.operations.contains p = false

/-- An operation that waits for nothing comes before every reader of its target. -/
theorem first_mem_of_schedule (plan : PhasePlan) (hfiled : plan.Filed)
    {before after : List Operation} {op : Operation} (h : plan.schedule = before ++ op :: after)
    {p : Location} (hp : p ∈ op.prerequisites) {first : Operation}
    (hfirst : plan.StartsWith p first) : first ∈ before := by
  rcases List.head?_eq_some_iff.1 hfirst.head with ⟨rest, hrest⟩
  have hopens : [first] <+: plan.opening p := by
    refine prefix_opening hrest fun other ho q hq => ?_
    rw [List.mem_singleton.1 ho] at hq
    exact isQuiet_of_contains_eq_false (hfirst.waits q hq)
  have hmem := (hopens.trans (plan.opening_of_schedule hfiled h hp)).subset List.mem_cons_self
  exact (mem_targeting.1 hmem).1

/-- A schedule starts with the first operation at a location if that waits for nothing. -/
theorem startsWith_ofOperations (phase : Phase) {ops rest : List Operation} {l : Location}
    {first : Operation} (h : targeting ops l = first :: rest)
    (hwaits : ∀ p ∈ first.prerequisites, targeting ops p = []) :
    (ofOperations phase ops).StartsWith l first := by
  refine ⟨by rw [get_ofOperations, h]; rfl, fun p hp => ?_⟩
  refine Bool.eq_false_iff.2 fun hplanned => ?_
  have hsome := (proper_ofOperations phase ops p).1 hplanned
  rw [get_ofOperations] at hsome
  exact hsome (hwaits p hp)

end PhasePlan

end EventSchema
