import EventSchema.Compilation

/-!
# The life of a compilation

Calls may come in any order and any number of times.  A step that comes too early or cannot be done
leaves the compilation as it is, a step that has been done is not done again, and a build does the
steps that are left.  So whatever has been called before, a build ends in the same way.

The mark of how far a compilation has come and the results that it has kept are separate data.  That
they agree is an invariant, {lit}`Compilation.Coherent`: each step keeps it, and so do calls.

Main results:

- {lit}`Compilation.Follows.afterAll`: what any calls keep.
- {lit}`Compilation.after_eq_of_reply_eq_error`: a step that fails changes nothing.
- {lit}`Compilation.calls_keep_stages_and_result`: what calls on a fresh compilation lead to and
  give back.
-/

namespace EventSchema

namespace Compilation

theorem afterAll_append (c : Compilation) (calls more : List Call) :
    c.afterAll (calls ++ more) = (c.afterAll calls).afterAll more :=
  List.foldl_append

/-! ## The mark and the results -/

/-- How far a compilation has come shows in what it has kept. -/
structure Coherent (c : Compilation) : Prop where
  plan : c.progress = .created ↔ c.stage.plan? = none
  log : .compiled ≤ c.progress ↔ c.stage.log?.isSome = true
  schema : c.progress = .rendered ↔ c.stage.schema?.isSome = true

/-- A compilation that has not begun has kept nothing. -/
theorem coherent_ofRepository (repository : Repository) (options : Options) :
    (ofRepository repository options).Coherent where
  plan := iff_of_true rfl rfl
  log := iff_of_false (by simp [progress, ofRepository]; decide) Bool.false_ne_true
  schema := iff_of_false (by simp [progress, ofRepository]) Bool.false_ne_true

namespace Coherent

variable {c : Compilation}

/-- Before the plan is applied there is no log. -/
theorem log?_eq_none (h : c.Coherent) (hearly : c.progress < .compiled) :
    c.stage.log? = none := by
  rw [← Option.not_isSome_iff_eq_none, ← h.log]
  exact Nat.not_le.2 hearly

/-- Before the schema is rendered there is none. -/
theorem schema?_eq_none (h : c.Coherent) (hearly : c.progress ≠ .rendered) :
    c.stage.schema? = none := by
  rw [← Option.not_isSome_iff_eq_none, ← h.schema]
  exact hearly

/-- A compilation that has begun, but has no log, has been planned. -/
theorem progress_eq_analyzed (h : c.Coherent) (hbegun : c.progress ≠ .created)
    (hlog : c.stage.log? = none) : c.progress = .analyzed := by
  have hearly : ¬ .compiled ≤ c.progress := by
    rw [h.log, hlog]
    exact Bool.false_ne_true
  cases hprogress : c.progress with
  | created => exact absurd hprogress hbegun
  | analyzed => rfl
  | compiled | rendered =>
    rw [hprogress] at hearly
    exact absurd (by decide) hearly

/-- A compilation that has been compiled has a plan and a log. -/
theorem exists_plan?_log? (h : c.Coherent) (hcompiled : .compiled ≤ c.progress) :
    c.progress ≠ .created ∧ ∃ plan log, c.stage.plan? = some plan ∧ c.stage.log? = some log := by
  have hbegun : c.progress ≠ .created := by
    intro hcreated
    rw [hcreated] at hcompiled
    exact absurd hcompiled (by decide)
  rcases Option.ne_none_iff_exists'.1 (mt h.plan.2 hbegun) with ⟨plan, hplan⟩
  rcases Option.isSome_iff_exists.1 (h.log.1 hcompiled) with ⟨log, hlog⟩
  exact ⟨hbegun, plan, log, hplan, hlog⟩

theorem tryAnalyze (h : c.Coherent) : c.tryAnalyze.1.Coherent := by
  rcases c.tryAnalyze_cases with hsame | ⟨hplan, plan, -, hstep⟩
  · rwa [hsame]
  · -- Without a plan there is neither a log nor a schema that the new mark would deny.
    have hcreated : c.progress = .created := h.plan.2 hplan
    have hlog : c.stage.log? = none := h.log?_eq_none (by rw [hcreated]; decide)
    have hschema : c.stage.schema? = none := h.schema?_eq_none (by rw [hcreated]; decide)
    rw [hstep]
    exact ⟨by simp [withPlan, progress], by simp [withPlan, progress, hlog]; decide,
      by simp [withPlan, progress, hschema]⟩

theorem tryCompile (h : c.Coherent) : c.tryCompile.1.Coherent := by
  rcases c.tryCompile_cases with hsame | ⟨hbegun, hlog, plan, hplan, hstep⟩
  · rwa [hsame]
  · have hanalyzed := h.progress_eq_analyzed hbegun hlog
    have hschema : c.stage.schema? = none := h.schema?_eq_none (by rw [hanalyzed]; decide)
    rw [hstep]
    exact ⟨by simp [applyPlan, progress, hplan], by simp [applyPlan, progress]; decide,
      by simp [applyPlan, progress, hschema]⟩

theorem trySchema (h : c.Coherent) : c.trySchema.1.Coherent := by
  rcases c.trySchema_cases with hsame | ⟨hcompiled, -, -, hstep⟩
  · rwa [hsame]
  · rcases h.exists_plan?_log? hcompiled with ⟨-, plan, log, hplan, hlog⟩
    rw [hstep]
    exact ⟨by simp [renderDraft, progress, hplan], by simp [renderDraft, progress, hlog]; decide,
      by simp [renderDraft, progress]⟩

end Coherent

/-! ## What has been kept stays -/

/-- What a compilation has come to stays; the draft changes only when the log comes. -/
structure Later (c next : Compilation) : Prop where
  options : next.options = c.options
  plan : ∀ plan, c.stage.plan? = some plan → next.stage.plan? = some plan
  log : ∀ log, c.stage.log? = some log → next.stage.log? = some log
  schema : ∀ schema, c.stage.schema? = some schema → next.stage.schema? = some schema
  draft : next.draft = c.draft ∨ c.stage.log? = none ∧ next.stage.log?.isSome = true

theorem Later.refl (c : Compilation) : c.Later c :=
  ⟨rfl, fun _ h => h, fun _ h => h, fun _ h => h, Or.inl rfl⟩

theorem Later.of_eq {c next : Compilation} (h : next = c) : c.Later next := h ▸ .refl c

theorem Later.trans {first second third : Compilation} (h : first.Later second)
    (h' : second.Later third) : first.Later third := by
  refine ⟨h'.options.trans h.options, fun plan hp => h'.plan plan (h.plan plan hp),
    fun log hl => h'.log log (h.log log hl), fun schema hs => h'.schema schema (h.schema schema hs),
    ?_⟩
  rcases h.draft with hsame | ⟨hnone, hsome⟩
  · rcases h'.draft with hsame' | ⟨hnone, hsome⟩
    · exact Or.inl (hsame'.trans hsame)
    · refine Or.inr ⟨Option.eq_none_iff_forall_ne_some.2 fun log hlog => ?_, hsome⟩
      rw [h.log log hlog] at hnone
      cases hnone
  · rcases Option.isSome_iff_exists.1 hsome with ⟨log, hlog⟩
    exact Or.inr ⟨hnone, Option.isSome_iff_exists.2 ⟨log, h'.log log hlog⟩⟩

/-- A plan is made only where there is none. -/
theorem later_tryAnalyze (c : Compilation) : c.Later c.tryAnalyze.1 := by
  rcases c.tryAnalyze_cases with hsame | ⟨hplan, plan, -, hstep⟩
  · exact .of_eq hsame
  · rw [hstep]
    exact ⟨rfl, by simp [hplan], fun _ h => h, fun _ h => h, Or.inl rfl⟩

/-- The draft changes together with the first log. -/
theorem later_tryCompile (c : Compilation) : c.Later c.tryCompile.1 := by
  rcases c.tryCompile_cases with hsame | ⟨-, hlog, plan, -, hstep⟩
  · exact .of_eq hsame
  · rw [hstep]
    exact ⟨rfl, fun _ h => h, by simp [hlog], fun _ h => h, Or.inr ⟨hlog, rfl⟩⟩

/-- A schema is made only where there is none. -/
theorem later_trySchema (c : Compilation) : c.Later c.trySchema.1 := by
  rcases c.trySchema_cases with hsame | ⟨-, hschema, -, hstep⟩
  · exact .of_eq hsame
  · rw [hstep]
    exact ⟨rfl, fun _ h => h, fun _ h => h, by simp [hschema], Or.inl rfl⟩

/-! ## What has been done is not done again -/

/-- A compilation that has been compiled only has to be rendered. -/
theorem Coherent.tryBuild_eq_trySchema {c : Compilation} (h : c.Coherent)
    (hcompiled : .compiled ≤ c.progress) : c.tryBuild = c.trySchema := by
  rcases h.exists_plan?_log? hcompiled with ⟨hbegun, plan, log, hplan, hlog⟩
  simp only [tryBuild, tryAnalyze_of_plan? hplan, tryCompile_of_log? hbegun hlog]

/-- After planning a build ends in the same way. -/
theorem tryBuild_tryAnalyze (c : Compilation) : c.tryAnalyze.1.tryBuild = c.tryBuild := by
  rcases c.tryAnalyze_cases with hsame | ⟨-, plan, -, hstep⟩
  · rw [hsame]
  · have hagain : (c.withPlan plan).tryAnalyze = (c.withPlan plan, .ok plan) :=
      tryAnalyze_of_plan? rfl
    rw [hstep]
    simp only [tryBuild, hstep, hagain]

/-- After the plan has been applied a build ends in the same way. -/
theorem tryBuild_tryCompile (c : Compilation) : c.tryCompile.1.tryBuild = c.tryBuild := by
  rcases c.tryCompile_cases with hsame | ⟨-, -, plan, hplan, hstep⟩
  · rw [hsame]
  · have hkept : (c.applyPlan plan).tryAnalyze = (c.applyPlan plan, .ok plan) :=
      tryAnalyze_of_plan? hplan
    have hagain : (c.applyPlan plan).tryCompile =
        (c.applyPlan plan, .ok ⟨(applyPhases c.options c.draft plan.phases).2⟩) :=
      tryCompile_of_log? (by simp [progress, applyPlan]) rfl
    rw [hstep]
    simp only [tryBuild, tryAnalyze_of_plan? hplan, hstep, hkept, hagain]

/-- After rendering a build ends in the same way. -/
theorem Coherent.tryBuild_trySchema {c : Compilation} (h : c.Coherent) :
    c.trySchema.1.tryBuild = c.tryBuild := by
  rcases c.trySchema_cases with hsame | ⟨hcompiled, -, -, hstep⟩
  · rw [hsame]
  · have hnext : c.renderDraft.Coherent := by simpa only [hstep] using h.trySchema
    have hrendered : .compiled ≤ c.renderDraft.progress := hnext.log.2 (h.log.1 hcompiled)
    have hagain : c.renderDraft.trySchema = (c.renderDraft, .ok (Schema.render c.draft)) := rfl
    rw [h.tryBuild_eq_trySchema hcompiled, hstep, hnext.tryBuild_eq_trySchema hrendered, hagain]

/-! ## Any calls -/

/-- What any calls on a compilation keep. -/
structure Follows (c next : Compilation) : Prop where
  coherent : next.Coherent
  later : c.Later next
  tryBuild_eq : next.tryBuild = c.tryBuild

namespace Follows

variable {c next : Compilation}

theorem refl (h : c.Coherent) : c.Follows c := ⟨h, .refl c, rfl⟩

theorem tryAnalyze (h : c.Follows next) : c.Follows next.tryAnalyze.1 :=
  ⟨h.coherent.tryAnalyze, h.later.trans next.later_tryAnalyze,
    next.tryBuild_tryAnalyze.trans h.tryBuild_eq⟩

theorem tryCompile (h : c.Follows next) : c.Follows next.tryCompile.1 :=
  ⟨h.coherent.tryCompile, h.later.trans next.later_tryCompile,
    next.tryBuild_tryCompile.trans h.tryBuild_eq⟩

theorem trySchema (h : c.Follows next) : c.Follows next.trySchema.1 :=
  ⟨h.coherent.trySchema, h.later.trans next.later_trySchema,
    h.coherent.tryBuild_trySchema.trans h.tryBuild_eq⟩

/-- A build does one step after another, until one fails. -/
theorem tryBuild (h : c.Follows next) : c.Follows next.tryBuild.1 := by
  have hanalyzed := h.tryAnalyze
  unfold Compilation.tryBuild
  split
  next analyzed e hstep => rwa [hstep] at hanalyzed
  next analyzed plan hstep =>
    rw [hstep] at hanalyzed
    have hcompiled := hanalyzed.tryCompile
    split
    next compiled e hstep => rwa [hstep] at hcompiled
    next compiled log hstep =>
      rw [hstep] at hcompiled
      exact hcompiled.trySchema

/-- Whatever is called, the calls before it keep their results. -/
theorem after (h : c.Follows next) (call : Call) : c.Follows (next.after call) := by
  cases call with
  | analyze => exact h.tryAnalyze
  | compile => exact h.tryCompile
  | schema => exact h.trySchema
  | build => exact h.tryBuild

/-- Whatever is called one after another, a build ends in the same way. -/
theorem afterAll (h : c.Follows next) (calls : List Call) : c.Follows (next.afterAll calls) := by
  induction calls generalizing next with
  | nil => exact h
  | cons call rest ih => exact ih (h.after call)

end Follows

/-! ## Replies -/

/-- A step that fails leaves the compilation as it is. -/
theorem after_eq_of_reply_eq_error {c : Compilation} {call : Call} (hcall : call ≠ .build)
    {e : Error} (h : c.reply call = .error e) : c.after call = c := by
  cases call with
  | analyze =>
    rcases c.tryAnalyze_cases with hsame | ⟨-, plan, -, hstep⟩
    · exact hsame
    · simp [reply, Compilation.call, hstep, Except.map] at h
  | compile =>
    rcases c.tryCompile_cases with hsame | ⟨-, -, plan, -, hstep⟩
    · exact hsame
    · simp [reply, Compilation.call, hstep, Except.map] at h
  | schema =>
    rcases c.trySchema_cases with hsame | ⟨-, -, -, hstep⟩
    · exact hsame
    · simp [reply, Compilation.call, hstep, Except.map] at h
  | build => exact absurd rfl hcall

/-- Rendering gives back what a build gives back, unless it comes too early. -/
theorem Coherent.reply_schema {c : Compilation} (h : c.Coherent) :
    c.reply .schema = c.reply .build ∨
      c.stage.log? = none ∧ c.reply .schema = .error (.outOfOrder .render c.progress) := by
  by_cases hearly : c.progress < .compiled
  · refine Or.inr ⟨h.log?_eq_none hearly, ?_⟩
    simp only [reply, Compilation.call, trySchema_of_lt hearly]
    rfl
  · refine Or.inl ?_
    simp only [reply, Compilation.call, h.tryBuild_eq_trySchema (Progress.not_lt.1 hearly)]

/--
What calls on a fresh compilation lead to.  How far the compilation has come shows in what it has: a
plan, a log, a schema.  What it has stays, whatever is called later, and its draft changes only in
a call that brings the log.  A step that fails leaves it as it is.  A build gives back what it gives
back on a fresh compilation, and so does the last step, unless it comes too early.
-/
theorem calls_keep_stages_and_result (repository : Repository) (options : Options)
    (calls : List Call) :
    let fresh := ofRepository repository options
    let c := fresh.afterAll calls
    (c.progress = .created ↔ c.stage.plan? = none) ∧
    (.compiled ≤ c.progress ↔ c.stage.log?.isSome = true) ∧
    (c.progress = .rendered ↔ c.stage.schema?.isSome = true) ∧
    (∀ more, c.Later (fresh.afterAll (calls ++ more))) ∧
    ∀ call,
      ((c.after call).draft ≠ c.draft →
        c.stage.log? = none ∧ (c.after call).stage.log?.isSome = true) ∧
      (call ≠ .build → ∀ e, c.reply call = .error e → c.after call = c) ∧
      (call = .build → c.reply call = fresh.reply .build) ∧
      (call = .schema → c.reply call = fresh.reply .build ∨
        c.stage.log? = none ∧ c.reply call = .error (.outOfOrder .render c.progress)) := by
  intro fresh c
  have hfollows : fresh.Follows c :=
    (Follows.refl (coherent_ofRepository repository options)).afterAll calls
  have hcoherent : c.Coherent := hfollows.coherent
  have hbuild : c.reply .build = fresh.reply .build := by
    simp only [reply, Compilation.call, hfollows.tryBuild_eq]
  refine ⟨hcoherent.plan, hcoherent.log, hcoherent.schema, fun more => ?_,
    fun call => ⟨fun hdraft => ?_, fun hcall e => after_eq_of_reply_eq_error hcall, ?_, ?_⟩⟩
  · rw [afterAll_append]
    exact ((Follows.refl hcoherent).afterAll more).later
  · exact ((Follows.refl hcoherent).after call).later.draft.resolve_left hdraft
  · rintro rfl
    exact hbuild
  · rintro rfl
    rw [← hbuild]
    exact hcoherent.reply_schema

end Compilation

end EventSchema
