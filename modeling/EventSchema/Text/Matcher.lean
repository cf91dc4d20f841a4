/-!
# Patterns within names

A pattern occurs in a name when its characters do, in order.  Capital letters of the pattern make
the comparison exact; without them the case of ASCII letters does not count.  How close a name is to
a pattern that occurs in it is for a matcher to say.

Main results:

- {lit}`Matcher.best?_eq_none_iff`: whether a name is found depends on no matcher.
- {lit}`Matcher.exists_score_of_best?`: the name that is found is the closest, and the smallest of
  these.
-/

namespace EventSchema

namespace Text

/-- Whether a pattern occurs in a name. -/
def occursIn (pattern name : String) : Bool :=
  if pattern.toList.any Char.isUpper then pattern.toList.isSublist name.toList
  else (pattern.toList.map Char.toLower).isSublist (name.toList.map Char.toLower)

end Text

/-- A way to tell how close names are to patterns. -/
structure Matcher where
  /-- The score of a name that matches a pattern. -/
  score? (pattern name : String) : Option Int
  /-- A pattern matches the names in which it occurs. -/
  isSome_score? (pattern name : String) :
    (score? pattern name).isSome = Text.occursIn pattern name

namespace Matcher

/-- Names are as close as any other to the patterns that occur in them. -/
def flat : Matcher where
  score? pattern name := if Text.occursIn pattern name then some 0 else none
  isSome_score? pattern name := by
    cases Text.occursIn pattern name <;> rfl

/-- Whether one name with its score is at least as good as another: a smaller name breaks a tie. -/
def Closer (a b : Int × String) : Prop := b.1 < a.1 ∨ b.1 = a.1 ∧ a.2 ≤ b.2

instance (a b : Int × String) : Decidable (Closer a b) :=
  inferInstanceAs (Decidable (b.1 < a.1 ∨ b.1 = a.1 ∧ a.2 ≤ b.2))

theorem Closer.refl (a : Int × String) : Closer a a := Or.inr ⟨rfl, String.le_refl a.2⟩

theorem Closer.trans {a b c : Int × String} (h : Closer a b) (h' : Closer b c) : Closer a c := by
  obtain hlt | ⟨heq, hle⟩ := h
  · obtain hlt' | ⟨heq', -⟩ := h'
    · exact Or.inl (Int.lt_trans hlt' hlt)
    · exact Or.inl (heq' ▸ hlt)
  · obtain hlt' | ⟨heq', hle'⟩ := h'
    · exact Or.inl (heq ▸ hlt')
    · exact Or.inr ⟨heq'.trans heq, String.le_trans hle hle'⟩

/-- One of two names is at least as good as the other. -/
theorem Closer.of_not {a b : Int × String} (h : ¬ Closer a b) : Closer b a := by
  rcases Int.lt_trichotomy a.1 b.1 with hlt | heq | hgt
  · exact Or.inl hlt
  · rcases String.le_total a.2 b.2 with hle | hle
    · exact absurd (Or.inr ⟨heq.symm, hle⟩) h
    · exact Or.inr ⟨heq, hle⟩
  · exact absurd (Or.inl hgt) h

/-- The closest of some names with their scores. -/
def closest? : List (Int × String) → Option (Int × String)
  | [] => none
  | a :: rest =>
    match closest? rest with
    | none => some a
    | some b => some (if Closer b a then b else a)

/-- Some name is the closest unless there is none. -/
theorem closest?_eq_none_iff {scored : List (Int × String)} :
    closest? scored = none ↔ scored = [] := by
  cases scored with
  | nil => simp [closest?]
  | cons a rest => cases h : closest? rest <;> simp [closest?, h]

/-- The closest name is one of the names, and none of them is closer. -/
theorem closer_of_closest? {scored : List (Int × String)} {best : Int × String}
    (h : closest? scored = some best) : best ∈ scored ∧ ∀ a ∈ scored, Closer best a := by
  induction scored generalizing best with
  | nil => cases h
  | cons a rest ih =>
    cases hrest : closest? rest with
    | none =>
      obtain rfl : a = best := by simpa [closest?, hrest] using h
      simp [closest?_eq_none_iff.1 hrest, Closer.refl]
    | some b =>
      have hb := ih hrest
      simp only [closest?, hrest, Option.some.injEq] at h
      by_cases hcloser : Closer b a
      · rw [if_pos hcloser] at h
        exact h ▸ ⟨List.mem_cons_of_mem a hb.1, List.forall_mem_cons.2 ⟨hcloser, hb.2⟩⟩
      · rw [if_neg hcloser] at h
        refine h ▸ ⟨List.mem_cons_self, List.forall_mem_cons.2 ⟨.refl a, fun other hother => ?_⟩⟩
        exact (Closer.of_not hcloser).trans (hb.2 other hother)

/-- The names that match a pattern, with their scores. -/
def scored (matcher : Matcher) (pattern : String) (names : List String) : List (Int × String) :=
  names.filterMap fun name => (matcher.score? pattern name).map (·, name)

/-- The name that is closest to a pattern. -/
def best? (matcher : Matcher) (pattern : String) (names : List String) : Option String :=
  (closest? (matcher.scored pattern names)).map (·.2)

variable {matcher : Matcher} {pattern : String} {names : List String}

/-- No name is found exactly if the pattern occurs in none. -/
theorem best?_eq_none_iff :
    matcher.best? pattern names = none ↔ ∀ name ∈ names, Text.occursIn pattern name = false := by
  simp [best?, closest?_eq_none_iff, scored, ← matcher.isSome_score?]

/-- The name that is found has the highest score, and is the smallest with this score. -/
theorem exists_score_of_best? {best : String} (h : matcher.best? pattern names = some best) :
    best ∈ names ∧ ∃ score, matcher.score? pattern best = some score ∧
      ∀ name ∈ names, ∀ other, matcher.score? pattern name = some other →
        Closer (score, best) (other, name) := by
  rcases Option.map_eq_some_iff.1 h with ⟨⟨score, name⟩, hclosest, rfl⟩
  rcases closer_of_closest? hclosest with ⟨hmem, hcloser⟩
  have hscored (name : String) (score : Int) : (score, name) ∈ matcher.scored pattern names ↔
      name ∈ names ∧ matcher.score? pattern name = some score := by
    simp only [scored, List.mem_filterMap, Option.map_eq_some_iff, Prod.mk.injEq]
    constructor
    · rintro ⟨_, hname, _, hscore, rfl, rfl⟩
      exact ⟨hname, hscore⟩
    · rintro ⟨hname, hscore⟩
      exact ⟨name, hname, score, hscore, rfl, rfl⟩
  refine ⟨((hscored name score).1 hmem).1, score, ((hscored name score).1 hmem).2, ?_⟩
  intro name hname other hother
  exact hcloser _ ((hscored name other).2 ⟨hname, hother⟩)

end Matcher

end EventSchema
