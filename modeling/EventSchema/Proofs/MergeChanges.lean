import EventSchema.Proofs.MergedPaths

/-!
# What a merge reports

A merge reports the paths at which it changes something.  Where it reports nothing it leaves the
left side as it is; here is the other direction: whatever is reported makes a difference that
equality of documents can see, even though that equality knows neither the order of fields nor the
sign of zero.

Main results:

- {lit}`Fields.holds_of_same`: a left side that is the same after a merge held all of the right side.
- {lit}`Json.tells`: merging a well-formed value reports whatever difference it makes.
- {lit}`MergeRule.apply_reports_and_settles`: a merge reports changes exactly if there are any, and a
  second one makes none.
-/

namespace EventSchema

namespace Json

/-! ## Differences that a merge makes -/

theorem length_eq_of_sameItems {left right : List Json} (h : sameItems left right = true) :
    left.length = right.length := by
  induction left generalizing right with
  | nil =>
    cases right with
    | nil => rfl
    | cons item rest => simp [sameItems] at h
  | cons item rest ih =>
    cases right with
    | nil => simp [sameItems] at h
    | cons other others =>
      simp only [sameItems, Bool.and_eq_true] at h
      simp [ih h.2]

/-- A list of texts is the same as no other list. -/
theorem eq_of_sameItems_texts {items : List Json} {texts : List String}
    (h : sameItems items (texts.map .str) = true) : items = texts.map .str := by
  induction texts generalizing items with
  | nil =>
    cases items with
    | nil => rfl
    | cons item rest => simp [sameItems] at h
  | cons text texts ih =>
    cases items with
    | nil => simp [sameItems] at h
    | cons item rest =>
      simp only [List.map_cons, sameItems, Bool.and_eq_true] at h
      rw [List.map_cons, ih h.2, (isExact_str text item).1.1 h.1]

/-- Joined tags differ from the tags that were there. -/
theorem same_joinTags?_eq_false {left right tags : Json} (h : joinTags? left right = some tags) :
    left.same tags = false := by
  have hstrings := strings_of_joinTags? h
  rcases Option.ite_none_left_eq_some.1 h with ⟨hlonger, hvalue⟩
  cases Option.some.inj hvalue
  rw [Bool.eq_false_iff]
  intro hsame
  cases left with
  | arr items =>
    rw [same] at hsame
    apply hlonger
    rw [← hstrings, ← eq_of_sameItems_texts hsame]
  | _ => simp [same] at hsame

/-- A value whose merges report whatever difference they make. -/
def Tells (overwrite : Bool) (right : Json) : Prop :=
  ∀ left : Json, left.same (Json.merge overwrite left right).1 = true →
    (Json.merge overwrite left right).2 = []

theorem replace_changes_of_same {overwrite : Bool} {left right : Json}
    (h : left.same (replace overwrite left right).1 = true) :
    (replace overwrite left right).2 = [] := by
  by_cases hreplaced : (overwrite && left != right) = true
  · rw [replace, if_pos hreplaced] at h
    simp [bne, BEq.beq, h] at hreplaced
  · rw [replace, if_neg hreplaced]

theorem tells_of_replace {overwrite : Bool} {right : Json}
    (hmerge : ∀ left, Json.merge overwrite left right = replace overwrite left right) :
    right.Tells overwrite := by
  intro left h
  rw [hmerge] at h ⊢
  exact replace_changes_of_same h

end Json

namespace Fields

/-- A left side that is the same after a merge held all of the right side. -/
theorem holds_of_same {overwrite : Bool} {left right : Fields} (hdistinct : (Fields.keys right).Nodup)
    (hvalues : ∀ e ∈ right, e.2.Tells overwrite)
    (h : (Json.obj left).same (.obj (Fields.merge overwrite left right).1) = true) :
    ∀ e ∈ right, Fields.Holds overwrite left e.1 e.2 := by
  rw [Json.same, Bool.and_eq_true, beq_iff_eq, Definition.sameFields_iff] at h
  rcases h with ⟨hlength, hsame⟩
  -- As many fields as before leave no room for new keys.
  have hnone : Fields.newKeys left right = [] := by
    have hkeys := congrArg List.length (keys_merge overwrite left hdistinct)
    simp only [keys, List.length_map, List.length_append] at hkeys
    exact List.eq_nil_of_length_eq_zero (by omega)
  rintro ⟨key, patch⟩ he
  by_cases hpatch : patch.isNull = true
  · exact Or.inl hpatch
  have hsome := Bool.eq_false_iff.2 hpatch
  have hget : Fields.get? right key = some patch := (get?_eq_some_iff_mem hdistinct).2 he
  cases hmine : Fields.get? left key with
  | none =>
    have hmem : key ∈ Fields.newKeys left right := by
      have hnew : key ∉ Fields.keys left := get?_eq_none_iff.1 hmine
      exact List.mem_map.2 ⟨_, List.mem_filter.2 ⟨he, by simp [hsome, hnew]⟩, rfl⟩
    simp [hnone] at hmem
  | some mine =>
    rcases hsame _ (mem_of_get?_eq_some hmine) with ⟨after, hafter, hvalue⟩
    have hthere : mine.isNull = false := by
      by_contra hnull
      have hnot : ¬ HasValue left key := by
        rintro ⟨value, hvalue, hnot⟩
        cases hmine.symm.trans hvalue
        exact hnull hnot
      rw [get?_merge_of_not_hasValue_left overwrite hdistinct hnot hget hsome] at hafter
      cases hafter
      cases mine <;> cases patch <;> simp_all [Json.isNull, Json.same]
    refine Or.inr ⟨mine, hmine, hthere, ?_⟩
    by_cases hkey : key = profileKey
    · subst hkey
      rw [get?_merge_profile overwrite hdistinct hmine hthere hget hsome] at hafter
      rw [if_pos rfl]
      cases hjoin : Json.joinTags? mine patch with
      | none => rfl
      | some tags =>
        rw [hjoin, Option.getD_some] at hafter
        cases hafter
        rw [Json.same_joinTags?_eq_false hjoin] at hvalue
        cases hvalue
    · rw [get?_merge_of_values overwrite hdistinct hkey hmine hthere hget hsome] at hafter
      cases hafter
      have hchanges := hvalues _ he mine hvalue
      rw [if_neg hkey]
      exact Prod.ext (Json.merge_fst_of_changes overwrite hchanges) hchanges

end Fields

mutual

/-- Merging a well-formed value reports whatever difference it makes. -/
theorem Json.tells (overwrite : Bool) : ∀ {right : Json}, right.WellFormed → right.Tells overwrite
  | .null, _ => Json.tells_of_replace fun left => by simp [Json.merge]
  | .bool b, _ => Json.tells_of_replace fun left => by simp [Json.merge]
  | .num n, _ => Json.tells_of_replace fun left => by simp [Json.merge]
  | .str s, _ => Json.tells_of_replace fun left => by simp [Json.merge]
  | .arr items, _ => by
    intro left h
    cases left with
    | arr left =>
      simp only [Json.merge, Json.same] at h ⊢
      rw [if_pos (Json.length_eq_of_sameItems h).symm]
    | _ =>
      simp only [Json.merge] at h ⊢
      exact Json.replace_changes_of_same h
  | .obj fields, h => by
    rw [Json.WellFormed] at h
    have hvalues := Fields.tells overwrite h.2
    intro left hsame
    cases left with
    | obj left =>
      simp only [Json.merge] at hsame ⊢
      rw [Fields.merge_eq_self (Fields.holds_of_same h.1 hvalues hsame)]
    | _ =>
      simp only [Json.merge] at hsame ⊢
      exact Json.replace_changes_of_same hsame

theorem Fields.tells (overwrite : Bool) : ∀ {fields : List (String × Json)},
    Json.WellFormedFields fields → ∀ e ∈ fields, e.2.Tells overwrite
  | [], _, _, he => nomatch he
  | (key, value) :: rest, h, e, he => by
    rw [Json.WellFormedFields] at h
    rcases List.mem_cons.1 he with rfl | he
    · exact Json.tells overwrite h.1
    · exact Fields.tells overwrite h.2 e he

end

/-- A merge of fields that leaves the same document held them all before. -/
theorem Fields.merge_eq_self_of_same {overwrite : Bool} {left right : Fields}
    (hright : (Json.obj right).WellFormed)
    (h : (Json.obj left).same (.obj (Fields.merge overwrite left right).1) = true) :
    Fields.merge overwrite left right = (left, []) := by
  rw [Json.WellFormed] at hright
  exact Fields.merge_eq_self (Fields.holds_of_same hright.1 (Fields.tells overwrite hright.2) h)

namespace MergeRule

/--
A merge by a rule reports no change exactly if the left side is the same document afterwards, and
then not even the order of its fields has changed.  A second merge of the same fields changes and
reports nothing.
-/
theorem apply_reports_and_settles (rule : MergeRule) {left right : Fields}
    (hleft : (Json.obj left).WellFormed) (hright : (Json.obj right).WellFormed) :
    ((rule.apply left right).2 = [] ↔
        (Json.obj left).same (.obj (rule.apply left right).1) = true) ∧
      ((rule.apply left right).2 = [] → (rule.apply left right).1 = left) ∧
      rule.apply (rule.apply left right).1 right = ((rule.apply left right).1, []) := by
  have hadmitted : (Json.obj (rule.admitted right)).WellFormed := wellFormed_admitted hright
  have hkept (h : (rule.apply left right).2 = []) : (rule.apply left right).1 = left :=
    Fields.merge_fst_of_changes rule.overwrite h
  refine ⟨⟨fun h => ?_, fun h => ?_⟩, hkept, ?_⟩
  · rw [hkept h]
    exact Json.same_self hleft
  · exact congrArg Prod.snd (Fields.merge_eq_self_of_same hadmitted h)
  · exact Fields.merge_merge rule.overwrite left hadmitted

/-- An object that is filled from another one changes, and does so once. -/
theorem device_is_filled_once :
    let rule := MergeRule.fill.ignoring ["extends"]
    let filled := (rule.apply device endpoint).1
    (Json.obj device).WellFormed ∧ (Json.obj endpoint).WellFormed ∧
      (rule.apply device endpoint).2 =
        [["attributes", "ip", "uid"], ["attributes", "ip", "profile"],
          ["attributes", "ip", "values"], ["attributes", "port"]] ∧
      (Json.obj device).same (.obj filled) = false ∧
      rule.apply filled endpoint = (filled, []) := by
  intro rule filled
  have hdevice : (Json.obj device).WellFormed := by
    simp [device, Json.WellFormed, Json.WellFormedFields, Json.WellFormedItems]
  have hendpoint : (Json.obj endpoint).WellFormed := by
    simp [endpoint, Json.WellFormed, Json.WellFormedFields, Json.WellFormedItems, Json.ofInt]
  have hchanges : (rule.apply device endpoint).2 =
      [["attributes", "ip", "uid"], ["attributes", "ip", "profile"],
        ["attributes", "ip", "values"], ["attributes", "port"]] := rfl
  rcases rule.apply_reports_and_settles hdevice hendpoint with ⟨hreports, -, hsettles⟩
  refine ⟨hdevice, hendpoint, hchanges, ?_, hsettles⟩
  rw [Bool.eq_false_iff]
  intro hsame
  rw [hreports.2 hsame] at hchanges
  cases hchanges

end MergeRule

end EventSchema
