import EventSchema.Proofs.Copies

/-!
# Merging again

Merging the same fields a second time changes nothing: every value on the right is held by then.
Documents repeat no keys, and equality of such documents is reflexive; without that, an item of an
array could be added over and over.

Main results:

- {lit}`Json.same_self`: a well-formed document is the same as itself.
- {lit}`Fields.merge_merge`: merging the same fields again changes nothing.
- {lit}`Fields.merge_fst_of_changes`: a merge that reports no change makes none.
- {lit}`Fields.hasValue_merge`: after a merge every value of the right side has a counterpart.
-/

namespace EventSchema

namespace Json

/-! ## Equality is reflexive -/

mutual

/-- A well-formed document is the same as itself. -/
theorem same_self : ∀ {value : Json}, value.WellFormed → value.same value = true
  | .null, _ => rfl
  | .bool _, _ => beq_self_eq_true _
  | .num n, _ => n.same_refl
  | .str _, _ => beq_self_eq_true _
  | .arr items, h => by
    rw [WellFormed] at h
    rw [same]
    exact sameItems_self h
  | .obj fields, h => by
    rw [WellFormed] at h
    rw [same, beq_self_eq_true, Bool.true_and]
    exact sameFields_of_forall h.2 fun e he => (Fields.get?_eq_some_iff_mem h.1).2 he

/-- Well-formed items are the same as themselves. -/
theorem sameItems_self : ∀ {items : List Json}, WellFormedItems items →
    sameItems items items = true
  | [], _ => rfl
  | item :: rest, h => by
    rw [WellFormedItems] at h
    rw [sameItems, same_self h.1, sameItems_self h.2]
    rfl

/-- Fields that are all found in others are the same there. -/
theorem sameFields_of_forall : ∀ {fields : List (String × Json)} {right : Fields},
    WellFormedFields fields → (∀ e ∈ fields, Fields.get? right e.1 = some e.2) →
      sameFields fields right = true
  | [], _, _, _ => by rw [sameFields]
  | (key, value) :: rest, right, h, hright => by
    rw [WellFormedFields] at h
    have hhere : Fields.get? right key = some value := hright (key, value) List.mem_cons_self
    have hrest := sameFields_of_forall h.2 fun e he => hright e (List.mem_cons_of_mem _ he)
    rw [sameFields, hhere, hrest, Bool.and_true]
    exact same_self h.1

end

theorem wellFormed_of_mem_items {items : List Json} (h : WellFormedItems items) {item : Json}
    (hitem : item ∈ items) : item.WellFormed := by
  induction items with
  | nil => cases hitem
  | cons first rest ih =>
    rw [WellFormedItems] at h
    rcases List.mem_cons.1 hitem with rfl | hitem
    · exact h.1
    · exact ih h.2 hitem

/-! ## Arrays -/

/-- An array takes no item that it has already. -/
theorem gather_eq_self {items right : List Json} (h : ∀ item ∈ right, items.contains item = true) :
    gather items right = items := by
  induction right with
  | nil => rfl
  | cons item rest ih =>
    have hrest := ih fun other ho => h other (List.mem_cons_of_mem item ho)
    simpa [gather, h item List.mem_cons_self] using hrest

/-- What items contain they still contain when others are gathered. -/
theorem contains_gather_of_contains {items : List Json} {item : Json}
    (h : items.contains item = true) (right : List Json) :
    (gather items right).contains item = true := by
  rcases gather_append items right with ⟨more, hmore⟩
  rw [hmore]
  simp [h]

/-- Gathered items contain all that were gathered. -/
theorem contains_gather_of_mem {items right : List Json} (h : WellFormedItems right) {item : Json}
    (hitem : item ∈ right) : (gather items right).contains item = true := by
  induction right generalizing items with
  | nil => cases hitem
  | cons first rest ih =>
    rw [WellFormedItems] at h
    have hstep : gather items (first :: rest) =
        gather (if items.contains first then items else items ++ [first]) rest := rfl
    rw [hstep]
    rcases List.mem_cons.1 hitem with rfl | hitem
    · refine contains_gather_of_contains ?_ rest
      split
      · assumption
      · have hself : (item == item) = true := same_self h.1
        simp [hself]
    · exact ih h.2 hitem

/-- The same items are gathered once. -/
theorem gather_gather {items right : List Json} (h : WellFormedItems right) :
    gather (gather items right) right = gather items right :=
  gather_eq_self fun _ hitem => contains_gather_of_mem h hitem

/-- Items gather nothing from themselves. -/
theorem gather_self {items : List Json} (h : WellFormedItems items) :
    gather items items = items := by
  refine gather_eq_self fun item hitem => ?_
  have hself : (item == item) = true := same_self (wellFormed_of_mem_items h hitem)
  exact List.contains_iff_exists_mem_beq.2 ⟨item, hitem, hself⟩

/-! ## Profile tags -/

/-- Gathered tags are those of both sides. -/
theorem mem_gatherTags {left right : List String} {tag : String} :
    tag ∈ gatherTags left right ↔ tag ∈ left ∨ tag ∈ right := by
  induction right generalizing left with
  | nil => simp [gatherTags]
  | cons first rest ih =>
    have hstep : gatherTags left (first :: rest) =
        gatherTags (if left.contains first then left else left ++ [first]) rest := rfl
    rw [hstep, ih]
    by_cases hfirst : first ∈ left
    · simp only [List.contains_iff_mem.2 hfirst, if_true, List.mem_cons]
      constructor
      · exact Or.imp id Or.inr
      · rintro (hleft | rfl | hrest)
        · exact Or.inl hleft
        · exact Or.inl hfirst
        · exact Or.inr hrest
    · simp [hfirst, or_assoc]

/-- Tags are gathered behind those that are there. -/
theorem gatherTags_eq_append (left right : List String) :
    ∃ more, gatherTags left right = left ++ more := by
  induction right generalizing left with
  | nil => exact ⟨[], by simp [gatherTags]⟩
  | cons first rest ih =>
    by_cases hfirst : first ∈ left
    · rcases ih left with ⟨more, hmore⟩
      exact ⟨more, by simpa [gatherTags, hfirst] using hmore⟩
    · rcases ih (left ++ [first]) with ⟨more, hmore⟩
      exact ⟨first :: more, by simpa [gatherTags, hfirst] using hmore⟩

/-- Tags that are there are not gathered again. -/
theorem gatherTags_eq_self {left right : List String} (h : ∀ tag ∈ right, tag ∈ left) :
    gatherTags left right = left := by
  induction right with
  | nil => rfl
  | cons first rest ih =>
    have hrest := ih fun tag ht => h tag (List.mem_cons_of_mem first ht)
    simpa [gatherTags, h first List.mem_cons_self] using hrest

/-- The right side adds no tags exactly if the left side has all of them. -/
theorem joinTags?_eq_none_iff {left right : Json} :
    joinTags? left right = none ↔ ∀ tag ∈ strings (some right), tag ∈ strings (some left) := by
  constructor
  · intro h tag htag
    rcases gatherTags_eq_append (strings (some left)) (strings (some right)) with ⟨more, hmore⟩
    have hnil : more = [] := by
      simpa [joinTags?, hmore] using h
    rw [hnil, List.append_nil] at hmore
    rw [← hmore]
    exact mem_gatherTags.2 (Or.inr htag)
  · intro h
    simp [joinTags?, gatherTags_eq_self h]

/-- Joined tags are not null. -/
theorem isNull_of_joinTags? {left right tags : Json} (h : joinTags? left right = some tags) :
    tags.isNull = false := by
  unfold joinTags? at h
  dsimp only at h
  split at h
  · cases h
  · cases h
    rfl

/-- Joined tags are those of both sides. -/
theorem strings_of_joinTags? {left right tags : Json} (h : joinTags? left right = some tags) :
    strings (some tags) = gatherTags (strings (some left)) (strings (some right)) := by
  unfold joinTags? at h
  dsimp only at h
  split at h
  · cases h
  · cases h
    rw [strings, List.filterMap_map]
    exact List.filterMap_some

/-! ## Values that do not merge -/

/-- A value that replaces itself reports no change. -/
theorem replace_self (overwrite : Bool) {value : Json} (h : value.WellFormed) :
    replace overwrite value value = (value, []) := by
  have hself : (value == value) = true := same_self h
  simp [replace, bne, hself]

/-- A value is replaced with a change at the root, or stays without one. -/
theorem replace_cases (overwrite : Bool) (left right : Json) :
    replace overwrite left right = (right, [[]]) ∨ replace overwrite left right = (left, []) := by
  unfold replace
  split
  · exact Or.inl rfl
  · exact Or.inr rfl

/-- Values that are not null are replaced by one that is not. -/
theorem isNull_replace {overwrite : Bool} {left right : Json} (hleft : left.isNull = false)
    (hright : right.isNull = false) : (replace overwrite left right).1.isNull = false := by
  unfold replace
  split
  · exact hright
  · exact hleft

/-- A value holds another one if merging the other changes nothing. -/
def Holds (overwrite : Bool) (left right : Json) : Prop :=
  Json.merge overwrite left right = (left, [])

end Json

namespace Fields

/-- To set a field to its value changes nothing. -/
theorem set_eq_self {fields : Fields} {key : String} {value : Json}
    (h : Fields.get? fields key = some value) : Fields.set key value fields = fields := by
  induction fields with
  | nil => cases h
  | cons e rest ih =>
    rcases e with ⟨k, v⟩
    rw [get?_cons] at h
    by_cases hkey : k = key
    · rw [if_pos hkey.symm] at h
      cases h
      rw [set, if_pos hkey]
    · rw [if_neg (Ne.symm hkey)] at h
      rw [set, if_neg hkey, ih h]

/-- Some fields hold a value under a key if merging it there changes nothing. -/
def Holds (overwrite : Bool) (left : Fields) (key : String) (right : Json) : Prop :=
  right.isNull = true ∨ ∃ existing, Fields.get? left key = some existing ∧
    existing.isNull = false ∧
    if key = profileKey then Json.joinTags? existing right = none
    else existing.Holds overwrite right

/-- Whether fields hold a value depends on this field only. -/
theorem Holds.congr {overwrite : Bool} {left other : Fields} {key : String} {right : Json}
    (h : Holds overwrite left key right) (hget : Fields.get? other key = Fields.get? left key) :
    Holds overwrite other key right := by
  rcases h with hnull | ⟨existing, hexisting, hrest⟩
  · exact Or.inl hnull
  · exact Or.inr ⟨existing, hget.trans hexisting, hrest⟩

/-- A field that holds a value takes nothing from it. -/
theorem mergeField_eq_self {overwrite : Bool} {left : Fields} {key : String} {right : Json}
    (h : Holds overwrite left key right) :
    Fields.mergeField overwrite left key right = (left, []) := by
  unfold mergeField
  rcases h with hnull | ⟨existing, hexisting, hvalue, hholds⟩
  · rw [if_pos hnull]
  · split
    · rfl
    simp only [hexisting, hvalue]
    by_cases hkey : key = profileKey
    · rw [if_pos hkey] at hholds
      simp [hkey, hholds]
    · rw [if_neg hkey] at hholds
      have hmerge : Json.merge overwrite existing right = (existing, []) := hholds
      simp [hkey, hmerge, set_eq_self hexisting]

/-- Fields that hold all values of a source take nothing from it. -/
theorem merge_eq_self {overwrite : Bool} {left right : Fields}
    (h : ∀ e ∈ right, Holds overwrite left e.1 e.2) :
    Fields.merge overwrite left right = (left, []) := by
  induction right with
  | nil => exact merge_nil overwrite left
  | cons e rest ih =>
    have hrest := ih fun other ho => h other (List.mem_cons_of_mem e ho)
    rw [merge_cons, mergeField_eq_self (h e List.mem_cons_self)]
    simp [hrest]

/-- Merging one field leaves the others. -/
theorem get?_mergeField_of_ne (overwrite : Bool) (left : Fields) {key other : String}
    (right : Json) (h : other ≠ key) :
    Fields.get? (Fields.mergeField overwrite left key right).1 other = Fields.get? left other := by
  unfold mergeField
  split
  · rfl
  · split
    · exact get?_set_of_ne left _ h
    · split
      · exact get?_set_of_ne left _ h
      · split
        · split
          · exact get?_set_of_ne left _ h
          · rfl
        · exact get?_set_of_ne left _ h

/-- A merge leaves the fields that the source lacks. -/
theorem get?_merge_of_not_mem (overwrite : Bool) (left : Fields) {right : Fields} {key : String}
    (h : key ∉ Fields.keys right) :
    Fields.get? (Fields.merge overwrite left right).1 key = Fields.get? left key := by
  induction right generalizing left with
  | nil => rw [merge_nil]
  | cons e rest ih =>
    rcases List.ne_and_not_mem_of_not_mem_cons h with ⟨hne, hrest⟩
    rw [merge_cons]
    exact (ih _ hrest).trans (get?_mergeField_of_ne overwrite left e.2 hne)

end Fields

/-! ## Merging a second time -/

/-- A value that is held by what it has been merged into, and by itself. -/
structure Json.Settles (overwrite : Bool) (right : Json) : Prop where
  merged : ∀ left : Json, (Json.merge overwrite left right).1.Holds overwrite right
  self : right.Holds overwrite right

/-- Values that are not null merge to one that is not. -/
theorem Json.isNull_merge {overwrite : Bool} {left right : Json} (hleft : left.isNull = false)
    (hright : right.isNull = false) : (Json.merge overwrite left right).1.isNull = false := by
  unfold Json.merge
  split
  · split
    · rfl
    · exact isNull_replace hleft hright
  · split
    · rfl
    · exact isNull_replace hleft hright
  · exact isNull_replace hleft hright

/-- A field holds what was merged into it. -/
theorem Fields.holds_mergeField {overwrite : Bool} (left : Fields) (key : String) {right : Json}
    (h : right.Settles overwrite) :
    Fields.Holds overwrite (Fields.mergeField overwrite left key right).1 key right := by
  by_cases hnull : right.isNull = true
  · exact Or.inl hnull
  have hvalue := Bool.eq_false_iff.2 hnull
  have hself : if key = profileKey then Json.joinTags? right right = none
      else right.Holds overwrite right := by
    split
    · exact Json.joinTags?_eq_none_iff.2 fun _ htag => htag
    · exact h.self
  refine Or.inr ?_
  unfold mergeField
  rw [if_neg hnull]
  split
  · exact ⟨right, get?_set_self left key right, hvalue, hself⟩
  · rename_i existing hexisting
    split
    · exact ⟨right, get?_set_self left key right, hvalue, hself⟩
    · rename_i hthere
      have hthere := Bool.eq_false_iff.2 hthere
      by_cases hkey : key = profileKey
      · simp only [if_pos hkey]
        split
        · rename_i tags htags
          refine ⟨tags, get?_set_self left key tags, Json.isNull_of_joinTags? htags,
            Json.joinTags?_eq_none_iff.2 fun tag htag => ?_⟩
          rw [Json.strings_of_joinTags? htags]
          exact Json.mem_gatherTags.2 (Or.inr htag)
        · rename_i hnone
          exact ⟨existing, hexisting, hthere, hnone⟩
      · simp only [if_neg hkey]
        exact ⟨_, get?_set_self left key _, Json.isNull_merge hthere hvalue, h.merged existing⟩

/-- Fields with distinct keys are held by what they have been merged into, if each value is. -/
theorem Fields.holds_merge {overwrite : Bool} (left : Fields) {right : Fields}
    (hkeys : (Fields.keys right).Nodup) (h : ∀ e ∈ right, e.2.Settles overwrite) :
    ∀ e ∈ right, Fields.Holds overwrite (Fields.merge overwrite left right).1 e.1 e.2 := by
  induction right generalizing left with
  | nil => simp
  | cons first rest ih =>
    rcases List.nodup_cons.1 hkeys with ⟨hnew, hrest⟩
    intro e he
    rw [merge_cons]
    rcases List.mem_cons.1 he with rfl | he
    · exact (holds_mergeField left e.1 (h e List.mem_cons_self)).congr
        (get?_merge_of_not_mem overwrite _ hnew)
    · exact ih _ hrest (fun other ho => h other (List.mem_cons_of_mem first ho)) e he

/-- Fields with distinct keys hold themselves, if that is true of each value. -/
theorem Fields.holds_self {overwrite : Bool} {fields : Fields}
    (hkeys : (Fields.keys fields).Nodup) (h : ∀ e ∈ fields, e.2.Settles overwrite) :
    ∀ e ∈ fields, Fields.Holds overwrite fields e.1 e.2 := by
  intro e he
  by_cases hnull : e.2.isNull = true
  · exact Or.inl hnull
  refine Or.inr ⟨e.2, (get?_eq_some_iff_mem hkeys).2 he, Bool.eq_false_iff.2 hnull, ?_⟩
  split
  · exact Json.joinTags?_eq_none_iff.2 fun _ htag => htag
  · exact (h e he).self

/-- A value that holds itself is held by what it has replaced or left in place. -/
theorem Json.holds_of_replace {overwrite : Bool} {left right : Json}
    (hself : right.Holds overwrite right)
    (hmerge : Json.merge overwrite left right = Json.replace overwrite left right) :
    (Json.merge overwrite left right).1.Holds overwrite right := by
  rcases replace_cases overwrite left right with hreplace | hreplace
  · rwa [hmerge, hreplace]
  · rw [hmerge, hreplace]
    exact hmerge.trans hreplace

/-- A value that only replaces others settles at once. -/
theorem Json.settles_of_replace {overwrite : Bool} {right : Json} (h : right.WellFormed)
    (hmerge : ∀ left, Json.merge overwrite left right = Json.replace overwrite left right) :
    right.Settles overwrite := by
  have hself : right.Holds overwrite right := (hmerge right).trans (replace_self overwrite h)
  exact ⟨fun left => holds_of_replace hself (hmerge left), hself⟩

mutual

/-- Every well-formed value is settled once it has been merged. -/
theorem Json.settles (overwrite : Bool) : ∀ {right : Json}, right.WellFormed →
    right.Settles overwrite
  | .null, h => Json.settles_of_replace h fun left => by simp [Json.merge]
  | .bool b, h => Json.settles_of_replace h fun left => by simp [Json.merge]
  | .num n, h => Json.settles_of_replace h fun left => by simp [Json.merge]
  | .str s, h => Json.settles_of_replace h fun left => by simp [Json.merge]
  | .arr items, h => by
    have hitems : Json.WellFormedItems items := by rwa [Json.WellFormed] at h
    have hself : (Json.arr items).Holds overwrite (.arr items) := by
      simp [Json.Holds, Json.merge, Json.gather_self hitems]
    refine ⟨fun left => ?_, hself⟩
    cases left with
    | arr left => simp [Json.Holds, Json.merge, Json.gather_gather hitems]
    | _ => exact Json.holds_of_replace hself (by simp [Json.merge])
  | .obj fields, h => by
    rw [Json.WellFormed] at h
    have hfields := Fields.settles overwrite h.2
    have hself : (Json.obj fields).Holds overwrite (.obj fields) := by
      simp [Json.Holds, Json.merge, Fields.merge_eq_self (Fields.holds_self h.1 hfields)]
    refine ⟨fun left => ?_, hself⟩
    cases left with
    | obj left =>
      have hmerged := Fields.holds_merge left h.1 hfields
      simp [Json.Holds, Json.merge, Fields.merge_eq_self hmerged]
    | _ => exact Json.holds_of_replace hself (by simp [Json.merge])

/-- All values of well-formed fields settle at once. -/
theorem Fields.settles (overwrite : Bool) : ∀ {fields : List (String × Json)},
    Json.WellFormedFields fields → ∀ e ∈ fields, e.2.Settles overwrite
  | [], _, _, he => nomatch he
  | (key, value) :: rest, h, e, he => by
    rw [Json.WellFormedFields] at h
    rcases List.mem_cons.1 he with rfl | he
    · exact Json.settles overwrite h.1
    · exact Fields.settles overwrite h.2 e he

end

/-- Merging the same fields again changes nothing. -/
theorem Fields.merge_merge (overwrite : Bool) (left : Fields) {right : Fields}
    (h : (Json.obj right).WellFormed) :
    Fields.merge overwrite (Fields.merge overwrite left right).1 right =
      ((Fields.merge overwrite left right).1, []) := by
  rw [Json.WellFormed] at h
  exact merge_eq_self (holds_merge left h.1 (settles overwrite h.2))

/-! ## Merges without changes -/

/-- Items that do not grow have gathered nothing. -/
theorem Json.gather_of_length_eq {items right : List Json}
    (h : (Json.gather items right).length = items.length) : Json.gather items right = items := by
  rcases Json.gather_append items right with ⟨more, hmore⟩
  have hnil : more = [] := by
    rw [hmore, List.length_append] at h
    exact List.eq_nil_of_length_eq_zero (Nat.add_eq_left.1 h)
  rw [hmore, hnil, List.append_nil]

/-- A replacement that reports no change makes none. -/
theorem Json.replace_fst_of_changes {overwrite : Bool} {left right : Json}
    (h : (Json.replace overwrite left right).2 = []) :
    (Json.replace overwrite left right).1 = left := by
  rcases replace_cases overwrite left right with hreplace | hreplace
  · rw [hreplace] at h
    cases h
  · rw [hreplace]

/-- A merged field that reports no change has none, if this holds of its value. -/
theorem Fields.mergeField_fst_of_changes {overwrite : Bool} {left : Fields} {key : String}
    {right : Json} (hvalue : ∀ existing : Json, (Json.merge overwrite existing right).2 = [] →
      (Json.merge overwrite existing right).1 = existing)
    (h : (Fields.mergeField overwrite left key right).2 = []) :
    (Fields.mergeField overwrite left key right).1 = left := by
  unfold mergeField at h ⊢
  split
  · rfl
  · rename_i hright
    rw [if_neg hright] at h
    split <;> rename_i hget
    · rw [hget] at h
      cases h
    · rename_i existing
      simp only [hget] at h
      by_cases hnull : existing.isNull = true
      · rw [if_pos hnull] at h
        cases h
      rw [if_neg hnull] at h ⊢
      by_cases hkey : key = profileKey
      · rw [if_pos hkey] at h ⊢
        split <;> rename_i hjoin
        · rw [hjoin] at h
          cases h
        · rfl
      · rw [if_neg hkey] at h ⊢
        have hsame := hvalue existing (List.map_eq_nil_iff.1 h)
        simp only [hsame]
        exact set_eq_self hget

mutual

/-- A merge that reports no change makes none. -/
theorem Json.merge_fst_of_changes (overwrite : Bool) : ∀ {right left : Json},
    (Json.merge overwrite left right).2 = [] → (Json.merge overwrite left right).1 = left
  | .obj right, left, h => by
    cases left with
    | obj left =>
      simp only [Json.merge] at h ⊢
      rw [Fields.merge_fst_of_changes overwrite h]
    | _ =>
      simp only [Json.merge] at h ⊢
      exact Json.replace_fst_of_changes h
  | .arr right, left, h => by
    cases left with
    | arr items =>
      simp only [Json.merge] at h ⊢
      rw [Json.gather_of_length_eq (by simpa using h)]
    | _ =>
      simp only [Json.merge] at h ⊢
      exact Json.replace_fst_of_changes h
  | .null, left, h => by
    simp only [Json.merge] at h ⊢
    exact Json.replace_fst_of_changes h
  | .bool b, left, h => by
    simp only [Json.merge] at h ⊢
    exact Json.replace_fst_of_changes h
  | .num n, left, h => by
    simp only [Json.merge] at h ⊢
    exact Json.replace_fst_of_changes h
  | .str s, left, h => by
    simp only [Json.merge] at h ⊢
    exact Json.replace_fst_of_changes h

/-- A merge that reports no change makes none. -/
theorem Fields.merge_fst_of_changes (overwrite : Bool) : ∀ {right : List (String × Json)}
    {left : Fields}, (Fields.merge overwrite left right).2 = [] →
      (Fields.merge overwrite left right).1 = left
  | [], left, _ => by rw [Fields.merge_nil]
  | (key, value) :: rest, left, h => by
    rw [Fields.merge_cons] at h ⊢
    rcases List.append_eq_nil_iff.1 h with ⟨hhere, hrest⟩
    have hfirst := Fields.mergeField_fst_of_changes
      (fun existing => Json.merge_fst_of_changes overwrite) hhere
    exact (Fields.merge_fst_of_changes overwrite hrest).trans hfirst

end

/-! ## What a merge covers -/

namespace Fields

/-- There is a value under a key; null counts as none. -/
def HasValue (fields : Fields) (key : String) : Prop :=
  ∃ value, Fields.get? fields key = some value ∧ value.isNull = false

instance (fields : Fields) (key : String) : Decidable (HasValue fields key) :=
  decidable_of_iff ((Fields.get? fields key).any fun value => !value.isNull) (by
    simp [HasValue, Option.any_eq_true])

/-- Fields that hold a value that is not null have one. -/
theorem Holds.hasValue {overwrite : Bool} {left : Fields} {key : String} {right : Json}
    (h : Holds overwrite left key right) (hright : right.isNull = false) : HasValue left key := by
  rcases h with hnull | ⟨existing, hexisting, hvalue, -⟩
  · rw [hright] at hnull
    cases hnull
  · exact ⟨existing, hexisting, hvalue⟩

/-- After a merge every value of the right side has a counterpart. -/
theorem hasValue_merge (overwrite : Bool) (left : Fields) {right : Fields}
    (h : (Json.obj right).WellFormed) {key : String} (hkey : HasValue right key) :
    HasValue (Fields.merge overwrite left right).1 key := by
  rw [Json.WellFormed] at h
  rcases hkey with ⟨value, hvalue, hnull⟩
  have hholds := holds_merge left h.1 (settles overwrite h.2) _ (mem_of_get?_eq_some hvalue)
  exact hholds.hasValue hnull

end Fields

end EventSchema
