import EventSchema.Proofs.InactiveTags
import EventSchema.Proofs.MergeAssociativity
import Mathlib.Data.List.Perm.Subperm

/-!
# The order of fields does not matter to a merge

Objects list their fields in authored order, but a merge looks at them by key, and at the items of
arrays through an equality that knows no order either.  So two documents whose objects have their
fields in other orders, at any depth, take part in a merge alike: the results differ in the order of
fields alone, and the same changes are reported.

Main results:

- {lit}`Json.same_iff_matches`, {lit}`Json.same_symm`: equality of well-formed documents is a match
  and symmetric.
- {lit}`Json.forall₂_gather`, {lit}`Fields.paired_merge`: unions of paired arrays are paired, and so
  are merges of paired objects.
- {lit}`Fields.changes_merge`: a merge reports what it changes key by key.
- {lit}`MergeRule.apply_ignores_key_order`: a merge by a rule respects equality, up to the order of
  fields and as documents compare themselves.
-/

namespace EventSchema

namespace Json

/-! ## Documents that match -/

section Matching

variable (number : Number → Number → Prop)

mutual

/-- Two documents with the same contents: the fields of objects may stand in any order, and numbers
are compared by a relation. -/
def Matches : Json → Json → Prop
  | .null, .null => True
  | .bool a, .bool b => a = b
  | .num a, .num b => number a b
  | .str a, .str b => a = b
  | .arr a, .arr b => MatchesItems a b
  | .obj a, .obj b => (Fields.keys a).Perm (Fields.keys b) ∧ MatchesFields a b
  | _, _ => False

/-- Two arrays that match item by item. -/
def MatchesItems : List Json → List Json → Prop
  | [], [] => True
  | a :: as, b :: bs => Matches a b ∧ MatchesItems as bs
  | _, _ => False

/-- Each field on the left has a value on the right that matches its own. -/
def MatchesFields : List (String × Json) → List (String × Json) → Prop
  | [], _ => True
  | (key, a) :: rest, right =>
    (∃ b, Fields.get? right key = some b ∧ Matches a b) ∧ MatchesFields rest right

end

end Matching

/-- Two documents that differ in the order of fields alone. -/
def Rearranges (left right : Json) : Prop := Matches (· = ·) left right

variable {number : Number → Number → Prop}

/-- Items match if they do one by one. -/
theorem matchesItems_iff {left right : List Json} :
    MatchesItems number left right ↔ List.Forall₂ (Matches number) left right := by
  induction left generalizing right with
  | nil => cases right <;> simp [MatchesItems]
  | cons item rest ih => cases right <;> simp [MatchesItems, ih]

/-- Fields match if each is found on the other side with a matching value. -/
theorem matchesFields_iff {left right : Fields} :
    MatchesFields number left right ↔
      ∀ e ∈ left, ∃ b, Fields.get? right e.1 = some b ∧ Matches number e.2 b := by
  induction left with
  | nil => simp [MatchesFields]
  | cons e rest ih =>
    obtain ⟨key, value⟩ := e
    rw [MatchesFields, ih, List.forall_mem_cons]

@[simp]
theorem matches_null : Matches number .null .null := by
  rw [Matches]
  trivial

@[simp]
theorem matches_num_iff {m n : Number} : Matches number (.num m) (.num n) ↔ number m n := by
  rw [Matches]

@[simp]
theorem matches_str_iff {s t : String} : Matches number (.str s) (.str t) ↔ s = t := by
  rw [Matches]

/-- Arrays match if their items do one by one. -/
theorem matches_arr_iff {left right : List Json} :
    Matches number (.arr left) (.arr right) ↔ List.Forall₂ (Matches number) left right := by
  rw [Matches, matchesItems_iff]

/-- Objects match if they have the same keys with matching values. -/
theorem matches_obj_iff_values {left right : Fields} :
    Matches number (.obj left) (.obj right) ↔ (Fields.keys left).Perm (Fields.keys right) ∧
      ∀ e ∈ left, ∃ b, Fields.get? right e.1 = some b ∧ Matches number e.2 b := by
  rw [Matches, matchesFields_iff]

section Options

variable {related : Json → Json → Prop} {x y : Option Json}

/-- Optional values are related if neither is there, or both are and are related. -/
theorem rel_iff : Option.Rel related x y ↔
    (x = none ↔ y = none) ∧ ∀ a b, x = some a → y = some b → related a b := by
  cases x <;> cases y <;> simp

/-- What is on the left has a partner on the right. -/
theorem exists_of_rel_left (h : Option.Rel related x y) {a : Json} (ha : x = some a) :
    ∃ b, y = some b ∧ related a b := by
  cases h <;> simp_all

/-- What is on the right has a partner on the left. -/
theorem exists_of_rel_right (h : Option.Rel related x y) {b : Json} (hb : y = some b) :
    ∃ a, x = some a ∧ related a b := by
  cases h <;> simp_all

end Options

/-- Objects match if they have matching values, or none, under each key. -/
theorem matches_obj_iff {left right : Fields} (hleft : (Fields.keys left).Nodup)
    (hright : (Fields.keys right).Nodup) :
    Matches number (.obj left) (.obj right) ↔
      ∀ key, Option.Rel (Matches number) (Fields.get? left key) (Fields.get? right key) := by
  rw [matches_obj_iff_values]
  constructor
  · rintro ⟨hkeys, hvalues⟩ key
    refine rel_iff.2 ⟨?_, fun a b ha hb => ?_⟩
    · rw [Fields.get?_eq_none_iff, Fields.get?_eq_none_iff, hkeys.mem_iff]
    · obtain ⟨other, hother, hmatches⟩ := hvalues _ (Fields.mem_of_get?_eq_some ha)
      cases hb.symm.trans hother
      exact hmatches
  · intro h
    refine ⟨(List.perm_ext_iff_of_nodup hleft hright).2 fun key => ?_, fun e he => ?_⟩
    · rw [← not_iff_not, ← Fields.get?_eq_none_iff, ← Fields.get?_eq_none_iff]
      exact (rel_iff.1 (h key)).1
    · exact exists_of_rel_left (h e.1) ((Fields.get?_eq_some_iff_mem hleft).2 he)

/-! ## Equality is matching -/

mutual

/-- Matching documents are the same. -/
theorem Matches.same (hnumber : ∀ m n : Number, number m n → m.same n = true) :
    ∀ {a b : Json}, Matches number a b → a.same b = true
  | .null, b, h => by
    cases b <;> simp_all [Matches, Json.same]
  | .bool _, b, h => by
    cases b <;> simp_all [Matches, Json.same]
  | .str _, b, h => by
    cases b <;> simp_all [Matches, Json.same]
  | .num _, b, h => by
    cases b <;> simp_all [Matches, Json.same]
  | .arr _, b, h => by
    cases b <;> simp only [Matches] at h
    rw [Json.same]
    exact MatchesItems.same hnumber h
  | .obj _, b, h => by
    cases b <;> simp only [Matches] at h
    rw [Json.same, Bool.and_eq_true, beq_iff_eq]
    exact ⟨by simpa [Fields.keys] using h.1.length_eq, MatchesFields.same hnumber h.2⟩

/-- Items that match are the same if numbers that do are. -/
theorem MatchesItems.same (hnumber : ∀ m n : Number, number m n → m.same n = true) :
    ∀ {a b : List Json}, MatchesItems number a b → sameItems a b = true
  | [], b, h => by
    cases b <;> simp_all [MatchesItems, sameItems]
  | item :: rest, b, h => by
    cases b <;> simp only [MatchesItems] at h
    rw [sameItems, Bool.and_eq_true]
    exact ⟨Matches.same hnumber h.1, MatchesItems.same hnumber h.2⟩

/-- Fields that match are the same if numbers that do are. -/
theorem MatchesFields.same (hnumber : ∀ m n : Number, number m n → m.same n = true) :
    ∀ {a : List (String × Json)} {b : Fields}, MatchesFields number a b → sameFields a b = true
  | [], _, _ => by rw [sameFields]
  | (key, value) :: rest, b, h => by
    rw [MatchesFields] at h
    obtain ⟨⟨other, hget, hvalue⟩, hrest⟩ := h
    rw [sameFields, hget, Bool.and_eq_true]
    exact ⟨Matches.same hnumber hvalue, MatchesFields.same hnumber hrest⟩

end

/-- As many fields, each of which is on the right as well, have the same keys. -/
theorem keys_perm_of_sameFields {left right : Fields} (hdistinct : (Fields.keys left).Nodup)
    (hlength : left.length = right.length) (h : sameFields left right = true) :
    (Fields.keys left).Perm (Fields.keys right) := by
  have hsubset : Fields.keys left ⊆ Fields.keys right := by
    intro key hkey
    obtain ⟨e, he, rfl⟩ := List.mem_map.1 hkey
    obtain ⟨value, hvalue, -⟩ := Definition.sameFields_iff.1 h e he
    exact List.mem_map.2 ⟨_, Fields.mem_of_get?_eq_some hvalue, rfl⟩
  refine (List.subperm_of_subset hdistinct hsubset).perm_of_length_le ?_
  simp [Fields.keys, hlength]

mutual

/-- Documents that are the same match if numbers are compared like this as well. -/
theorem matches_of_same : ∀ {a b : Json}, a.WellFormed → a.same b = true →
    Matches (fun m n => m.same n = true) a b
  | .null, b, _, h => by
    cases b <;> simp_all [Matches, same]
  | .bool _, b, _, h => by
    cases b <;> simp_all [Matches, same]
  | .str _, b, _, h => by
    cases b <;> simp_all [Matches, same]
  | .num _, b, _, h => by
    cases b <;> simp_all [Matches, same]
  | .arr _, b, ha, h => by
    cases b <;> simp only [same, Bool.false_eq_true] at h
    rw [WellFormed] at ha
    rw [Matches]
    exact matchesItems_of_same ha h
  | .obj _, b, ha, h => by
    cases b <;> simp only [same, Bool.false_eq_true, Bool.and_eq_true, beq_iff_eq] at h
    rw [WellFormed] at ha
    rw [Matches]
    exact ⟨keys_perm_of_sameFields ha.1 h.1 h.2, matchesFields_of_same ha.2 h.2⟩

/-- Items that are the same match up to equal numbers. -/
theorem matchesItems_of_same : ∀ {a b : List Json}, WellFormedItems a → sameItems a b = true →
    MatchesItems (fun m n => m.same n = true) a b
  | [], b, _, h => by
    cases b <;> simp_all [MatchesItems, sameItems]
  | item :: rest, b, ha, h => by
    cases b <;> simp only [sameItems, Bool.false_eq_true, Bool.and_eq_true] at h
    rw [WellFormedItems] at ha
    rw [MatchesItems]
    exact ⟨matches_of_same ha.1 h.1, matchesItems_of_same ha.2 h.2⟩

/-- Fields that are the same match up to equal numbers. -/
theorem matchesFields_of_same : ∀ {a : List (String × Json)} {b : Fields}, WellFormedFields a →
    sameFields a b = true → MatchesFields (fun m n => m.same n = true) a b
  | [], _, _, _ => by rw [MatchesFields]; trivial
  | (key, value) :: rest, b, ha, h => by
    rw [WellFormedFields] at ha
    rw [sameFields, Bool.and_eq_true] at h
    rw [MatchesFields]
    refine ⟨?_, matchesFields_of_same ha.2 h.2⟩
    cases hget : Fields.get? b key with
    | none => simp [hget] at h
    | some other =>
      have hvalue : value.same other = true := by simpa [hget] using h.1
      exact ⟨other, rfl, matches_of_same ha.1 hvalue⟩

end

/-- Equality of well-formed documents, as a match. -/
theorem same_iff_matches {a b : Json} (ha : a.WellFormed) :
    a.same b = true ↔ Matches (fun m n => m.same n = true) a b :=
  ⟨matches_of_same ha, Matches.same fun _ _ => id⟩

mutual

/-- Equality of well-formed documents is symmetric. -/
theorem same_symm : ∀ {a b : Json}, a.WellFormed → b.WellFormed → a.same b = true →
    b.same a = true
  | .null, b, _, _, h => by
    cases b <;> simp_all [same]
  | .bool _, b, _, _, h => by
    cases b <;> simp_all [same]
  | .str _, b, _, _, h => by
    cases b <;> simp_all [same]
  | .num _, b, _, _, h => by
    cases b <;> simp_all [same, Number.same_comm]
  | .arr _, b, ha, hb, h => by
    cases b <;> simp only [same, Bool.false_eq_true] at h
    rw [WellFormed] at ha hb
    rw [same]
    exact sameItems_symm ha hb h
  | .obj left, b, ha, hb, h => by
    cases b with
    | obj right =>
      -- The recursion follows the fields on the left, whatever their partners are on the right.
      have hvalues := sameFields_symm (by rw [WellFormed] at ha; exact ha.2)
      obtain ⟨hleft, -⟩ := wellFormed_obj_iff.1 ha
      obtain ⟨hright, hinner⟩ := wellFormed_obj_iff.1 hb
      refine Fields.same_of_get? hright hleft fun key => ?_
      obtain ⟨hnone, hvalue⟩ :=
        rel_iff.1 ((matches_obj_iff hleft hright).1 (matches_of_same ha h) key)
      refine rel_iff.2 ⟨hnone.symm, fun y x hy hx => ?_⟩
      exact hvalues _ (Fields.mem_of_get?_eq_some hx) y
        (hinner _ (Fields.mem_of_get?_eq_some hy)) ((hvalue x y hx hy).same fun _ _ => id)
    | _ => simp [same] at h

/-- Well-formed items are the same in both directions. -/
theorem sameItems_symm : ∀ {a b : List Json}, WellFormedItems a → WellFormedItems b →
    sameItems a b = true → sameItems b a = true
  | [], b, _, _, h => by
    cases b <;> simp_all [sameItems]
  | item :: rest, b, ha, hb, h => by
    cases b <;> simp only [sameItems, Bool.false_eq_true, Bool.and_eq_true] at h
    rw [WellFormedItems] at ha hb
    rw [sameItems, Bool.and_eq_true]
    exact ⟨same_symm ha.1 hb.1 h.1, sameItems_symm ha.2 hb.2 h.2⟩

/-- Well-formed values of fields are the same in both directions. -/
theorem sameFields_symm : ∀ {a : List (String × Json)}, WellFormedFields a →
    ∀ e ∈ a, ∀ b : Json, b.WellFormed → e.2.same b = true → b.same e.2 = true
  | [], _, _, he => nomatch he
  | (key, value) :: rest, ha, e, he => by
    rw [WellFormedFields] at ha
    intro b hb h
    rcases List.mem_cons.1 he with rfl | he
    · exact same_symm ha.1 hb h
    · exact sameFields_symm ha.2 e he b hb h

end

/-- Equality gives the same answer for documents that are the same. -/
theorem same_congr {a a' b b' : Json} (hwa : a.WellFormed) (hwa' : a'.WellFormed)
    (hwb : b.WellFormed) (hwb' : b'.WellFormed) (ha : a.same a' = true) (hb : b.same b' = true) :
    a.same b = a'.same b' := by
  rw [Bool.eq_iff_iff]
  constructor
  · intro h
    exact same_trans (same_symm hwa hwa' ha) (same_trans h hb)
  · intro h
    exact same_trans ha (same_trans h (same_symm hwb hwb' hb))

/-! ## Merging what matches -/

/-- Two well-formed documents that match. -/
structure Paired (number : Number → Number → Prop) (a b : Json) : Prop where
  left : a.WellFormed
  right : b.WellFormed
  matched : Matches number a b

/-- Objects are paired if the values are that they have under each key. -/
theorem paired_obj_iff {left right : Fields} :
    Paired number (.obj left) (.obj right) ↔
      (Fields.keys left).Nodup ∧ (Fields.keys right).Nodup ∧
        ∀ key, Option.Rel (Paired number) (Fields.get? left key) (Fields.get? right key) := by
  constructor
  · rintro ⟨hleft, hright, hmatched⟩
    obtain ⟨hl, hinner⟩ := wellFormed_obj_iff.1 hleft
    obtain ⟨hr, hother⟩ := wellFormed_obj_iff.1 hright
    refine ⟨hl, hr, fun key => ?_⟩
    obtain ⟨hnone, hvalue⟩ := rel_iff.1 ((matches_obj_iff hl hr).1 hmatched key)
    exact rel_iff.2 ⟨hnone, fun a b ha hb => ⟨hinner _ (Fields.mem_of_get?_eq_some ha),
      hother _ (Fields.mem_of_get?_eq_some hb), hvalue a b ha hb⟩⟩
  · rintro ⟨hl, hr, hvalues⟩
    refine ⟨wellFormed_obj_iff.2 ⟨hl, fun e he => ?_⟩, wellFormed_obj_iff.2 ⟨hr, fun e he => ?_⟩,
      (matches_obj_iff hl hr).2 fun key => ?_⟩
    · obtain ⟨b, -, hpair⟩ := exists_of_rel_left (hvalues e.1)
        ((Fields.get?_eq_some_iff_mem hl).2 he)
      exact hpair.left
    · obtain ⟨a, -, hpair⟩ := exists_of_rel_right (hvalues e.1)
        ((Fields.get?_eq_some_iff_mem hr).2 he)
      exact hpair.right
    · obtain ⟨hnone, hvalue⟩ := rel_iff.1 (hvalues key)
      exact rel_iff.2 ⟨hnone, fun a b ha hb => (hvalue a b ha hb).matched⟩

/-- Arrays are paired if their items are one by one. -/
theorem paired_arr_iff {left right : List Json} :
    Paired number (.arr left) (.arr right) ↔ List.Forall₂ (Paired number) left right := by
  constructor
  · rintro ⟨hleft, hright, hmatched⟩
    rw [wellFormed_arr_iff] at hleft hright
    rw [matches_arr_iff] at hmatched
    induction hmatched with
    | nil => exact .nil
    | cons hitem _ ih =>
      rw [List.forall_mem_cons] at hleft hright
      exact .cons ⟨hleft.1, hright.1, hitem⟩ (ih hleft.2 hright.2)
  · intro h
    induction h with
    | nil => exact ⟨wellFormed_arr_iff.2 (by simp), wellFormed_arr_iff.2 (by simp),
        matches_arr_iff.2 .nil⟩
    | cons hitem _ ih =>
      refine ⟨wellFormed_arr_iff.2 (List.forall_mem_cons.2 ⟨hitem.left, ?_⟩),
        wellFormed_arr_iff.2 (List.forall_mem_cons.2 ⟨hitem.right, ?_⟩),
        matches_arr_iff.2 (.cons hitem.matched ?_)⟩
      · exact wellFormed_arr_iff.1 ih.left
      · exact wellFormed_arr_iff.1 ih.right
      · exact matches_arr_iff.1 ih.matched

section Merging

variable {a a' b b' : Json}

/-- Paired values are null together. -/
theorem Paired.isNull_eq (h : Paired number a b) : a.isNull = b.isNull := by
  have hmatched := h.matched
  cases a <;> cases b <;> simp_all [Matches, isNull]

/-- Paired values have the same form. -/
theorem Paired.form_eq (h : Paired number a b) : a.form = b.form := by
  have hmatched := h.matched
  cases a <;> cases b <;> simp_all [Matches, form]

/-- A list of texts is paired with itself. -/
theorem paired_texts (texts : List String) :
    Paired number (.arr (texts.map .str)) (.arr (texts.map .str)) := by
  rw [paired_arr_iff, List.forall₂_map_left_iff, List.forall₂_map_right_iff, List.forall₂_same]
  intro text _
  exact ⟨trivial, trivial, by simp⟩

/-- Values that do not merge are replaced or left on both sides. -/
theorem merge_eq_replace (overwrite : Bool) {left right : Json}
    (h : right.form = .plain ∨ left.form ≠ right.form) :
    Json.merge overwrite left right = replace overwrite left right := by
  cases right <;> cases left <;> simp_all [form, Json.merge]

variable (hnumber : ∀ m n : Number, number m n → m.same n = true)
include hnumber

/-- Paired values are the same. -/
theorem Paired.same (h : Paired number a b) : a.same b = true := h.matched.same hnumber

/-- Paired values are the same as paired others, or neither is. -/
theorem Paired.same_eq (ha : Paired number a a') (hb : Paired number b b') :
    a.same b = a'.same b' :=
  same_congr ha.left ha.right hb.left hb.right (ha.same hnumber) (hb.same hnumber)

/-- Paired items contain paired values, or neither do. -/
theorem Paired.contains_eq (ha : Paired number a a') {items items' : List Json}
    (h : List.Forall₂ (Paired number) items items') : items.contains a = items'.contains a' := by
  induction h with
  | nil => rfl
  | cons hitem _ ih =>
    have hhere := ha.same_eq hnumber hitem
    simp only [List.contains_cons, BEq.beq, hhere, ih]

/-- Arrays that are paired item by item take the same items of such arrays. -/
theorem forall₂_gather {items items' right right' : List Json}
    (hright : List.Forall₂ (Paired number) right right')
    (h : List.Forall₂ (Paired number) items items') :
    List.Forall₂ (Paired number) (gather items right) (gather items' right') := by
  induction hright generalizing items items' with
  | nil => exact h
  | @cons item item' rest rest' hitem _ ih =>
    -- Whether an item is there already has one answer on both sides, since equality is a congruence.
    have hstep (items : List Json) (item : Json) (rest : List Json) : gather items (item :: rest) =
        gather (if items.contains item then items else items ++ [item]) rest := rfl
    rw [hstep, hstep, hitem.contains_eq hnumber h]
    split
    · exact ih h
    · exact ih (List.rel_append h (.cons hitem .nil))

/-- Paired values replace paired others in the same way. -/
theorem Paired.replace (overwrite : Bool) (ha : Paired number a a') (hb : Paired number b b') :
    Paired number (replace overwrite a b).1 (replace overwrite a' b').1 ∧
      (replace overwrite a b).2 = (replace overwrite a' b').2 := by
  have hdiffer : (a != b) = (a' != b') := by
    simp only [bne, BEq.beq, ha.same_eq hnumber hb]
  unfold Json.replace
  rw [hdiffer]
  split
  · exact ⟨hb, rfl⟩
  · exact ⟨ha, rfl⟩

/-- Paired tags are joined to the same tags. -/
theorem Paired.joinTags?_eq (ha : Paired number a a') (hb : Paired number b b') :
    joinTags? a b = joinTags? a' b' := by
  rw [joinTags?, joinTags?, strings_eq_of_same (ha.same hnumber),
    strings_eq_of_same (hb.same hnumber)]

/-- Paired tags remain paired when they are joined. -/
theorem Paired.joined (ha : Paired number a a') (hb : Paired number b b') :
    Paired number (joined a b) (joined a' b') := by
  rw [Json.joined, Json.joined, ← ha.joinTags?_eq hnumber hb]
  cases hjoin : joinTags? a b with
  | none => exact ha
  | some tags =>
    obtain ⟨-, htags⟩ := Option.ite_none_left_eq_some.1 hjoin
    cases Option.some.inj htags
    exact paired_texts _

end Merging

/-- A value that merges into paired values alike, and so does whatever it is paired with. -/
def MergesAlike (number : Number → Number → Prop) (overwrite : Bool) (patch : Json) : Prop :=
  ∀ {patch' left left' : Json}, Paired number patch patch' → Paired number left left' →
    Paired number (Json.merge overwrite left patch).1 (Json.merge overwrite left' patch').1 ∧
      (Json.merge overwrite left patch).2.Perm (Json.merge overwrite left' patch').2

end Json

namespace Fields

variable {number : Number → Number → Prop} {overwrite : Bool}

/-! ## What a merge reports, key by key -/

/-- What a merge reports under a key, from what the two sides have there. -/
def reported (overwrite : Bool) (key : String) (left right : Option Json) : List FieldPath :=
  match Json.present? right, Json.present? left with
  | none, _ => []
  | some _, none => [[key]]
  | some patch, some existing =>
    if key = profileKey then if (Json.joinTags? existing patch).isSome then [[key]] else []
    else (Json.merge overwrite existing patch).2.map (key :: ·)

/-- The changes of a merged field depend on the two values. -/
theorem changes_mergeField (left : Fields) (key : String) (right : Json) :
    (Fields.mergeField overwrite left key right).2 =
      reported overwrite key (Fields.get? left key) (some right) := by
  have hnull {value : Json} (h : value.isNull = true) : Json.present? (some value) = none := by
    simp [Json.present?, Option.filter_some, h]
  unfold mergeField reported
  by_cases hright : right.isNull = true
  · rw [if_pos hright, hnull hright]
  · rw [if_neg hright, Json.present?_some (Bool.eq_false_iff.2 hright)]
    cases Fields.get? left key with
    | none => rfl
    | some existing =>
      by_cases hthere : existing.isNull = true
      · simp [hthere, hnull hthere]
      · rw [Json.present?_some (Bool.eq_false_iff.2 hthere)]
        by_cases hkey : key = profileKey
        · cases hjoin : Json.joinTags? existing right <;> simp [hthere, hkey, hjoin]
        · simp [hthere, hkey]

/-- A merge reports what it changes under each key of the right side. -/
theorem changes_merge (left : Fields) {right : Fields} (h : (Fields.keys right).Nodup) :
    (Fields.merge overwrite left right).2 = (Fields.keys right).flatMap fun key =>
      reported overwrite key (Fields.get? left key) (Fields.get? right key) := by
  induction right generalizing left with
  | nil => simp [keys]
  | cons e rest ih =>
    obtain ⟨key, value⟩ := e
    obtain ⟨hnew, hrest⟩ := List.nodup_cons.1 h
    rw [merge_cons]
    dsimp only
    rw [ih _ hrest, changes_mergeField]
    -- No later field has this key again, so each of them finds the left side as it was.
    have hothers : (Fields.keys rest).flatMap (fun other => reported overwrite other
          (Fields.get? (Fields.mergeField overwrite left key value).1 other)
          (Fields.get? rest other)) =
        (Fields.keys rest).flatMap fun other => reported overwrite other (Fields.get? left other)
          (Fields.get? ((key, value) :: rest) other) := by
      refine List.flatMap_congr fun other hother => ?_
      have hne : other ≠ key := fun heq => hnew (heq ▸ hother)
      rw [get?_mergeField_of_ne overwrite left value hne, get?_cons, if_neg hne]
    rw [hothers]
    simp [keys, get?_cons]

/-! ## Merging paired objects -/

/-- Of paired values either both are there or neither is. -/
theorem present?_cases {x x' : Option Json} (h : Option.Rel (Json.Paired number) x x') :
    (Json.present? x = none ∧ Json.present? x' = none) ∨
      ∃ v v', x = some v ∧ Json.present? x = some v ∧ Json.present? x' = some v' ∧
        Json.Paired number v v' := by
  cases h with
  | none => exact Or.inl ⟨rfl, rfl⟩
  | @some v v' h =>
    have hnull := h.isNull_eq
    cases hv : v.isNull with
    | true => exact Or.inl (by simp [Json.present?, Option.filter_some, ← hnull, hv])
    | false =>
      exact Or.inr ⟨v, v', rfl, Json.present?_some hv, Json.present?_some (hnull ▸ hv), h⟩

variable (hnumber : ∀ m n : Number, number m n → m.same n = true)
include hnumber

/-- What a merge leaves and reports under a key is the same on both sides. -/
theorem rel_combine (key : String) {a a' b b' : Option Json}
    (ha : Option.Rel (Json.Paired number) a a') (hb : Option.Rel (Json.Paired number) b b')
    (halike : ∀ patch, b = some patch → patch.MergesAlike number overwrite) :
    Option.Rel (Json.Paired number) (combine overwrite key a b) (combine overwrite key a' b') ∧
      (reported overwrite key a b).Perm (reported overwrite key a' b') := by
  rcases present?_cases hb with ⟨hnone, hnone'⟩ | ⟨patch, patch', heq, hpatch, hpatch', hright⟩
  · rw [combine_of_not_right a hnone, combine_of_not_right a' hnone']
    exact ⟨ha, by simp [reported, hnone, hnone']⟩
  rcases present?_cases ha with ⟨hnone, hnone'⟩ | ⟨mine, mine', -, hmine, hmine', hleft⟩
  · rw [combine_of_not_left hnone hpatch, combine_of_not_left hnone' hpatch']
    exact ⟨.some hright, by simp [reported, hnone, hnone', hpatch, hpatch']⟩
  rw [combine_of_both hmine hpatch, combine_of_both hmine' hpatch']
  simp only [reported, hmine, hmine', hpatch, hpatch', Json.mergeUnder]
  -- Profile tags are joined as texts; any other values merge as the hypothesis on the right says.
  by_cases hkey : key = profileKey
  · simp only [if_pos hkey, hleft.joinTags?_eq hnumber hright]
    exact ⟨.some (hleft.joined hnumber hright), .refl _⟩
  · simp only [if_neg hkey]
    obtain ⟨hvalue, hchanges⟩ := halike patch heq hright hleft
    exact ⟨.some hvalue, hchanges.map _⟩

/-- Paired objects are merged alike, given that for the values of the right side. -/
theorem paired_merge {left left' right right' : Fields}
    (hleft : Json.Paired number (.obj left) (.obj left'))
    (hright : Json.Paired number (.obj right) (.obj right'))
    (halike : ∀ e ∈ right, e.2.MergesAlike number overwrite) :
    Json.Paired number (.obj (Fields.merge overwrite left right).1)
        (.obj (Fields.merge overwrite left' right').1) ∧
      (Fields.merge overwrite left right).2.Perm (Fields.merge overwrite left' right').2 := by
  obtain ⟨-, -, hl⟩ := Json.paired_obj_iff.1 hleft
  obtain ⟨hdistinct, hdistinct', hr⟩ := Json.paired_obj_iff.1 hright
  have hwell := Json.wellFormed_merge overwrite hleft.left hright.left
  have hwell' := Json.wellFormed_merge overwrite hleft.right hright.right
  simp only [Json.merge] at hwell hwell'
  have hkey (key : String) := rel_combine hnumber key (hl key) (hr key)
    fun patch hpatch => halike _ (mem_of_get?_eq_some hpatch)
  constructor
  · refine Json.paired_obj_iff.2 ⟨(Json.wellFormed_obj_iff.1 hwell).1,
      (Json.wellFormed_obj_iff.1 hwell').1, fun key => ?_⟩
    rw [get?_merge overwrite left hdistinct, get?_merge overwrite left' hdistinct']
    exact (hkey key).1
  · rw [changes_merge left hdistinct, changes_merge left' hdistinct']
    have hkeys := (Json.matches_obj_iff_values.1 hright.matched).1
    exact hkeys.flatMap fun key _ => (hkey key).2

end Fields

namespace Json

section Values

variable {number : Number → Number → Prop} {overwrite : Bool}
  (hnumber : ∀ m n : Number, number m n → m.same n = true)
include hnumber

/-- Values that do not merge have the same effect on both sides. -/
theorem Paired.merge_of_replace {left left' patch patch' : Json} (hleft : Paired number left left')
    (hpatch : Paired number patch patch') (h : patch.form = .plain ∨ left.form ≠ patch.form) :
    Paired number (Json.merge overwrite left patch).1 (Json.merge overwrite left' patch').1 ∧
      (Json.merge overwrite left patch).2.Perm (Json.merge overwrite left' patch').2 := by
  have h' : patch'.form = .plain ∨ left'.form ≠ patch'.form := by
    rwa [← hpatch.form_eq, ← hleft.form_eq]
  rw [merge_eq_replace overwrite h, merge_eq_replace overwrite h']
  obtain ⟨hvalue, hchanges⟩ := hleft.replace hnumber overwrite hpatch
  exact ⟨hvalue, .of_eq hchanges⟩

/-- A scalar is merged alike into paired values. -/
theorem mergesAlike_of_plain {patch : Json} (h : patch.form = .plain) :
    patch.MergesAlike number overwrite :=
  fun hpatch hleft => hleft.merge_of_replace hnumber hpatch (Or.inl h)

/-- An array is merged alike into paired values. -/
theorem mergesAlike_arr (right : List Json) : (Json.arr right).MergesAlike number overwrite := by
  intro patch' left left' hpatch hleft
  by_cases hform : left.form = .array
  · obtain ⟨right', rfl⟩ := exists_arr_of_form hpatch.form_eq.symm
    obtain ⟨items', rfl⟩ := exists_arr_of_form (hleft.form_eq ▸ hform)
    obtain ⟨items, rfl⟩ := exists_arr_of_form hform
    rw [paired_arr_iff] at hpatch hleft
    have hgather := forall₂_gather hnumber hpatch hleft
    simp only [Json.merge, hgather.length_eq, hleft.length_eq]
    exact ⟨paired_arr_iff.2 hgather, .refl _⟩
  · exact hleft.merge_of_replace hnumber hpatch (Or.inr hform)

/-- An object is merged alike into paired values if its values are. -/
theorem mergesAlike_obj {right : Fields} (h : ∀ e ∈ right, e.2.MergesAlike number overwrite) :
    (Json.obj right).MergesAlike number overwrite := by
  intro patch' left left' hpatch hleft
  by_cases hform : left.form = .object
  · obtain ⟨right', rfl⟩ := exists_obj_of_form hpatch.form_eq.symm
    obtain ⟨fields', rfl⟩ := exists_obj_of_form (hleft.form_eq ▸ hform)
    obtain ⟨fields, rfl⟩ := exists_obj_of_form hform
    simp only [Json.merge]
    exact Fields.paired_merge hnumber hleft hpatch h
  · exact hleft.merge_of_replace hnumber hpatch (Or.inr hform)

end Values

end Json

mutual

/-- Every value merges into paired values alike. -/
theorem Json.mergesAlike {number : Number → Number → Prop}
    (hnumber : ∀ m n : Number, number m n → m.same n = true) (overwrite : Bool) :
    ∀ patch : Json, patch.MergesAlike number overwrite
  | .null => Json.mergesAlike_of_plain hnumber rfl
  | .bool _ => Json.mergesAlike_of_plain hnumber rfl
  | .num _ => Json.mergesAlike_of_plain hnumber rfl
  | .str _ => Json.mergesAlike_of_plain hnumber rfl
  | .arr right => Json.mergesAlike_arr hnumber right
  | .obj right => Json.mergesAlike_obj hnumber (Fields.mergesAlike hnumber overwrite right)

/-- All values of fields are merged alike into paired values. -/
theorem Fields.mergesAlike {number : Number → Number → Prop}
    (hnumber : ∀ m n : Number, number m n → m.same n = true) (overwrite : Bool) :
    ∀ fields : List (String × Json), ∀ e ∈ fields, e.2.MergesAlike number overwrite
  | [], _, he => nomatch he
  | (key, value) :: rest, e, he => by
    rcases List.mem_cons.1 he with rfl | he
    · exact Json.mergesAlike hnumber overwrite value
    · exact Fields.mergesAlike hnumber overwrite rest e he

end

namespace MergeRule

variable (rule : MergeRule) {left left' right right' : Fields}

/-- What a rule admits of paired fields is paired. -/
theorem paired_admitted {number : Number → Number → Prop}
    (h : Json.Paired number (.obj right) (.obj right')) :
    Json.Paired number (.obj (rule.admitted right)) (.obj (rule.admitted right')) := by
  obtain ⟨-, -, hvalues⟩ := Json.paired_obj_iff.1 h
  refine Json.paired_obj_iff.2 ⟨(Json.wellFormed_obj_iff.1 (wellFormed_admitted h.left)).1,
    (Json.wellFormed_obj_iff.1 (wellFormed_admitted h.right)).1, fun key => ?_⟩
  cases hadmits : rule.admits key with
  | true =>
    rw [admitted, admitted, Fields.get?_filter_keys rule.admits right hadmits,
      Fields.get?_filter_keys rule.admits right' hadmits]
    exact hvalues key
  | false =>
    have hnone (fields : Fields) : Fields.get? (rule.admitted fields) key = none := by
      rw [Fields.get?_eq_none_iff]
      intro hkey
      obtain ⟨e, he, rfl⟩ := List.mem_map.1 hkey
      have hadmitted := (List.mem_filter.1 he).2
      simp [hadmits] at hadmitted
    rw [hnone, hnone]
    exact .none

/-- Merges by a rule respect whatever relation of documents refines equality. -/
theorem paired_apply {number : Number → Number → Prop}
    (hnumber : ∀ m n : Number, number m n → m.same n = true)
    (hleft : Json.Paired number (.obj left) (.obj left'))
    (hright : Json.Paired number (.obj right) (.obj right')) :
    Json.Paired number (.obj (rule.apply left right).1) (.obj (rule.apply left' right').1) ∧
      (rule.apply left right).2.Perm (rule.apply left' right').2 :=
  Fields.paired_merge hnumber hleft (rule.paired_admitted hright)
    (Fields.mergesAlike hnumber rule.overwrite _)

/--
Merging respects equality of documents.  If both sides are given with the fields of their objects in
another order, at whatever depth, the results differ in the order of fields alone, and the paths
that are reported are the same up to their order.  So it is if both sides are merely equal to others,
which leaves the sign of zero open besides: the results are equal then.
-/
theorem apply_ignores_key_order (hleft : (Json.obj left).WellFormed)
    (hleft' : (Json.obj left').WellFormed) (hright : (Json.obj right).WellFormed)
    (hright' : (Json.obj right').WellFormed) :
    ((Json.obj left).Rearranges (.obj left') → (Json.obj right).Rearranges (.obj right') →
      (Json.obj (rule.apply left right).1).Rearranges (.obj (rule.apply left' right').1) ∧
        (rule.apply left right).2.Perm (rule.apply left' right').2) ∧
    ((Json.obj left).same (.obj left') = true → (Json.obj right).same (.obj right') = true →
      (Json.obj (rule.apply left right).1).same (.obj (rule.apply left' right').1) = true ∧
        (rule.apply left right).2.Perm (rule.apply left' right').2) := by
  constructor
  · intro hl hr
    have hexact : ∀ m n : Number, m = n → m.same n = true := by
      rintro m n rfl
      exact m.same_refl
    obtain ⟨hmerged, hchanges⟩ :=
      rule.paired_apply hexact ⟨hleft, hleft', hl⟩ ⟨hright, hright', hr⟩
    exact ⟨hmerged.matched, hchanges⟩
  · intro hl hr
    rw [Json.same_iff_matches hleft] at hl
    rw [Json.same_iff_matches hright] at hr
    obtain ⟨hmerged, hchanges⟩ :=
      rule.paired_apply (fun _ _ => id) ⟨hleft, hleft', hl⟩ ⟨hright, hright', hr⟩
    exact ⟨(Json.same_iff_matches hmerged.left).2 hmerged.matched, hchanges⟩

/-- An object with an attribute that lists ranges. -/
def sensor : Fields :=
  [("name", .str "sensor"), ("attributes", .obj [("range", .obj [("profile", .str "host"),
    ("values", .arr [.obj [("low", Json.ofInt 1), ("high", Json.ofInt 9)]])])])]

/-- The same object, written in another order. -/
def sensorRearranged : Fields :=
  [("attributes", .obj [("range", .obj [
    ("values", .arr [.obj [("high", Json.ofInt 9), ("low", Json.ofInt 1)]]),
    ("profile", .str "host")])]), ("name", .str "sensor")]

/-- Another object with this attribute, which has one of the ranges. -/
def gauge : Fields :=
  [("name", .str "gauge"), ("attributes", .obj [("range", .obj [("profile", .arr [.str "cloud"]),
    ("values", .arr [.obj [("high", Json.ofInt 9), ("low", Json.ofInt 1)], .obj []])]),
    ("unit", .null), ("uid", .obj [])])]

/-- The same object, written in another order. -/
def gaugeRearranged : Fields :=
  [("attributes", .obj [("uid", .obj []), ("range", .obj [
    ("values", .arr [.obj [("low", Json.ofInt 1), ("high", Json.ofInt 9)], .obj []]),
    ("profile", .arr [.str "cloud"])]), ("unit", .null)]), ("name", .str "gauge")]

/-- The range that both objects list is added on neither side, however it is written. -/
theorem sensor_merges_in_any_order :
    let rule := MergeRule.patch.ignoring ["extends"]
    let merged := rule.apply sensor gauge
    let rearranged := rule.apply sensorRearranged gaugeRearranged
    ((Json.obj sensor).WellFormed ∧ (Json.obj sensorRearranged).WellFormed) ∧
      ((Json.obj gauge).WellFormed ∧ (Json.obj gaugeRearranged).WellFormed) ∧
      (Json.obj sensor).Rearranges (.obj sensorRearranged) ∧
      (Json.obj gauge).Rearranges (.obj gaugeRearranged) ∧
      merged.2 = [["name"], ["attributes", "range", "profile"], ["attributes", "range", "values"],
        ["attributes", "uid"]] ∧
      rearranged.2 = [["attributes", "uid"], ["attributes", "range", "values"],
        ["attributes", "range", "profile"], ["name"]] ∧
      Fields.at? rearranged.1 ["attributes", "range", "values"] =
        some (.arr [.obj [("high", Json.ofInt 9), ("low", Json.ofInt 1)], .obj []]) ∧
      (Json.obj merged.1).Rearranges (.obj rearranged.1) ∧
      (Json.obj merged.1).same (.obj rearranged.1) = true := by
  intro rule merged rearranged
  have hsensor : (Json.obj sensor).WellFormed ∧ (Json.obj sensorRearranged).WellFormed := by
    simp [sensor, sensorRearranged, Json.WellFormed, Json.WellFormedFields, Json.WellFormedItems,
      Json.ofInt]
  have hgauge : (Json.obj gauge).WellFormed ∧ (Json.obj gaugeRearranged).WellFormed := by
    simp [gauge, gaugeRearranged, Json.WellFormed, Json.WellFormedFields, Json.WellFormedItems,
      Json.ofInt]
  have hleft : (Json.obj sensor).Rearranges (.obj sensorRearranged) := by
    simp [sensor, sensorRearranged, Json.Rearranges, Json.matches_obj_iff_values,
      Json.matches_arr_iff, Json.ofInt, Fields.get?_cons, Fields.keys, List.Perm.swap]
  have hright : (Json.obj gauge).Rearranges (.obj gaugeRearranged) := by
    simp [gauge, gaugeRearranged, Json.Rearranges, Json.matches_obj_iff_values,
      Json.matches_arr_iff, Json.ofInt, Fields.get?_cons, Fields.keys, List.Perm.swap]
    decide
  obtain ⟨hrearranged, hsame⟩ :=
    rule.apply_ignores_key_order hsensor.1 hsensor.2 hgauge.1 hgauge.2
  exact ⟨hsensor, hgauge, hleft, hright, rfl, rfl, rfl, (hrearranged hleft hright).1,
    (hsame rfl rfl).1⟩

end MergeRule

end EventSchema
