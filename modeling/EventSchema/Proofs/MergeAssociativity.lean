import EventSchema.Proofs.MergeChanges

/-!
# Filling from one document after another

A document is filled from a second one and then from a third, or from the second one filled from the
third.  As long as no two of them have an object, an array or a plain value where the other has
something else, the result is the same document.  Only the order of its fields may differ, since a
null in the second document gives its key a place there.

Main results:

- {lit}`Json.same_trans`: equality of documents is transitive.
- {lit}`unite_assoc`, {lit}`Json.joined_assoc`: a union of three lists, and profile tags of three
  documents, do not depend on which two are joined first.
- {lit}`Fields.same_merge_merge`: so is filling, given the same for the values of each field.
- {lit}`MergeRule.fill_is_associative`: filling by a rule is associative, and so is inheriting.
-/

namespace EventSchema

/-! ## Equality is transitive -/

/-- Equality of binary numbers is transitive. -/
theorem Binary64.same_trans {x y z : Binary64} (hxy : x.same y = true) (hyz : y.same z = true) :
    x.same z = true := by
  rw [same_iff] at hxy hyz ⊢
  rcases hxy with rfl | ⟨hx, hy⟩
  · exact hyz
  · rcases hyz with rfl | ⟨-, hz⟩
    · exact Or.inr ⟨hx, hy⟩
    · exact Or.inr ⟨hx, hz⟩

/-- Equality of numbers is transitive, whatever they are written as. -/
theorem Number.same_trans {l m n : Number} (hlm : l.same m = true) (hmn : m.same n = true) :
    l.same n = true := by
  cases l <;> cases m <;> cases n <;> simp_all [Number.same]
  exact Binary64.same_trans hlm hmn

namespace Json

mutual

/-- Equality of documents is transitive. -/
theorem same_trans : ∀ {a b c : Json}, a.same b = true → b.same c = true → a.same c = true
  | .null, b, c, hab, hbc => by
    cases b <;> cases c <;> simp_all [same]
  | .bool _, b, c, hab, hbc => by
    cases b <;> cases c <;> simp_all [same]
  | .str _, b, c, hab, hbc => by
    cases b <;> cases c <;> simp_all [same]
  | .num _, b, c, hab, hbc => by
    cases b <;> cases c <;> simp_all [same]
    exact Number.same_trans hab hbc
  | .arr _, b, c, hab, hbc => by
    cases b <;> cases c <;> simp only [same, Bool.false_eq_true] at hab hbc ⊢
    exact sameItems_trans hab hbc
  | .obj _, b, c, hab, hbc => by
    cases b <;> cases c <;>
      simp only [same, Bool.false_eq_true, Bool.and_eq_true, beq_iff_eq] at hab hbc ⊢
    exact ⟨hab.1.trans hbc.1, sameFields_trans hab.2 hbc.2⟩

/-- Items that are the same as others are the same as those that these are. -/
theorem sameItems_trans : ∀ {a b c : List Json}, sameItems a b = true → sameItems b c = true →
    sameItems a c = true
  | [], b, c, hab, hbc => by
    cases b <;> cases c <;> simp_all [sameItems]
  | item :: rest, b, c, hab, hbc => by
    cases b <;> cases c <;> simp_all only [sameItems, Bool.false_eq_true, Bool.and_eq_true]
    exact ⟨same_trans hab.1 hbc.1, sameItems_trans hab.2 hbc.2⟩

/-- Fields that are the same as others are the same as those that these are. -/
theorem sameFields_trans : ∀ {a : List (String × Json)} {b c : Fields}, sameFields a b = true →
    sameFields b c = true → sameFields a c = true
  | [], _, _, _, _ => by rw [sameFields]
  | (key, value) :: rest, b, c, hab, hbc => by
    rw [sameFields, Bool.and_eq_true] at hab ⊢
    refine ⟨?_, sameFields_trans hab.2 hbc⟩
    cases hget : Fields.get? b key with
    | none => simp [hget] at hab
    | some other =>
      have hother : value.same other = true := by simpa [hget] using hab.1
      obtain ⟨last, hlast, hsame⟩ :=
        Definition.sameFields_iff.1 hbc _ (Fields.mem_of_get?_eq_some hget)
      rw [hlast]
      exact same_trans hother hsame

end

end Json

/-! ## Unions -/

section Unions

variable {α : Type} [BEq α] {left middle right : List α}

/-- The items of one list, then those of another that are not there yet. -/
def unite (left right : List α) : List α :=
  right.foldl (fun items item => if items.contains item then items else items ++ [item]) left

/-- The first item is united first. -/
theorem unite_cons (left : List α) (item : α) (rest : List α) :
    unite left (item :: rest) =
      unite (if left.contains item then left else left ++ [item]) rest := rfl

/-- The last item is added if it is not yet there. -/
theorem unite_concat (left right : List α) (item : α) :
    unite left (right ++ [item]) =
      if (unite left right).contains item then unite left right
      else unite left right ++ [item] := by
  rw [unite, List.foldl_append]
  rfl

/-- A union contains what was united. -/
theorem contains_unite_of_mem (left : List α) (hrefl : ∀ item ∈ right, (item == item) = true)
    {item : α} (hitem : item ∈ right) : (unite left right).contains item = true := by
  induction right generalizing left with
  | nil => cases hitem
  | cons first rest ih =>
    rw [List.forall_mem_cons] at hrefl
    rw [unite_cons]
    rcases List.mem_cons.1 hitem with rfl | hitem
    · rw [unite, foldl_add_eq_append]
      have hself := hrefl.1
      by_cases hold : left.contains item = true <;> simp [hold, hself]
    · exact ih _ hrefl.2 hitem

/-- A union of three lists does not depend on which two are united first. -/
theorem unite_assoc (hmiddle : ∀ item ∈ middle, (item == item) = true)
    (hright : ∀ item ∈ right, (item == item) = true)
    (htrans : ∀ {i j k : α}, (i == j) = true → (j == k) = true → (i == k) = true) :
    unite left (unite middle right) = unite (unite left middle) right := by
  induction right generalizing middle with
  | nil => rfl
  | cons item rest ih =>
    rw [List.forall_mem_cons] at hright
    rw [unite_cons, unite_cons]
    by_cases hold : middle.contains item = true
    · obtain ⟨other, hother, hitem⟩ := List.contains_iff_exists_mem_beq.1 hold
      obtain ⟨last, hlast, hsame⟩ :=
        List.contains_iff_exists_mem_beq.1 (contains_unite_of_mem left hmiddle hother)
      have hthere : (unite left middle).contains item = true :=
        List.contains_iff_exists_mem_beq.2 ⟨last, hlast, htrans hitem hsame⟩
      rw [if_pos hold, if_pos hthere]
      exact ih hmiddle hright.2
    · rw [if_neg hold, ← unite_concat]
      refine ih (fun other hother => ?_) hright.2
      rcases List.mem_append.1 hother with hother | hother
      · exact hmiddle other hother
      · exact List.mem_singleton.1 hother ▸ hright.1

end Unions

namespace Json

/-- Gathering items is associative. -/
theorem gather_assoc {left middle right : List Json} (hmiddle : WellFormedItems middle)
    (hright : WellFormedItems right) :
    gather left (gather middle right) = gather (gather left middle) right :=
  unite_assoc (fun _ hitem => same_self (wellFormed_of_mem_items hmiddle hitem))
    (fun _ hitem => same_self (wellFormed_of_mem_items hright hitem)) same_trans

/-- Gathering tags is associative. -/
theorem gatherTags_assoc (left middle right : List String) :
    gatherTags left (gatherTags middle right) = gatherTags (gatherTags left middle) right :=
  unite_assoc (by simp) (by simp) (by simp)

/-- The tags of both sides, as the left side has them if the right side adds none. -/
def joined (left right : Json) : Json := (joinTags? left right).getD left

/-- Joined tags are a list if the right side adds a tag. -/
theorem joined_eq (left right : Json) :
    joined left right =
      if ∀ tag ∈ strings (some right), tag ∈ strings (some left) then left
      else .arr ((gatherTags (strings (some left)) (strings (some right))).map .str) := by
  rw [joined]
  split
  · rename_i hold
    rw [joinTags?_eq_none_iff.2 hold, Option.getD_none]
  · rename_i hnew
    rw [← joinTags?_eq_none_iff] at hnew
    simp_all [joinTags?]

/-- The texts of joined tags are gathered. -/
theorem strings_joined (left right : Json) :
    strings (some (joined left right)) =
      gatherTags (strings (some left)) (strings (some right)) := by
  rw [joined]
  cases hjoin : joinTags? left right with
  | none => exact (gatherTags_eq_self (joinTags?_eq_none_iff.1 hjoin)).symm
  | some tags => exact strings_of_joinTags? hjoin

/-- Profile tags are joined in either order, whatever form the tags have. -/
theorem joined_assoc (a b c : Json) : joined (joined a b) c = joined a (joined b c) := by
  rw [joined_eq (joined a b), joined_eq a (joined b c), strings_joined, strings_joined,
    gatherTags_assoc]
  by_cases hc : ∀ tag ∈ strings (some c),
      tag ∈ gatherTags (strings (some a)) (strings (some b))
  · rw [if_pos hc, gatherTags_eq_self hc, joined_eq]
    refine if_congr ⟨fun hb tag htag => ?_, fun h tag htag => ?_⟩ rfl rfl
    · rcases mem_gatherTags.1 htag with htag | htag
      · exact hb tag htag
      · exact (mem_gatherTags.1 (hc tag htag)).elim id (hb tag)
    · exact h tag (mem_gatherTags.2 (Or.inl htag))
  · rw [if_neg hc, if_neg]
    intro h
    exact hc fun tag htag => mem_gatherTags.2 (Or.inl (h tag (mem_gatherTags.2 (Or.inr htag))))

end Json

/-! ## Fields on their own -/

namespace Json

/-- The merge of two values under a key; neither is null. -/
def mergeUnder (overwrite : Bool) (key : String) (left right : Json) : Json :=
  if key = profileKey then joined left right else (Json.merge overwrite left right).1

/-- Values that are not null merge to one that is not, under any key. -/
theorem isNull_mergeUnder (overwrite : Bool) (key : String) {left right : Json}
    (hleft : left.isNull = false) (hright : right.isNull = false) :
    (mergeUnder overwrite key left right).isNull = false := by
  unfold mergeUnder joined
  split
  · cases hjoin : joinTags? left right with
    | none => exact hleft
    | some tags => exact isNull_of_joinTags? hjoin
  · exact isNull_merge hleft hright

/-- A value that is there; null counts as none. -/
def present? (value : Option Json) : Option Json := value.filter fun v => !v.isNull

/-- A value is present if it is there and not null. -/
theorem present?_eq_some_iff {value : Option Json} {v : Json} :
    present? value = some v ↔ value = some v ∧ v.isNull = false := by
  simp [present?, Option.filter_eq_some_iff]

/-- A value that is not null is present. -/
theorem present?_some {v : Json} (h : v.isNull = false) : present? (some v) = some v :=
  present?_eq_some_iff.2 ⟨rfl, h⟩

end Json

namespace Fields

variable {overwrite : Bool} {key : String}

/-- What a merge leaves under a key, from what the two sides have there. -/
def combine (overwrite : Bool) (key : String) (left right : Option Json) : Option Json :=
  match Json.present? right, Json.present? left with
  | none, _ => left
  | some patch, none => some patch
  | some patch, some existing => some (Json.mergeUnder overwrite key existing patch)

/-- A merge combines fields key by key. -/
theorem get?_merge (overwrite : Bool) (left : Fields) {right : Fields}
    (h : (Fields.keys right).Nodup) (key : String) :
    Fields.get? (Fields.merge overwrite left right).1 key =
      combine overwrite key (Fields.get? left key) (Fields.get? right key) := by
  cases hget : Fields.get? right key with
  | none => exact get?_merge_of_not_mem overwrite left (get?_eq_none_iff.1 hget)
  | some patch =>
    rw [get?_merge_of_get? overwrite left h hget, get?_mergeField_self, combine]
    by_cases hnull : patch.isNull = true
    · simp [Json.present?, Option.filter, hnull]
    · rw [if_neg hnull, Json.present?_some (Bool.eq_false_iff.2 hnull), Json.present?]
      cases (Fields.get? left key).filter fun v => !v.isNull with
      | none => rfl
      | some existing =>
        dsimp only [Json.mergeUnder, Json.joined]
        split <;> rfl

/-- A field that the right side lacks stays. -/
theorem combine_of_not_right {right : Option Json} (left : Option Json)
    (h : Json.present? right = none) : combine overwrite key left right = left := by
  simp [combine, h]

/-- A field that the left side lacks is taken over. -/
theorem combine_of_not_left {left right : Option Json} {patch : Json}
    (hleft : Json.present? left = none) (hright : Json.present? right = some patch) :
    combine overwrite key left right = some patch := by
  simp [combine, hleft, hright]

/-- A field of both sides is merged. -/
theorem combine_of_both {left right : Option Json} {existing patch : Json}
    (hleft : Json.present? left = some existing) (hright : Json.present? right = some patch) :
    combine overwrite key left right = some (Json.mergeUnder overwrite key existing patch) := by
  simp [combine, hleft, hright]

/-- Unless three values meet under a key, both ways of merging leave the same there. -/
theorem combine_combine (overwrite : Bool) (key : String) (a b c : Option Json) :
    combine overwrite key (combine overwrite key a b) c =
        combine overwrite key a (combine overwrite key b c) ∨
      ∃ x y z, Json.present? a = some x ∧ Json.present? b = some y ∧ Json.present? c = some z ∧
        combine overwrite key (combine overwrite key a b) c =
          some (Json.mergeUnder overwrite key (Json.mergeUnder overwrite key x y) z) ∧
        combine overwrite key a (combine overwrite key b c) =
          some (Json.mergeUnder overwrite key x (Json.mergeUnder overwrite key y z)) := by
  cases hc : Json.present? c with
  | none =>
    rw [combine_of_not_right _ hc, combine_of_not_right _ hc]
    exact Or.inl rfl
  | some z =>
    have hz := (Json.present?_eq_some_iff.1 hc).2
    cases hb : Json.present? b with
    | none =>
      have hbc : combine overwrite key b c = c := by
        rw [combine_of_not_left hb hc, (Json.present?_eq_some_iff.1 hc).1]
      rw [hbc, combine_of_not_right a hb]
      exact Or.inl rfl
    | some y =>
      have hy := (Json.present?_eq_some_iff.1 hb).2
      have hyz := Json.present?_some (Json.isNull_mergeUnder overwrite key hy hz)
      rw [combine_of_both hb hc]
      cases ha : Json.present? a with
      | none =>
        left
        rw [combine_of_not_left ha hb, combine_of_not_left ha hyz,
          combine_of_both (Json.present?_some hy) hc]
      | some x =>
        have hx := (Json.present?_eq_some_iff.1 ha).2
        have hxy := Json.present?_some (Json.isNull_mergeUnder overwrite key hx hy)
        rw [combine_of_both ha hb, combine_of_both ha hyz, combine_of_both hxy hc]
        exact Or.inr ⟨x, y, z, rfl, rfl, rfl, rfl, rfl⟩

/-- Two documents are the same if they have the same under each key. -/
theorem same_of_get? {left right : Fields} (hleft : (Fields.keys left).Nodup)
    (hright : (Fields.keys right).Nodup)
    (h : ∀ key, Option.Rel (fun a b : Json => a.same b = true) (Fields.get? left key)
      (Fields.get? right key)) :
    (Json.obj left).same (.obj right) = true := by
  let first : Definition := ⟨left⟩
  let second : Definition := ⟨right⟩
  suffices first.same second = true from this
  refine Definition.same_of_values hleft hright (fun key hkey => ?_) fun e he => ?_
  · obtain ⟨e, he, rfl⟩ := List.mem_map.1 hkey
    have hrel := h e.1
    rw [(get?_eq_some_iff_mem hleft).2 he] at hrel
    cases hget : Fields.get? right e.1 with
    | none => simp [hget] at hrel
    | some value => exact List.mem_map.2 ⟨_, mem_of_get?_eq_some hget, rfl⟩
  · have hrel := h e.1
    rw [(get?_eq_some_iff_mem hright).2 he] at hrel
    cases hget : Fields.get? left e.1 with
    | none => simp [hget] at hrel
    | some value => exact ⟨value, rfl, by simpa [hget] using hrel⟩

end Fields

/-! ## Forms -/

namespace Json

/-- The forms of values that merge in different ways. -/
inductive Form where
  | object
  | array
  | plain
deriving DecidableEq

/-- The form of a value. -/
def form : Json → Form
  | .obj _ => .object
  | .arr _ => .array
  | _ => .plain

/-- Two documents that have values of one form wherever both have a value, profile tags apart. -/
def Alike (left right : Json) : Prop :=
  ∀ path, profileKey ∉ path → ∀ mine other, left.at? path = some mine →
    right.at? path = some other → mine.isNull = false → other.isNull = false →
      mine.form = other.form

/-- Values that are alike have the same form unless they are null. -/
theorem Alike.form_eq {left right : Json} (h : Alike left right) (hleft : left.isNull = false)
    (hright : right.isNull = false) : left.form = right.form :=
  h [] List.not_mem_nil left right rfl rfl hleft hright

/-- Fields of objects that are alike are alike. -/
theorem Alike.get? {left right : Fields} (h : Alike (.obj left) (.obj right)) {key : String}
    (hkey : key ≠ profileKey) {mine other : Json} (hmine : Fields.get? left key = some mine)
    (hother : Fields.get? right key = some other) : Alike mine other := by
  intro path hpath u v hu hv
  refine h (key :: path) (by simp [hkey.symm, hpath]) u v ?_ ?_
  · rw [at?_cons, hmine]
    exact hu
  · rw [at?_cons, hother]
    exact hv

/-- Objects are alike if the values are that they have under one key. -/
theorem alike_obj_of_get? {left right : Fields}
    (h : ∀ key ≠ profileKey, ∀ mine other, Fields.get? left key = some mine →
      Fields.get? right key = some other → Alike mine other) :
    Alike (.obj left) (.obj right) := by
  rintro (_ | ⟨key, path⟩) hpath mine other hmine hother hm ho
  · cases hmine
    cases hother
    rfl
  · obtain ⟨hkey, hpath⟩ := List.ne_and_not_mem_of_not_mem_cons hpath
    obtain ⟨_, mine', hfields, hget, hmine⟩ := exists_of_at?_cons hmine
    cases hfields
    obtain ⟨_, other', hfields, hget', hother⟩ := exists_of_at?_cons hother
    cases hfields
    exact h key hkey.symm mine' other' hget hget' path hpath mine other hmine hother hm ho

/-- Objects are alike if the fields they share are. -/
theorem alike_obj {left right : Fields}
    (h : ∀ e ∈ left, e.1 ≠ profileKey → ∀ other, Fields.get? right e.1 = some other →
      Alike e.2 other) : Alike (.obj left) (.obj right) :=
  alike_obj_of_get? fun _ hkey _ other hmine => h _ (Fields.mem_of_get?_eq_some hmine) hkey other

/-- Values with nothing inside are alike if they have one form. -/
theorem alike_of_form {left right : Json} (h : left.form = right.form)
    (hinside : left.form ≠ .object) : Alike left right := by
  rintro (_ | ⟨key, path⟩) hpath mine other hmine hother hm ho
  · cases hmine
    cases hother
    exact h
  · obtain ⟨_, _, rfl, -⟩ := exists_of_at?_cons hmine
    exact absurd rfl hinside

/-- Null is like every value. -/
theorem alike_null (right : Json) : Alike .null right := by
  intro path hpath mine other hmine hother hm ho
  exact absurd (isNull_of_at? hmine hm) (by simp [isNull])

/-! ## Filling twice -/

/-- A value that may be filled in before or after the one in front of it. -/
def Associates (c : Json) : Prop :=
  ∀ a b : Json, a.WellFormed → b.WellFormed → a.isNull = false → b.isNull = false →
    c.isNull = false → Alike a b → Alike b c →
      (Json.merge false (Json.merge false a b).1 c).1.same
        (Json.merge false a (Json.merge false b c).1).1 = true

/-- A scalar fills nothing that is there. -/
theorem merge_of_plain (left : Json) {right : Json} (h : right.form = .plain) :
    (Json.merge false left right).1 = left := by
  cases right <;> simp_all [form, Json.merge, replace]

/-- A fill from a scalar is associative. -/
theorem associates_of_plain {c : Json} (h : c.form = .plain) : c.Associates := by
  intro a b ha hb _ _ _ _ _
  rw [merge_of_plain _ h, merge_of_plain b h]
  exact same_self (wellFormed_merge false ha hb)

/-- A value of the form of an array is one. -/
theorem exists_arr_of_form {value : Json} (h : value.form = .array) :
    ∃ items, value = .arr items := by
  cases value <;> simp_all [form]

/-- A value of the form of an object is one. -/
theorem exists_obj_of_form {value : Json} (h : value.form = .object) :
    ∃ fields, value = .obj fields := by
  cases value <;> simp_all [form]

/-- A fill from an array is associative. -/
theorem associates_arr {items : List Json} (h : (Json.arr items).WellFormed) :
    (Json.arr items).Associates := by
  intro a b ha hb hsomeA hsomeB hsomeC hab hbc
  obtain ⟨middle, rfl⟩ := exists_arr_of_form (hbc.form_eq hsomeB hsomeC)
  obtain ⟨left, rfl⟩ := exists_arr_of_form (hab.form_eq hsomeA hsomeB)
  have hmiddle : WellFormedItems middle := by rwa [WellFormed] at hb
  have hitems : WellFormedItems items := by rwa [WellFormed] at h
  have heq : (Json.merge false (Json.merge false (.arr left) (.arr middle)).1 (.arr items)).1 =
      (Json.merge false (.arr left) (Json.merge false (.arr middle) (.arr items)).1).1 := by
    simp only [Json.merge, gather_assoc hmiddle hitems]
  rw [heq]
  exact same_self (wellFormed_merge false ha (wellFormed_merge false hb h))

end Json

/-- Filling twice leaves the same document, given that for the values of the last one. -/
theorem Fields.same_merge_merge {a b c : Fields} (ha : (Json.obj a).WellFormed)
    (hb : (Json.obj b).WellFormed) (hc : (Json.obj c).WellFormed)
    (hab : Json.Alike (.obj a) (.obj b)) (hbc : Json.Alike (.obj b) (.obj c))
    (hvalues : ∀ e ∈ c, e.2.Associates) :
    (Json.obj (Fields.merge false (Fields.merge false a b).1 c).1).same
      (.obj (Fields.merge false a (Fields.merge false b c).1).1) = true := by
  have hmerged {l r : Fields} (hl : (Json.obj l).WellFormed) (hr : (Json.obj r).WellFormed) :
      (Json.obj (Fields.merge false l r).1).WellFormed :=
    Fields.wellFormed_merge false hl (Json.wellFormedFields_iff.2 (Json.wellFormed_obj_iff.1 hr).2)
  have hfirst := hmerged hb hc
  have hleft := hmerged (hmerged ha hb) hc
  have hright := hmerged ha hfirst
  have hdistinct {fields : Fields} (h : (Json.obj fields).WellFormed) :
      (Fields.keys fields).Nodup := (Json.wellFormed_obj_iff.1 h).1
  have hinner {fields : Fields} (h : (Json.obj fields).WellFormed) {key : String} {value : Json}
      (hget : Fields.get? fields key = some value) : value.WellFormed :=
    (Json.wellFormed_obj_iff.1 h).2 _ (Fields.mem_of_get?_eq_some hget)
  refine same_of_get? (hdistinct hleft) (hdistinct hright) fun key => ?_
  have hl := Fields.get?_merge false (Fields.merge false a b).1 (hdistinct hc) key
  rw [Fields.get?_merge false a (hdistinct hb)] at hl
  have hr := Fields.get?_merge false a (hdistinct hfirst) key
  rw [Fields.get?_merge false b (hdistinct hc)] at hr
  rcases combine_combine false key (Fields.get? a key) (Fields.get? b key) (Fields.get? c key) with
    heq | ⟨x, y, z, hx, hy, hz, hxy, hyz⟩
  · rw [hr, ← heq, ← hl]
    cases hget : Fields.get? (Fields.merge false (Fields.merge false a b).1 c).1 key with
    | none => exact .none
    | some value => exact .some (Json.same_self (hinner hleft hget))
  · obtain ⟨hx, hsomeX⟩ := Json.present?_eq_some_iff.1 hx
    obtain ⟨hy, hsomeY⟩ := Json.present?_eq_some_iff.1 hy
    obtain ⟨hz, hsomeZ⟩ := Json.present?_eq_some_iff.1 hz
    rw [hl, hr, hxy, hyz]
    refine .some ?_
    by_cases hkey : key = profileKey
    · have heq : Json.mergeUnder false key (Json.mergeUnder false key x y) z =
          Json.mergeUnder false key x (Json.mergeUnder false key y z) := by
        simp only [Json.mergeUnder, if_pos hkey, Json.joined_assoc]
      rw [heq]
      exact Json.same_self (hinner hright (hr.trans hyz))
    · simp only [Json.mergeUnder, if_neg hkey]
      exact hvalues _ (Fields.mem_of_get?_eq_some hz) x y (hinner ha hx) (hinner hb hy) hsomeX
        hsomeY hsomeZ (hab.get? hkey hx hy) (hbc.get? hkey hy hz)

mutual

/-- Every well-formed value may be filled in before or after the one in front of it. -/
theorem Json.associates : ∀ {c : Json}, c.WellFormed → c.Associates
  | .null, _ => Json.associates_of_plain rfl
  | .bool _, _ => Json.associates_of_plain rfl
  | .num _, _ => Json.associates_of_plain rfl
  | .str _, _ => Json.associates_of_plain rfl
  | .arr _, h => Json.associates_arr h
  | .obj fields, h => by
    have hvalues := Fields.associates (by rw [Json.WellFormed] at h; exact h.2)
    intro a b ha hb hsomeA hsomeB hsomeC hab hbc
    obtain ⟨middle, rfl⟩ := Json.exists_obj_of_form (hbc.form_eq hsomeB hsomeC)
    obtain ⟨left, rfl⟩ := Json.exists_obj_of_form (hab.form_eq hsomeA hsomeB)
    simp only [Json.merge]
    exact Fields.same_merge_merge ha hb h hab hbc hvalues

/-- A fill from any value of well-formed fields is associative. -/
theorem Fields.associates : ∀ {fields : List (String × Json)}, Json.WellFormedFields fields →
    ∀ e ∈ fields, e.2.Associates
  | [], _, _, he => nomatch he
  | (key, value) :: rest, h, e, he => by
    rw [Json.WellFormedFields] at h
    rcases List.mem_cons.1 he with rfl | he
    · exact Json.associates h.1
    · exact Fields.associates h.2 e he

end

/-! ## Rules -/

namespace Fields

/-- A field that passes may be set before or after the filter. -/
theorem filter_set {p : String → Bool} {key : String} (hkey : p key = true) (value : Json)
    (fields : Fields) :
    (Fields.set key value fields).filter (fun e => p e.1) =
      Fields.set key value (fields.filter fun e => p e.1) := by
  induction fields with
  | nil => simp [set, hkey]
  | cons e rest ih =>
    obtain ⟨k, v⟩ := e
    by_cases heq : k = key
    · subst heq
      simp [set, hkey]
    · by_cases hk : p k = true <;> simp [set, heq, hk, ih]

end Fields

namespace MergeRule

variable (rule : MergeRule)

/-- An admitted field may be merged before or after the others are dropped. -/
theorem admitted_mergeField {key : String} (hkey : rule.admits key = true) (left : Fields)
    (value : Json) :
    rule.admitted (Fields.mergeField rule.overwrite left key value).1 =
      (Fields.mergeField rule.overwrite (rule.admitted left) key value).1 := by
  have hget : Fields.get? (rule.admitted left) key = Fields.get? left key :=
    Fields.get?_filter_keys rule.admits left hkey
  have hset (v : Json) : rule.admitted (Fields.set key v left) =
      Fields.set key v (rule.admitted left) := Fields.filter_set hkey v left
  unfold Fields.mergeField
  rw [hget]
  split
  · rfl
  · split
    · exact hset _
    · split
      · exact hset _
      · split
        · split
          · exact hset _
          · rfl
        · exact hset _

/-- Admitted fields may be merged before or after the others are dropped. -/
theorem admitted_merge (left : Fields) {right : Fields} (h : ∀ e ∈ right, rule.admits e.1 = true) :
    rule.admitted (Fields.merge rule.overwrite left right).1 =
      (Fields.merge rule.overwrite (rule.admitted left) right).1 := by
  induction right generalizing left with
  | nil => simp
  | cons e rest ih =>
    rw [List.forall_mem_cons] at h
    rw [Fields.merge_cons, Fields.merge_cons]
    dsimp only
    rw [ih _ h.2, rule.admitted_mergeField h.1]

/-- What is merged of a merge is the merge of what is merged. -/
theorem admitted_apply (left right : Fields) :
    rule.admitted (rule.apply left right).1 =
      (Fields.merge rule.overwrite (rule.admitted left) (rule.admitted right)).1 :=
  rule.admitted_merge left fun _ he => (List.mem_filter.1 he).2

/-- Fields stay alike when the right side is restricted. -/
theorem alike_admitted_right {a b : Fields} (h : Json.Alike (.obj a) (.obj b)) :
    Json.Alike (.obj a) (.obj (rule.admitted b)) := by
  refine Json.alike_obj_of_get? fun key hkey mine other hmine hother => ?_
  have hadmits : rule.admits key = true := (List.mem_filter.1 (Fields.mem_of_get?_eq_some hother)).2
  rw [admitted, Fields.get?_filter_keys rule.admits b hadmits] at hother
  exact h.get? hkey hmine hother

/-- Fields stay alike when the left side is restricted. -/
theorem alike_admitted_left {a b : Fields} (h : Json.Alike (.obj a) (.obj b)) :
    Json.Alike (.obj (rule.admitted a)) (.obj b) := by
  refine Json.alike_obj_of_get? fun key hkey mine other hmine hother => ?_
  have hadmits : rule.admits key = true := (List.mem_filter.1 (Fields.mem_of_get?_eq_some hmine)).2
  rw [admitted, Fields.get?_filter_keys rule.admits a hadmits] at hmine
  exact h.get? hkey hmine hother

/--
Filling a document from a second one and the result from a third leaves the same document as filling
it from the second one filled from the third, whatever keys are left out.  The second document must
have values of the same form as the first wherever both have a value, and so must the third as the
second; profile tags may have any form.  So it makes no difference whether a definition inherits
from its parent before or after that one inherits in turn.
-/
theorem fill_is_associative {a b c : Fields} (ha : (Json.obj a).WellFormed)
    (hb : (Json.obj b).WellFormed) (hc : (Json.obj c).WellFormed)
    (hab : Json.Alike (.obj a) (.obj b)) (hbc : Json.Alike (.obj b) (.obj c)) :
    (∀ (ignored : List String) (allowed : Option (List String)),
      let rule : MergeRule := ⟨false, ignored, allowed⟩
      (Json.obj (rule.apply (rule.apply a b).1 c).1).same
        (.obj (rule.apply a (rule.apply b c).1).1) = true) ∧
    (((⟨a⟩ : Definition).inherit ⟨b⟩).definition.inherit ⟨c⟩).definition.same
      ((⟨a⟩ : Definition).inherit ((⟨b⟩ : Definition).inherit ⟨c⟩).definition).definition =
        true := by
  have hrule (rule : MergeRule) (hfill : rule.overwrite = false) :
      (Json.obj (rule.apply (rule.apply a b).1 c).1).same
        (.obj (rule.apply a (rule.apply b c).1).1) = true := by
    have hright : (rule.apply a (rule.apply b c).1).1 =
        (Fields.merge false a (Fields.merge false (rule.admitted b) (rule.admitted c)).1).1 := by
      rw [← hfill, ← admitted_apply]
      rfl
    have hleft : (rule.apply (rule.apply a b).1 c).1 =
        (Fields.merge false (Fields.merge false a (rule.admitted b)).1 (rule.admitted c)).1 := by
      rw [← hfill]
      rfl
    have hadmitted : (Json.obj (rule.admitted c)).WellFormed := wellFormed_admitted hc
    rw [hleft, hright]
    exact Fields.same_merge_merge ha (wellFormed_admitted hb) hadmitted
      (rule.alike_admitted_right hab) (rule.alike_admitted_left (rule.alike_admitted_right hbc))
      (Fields.associates (Json.wellFormedFields_iff.2 (Json.wellFormed_obj_iff.1 hadmitted).2))
  exact ⟨fun ignored allowed => hrule ⟨false, ignored, allowed⟩ rfl, hrule _ rfl⟩

/-- A host with an address that repeats an item and is tagged. -/
def host : Fields :=
  [("name", .str "host"), ("ip", .obj [("values", .arr [.str "v4", .str "v4"]),
    ("profile", .str "cloud")])]

/-- Its parent, with nulls and with tags in a list. -/
def machine : Fields :=
  [("ip", .obj [("uid", .null), ("values", .arr [.str "v6"]), ("profile", .arr [.str "host"])]),
    ("port", .null), ("caption", .str "Machine")]

/-- The parent of that one, with an object in place of the tags. -/
def thing : Fields :=
  [("caption", .str "Thing"), ("port", .obj []), ("ip", .obj [("profile", .obj []),
    ("values", .arr [.str "v4", .str "v5", .str "v5"]), ("uid", Json.ofInt 7)])]

/-- Both ways of inheriting lead to the same host, with its fields in different orders. -/
theorem host_inherits_in_either_order :
    let child : Definition := ⟨host⟩
    let parent : Definition := ⟨machine⟩
    let parentLast := ((child.inherit parent).definition.inherit ⟨thing⟩).definition
    let parentFirst := (child.inherit (parent.inherit ⟨thing⟩).definition).definition
    Fields.keys parentLast.fields = ["name", "ip", "caption", "port"] ∧
      Fields.keys parentFirst.fields = ["name", "ip", "port", "caption"] ∧
      Fields.get? parentFirst.fields "ip" = some (.obj [("values", .arr [.str "v4", .str "v4",
        .str "v6", .str "v5"]), ("profile", .arr [.str "cloud", .str "host"]),
        ("uid", Json.ofInt 7)]) ∧
      parentLast.same parentFirst = true := by
  have hhost : (Json.obj host).WellFormed := by
    simp [host, Json.WellFormed, Json.WellFormedFields, Json.WellFormedItems]
  have hmachine : (Json.obj machine).WellFormed := by
    simp [machine, Json.WellFormed, Json.WellFormedFields, Json.WellFormedItems]
  have hthing : (Json.obj thing).WellFormed := by
    simp [thing, Json.WellFormed, Json.WellFormedFields, Json.WellFormedItems, Json.ofInt]
  have harrays (left right : List Json) : Json.Alike (.arr left) (.arr right) :=
    Json.alike_of_form rfl (by simp [Json.form])
  have htexts (left right : String) : Json.Alike (.str left) (.str right) :=
    Json.alike_of_form rfl (by simp [Json.form])
  have hab : Json.Alike (.obj host) (.obj machine) := Json.alike_obj (by
    simpa [host, machine, profileKey, Fields.get?_cons] using
      Json.alike_obj (by simp [profileKey, Fields.get?_cons, harrays]))
  have hbc : Json.Alike (.obj machine) (.obj thing) := Json.alike_obj (by
    simpa [machine, thing, profileKey, Fields.get?_cons, Json.alike_null, htexts] using
      Json.alike_obj (by simp [profileKey, Fields.get?_cons, harrays, Json.alike_null]))
  exact ⟨rfl, rfl, rfl, (fill_is_associative hhost hmachine hthing hab hbc).2⟩

end MergeRule

end EventSchema
