import EventSchema.Proofs.ProfileTags

/-!
# What a merge leaves at every path

Objects merge field by field, so what a merge leaves at the end of a path depends on what the two
sides hold there: as long as both hold values and no step of the path is a list of profile tags, the
two values are merged in turn.  From this the result can be read off for scalars, arrays, tags and
whatever only one side has, at any depth.

Main results:

- {lit}`Json.gather_eq`, {lit}`Json.gatherTags_eq`: a union is the left side, then what is new on
  the right.
- {lit}`Fields.keys_merge`: the keys of a merge are those of the left side, then the new ones.
- {lit}`Json.at?_merge`: at a path where both sides hold values these are merged.
- {lit}`MergeRule.apply_merges`: all that a merge by a rule leaves.
-/

namespace EventSchema

/-! ## Unions -/

/-- What is new on the right, each once and in order. -/
def newItems {α : Type} [BEq α] (left right : List α) : List α :=
  (right.filter fun item => !left.contains item).eraseDups

/-- Items that are added as long as they are not there yet come behind the left side. -/
theorem foldl_add_eq_append {α : Type} [BEq α] (left right : List α) :
    right.foldl (fun items item => if items.contains item then items else items ++ [item]) left =
      left ++ newItems left right := by
  induction right generalizing left with
  | nil => simp [newItems]
  | cons item rest ih =>
    rw [List.foldl_cons, ih]
    by_cases hold : left.contains item = true
    · simp only [newItems, List.filter_cons, hold, if_true, Bool.not_true, Bool.false_eq_true,
        if_false]
    · have hnew : newItems left (item :: rest) = item :: newItems (left ++ [item]) rest := by
        simp [newItems, hold, List.eraseDups_cons, List.filter_filter, Bool.and_comm]
      simp [hold, hnew]

namespace Json

/-- The union of two arrays is the left one, then the new items of the right one. -/
theorem gather_eq (left right : List Json) : gather left right = left ++ newItems left right :=
  foldl_add_eq_append left right

/-- Joined tags are those of the left side, then the new ones of the right side. -/
theorem gatherTags_eq (left right : List String) :
    gatherTags left right = left ++ newItems left right :=
  foldl_add_eq_append left right

end Json

/-! ## Keys -/

namespace Fields

/-- The keys with a value on the right that the left side does not have, in order. -/
def newKeys (left right : Fields) : List String :=
  Fields.keys (right.filter fun e => !e.2.isNull && !(Fields.keys left).contains e.1)

theorem keys_mergeField (overwrite : Bool) (left : Fields) (key : String) (right : Json) :
    Fields.keys (Fields.mergeField overwrite left key right).1 =
      if right.isNull || (Fields.keys left).contains key then Fields.keys left
      else Fields.keys left ++ [key] := by
  unfold mergeField
  by_cases hnull : right.isNull = true
  · simp [hnull]
  rw [if_neg hnull]
  cases hget : Fields.get? left key with
  | none =>
    have hnew : key ∉ Fields.keys left := get?_eq_none_iff.1 hget
    simp [keys_set, hnull, hnew]
  | some existing =>
    have hold : key ∈ Fields.keys left := List.mem_map.2 ⟨_, mem_of_get?_eq_some hget, rfl⟩
    dsimp only
    split
    · simp [keys_set, hold]
    · split
      · split <;> simp [keys_set, hold]
      · simp [keys_set, hold]

theorem newKeys_cons (left : Fields) (key : String) (value : Json) (rest : Fields) :
    Fields.newKeys left ((key, value) :: rest) =
      if value.isNull || (Fields.keys left).contains key then Fields.newKeys left rest
      else key :: Fields.newKeys left rest := by
  unfold newKeys
  rw [List.filter_cons, ← Bool.not_or]
  cases value.isNull || (Fields.keys left).contains key <;> simp [keys]

/-- A field that is merged does not matter to what is new among other keys. -/
theorem newKeys_mergeField (overwrite : Bool) (left : Fields) {key : String} (right : Json)
    {rest : Fields} (h : key ∉ Fields.keys rest) :
    Fields.newKeys (Fields.mergeField overwrite left key right).1 rest =
      Fields.newKeys left rest := by
  unfold newKeys
  rw [keys_mergeField]
  congr 1
  apply List.filter_congr
  intro e he
  have hne : e.1 ≠ key := by
    rintro rfl
    exact h (List.mem_map_of_mem he)
  split <;> simp [hne]

/-- The keys of a merge are those of the left side, then the new ones of the right side. -/
theorem keys_merge (overwrite : Bool) (left : Fields) {right : Fields}
    (h : (Fields.keys right).Nodup) :
    Fields.keys (Fields.merge overwrite left right).1 =
      Fields.keys left ++ Fields.newKeys left right := by
  induction right generalizing left with
  | nil => simp [newKeys, keys]
  | cons e rest ih =>
    rcases e with ⟨key, value⟩
    rcases List.nodup_cons.1 h with ⟨hfresh, hrest⟩
    rw [merge_cons]
    dsimp only
    rw [ih _ hrest, newKeys_mergeField overwrite left value hfresh, keys_mergeField, newKeys_cons]
    split <;> simp

theorem filter_eq_none_of_not_hasValue {fields : Fields} {key : String}
    (h : ¬ HasValue fields key) :
    ((Fields.get? fields key).filter fun value => !value.isNull) = none := by
  rw [Option.filter_eq_none_iff]
  intro value hvalue hnull
  exact h ⟨value, hvalue, by simpa using hnull⟩

variable (overwrite : Bool) {left right : Fields} {key : String}

/-- Where the right side has no value the left one stays. -/
theorem get?_merge_of_not_hasValue_right (h : (Fields.keys right).Nodup)
    (hright : ¬ HasValue right key) :
    Fields.get? (Fields.merge overwrite left right).1 key = Fields.get? left key := by
  cases hpatch : Fields.get? right key with
  | none => exact get?_merge_of_not_mem overwrite left (get?_eq_none_iff.1 hpatch)
  | some patch =>
    have hnull : patch.isNull = true := by
      by_contra hsome
      exact hright ⟨patch, hpatch, by simpa using hsome⟩
    rw [get?_merge_of_get? overwrite left h hpatch, get?_mergeField_self, if_pos hnull]

/-- Where the left side has no value that of the right side lands. -/
theorem get?_merge_of_not_hasValue_left (h : (Fields.keys right).Nodup)
    (hleft : ¬ HasValue left key) {patch : Json} (hpatch : Fields.get? right key = some patch)
    (hnull : patch.isNull = false) :
    Fields.get? (Fields.merge overwrite left right).1 key = some patch := by
  rw [get?_merge_of_get? overwrite left h hpatch, get?_mergeField_self,
    filter_eq_none_of_not_hasValue hleft]
  simp [hnull]

/-- Where both sides have a value these are merged. -/
theorem get?_merge_of_values (h : (Fields.keys right).Nodup) (hkey : key ≠ profileKey)
    {existing patch : Json} (hexisting : Fields.get? left key = some existing)
    (hthere : existing.isNull = false) (hpatch : Fields.get? right key = some patch)
    (hnull : patch.isNull = false) :
    Fields.get? (Fields.merge overwrite left right).1 key =
      some (Json.merge overwrite existing patch).1 := by
  rw [get?_merge_of_get? overwrite left h hpatch, get?_mergeField_self, hexisting]
  simp [Option.filter_some, hnull, hthere, hkey]

/-- Where both sides have profile tags these are joined. -/
theorem get?_merge_profile (h : (Fields.keys right).Nodup) {existing patch : Json}
    (hexisting : Fields.get? left profileKey = some existing) (hthere : existing.isNull = false)
    (hpatch : Fields.get? right profileKey = some patch) (hnull : patch.isNull = false) :
    Fields.get? (Fields.merge overwrite left right).1 profileKey =
      some ((Json.joinTags? existing patch).getD existing) := by
  rw [get?_merge_of_get? overwrite left h hpatch, get?_mergeField_self, hexisting]
  simp [Option.filter_some, hnull, hthere]

/-- Where both sides have profile tags the left ones come first, then the new ones. -/
theorem strings_get?_merge_profile (h : (Fields.keys right).Nodup) {existing patch : Json}
    (hexisting : Fields.get? left profileKey = some existing) (hthere : existing.isNull = false)
    (hpatch : Fields.get? right profileKey = some patch) (hnull : patch.isNull = false) :
    ∃ joined, Fields.get? (Fields.merge overwrite left right).1 profileKey = some joined ∧
      Json.strings (some joined) = Json.strings (some existing) ++
        newItems (Json.strings (some existing)) (Json.strings (some patch)) := by
  refine ⟨_, get?_merge_profile overwrite h hexisting hthere hpatch hnull, ?_⟩
  rw [← Json.gatherTags_eq]
  cases hjoin : Json.joinTags? existing patch with
  | none => exact (Json.gatherTags_eq_self (Json.joinTags?_eq_none_iff.1 hjoin)).symm
  | some tags => exact Json.strings_of_joinTags? hjoin

end Fields

/-! ## Paths -/

namespace Json

/-- The value that a path through objects leads to. -/
def at? : Json → FieldPath → Option Json
  | value, [] => some value
  | value, key :: rest => (value.obj?.bind (Fields.get? · key)).bind fun inner => inner.at? rest

@[simp]
theorem at?_nil (value : Json) : value.at? [] = some value := rfl

@[simp]
theorem at?_cons (fields : Fields) (key : String) (rest : FieldPath) :
    (Json.obj fields).at? (key :: rest) =
      (Fields.get? fields key).bind fun inner => inner.at? rest := rfl

/-- Whatever a path with a step leads to lies in an object. -/
theorem exists_of_at?_cons {value inner : Json} {key : String} {rest : FieldPath}
    (h : value.at? (key :: rest) = some inner) :
    ∃ fields next, value = .obj fields ∧ Fields.get? fields key = some next ∧
      next.at? rest = some inner := by
  cases value with
  | obj fields =>
    rcases Option.bind_eq_some_iff.1 h with ⟨next, hnext, hinner⟩
    exact ⟨fields, next, rfl, hnext, hinner⟩
  | _ => cases h

theorem at?_append (value : Json) (way rest : FieldPath) :
    value.at? (way ++ rest) = (value.at? way).bind fun inner => inner.at? rest := by
  induction way generalizing value with
  | nil => simp
  | cons key way ih =>
    cases value with
    | obj fields =>
      rw [List.cons_append, at?_cons, at?_cons, Option.bind_assoc]
      simp only [ih]
    | _ => rfl

/-- The last step of a path leads from an object to one of its fields. -/
theorem at?_concat_eq_some_iff {value inner : Json} {way : FieldPath} {key : String} :
    value.at? (way ++ [key]) = some inner ↔
      ∃ fields, value.at? way = some (.obj fields) ∧ Fields.get? fields key = some inner := by
  rw [at?_append, Option.bind_eq_some_iff]
  constructor
  · rintro ⟨last, hlast, hinner⟩
    rcases exists_of_at?_cons hinner with ⟨fields, next, rfl, hnext, hnil⟩
    rw [at?_nil] at hnil
    exact ⟨fields, hlast, hnil ▸ hnext⟩
  · rintro ⟨fields, hfields, hinner⟩
    exact ⟨.obj fields, hfields, by simp [hinner]⟩

theorem wellFormed_of_at? {value inner : Json} {path : FieldPath} (hvalue : value.WellFormed)
    (h : value.at? path = some inner) : inner.WellFormed := by
  induction path generalizing value with
  | nil =>
    rw [at?_nil, Option.some.injEq] at h
    rwa [← h]
  | cons key rest ih =>
    rcases exists_of_at?_cons h with ⟨fields, next, rfl, hnext, hinner⟩
    exact ih ((wellFormed_obj_iff.1 hvalue).2 _ (Fields.mem_of_get?_eq_some hnext)) hinner

theorem isNull_of_at? {value inner : Json} {path : FieldPath} (h : value.at? path = some inner)
    (hinner : inner.isNull = false) : value.isNull = false := by
  cases value with
  | null =>
    cases path with
    | nil =>
      cases h
      exact hinner
    | cons key rest => cases h
  | _ => rfl

variable {path : FieldPath}

/-- At a path where both sides hold values these are merged. -/
theorem at?_merge (overwrite : Bool) (hpath : profileKey ∉ path) {left right existing patch : Json}
    (hright : right.WellFormed) (hexisting : left.at? path = some existing)
    (hthere : existing.isNull = false) (hpatch : right.at? path = some patch)
    (hnull : patch.isNull = false) :
    (Json.merge overwrite left right).1.at? path =
      some (Json.merge overwrite existing patch).1 := by
  induction path generalizing left right with
  | nil =>
    simp only [at?_nil, Option.some.injEq] at hexisting hpatch ⊢
    rw [hexisting, hpatch]
  | cons key rest ih =>
    rcases List.ne_and_not_mem_of_not_mem_cons hpath with ⟨hkey, hrest⟩
    rcases exists_of_at?_cons hexisting with ⟨l, mine, rfl, hmine, hexisting⟩
    rcases exists_of_at?_cons hpatch with ⟨r, other, rfl, hother, hpatch⟩
    rcases wellFormed_obj_iff.1 hright with ⟨hdistinct, hinner⟩
    have hmerged := Fields.get?_merge_of_values overwrite hdistinct hkey.symm hmine
      (isNull_of_at? hexisting hthere) hother (isNull_of_at? hpatch hnull)
    rw [Json.merge, at?_cons, hmerged, Option.bind_some]
    exact ih hrest (hinner _ (Fields.mem_of_get?_eq_some hother)) hexisting hpatch

/-- Filling leaves every value of the left side at its path, merged with some other value. -/
theorem exists_at?_merge_fill (hpath : profileKey ∉ path) {left right value : Json}
    (hright : right.WellFormed) (hvalue : left.at? path = some value)
    (hnull : value.isNull = false) :
    ∃ other : Json, (Json.merge false left right).1.at? path = some (Json.merge false value other).1 := by
  have hself : (Json.merge false value .null).1 = value := by simp [Json.merge, replace]
  induction path generalizing left right with
  | nil =>
    rw [at?_nil, Option.some.injEq] at hvalue
    exact ⟨right, by rw [hvalue, at?_nil]⟩
  | cons key rest ih =>
    rcases List.ne_and_not_mem_of_not_mem_cons hpath with ⟨hkey, hrest⟩
    rcases exists_of_at?_cons hvalue with ⟨l, mine, rfl, hmine, hinner⟩
    -- Unless the right side has a value there as well, the left side stays.
    cases right with
    | obj r =>
      rcases wellFormed_obj_iff.1 hright with ⟨hdistinct, hpatches⟩
      rw [Json.merge, at?_cons]
      by_cases hpatch : Fields.HasValue r key
      · rcases hpatch with ⟨patch, hpatch, hsome⟩
        rw [Fields.get?_merge_of_values false hdistinct hkey.symm hmine
          (isNull_of_at? hinner hnull) hpatch hsome, Option.bind_some]
        exact ih hrest (hpatches _ (Fields.mem_of_get?_eq_some hpatch)) hinner
      · refine ⟨.null, ?_⟩
        rw [Fields.get?_merge_of_not_hasValue_right false hdistinct hpatch, hself, hmine]
        exact hinner
    | _ =>
      refine ⟨.null, ?_⟩
      rw [hself, ← hvalue]
      simp [Json.merge, replace]

/-- Whether a value is neither null nor a container. -/
def isScalar : Json → Bool
  | .bool _ | .num _ | .str _ => true
  | _ => false

theorem isNull_of_isScalar {value : Json} (h : value.isScalar = true) : value.isNull = false := by
  cases value <;> simp_all [isScalar, isNull]

/-- Overwriting merges every value of the right side, at its path, into some other value. -/
theorem exists_at?_merge_patch (hpath : profileKey ∉ path) {left right value : Json}
    (hright : right.WellFormed) (hvalue : right.at? path = some value)
    (hnull : value.isNull = false) :
    ∃ mine : Json, (Json.merge true left right).1.at? path =
      some (Json.merge true mine value).1 := by
  have hself : (Json.merge true .null value).1 = value := by
    cases value <;> simp_all [Json.merge, replace, isNull, bne, BEq.beq, same]
  induction path generalizing left right with
  | nil =>
    rw [at?_nil, Option.some.injEq] at hvalue
    exact ⟨left, by rw [hvalue, at?_nil]⟩
  | cons key rest ih =>
    rcases List.ne_and_not_mem_of_not_mem_cons hpath with ⟨hkey, hrest⟩
    rcases exists_of_at?_cons hvalue with ⟨r, patch, rfl, hpatch, hinner⟩
    rcases wellFormed_obj_iff.1 hright with ⟨hdistinct, hpatches⟩
    have hsome := isNull_of_at? hinner hnull
    -- Anything but an object is replaced as a whole.
    cases left with
    | obj l =>
      rw [Json.merge, at?_cons]
      by_cases hmine : Fields.HasValue l key
      · rcases hmine with ⟨mine, hmine, hthere⟩
        rw [Fields.get?_merge_of_values true hdistinct hkey.symm hmine hthere hpatch hsome,
          Option.bind_some]
        exact ih hrest (hpatches _ (Fields.mem_of_get?_eq_some hpatch)) hinner
      · refine ⟨.null, ?_⟩
        rw [Fields.get?_merge_of_not_hasValue_left true hdistinct hmine hpatch hsome, hself]
        exact hinner
    | _ =>
      refine ⟨.null, ?_⟩
      rw [hself, ← hvalue]
      simp [Json.merge, replace, bne, BEq.beq, same]

/-- An overwriting merge leaves every scalar of the right side at its path. -/
theorem exists_at?_merge_overwrite (hpath : profileKey ∉ path) {left right value : Json}
    (hright : right.WellFormed) (hvalue : right.at? path = some value)
    (hscalar : value.isScalar = true) :
    ∃ there : Json, (Json.merge true left right).1.at? path = some there ∧
      there.same value = true := by
  rcases exists_at?_merge_patch hpath hright hvalue (isNull_of_isScalar hscalar) with
    ⟨mine, hmerged⟩
  refine ⟨_, hmerged, ?_⟩
  have hmerge : Json.merge true mine value = replace true mine value := by
    cases value <;> simp_all [isScalar, Json.merge]
  rw [hmerge, replace]
  by_cases hsame : mine.same value = true
  · simp [bne, BEq.beq, hsame]
  · have hself : value.same value = true := by
      cases value <;> simp_all [isScalar, same]
    simp [bne, BEq.beq, hsame, hself]

end Json

/-! ## Merges by a rule -/

namespace Fields

/-- The value that a path through objects leads to. -/
def at? (fields : Fields) (path : FieldPath) : Option Json := (Json.obj fields).at? path

end Fields

namespace MergeRule

/-- Whether the first step of a path is a key that is merged. -/
def AdmitsPath (rule : MergeRule) (path : FieldPath) : Prop :=
  ∃ key rest, path = key :: rest ∧ rule.admits key = true

/-- The fields that are merged. -/
def admitted (rule : MergeRule) (right : Fields) : Fields := right.filter fun e => rule.admits e.1

/-- What merging one set of fields into another by a rule must lead to. -/
structure IsMerge (rule : MergeRule) (left right merged : Fields) : Prop where
  /-- The keys of the left side stay in order, and the new ones follow in the order of the right. -/
  keys : Fields.keys merged = Fields.keys left ++ Fields.newKeys left (rule.admitted right)
  /-- It is so at every path where both sides have objects. -/
  innerKeys : ∀ path l r, rule.AdmitsPath path → profileKey ∉ path →
    Fields.at? left path = some (.obj l) → Fields.at? right path = some (.obj r) →
      ∃ m, Fields.at? merged path = some (.obj m) ∧
        Fields.keys m = Fields.keys l ++ Fields.newKeys l r
  /-- A key that is not merged, or has no value on the right, keeps what is on the left. -/
  untouched : ∀ key, rule.admits key = false ∨ ¬ Fields.HasValue right key →
    Fields.get? merged key = Fields.get? left key
  /-- Filling leaves every scalar of the left side at its path. -/
  fillScalar : rule.overwrite = false → ∀ path value, profileKey ∉ path →
    Fields.at? left path = some value → value.isScalar = true →
      Fields.at? merged path = some value
  /-- Filling leaves every array of the left side at the front of the one at its path. -/
  fillArray : rule.overwrite = false → ∀ path items, profileKey ∉ path →
    Fields.at? left path = some (.arr items) →
      ∃ more, Fields.at? merged path = some (.arr (items ++ more))
  /-- Overwriting leaves every scalar of the right side at its path, as the same value. -/
  overwriteScalar : rule.overwrite = true → ∀ path value, rule.AdmitsPath path →
    profileKey ∉ path → Fields.at? right path = some value → value.isScalar = true →
      ∃ there, Fields.at? merged path = some there ∧ there.same value = true
  /-- Where objects on the left lead to no value, the value of the right side is copied. -/
  copied : ∀ way key l value, rule.AdmitsPath (way ++ [key]) → profileKey ∉ way ++ [key] →
    Fields.at? left way = some (.obj l) → ¬ Fields.HasValue l key →
      Fields.at? right (way ++ [key]) = some value → value.isNull = false →
        Fields.at? merged (way ++ [key]) = some value
  /-- Where both sides have arrays, the new items of the right side follow those of the left. -/
  arrays : ∀ path items patch, rule.AdmitsPath path → profileKey ∉ path →
    Fields.at? left path = some (.arr items) → Fields.at? right path = some (.arr patch) →
      Fields.at? merged path = some (.arr (items ++ newItems items patch))
  /-- Where both sides have profile tags, the new tags of the right side follow those of the left. -/
  tags : ∀ way existing patch, rule.AdmitsPath (way ++ [profileKey]) → profileKey ∉ way →
    Fields.at? left (way ++ [profileKey]) = some existing → existing.isNull = false →
      Fields.at? right (way ++ [profileKey]) = some patch → patch.isNull = false →
        ∃ joined, Fields.at? merged (way ++ [profileKey]) = some joined ∧
          Json.strings (some joined) = Json.strings (some existing) ++
            newItems (Json.strings (some existing)) (Json.strings (some patch))

variable {rule : MergeRule} {right : Fields} {path : FieldPath}

theorem at?_admitted (h : rule.AdmitsPath path) :
    Fields.at? (rule.admitted right) path = Fields.at? right path := by
  rcases h with ⟨key, rest, rfl, hadmits⟩
  simp [Fields.at?, admitted, Fields.get?_filter_keys rule.admits right hadmits]

theorem not_hasValue_admitted {key : String}
    (h : rule.admits key = false ∨ ¬ Fields.HasValue right key) :
    ¬ Fields.HasValue (rule.admitted right) key := by
  rintro ⟨value, hvalue, hnull⟩
  have hadmits : rule.admits key = true := by
    simpa using (List.mem_filter.1 (Fields.mem_of_get?_eq_some hvalue)).2
  rcases h with hnot | hnone
  · simp [hadmits] at hnot
  · rw [admitted, Fields.get?_filter_keys rule.admits right hadmits] at hvalue
    exact hnone ⟨value, hvalue, hnull⟩

theorem wellFormed_admitted (h : (Json.obj right).WellFormed) :
    (Json.obj (rule.admitted right)).WellFormed :=
  Json.wellFormed_filter h _

/-- A merge by a rule merges the fields that the rule admits. -/
theorem at?_apply (rule : MergeRule) (left right : Fields) (path : FieldPath) :
    Fields.at? (rule.apply left right).1 path =
      (Json.merge rule.overwrite (.obj left) (.obj (rule.admitted right))).1.at? path := by
  simp [Fields.at?, apply, admitted, Json.merge]

/-- Objects at a path are merged. -/
theorem at?_apply_of_objects {left : Fields} (h : (Json.obj (rule.admitted right)).WellFormed)
    (hpath : profileKey ∉ path) {l r : Fields} (hl : Fields.at? left path = some (.obj l))
    (hr : Fields.at? (rule.admitted right) path = some (.obj r)) :
    Fields.at? (rule.apply left right).1 path = some (.obj (Fields.merge rule.overwrite l r).1) := by
  have hmerged := Json.at?_merge rule.overwrite hpath h hl rfl hr rfl
  rw [at?_apply, hmerged, Json.merge]

/-- A merge by a rule leads to what it must lead to. -/
theorem apply_merges (rule : MergeRule) (left : Fields) {right : Fields}
    (h : (Json.obj right).WellFormed) : rule.IsMerge left right (rule.apply left right).1 := by
  have hright : (Json.obj (rule.admitted right)).WellFormed := wellFormed_admitted h
  have hdistinct := (Json.wellFormed_obj_iff.1 hright).1
  have hinner {path : FieldPath} {r : Fields}
      (hr : Fields.at? (rule.admitted right) path = some (.obj r)) : (Fields.keys r).Nodup :=
    (Json.wellFormed_obj_iff.1 (Json.wellFormed_of_at? hright hr)).1
  constructor
  case keys => exact Fields.keys_merge rule.overwrite left hdistinct
  case innerKeys =>
    intro path l r hadmits hpath hl hr
    rw [← at?_admitted hadmits] at hr
    exact ⟨_, at?_apply_of_objects hright hpath hl hr, Fields.keys_merge _ l (hinner hr)⟩
  case untouched =>
    intro key hkey
    exact Fields.get?_merge_of_not_hasValue_right _ hdistinct (not_hasValue_admitted hkey)
  case fillScalar =>
    intro hfill path value hpath hvalue hscalar
    rcases Json.exists_at?_merge_fill hpath hright hvalue (Json.isNull_of_isScalar hscalar) with
      ⟨other, hother⟩
    rw [at?_apply, hfill, hother]
    cases value <;> cases other <;> simp_all [Json.isScalar, Json.merge, Json.replace]
  case fillArray =>
    intro hfill path items hpath hitems
    rcases Json.exists_at?_merge_fill hpath hright hitems rfl with ⟨other, hother⟩
    rw [at?_apply, hfill, hother]
    cases other with
    | arr patch => exact ⟨newItems items patch, by simp [Json.merge, Json.gather_eq]⟩
    | _ => exact ⟨[], by simp [Json.merge, Json.replace]⟩
  case overwriteScalar =>
    intro hoverwrite path value hadmits hpath hvalue hscalar
    rw [← at?_admitted hadmits] at hvalue
    rw [at?_apply, hoverwrite]
    exact Json.exists_at?_merge_overwrite hpath hright hvalue hscalar
  case copied =>
    intro way key l value hadmits hpath hl hnone hvalue hnull
    rw [← at?_admitted hadmits] at hvalue
    rcases Json.at?_concat_eq_some_iff.1 hvalue with ⟨r, hr, hpatch⟩
    have hway : profileKey ∉ way := fun hmem => hpath (List.mem_append_left _ hmem)
    refine Json.at?_concat_eq_some_iff.2 ⟨_, at?_apply_of_objects hright hway hl hr, ?_⟩
    exact Fields.get?_merge_of_not_hasValue_left _ (hinner hr) hnone hpatch hnull
  case arrays =>
    intro path items patch hadmits hpath hitems hpatch
    rw [← at?_admitted hadmits] at hpatch
    have hmerged := Json.at?_merge rule.overwrite hpath hright hitems rfl hpatch rfl
    rw [at?_apply, hmerged, Json.merge, Json.gather_eq]
  case tags =>
    intro way existing patch hadmits hway hexisting hthere hpatch hnull
    rw [← at?_admitted hadmits] at hpatch
    rcases Json.at?_concat_eq_some_iff.1 hexisting with ⟨l, hl, hmine⟩
    rcases Json.at?_concat_eq_some_iff.1 hpatch with ⟨r, hr, hother⟩
    rcases Fields.strings_get?_merge_profile rule.overwrite (hinner hr) hmine hthere hother hnull
      with ⟨joined, hjoined, htags⟩
    refine ⟨joined, Json.at?_concat_eq_some_iff.2 ⟨_, ?_, hjoined⟩, htags⟩
    exact at?_apply_of_objects hright hway hl hr

/-- An object with an attribute. -/
def device : Fields :=
  [("name", .str "device"), ("attributes", .obj [("ip", .obj [("caption", .str "Address"),
    ("uid", .null), ("profile", .str "host"), ("values", .arr [.str "v4", .str "v4"])])])]

/-- Another object with this attribute. -/
def endpoint : Fields :=
  [("extends", .str "base"), ("attributes", .obj [("ip", .obj [("uid", Json.ofInt 7),
    ("profile", .arr [.str "cloud", .str "host", .str "cloud"]), ("caption", .str "IP"),
    ("values", .arr [.str "v6", .str "v4", .str "v6"])]), ("port", .obj [])])]

/-- Filling keeps the caption, brings in an identifier and an attribute, and joins both lists. -/
theorem device_filled_from_endpoint :
    (Json.obj endpoint).WellFormed ∧
      (MergeRule.fill.ignoring ["extends"]).IsMerge device endpoint
        [("name", .str "device"), ("attributes", .obj [("ip", .obj [("caption", .str "Address"),
          ("uid", Json.ofInt 7), ("profile", .arr [.str "host", .str "cloud"]),
          ("values", .arr [.str "v4", .str "v4", .str "v6"])]), ("port", .obj [])])] := by
  have hendpoint : (Json.obj endpoint).WellFormed := by
    simp [endpoint, Json.WellFormed, Json.WellFormedFields, Json.WellFormedItems, Json.ofInt]
  exact ⟨hendpoint, (MergeRule.fill.ignoring ["extends"]).apply_merges device hendpoint⟩

end MergeRule

end EventSchema
