import EventSchema.Proofs.Edits
import Mathlib.Data.List.Perm.Subperm

/-!
# Rendered copies

A rendered copy has the fields of a definition without its references to files and its key; among
its attributes the references are missing, too.  A copy over a definition that is the same document
already leaves that in place, so what is shown may have its fields in another order.

Main results:

- {lit}`Definition.withoutDirectives_eq`: the fields of a rendered copy, one by one.
- {lit}`Definition.same_of_changes_eq_nil`: a copy without changes is the same document.
- {lit}`Definition.Renders.get?_eq_some_iff`: a copy shows texts and integers as they are.
-/

namespace EventSchema

namespace Fields

/-- What is found is one of the fields. -/
theorem mem_of_get?_eq_some {fields : Fields} {key : String} {value : Json}
    (h : Fields.get? fields key = some value) : (key, value) ∈ fields := by
  induction fields with
  | nil => cases h
  | cons e rest ih =>
    rcases e with ⟨k, v⟩
    rw [get?_cons] at h
    split at h
    · rename_i hkey
      cases h
      exact hkey ▸ List.mem_cons_self
    · exact List.mem_cons_of_mem _ (ih h)

/-- Nothing is found exactly under keys that are not there. -/
theorem get?_eq_none_iff {fields : Fields} {key : String} :
    Fields.get? fields key = none ↔ key ∉ Fields.keys fields := by
  induction fields with
  | nil => simp [keys]
  | cons e rest ih =>
    rcases e with ⟨k, v⟩
    rw [get?_cons]
    by_cases hkey : key = k
    · simp [hkey, keys]
    · simpa [hkey, keys] using ih

/-- Among distinct fields each is found. -/
theorem get?_eq_some_iff_mem {fields : Fields} (h : (Fields.keys fields).Nodup) {key : String}
    {value : Json} : Fields.get? fields key = some value ↔ (key, value) ∈ fields := by
  refine ⟨mem_of_get?_eq_some, fun hmem => ?_⟩
  induction fields with
  | nil => cases hmem
  | cons e rest ih =>
    rcases e with ⟨k, v⟩
    rcases List.nodup_cons.1 h with ⟨hnew, hrest⟩
    rw [get?_cons]
    rcases List.mem_cons.1 hmem with heq | hrestmem
    · cases heq
      simp
    · have hne : key ≠ k := by
        rintro rfl
        exact hnew (List.mem_map.2 ⟨_, hrestmem, rfl⟩)
      rw [if_neg hne]
      exact ih hrest hrestmem

/-- To map fields to themselves changes nothing. -/
theorem map_eq_self {fields : Fields} {f : String × Json → String × Json}
    (h : ∀ e ∈ fields, f e = e) : fields.map f = fields := by
  calc fields.map f = fields.map id := List.map_congr_left h
    _ = fields := List.map_id fields

/-- Setting a field among distinct keys replaces one value. -/
theorem set_eq_map {fields : Fields} (h : (Fields.keys fields).Nodup) {key : String}
    (hkey : key ∈ Fields.keys fields) (value : Json) :
    Fields.set key value fields = fields.map fun e => if e.1 = key then (e.1, value) else e := by
  induction fields with
  | nil => cases hkey
  | cons e rest ih =>
    rcases e with ⟨k, v⟩
    rcases List.nodup_cons.1 h with ⟨hnew, hrest⟩
    by_cases heq : k = key
    · subst heq
      have hkept : rest.map (fun e => if e.1 = k then (e.1, value) else e) = rest := by
        refine map_eq_self fun e he => if_neg fun hk => hnew ?_
        exact List.mem_map.2 ⟨e, he, hk⟩
      simp [set, hkept]
    · have hmem : key ∈ Fields.keys rest := by
        rcases List.mem_cons.1 hkey with hhead | hmem
        · exact absurd hhead.symm heq
        · exact hmem
      simp [set, heq, ih hrest hmem]

/-- Leaving out other keys does not matter to a key. -/
theorem get?_filter_keys (p : String → Bool) (fields : Fields) {key : String}
    (h : p key = true) :
    Fields.get? (fields.filter fun e => p e.1) key = Fields.get? fields key := by
  induction fields with
  | nil => rfl
  | cons e rest ih =>
    rcases e with ⟨k, v⟩
    rw [List.filter_cons, get?_cons]
    by_cases hkey : key = k
    · subst hkey
      simp [h, get?_cons]
    · rw [if_neg hkey]
      split
      · rw [get?_cons, if_neg hkey, ih]
      · exact ih

/-- Changing the values of fields changes the value under each key. -/
theorem get?_map_values (f : String → Json → Json) (fields : Fields) (key : String) :
    Fields.get? (fields.map fun e => (e.1, f e.1 e.2)) key =
      (Fields.get? fields key).map (f key) := by
  induction fields with
  | nil => rfl
  | cons e rest ih =>
    rcases e with ⟨k, v⟩
    rw [List.map_cons, get?_cons, get?_cons, ih]
    by_cases hkey : key = k
    · simp [hkey]
    · simp [hkey]

end Fields

namespace Json

/-- A value without the references to files that it holds itself. -/
def withoutInclude : Json → Json
  | .obj fields => .obj (fields.filter fun e => e.1 != Definition.includeKey)
  | value => value

/-- Only objects have an include to drop. -/
theorem withoutInclude_of_obj?_eq_none {value : Json} (h : value.obj? = none) :
    value.withoutInclude = value := by
  cases value with
  | obj fields => cases h
  | _ => rfl

/-- A value that is the same as no other one. -/
def IsExact (value : Json) : Prop :=
  ∀ other : Json, (other.same value = true ↔ other = value) ∧
    (value.same other = true ↔ other = value)

/-- Texts are exact. -/
theorem isExact_str (text : String) : (Json.str text).IsExact := by
  intro other
  cases other with
  | str other =>
    simp only [same, beq_iff_eq, Json.str.injEq]
    exact ⟨trivial, eq_comm⟩
  | _ => simp [same]

/-- Whole numbers are exact. -/
theorem isExact_ofInt (n : Int) : (Json.ofInt n).IsExact := by
  intro other
  unfold ofInt
  cases other with
  | num m =>
    cases m with
    | int m =>
      simp only [same, Number.same, beq_iff_eq, Json.num.injEq, Number.int.injEq]
      exact ⟨trivial, eq_comm⟩
    | real m => simp [same, Number.same]
  | _ => simp [same]

/-- Null is no object. -/
theorem obj?_of_isNull {value : Json} (h : value.isNull = true) : value.obj? = none := by
  cases value with
  | null => rfl
  | _ => cases h

end Json

namespace Definition

/-! ## The fields of a copy -/

/-- The fields of a rendered copy: without references and key, attributes without references. -/
def renderedFields (d : Definition) : Fields :=
  (d.fields.filter fun e => e.1 != includeKey && e.1 != keyKey).map fun e =>
    if e.1 = attributesKey then (e.1, e.2.withoutInclude) else e

/-- What is found in a definition is one of its fields. -/
theorem fields_get?_of_get? {d : Definition} {key : String} {value : Json}
    (h : d.get? key = some value) : Fields.get? d.fields key = some value :=
  (Option.filter_eq_some_iff.1 h).1

/-- The attributes are one of the fields. -/
theorem fields_get?_of_attributes? {d : Definition} {attributes : Fields}
    (h : d.attributes? = some attributes) :
    Fields.get? d.fields attributesKey = some (.obj attributes) := by
  rcases Option.bind_eq_some_iff.1 h with ⟨value, hvalue, hobj⟩
  cases value with
  | obj fields =>
    cases hobj
    exact fields_get?_of_get? hvalue
  | _ => cases hobj

/-- Without attributes there is no include to drop from them. -/
theorem map_fields_of_attributes?_eq_none {d : Definition} (h : d.Distinct)
    (hattributes : d.attributes? = none) :
    (d.fields.map fun e => if e.1 = attributesKey then (e.1, e.2.withoutInclude) else e) =
      d.fields := by
  apply Fields.map_eq_self
  intro e he
  split
  · rename_i hkey
    have hget : Fields.get? d.fields attributesKey = some e.2 :=
      (Fields.get?_eq_some_iff_mem h).2 (hkey ▸ he)
    have hobj : e.2.obj? = none := by
      by_cases hnull : e.2.isNull = true
      · exact Json.obj?_of_isNull hnull
      · simpa [attributes?, get?, hget, hnull] using hattributes
    rw [Json.withoutInclude_of_obj?_eq_none hobj]
  · rfl

/-- To drop an include from the attributes is to set them. -/
theorem map_fields_of_attributes? {d : Definition} (h : d.Distinct) {attributes : Fields}
    (hattributes : d.attributes? = some attributes) :
    (d.fields.map fun e => if e.1 = attributesKey then (e.1, e.2.withoutInclude) else e) =
      Fields.set attributesKey (Json.obj attributes).withoutInclude d.fields := by
  have hget : Fields.get? d.fields attributesKey = some (.obj attributes) :=
    fields_get?_of_attributes? hattributes
  have hkey : attributesKey ∈ Fields.keys d.fields :=
    List.mem_map.2 ⟨_, Fields.mem_of_get?_eq_some hget, rfl⟩
  rw [Fields.set_eq_map h hkey]
  apply List.map_congr_left
  intro e he
  split
  · rename_i heq
    have hvalue : Fields.get? d.fields attributesKey = some e.2 :=
      (Fields.get?_eq_some_iff_mem h).2 (heq ▸ he)
    rw [hget] at hvalue
    rw [← Option.some.inj hvalue]
  · rfl

/-- The fields of a rendered copy, one by one. -/
theorem withoutDirectives_eq {d : Definition} (h : d.Distinct) :
    d.withoutDirectives = ⟨d.renderedFields⟩ := by
  have hplain := (h.erase includeKey).erase keyKey
  have hfields : ((d.erase includeKey).erase keyKey).fields =
      d.fields.filter fun e => e.1 != includeKey && e.1 != keyKey := by
    simp only [erase, Fields.erase, List.filter_filter, Bool.and_comm]
  unfold withoutDirectives renderedFields
  dsimp only
  rw [← hfields]
  generalize (d.erase includeKey).erase keyKey = plain at hplain
  cases hattributes : plain.attributes? with
  | none => rw [map_fields_of_attributes?_eq_none hplain hattributes]
  | some attributes =>
    rw [map_fields_of_attributes? hplain hattributes]
    rfl

/-- A copy changes the values of the fields that it keeps. -/
theorem renderedFields_eq (d : Definition) :
    d.renderedFields = (d.fields.filter fun e => e.1 != includeKey && e.1 != keyKey).map fun e =>
      (e.1, if e.1 = attributesKey then e.2.withoutInclude else e.2) := by
  refine List.map_congr_left fun e _ => ?_
  split <;> rfl

/-- A copy keeps all fields but the references and the key, the attributes without references. -/
theorem get?_renderedFields (d : Definition) {key : String} (hinclude : key ≠ includeKey)
    (hkey : key ≠ keyKey) :
    Fields.get? d.renderedFields key = (Fields.get? d.fields key).map fun value =>
      if key = attributesKey then value.withoutInclude else value := by
  have hkept : (key != includeKey && key != keyKey) = true := by simp [hinclude, hkey]
  rw [renderedFields_eq, Fields.get?_map_values fun key value =>
    if key = attributesKey then value.withoutInclude else value]
  rw [Fields.get?_filter_keys (fun key => key != includeKey && key != keyKey) d.fields hkept]

/-- A copy keeps all other fields as they are. -/
theorem get?_renderedFields_of_ne (d : Definition) {key : String} (hinclude : key ≠ includeKey)
    (hkey : key ≠ keyKey) (hattributes : key ≠ attributesKey) :
    Fields.get? d.renderedFields key = Fields.get? d.fields key := by
  rw [d.get?_renderedFields hinclude hkey]
  simp [hattributes]

/-! ## Copies over definitions -/

/-- Fields are the same if each is found on the other side with the same value. -/
theorem sameFields_iff {left : Fields} {right : List (String × Json)} :
    Json.sameFields left right = true ↔
      ∀ e ∈ left, ∃ b, Fields.get? right e.1 = some b ∧ e.2.same b = true := by
  induction left with
  | nil => simp [Json.sameFields]
  | cons e rest ih =>
    rcases e with ⟨key, a⟩
    rw [Json.sameFields, Bool.and_eq_true, ih, List.forall_mem_cons]
    refine and_congr_left fun _ => ?_
    cases Fields.get? right key <;> simp

/-- Definitions are the same if they have equally many fields, each with the same value. -/
theorem same_iff {d copy : Definition} :
    d.same copy = true ↔ d.fields.length = copy.fields.length ∧
      ∀ e ∈ d.fields, ∃ b, Fields.get? copy.fields e.1 = some b ∧ e.2.same b = true := by
  rw [same, toJson, toJson, Json.same, Bool.and_eq_true, beq_iff_eq, sameFields_iff]

/-- A definition that has every value of a copy, and no other fields, is the same document. -/
theorem same_of_values {d copy : Definition} (hd : d.Distinct) (hcopy : copy.Distinct)
    (hkept : ∀ key ∈ Fields.keys d.fields, key ∈ Fields.keys copy.fields)
    (hvalue : ∀ e ∈ copy.fields, ∃ a, Fields.get? d.fields e.1 = some a ∧ a.same e.2 = true) :
    d.same copy = true := by
  refine same_iff.2 ⟨?_, fun e he => ?_⟩
  · have hperm : (Fields.keys d.fields).Perm (Fields.keys copy.fields) := by
      refine (List.perm_ext_iff_of_nodup hd hcopy).2 fun key => ⟨hkept key, fun hkey => ?_⟩
      rcases List.mem_map.1 hkey with ⟨e, he, rfl⟩
      rcases hvalue e he with ⟨a, ha, -⟩
      exact List.mem_map.2 ⟨_, Fields.mem_of_get?_eq_some ha, rfl⟩
    simpa [Fields.keys] using hperm.length_eq
  · rcases List.mem_map.1 (hkept _ (List.mem_map_of_mem he)) with ⟨other, hother, hkey⟩
    rcases hvalue other hother with ⟨a, ha, hsame⟩
    rw [hkey, (Fields.get?_eq_some_iff_mem hd).2 he] at ha
    refine ⟨other.2, ?_, Option.some.inj ha ▸ hsame⟩
    exact (Fields.get?_eq_some_iff_mem hcopy).2 (hkey ▸ hother)

/-- A copy without changes over a definition is the same document. -/
theorem same_of_changes_eq_nil {d source : Definition} (hd : d.Distinct)
    (hsource : source.withoutDirectives.Distinct) (h : (d.copyRendered source).changes = []) :
    d.same source.withoutDirectives = true := by
  rcases List.append_eq_nil_iff.1 h with ⟨hdiffering, hgone⟩
  rw [differingKeys, List.map_eq_nil_iff, List.filter_eq_nil_iff] at hdiffering
  rw [List.map_eq_nil_iff, List.filter_eq_nil_iff] at hgone
  apply same_of_values hd hsource
  · intro key hkey
    have hcontains := hgone key hkey
    rw [Fields.contains_eq_isSome_get?] at hcontains
    refine Decidable.byContradiction fun hnot => hcontains ?_
    rw [Fields.get?_eq_none_iff.2 hnot]
    rfl
  · intro e he
    have hcurrent := hdiffering e he
    cases hget : Fields.get? d.fields e.1 with
    | none => simp [hget] at hcurrent
    | some a =>
      refine ⟨a, rfl, ?_⟩
      simpa [hget, bne, BEq.beq] using hcurrent

/-- The same documents have the same keys. -/
theorem keys_perm_of_same {d copy : Definition} (hd : d.Distinct) (h : d.same copy = true) :
    (Fields.keys d.fields).Perm (Fields.keys copy.fields) := by
  rcases same_iff.1 h with ⟨hlength, hvalues⟩
  have hsub : Fields.keys d.fields ⊆ Fields.keys copy.fields := by
    intro key hkey
    rcases List.mem_map.1 hkey with ⟨e, he, rfl⟩
    rcases hvalues e he with ⟨b, hb, -⟩
    exact List.mem_map.2 ⟨_, Fields.mem_of_get?_eq_some hb, rfl⟩
  refine (List.subperm_of_subset hd hsub).perm_of_length_le ?_
  simpa [Fields.keys] using Nat.le_of_eq hlength.symm

/-- A value of a document has the same value in every document that is the same. -/
theorem exists_get?_of_same {d copy : Definition} (hd : d.Distinct) (h : d.same copy = true)
    {key : String} {value : Json} (hget : Fields.get? copy.fields key = some value) :
    ∃ before, Fields.get? d.fields key = some before ∧ before.same value = true := by
  have hmem : key ∈ Fields.keys copy.fields :=
    List.mem_map.2 ⟨_, Fields.mem_of_get?_eq_some hget, rfl⟩
  rcases List.mem_map.1 ((keys_perm_of_same hd h).mem_iff.2 hmem) with ⟨e, he, rfl⟩
  rcases (same_iff.1 h).2 e he with ⟨b, hb, hsame⟩
  cases hb.symm.trans hget
  exact ⟨e.2, (Fields.get?_eq_some_iff_mem hd).2 he, hsame⟩

/-- A field that one document lacks is missing from every document that is the same. -/
theorem get?_eq_none_of_same {d copy : Definition} (h : d.same copy = true) {key : String}
    (hnone : Fields.get? copy.fields key = none) : Fields.get? d.fields key = none := by
  cases hget : Fields.get? d.fields key with
  | none => rfl
  | some value =>
    rcases (same_iff.1 h).2 _ (Fields.mem_of_get?_eq_some hget) with ⟨b, hb, -⟩
    cases hnone.symm.trans hb

/-- The same documents have the same exact values. -/
theorem get?_eq_some_iff_of_same {d copy : Definition} (hd : d.Distinct)
    (h : d.same copy = true) {key : String} {value : Json} (hvalue : value.IsExact) :
    Fields.get? d.fields key = some value ↔ Fields.get? copy.fields key = some value := by
  rcases same_iff.1 h with ⟨-, hvalues⟩
  constructor
  · intro hget
    rcases hvalues _ (Fields.mem_of_get?_eq_some hget) with ⟨b, hb, hsame⟩
    rw [← (hvalue b).2.1 hsame]
    exact hb
  · intro hget
    rcases exists_get?_of_same hd h hget with ⟨before, hbefore, hsame⟩
    rw [← (hvalue before).1.1 hsame]
    exact hbefore

/-! ## What is shown of a definition -/

/-- The rendered copy of a definition, perhaps with its fields in another order. -/
def Renders (shown d : Definition) : Prop :=
  shown = ⟨d.renderedFields⟩ ∨ shown.same ⟨d.renderedFields⟩ = true

/-- A copy shows exact values as they are, except for what only the compiler reads. -/
theorem Renders.get?_eq_some_iff {shown d : Definition} (h : shown.Renders d)
    (hshown : shown.Distinct) {key : String} (hinclude : key ≠ includeKey) (hkey : key ≠ keyKey)
    (hattributes : key ≠ attributesKey) {value : Json} (hvalue : value.IsExact) :
    Fields.get? shown.fields key = some value ↔ Fields.get? d.fields key = some value := by
  rw [← d.get?_renderedFields_of_ne hinclude hkey hattributes]
  rcases h with rfl | hsame
  · rfl
  · exact get?_eq_some_iff_of_same hshown hsame hvalue

/-- A text is read where a field holds one. -/
theorem text?_eq_some_iff {d : Definition} {key text : String} :
    d.text? key = some text ↔ Fields.get? d.fields key = some (.str text) := by
  constructor
  · intro h
    rcases Option.bind_eq_some_iff.1 h with ⟨value, hvalue, htext⟩
    cases value with
    | str other =>
      cases htext
      exact fields_get?_of_get? hvalue
    | _ => cases htext
  · intro h
    rw [text?, get?, h]
    rfl

/-- A copy shows the texts of a definition. -/
theorem Renders.text?_eq {shown d : Definition} (h : shown.Renders d) (hshown : shown.Distinct)
    {key : String} (hinclude : key ≠ includeKey) (hkey : key ≠ keyKey)
    (hattributes : key ≠ attributesKey) : shown.text? key = d.text? key := by
  ext text
  rw [text?_eq_some_iff, text?_eq_some_iff]
  exact h.get?_eq_some_iff hshown hinclude hkey hattributes (Json.isExact_str text)

end Definition

end EventSchema
