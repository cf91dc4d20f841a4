import EventSchema.Proofs.SettledPlanners

/-!
# Exact references

The type of an attribute may name an object.  A first planner replaces the names of objects
out of extensions by their keys; a second one makes references of all types that are keys.  The
second one looks at the draft that the first one has left, in which the objects have the keys and
captions that they had before.

The object that a type stands for can be told from the draft alone.  If each type of a definition
stands for an object, both planners together turn each of these attributes into a reference to the
key of that object, and leave everything else in the definition as it was.  If some type stands for
nothing, the second operation on the definition fails before anything is written, and so the
definition is never half a definition with references.

Main results:

- {lit}`Definition.at?_editTyped`: an edit of types reaches nothing but attributes.
- {lit}`Operation.get?_runAll_of_alone`, {lit}`Operation.failed_runAll_of_alone`: what comes of an
  operation that reads nothing but its target.
- {lit}`Planner.referredKey?_eq_ite`: what a type stands for is the key that it is renamed to.
- {lit}`Planner.runAll_prefixTypes`, {lit}`Planner.runAll_setObjectTypes`,
  {lit}`Planner.failed_setObjectTypes`: what each of the planners leaves of a definition.
- {lit}`Planner.getElem?_objectCaptions_runAll`: objects keep their keys and captions.
- {lit}`Planner.references_are_exact`: both planners in turn.
-/

namespace EventSchema

open Std

namespace Definition

/-! ## Attributes under an edit of types -/

/-- The path of an attribute; an entry of the dictionary is an attribute itself. -/
def attributePath (kind : Kind) (name : String) : FieldPath :=
  if kind = .dictionary then [] else [attributesKey, name]

/-- An edit of types is carried out on each body that states one. -/
theorem typed?_editTyped (d : Definition) (kind : Kind) (edit : Fields → Fields × List FieldPath)
    (name : String) :
    (d.editTyped kind edit).definition.typed? kind name =
      (d.typed? kind name).map fun body => (edit body).1 := by
  unfold editTyped typed?
  by_cases hkind : kind = .dictionary
  · simp only [hkind, if_true, Option.map_some]
  · simp only [hkind, if_false, attribute?_editAttributes]

/-- An edit of attributes leaves a value alone if it does so with the attribute that it is. -/
theorem objectAfter_eq_self {d : Definition} {attributes : Fields}
    (hattributes : d.attributes? = some attributes) {name : String} {value : Json}
    (hvalue : Fields.get? attributes name = some value) {edit : Fields → Fields × List FieldPath}
    (h : ∀ body, d.attribute? name = some body → (edit body).1 = body) :
    objectAfter (fun body => if isDirective name then (body, []) else edit body) value = value := by
  cases value with
  | obj body =>
    cases hplain : isDirective name with
    | true => rfl
    | false =>
      have hbody := attribute?_eq_some_iff.2 ⟨hplain, attributes, hattributes, hvalue⟩
      simp [objectAfter, h body hbody]
  | _ => rfl

/-- An edit that leaves each attribute alone leaves the definition alone. -/
theorem definition_editTyped_eq_self {d : Definition} (hd : d.WellFormed) {kind : Kind}
    {edit : Fields → Fields × List FieldPath}
    (h : ∀ name body, d.typed? kind name = some body → (edit body).1 = body) :
    (d.editTyped kind edit).definition = d := by
  unfold editTyped
  unfold typed? at h
  by_cases hkind : kind = .dictionary
  · simp only [hkind, if_true] at h ⊢
    rw [h "" d.fields rfl]
  · simp only [hkind, if_false] at h ⊢
    refine definition_editSlots_eq_self fun attributes hattributes => ?_
    have hdistinct := (Json.wellFormed_obj_iff.1 (hd.obj?_get? hattributes)).1
    rw [editObjects_fst]
    conv_rhs => rw [← List.map_id attributes]
    refine List.map_congr_left fun e he => Prod.ext rfl ?_
    exact objectAfter_eq_self hattributes ((Fields.get?_eq_some_iff_mem hdistinct).2 he) (h e.1)

/-- If an edit of types changes nothing as a document, it changes nothing. -/
theorem definition_editTyped_eq_self_of_same {d : Definition} (hd : d.WellFormed) {kind : Kind}
    {edit : Fields → Fields × List FieldPath}
    (hedit : ∀ body, (edit body).1 = body ∨ typeOf? (edit body).1 ≠ typeOf? body)
    (h : d.same (d.editTyped kind edit).definition = true) :
    (d.editTyped kind edit).definition = d := by
  refine definition_editTyped_eq_self hd fun name body hbody => ?_
  refine (hedit body).resolve_right fun hne => hne ?_
  have hobjects := sameObjects_typed? hd h kind name
  rw [typed?_editTyped, hbody] at hobjects
  exact hobjects.typeOf?_eq.symm

/-- Give the type of an attribute a new name. -/
def renameType (renames : ExtTreeMap String String) (body : Fields) : Fields × List FieldPath :=
  match (typeOf? body).bind (renames[·]?) with
  | some key => (Fields.set typeKey (.str key) body, [[typeKey]])
  | none => (body, [])

/-- To prefix types is to rename them one by one. -/
theorem prefixTypes_eq_editTyped (d : Definition) (kind : Kind)
    (renames : ExtTreeMap String String) :
    d.prefixTypes kind renames = d.editTyped kind (renameType renames) := rfl

/-- A type without another name stays. -/
theorem renameType_eq_self {renames : ExtTreeMap String String} {body : Fields}
    (h : ∀ type, typeOf? body = some type → renames[type]? = none) :
    (renameType renames body).1 = body := by
  have hnone : (typeOf? body).bind (renames[·]?) = none := Option.bind_eq_none_iff.2 h
  simp only [renameType, hnone]

/-- A type with another name gets it. -/
theorem renameType_of_getElem? {renames : ExtTreeMap String String} {body : Fields}
    {type key : String} (htype : typeOf? body = some type) (hkey : renames[type]? = some key) :
    (renameType renames body).1 = Fields.set typeKey (.str key) body := by
  simp only [renameType, htype, Option.bind_some, hkey]

/-- A new name that is not the old one is seen. -/
theorem renameType_cases {renames : ExtTreeMap String String}
    (h : ∀ type key : String, renames[type]? = some key → key ≠ type) (body : Fields) :
    (renameType renames body).1 = body ∨
      typeOf? (renameType renames body).1 ≠ typeOf? body := by
  cases hkey : (typeOf? body).bind (renames[·]?) with
  | none => exact .inl (by simp only [renameType, hkey])
  | some key =>
    obtain ⟨type, htype, hrename⟩ := Option.bind_eq_some_iff.1 hkey
    right
    rw [renameType_of_getElem? htype hrename, typeOf?_set_typeKey, htype]
    exact fun heq => h type key hrename (Option.some.inj heq)

/-- A primitive type makes no reference. -/
theorem makeReference_eq_self {objects : ExtTreeMap String (Option String)} {body : Fields}
    (h : ∀ type, typeOf? body = some type → isPrimitive type = true) :
    (makeReference objects body).1 = body := by
  unfold makeReference
  cases htype : typeOf? body with
  | none => rfl
  | some type => simp only [h type htype, if_true]

/-- The type of an object becomes a reference to it. -/
theorem makeReference_of_getElem? {objects : ExtTreeMap String (Option String)} {body : Fields}
    {type : String} (htype : typeOf? body = some type) (hprimitive : isPrimitive type = false)
    {caption : Option String} (hcaption : objects[type]? = some caption) :
    (makeReference objects body).1 = refer type caption body := by
  simp only [makeReference, htype, hprimitive, hcaption, Bool.false_eq_true, if_false]

/-- A type that has become a reference is another one. -/
theorem makeReference_cases (objects : ExtTreeMap String (Option String)) (body : Fields) :
    (makeReference objects body).1 = body ∨
      typeOf? (makeReference objects body).1 ≠ typeOf? body := by
  by_cases h : ∀ type, typeOf? body = some type → isPrimitive type = true
  · exact .inl (makeReference_eq_self h)
  · push Not at h
    obtain ⟨type, htype, hprimitive⟩ := h
    replace hprimitive : isPrimitive type = false := Bool.eq_false_iff.2 hprimitive
    cases hcaption : objects[type]? with
    | none =>
      left
      simp only [makeReference, htype, hprimitive, hcaption, Bool.false_eq_true, if_false]
    | some caption =>
      right
      rw [makeReference_of_getElem? htype hprimitive hcaption, typeOf?_refer, htype]
      rintro heq
      rw [← Option.some.inj heq, isPrimitive_objectType] at hprimitive
      cases hprimitive

/-- What is neither on the way to an attribute nor inside of one stays as it is. -/
theorem at?_editTyped {d : Definition} (hd : d.WellFormed) {kind : Kind}
    (edit : Fields → Fields × List FieldPath) {path : FieldPath}
    (h : ∀ name body, d.typed? kind name = some body →
      ¬ attributePath kind name <+: path ∧ ¬ path <+: attributePath kind name) :
    (d.editTyped kind edit).definition.toJson.at? path = d.toJson.at? path := by
  by_cases hkind : kind = .dictionary
  · have hroot := (h "" d.fields (by rw [typed?, if_pos hkind])).1
    rw [attributePath, if_pos hkind] at hroot
    exact absurd List.nil_prefix hroot
  have honly := d.attributesOnly_editTyped hkind edit
  by_cases hnone : ∀ name, d.typed? kind name = none
  · rw [definition_editTyped_eq_self hd fun name body hbody => by simp [hnone name] at hbody]
  · simp only [not_forall, ← ne_eq, Option.ne_none_iff_exists'] at hnone
    obtain ⟨name, body, hbody⟩ := hnone
    have hout := (h name body hbody).2
    simp only [attributePath, if_neg hkind] at h hout
    match path with
    | [] => exact absurd List.nil_prefix hout
    | key :: rest =>
      by_cases hkey : key = attributesKey
      · subst hkey
        match rest with
        | [] => exact absurd (by simp) hout
        | other :: rest =>
          have hother : d.attribute? other = none := by
            rw [Option.eq_none_iff_forall_not_mem]
            intro value hvalue
            exact (h other value (by rwa [typed?, if_neg hkind])).1 (by simp)
          rw [typed?, if_neg hkind] at hbody
          obtain ⟨-, attributes, hattributes, -⟩ := attribute?_eq_some_iff.1 hbody
          have hedited : Fields.get? (d.editTyped kind edit).definition.fields attributesKey =
              some (.obj (editObjects (fun name body =>
                if isDirective name then (body, []) else edit body) attributes).1) := by
            simp only [editTyped, if_neg hkind, editAttributes, editSlots, hattributes]
            exact Fields.get?_set_self _ _ _
          rw [toJson, toJson, Json.at?_cons, Json.at?_cons, hedited,
            fields_get?_of_attributes? hattributes, Option.bind_some, Option.bind_some,
            Json.at?_cons, Json.at?_cons, get?_editObjects]
          cases hvalue : Fields.get? attributes other with
          | none => rfl
          | some value =>
            rw [Option.map_some, objectAfter_eq_self hattributes hvalue]
            intro body hbody
            rw [hother] at hbody
            cases hbody
      · rw [toJson, toJson, Json.at?_cons, Json.at?_cons, honly.get? key hkey]

/-- A renamed body has the new name as its type. -/
theorem typeOf?_renameType (renames : ExtTreeMap String String) (body : Fields) :
    typeOf? (renameType renames body).1 =
      (typeOf? body).map fun type => (renames[type]?).getD type := by
  cases htype : typeOf? body with
  | none => rw [renameType_eq_self (by simp [htype]), htype, Option.map_none]
  | some type =>
    cases hkey : renames[type]? with
    | none =>
      have hkept : (renameType renames body).1 = body :=
        renameType_eq_self fun old hold => Option.some.inj (htype.symm.trans hold) ▸ hkey
      rw [hkept, htype, Option.map_some, hkey, Option.getD_none]
    | some key =>
      rw [renameType_of_getElem? htype hkey, typeOf?_set_typeKey, Option.map_some, hkey,
        Option.getD_some]

/-- To rename a type changes no other field. -/
theorem get?_renameType (renames : ExtTreeMap String String) (body : Fields) {field : String}
    (hfield : field ≠ typeKey) :
    Fields.get? (renameType renames body).1 field = Fields.get? body field := by
  unfold renameType
  split
  · exact Fields.get?_set_of_ne _ _ hfield
  · rfl

/-- An attribute refers to an object by its key and caption, and is otherwise as it was. -/
structure RefersTo (body before : Fields) (key : String) (caption : Option String) : Prop where
  stated : Fields.get? body typeKey = some (.str objectType)
  object : Fields.get? body "object_type" = some (.str key)
  named : ∀ text, caption = some text → Fields.get? body "object_name" = some (.str text)
  rest : ∀ field, field ≠ typeKey → field ≠ "object_type" →
    (field = "object_name" → caption = none) → Fields.get? body field = Fields.get? before field

/-- A reference refers to its object. -/
theorem refersTo_refer (key : String) (caption : Option String) (body : Fields) :
    RefersTo (refer key caption body) body key caption := by
  have hstated : Fields.get? (Fields.set "object_type" (.str key)
      (Fields.set typeKey (.str objectType) body)) typeKey = some (.str objectType) := by
    rw [Fields.get?_set_of_ne _ _ (by decide), Fields.get?_set_self]
  have hrest (field : String) (htype : field ≠ typeKey) (hobject : field ≠ "object_type") :
      Fields.get? (Fields.set "object_type" (.str key)
        (Fields.set typeKey (.str objectType) body)) field = Fields.get? body field := by
    rw [Fields.get?_set_of_ne _ _ hobject, Fields.get?_set_of_ne _ _ htype]
  cases caption with
  | none =>
    exact ⟨hstated, get?_refer key none body, by simp, fun field htype hobject _ =>
      hrest field htype hobject⟩
  | some text =>
    refine ⟨?_, get?_refer key (some text) body, ?_, fun field htype hobject hname => ?_⟩
    · exact (Fields.get?_set_of_ne _ _ (by decide)).trans hstated
    · rintro _ ⟨⟩
      exact Fields.get?_set_self _ _ _
    · have hne : field ≠ "object_name" := fun heq => Option.some_ne_none text (hname heq)
      exact (Fields.get?_set_of_ne _ _ hne).trans (hrest field htype hobject)

/-- A reference depends on the fields besides the type. -/
theorem RefersTo.of_rest {body middle before : Fields} {key : String} {caption : Option String}
    (h : RefersTo body middle key caption)
    (hrest : ∀ field, field ≠ typeKey → Fields.get? middle field = Fields.get? before field) :
    RefersTo body before key caption :=
  ⟨h.stated, h.object, h.named, fun field htype hobject hname =>
    (h.rest field htype hobject hname).trans (hrest field htype)⟩

end Definition

namespace Operation

/-! ## Operations that read their targets only -/

section

variable {ops : List Operation} {op : Operation} {draft : Draft} {options : Options}
  {d : Definition}

/-- Of operations on different locations, one that reads its target only finds it as it was. -/
theorem exists_run_of_alone (hops : ops.Pairwise fun a b => a.target ≠ b.target) (hop : op ∈ ops)
    (halone : op.prerequisites = []) (hintact : draft.failure? op.target = none) :
    ∃ seen : Draft, seen.SameAt draft op.target ∧
      (runAll options draft ops).SameAt (op.run seen options) op.target ∧
      op.outcome seen options = op.apply seen options ∧
      ⟨op, op.apply seen options⟩ ∈ trace options draft ops := by
  obtain ⟨before, after, hsplit, hrun, hseen⟩ := exists_split_sameAt_runAll hops hop options draft
  have houtcome : op.outcome (runAll options draft before) options =
      op.apply (runAll options draft before) options := by
    simp [outcome, blocked?, halone, hseen.failure, hintact]
  exact ⟨_, hseen, hrun, houtcome,
    mem_trace_iff.2 ⟨before, op, after, hsplit, by rw [houtcome]⟩⟩

/-- Such an operation brings its revision. -/
theorem get?_runAll_of_alone (hops : ops.Pairwise fun a b => a.target ≠ b.target) (hop : op ∈ ops)
    (halone : op.prerequisites = []) (hintact : draft.failure? op.target = none)
    (hd : draft.get? op.target = some d) {revision : Revision}
    (hedit : ∀ seen, op.edit seen options d = .ok revision)
    (hsame : revision.changes = [] ∨ d.same revision.definition = true → revision.definition = d) :
    (runAll options draft ops).get? op.target = some revision.definition ∧
      (runAll options draft ops).failure? op.target = none := by
  obtain ⟨seen, hseen, hrun, houtcome, -⟩ := exists_run_of_alone hops hop halone hintact
  have hthere := hseen.definition.trans hd
  rw [hrun.definition, hrun.failure, failure?_run, hseen.failure, hintact, Option.none_or,
    if_pos rfl]
  rw [get?_run_target, houtcome, apply_eq hthere (hedit seen)]
  by_cases hkept : (revision.changes.isEmpty || d.same revision.definition) = true
  · rw [if_pos hkept, hsame (by simpa using hkept)]
    exact ⟨hthere, rfl⟩
  · rw [if_neg hkept]
    exact ⟨rfl, rfl⟩

/-- Such an operation leaves its target as it was if it fails. -/
theorem failed_runAll_of_alone (hops : ops.Pairwise fun a b => a.target ≠ b.target)
    (hop : op ∈ ops) (halone : op.prerequisites = []) (hintact : draft.failure? op.target = none)
    (hd : draft.get? op.target = some d) {cause : Failure}
    (hedit : ∀ seen, op.edit seen options d = .error cause) :
    ⟨op, .failed cause⟩ ∈ trace options draft ops ∧
      (runAll options draft ops).get? op.target = some d := by
  obtain ⟨seen, hseen, hrun, houtcome, htrace⟩ := exists_run_of_alone hops hop halone hintact
  have hthere := hseen.definition.trans hd
  have hfailed : op.apply seen options = .failed cause := by
    simp [apply, hthere, hedit seen, outcomeOf]
  refine ⟨hfailed ▸ htrace, ?_⟩
  rw [hrun.definition, get?_run_target, houtcome, hfailed]
  exact hthere

end

end Operation

namespace Planner

open Definition Operation

/-! ## Objects by their names and keys -/

/-- The key by which an object is referred to. -/
def objectKey (e : Location × Definition) : String := e.2.key?.getD e.1.name

/-- The name under which an object is declared. -/
def objectName (e : Location × Definition) : String := e.2.name?.getD e.1.name

/-- The objects out of extensions that are declared under a name and have another key. -/
def renamedObjects (draft : Draft) (name : String) : List (Location × Definition) :=
  (draft.core [.object]).filter fun e =>
    objectName e == name && e.2.sourceExtension?.isSome && objectKey e != objectName e

/-- The key of the object that a type stands for: of an object that is declared under the type and
has another key, preferring an extension, else the type itself if it is a key. -/
def referredKey? (draft : Draft) (extension : Option String) (type : String) : Option String :=
  let renamed := renamedObjects draft type
  (((renamed.find? fun e => e.2.sourceExtension? == extension).or renamed.head?).map objectKey).or
    (if type ∈ (draft.core [.object]).map objectKey then some type else none)

/-- A table from some texts, each with its value if it has one. -/
theorem getElem?_ofList_filterMap {α : Type} (texts : List String) (table : String → Option α)
    (text : String) :
    (ExtTreeMap.ofList (texts.filterMap fun t => (table t).map (t, ·)))[text]? =
      if text ∈ texts then table text else none := by
  have hinsert (entries : ExtTreeMap String α) :
      (entries.insertMany (texts.filterMap fun t => (table t).map (t, ·)))[text]? =
        (if text ∈ texts then table text else none).or entries[text]? := by
    induction texts generalizing entries with
    | nil => simp
    | cons first rest ih =>
      cases hfirst : table first with
      | none =>
        rw [List.filterMap_cons_none (by rw [hfirst]; rfl), ih]
        by_cases heq : text = first
        · simp [heq, hfirst]
        · simp [heq]
      | some value =>
        rw [List.filterMap_cons_some (by rw [hfirst]; rfl), ExtTreeMap.insertMany_cons, ih,
          ExtTreeMap.getElem?_insert]
        by_cases heq : text = first
        · by_cases hmem : first ∈ rest <;> simp [heq, hfirst, hmem]
        · have hne : compare first text ≠ .eq := fun h => heq (LawfulEqOrd.eq_of_compare h).symm
          simp [heq, hne]
  rw [ExtTreeMap.ofList_eq_insertMany_empty, hinsert, ExtTreeMap.getElem?_empty, Option.or_none]

section

variable {draft : Draft} {options : Options} {l : Location} {d : Definition}

/-- The objects out of extensions with other keys, as the planner takes them down. -/
theorem prefixedObjects_eq (draft : Draft) :
    prefixedObjects draft = ((draft.core [.object]).filter fun e =>
      e.2.sourceExtension?.isSome && objectKey e != objectName e).map fun e =>
        ⟨objectName e, e.2.sourceExtension?.getD "", objectKey e⟩ := by
  rw [← List.filterMap_eq_map, List.filterMap_filter, prefixedObjects]
  refine List.filterMap_congr fun e _ => ?_
  obtain ⟨l, d⟩ := e
  cases hextension : d.sourceExtension? with
  | none => simp [hextension]
  | some extension =>
    cases hkey : d.key? with
    | none =>
      have hname : d.name? = none := (Option.or_eq_none_iff.1 hkey).2
      simp [objectKey, objectName, hkey, hname]
    | some key =>
      by_cases heq : key = d.name?.getD l.name <;>
        simp [objectKey, objectName, hextension, hkey, heq]

/-- A type is prefixed for an object of the same extension, or the first that has been renamed. -/
theorem prefixedKey?_eq (draft : Draft) (extension : Option String) (type : String) :
    prefixedKey? (prefixedObjects draft) extension type =
      (((renamedObjects draft type).find? fun e => e.2.sourceExtension? == extension).or
        (renamedObjects draft type).head?).map objectKey := by
  have hcandidates : (prefixedObjects draft).filter (·.name == type) =
      (renamedObjects draft type).map fun e =>
        ⟨objectName e, e.2.sourceExtension?.getD "", objectKey e⟩ := by
    rw [prefixedObjects_eq, List.filter_map, List.filter_filter, renamedObjects]
    simp only [Bool.and_assoc]
    rfl
  have hfind : ((renamedObjects draft type).find? fun e =>
      some (e.2.sourceExtension?.getD "") == extension) =
        (renamedObjects draft type).find? fun e => e.2.sourceExtension? == extension := by
    refine List.find?_congr fun e he => ?_
    have hsome : e.2.sourceExtension?.isSome = true := by
      have hkept := (List.mem_filter.1 he).2
      simp only [Bool.and_eq_true] at hkept
      exact hkept.1.2
    obtain ⟨extension, hextension⟩ := Option.isSome_iff_exists.1 hsome
    rw [hextension, Option.getD_some]
  rw [prefixedKey?, hcandidates, List.find?_map, List.head?_map, ← Option.map_or, Option.map_map,
    ← hfind]
  rfl

/-- A type refers to a renamed object first, then to one under its own name. -/
theorem referredKey?_eq (draft : Draft) (extension : Option String) (type : String) :
    referredKey? draft extension type = (prefixedKey? (prefixedObjects draft) extension type).or
      (if type ∈ (draft.core [.object]).map objectKey then some type else none) := by
  rw [prefixedKey?_eq, referredKey?]

/-- A type is renamed to the key of an object that is declared under it, and is another one. -/
theorem exists_of_prefixedKey? {extension : Option String} {type key : String}
    (h : prefixedKey? (prefixedObjects draft) extension type = some key) :
    ∃ e ∈ draft.core [.object], objectName e = type ∧ objectKey e = key ∧ key ≠ type := by
  rw [prefixedKey?_eq] at h
  obtain ⟨e, he, rfl⟩ := Option.map_eq_some_iff.1 h
  have hmem : e ∈ renamedObjects draft type := by
    rcases Option.or_eq_some_iff.1 he with hfound | ⟨-, hhead⟩
    · exact List.mem_of_find?_eq_some hfound
    · exact List.mem_of_head? hhead
  obtain ⟨hcore, hkept⟩ := List.mem_filter.1 hmem
  simp only [Bool.and_eq_true, beq_iff_eq, bne_iff_ne, ne_eq] at hkept
  exact ⟨e, hcore, hkept.1.1, rfl, fun heq => hkept.2 (heq.trans hkept.1.1.symm)⟩

/-! ## Renaming -/

/-- The new names for the types of a definition. -/
def renamesFor (draft : Draft) (d : Definition) (kind : Kind) : ExtTreeMap String String :=
  ExtTreeMap.ofList ((d.types kind).filterMap fun type =>
    (prefixedKey? (prefixedObjects draft) d.sourceExtension? type).map (type, ·))

/-- The types of a definition are renamed where a prefixed key is found. -/
theorem getElem?_renamesFor (draft : Draft) (d : Definition) (kind : Kind) (type : String) :
    (renamesFor draft d kind)[type]? =
      if type ∈ d.types kind then prefixedKey? (prefixedObjects draft) d.sourceExtension? type
      else none :=
  getElem?_ofList_filterMap _ _ _

/-- A prefixed key is another than the type. -/
theorem ne_of_getElem?_renamesFor {kind : Kind} {type key : String}
    (h : (renamesFor draft d kind)[type]? = some key) : key ≠ type := by
  rw [getElem?_renamesFor] at h
  obtain ⟨-, hkey⟩ := Option.ite_none_right_eq_some.1 h
  obtain ⟨e, -, -, -, hne⟩ := exists_of_prefixedKey? hkey
  exact hne

/-- Planning from the entries of core, a planner acts on a definition or leaves it alone. -/
theorem mem_filterMap_core_or {kinds : List Kind}
    {plan : Location × Definition → Option Operation} {ops : List Operation}
    (hops : ops = (draft.core kinds).filterMap plan)
    (hplan : ∀ e op, plan e = some op → op.target = e.1) (hd : draft.get? l = some d)
    (hcore : l.isCore = true) (hkind : l.kind ∈ kinds) :
    (∃ op, plan (l, d) = some op ∧ op ∈ ops) ∨
      plan (l, d) = none ∧ ∀ op ∈ ops, op.target ≠ l := by
  subst hops
  cases hop : plan (l, d) with
  | some op =>
    have hmem := List.mem_filterMap.2 ⟨(l, d), Draft.mem_core.2 ⟨hd, hcore, hkind⟩, hop⟩
    exact .inl ⟨op, rfl, hmem⟩
  | none =>
    have hidle : ∀ e, (l, e) ∈ draft.core kinds → plan (l, e) = none :=
      (forall_mem_core_iff hd).2 fun _ _ => hop
    exact .inr ⟨rfl, (forall_target_ne_filterMap hplan).2 hidle⟩

/-- Prefixes are proposed for a definition unless it has no type to rename. -/
theorem mem_prefixTypes_or (hrenames : options.prefixExtensions = true)
    (hd : draft.get? l = some d) (hcore : l.isCore = true) (hkind : l.kind ∈ typedKinds) :
    ⟨l, .prefixTypes (renamesFor draft d l.kind)⟩ ∈ prefixTypes draft options ∨
      (∀ type ∈ d.types l.kind,
        prefixedKey? (prefixedObjects draft) d.sourceExtension? type = none) ∧
      ∀ op ∈ prefixTypes draft options, op.target ≠ l := by
  have hops : prefixTypes draft options = _ := if_neg (by rw [hrenames]; decide)
  refine (mem_filterMap_core_or hops (fun _ _ => target_eq_of_ite_none) hd hcore hkind).imp ?_ ?_
  · rintro ⟨op, hop, hmem⟩
    obtain ⟨-, hop⟩ := Option.ite_none_left_eq_some.1 hop
    cases hop
    exact hmem
  · rintro ⟨hnone, hidle⟩
    refine ⟨fun type htype => ?_, hidle⟩
    simp only [ite_eq_left_iff, reduceCtorEq, imp_false, not_not, List.isEmpty_iff] at hnone
    exact Option.map_eq_none_iff.1 (List.filterMap_eq_nil_iff.1 hnone type htype)

/-- Prefixes are proposed once for each location. -/
theorem pairwise_target_prefixTypes (draft : Draft) (options : Options) :
    (prefixTypes draft options).Pairwise fun a b => a.target ≠ b.target := by
  unfold prefixTypes
  split
  · exact .nil
  · exact pairwise_target_filterMap fun _ _ => target_eq_of_ite_none

/-- What the planner for names leaves of a definition whose types count. -/
theorem runAll_prefixTypes (hdraft : draft.WellFormed) (hintact : draft.failure? l = none)
    (hrenames : options.prefixExtensions = true) (hd : draft.get? l = some d)
    (hcore : l.isCore = true) (hkind : l.kind ∈ typedKinds) :
    (runAll options draft (prefixTypes draft options)).get? l =
        some (d.prefixTypes l.kind (renamesFor draft d l.kind)).definition ∧
      (runAll options draft (prefixTypes draft options)).failure? l = none := by
  have hwellFormed := hdraft l d hd
  rcases mem_prefixTypes_or hrenames hd hcore hkind with hop | ⟨hnone, hidle⟩
  · refine get?_runAll_of_alone (pairwise_target_prefixTypes draft options) hop rfl hintact hd
      (fun _ => rfl) ?_
    rintro (hchanges | hsame)
    · exact d.accountsFor_prefixTypes l.kind _ hchanges
    · refine definition_editTyped_eq_self_of_same hwellFormed ?_ hsame
      exact renameType_cases fun type key => ne_of_getElem?_renamesFor
  · have hkept := sameAt_runAll_of_forall_ne options hidle draft
    rw [hkept.definition, hkept.failure, hd, prefixTypes_eq_editTyped,
      definition_editTyped_eq_self hwellFormed]
    · exact ⟨rfl, hintact⟩
    · refine fun name body hbody => renameType_eq_self fun type htype => ?_
      have hmem := (mem_types_iff hwellFormed).2 ⟨name, body, hbody, htype⟩
      rw [getElem?_renamesFor, if_pos hmem, hnone type hmem]

/-- Prefixed types leave the key of an object. -/
theorem objectKey_prefixTypes (l : Location) (d : Definition)
    (renames : ExtTreeMap String String) :
    objectKey (l, (d.prefixTypes .object renames).definition) = objectKey (l, d) := by
  have honly : d.AttributesOnly (d.prefixTypes .object renames).definition :=
    d.attributesOnly_editTyped (by decide) _
  have hkey : (d.prefixTypes .object renames).definition.key? = d.key? := by
    rw [key?, key?, name?, name?, honly.text?_eq (by decide), honly.text?_eq (by decide)]
  simp only [objectKey, hkey]

/-- The objects in core are the same ones after types have been renamed. -/
theorem mem_objects_runAll_prefixTypes (hdraft : draft.WellFormed) (hintact : draft.Intact)
    (hrenames : options.prefixExtensions = true) :
    (l, d) ∈ (runAll options draft (prefixTypes draft options)).core [.object] ↔
      ∃ before, (l, before) ∈ draft.core [.object] ∧
        d = (before.prefixTypes .object (renamesFor draft before .object)).definition := by
  have hafter {before : Definition} (hbefore : (l, before) ∈ draft.core [.object]) :
      (runAll options draft (prefixTypes draft options)).get? l =
        some (before.prefixTypes .object (renamesFor draft before .object)).definition := by
    obtain ⟨hget, hcore, hkind⟩ := Draft.mem_core.1 hbefore
    rw [List.mem_singleton] at hkind
    rw [← hkind]
    exact (runAll_prefixTypes hdraft (hintact l) hrenames hget hcore (hkind ▸ by decide)).1
  constructor
  · intro hmem
    obtain ⟨hd, hcore, hkind⟩ := Draft.mem_core.1 hmem
    cases hbefore : draft.get? l with
    | some before =>
      have hmem := Draft.mem_core.2 ⟨hbefore, hcore, hkind⟩
      exact ⟨before, hmem, Option.some.inj (hd.symm.trans (hafter hmem))⟩
    | none =>
      have hidle : ∀ op ∈ prefixTypes draft options, op.target ≠ l := by
        unfold prefixTypes
        rw [hrenames, Bool.not_true, if_neg Bool.false_ne_true]
        refine (forall_target_ne_filterMap fun _ _ => target_eq_of_ite_none).2 fun d' hd' => ?_
        cases hbefore.symm.trans (Draft.mem_core.1 hd').1
      rw [(sameAt_runAll_of_forall_ne options hidle draft).definition, hbefore] at hd
      cases hd
  · rintro ⟨before, hmem, rfl⟩
    obtain ⟨-, hcore, hkind⟩ := Draft.mem_core.1 hmem
    exact Draft.mem_core.2 ⟨hafter hmem, hcore, hkind⟩

/-- The captions of the objects are known by their keys. -/
theorem getElem?_objectCaptions (hkeys : ((draft.core [.object]).map objectKey).Nodup)
    {key : String} {caption : Option String} :
    (objectCaptions draft)[key]? = some caption ↔
      ∃ e ∈ draft.core [.object], objectKey e = key ∧ e.2.caption? = caption := by
  rw [objectCaptions, Inheritance.getElem?_ofList_eq_some_iff, List.mem_map]
  · simp only [Prod.mk.injEq, objectKey]
  · refine List.pairwise_map.2 ((List.pairwise_map.1 hkeys).imp fun {a b} hne heq => ?_)
    exact hne (LawfulEqOrd.eq_of_compare heq)

/-- While types are renamed the objects keep their keys and captions. -/
theorem getElem?_objectCaptions_runAll (hdraft : draft.WellFormed) (hintact : draft.Intact)
    (hrenames : options.prefixExtensions = true)
    (hkeys : ((draft.core [.object]).map objectKey).Nodup) {key : String}
    {caption : Option String} :
    (objectCaptions (runAll options draft (prefixTypes draft options)))[key]? = some caption ↔
      ∃ e ∈ draft.core [.object], objectKey e = key ∧ e.2.caption? = caption := by
  have hcaption (d : Definition) (renames : ExtTreeMap String String) :
      (d.prefixTypes .object renames).definition.caption? = d.caption? :=
    (d.attributesOnly_editTyped (by decide) _).text?_eq (by decide)
  rw [getElem?_objectCaptions]
  · constructor
    · rintro ⟨⟨l, d⟩, hmem, rfl, rfl⟩
      obtain ⟨before, hbefore, rfl⟩ :=
        (mem_objects_runAll_prefixTypes hdraft hintact hrenames).1 hmem
      exact ⟨(l, before), hbefore, (objectKey_prefixTypes l before _).symm,
        (hcaption before _).symm⟩
    · rintro ⟨⟨l, before⟩, hbefore, rfl, rfl⟩
      exact ⟨_, (mem_objects_runAll_prefixTypes hdraft hintact hrenames).2 ⟨before, hbefore, rfl⟩,
        objectKey_prefixTypes l before _, hcaption before _⟩
  · have hinjective := List.inj_on_of_nodup_map hkeys
    refine List.pairwise_map.2 ((Draft.ordered_core _ [.object]).imp_of_mem ?_)
    rintro ⟨l, d⟩ ⟨l', d'⟩ hmem hmem' hlt heq
    obtain ⟨before, hbefore, rfl⟩ := (mem_objects_runAll_prefixTypes hdraft hintact hrenames).1 hmem
    obtain ⟨before', hbefore', rfl⟩ :=
      (mem_objects_runAll_prefixTypes hdraft hintact hrenames).1 hmem'
    rw [objectKey_prefixTypes, objectKey_prefixTypes] at heq
    cases hinjective hbefore hbefore' heq
    rw [ReflOrd.compare_self] at hlt
    cases hlt

/-- Prefixed types leave the keys of all objects. -/
theorem getElem?_objectCaptions_runAll_eq_none_iff (hdraft : draft.WellFormed)
    (hintact : draft.Intact) (hrenames : options.prefixExtensions = true)
    (hkeys : ((draft.core [.object]).map objectKey).Nodup) (key : String) :
    (objectCaptions (runAll options draft (prefixTypes draft options)))[key]? = none ↔
      key ∉ (draft.core [.object]).map objectKey := by
  simp only [Option.eq_none_iff_forall_ne_some, ne_eq,
    getElem?_objectCaptions_runAll hdraft hintact hrenames hkeys, List.mem_map]
  constructor
  · rintro h ⟨e, he, hkey⟩
    exact h e.2.caption? ⟨e, he, hkey, rfl⟩
  · rintro h caption ⟨e, he, hkey, -⟩
    exact h ⟨e, he, hkey⟩

/-! ## References -/

/-- The captions of the objects that a definition refers to. -/
def objectsFor (draft : Draft) (d : Definition) (kind : Kind) : ExtTreeMap String (Option String) :=
  ExtTreeMap.ofList (((d.types kind).filter fun type => !isPrimitive type).filterMap fun type =>
    (objectCaptions draft)[type]?.map (type, ·))

/-- The types of a definition have the captions of the objects of their name. -/
theorem getElem?_objectsFor (draft : Draft) (d : Definition) {kind : Kind} {type : String}
    (htype : type ∈ d.types kind) (hprimitive : isPrimitive type = false) :
    (objectsFor draft d kind)[type]? = (objectCaptions draft)[type]? := by
  rw [objectsFor, getElem?_ofList_filterMap, if_pos]
  exact List.mem_filter.2 ⟨htype, by rw [hprimitive]; rfl⟩

/-- References are proposed for a definition unless all its types are primitive. -/
theorem mem_setObjectTypes_or (hreferences : options.setObjectTypes = true)
    (hd : draft.get? l = some d) (hcore : l.isCore = true) (hkind : l.kind ∈ typedKinds) :
    ⟨l, .setObjectTypes (objectsFor draft d l.kind)⟩ ∈ setObjectTypes draft options ∨
      (∀ type ∈ d.types l.kind, isPrimitive type = true) ∧
      ∀ op ∈ setObjectTypes draft options, op.target ≠ l := by
  have hops : setObjectTypes draft options = _ := if_neg (by rw [hreferences]; decide)
  refine (mem_filterMap_core_or hops (fun _ _ => target_eq_of_ite_none) hd hcore hkind).imp ?_ ?_
  · rintro ⟨op, hop, hmem⟩
    obtain ⟨-, hop⟩ := Option.ite_none_left_eq_some.1 hop
    cases hop
    exact hmem
  · rintro ⟨hnone, hidle⟩
    refine ⟨fun type htype => ?_, hidle⟩
    simp only [ite_eq_left_iff, reduceCtorEq, imp_false, not_not, List.isEmpty_iff] at hnone
    simpa using List.filter_eq_nil_iff.1 hnone type htype

/-- What the planner for references leaves of a definition whose types are known. -/
theorem runAll_setObjectTypes (hdraft : draft.WellFormed) (hintact : draft.failure? l = none)
    (hreferences : options.setObjectTypes = true) (hd : draft.get? l = some d)
    (hcore : l.isCore = true) (hkind : l.kind ∈ typedKinds)
    (hknown : ∀ type ∈ d.types l.kind, isPrimitive type = false →
      (objectCaptions draft)[type]? ≠ none) :
    (runAll options draft (setObjectTypes draft options)).get? l =
      some (d.editTyped l.kind (makeReference (objectsFor draft d l.kind))).definition := by
  have hwellFormed := hdraft l d hd
  rcases mem_setObjectTypes_or hreferences hd hcore hkind with hop | ⟨hprimitive, hidle⟩
  · have hnone : ((d.types l.kind).find? fun type =>
        !isPrimitive type && !(objectsFor draft d l.kind).contains type) = none := by
      rw [List.find?_eq_none]
      intro type htype
      cases hprimitive : isPrimitive type with
      | true => simp
      | false =>
        have hsome := hknown type htype hprimitive
        rw [← getElem?_objectsFor draft d htype hprimitive] at hsome
        simpa using ExtTreeMap.mem_iff_isSome_getElem?.2 (Option.isSome_iff_ne_none.2 hsome)
    have hedit : d.setObjectTypes l.kind (objectsFor draft d l.kind) =
        .ok (d.editTyped l.kind (makeReference (objectsFor draft d l.kind))) := by
      rw [Definition.setObjectTypes, hnone]
      rfl
    refine (get?_runAll_of_alone (pairwise_target_setObjectTypes draft options) hop rfl hintact hd
      (fun _ => hedit) ?_).1
    rintro (hchanges | hsame)
    · exact accountsFor_setObjectTypes hedit hchanges
    · exact definition_editTyped_eq_self_of_same hwellFormed (makeReference_cases _) hsame
  · rw [(sameAt_runAll_of_forall_ne options hidle draft).definition, hd,
      definition_editTyped_eq_self hwellFormed]
    refine fun name body hbody => makeReference_eq_self fun type htype => ?_
    exact hprimitive type ((mem_types_iff hwellFormed).2 ⟨name, body, hbody, htype⟩)

/-- A definition with a type that is not known is left alone. -/
theorem failed_setObjectTypes (hintact : draft.failure? l = none)
    (hreferences : options.setObjectTypes = true) (hd : draft.get? l = some d)
    (hcore : l.isCore = true) (hkind : l.kind ∈ typedKinds) {type : String}
    (htype : type ∈ d.types l.kind) (hprimitive : isPrimitive type = false)
    (hunknown : (objectCaptions draft)[type]? = none) :
    ∃ unknown ∈ d.types l.kind, isPrimitive unknown = false ∧
      (objectCaptions draft)[unknown]? = none ∧
      ⟨⟨l, .setObjectTypes (objectsFor draft d l.kind)⟩, .failed (.unknownObjectType unknown)⟩ ∈
        trace options draft (setObjectTypes draft options) ∧
      (runAll options draft (setObjectTypes draft options)).get? l = some d := by
  rcases mem_setObjectTypes_or hreferences hd hcore hkind with hop | ⟨hall, -⟩
  · cases hfound : (d.types l.kind).find? fun type =>
        !isPrimitive type && !(objectsFor draft d l.kind).contains type with
    | none =>
      have hhere := List.find?_eq_none.1 hfound type htype
      rw [hprimitive, Bool.not_false, Bool.true_and, Bool.not_eq_true', Bool.not_eq_false,
        ExtTreeMap.contains_iff_mem, ExtTreeMap.mem_iff_isSome_getElem?,
        getElem?_objectsFor draft d htype hprimitive, hunknown] at hhere
      cases hhere
    | some unknown =>
      have hmem := List.mem_of_find?_eq_some hfound
      have hhere := List.find?_some hfound
      simp only [Bool.and_eq_true, Bool.not_eq_true'] at hhere
      have hedit : d.setObjectTypes l.kind (objectsFor draft d l.kind) =
          .error (.unknownObjectType unknown) := by
        rw [Definition.setObjectTypes, hfound]
      refine ⟨unknown, hmem, hhere.1, ?_, failed_runAll_of_alone
        (pairwise_target_setObjectTypes draft options) hop rfl hintact hd fun _ => hedit⟩
      rw [← getElem?_objectsFor draft d hmem hhere.1]
      exact ExtTreeMap.getElem?_eq_none_of_contains_eq_false hhere.2
  · rw [hall type htype] at hprimitive
    cases hprimitive

/-! ## Both in turn -/

/-- Each attribute whose type stands for an object refers to it; everything else is as it was. -/
structure ReferencesMade (draft : Draft) (kind : Kind) (before after : Definition) : Prop where
  made : ∀ name body type, before.typed? kind name = some body → typeOf? body = some type →
    isPrimitive type = false → ∃ e ∈ draft.core [.object],
      referredKey? draft before.sourceExtension? type = some (objectKey e) ∧
        ∃ edited, after.typed? kind name = some edited ∧
          RefersTo edited body (objectKey e) e.2.caption?
  kept : ∀ name body, before.typed? kind name = some body →
    (∀ type, typeOf? body = some type → isPrimitive type = true) →
      after.typed? kind name = some body
  rest : ∀ path, (∀ name body, before.typed? kind name = some body →
      ¬ attributePath kind name <+: path ∧ ¬ path <+: attributePath kind name) →
    after.toJson.at? path = before.toJson.at? path

/-- A type refers to its prefixed key, or itself, if there is such an object. -/
theorem referredKey?_eq_ite (draft : Draft) (extension : Option String) (type : String) :
    referredKey? draft extension type =
      if (prefixedKey? (prefixedObjects draft) extension type).getD type ∈
        (draft.core [.object]).map objectKey
      then some ((prefixedKey? (prefixedObjects draft) extension type).getD type) else none := by
  rw [referredKey?_eq]
  cases hkey : prefixedKey? (prefixedObjects draft) extension type with
  | none => simp only [Option.none_or, Option.getD_none]
  | some key =>
    obtain ⟨e, he, -, hobject, -⟩ := exists_of_prefixedKey? hkey
    rw [Option.some_or, Option.getD_some, if_pos (List.mem_map.2 ⟨e, he, hobject⟩)]

/-- A type refers to nothing if it is neither renamed nor an object. -/
theorem referredKey?_eq_none_iff {extension : Option String} {type : String} :
    referredKey? draft extension type = none ↔
      prefixedKey? (prefixedObjects draft) extension type = none ∧
        type ∉ (draft.core [.object]).map objectKey := by
  rw [referredKey?_eq, Option.or_eq_none_iff, ite_eq_right_iff]
  simp only [reduceCtorEq, imp_false]

/-- The types of a definition after they have been renamed. -/
theorem mem_types_prefixTypes_iff (hd : d.WellFormed) {kind : Kind} {type : String} :
    type ∈ (d.prefixTypes kind (renamesFor draft d kind)).definition.types kind ↔
      ∃ old ∈ d.types kind,
        (prefixedKey? (prefixedObjects draft) d.sourceExtension? old).getD old = type := by
  rw [mem_types_iff (hd.prefixTypes kind _), prefixTypes_eq_editTyped]
  simp only [typed?_editTyped, Option.map_eq_some_iff]
  constructor
  · rintro ⟨name, _, ⟨body, hbody, rfl⟩, htype⟩
    rw [typeOf?_renameType] at htype
    obtain ⟨old, hold, rfl⟩ := Option.map_eq_some_iff.1 htype
    have hmem := (mem_types_iff hd).2 ⟨name, body, hbody, hold⟩
    exact ⟨old, hmem, by rw [getElem?_renamesFor, if_pos hmem]⟩
  · rintro ⟨old, hmem, rfl⟩
    obtain ⟨name, body, hbody, hold⟩ := (mem_types_iff hd).1 hmem
    refine ⟨name, _, ⟨body, hbody, rfl⟩, ?_⟩
    rw [typeOf?_renameType, hold, Option.map_some, getElem?_renamesFor, if_pos hmem]

/-- A primitive type is not renamed if objects have no names of primitive types. -/
theorem prefixedKey?_of_isPrimitive
    (hnames : ∀ e ∈ draft.core [.object], isPrimitive (objectName e) = false)
    {extension : Option String} {type : String} (htype : isPrimitive type = true) :
    prefixedKey? (prefixedObjects draft) extension type = none := by
  rw [Option.eq_none_iff_forall_not_mem]
  intro key hkey
  obtain ⟨e, he, rfl, -, -⟩ := exists_of_prefixedKey? hkey
  rw [hnames e he] at htype
  cases htype

/-- Both edits of types together. -/
theorem referencesMade_of_edits
    (hnames : ∀ e ∈ draft.core [.object], isPrimitive (objectName e) = false)
    (hkeys : ∀ e ∈ draft.core [.object], isPrimitive (objectKey e) = false)
    (hd : d.WellFormed) {kind : Kind} {objects : ExtTreeMap String (Option String)}
    (hobjects : ∀ e ∈ draft.core [.object],
      objectKey e ∈ (d.prefixTypes kind (renamesFor draft d kind)).definition.types kind →
        objects[objectKey e]? = some e.2.caption?)
    (hdefined : ∀ type ∈ d.types kind, isPrimitive type = false →
      referredKey? draft d.sourceExtension? type ≠ none) :
    ReferencesMade draft kind d ((d.prefixTypes kind (renamesFor draft d kind)).definition.editTyped
      kind (makeReference objects)).definition := by
  have hafter (name : String) :
      ((d.prefixTypes kind (renamesFor draft d kind)).definition.editTyped kind
          (makeReference objects)).definition.typed? kind name =
        (d.typed? kind name).map fun body =>
          (makeReference objects (renameType (renamesFor draft d kind) body).1).1 := by
    rw [typed?_editTyped, prefixTypes_eq_editTyped, typed?_editTyped, Option.map_map]
    rfl
  constructor
  case made =>
    intro name body type hbody htype hprimitive
    have hmem := (mem_types_iff hd).2 ⟨name, body, hbody, htype⟩
    have hsome := hdefined type hmem hprimitive
    rw [referredKey?_eq_ite] at hsome ⊢
    by_cases hkey : (prefixedKey? (prefixedObjects draft) d.sourceExtension? type).getD type ∈
        (draft.core [.object]).map objectKey
    · rw [if_pos hkey]
      obtain ⟨e, he, heq⟩ := List.mem_map.1 hkey
      have hrenamed : typeOf? (renameType (renamesFor draft d kind) body).1 =
          some (objectKey e) := by
        rw [typeOf?_renameType, htype, Option.map_some, getElem?_renamesFor, if_pos hmem, heq]
      have hthere := hobjects e he ((mem_types_prefixTypes_iff hd).2 ⟨type, hmem, heq.symm⟩)
      refine ⟨e, he, by rw [heq], _, by rw [hafter, hbody]; rfl, ?_⟩
      dsimp only
      rw [makeReference_of_getElem? hrenamed (hkeys e he) hthere]
      exact (refersTo_refer _ _ _).of_rest fun field => get?_renameType _ body
    · exact absurd (if_neg hkey) hsome
  case kept =>
    intro name body hbody hprimitive
    rw [hafter, hbody, Option.map_some, renameType_eq_self, makeReference_eq_self hprimitive]
    intro type htype
    rw [getElem?_renamesFor, prefixedKey?_of_isPrimitive hnames (hprimitive type htype), ite_self]
  case rest =>
    intro path hpath
    rw [at?_editTyped (hd.prefixTypes kind _), prefixTypes_eq_editTyped, at?_editTyped hd _ hpath]
    intro name body hbody
    rw [prefixTypes_eq_editTyped, typed?_editTyped] at hbody
    obtain ⟨old, hold, -⟩ := Option.map_eq_some_iff.1 hbody
    exact hpath name old hold

/--
Where types are renamed to the keys of objects and then made into references, each definition gets
exact references if each of its types is primitive or stands for an object.  Otherwise the operation
that would make references fails, names a type that stands for none, and leaves the definition as it
is after types have been renamed.
-/
theorem references_are_exact (hdraft : draft.WellFormed) (hintact : draft.Intact)
    (hrenames : options.prefixExtensions = true) (hreferences : options.setObjectTypes = true)
    (hdistinct : ((draft.core [.object]).map objectKey).Nodup)
    (hkeys : ∀ e ∈ draft.core [.object], isPrimitive (objectKey e) = false)
    (hnames : ∀ e ∈ draft.core [.object], isPrimitive (objectName e) = false)
    {prefixes references : List Operation}
    (hprefixes : extensionTypes.analyze draft options = .ok prefixes)
    (hplanned : objectType.analyze (runAll options draft prefixes) options = .ok references)
    (hd : draft.get? l = some d) (hcore : l.isCore = true) (hkind : l.kind ∈ typedKinds) :
    ((∀ type ∈ d.types l.kind, isPrimitive type = false →
        referredKey? draft d.sourceExtension? type ≠ none) →
      ∃ after, (runAll options (runAll options draft prefixes) references).get? l = some after ∧
        ReferencesMade draft l.kind d after) ∧
    ((∃ type ∈ d.types l.kind, isPrimitive type = false ∧
        referredKey? draft d.sourceExtension? type = none) →
      (∃ type ∈ d.types l.kind, isPrimitive type = false ∧
        referredKey? draft d.sourceExtension? type = none ∧
          ∃ entry ∈ trace options (runAll options draft prefixes) references,
            entry.operation.target = l ∧ entry.outcome = .failed (.unknownObjectType type)) ∧
      (runAll options (runAll options draft prefixes) references).get? l =
        (runAll options draft prefixes).get? l) := by
  cases hprefixes
  cases hplanned
  have hwellFormed := hdraft l d hd
  obtain ⟨hrenamed, hclear⟩ := runAll_prefixTypes hdraft (hintact l) hrenames hd hcore hkind
  have hseen := hdraft.runAll options (prefixTypes draft options)
  have hknown (key : String) := getElem?_objectCaptions_runAll_eq_none_iff hdraft hintact hrenames
    hdistinct key
  constructor
  · intro hdefined
    refine ⟨_, runAll_setObjectTypes hseen hclear hreferences hrenamed hcore hkind ?_,
      referencesMade_of_edits hnames hkeys hwellFormed (fun e he hmem => ?_) hdefined⟩
    · intro type htype hprimitive hnone
      obtain ⟨old, hold, rfl⟩ := (mem_types_prefixTypes_iff hwellFormed).1 htype
      have hunknown := (hknown _).1 hnone
      refine hdefined old hold ?_ (by rw [referredKey?_eq_ite, if_neg hunknown])
      cases holdPrimitive : isPrimitive old with
      | false => rfl
      | true =>
        rw [prefixedKey?_of_isPrimitive hnames holdPrimitive, Option.getD_none] at hprimitive
        exact holdPrimitive.symm.trans hprimitive
    · rw [getElem?_objectsFor _ _ hmem (hkeys e he)]
      exact (getElem?_objectCaptions_runAll hdraft hintact hrenames hdistinct).2 ⟨e, he, rfl, rfl⟩
  · rintro ⟨type, htype, hprimitive, hnone⟩
    obtain ⟨hkept, hunknown⟩ := referredKey?_eq_none_iff.1 hnone
    have hmem := (mem_types_prefixTypes_iff hwellFormed).2
      ⟨type, htype, by rw [hkept, Option.getD_none]⟩
    obtain ⟨unknown, hthere, hplain, hmissing, htrace, hget⟩ := failed_setObjectTypes hclear
      hreferences hrenamed hcore hkind hmem hprimitive ((hknown type).2 hunknown)
    obtain ⟨old, hold, heq⟩ := (mem_types_prefixTypes_iff hwellFormed).1 hthere
    have hold' : referredKey? draft d.sourceExtension? old = none := by
      rw [referredKey?_eq_ite, heq, if_neg ((hknown unknown).1 hmissing)]
    rw [(referredKey?_eq_none_iff.1 hold').1, Option.getD_none] at heq
    subst heq
    exact ⟨⟨old, hold, hplain, hold', _, htrace, rfl, rfl⟩, hget.trans hrenamed.symm⟩

end

/-- A definition with attributes that have the types of an object and of one out of an extension. -/
def loginRecord : Definition :=
  ⟨[("attributes", .obj [("owner", .obj [("type", .str "user")]),
    ("device", .obj [("type", .str "device"), ("caption", .str "Device")]),
    ("time", .obj [("type", .str "timestamp_t")])])]⟩

/-- A definition with a type that stands for nothing. -/
def brokenRecord : Definition :=
  ⟨[("attributes", .obj [("device", .obj [("type", .str "device")]),
    ("gadget", .obj [("type", .str "gadget")])])]⟩

/-- Both definitions, and the objects. -/
def typedDraft : Draft :=
  let user : Definition := ⟨[("name", .str "user"), ("caption", .str "User")]⟩
  let device : Definition := ⟨[("name", .str "device"), ("src_extension", .str "host"),
    ("key", .str "host/device")]⟩
  Draft.ofRepository .empty
    |>.write (.inCore .object "user") user
    |>.write (.inCore .object "host/device") device
    |>.write (.inCore .eventClass "login") loginRecord
    |>.write (.inCore .eventClass "broken") brokenRecord

theorem wellFormed_typedDraft : typedDraft.WellFormed := by
  refine (((Draft.wellFormed_empty.write _ ?_).write _ ?_).write _ ?_).write _ ?_ <;>
    simp [WellFormed, Definition.toJson, Json.WellFormed, Json.WellFormedFields, loginRecord,
      brokenRecord]

/-- The types of one definition become references, and those of the other stay. -/
theorem login_references_are_exact :
    let renamed := runAll {} typedDraft (prefixTypes typedDraft {})
    let linked := runAll {} renamed (setObjectTypes renamed {})
    (∃ after, linked.get? (.inCore .eventClass "login") = some after ∧
        ReferencesMade typedDraft .eventClass loginRecord after) ∧
      linked.get? (.inCore .eventClass "broken") = renamed.get? (.inCore .eventClass "broken") := by
  have hintact : typedDraft.Intact := fun l => Draft.failure?_ofRepository .empty l
  have hexact {l : Location} {d : Definition} (hd : typedDraft.get? l = some d) :=
    references_are_exact wellFormed_typedDraft hintact
      (show ({} : Options).prefixExtensions = true from rfl) rfl (by decide +kernel)
      (by decide +kernel) (by decide +kernel) rfl rfl hd
  refine ⟨(hexact rfl rfl (by decide)).1 (by decide +kernel), ((hexact rfl rfl (by decide)).2 ?_).2⟩
  exact ⟨"gadget", by decide +kernel, by decide +kernel, by decide +kernel⟩

end Planner

end EventSchema
