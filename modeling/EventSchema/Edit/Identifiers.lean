import EventSchema.Definition
import EventSchema.Failure
import EventSchema.Word

/-!
# Edits for numeric identifiers

A class has the identifier {lit}`extension * 100000 + category * 1000 + own`, and each of its
activities the type {lit}`class * 100 + activity`.  An identifier attribute lists exactly the members
that apply to the class, and the text of the matching name attribute ends with the label.

Main results:

- {lit}`Definition.classUid?_eq_some`: an identifier that exists is the exact number.
-/

namespace EventSchema

namespace Definition

/-- The identifier of a class, if every step of its computation fits 64 bits. -/
def classUid? (extension category own : Int) : Option Int := do
  let high ← Word.mul? extension 100000
  let middle ← Word.mul? category 1000
  Word.add? (← Word.add? high middle) own

theorem classUid?_eq_some {extension category own uid : Int}
    (h : classUid? extension category own = some uid) :
    uid = extension * 100000 + category * 1000 + own := by
  simp only [classUid?, Option.bind_eq_bind, Option.bind_eq_some_iff, Word.mul?, Word.add?,
    Word.fit?_eq_some_iff] at h
  obtain ⟨high, ⟨rfl, _⟩, middle, ⟨rfl, _⟩, sum, ⟨rfl, _⟩, rfl, _⟩ := h
  rfl

/-- A member of an enumeration, its description left out if there is none. -/
def member (caption : String) (description : Option String) : Json :=
  .obj (("caption", .str caption) ::
    match description with
    | some text => [("description", .str text)]
    | none => [])

/-- The field with the members of an enumeration. -/
def enumKey : String := "enum"

/-- Give an attribute exactly these members, and make the attribute if there is none. -/
def setEnum (d : Definition) (name : String) (members : Fields) : Revision :=
  let value := Json.obj members
  let edit (body : Fields) : Fields × List FieldPath :=
    let current := (Fields.get? body enumKey).any (· == value)
    if current then (body, []) else (Fields.set enumKey value body, [[enumKey]])
  match d.editSlot? name edit with
  | some revision => revision
  | none => ⟨d.insertAttribute name [(enumKey, value)], [[attributesKey, name]]⟩

/-- What stands at the end of a text that names a label. -/
def labelEnding (label : String) : String := ": <code>" ++ label ++ "</code>."

/-- A text that names a label at its end, in place of a full stop. -/
def labelled (text label : String) : String :=
  let ending := labelEnding label
  if ending.toList.isSuffixOf text.toList then text else withoutEnding "." text ++ ending

/-- Name a label at the end of the description of an attribute, if it has one. -/
def labelAttribute (d : Definition) (name label : String) : Revision :=
  let edit (body : Fields) : Fields × List FieldPath :=
    match (Fields.get? body "description").bind Json.str? with
    | none => (body, [])
    | some text =>
      let next := labelled text label
      if next = text then (body, [])
      else (Fields.set "description" (.str next) body, [["description"]])
  (d.editSlot? name edit).getD d.unchanged

/-- One edit after another. -/
def Revision.andThen (first : Revision) (edit : Definition → Revision) : Revision :=
  let second := edit first.definition
  ⟨second.definition, first.changes ++ second.changes⟩

/-- State the category of a class. -/
def assignCategory (d : Definition) (uid : Int) (label : String) (description : Option String) :
    Revision :=
  Revision.andThen (d.setEnum "category_uid" [(toString uid, member label description)]) fun d =>
    d.labelAttribute "category_name" label

/-- State the identifier of a class. -/
def assignClass (d : Definition) (uid : Int) (label : String) (description : Option String) :
    Revision :=
  let first : Revision :=
    if d.uid? = some uid then d.unchanged else ⟨d.set "uid" (Json.ofInt uid), [["uid"]]⟩
  Revision.andThen
    (Revision.andThen first fun d =>
      d.setEnum "class_uid" [(toString uid, member label description)])
    fun d => d.labelAttribute "class_name" label

/-- An activity of a class. -/
structure Activity where
  id : Int
  caption : String
  description : Option String

/-- The activities of a class whose keys are integers. -/
def activities (d : Definition) : List Activity :=
  let members := ((d.attribute? "activity_id").bind (Fields.get? · enumKey)).bind Json.obj?
  (members.getD []).filterMap fun (key, value) =>
    (Word.ofText? key).map fun id =>
      let text (name : String) : Option String :=
        ((value.obj?).bind (Fields.get? · name)).bind Json.str?
      ⟨id, (text "caption").getD "", text "description"⟩

/-- The identifier of the type of an activity, if it fits 64 bits. -/
def typeUid? (classUid activity : Int) : Option Int :=
  (Word.mul? classUid 100).bind fun base => Word.add? base activity

/-- The members of the type of a class, one for each activity. -/
def typeMembers (classUid : Int) (label : String) : List Activity → Except Failure Fields
  | [] => .ok []
  | activity :: rest =>
    match typeUid? classUid activity.id with
    | none => .error (.typeUidOverflow classUid activity.id)
    | some uid =>
      (typeMembers classUid label rest).map fun members =>
        (toString uid, member (label ++ ": " ++ activity.caption) activity.description) :: members

/-- State the types of a class. -/
def assignTypes (d : Definition) (classUid : Int) (label : String) : Except Failure Revision :=
  match d.activities with
  | [] => .ok d.unchanged
  | activities =>
    (typeMembers classUid label activities).map fun members =>
      d.setEnum "type_uid" (Fields.ofList members)

end Definition

end EventSchema
