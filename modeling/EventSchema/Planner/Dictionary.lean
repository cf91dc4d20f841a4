import EventSchema.Operation.Basic

/-!
# Planning categories and dictionary look-ups
-/

namespace EventSchema

namespace Planner

/-- The directory of a category that holds a file of an event class. -/
def categoryDirectory? (file : List String) : Option String :=
  match (Path.insideExtension? file).getD file with
  | "events" :: category :: _ :: _ => if Path.isName category then some category else none
  | _ => none

/-- Give each class without a category that of its directory. -/
def setCategories (draft : Draft) : List Operation :=
  (draft.core [.eventClass]).filterMap fun (l, d) =>
    if d.category?.isSome then none
    else
      ((draft.sourcePath? l).bind fun file => categoryDirectory? file.components).map fun category =>
        ⟨l, .setCategory category⟩

/-- Fill each attribute that has gaps from its entry in the dictionary. -/
def fillAttributes (draft : Draft) : List Operation :=
  (draft.core Kind.withAttributes).flatMap fun (l, d) =>
    d.attributes.filterMap fun (name, body) =>
      let source := Location.inCore .dictionary name
      (draft.get? source).bind fun entry =>
        if (MergeRule.fill.apply body entry.fields).2.isEmpty then none
        else some ⟨l, .fillAttribute name source⟩

end Planner

end EventSchema
