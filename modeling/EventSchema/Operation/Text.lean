import EventSchema.Operation.Basic

/-!
# Operations and outcomes as text
-/

namespace EventSchema

open Std

namespace Action

/-- The word for an action. -/
def word : Action → String
  | tagProfile _ => "tag_profile"
  | annotate => "annotate"
  | mergeExtension _ => "extension_merge"
  | copyExtension _ _ _ => "extension_copy"
  | includeFrom _ _ => "include"
  | removeProfile _ => "profile_remove"
  | inherit _ => "extend"
  | setCategory _ => "set_category"
  | fillAttribute _ _ => "dictionary_fill"
  | assignCategory _ _ _ => "assign_category_id"
  | assignClass _ _ _ _ => "assign_class_id"
  | assignTypes _ _ => "assign_type_id"
  | assignObservables _ => "assign_observable"
  | prefixTypes _ => "prefix_types"
  | setObjectTypes _ => "set_object_type"
  | addSiblings => "datetime_sibling"
  | copyRendered _ => "copy_to_schema"

/-- The word for an action within a document. -/
def tag : Action → String
  | addSiblings => "date_time_sibling"
  | action => action.word

/-- What follows the target in the text of an operation. -/
def detail : Action → String
  | tagProfile profile | removeProfile profile => " [" ++ profile ++ "]"
  | setCategory category => " [" ++ category ++ "]"
  | fillAttribute name source => "." ++ name ++ " <- " ++ source.text
  | assignCategory uid _ _ | assignClass uid _ _ _ | assignTypes uid _ => " = " ++ toString uid
  | action =>
    match action.source? with
    | some source => " <- " ++ source.text
    | none => ""

/-- The fields of an action within a document. -/
def fields : Action → Fields
  | tagProfile profile | removeProfile profile => [("profile", .str profile)]
  | annotate | addSiblings => []
  | mergeExtension source | inherit source | copyRendered source => [("source", source.toJson)]
  | copyExtension source extension key =>
    [("source", source.toJson), ("src_extension", .str extension), ("key", Json.ofText? key)]
  | includeFrom source scope => [("source", source.toJson), ("scope", .str scope.word)]
  | setCategory category => [("category", .str category)]
  | fillAttribute name source => [("attribute", .str name), ("source", source.toJson)]
  | assignCategory uid label description =>
    [("category_uid", Json.ofInt uid), ("label", .str label),
      ("description", Json.ofText? description)]
  | assignClass uid label description conflict =>
    [("class_uid", Json.ofInt uid), ("label", .str label),
      ("description", Json.ofText? description),
      ("conflict", (conflict.map Location.toJson).getD .null)]
  | assignTypes classUid label => [("class_uid", Json.ofInt classUid), ("label", .str label)]
  | assignObservables assignments =>
    [("assignments", .obj (assignments.toList.map fun e => (e.1, Json.ofInt e.2)))]
  | prefixTypes renames => [("renames", .obj (renames.toList.map fun e => (e.1, .str e.2)))]
  | setObjectTypes objects =>
    [("objects", .obj (objects.toList.map fun e => (e.1, Json.ofText? e.2)))]

end Action

namespace Operation

/-- The text of an operation. -/
def text (op : Operation) : String :=
  op.action.word ++ " " ++ op.target.text ++ op.action.detail

/-- The document that stands for an operation. -/
def toJson (op : Operation) : Json :=
  .obj (("target", op.target.toJson) :: ("op", .str op.action.tag) :: op.action.fields)

end Operation

/-- The text of an outcome. -/
def Outcome.text : Outcome → String
  | .applied _ changes => "applied [" ++ ", ".intercalate (changes.map FieldPath.dotted) ++ "]"
  | .unchanged => "no-op"
  | .failed cause => "failed: " ++ cause.reason

end EventSchema
