import EventSchema.Location
import EventSchema.Text.Quoted

/-!
# Failures of operations
-/

namespace EventSchema

/-- Why an operation could not be carried out. -/
inductive Failure where
  /-- The target has no definition. -/
  | noTarget (target : Location)
  /-- The source has no definition. -/
  | noSource (source : Location)
  /-- An earlier operation on the target failed. -/
  | targetFailed (target : Location)
  /-- An operation on the source failed. -/
  | sourceFailed (source : Location)
  /-- No category has this name. -/
  | unknownCategory (name : String)
  /-- The target has no such attribute. -/
  | noAttribute (name : String)
  /-- A type is neither primitive nor an object. -/
  | unknownObjectType (type : String)
  /-- Another class has the same numeric identifier. -/
  | classUidTaken (uid : Int) (other : Location)
  /-- The numeric identifier of a type does not fit. -/
  | typeUidOverflow (classUid activity : Int)

/-- The wording of a failure. -/
def Failure.reason : Failure → String
  | .noTarget target => "target " ++ target.text ++ " not found"
  | .noSource source => "Definition not found: " ++ source.text
  | .targetFailed target => target.text ++ " already failed"
  | .sourceFailed source => "prerequisite " ++ source.text ++ " failed"
  | .unknownCategory name => "unknown category " ++ Text.quoted name
  | .noAttribute name => "no attribute " ++ Text.quoted name
  | .unknownObjectType type => "unknown object type " ++ Text.quoted type
  | .classUidTaken uid other =>
    "class_uid " ++ toString uid ++ " is already assigned to " ++ other.text
  | .typeUidOverflow classUid activity =>
    "type_uid of class_uid " ++ toString classUid ++ " activity " ++ toString activity ++ " overflows"

end EventSchema
