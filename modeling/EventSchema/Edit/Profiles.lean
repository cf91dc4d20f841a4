import EventSchema.Definition
import EventSchema.Options

/-!
# Edits for profiles

The attributes that a profile defines carry its name as a tag, so that they are known wherever they
are included.  Attributes whose tags are all inactive are removed again.  Annotations of a fragment
or profile are written onto each of its attributes.

Main results:

- {lit}`Definition.removeProfile_noAttributes`: without attributes nothing is removed.
-/

namespace EventSchema

namespace Definition

/-- The field with values for each attribute. -/
def annotationsKey : String := "annotations"

/-- Write the annotations onto each attribute; they win over its own values. -/
def annotate (d : Definition) : Revision :=
  match (d.get? annotationsKey).bind Json.obj? with
  | none => d.unchanged
  | some annotations => d.editAttributes fun _ body => MergeRule.patch.apply body annotations

/-- Tag each object among the attributes with a profile. -/
def tagProfile (d : Definition) (profile : String) : Revision :=
  d.editSlots fun _ body => MergeRule.fill.apply body [(profileKey, .str profile)]

/-- Whether a value is tagged with a profile, and all its tags are inactive. -/
def isInactive (profile : String) (options : Options) (value : Json) : Bool :=
  match value.obj? with
  | none => false
  | some body =>
    let tags := profileTags body
    tags.contains profile && tags.all fun tag => !options.isProfileEnabled tag

/-- Remove what is tagged with a profile and has no active tag. -/
def removeProfile (d : Definition) (profile : String) (options : Options) : Revision :=
  match d.attributes? with
  | none => d.unchanged
  | some attributes =>
    let inactive (e : String × Json) : Bool := isInactive profile options e.2
    ⟨d.set attributesKey (.obj (attributes.filter fun e => !inactive e)),
      (attributes.filter inactive).map fun e => [attributesKey, e.1]⟩

theorem removeProfile_noAttributes (d : Definition) (profile : String) (options : Options)
    (h : d.attributes? = none) : d.removeProfile profile options = d.unchanged := by
  simp [removeProfile, h]

end Definition

end EventSchema
