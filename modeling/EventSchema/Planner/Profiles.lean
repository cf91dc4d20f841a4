import EventSchema.Operation.Basic

/-!
# Planning for profiles
-/

namespace EventSchema

namespace Planner

/-- The name of a profile: the declared one, else that of its location. -/
def profileName (l : Location) (d : Definition) : String := d.name?.getD l.name

/-- Tag the attributes of each profile that has some without its tag. -/
def tagProfiles (draft : Draft) : List Operation :=
  (draft.definitions.toList.filter fun e => e.1.kind == .profile).filterMap fun (l, d) =>
    let profile := profileName l d
    if d.attributes.any fun a => !(Definition.profileTags a.2).contains profile then
      some ⟨l, .tagProfile profile⟩
    else none

/-- Annotate each fragment and profile that has annotations and attributes. -/
def annotate (draft : Draft) : List Operation :=
  (draft.definitions.toList.filter fun e => e.1.kind == .file || e.1.kind == .profile).filterMap
    fun (l, d) =>
      let annotated := ((d.get? Definition.annotationsKey).bind Json.obj?).isSome
      if annotated && !d.attributes.isEmpty then some ⟨l, .annotate⟩ else none

/-- The profiles that a record refers to or has tags of, in order. -/
def profilesOf (d : Definition) : NameSet :=
  Std.ExtTreeSet.ofList
    (d.profiles.map Definition.profileOfReference ++
      d.attributes.flatMap fun a => Definition.profileTags a.2)

/-- Remove the attributes of each inactive profile from the records that know it. -/
def removeProfiles (draft : Draft) (options : Options) : List Operation :=
  (draft.core Kind.records).flatMap fun (l, d) =>
    ((profilesOf d).toList.filter fun p => !options.isProfileEnabled p).map fun p =>
      ⟨l, .removeProfile p⟩

end Planner

end EventSchema
