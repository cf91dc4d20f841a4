import EventSchema.Operation.Basic

/-!
# Planning for extensions and includes

A definition of an applied extension patches its counterpart in core, or is copied into core.  A
reference to another file is searched for next to the file that has it and then further out; for
files of an extension the same search follows outside of the extension.
-/

namespace EventSchema

namespace Planner

/-- Kinds whose definitions an extension brings to core. -/
def extensionKinds : List Kind :=
  [.object, .eventClass, .event, .profile, .category, .dictionary, .type]

/-- Bring one definition of an extension to core. -/
def applyExtension (draft : Draft) (options : Options) (declared : String) (l : Location) :
    Operation :=
  if draft.contains l.core then ⟨l.core, .mergeExtension l⟩
  else
    let key :=
      if options.prefixExtensions && l.kind.isPrefixable then some (declared ++ "/" ++ l.name)
      else none
    ⟨Location.inCore l.kind (key.getD l.name), .copyExtension l declared key⟩

/-- Bring the definitions of the applied extensions to core. -/
def applyExtensions (draft : Draft) (options : Options) : List Operation :=
  let declared := draft.declaredNames
  (draft.locations.filter fun l => extensionKinds.contains l.kind).filterMap fun l =>
    l.extension.bind fun directory =>
      declared[directory]?.bind fun name =>
        if options.isExtensionEnabled directory (some name) then
          some (applyExtension draft options name l)
        else none

/-- The files that a reference may mean: the one it names, and that with the usual ending. -/
def referencedFiles (reference : String) : List Path :=
  if Path.ending? (Path.components ⟨reference⟩) = some "json" then [⟨reference⟩]
  else [⟨reference⟩, ⟨reference ++ ".json"⟩]

/-- The places where a reference in a file is searched for, in order. -/
def searchPlaces (file : List String) : List (List String) :=
  let inside := (Path.parent? file).toList
  let outside := ((Path.insideExtension? file).bind Path.parent?).toList
  (inside ++ outside).flatMap Path.ancestors

/-- The location that a reference in the file of a subject means. -/
def resolveReference? (draft : Draft) (subject : Location) (reference : String) :
    Option Location :=
  (draft.sourcePath? subject).bind fun file =>
    (searchPlaces file.components).findSome? fun place =>
      (referencedFiles reference).findSome? fun path =>
        draft.repository.locationAt? (Path.join place path.components)

/-- What a definition includes, in order of reference: from its root, then from its attributes. -/
def includesOf (draft : Draft) (l : Location) (d : Definition) :
    List (Location × IncludeScope) :=
  d.includes.filterMap (fun r => (resolveReference? draft l r).map (·, .definition)) ++
    d.attributeIncludes.filterMap fun r => (resolveReference? draft l r).map (·, .attributes)

/-- Whether one profile comes before another: the higher rank, since the first value stays. -/
def rankedBefore (options : Options) (a b : Location × IncludeScope) : Bool :=
  let rank (l : Location) : Nat := options.profileRank (Definition.profileOfReference l.name)
  decide (rank b.1 ≤ rank a.1)

/-- Includes in the order in which they are filled in: profiles last and by rank. -/
def arrangeIncludes (options : Options) (found : List (Location × IncludeScope)) :
    List (Location × IncludeScope) :=
  let isProfile (e : Location × IncludeScope) : Bool := e.1.kind == .profile
  found.filter (fun e => !isProfile e) ++
    (found.filter isProfile).mergeSort (rankedBefore options)

/-- Fill each definition with attributes from what it includes. -/
def includeFiles (draft : Draft) (options : Options) : List Operation :=
  (draft.core Kind.withAttributes).flatMap fun (l, d) =>
    (arrangeIncludes options (includesOf draft l d)).map fun (source, scope) =>
      ⟨l, .includeFrom source scope⟩

end Planner

end EventSchema
