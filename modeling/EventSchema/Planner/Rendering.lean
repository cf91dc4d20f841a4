import EventSchema.Planner.Identifiers

/-!
# Planning the rendered schema
-/

namespace EventSchema

open Std

namespace Planner

/-- The entries of the schema that a definition in core is rendered to. -/
def entriesOf (options : Options) (declared : ExtTreeMap String String) (l : Location)
    (d : Definition) : List Location :=
  let key := d.key?.getD l.name
  match l.kind with
  | .object => if key.toList.head? = some '_' then [] else [.entry .objects key]
  | .eventClass => if d.uid?.isSome then [.entry .classes key] else []
  | .event =>
    if l.name = baseEvent then [.entry .baseEvent baseEvent, .entry .classes baseEvent] else []
  | .category => [.entry .categories l.name]
  | .profile => [.entry .profiles key]
  | .extension =>
    let name := declared[l.name]?.getD key
    if options.isExtensionEnabled l.name (some name) then [.entry .extensions name] else []
  | .dictionary => [.entry .attributes l.name]
  | .type => [.entry .types l.name]
  | .file => if l.name = "version.json" then [.entry .version "version"] else []
  | .schema _ => []

/-- Copy each definition in core to its entries of the schema. -/
def render (draft : Draft) (options : Options) : List Operation :=
  let declared := draft.declaredNames
  (draft.definitions.toList.filter (·.1.isCore)).flatMap fun (l, d) =>
    (entriesOf options declared l d).map fun target => ⟨target, .copyRendered l⟩

end Planner

end EventSchema
