import EventSchema.Json.Basic

/-!
# Merging documents

One set of fields is merged into another in one of two modes.  A filling merge puts values only
where the left side has none; an overwriting merge also replaces values that differ.  In both modes
objects merge field by field, arrays become a union in order, null counts as no value, and profile
tags of both sides are joined into one list.

Main results:

- {lit}`Fields.merge_nil`, {lit}`Fields.merge_cons`: merging goes field by field.
- {lit}`Json.gather_append`: the items of the left array stay in front.
-/

namespace EventSchema

/-- The keys that lead from a document to one of its values. -/
abbrev FieldPath : Type := List String

/-- The keys joined by dots. -/
def FieldPath.dotted (path : FieldPath) : String := ".".intercalate path

/-- The field that holds the profile tags of an attribute. -/
def profileKey : String := "profile"

namespace Json

/-- The items of one array followed by those of another that are not there yet. -/
def gather (left right : List Json) : List Json :=
  right.foldl (fun items item => if items.contains item then items else items ++ [item]) left

/-- Profile tags followed by those that are not there yet. -/
def gatherTags (left right : List String) : List String :=
  right.foldl (fun tags tag => if tags.contains tag then tags else tags ++ [tag]) left

/-- The tags of both sides as a list, unless the right side adds none. -/
def joinTags? (left right : Json) : Option Json :=
  let before := strings (some left)
  let after := gatherTags before (strings (some right))
  if after.length = before.length then none else some (.arr (after.map .str))

/-- A value against another that does not merge with it. -/
def replace (overwrite : Bool) (left right : Json) : Json × List FieldPath :=
  if overwrite && left != right then (right, [[]]) else (left, [])

end Json

mutual

/-- Merge a value into another; neither is null, and neither holds profile tags. -/
def Json.merge (overwrite : Bool) (left : Json) : Json → Json × List FieldPath
  | .obj right =>
    match left with
    | .obj fields =>
      let merged := Fields.merge overwrite fields right
      (.obj merged.1, merged.2)
    | _ => Json.replace overwrite left (.obj right)
  | .arr right =>
    match left with
    | .arr items =>
      let all := Json.gather items right
      (.arr all, if all.length = items.length then [] else [[]])
    | _ => Json.replace overwrite left (.arr right)
  | right => Json.replace overwrite left right

/-- Merge fields into others, in order; the result comes with the paths that changed. -/
def Fields.merge (overwrite : Bool) (left : Fields) :
    List (String × Json) → Fields × List FieldPath
  | [] => (left, [])
  | (key, right) :: rest =>
    let here : Fields × List FieldPath :=
      if right.isNull then (left, [])
      else
        match Fields.get? left key with
        | none => (Fields.set key right left, [[key]])
        | some existing =>
          if existing.isNull then (Fields.set key right left, [[key]])
          else if key = profileKey then
            match Json.joinTags? existing right with
            | some tags => (Fields.set key tags left, [[key]])
            | none => (left, [])
          else
            let merged := Json.merge overwrite existing right
            (Fields.set key merged.1 left, merged.2.map (key :: ·))
    let after := Fields.merge overwrite here.1 rest
    (after.1, here.2 ++ after.2)

end

/-- Merge one field into others. -/
def Fields.mergeField (overwrite : Bool) (left : Fields) (key : String) (right : Json) :
    Fields × List FieldPath :=
  if right.isNull then (left, [])
  else
    match Fields.get? left key with
    | none => (Fields.set key right left, [[key]])
    | some existing =>
      if existing.isNull then (Fields.set key right left, [[key]])
      else if key = profileKey then
        match Json.joinTags? existing right with
        | some tags => (Fields.set key tags left, [[key]])
        | none => (left, [])
      else
        let merged := Json.merge overwrite existing right
        (Fields.set key merged.1 left, merged.2.map (key :: ·))

@[simp]
theorem Fields.merge_nil (overwrite : Bool) (left : Fields) :
    Fields.merge overwrite left [] = (left, []) := by
  simp [Fields.merge]

theorem Fields.merge_cons (overwrite : Bool) (left : Fields) (key : String) (right : Json)
    (rest : Fields) :
    Fields.merge overwrite left ((key, right) :: rest) =
      let here := Fields.mergeField overwrite left key right
      let after := Fields.merge overwrite here.1 rest
      (after.1, here.2 ++ after.2) := by
  rw [Fields.merge]
  rfl

theorem Json.gather_append (left right : List Json) : ∃ more, Json.gather left right = left ++ more := by
  induction right generalizing left with
  | nil => exact ⟨[], by simp [Json.gather]⟩
  | cons item rest ih =>
    by_cases h : left.contains item
    · obtain ⟨more, hm⟩ := ih left
      exact ⟨more, by simpa [Json.gather, h] using hm⟩
    · obtain ⟨more, hm⟩ := ih (left ++ [item])
      refine ⟨item :: more, ?_⟩
      simpa [Json.gather, h] using hm

/-- Which fields a merge touches, and how. -/
structure MergeRule where
  /-- Whether values that differ are replaced. -/
  overwrite : Bool
  /-- Top-level keys that are never merged. -/
  ignored : List String := []
  /-- The only top-level keys that are merged, if given. -/
  allowed : Option (List String) := none

namespace MergeRule

/-- Values land only where there are none. -/
def fill : MergeRule := { overwrite := false }

/-- Values replace others that differ. -/
def patch : MergeRule := { overwrite := true }

/-- The same rule without some top-level keys. -/
def ignoring (rule : MergeRule) (keys : List String) : MergeRule := { rule with ignored := keys }

/-- The same rule for some top-level keys only. -/
def only (rule : MergeRule) (keys : List String) : MergeRule := { rule with allowed := some keys }

/-- Whether a top-level key is merged. -/
def admits (rule : MergeRule) (key : String) : Bool :=
  !rule.ignored.contains key && rule.allowed.all (·.contains key)

/-- Merge the admitted fields of the right side into the left side. -/
def apply (rule : MergeRule) (left right : Fields) : Fields × List FieldPath :=
  Fields.merge rule.overwrite left (right.filter fun e => rule.admits e.1)

end MergeRule

end EventSchema
