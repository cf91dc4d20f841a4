import EventSchema.Proofs.Emission
import EventSchema.Schema

/-!
# Entries of a rendered schema

Rendering puts every definition at a location of the schema into its section.  Where only one
location is rendered to an entry, the entry is the definition there.

Main results:

- {lit}`Schema.lookup_render`: the entries of a schema are the definitions at its locations.
- {lit}`Schema.version_render`: the version of a schema is that of the definition for it.
-/

namespace EventSchema

open Std

namespace Schema

/-! ## Entries -/

/-- The definition of a section under a key.  There is one base event, and the version is none. -/
def lookup (s : Schema) (part : Section) (key : String) : Option Definition :=
  match part with
  | .version => none
  | .baseEvent => s.baseEvent
  | .classes => s.classes[key]?
  | .objects => s.objects[key]?
  | .categories => s.categories[key]?
  | .profiles => s.profiles[key]?
  | .extensions => s.extensions[key]?
  | .attributes => s.attributes[key]?
  | .types => s.types[key]?

/-- A location is rendered to a section under a key. -/
def Fills (l : Location) (part : Section) (key : String) : Prop :=
  l.kind = .schema part ∧ (part = .baseEvent ∨ l.name = key)

/-- Put a definition in its place, if it is an entry. -/
def put (s : Schema) (e : Location × Definition) : Schema :=
  match e.1.kind with
  | .schema part => s.place part e.1.name e.2
  | _ => s

/-- A schema is put together entry by entry. -/
theorem ofEntries_eq_foldl (entries : List (Location × Definition)) :
    ofEntries entries = entries.foldl put blank := rfl

/-- The blank schema has no entries. -/
theorem lookup_blank (part : Section) (key : String) : blank.lookup part key = none := by
  cases part <;> simp [blank, lookup]

/-- A definition in its place is found there, and nothing else changes. -/
theorem lookup_place (s : Schema) {part : Section} (hpart : part ≠ .version) (key : String)
    (other : Section) (name : String) (d : Definition) :
    (s.place other name d).lookup part key =
      if other = part ∧ (part = .baseEvent ∨ name = key) then some d else s.lookup part key := by
  cases part <;> cases other <;> simp [place, lookup, ExtTreeMap.getElem?_insert] at hpart ⊢

/-- An entry that fills a place is found there. -/
theorem lookup_put_of_fills (s : Schema) {part : Section} (hpart : part ≠ .version) {key : String}
    {e : Location × Definition} (h : Fills e.1 part key) :
    (s.put e).lookup part key = some e.2 := by
  rw [put, h.1]
  dsimp only
  rw [lookup_place s hpart, if_pos ⟨rfl, h.2⟩]

/-- An entry that does not fill a place leaves it. -/
theorem lookup_put_of_not_fills (s : Schema) {part : Section} (hpart : part ≠ .version)
    {key : String} {e : Location × Definition} (h : ¬ Fills e.1 part key) :
    (s.put e).lookup part key = s.lookup part key := by
  unfold put
  split
  · rename_i other hother
    rw [lookup_place s hpart, if_neg]
    rintro ⟨rfl, hname⟩
    exact h ⟨hother, hname⟩
  · rfl

/-- The version comes from the entry for the version. -/
theorem version_put (s : Schema) (e : Location × Definition) :
    (s.put e).version =
      if e.1.kind = .schema .version then (e.2.text? "version").getD s.version else s.version := by
  unfold put
  split
  · rename_i part hpart
    rw [hpart]
    cases part <;> simp [place]
  · rename_i hplain
    rw [if_neg (hplain .version)]

/-- What no entry changes is as it was when all are put. -/
theorem foldl_put_of_forall_not {α : Type} (f : Schema → α) {P : Location × Definition → Prop}
    (hput : ∀ s e, ¬ P e → f (s.put e) = f s) {entries : List (Location × Definition)}
    (h : ∀ e ∈ entries, ¬ P e) (s : Schema) : f (entries.foldl put s) = f s := by
  induction entries generalizing s with
  | nil => rfl
  | cons e rest ih =>
    rw [List.foldl_cons, ih (fun e' he => h e' (List.mem_cons_of_mem e he)),
      hput s e (h e List.mem_cons_self)]

/-- What only one entry decides depends on that entry alone. -/
theorem foldl_put_of_unique {α : Type} (f : Schema → α) {P : Location × Definition → Prop}
    (hput : ∀ s e, ¬ P e → f (s.put e) = f s) {before after : List (Location × Definition)}
    {e : Location × Definition} (hbefore : ∀ o ∈ before, ¬ P o) (hafter : ∀ o ∈ after, ¬ P o)
    (s : Schema) :
    ∃ s', f s' = f s ∧ f ((before ++ e :: after).foldl put s) = f (s'.put e) := by
  refine ⟨before.foldl put s, foldl_put_of_forall_not f hput hbefore s, ?_⟩
  rw [List.foldl_append, List.foldl_cons, foldl_put_of_forall_not f hput hafter]

/-- What only the entry at one location decides depends on the definition there. -/
theorem render_of_unique {α : Type} (f : Schema → α) {P : Location × Definition → Prop}
    (hput : ∀ s e, ¬ P e → f (s.put e) = f s) {draft : Draft} {l : Location}
    (hunique : ∀ k d, draft.get? k = some d → P (k, d) → k = l) :
    draft.get? l = none ∧ f (render draft) = f blank ∨
      ∃ d s, draft.get? l = some d ∧ f s = f blank ∧ f (render draft) = f (s.put (l, d)) := by
  have hother (e : Location × Definition) (he : e ∈ draft.definitions.toList) (hl : e.1 ≠ l) :
      ¬ P e :=
    fun hP => hl (hunique e.1 e.2 (Draft.mem_toList_definitions.1 he) hP)
  rw [render, ofEntries_eq_foldl]
  cases hget : draft.get? l with
  | none =>
    refine Or.inl ⟨rfl, foldl_put_of_forall_not f hput (fun e he => hother e he ?_) blank⟩
    rintro rfl
    rw [Draft.mem_toList_definitions.1 he] at hget
    cases hget
  | some d =>
    rcases Draft.exists_split_definitions hget with ⟨before, after, hsplit, hne⟩
    rw [hsplit] at hother ⊢
    have hbefore (e : Location × Definition) (he : e ∈ before) : ¬ P e :=
      hother e (List.mem_append_left _ he) (hne e (List.mem_append_left _ he))
    have hafter (e : Location × Definition) (he : e ∈ after) : ¬ P e :=
      hother e (List.mem_append_right _ (List.mem_cons_of_mem _ he))
        (hne e (List.mem_append_right _ he))
    rcases foldl_put_of_unique f hput hbefore hafter blank with ⟨s, hs, hrender⟩
    exact Or.inr ⟨d, s, rfl, hs, hrender⟩

/-- The entries of a schema are the definitions at its locations. -/
theorem lookup_render {draft : Draft} {part : Section} (hpart : part ≠ .version) {key : String}
    (hunique : ∀ l d, draft.get? l = some d → Fills l part key → l = .entry part key) :
    (render draft).lookup part key = draft.get? (.entry part key) := by
  rcases render_of_unique (fun s => s.lookup part key)
    (fun s e hfills => lookup_put_of_not_fills s hpart hfills) hunique with
    ⟨hget, hrender⟩ | ⟨d, s, hget, -, hrender⟩
  · rw [hget, hrender, lookup_blank]
  · have hfills : Fills (.entry part key) part key := ⟨rfl, Or.inr rfl⟩
    rw [hget, hrender]
    exact lookup_put_of_fills s hpart hfills

/-- The version of a schema is that of the definition for it, if that states one. -/
theorem version_render {draft : Draft} {key : String}
    (hunique : ∀ l d, draft.get? l = some d → l.kind = .schema .version → l = .entry .version key) :
    (render draft).version =
      ((draft.get? (.entry .version key)).bind (Definition.text? · "version")).getD "0.0.0" := by
  rcases render_of_unique Schema.version
    (fun s e hkind => (version_put s e).trans (if_neg hkind)) hunique with
    ⟨hget, hrender⟩ | ⟨d, s, hget, hs, hrender⟩
  · rw [hget, hrender]
    rfl
  · rw [hget, hrender, version_put, hs]
    rfl

end Schema

end EventSchema
