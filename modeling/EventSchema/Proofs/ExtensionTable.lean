import EventSchema.Proofs.ParentLinks

/-!
# The identifiers of extensions

The identifiers of extensions are kept in one table, under the declared names of the extensions and
under their directories.  The declarations are entered in order of directory, so under a name that
several extensions go by stands the identifier of the last of them.

Main results:

- {lit}`Draft.getElem?_declaredNames`: the name of an extension is what its declaration states.
- {lit}`Planner.getElem?_extensionUids`: what stands under the declared name of an extension.
- {lit}`Planner.extensionUids_congr`: the table depends on the declarations only.
-/

namespace EventSchema

open Std

namespace Draft

/-- A location in core is given by its kind and name. -/
theorem eq_inCore {l : Location} (hcore : l.isCore = true) : l = .inCore l.kind l.name := by
  cases l with
  | mk kind name extension =>
    cases extension with
    | none => rfl
    | some extension => cases hcore

/-- The name of an extension is what its declaration states, if declarations are in core. -/
theorem getElem?_declaredNames {draft : Draft}
    (hcore : ∀ l d, draft.get? l = some d → l.kind = .extension → l.isCore = true) (x : String) :
    draft.declaredNames[x]? =
      (draft.get? (.inCore .extension x)).map fun d => d.name?.getD x := by
  have hlocation (l : Location) (d : Definition)
      (hmem : (l, d) ∈ draft.definitions.toList.filter fun e => e.1.kind == .extension) :
      draft.get? l = some d ∧ l = .inCore .extension l.name := by
    obtain ⟨hmem, hkind⟩ := List.mem_filter.1 hmem
    have hkind : l.kind = .extension := by simpa using hkind
    have hget := mem_toList_definitions.1 hmem
    exact ⟨hget, hkind ▸ eq_inCore (hcore l d hget hkind)⟩
  ext name
  rw [declaredNames, Inheritance.getElem?_ofList_eq_some_iff, List.mem_map, Option.map_eq_some_iff]
  · constructor
    · rintro ⟨⟨l, d⟩, hmem, heq⟩
      obtain ⟨hget, hl⟩ := hlocation l d hmem
      cases heq
      exact ⟨d, hl ▸ hget, rfl⟩
    · rintro ⟨d, hget, rfl⟩
      exact ⟨(.inCore .extension x, d),
        List.mem_filter.2 ⟨mem_toList_definitions.2 hget, rfl⟩, rfl⟩
  · have hordered := draft.definitions.ordered_keys_toList.filter fun e => e.1.kind == .extension
    refine List.pairwise_map.2 (hordered.imp_of_mem ?_)
    rintro ⟨l, d⟩ ⟨l', d'⟩ hmem hmem' hlt heq
    have hname : l.name = l'.name := LawfulEqOrd.eq_of_compare heq
    dsimp only at hlt
    rw [(hlocation l d hmem).2, (hlocation l' d' hmem').2, hname, ReflOrd.compare_self] at hlt
    cases hlt

/-- The names of extensions depend on their declarations. -/
theorem declaredNames_congr {left right : Draft}
    (h : ∀ l, l.kind = .extension → left.get? l = right.get? l) :
    left.declaredNames = right.declaredNames := by
  have hlisted := listing_congr (fun l => l.kind == .extension) fun l hl =>
    h l (eq_of_beq hl)
  rw [declaredNames, declaredNames, hlisted]

end Draft

namespace Planner

/-- Add the identifier of an extension, under its declared name and its directory. -/
def addUid (draft : Draft) (uids : ExtTreeMap String Int) (e : String × String) :
    ExtTreeMap String Int :=
  match (draft.get? (.inCore .extension e.1)).bind Definition.uid? with
  | some uid => (uids.insert e.2 uid).insert e.1 uid
  | none => uids

/-- The numbers of extensions are gathered in the order of their directories. -/
theorem extensionUids_eq (draft : Draft) :
    extensionUids draft = draft.declaredNames.toList.foldl (addUid draft) ∅ := rfl

/-- An extension adds a number for its directory and its name only. -/
theorem getElem?_addUid_of_ne (draft : Draft) (uids : ExtTreeMap String Int) {e : String × String}
    {mark : String} (hdirectory : mark ≠ e.1) (hname : mark ≠ e.2) :
    (addUid draft uids e)[mark]? = uids[mark]? := by
  unfold addUid
  split
  · rw [ExtTreeMap.getElem?_insert, if_neg fun heq => hdirectory (LawfulEqOrd.eq_of_compare heq).symm,
      ExtTreeMap.getElem?_insert, if_neg fun heq => hname (LawfulEqOrd.eq_of_compare heq).symm]
  · rfl

theorem getElem?_addUid_congr {left right : Draft} {e : String × String}
    (hget : left.get? (.inCore .extension e.1) = right.get? (.inCore .extension e.1))
    {uids uids' : ExtTreeMap String Int} {mark : String} (huids : uids'[mark]? = uids[mark]?) :
    (addUid left uids' e)[mark]? = (addUid right uids e)[mark]? := by
  unfold addUid
  rw [hget]
  split
  · simp only [ExtTreeMap.getElem?_insert, huids]
  · exact huids

/-- The table depends on the declarations only. -/
theorem extensionUids_congr {left right : Draft}
    (h : ∀ l, l.kind = .extension → left.get? l = right.get? l) :
    extensionUids left = extensionUids right := by
  have hadd : addUid left = addUid right := by
    funext uids e
    rw [addUid, h _ rfl, addUid]
  rw [extensionUids_eq, extensionUids_eq, Draft.declaredNames_congr h, hadd]

/-- The identifier under a name stays if no declaration gives another one under it. -/
theorem getElem?_foldl_addUid {draft : Draft} {entries : List (String × String)} {mark : String}
    {uid : Int}
    (hentries : ∀ e ∈ entries, mark = e.1 ∨ mark = e.2 → ∀ other,
      (draft.get? (.inCore .extension e.1)).bind Definition.uid? = some other → other = uid)
    {uids : ExtTreeMap String Int} (huid : uids[mark]? = some uid) :
    (entries.foldl (addUid draft) uids)[mark]? = some uid := by
  induction entries generalizing uids with
  | nil => exact huid
  | cons e rest ih =>
    obtain ⟨here, hrest⟩ := List.forall_mem_cons.1 hentries
    refine ih hrest ?_
    by_cases hmark : mark = e.1 ∨ mark = e.2
    · unfold addUid
      split
      · rename_i other hother
        rw [here hmark other hother, ExtTreeMap.getElem?_insert, ExtTreeMap.getElem?_insert, huid,
          ite_self, ite_self]
      · exact huid
    · obtain ⟨hdirectory, hname⟩ := not_or.1 hmark
      rw [getElem?_addUid_of_ne draft uids hdirectory hname, huid]

/-- Under the declared name of an extension stands its identifier, unless an extension of a later
directory goes by that name and has another one. -/
theorem getElem?_extensionUids {draft : Draft} {directory declared : String} {uid : Int}
    (hname : draft.declaredNames[directory]? = some declared)
    (huid : (draft.get? (.inCore .extension directory)).bind Definition.uid? = some uid)
    (hlater : ∀ later name, draft.declaredNames[later]? = some name →
      compare directory later = .lt → declared = later ∨ declared = name → ∀ other,
        (draft.get? (.inCore .extension later)).bind Definition.uid? = some other → other = uid) :
    (extensionUids draft)[declared]? = some uid := by
  have hmem := ExtTreeMap.mem_toList_iff_getElem?_eq_some.2 hname
  obtain ⟨before, after, hsplit⟩ := List.append_of_mem hmem
  have hordered := draft.declaredNames.ordered_keys_toList
  rw [hsplit, List.pairwise_append, List.pairwise_cons] at hordered
  rw [extensionUids_eq, hsplit, List.foldl_append, List.foldl_cons]
  refine getElem?_foldl_addUid (fun e he hmark other hother => ?_) ?_
  · have hthere : draft.declaredNames[e.1]? = some e.2 := by
      refine ExtTreeMap.mem_toList_iff_getElem?_eq_some.1 ?_
      rw [hsplit]
      exact List.mem_append_right _ (List.mem_cons_of_mem _ he)
    exact hlater e.1 e.2 hthere (hordered.2.1.1 e he) hmark other hother
  · unfold addUid
    rw [huid]
    dsimp only
    rw [ExtTreeMap.getElem?_insert, ExtTreeMap.getElem?_insert_self, ite_self]

end Planner

end EventSchema
