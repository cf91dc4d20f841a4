import EventSchema.Repository.Basic

/-!
# The tables of a repository

A repository keeps the definition of a location in one table and the file of the location in another.
Either could change without the other, and an insertion is refused for what the second one says but
writes both.  The tables agree on which locations are known all the same, since each insertion keeps
that up: a location without a file has no definition that the insertion could replace.

Main results:

- {lit}`Repository.insertEntries_preserves`, {lit}`Repository.insertFile_preserves`: what single
  insertions keep up, a file keeps up.
- {lit}`Repository.sources_insertFile_cases`: whatever is new was defined by the file.
- {lit}`Repository.Aligned.insert`, {lit}`Repository.Aligned.insertFile`: the tables still agree
  after an insertion, and after a file.
- {lit}`Repository.Aligned.get?_eq_some_iff`: then every definition has a file.
-/

namespace EventSchema

open Std

namespace Repository

/-! ## What one file defines -/

/-- All that a file defines as entries; a definition that is the whole file is the only one. -/
def Contents.list : Contents → List Entry
  | .single l d => [(l, .ok d)]
  | .entries list => list

/-- The location of a definition that is the whole file. -/
def Contents.host? : Contents → Option Location
  | .single l _ => some l
  | .entries _ => none

/-- What a file defines, if its place is known and its document is an object. -/
def contentsOf? (file : Path × Json) : Option Contents :=
  file.2.obj?.bind fun fields =>
    let (extension, place) := ownerOf file.1.components
    (contents extension place fields).toOption

/-- The entries of a file. -/
def entriesOf (file : Path × Json) : List Entry :=
  ((contentsOf? file).map Contents.list).getD []

/-- The location that a file hosts as a whole. -/
def hostOf? (file : Path × Json) : Option Location := (contentsOf? file).bind Contents.host?

/-- Register the location that a file hosts, if it hosts one. -/
def register (r : Repository) (components : List String) : Option Location → Repository
  | some l => { r with files := r.files.insert components l }
  | none => r

/-- What a file defines is found in its document. -/
theorem contentsOf?_eq_some_iff {path : Path} {value : Json} {found : Contents} :
    contentsOf? (path, value) = some found ↔ ∃ fields, value = .obj fields ∧
      contents (ownerOf path.components).1 (ownerOf path.components).2 fields = .ok found := by
  cases value with
  | obj fields =>
    simp only [contentsOf?, Json.obj?, Option.bind_some, Json.obj.injEq, exists_eq_left']
    cases contents (ownerOf path.components).1 (ownerOf path.components).2 fields <;>
      simp [Except.toOption]
  | _ => simp [contentsOf?, Json.obj?]

/-! ## Definitions with their files -/

theorem getElem?_sources (r : Repository) (l : Location) :
    r.sources[l]? = (r.get? l).bind fun d => (r.sourcePath? l).map fun path => ⟨d, path⟩ := by
  rw [sources, ExtTreeMap.getElem?_filterMap', get?, sourcePath?]

theorem sources_eq_some_iff {r : Repository} {l : Location} {s : Source} :
    r.sources[l]? = some s ↔ r.get? l = some s.definition ∧ r.sourcePath? l = some s.path := by
  obtain ⟨definition, path⟩ := s
  simp [getElem?_sources, Option.bind_eq_some_iff]

/-- Without a file there is nothing to find. -/
theorem sources_eq_none {r : Repository} {l : Location} (h : r.sourcePath? l = none) :
    r.sources[l]? = none := by
  rw [getElem?_sources, h]
  cases r.get? l <;> rfl

/-- A definition that is inserted is there with its file, and nothing else is new. -/
theorem getElem?_sources_insert {r next : Repository} {path : Path} {l : Location} {d : Definition}
    (h : r.insert path l d = (next, none)) (k : Location) :
    next.sources[k]? = if l = k then some ⟨d, path⟩ else r.sources[k]? := by
  obtain ⟨existing, -, heq⟩ | ⟨-, heq⟩ := r.insert_cases path l d
  · cases heq.symm.trans h
  · cases heq.symm.trans h
    rw [getElem?_sources, getElem?_sources]
    by_cases hk : l = k
    · subst hk
      simp [get?, sourcePath?]
    · simp [get?, sourcePath?, ExtTreeMap.getElem?_insert, hk]

/-! ## What insertions keep up -/

section Preservation

variable {P : Repository → Prop} {r : Repository} {path : Path}

/-- What each insertion of an entry keeps up, a list of entries keeps up. -/
theorem insertEntries_preserves {list : List Entry} (h : P r)
    (hinsert : ∀ r l d, (l, .ok d) ∈ list → P r → P (r.insert path l d).1) :
    P (r.insertEntries path list).1 := by
  induction list generalizing r with
  | nil => exact h
  | cons e rest ih =>
    obtain ⟨l, value⟩ := e
    cases value with
    | error defect => exact h
    | ok d =>
      have hhere := hinsert r l d List.mem_cons_self h
      rw [insertEntries]
      split
      · rename_i next defect hnext
        rwa [hnext] at hhere
      · rename_i next hnext
        rw [hnext] at hhere
        exact ih hhere fun r l d hmem => hinsert r l d (List.mem_cons_of_mem _ hmem)

/-- What an insertion keeps up, and the registration of its file afterwards, both keep up together. -/
theorem insertSingle_preserves {l : Location} {d : Definition} (h : P r)
    (hinsert : ∀ r, P r → P (r.insert path l d).1)
    (hregister : ∀ r, r.sources[l]? = some ⟨d, path⟩ → P r →
      P (r.register path.components (some l))) :
    P (r.insertSingle path l d).1 := by
  have hhere := hinsert r h
  rw [insertSingle]
  split
  · rename_i next defect hnext
    rwa [hnext] at hhere
  · rename_i next hnext
    rw [hnext] at hhere
    exact hregister next (by rw [getElem?_sources_insert hnext, if_pos rfl]) hhere

/-- What each insertion of an entry of a file keeps up, and its registration, the file keeps up. -/
theorem insertFile_preserves {value : Json} (h : P r)
    (hinsert : ∀ r l d, (l, .ok d) ∈ entriesOf (path, value) → P r → P (r.insert path l d).1)
    (hregister : ∀ r l d, hostOf? (path, value) = some l → r.sources[l]? = some ⟨d, path⟩ → P r →
      P (r.register path.components (some l))) :
    P (r.insertFile path value).1 := by
  unfold insertFile
  cases value with
  | obj fields =>
    dsimp only
    cases hfound : contents (ownerOf path.components).1 (ownerOf path.components).2 fields with
    | error defect => exact h
    | ok found =>
      have hcontents := contentsOf?_eq_some_iff.2 ⟨fields, rfl, hfound⟩
      cases found with
      | entries list =>
        have hlist : entriesOf (path, .obj fields) = list := by
          rw [entriesOf, hcontents, Option.map_some, Option.getD_some, Contents.list]
        exact insertEntries_preserves h (hlist ▸ hinsert)
      | single l d =>
        have hlist : entriesOf (path, .obj fields) = [(l, .ok d)] := by
          rw [entriesOf, hcontents, Option.map_some, Option.getD_some, Contents.list]
        have hhost : hostOf? (path, .obj fields) = some l := by
          rw [hostOf?, hcontents, Option.bind_some, Contents.host?]
        exact insertSingle_preserves h (fun r => hinsert r l d (hlist ▸ List.mem_singleton_self _))
          fun r => hregister r l d hhost
  | _ => exact h

/-- A definition was there with its file before a file was inserted, or is an entry of this file. -/
theorem sources_insertFile_cases {value : Json} {l : Location} {s : Source}
    (h : (r.insertFile path value).1.sources[l]? = some s) :
    r.sources[l]? = some s ∨ (l, .ok s.definition) ∈ entriesOf (path, value) ∧ s.path = path := by
  suffices hfrom : ∀ (k : Location) (t : Source),
      (r.insertFile path value).1.sources[k]? = some t →
        r.sources[k]? = some t ∨ (k, .ok t.definition) ∈ entriesOf (path, value) ∧ t.path = path from
    hfrom l s h
  refine insertFile_preserves (P := fun next => ∀ (k : Location) (t : Source),
    next.sources[k]? = some t →
      r.sources[k]? = some t ∨ (k, .ok t.definition) ∈ entriesOf (path, value) ∧ t.path = path)
    (fun k t ht => Or.inl ht) ?_ ?_
  · intro next entry d hmem hnext k t ht
    obtain ⟨existing, -, heq⟩ | ⟨-, heq⟩ := next.insert_cases path entry d
    · rw [heq] at ht
      exact hnext k t ht
    · rw [heq, getElem?_sources_insert heq] at ht
      split at ht
      · rename_i hk
        cases ht
        exact Or.inr ⟨hk ▸ hmem, rfl⟩
      · exact hnext k t ht
  · exact fun _ _ _ _ _ hnext => hnext

end Preservation

/-! ## Tables that agree -/

/-- The locations with a definition are those with a file. -/
def Aligned (r : Repository) : Prop := ∀ l, r.contains l = (r.sourcePath? l).isSome

theorem aligned_empty : empty.Aligned := fun l => by simp [contains, sourcePath?, empty]

/-- An insertion adds its location to both tables, or to neither. -/
theorem Aligned.insert {r : Repository} (h : r.Aligned) (path : Path) (l : Location)
    (d : Definition) : (r.insert path l d).1.Aligned := by
  obtain ⟨existing, -, heq⟩ | ⟨-, heq⟩ := r.insert_cases path l d
  · rw [heq]
    exact h
  · rw [heq]
    intro k
    have hk := h k
    rw [contains, sourcePath?, ExtTreeMap.contains_eq_isSome_getElem?] at hk ⊢
    rw [ExtTreeMap.getElem?_insert, ExtTreeMap.getElem?_insert]
    split
    · rfl
    · exact hk

theorem Aligned.insertEntries {r : Repository} (h : r.Aligned) (path : Path) (list : List Entry) :
    (r.insertEntries path list).1.Aligned :=
  insertEntries_preserves h fun _ l d _ hr => hr.insert path l d

theorem Aligned.insertFile {r : Repository} (h : r.Aligned) (path : Path) (value : Json) :
    (r.insertFile path value).1.Aligned :=
  insertFile_preserves h (fun _ l d _ hr => hr.insert path l d) fun _ _ _ _ _ hr => hr

/-- What each insertion into tables that agree keeps up, and the registration of a file, a file keeps
up. -/
theorem Aligned.insertFile_preserves {P : Repository → Prop} {r : Repository} {path : Path}
    {value : Json} (haligned : r.Aligned) (h : P r)
    (hinsert : ∀ r l d, r.Aligned → P r → P (r.insert path l d).1)
    (hregister : ∀ r l d, hostOf? (path, value) = some l → r.sources[l]? = some ⟨d, path⟩ → P r →
      P (r.register path.components (some l))) :
    P (r.insertFile path value).1 := by
  have hboth : (r.insertFile path value).1.Aligned ∧ P (r.insertFile path value).1 := by
    refine Repository.insertFile_preserves (P := fun next => next.Aligned ∧ P next)
      ⟨haligned, h⟩ ?_ ?_
    · exact fun next l d _ hnext => ⟨hnext.1.insert path l d, hinsert next l d hnext.1 hnext.2⟩
    · exact fun next l d hhost hsource hnext => ⟨hnext.1, hregister next l d hhost hsource hnext.2⟩
  exact hboth.2

theorem Aligned.insertFiles {r last : Repository} (h : r.Aligned) {files : List (Path × Json)}
    (hlast : r.insertFiles files = .ok last) : last.Aligned := by
  induction files generalizing r with
  | nil =>
    cases hlast
    exact h
  | cons file rest ih =>
    have hhere := h.insertFile file.1 file.2
    rw [Repository.insertFiles] at hlast
    split at hlast
    · cases hlast
    · rename_i next hnext
      rw [hnext] at hhere
      exact ih hhere hlast

/-! ## Definitions in tables that agree -/

namespace Aligned

variable {r : Repository} (h : r.Aligned) {l : Location}

include h

theorem isSome_get? (l : Location) : (r.get? l).isSome = (r.sourcePath? l).isSome := by
  rw [← h l, get?, contains, ExtTreeMap.contains_eq_isSome_getElem?]

/-- A location without a file has no definition. -/
theorem get?_eq_none (hl : r.sourcePath? l = none) : r.get? l = none := by
  have hsome := h.isSome_get? l
  rw [hl] at hsome
  exact Option.not_isSome_iff_eq_none.1 (by simp [hsome])

/-- Every definition has a file. -/
theorem get?_eq_some_iff {d : Definition} :
    r.get? l = some d ↔ ∃ path, r.sources[l]? = some ⟨d, path⟩ := by
  constructor
  · intro hd
    obtain ⟨path, hpath⟩ : ∃ path, r.sourcePath? l = some path := by
      rw [← Option.isSome_iff_exists, ← h.isSome_get?, hd]
      rfl
    exact ⟨path, sources_eq_some_iff.2 ⟨hd, hpath⟩⟩
  · rintro ⟨path, hsource⟩
    exact (sources_eq_some_iff.1 hsource).1

/-- Every file that a location was read from has left a definition there. -/
theorem sourcePath?_eq_some_iff {path : Path} :
    r.sourcePath? l = some path ↔ ∃ d, r.sources[l]? = some ⟨d, path⟩ := by
  constructor
  · intro hpath
    obtain ⟨d, hd⟩ : ∃ d, r.get? l = some d := by
      rw [← Option.isSome_iff_exists, h.isSome_get?, hpath]
      rfl
    exact ⟨d, sources_eq_some_iff.2 ⟨hd, hpath⟩⟩
  · rintro ⟨d, hsource⟩
    exact (sources_eq_some_iff.1 hsource).2

/-- Tables that agree are told by the definitions with their files. -/
theorem eq_of_sources_eq {r' : Repository} (h' : r'.Aligned) (hsources : r.sources = r'.sources) :
    r.definitions = r'.definitions ∧ r.paths = r'.paths := by
  constructor
  · ext1 l
    ext d
    exact h.get?_eq_some_iff.trans (hsources ▸ h'.get?_eq_some_iff.symm)
  · ext1 l
    ext path
    exact h.sourcePath?_eq_some_iff.trans (hsources ▸ h'.sourcePath?_eq_some_iff.symm)

end Aligned

end Repository

end EventSchema
