import EventSchema.Proofs.FileOrder
import Mathlib.Data.List.Induction

/-!
# Insertions that may fail

Files are inserted one after another, and a file that is refused does not stop those behind it.
What is stored is never replaced, since a location is defined once; so every definition keeps the
path of the file that it was read from.  Only files that are one definition are found by their
paths.  A refused file leaves nothing behind, but for a dictionary or a file of categories: its
entries are inserted one by one, and those in front of the first that is refused remain.

Main results:

- {lit}`Repository.Aligned.insertAll`: the locations with a definition are those with a file.
- {lit}`Repository.Aligned.growsTo_insertAll`: definitions and paths stay.
- {lit}`Repository.exists_file_of_insertAll`: each definition came with its path from one file.
- {lit}`Repository.registered_insertAll`: the path of a file leads to what was read from it.
- {lit}`Repository.insertFile_of_listedEntries?_eq_none`,
  {lit}`Repository.Aligned.exists_split_of_insertFile`: what a refused file leaves behind.
- {lit}`Repository.insertions_keep_tables_consistent`: all of it for files inserted in turn.
-/

namespace EventSchema

open Std

namespace Repository

/-- Insert files one after another, whether they are accepted or not. -/
def insertAll (r : Repository) (files : List (Path × Json)) : Repository :=
  files.foldl (fun r file => (r.insertFile file.1 file.2).1) r

theorem insertAll_append (r : Repository) (files more : List (Path × Json)) :
    r.insertAll (files ++ more) = (r.insertAll files).insertAll more :=
  List.foldl_append

/-! ## Ways to insert a file -/

/-- The entries of a dictionary, attributes before types, or of a file of categories, in the order
in which they are written. -/
def entriesAt? (extension : Option String) (place : List String) (fields : Fields) :
    Option (List Entry) :=
  match place with
  | ["dictionary.json"] => some (dictionaryEntries extension fields)
  | ["categories.json"] =>
    some ((objectAt fields "attributes").map fun e => categoryEntry extension e.1 e.2)
  | _ => none

/-- The entries that are inserted one by one, if a file is a dictionary or a file of categories. -/
def listedEntries? (file : Path × Json) : Option (List Entry) :=
  file.2.obj?.bind fun fields =>
    let (extension, place) := ownerOf file.1.components
    entriesAt? extension place fields

/-- The kinds of definitions that are entries of a file. -/
def entryKinds : List Kind := [.dictionary, .type, .category]

theorem contents_eq_entries_iff {extension : Option String} {place : List String}
    {fields : Fields} {list : List Entry} :
    contents extension place fields = .ok (.entries list) ↔
      entriesAt? extension place fields = some list := by
  unfold contents
  dsimp only
  split
  · simp [entriesAt?]
  · simp [entriesAt?]
  · cases extension <;> simp [entriesAt?]
  · split
    · split <;> simp [entriesAt?]
    · simp [entriesAt?]
  all_goals simp [entriesAt?]

theorem entriesAt?_eq_none {extension : Option String} {place : List String} {fields : Fields}
    (h : ∀ list, contents extension place fields ≠ .ok (.entries list)) :
    entriesAt? extension place fields = none :=
  Option.eq_none_iff_forall_ne_some.2 fun list hlist => h list (contents_eq_entries_iff.2 hlist)

/-- A definition that is a whole file is no entry. -/
theorem kind_of_contents {extension : Option String} {place : List String} {fields : Fields}
    {l : Location} {d : Definition} (h : contents extension place fields = .ok (.single l d)) :
    l.kind ∉ entryKinds := by
  have hwhole {kind : Kind} (hkind : kind ∉ entryKinds) (name : String) :
      (owned extension (.inCore kind name)).kind ∉ entryKinds := by
    cases extension <;> exact hkind
  unfold contents at h
  dsimp only at h
  split at h
  · cases h
  · cases h
  · split at h
    · cases h
      exact show Kind.extension ∉ entryKinds by decide
    · cases h
  · split at h
    · split at h
      · cases h
        exact hwhole (by decide) _
      · cases h
    · cases h
      exact hwhole (by decide) _
  all_goals cases h
  all_goals exact hwhole (by decide) _

/-- A file that hosts one definition hosts no entry. -/
theorem kind_of_hostOf? {path : Path} {value : Json} {l : Location}
    (h : hostOf? (path, value) = some l) : l.kind ∉ entryKinds := by
  obtain ⟨found, hfound, hhost⟩ := Option.bind_eq_some_iff.1 h
  obtain ⟨fields, -, hcontents⟩ := contentsOf?_eq_some_iff.1 hfound
  cases found with
  | single k d =>
    cases hhost
    exact kind_of_contents hcontents
  | entries list => cases hhost

/-- A file is refused as a whole or added as a whole, or its entries are inserted in turn. -/
theorem insertFile_cases (r : Repository) (path : Path) (value : Json) :
    (listedEntries? (path, value) = none ∧
      ((∃ defect, r.insertFile path value = (r, some defect)) ∨
        ∃ next, r.insertFile path value = (next, none))) ∨
    listedEntries? (path, value) = some (entriesOf (path, value)) ∧
      r.insertFile path value = r.insertEntries path (entriesOf (path, value)) := by
  cases value with
  | obj fields =>
    simp only [insertFile, listedEntries?, entriesOf, contentsOf?, Json.obj?, Option.bind_some]
    cases hcontents : contents (ownerOf path.components).1 (ownerOf path.components).2 fields with
    | error defect =>
      exact Or.inl ⟨entriesAt?_eq_none (by simp [hcontents]), Or.inl ⟨defect, rfl⟩⟩
    | ok found =>
      cases found with
      | entries list =>
        exact Or.inr ⟨contents_eq_entries_iff.1 hcontents, rfl⟩
      | single l d =>
        refine Or.inl ⟨entriesAt?_eq_none (by simp [hcontents]), ?_⟩
        dsimp only [insertSingle]
        obtain ⟨existing, -, hinsert⟩ | ⟨-, hinsert⟩ := r.insert_cases path l d
        · exact Or.inl ⟨_, by rw [hinsert]⟩
        · exact Or.inr ⟨_, by rw [hinsert]⟩
  | _ => exact Or.inl ⟨rfl, Or.inl ⟨_, rfl⟩⟩

/-- The two tables agree, whatever files are inserted. -/
theorem Aligned.insertAll {r : Repository} (h : r.Aligned) (files : List (Path × Json)) :
    (r.insertAll files).Aligned := by
  induction files generalizing r with
  | nil => exact h
  | cons file rest ih => exact ih (h.insertFile file.1 file.2)

/-! ## What is stored stays -/

/-- A repository has all that another one has: the same definitions, and the same files of
locations. -/
structure GrowsTo (r next : Repository) : Prop where
  definitions : ∀ l d, r.get? l = some d → next.get? l = some d
  paths : ∀ l path, r.sourcePath? l = some path → next.sourcePath? l = some path

theorem GrowsTo.refl (r : Repository) : r.GrowsTo r := ⟨fun _ _ h => h, fun _ _ h => h⟩

theorem GrowsTo.trans {first second third : Repository} (h : first.GrowsTo second)
    (h' : second.GrowsTo third) : first.GrowsTo third :=
  ⟨fun l d hd => h'.definitions l d (h.definitions l d hd),
    fun l path hpath => h'.paths l path (h.paths l path hpath)⟩

/-- An insertion writes where no file is known, so if the tables agree, it replaces nothing. -/
theorem Aligned.growsTo_insert {r : Repository} (h : r.Aligned) (path : Path) (l : Location)
    (d : Definition) : r.GrowsTo (r.insert path l d).1 := by
  obtain ⟨existing, -, heq⟩ | ⟨hfree, heq⟩ := r.insert_cases path l d
  · rw [heq]
    exact .refl r
  · have hkeeps {α : Type} {table : LocationMap α} (hl : table[l]? = none) (value : α)
        (k : Location) (v : α) (hv : table[k]? = some v) :
        (table.insert l value)[k]? = some v := by
      have hne : l ≠ k := by
        rintro rfl
        cases hl.symm.trans hv
      simpa [ExtTreeMap.getElem?_insert, hne] using hv
    rw [heq]
    exact ⟨hkeeps (h.get?_eq_none hfree) d, hkeeps hfree path⟩

theorem Aligned.growsTo_insertFile {r : Repository} (h : r.Aligned) (path : Path) (value : Json) :
    r.GrowsTo (r.insertFile path value).1 := by
  refine h.insertFile_preserves (.refl r) ?_ ?_
  · intro next l d haligned hnext
    exact hnext.trans (haligned.growsTo_insert path l d)
  · exact fun _ _ _ _ _ hnext => ⟨hnext.definitions, hnext.paths⟩

/-- Definitions and the files of locations stay, whatever files are inserted. -/
theorem Aligned.growsTo_insertAll {r : Repository} (h : r.Aligned) (files : List (Path × Json)) :
    r.GrowsTo (r.insertAll files) := by
  induction files generalizing r with
  | nil => exact .refl r
  | cons file rest ih =>
    exact (h.growsTo_insertFile file.1 file.2).trans (ih (h.insertFile file.1 file.2))

/-! ## Where definitions come from -/

/-- Each definition came with its path from one file. -/
theorem exists_file_of_insertAll {r : Repository} {files : List (Path × Json)} {l : Location}
    {s : Source} (h : (r.insertAll files).sources[l]? = some s) :
    r.sources[l]? = some s ∨
      ∃ file ∈ files, (l, .ok s.definition) ∈ entriesOf file ∧ s.path = file.1 := by
  induction files generalizing r with
  | nil => exact Or.inl h
  | cons file rest ih =>
    rcases ih h with hbefore | ⟨other, hother, hfrom⟩
    · rcases sources_insertFile_cases hbefore with hbefore | hfrom
      · exact Or.inl hbefore
      · exact Or.inr ⟨file, List.mem_cons_self, hfrom⟩
    · exact Or.inr ⟨other, List.mem_cons_of_mem _ hother, hfrom⟩

/-! ## Files by their paths -/

/-- The path of a file leads to the definition that was read from it, and that is no entry. -/
def Registered (r : Repository) : Prop :=
  ∀ components l, r.locationAt? components = some l →
    (∃ path, r.sourcePath? l = some path ∧ path.components = components) ∧ l.kind ∉ entryKinds

/-- An insertion keeps what is registered, since it replaces nothing. -/
theorem Registered.insert {r : Repository} (h : r.Registered) (haligned : r.Aligned) (path : Path)
    (l : Location) (d : Definition) : (r.insert path l d).1.Registered := by
  have hgrows := haligned.growsTo_insert path l d
  have hfiles : (r.insert path l d).1.files = r.files := by
    obtain ⟨existing, -, heq⟩ | ⟨-, heq⟩ := r.insert_cases path l d <;> rw [heq]
  intro components k hk
  rw [locationAt?, hfiles] at hk
  obtain ⟨⟨file, hfile, hcomponents⟩, hkind⟩ := h components k hk
  exact ⟨⟨file, hgrows.paths k file hfile, hcomponents⟩, hkind⟩

/-- A file may be registered for a location that was read from it and is no entry. -/
theorem Registered.register {r : Repository} (h : r.Registered) {path : Path} {l : Location}
    (hpath : r.sourcePath? l = some path) (hkind : l.kind ∉ entryKinds) :
    (r.register path.components (some l)).Registered := by
  intro components k hk
  rw [locationAt?, Repository.register, ExtTreeMap.getElem?_insert] at hk
  split at hk
  · rename_i hsame
    cases hk
    exact ⟨⟨path, hpath, Std.LawfulEqOrd.eq_of_compare hsame⟩, hkind⟩
  · exact h components k hk

theorem Registered.insertFile {r : Repository} (h : r.Registered) (haligned : r.Aligned)
    (path : Path) (value : Json) : (r.insertFile path value).1.Registered := by
  refine haligned.insertFile_preserves h ?_ ?_
  · exact fun next l d hnext hregistered => hregistered.insert hnext path l d
  · intro next l d hhost hsource hregistered
    exact hregistered.register (sources_eq_some_iff.1 hsource).2 (kind_of_hostOf? hhost)

/-- Files are found by their paths, and nothing else is. -/
theorem registered_insertAll (files : List (Path × Json)) : (empty.insertAll files).Registered := by
  induction files using List.reverseRecOn with
  | nil => exact fun components l hl => by simp [insertAll, locationAt?, empty] at hl
  | append_singleton files file ih =>
    rw [insertAll_append]
    exact ih.insertFile (aligned_empty.insertAll files) file.1 file.2

/-! ## What a refused file leaves behind -/

/-- The entries of a file that have been added: all of them are definitions, at locations that were
free, and nothing else is new. -/
structure Adds (r : Repository) (path : Path) (added : List Entry) (next : Repository) : Prop where
  readable : ∀ e ∈ added, ∃ d, e.2 = .ok d
  free : ∀ e ∈ added, r.contains e.1 = false
  definitions : ∀ l d, next.get? l = some d ↔ r.get? l = some d ∨ (l, .ok d) ∈ added
  paths : ∀ l p, next.sourcePath? l = some p ↔
    r.sourcePath? l = some p ∨ l ∈ added.map Prod.fst ∧ p = path
  files : ∀ components, next.locationAt? components = r.locationAt? components

/-- An entry that cannot be added: it is no definition, or its location is taken. -/
def Refuses (r : Repository) (e : Entry) (defect : Defect) : Prop :=
  e.2 = .error defect ∨
    ∃ existing, r.sourcePath? e.1 = some existing ∧ defect = .duplicate e.1 existing

/-- Entries are added up to the first that is refused. -/
theorem exists_split_of_insertEntries {r next : Repository} {path : Path} {list : List Entry}
    {defect : Defect} (h : r.insertEntries path list = (next, some defect)) :
    ∃ before refused after, list = before ++ refused :: after ∧
      r.insertEntries path before = (next, none) ∧ next.Refuses refused defect := by
  induction list generalizing r with
  | nil => cases h
  | cons e rest ih =>
    obtain ⟨l, value⟩ := e
    cases value with
    | error found =>
      cases h
      exact ⟨[], _, rest, rfl, rfl, Or.inl rfl⟩
    | ok d =>
      rw [insertEntries] at h
      obtain ⟨existing, htaken, hinsert⟩ | ⟨-, hinsert⟩ := r.insert_cases path l d
      · rw [hinsert] at h
        cases h
        exact ⟨[], _, rest, rfl, rfl, Or.inr ⟨existing, htaken, rfl⟩⟩
      · rw [hinsert] at h
        obtain ⟨before, refused, after, rfl, hbefore, hrefused⟩ := ih h
        refine ⟨(l, .ok d) :: before, refused, after, rfl, ?_, hrefused⟩
        rw [insertEntries, hinsert]
        exact hbefore

/-- Entries that are all accepted have been added. -/
theorem Aligned.adds_of_insertEntries {r next : Repository} (haligned : r.Aligned) {path : Path}
    {list : List Entry} (h : r.insertEntries path list = (next, none)) : r.Adds path list next := by
  have hnone : (r.insertEntries path list).2 = none := by rw [h]
  obtain ⟨hreadable, -, hfree⟩ := insertEntries_eq_none_iff.1 hnone
  have hafter := haligned.insertEntries path list
  have hsources := sources_insertEntries hnone
  obtain ⟨hfiles, -⟩ := frame_insertEntries r path list
  rw [h] at hafter hsources hfiles
  refine ⟨hreadable, fun e he => ?_, fun l d => ?_, fun l p => ?_, fun components => ?_⟩
  · rw [haligned e.1, hfree e he]
    rfl
  · rw [hafter.get?_eq_some_iff, haligned.get?_eq_some_iff]
    simp only [hsources, exists_or, exists_and_left, exists_eq, and_true]
  · rw [hafter.sourcePath?_eq_some_iff, haligned.sourcePath?_eq_some_iff]
    simp only [hsources, exists_or, exists_and_right]
    refine or_congr_right (and_congr_left fun _ => ?_)
    constructor
    · rintro ⟨d, hmem⟩
      exact List.mem_map_of_mem hmem
    · intro hmem
      obtain ⟨e, he, rfl⟩ := List.mem_map.1 hmem
      obtain ⟨d, hd⟩ := hreadable e he
      exact ⟨d, hd ▸ he⟩
  · rw [locationAt?, hfiles, locationAt?]

theorem insertFile_of_listedEntries?_eq_none {r next : Repository} {path : Path} {value : Json}
    {defect : Defect} (h : r.insertFile path value = (next, some defect))
    (hlisted : listedEntries? (path, value) = none) : next = r := by
  rcases r.insertFile_cases path value with
    ⟨-, ⟨found, heq⟩ | ⟨_, heq⟩⟩ | ⟨hsome, -⟩
  · cases heq.symm.trans h
    rfl
  · cases heq.symm.trans h
  · cases hsome.symm.trans hlisted

/-- A refused dictionary or file of categories leaves the entries in front of the first that is
refused. -/
theorem Aligned.exists_split_of_insertFile {r next : Repository} (haligned : r.Aligned)
    {path : Path} {value : Json} {defect : Defect}
    (h : r.insertFile path value = (next, some defect)) {list : List Entry}
    (hlisted : listedEntries? (path, value) = some list) :
    ∃ before refused after, list = before ++ refused :: after ∧ r.Adds path before next ∧
      next.Refuses refused defect := by
  rcases r.insertFile_cases path value with ⟨hnone, -⟩ | ⟨hentries, heq⟩
  · cases hnone.symm.trans hlisted
  · cases hentries.symm.trans hlisted
    obtain ⟨before, refused, after, hsplit, hbefore, hrefused⟩ :=
      exists_split_of_insertEntries (heq.symm.trans h)
    exact ⟨before, refused, after, hsplit, haligned.adds_of_insertEntries hbefore, hrefused⟩

/--
Whatever files are inserted, and whether they are accepted or not, what a repository knows fits
together.  The locations with a definition are those with a path, and both came from the same file.
What is stored stays.  The path of a file leads to a location with that path, which is no entry of a
dictionary or of a file of categories.  A file that is refused adds nothing, unless it is a
dictionary or a file of categories; then it adds the entries in front of the first refused one.
-/
theorem insertions_keep_tables_consistent (files : List (Path × Json)) :
    let r := empty.insertAll files
    (∀ l, r.contains l = (r.sourcePath? l).isSome) ∧
    (∀ l d, r.get? l = some d →
      ∃ file ∈ files, (l, .ok d) ∈ entriesOf file ∧ r.sourcePath? l = some file.1) ∧
    (∀ more l, (∀ d, r.get? l = some d → (r.insertAll more).get? l = some d) ∧
      ∀ path, r.sourcePath? l = some path → (r.insertAll more).sourcePath? l = some path) ∧
    (∀ components l, r.locationAt? components = some l →
      (∃ path, r.sourcePath? l = some path ∧ path.components = components) ∧
        l.kind ∉ entryKinds) ∧
    ∀ path value next defect, r.insertFile path value = (next, some defect) →
      (listedEntries? (path, value) = none → next = r) ∧
      ∀ list, listedEntries? (path, value) = some list →
        ∃ before refused after, list = before ++ refused :: after ∧ r.Adds path before next ∧
          next.Refuses refused defect := by
  intro r
  have haligned : r.Aligned := aligned_empty.insertAll files
  refine ⟨haligned, fun l d hd => ?_, fun more l => ?_, registered_insertAll files,
    fun path value next defect h => ?_⟩
  · obtain ⟨path, hsource⟩ := haligned.get?_eq_some_iff.1 hd
    rcases exists_file_of_insertAll hsource with hempty | ⟨file, hfile, hentry, hpath⟩
    · cases (sources_eq_none (by simp [sourcePath?, empty])).symm.trans hempty
    · exact ⟨file, hfile, hentry, hpath ▸ (sources_eq_some_iff.1 hsource).2⟩
  · have hgrows := haligned.growsTo_insertAll more
    exact ⟨hgrows.definitions l, hgrows.paths l⟩
  · exact ⟨insertFile_of_listedEntries?_eq_none h, fun _ => haligned.exists_split_of_insertFile h⟩

/-- A dictionary whose second attribute is no object. -/
def brokenDictionary : Json :=
  .obj [("types", .obj [("attributes", .obj [("t", .obj [])])]),
    ("attributes", .obj [("p", .obj [("caption", .str "P")]), ("q", .str "none"), ("r", .obj [])])]

/-- A dictionary that is refused at its second attribute leaves the first one, without the others
and without the types. -/
theorem broken_dictionary_leaves_first_attribute :
    let r := empty.insertAll [(⟨"objects/a.json"⟩, .obj []), (⟨"objects/b/a.json"⟩, .obj [])]
    ∃ next defect, r.insertFile ⟨"dictionary.json"⟩ brokenDictionary = (next, some defect) ∧
      (∃ before refused after, listedEntries? (⟨"dictionary.json"⟩, brokenDictionary) =
        some (before ++ refused :: after) ∧ r.Adds ⟨"dictionary.json"⟩ before next) ∧
      next.locations = [.inCore .object "a", .inCore .dictionary "p"] ∧
      next.locationAt? ["objects", "a.json"] = some (.inCore .object "a") ∧
      next.locationAt? ["objects", "b", "a.json"] = none := by
  intro r
  have hview : (r.insertFile ⟨"dictionary.json"⟩ brokenDictionary).2.isSome = true ∧
      (r.insertFile ⟨"dictionary.json"⟩ brokenDictionary).1.locations =
        [.inCore .object "a", .inCore .dictionary "p"] ∧
      (r.insertFile ⟨"dictionary.json"⟩ brokenDictionary).1.locationAt? ["objects", "a.json"] =
        some (.inCore .object "a") ∧
      (r.insertFile ⟨"dictionary.json"⟩ brokenDictionary).1.locationAt?
        ["objects", "b", "a.json"] = none := by
    decide +kernel
  obtain ⟨hdefect, hlocations, hfile, hrefused⟩ := hview
  obtain ⟨defect, hdefect⟩ := Option.isSome_iff_exists.1 hdefect
  have hinsert : r.insertFile ⟨"dictionary.json"⟩ brokenDictionary =
      ((r.insertFile ⟨"dictionary.json"⟩ brokenDictionary).1, some defect) := Prod.ext rfl hdefect
  obtain ⟨-, -, -, -, hfailures⟩ := insertions_keep_tables_consistent
    [(⟨"objects/a.json"⟩, .obj []), (⟨"objects/b/a.json"⟩, .obj [])]
  obtain ⟨before, refused, after, hsplit, hadds, -⟩ := (hfailures _ _ _ _ hinsert).2 _ rfl
  exact ⟨_, defect, hinsert, ⟨before, refused, after, congrArg some hsplit, hadds⟩, hlocations,
    hfile, hrefused⟩

end Repository

end EventSchema
