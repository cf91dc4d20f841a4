import EventSchema.Compilation
import EventSchema.Proofs.SourceTables
import Mathlib.Data.List.Nodup
import Mathlib.Data.List.Perm.Basic

/-!
# The order of files does not matter

Files can be added one after another exactly if each of them can be read and no location is defined
twice, by one file or by two.  A repository that was filled in this way holds what its files define
and nothing else, each definition with the path of its file.  Both sides of this description are
about the collection of files, so a rearrangement of the files gives the same repository.

Main results:

- {lit}`Repository.exists_insertFiles_iff`: when files can be added.
- {lit}`Repository.sources_insertFiles`, {lit}`Repository.files_insertFiles`: what is there then.
- {lit}`Repository.file_order_is_irrelevant`: rearranged files lead to the same repository, and from
  there to the same plan, log and schema or error.
-/

namespace EventSchema

open Std

namespace Repository

/-! ## What one file defines -/

/-- The locations that a file defines, in order. -/
def locationsOf (file : Path × Json) : List Location := (entriesOf file).map Prod.fst

/-- A file can be read: it defines something, and all its entries are definitions. -/
def IsReadable (file : Path × Json) : Prop :=
  (contentsOf? file).isSome = true ∧ ∀ e ∈ entriesOf file, ∃ d, e.2 = .ok d

/-- A file is added by its entries, and then as a file. -/
theorem insertFile_eq_none_iff {r next : Repository} {file : Path × Json} :
    r.insertFile file.1 file.2 = (next, none) ↔
      (contentsOf? file).isSome = true ∧ ∃ mid,
        r.insertEntries file.1 (entriesOf file) = (mid, none) ∧
        next = mid.register file.1.components (hostOf? file) := by
  obtain ⟨path, value⟩ := file
  cases value with
  | obj fields =>
    simp only [insertFile, entriesOf, hostOf?, contentsOf?, Json.obj?, Option.bind_some]
    cases contents (ownerOf path.components).1 (ownerOf path.components).2 fields with
    | error defect => simp [Except.toOption]
    | ok found =>
      cases found with
      | entries list =>
        simp only [Except.toOption, Option.isSome_some, Option.map_some, Option.getD_some,
          Contents.list, Contents.host?, Option.bind_some, register, true_and]
        constructor
        · intro h
          exact ⟨next, h, rfl⟩
        · rintro ⟨mid, h, rfl⟩
          exact h
      | single l d =>
        simp only [Except.toOption, Option.isSome_some, Option.map_some, Option.getD_some,
          Contents.list, Contents.host?, Option.bind_some, register, true_and, insertEntries,
          insertSingle]
        obtain ⟨existing, -, heq⟩ | ⟨-, heq⟩ := r.insert_cases path l d
        · simp [heq]
        · simp [heq, eq_comm]
  | _ => simp [insertFile, contentsOf?, Json.obj?]

/-! ## Entries -/

/-- Entries can be added if they are definitions at locations that are all different and free. -/
theorem insertEntries_eq_none_iff {r : Repository} {path : Path} {list : List Entry} :
    (r.insertEntries path list).2 = none ↔
      (∀ e ∈ list, ∃ d, e.2 = .ok d) ∧ (list.map Prod.fst).Nodup ∧
        ∀ e ∈ list, r.sourcePath? e.1 = none := by
  induction list generalizing r with
  | nil => simp [insertEntries]
  | cons e rest ih =>
    obtain ⟨l, value⟩ := e
    cases value with
    | error defect => simp [insertEntries]
    | ok d =>
      rw [insertEntries]
      obtain ⟨existing, hl, heq⟩ | ⟨hl, heq⟩ := r.insert_cases path l d
      · rw [heq]
        constructor
        · intro h
          cases h
        · intro h
          rw [h.2.2 (l, .ok d) List.mem_cons_self] at hl
          cases hl
      · simp only [heq, ih]
        simp only [sourcePath?, ExtTreeMap.getElem?_insert] at hl ⊢
        grind

/-- What is free after entries were added was free before, and they do not define it. -/
theorem sourcePath?_insertEntries_eq_none_iff {r : Repository} {path : Path} {list : List Entry}
    (h : (r.insertEntries path list).2 = none) (l : Location) :
    (r.insertEntries path list).1.sourcePath? l = none ↔
      r.sourcePath? l = none ∧ l ∉ list.map Prod.fst := by
  induction list generalizing r with
  | nil => simp [insertEntries]
  | cons e rest ih =>
    obtain ⟨k, value⟩ := e
    cases value with
    | error defect => simp [insertEntries] at h
    | ok d =>
      rw [insertEntries] at h ⊢
      obtain ⟨existing, -, heq⟩ | ⟨-, heq⟩ := r.insert_cases path k d
      · simp [heq] at h
      · simp only [heq] at h ⊢
        rw [ih h, sourcePath?, sourcePath?, ExtTreeMap.getElem?_insert]
        grind

/-- Entries that were added are there, each with the path of its file. -/
theorem sources_insertEntries {r : Repository} {path : Path} {list : List Entry}
    (h : (r.insertEntries path list).2 = none) (l : Location) (s : Source) :
    (r.insertEntries path list).1.sources[l]? = some s ↔
      r.sources[l]? = some s ∨ (l, .ok s.definition) ∈ list ∧ s.path = path := by
  induction list generalizing r with
  | nil => simp [insertEntries]
  | cons e rest ih =>
    obtain ⟨k, value⟩ := e
    cases value with
    | error defect => simp [insertEntries] at h
    | ok d =>
      rw [insertEntries] at h ⊢
      cases hnext : r.insert path k d with
      | mk next refused =>
        cases refused with
        | some defect => simp [hnext] at h
        | none =>
          simp only [hnext] at h ⊢
          have hfree : r.sources[k]? = none := by
            obtain ⟨existing, -, heq⟩ | ⟨hk, -⟩ := r.insert_cases path k d
            · cases heq.symm.trans hnext
            · exact sources_eq_none hk
          rw [ih h, getElem?_sources_insert hnext]
          obtain ⟨definition, source⟩ := s
          grind

/-- Entries add nothing but definitions. -/
theorem frame_insertEntries (r : Repository) (path : Path) (list : List Entry) :
    (r.insertEntries path list).1.files = r.files ∧
      (r.insertEntries path list).1.fingerprint = r.fingerprint := by
  refine insertEntries_preserves (P := fun next => next.files = r.files ∧
    next.fingerprint = r.fingerprint) ⟨rfl, rfl⟩ fun next l d _ hnext => ?_
  obtain ⟨existing, -, heq⟩ | ⟨-, heq⟩ := next.insert_cases path l d
  · rw [heq]
    exact hnext
  · rw [heq]
    exact hnext

/-! ## One file -/

/-- A file can be added if it can be read and its locations are all different and free. -/
theorem exists_insertFile_iff {r : Repository} {file : Path × Json} :
    (∃ next, r.insertFile file.1 file.2 = (next, none)) ↔
      IsReadable file ∧ (locationsOf file).Nodup ∧
        ∀ l ∈ locationsOf file, r.sourcePath? l = none := by
  have hentries : (r.insertEntries file.1 (entriesOf file)).2 = none ↔ _ :=
    insertEntries_eq_none_iff
  rw [locationsOf, List.forall_mem_map]
  constructor
  · rintro ⟨next, h⟩
    obtain ⟨hsome, mid, hmid, -⟩ := insertFile_eq_none_iff.1 h
    obtain ⟨hread, hfits⟩ := hentries.1 (by rw [hmid])
    exact ⟨⟨hsome, hread⟩, hfits⟩
  · rintro ⟨⟨hsome, hread⟩, hfits⟩
    have hmid := hentries.2 ⟨hread, hfits⟩
    exact ⟨_, insertFile_eq_none_iff.2 ⟨hsome, _, Prod.ext rfl hmid, rfl⟩⟩

theorem sources_insertFile {r next : Repository} {file : Path × Json}
    (h : r.insertFile file.1 file.2 = (next, none)) (l : Location) (s : Source) :
    next.sources[l]? = some s ↔
      r.sources[l]? = some s ∨ (l, .ok s.definition) ∈ entriesOf file ∧ s.path = file.1 := by
  obtain ⟨-, mid, hmid, rfl⟩ := insertFile_eq_none_iff.1 h
  have hsources : (mid.register file.1.components (hostOf? file)).sources = mid.sources := by
    cases hostOf? file <;> rfl
  rw [hsources, ← sources_insertEntries (by rw [hmid]), hmid]

/-- What is free after a file was added was free before, and the file does not define it. -/
theorem sourcePath?_insertFile_eq_none_iff {r next : Repository} {file : Path × Json}
    (h : r.insertFile file.1 file.2 = (next, none)) (l : Location) :
    next.sourcePath? l = none ↔ r.sourcePath? l = none ∧ l ∉ locationsOf file := by
  obtain ⟨-, mid, hmid, rfl⟩ := insertFile_eq_none_iff.1 h
  have hpaths : (mid.register file.1.components (hostOf? file)).sourcePath? l =
      mid.sourcePath? l := by
    cases hostOf? file <;> rfl
  have hadded : (r.insertEntries file.1 (entriesOf file)).2 = none := by rw [hmid]
  rw [hpaths, locationsOf, ← sourcePath?_insertEntries_eq_none_iff hadded, hmid]

theorem files_insertFile {r next : Repository} {file : Path × Json}
    (h : r.insertFile file.1 file.2 = (next, none)) (components : List String) :
    next.files[components]? =
      (if file.1.components = components then hostOf? file else none).or
        r.files[components]? := by
  obtain ⟨-, mid, hmid, rfl⟩ := insertFile_eq_none_iff.1 h
  have hfiles : mid.files = r.files := by
    rw [← (frame_insertEntries r file.1 (entriesOf file)).1, hmid]
  cases hostOf? file with
  | none => simp [register, hfiles]
  | some l =>
    by_cases hpath : file.1.components = components
    · simp [register, hpath]
    · simp [register, hfiles, ExtTreeMap.getElem?_insert, hpath]

theorem fingerprint_insertFile {r next : Repository} {file : Path × Json}
    (h : r.insertFile file.1 file.2 = (next, none)) : next.fingerprint = r.fingerprint := by
  obtain ⟨-, mid, hmid, rfl⟩ := insertFile_eq_none_iff.1 h
  rw [← (frame_insertEntries r file.1 (entriesOf file)).2, hmid]
  cases hostOf? file <;> rfl

/-! ## Many files -/

theorem insertFiles_cons_eq_ok_iff {r last : Repository} {file : Path × Json}
    {rest : List (Path × Json)} :
    r.insertFiles (file :: rest) = .ok last ↔
      ∃ next, r.insertFile file.1 file.2 = (next, none) ∧ next.insertFiles rest = .ok last := by
  rw [insertFiles]
  cases hfile : r.insertFile file.1 file.2 with
  | mk next defect =>
    cases defect with
    | none => simp
    | some defect => simp

/-- Files can be added if each of them can be read, and their locations are all different and
free. -/
theorem exists_insertFiles_iff {r : Repository} {files : List (Path × Json)} :
    (∃ last, r.insertFiles files = .ok last) ↔
      (∀ file ∈ files, IsReadable file) ∧ (files.flatMap locationsOf).Nodup ∧
        ∀ l ∈ files.flatMap locationsOf, r.sourcePath? l = none := by
  induction files generalizing r with
  | nil => simp [insertFiles]
  | cons file rest ih =>
    simp only [List.forall_mem_cons, List.flatMap_cons, List.forall_mem_append, List.nodup_append']
    constructor
    · rintro ⟨last, h⟩
      obtain ⟨next, hfile, hrest⟩ := insertFiles_cons_eq_ok_iff.1 h
      obtain ⟨hread, hnodup, hfree⟩ := exists_insertFile_iff.1 ⟨next, hfile⟩
      obtain ⟨hreads, hnodups, hfrees⟩ := ih.1 ⟨last, hrest⟩
      have hbefore : ∀ l ∈ rest.flatMap locationsOf,
          r.sourcePath? l = none ∧ l ∉ locationsOf file :=
        fun l hl => (sourcePath?_insertFile_eq_none_iff hfile l).1 (hfrees l hl)
      refine ⟨⟨hread, hreads⟩, ⟨hnodup, hnodups, ?_⟩, hfree, fun l hl => (hbefore l hl).1⟩
      exact fun l hl hl' => (hbefore l hl').2 hl
    · rintro ⟨⟨hread, hreads⟩, ⟨hnodup, hnodups, hdisjoint⟩, hfree, hfrees⟩
      obtain ⟨next, hfile⟩ := exists_insertFile_iff.2 ⟨hread, hnodup, hfree⟩
      have hafter : ∀ l ∈ rest.flatMap locationsOf, next.sourcePath? l = none := by
        intro l hl
        apply (sourcePath?_insertFile_eq_none_iff hfile l).2
        exact ⟨hfrees l hl, fun hl' => hdisjoint hl' hl⟩
      obtain ⟨last, hrest⟩ := ih.2 ⟨hreads, hnodups, hafter⟩
      exact ⟨last, insertFiles_cons_eq_ok_iff.2 ⟨next, hfile, hrest⟩⟩

/-- A repository that files were added to holds what they define, and what it held before. -/
theorem sources_insertFiles {r last : Repository} {files : List (Path × Json)}
    (h : r.insertFiles files = .ok last) (l : Location) (s : Source) :
    last.sources[l]? = some s ↔
      r.sources[l]? = some s ∨
        ∃ file ∈ files, (l, .ok s.definition) ∈ entriesOf file ∧ s.path = file.1 := by
  induction files generalizing r with
  | nil =>
    cases h
    simp
  | cons file rest ih =>
    obtain ⟨next, hfile, hrest⟩ := insertFiles_cons_eq_ok_iff.1 h
    rw [ih hrest, sources_insertFile hfile]
    simp only [List.mem_cons, exists_eq_or_imp, or_assoc]

/-- The files of a repository are those that were added, as long as their paths are different. -/
theorem files_insertFiles {r last : Repository} {files : List (Path × Json)}
    (h : r.insertFiles files = .ok last)
    (hpaths : files.Pairwise fun a b => a.1.components ≠ b.1.components)
    (components : List String) (l : Location) :
    last.files[components]? = some l ↔
      (∃ file ∈ files, file.1.components = components ∧ hostOf? file = some l) ∨
        r.files[components]? = some l ∧
          ∀ file ∈ files, file.1.components = components → hostOf? file = none := by
  induction files generalizing r with
  | nil =>
    cases h
    simp
  | cons file rest ih =>
    obtain ⟨next, hfile, hrest⟩ := insertFiles_cons_eq_ok_iff.1 h
    obtain ⟨hhere, hpaths⟩ := List.pairwise_cons.1 hpaths
    rw [ih hrest hpaths, files_insertFile hfile]
    by_cases hpath : file.1.components = components
    · subst hpath
      have hlone : ∀ other ∈ rest, other.1.components = file.1.components → hostOf? other = none := by
        intro other hother heq
        exact absurd heq.symm (hhere other hother)
      have hnone : ¬ ∃ other ∈ rest, other.1.components = file.1.components ∧
          hostOf? other = some l := by
        rintro ⟨other, hother, heq, -⟩
        exact hhere other hother heq.symm
      cases hhost : hostOf? file with
      | none => simp [hhost, hnone]
      | some k =>
        simpa [hhost, hnone] using fun _ path value => hlone (path, value)
    · simp [hpath]

theorem fingerprint_insertFiles {r last : Repository} {files : List (Path × Json)}
    (h : r.insertFiles files = .ok last) : last.fingerprint = r.fingerprint := by
  induction files generalizing r with
  | nil =>
    cases h
    rfl
  | cons file rest ih =>
    obtain ⟨next, hfile, hrest⟩ := insertFiles_cons_eq_ok_iff.1 h
    exact (ih hrest).trans (fingerprint_insertFile hfile)

/-! ## Rearranged files -/

/-- Whether files can be added does not depend on their order. -/
theorem exists_ofFiles_of_perm {files other : List (Path × Json)} (h : files.Perm other)
    (hfiles : ∃ r, ofFiles files = .ok r) : ∃ r, ofFiles other = .ok r := by
  obtain ⟨hread, hnodup, hfree⟩ := exists_insertFiles_iff.1 hfiles
  have hlocations : (files.flatMap locationsOf).Perm (other.flatMap locationsOf) :=
    h.flatMap_right locationsOf
  apply exists_insertFiles_iff.2
  refine ⟨?_, hlocations.nodup_iff.1 hnodup, ?_⟩
  · exact fun file hfile => hread file (h.mem_iff.2 hfile)
  · exact fun l hl => hfree l (hlocations.mem_iff.2 hl)

/-- Rearranged files give the same repository. -/
theorem eq_of_perm {files other : List (Path × Json)}
    (hpaths : files.Pairwise fun a b => a.1.components ≠ b.1.components)
    (h : files.Perm other) {r r' : Repository} (hr : ofFiles files = .ok r)
    (hr' : ofFiles other = .ok r') : r = r' := by
  have hpaths' : other.Pairwise fun a b => a.1.components ≠ b.1.components :=
    h.pairwise hpaths fun hne => hne.symm
  have hsources : r.sources = r'.sources := by
    ext1 l
    ext s
    rw [sources_insertFiles hr, sources_insertFiles hr']
    simp only [h.mem_iff]
  have hfiles : r.files = r'.files := by
    ext1 components
    ext l
    rw [files_insertFiles hr hpaths, files_insertFiles hr' hpaths']
    simp only [h.mem_iff]
  have hfingerprint : r.fingerprint = r'.fingerprint := by
    rw [fingerprint_insertFiles hr, fingerprint_insertFiles hr']
  obtain ⟨hdefinitions, htables⟩ :=
    (aligned_empty.insertFiles hr).eq_of_sources_eq (aligned_empty.insertFiles hr') hsources
  cases r
  cases r'
  simp_all

/--
The order in which files are added does not matter, as long as their paths are different.  If they
can be added in one order, they can be added in any other, and the repository answers all queries in
the same way.  So under any options a compilation makes the same plan, keeps the same log, and ends
with the same schema or error.
-/
theorem file_order_is_irrelevant {files other : List (Path × Json)}
    (hpaths : files.Pairwise fun a b => a.1.components ≠ b.1.components)
    (h : files.Perm other) :
    ((∃ r, ofFiles files = .ok r) ↔ ∃ r, ofFiles other = .ok r) ∧
    ∀ r r', ofFiles files = .ok r → ofFiles other = .ok r' →
      (∀ l, r.get? l = r'.get? l) ∧ r.locations = r'.locations ∧
      (∀ l, r.sourcePath? l = r'.sourcePath? l) ∧
      (∀ components, r.locationAt? components = r'.locationAt? components) ∧
      ∀ options,
        let c := (Compilation.ofRepository r options).after .build
        let c' := (Compilation.ofRepository r' options).after .build
        c.stage.plan? = c'.stage.plan? ∧ c.stage.log? = c'.stage.log? ∧
          (Compilation.ofRepository r options).build =
            (Compilation.ofRepository r' options).build := by
  constructor
  · constructor
    · exact exists_ofFiles_of_perm h
    · exact exists_ofFiles_of_perm h.symm
  · intro r r' hr hr'
    have heq : r = r' := eq_of_perm hpaths h hr hr'
    subst heq
    exact ⟨fun _ => rfl, rfl, fun _ => rfl, fun _ => rfl, fun _ => ⟨rfl, rfl, rfl⟩⟩

/-- A file with entries, a file that is one definition, and a file of an extension. -/
def mixedFiles : List (Path × Json) :=
  [(⟨"dictionary.json"⟩, .obj [("attributes", .obj [("p", .obj [("caption", .str "P")])])]),
    (⟨"objects/a.json"⟩, .obj [("attributes", .obj [("p", .obj [])])]),
    (⟨"extensions/x/objects/a.json"⟩, .obj [("name", .str "a")])]

/-- Files of all sorts may be read backwards. -/
theorem mixed_files_read_backwards :
    mixedFiles.Pairwise (fun a b => a.1.components ≠ b.1.components) ∧
    ∃ r r', ofFiles mixedFiles = .ok r ∧ ofFiles mixedFiles.reverse = .ok r' ∧
      r.get? (.inCore .object "a") = r'.get? (.inCore .object "a") ∧
      (Compilation.ofRepository r {}).build = (Compilation.ofRepository r' {}).build := by
  have hpaths : mixedFiles.Pairwise fun a b => a.1.components ≠ b.1.components := by
    decide +kernel
  have hperm : mixedFiles.Perm mixedFiles.reverse := (List.reverse_perm mixedFiles).symm
  have hread : (ofFiles mixedFiles).toOption.isSome = true := by decide +kernel
  obtain ⟨hiff, hsame⟩ := file_order_is_irrelevant hpaths hperm
  obtain ⟨r, hr⟩ : ∃ r, ofFiles mixedFiles = .ok r := by
    cases hfiles : ofFiles mixedFiles with
    | error e =>
      rw [hfiles] at hread
      cases hread
    | ok r => exact ⟨r, rfl⟩
  obtain ⟨r', hr'⟩ := hiff.1 ⟨r, hr⟩
  obtain ⟨hget, -, -, -, hbuild⟩ := hsame r r' hr hr'
  exact ⟨hpaths, r, r', hr, hr', hget _, (hbuild {}).2.2⟩

end Repository

end EventSchema
