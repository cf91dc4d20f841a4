import EventSchema.Proofs.Creation
import EventSchema.Proofs.FileOrder

/-!
# A repository without an extension

The directory of a file decides who owns what the file defines, with one exception: the declaration
of an extension is in core.  So what an extension brings along can be told from its location alone,
and a repository without the files below the directory of an extension has all other definitions,
and none of these.

Main results:

- {lit}`Repository.Reachable.placed`: files own what they define.
- {lit}`Repository.get?_without`, {lit}`Repository.locationAt?_without`: what is left without an
  extension.
- {lit}`Repository.ofFiles_without`: it is what the remaining files define.
-/

namespace EventSchema

open Std

namespace Location

/-- A location belongs to an extension: the extension owns it, or is declared by it. -/
def BelongsTo (extension : String) (l : Location) : Prop :=
  l.extension = some extension ∨ l = .inCore .extension extension

instance (extension : String) (l : Location) : Decidable (l.BelongsTo extension) :=
  inferInstanceAs (Decidable (_ ∨ _))

/-- Locations in core belong to no extension, but for declarations. -/
theorem not_belongsTo_of_isCore {l : Location} (hcore : l.isCore = true)
    (hkind : l.kind ≠ .extension) (extension : String) : ¬ l.BelongsTo extension := by
  rintro (hextension | rfl)
  · rw [isCore, hextension] at hcore
    cases hcore
  · exact hkind rfl

/-- What a file defines below a directory: its owner has it, or is declared by it. -/
def OwnedBy (owner : Option String) (l : Location) : Prop :=
  l.extension = owner ∧ l.kind ≠ .extension ∨
    ∃ extension, owner = some extension ∧ l = .inCore .extension extension

theorem OwnedBy.belongsTo_iff {owner : Option String} {l : Location} (h : l.OwnedBy owner)
    (extension : String) : l.BelongsTo extension ↔ owner = some extension := by
  rcases h with ⟨rfl, hkind⟩ | ⟨other, rfl, rfl⟩
  · constructor
    · rintro (hextension | rfl)
      · exact hextension
      · exact absurd rfl hkind
    · exact Or.inl
  · constructor
    · rintro (hextension | heq)
      · cases hextension
      · cases heq
        rfl
    · rintro ⟨⟩
      exact Or.inr rfl

/-- Declarations of extensions are in core. -/
theorem OwnedBy.isCore {owner : Option String} {l : Location} (h : l.OwnedBy owner)
    (hkind : l.kind = .extension) : l.isCore = true := by
  rcases h with ⟨-, hne⟩ | ⟨extension, -, rfl⟩
  · exact absurd hkind hne
  · rfl

end Location

namespace Repository

/-! ## Who owns what a file defines -/

theorem ownedBy_owned (owner : Option String) {kind : Kind} (hkind : kind ≠ .extension)
    (name : String) : (owned owner (.inCore kind name)).OwnedBy owner := by
  cases owner <;> exact Or.inl ⟨rfl, hkind⟩

theorem fst_entry (l : Location) (value : Json) : (entry l value).1 = l := by
  unfold entry
  split <;> rfl

/-- A file defines what its owner has. -/
theorem ownedBy_of_contents {owner : Option String} {place : List String} {fields : Fields}
    {found : Contents} (h : contents owner place fields = .ok found) :
    ∀ e ∈ found.list, e.1.OwnedBy owner := by
  have hwhole {kind : Kind} (hkind : kind ≠ .extension) (name : String) :
      ∀ e ∈ (Contents.single (owned owner (.inCore kind name)) ⟨fields⟩).list,
        e.1.OwnedBy owner := by
    intro e he
    rw [List.mem_singleton.1 he]
    exact ownedBy_owned owner hkind name
  unfold contents at h
  dsimp only at h
  split at h
  · cases h
    intro e he
    rcases List.mem_append.1 he with he | he
    all_goals
      obtain ⟨field, -, rfl⟩ := List.mem_map.1 he
      rw [fst_entry]
      exact ownedBy_owned owner (by decide) _
  · cases h
    intro e he
    obtain ⟨field, -, rfl⟩ := List.mem_map.1 he
    exact (fst_entry _ _).symm ▸ ownedBy_owned owner (by decide) _
  · split at h
    · rename_i extension
      cases h
      intro e he
      rw [List.mem_singleton.1 he]
      exact Or.inr ⟨extension, rfl, rfl⟩
    · cases h
  · split at h
    · split at h
      · cases h
        exact hwhole (by decide) _
      · cases h
    · cases h
      exact hwhole (by decide) _
  all_goals cases h
  all_goals exact hwhole (by decide) _

/-- Definitions have files, and definitions and files are where the path of their file puts them. -/
structure Placed (r : Repository) : Prop where
  aligned : r.Aligned
  paths : ∀ (l : Location) (path : Path), r.sourcePath? l = some path →
    l.OwnedBy (ownerOf path.components).1
  files : ∀ (components : List String) (l : Location), r.files[components]? = some l →
    l.OwnedBy (ownerOf components).1

/-- What a file defines is owned by whoever owns the place of the file. -/
theorem ownedBy_of_mem_entriesOf {path : Path} {value : Json} {e : Entry}
    (he : e ∈ entriesOf (path, value)) : e.1.OwnedBy (ownerOf path.components).1 := by
  unfold entriesOf at he
  cases hfound : contentsOf? (path, value) with
  | none => simp [hfound] at he
  | some found =>
    obtain ⟨fields, -, hcontents⟩ := contentsOf?_eq_some_iff.1 hfound
    exact ownedBy_of_contents hcontents e (by simpa [hfound] using he)

theorem Placed.insert {r : Repository} (h : r.Placed) {path : Path} {l : Location}
    (hl : l.OwnedBy (ownerOf path.components).1) (d : Definition) :
    (r.insert path l d).1.Placed := by
  have haligned := h.aligned.insert path l d
  obtain ⟨existing, -, heq⟩ | ⟨-, heq⟩ := r.insert_cases path l d
  · rw [heq]
    exact h
  · rw [heq] at haligned ⊢
    refine ⟨haligned, fun k file hfile => ?_, h.files⟩
    rw [sourcePath?, ExtTreeMap.getElem?_insert] at hfile
    split at hfile
    · rename_i hsame
      cases hfile
      exact LawfulEqOrd.eq_of_compare hsame ▸ hl
    · exact h.paths k file hfile

theorem Placed.insertFile {r : Repository} (h : r.Placed) (path : Path) (value : Json) :
    (r.insertFile path value).1.Placed := by
  refine insertFile_preserves h
    (fun _ _ d hmem hr => hr.insert (ownedBy_of_mem_entriesOf hmem) d) ?_
  intro next l d _ hsource hnext
  refine ⟨hnext.aligned, hnext.paths, fun components k hk => ?_⟩
  rw [register, ExtTreeMap.getElem?_insert] at hk
  split at hk
  · rename_i hsame
    cases hk
    exact LawfulEqOrd.eq_of_compare hsame ▸ hnext.paths l path (sources_eq_some_iff.1 hsource).2
  · exact hnext.files components k hk

/-- Files own what they define. -/
theorem Reachable.placed {r : Repository} (h : r.Reachable) : r.Placed := by
  induction h with
  | empty => exact ⟨aligned_empty, by simp [sourcePath?, Repository.empty],
      by simp [Repository.empty]⟩
  | insertFile _ path _ ih => exact ih.insertFile path _
  | stamp _ fingerprint ih => exact ⟨ih.aligned, ih.paths, ih.files⟩

/-- Extensions are declared in core. -/
theorem Placed.isCore {r : Repository} (h : r.Placed) {l : Location} {d : Definition}
    (hd : r.get? l = some d) (hkind : l.kind = .extension) : l.isCore = true := by
  obtain ⟨path, hsource⟩ := h.aligned.get?_eq_some_iff.1 hd
  exact (h.paths l path (sources_eq_some_iff.1 hsource).2).isCore hkind

/-! ## Leaving out an extension -/

/-- Whether a file is below the directory of an extension. -/
def isBelow (extension : String) (components : List String) : Bool :=
  (ownerOf components).1 == some extension

/-- Whether the file that a location was read from is below the directory of an extension. -/
def isReadBelow (r : Repository) (extension : String) (l : Location) : Bool :=
  (r.sourcePath? l).any fun path => isBelow extension path.components

/-- A repository without the files below the directory of an extension. -/
def without (r : Repository) (extension : String) : Repository where
  definitions := r.definitions.filter fun l _ => !r.isReadBelow extension l
  paths := r.paths.filter fun _ path => !isBelow extension path.components
  files := r.files.filter fun components _ => !isBelow extension components

theorem isBelow_eq_true_iff {extension : String} {components : List String} {l : Location}
    (h : l.OwnedBy (ownerOf components).1) :
    isBelow extension components = true ↔ l.BelongsTo extension := by
  rw [h.belongsTo_iff, isBelow, beq_iff_eq]

section

variable {r : Repository} (h : r.Placed) (extension : String)

include h

theorem sourcePath?_without (l : Location) :
    (r.without extension).sourcePath? l =
      if l.BelongsTo extension then none else r.sourcePath? l := by
  rw [sourcePath?, without, ExtTreeMap.getElem?_filter', ← sourcePath?]
  cases hpath : r.sourcePath? l with
  | none => simp
  | some path =>
    have hbelow : isBelow extension path.components = true ↔ l.BelongsTo extension :=
      isBelow_eq_true_iff (h.paths l path hpath)
    split <;> simp_all

/-- What remains has the file that it had. -/
theorem sourcePath?_without_of_not_belongsTo {l : Location} (hl : ¬ l.BelongsTo extension) :
    (r.without extension).sourcePath? l = r.sourcePath? l := by
  rw [sourcePath?_without h, if_neg hl]

/-- Without an extension, what belongs to it is not there, and everything else is. -/
theorem get?_without (l : Location) :
    (r.without extension).get? l = if l.BelongsTo extension then none else r.get? l := by
  rw [get?, without, ExtTreeMap.getElem?_filter', ← get?]
  cases hd : r.get? l with
  | none => simp
  | some d =>
    obtain ⟨path, hsource⟩ := h.aligned.get?_eq_some_iff.1 hd
    have hpath := (sources_eq_some_iff.1 hsource).2
    have hbelow : isBelow extension path.components = true ↔ l.BelongsTo extension :=
      isBelow_eq_true_iff (h.paths l path hpath)
    rw [Option.filter_some, isReadBelow, hpath, Option.any_some]
    split <;> simp_all

/-- Without an extension, its files are not there, and all others are. -/
theorem locationAt?_without (components : List String) :
    (r.without extension).locationAt? components =
      (r.locationAt? components).filter fun l => !decide (l.BelongsTo extension) := by
  rw [locationAt?, without, ExtTreeMap.getElem?_filter', locationAt?]
  cases hl : r.files[components]? with
  | none => rfl
  | some l =>
    have hbelow : isBelow extension components = decide (l.BelongsTo extension) :=
      Bool.eq_iff_iff.2 ((isBelow_eq_true_iff (h.files components l hl)).trans
        (decide_eq_true_iff).symm)
    rw [Option.filter_some, Option.filter_some, hbelow]

/-! ## Files that remain -/

/-- A definition that remains can be added before or after an extension is left out. -/
theorem insert_without {path : Path} {l : Location} (hl : l.OwnedBy (ownerOf path.components).1)
    (hpath : isBelow extension path.components = false) (d : Definition) :
    (r.without extension).insert path l d =
      ((r.insert path l d).1.without extension, (r.insert path l d).2) := by
  have hremains : ¬ l.BelongsTo extension := by
    rw [← isBelow_eq_true_iff hl, hpath]
    exact Bool.false_ne_true
  have hsame := sourcePath?_without_of_not_belongsTo h extension hremains
  obtain ⟨existing, htaken, heq⟩ | ⟨hfree, heq⟩ := r.insert_cases path l d
  · rw [heq, Repository.insert, ← sourcePath?, hsame, htaken]
  · rw [heq, Repository.insert, ← sourcePath?, hsame, hfree]
    refine Prod.ext (Repository.ext ?_ ?_ rfl rfl) rfl
    · ext k : 1
      simp only [without, isReadBelow, sourcePath?, ExtTreeMap.getElem?_insert,
        ExtTreeMap.getElem?_filter']
      split
      · rw [Option.filter_some, Option.any_some, hpath]
        rfl
      · rfl
    · ext k : 1
      simp only [without, ExtTreeMap.getElem?_insert, ExtTreeMap.getElem?_filter']
      split
      · rw [Option.filter_some, hpath]
        rfl
      · rfl

end

/-- A definition of the extension makes no difference once the extension is left out. -/
theorem without_insert {r : Repository} (h : r.Aligned) {extension : String} {path : Path}
    (hpath : isBelow extension path.components = true) (l : Location) (d : Definition) :
    (r.insert path l d).1.without extension = r.without extension := by
  obtain ⟨existing, -, heq⟩ | ⟨hfree, heq⟩ := r.insert_cases path l d
  · rw [heq]
  · have hnone := h.get?_eq_none hfree
    rw [get?] at hnone
    rw [sourcePath?] at hfree
    rw [heq]
    refine Repository.ext ?_ ?_ rfl rfl
    · ext k : 1
      simp only [without, isReadBelow, sourcePath?, ExtTreeMap.getElem?_insert,
        ExtTreeMap.getElem?_filter']
      split
      · rename_i hsame
        rw [← LawfulEqOrd.eq_of_compare hsame, hnone, Option.filter_some, Option.any_some, hpath]
        rfl
      · rfl
    · ext k : 1
      simp only [without, ExtTreeMap.getElem?_insert, ExtTreeMap.getElem?_filter']
      split
      · rename_i hsame
        rw [← LawfulEqOrd.eq_of_compare hsame, hfree, Option.filter_some, hpath]
        rfl
      · rfl

/-- A file of the extension makes no difference once the extension is left out. -/
theorem without_insertFile {r : Repository} (h : r.Aligned) {extension : String} {path : Path}
    (hpath : isBelow extension path.components = true) (value : Json) :
    (r.insertFile path value).1.without extension = r.without extension := by
  refine h.insertFile_preserves (P := fun next => next.without extension = r.without extension)
    rfl ?_ ?_
  · intro next l d haligned hnext
    exact (without_insert haligned hpath l d).trans hnext
  · intro next l d _ _ hnext
    have hsame : (next.register path.components (some l)).without extension =
        next.without extension := by
      refine Repository.ext rfl rfl ?_ rfl
      ext components : 1
      simp only [without, register, ExtTreeMap.getElem?_filter', ExtTreeMap.getElem?_insert]
      split
      · rename_i heq
        rw [← LawfulEqOrd.eq_of_compare heq, Option.filter_some, hpath]
        cases next.files[path.components]? <;> simp
      · rfl
    exact hsame.trans hnext

/-- An entry of a file that remains can be added before or after an extension is left out. -/
theorem insertEntries_without {r : Repository} (h : r.Placed) {extension : String} {path : Path}
    (hpath : isBelow extension path.components = false) {list : List Entry}
    (hlist : ∀ e ∈ list, e.1.OwnedBy (ownerOf path.components).1) :
    (r.without extension).insertEntries path list =
      ((r.insertEntries path list).1.without extension, (r.insertEntries path list).2) := by
  induction list generalizing r with
  | nil => rfl
  | cons e rest ih =>
    obtain ⟨l, value⟩ := e
    obtain ⟨hl, hrest⟩ := List.forall_mem_cons.1 hlist
    cases value with
    | error defect => rfl
    | ok d =>
      have hplaced := h.insert hl d
      rw [insertEntries, insertEntries, insert_without h extension hl hpath]
      generalize r.insert path l d = inserted at hplaced
      obtain ⟨next, _ | defect⟩ := inserted
      · exact ih hplaced hrest
      · rfl

/-- A file that is one definition can be added before or after as well. -/
theorem insertSingle_without {r : Repository} (h : r.Placed) {extension : String} {path : Path}
    (hpath : isBelow extension path.components = false) {l : Location}
    (hl : l.OwnedBy (ownerOf path.components).1) (d : Definition) :
    (r.without extension).insertSingle path l d =
      ((r.insertSingle path l d).1.without extension, (r.insertSingle path l d).2) := by
  rw [insertSingle, insertSingle, insert_without h extension hl hpath]
  generalize r.insert path l d = inserted
  obtain ⟨next, _ | defect⟩ := inserted
  · refine Prod.ext (Repository.ext rfl rfl ?_ rfl) rfl
    ext components : 1
    simp only [without, ExtTreeMap.getElem?_insert, ExtTreeMap.getElem?_filter']
    split
    · rename_i hsame
      rw [← LawfulEqOrd.eq_of_compare hsame, hpath, Option.filter_some]
      simp
    · rfl
  · rfl

/-- A file that remains can be added before or after an extension is left out. -/
theorem insertFile_without {r : Repository} (h : r.Placed) {extension : String} {path : Path}
    (hpath : isBelow extension path.components = false) (value : Json) :
    (r.without extension).insertFile path value =
      ((r.insertFile path value).1.without extension, (r.insertFile path value).2) := by
  unfold insertFile
  cases value with
  | obj fields =>
    dsimp only
    cases hfound : contents (ownerOf path.components).1 (ownerOf path.components).2 fields with
    | error defect => rfl
    | ok found =>
      have howned := ownedBy_of_contents hfound
      cases found with
      | entries list => exact insertEntries_without h hpath howned
      | single l d =>
        exact insertSingle_without h hpath (howned (l, .ok d) (List.mem_singleton_self _)) d
  | _ => rfl

/-- A repository stays one that files were inserted into when an extension is left out. -/
theorem Reachable.without {r : Repository} (h : r.Reachable) (extension : String) :
    (r.without extension).Reachable := by
  induction h with
  | empty => exact .empty
  | @insertFile r before path value hvalue ih =>
    by_cases hpath : isBelow extension path.components = true
    · rwa [without_insertFile before.aligned hpath]
    · have hfile := ih.insertFile path hvalue
      rwa [insertFile_without before.placed (Bool.eq_false_iff.2 hpath)] at hfile
  | stamp _ fingerprint ih => exact ih

/-- Without an extension, a repository holds what the remaining files define. -/
theorem insertFiles_without {r last : Repository} (h : r.Placed) {files : List (Path × Json)}
    (hfiles : r.insertFiles files = .ok last) (extension : String) :
    (r.without extension).insertFiles
      (files.filter fun file => !isBelow extension file.1.components) =
        .ok (last.without extension) := by
  induction files generalizing r with
  | nil =>
    cases hfiles
    rfl
  | cons file rest ih =>
    obtain ⟨path, value⟩ := file
    have hplaced := h.insertFile path value
    rw [insertFiles] at hfiles
    split at hfiles
    · cases hfiles
    · rename_i next hnext
      rw [hnext] at hplaced
      have hrest := ih hplaced hfiles
      by_cases hpath : isBelow extension path.components = true
      · have hsame := without_insertFile h.aligned hpath value
        rw [hnext] at hsame
        rw [List.filter_cons_of_neg (by simp [hpath]), ← hsame]
        exact hrest
      · have hpath := Bool.eq_false_iff.2 hpath
        rw [List.filter_cons_of_pos (by simp [hpath]), insertFiles,
          insertFile_without h hpath, hnext]
        exact hrest

theorem ofFiles_without {files : List (Path × Json)} {r : Repository} (h : ofFiles files = .ok r)
    (extension : String) :
    ofFiles (files.filter fun file => !isBelow extension file.1.components) =
      .ok (r.without extension) :=
  insertFiles_without Reachable.empty.placed h extension

end Repository

end EventSchema
