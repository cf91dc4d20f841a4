import EventSchema.Repository.SourceTree
import Mathlib.Data.List.Basic

/-!
# What a fingerprint stands for

The digest of a source tree is taken of one stream of bytes, in which every path and all contents
are followed by a zero byte.  No zero is inside of either: file systems do not allow one in a name,
and a file is digested only after it has been read as JSON, which has none.  So the stream tells
which files have been read, with what contents and in what order.

Main results:

- {lit}`Digest.stream_inj`: the stream of files without zeros tells them apart.
- {lit}`Json.zero_not_mem_of_ofBytes?`: there is no zero byte in JSON.
- {lit}`SourceTree.pathOf_inj`: a path tells the components of a place.
- {lit}`SourceTree.traced_snd`: a load that keeps track of what it digests is a load.
- {lit}`SourceTree.digested_tells_files`: loads digest the same bytes exactly if they read the same
  files.
-/

namespace EventSchema

open Std

/-! ## Frames -/

/-- Texts that end at the first place where some item stands are told apart. -/
theorem append_cons_inj {α : Type} {mark : α} {a b x y : List α} (ha : mark ∉ a) (hb : mark ∉ b) :
    a ++ mark :: x = b ++ mark :: y ↔ a = b ∧ x = y := by
  induction a generalizing b with
  | nil =>
    cases b with
    | nil => simp
    | cons first rest => simp_all
  | cons item items ih =>
    rw [List.mem_cons, not_or] at ha
    cases b with
    | nil => simp [Ne.symm ha.1]
    | cons first rest =>
      rw [List.mem_cons, not_or] at hb
      simp [ih ha.2 hb.2, and_assoc]

namespace Digest

/-- Neither the path nor the contents of a file hold a zero byte. -/
def ZeroFree (file : List UInt8 × List UInt8) : Prop := 0 ∉ file.1 ∧ 0 ∉ file.2

theorem stream_cons (file : List UInt8 × List UInt8) (rest : List (List UInt8 × List UInt8)) :
    stream (file :: rest) = file.1 ++ 0 :: (file.2 ++ 0 :: stream rest) := by
  simp [stream, frame]

/-- The stream of files without zeros tells them apart. -/
theorem stream_inj {files more : List (List UInt8 × List UInt8)}
    (hfiles : ∀ file ∈ files, ZeroFree file) (hmore : ∀ file ∈ more, ZeroFree file) :
    stream files = stream more ↔ files = more := by
  induction files generalizing more with
  | nil =>
    cases more with
    | nil => simp
    | cons other others =>
      rw [stream_cons]
      simp [stream]
  | cons file rest ih =>
    rw [List.forall_mem_cons] at hfiles
    cases more with
    | nil =>
      rw [stream_cons]
      simp [stream]
    | cons other others =>
      rw [List.forall_mem_cons] at hmore
      -- The first zero ends the path and the next one the contents, on both sides.
      rw [stream_cons, stream_cons, append_cons_inj hfiles.1.1 hmore.1.1,
        append_cons_inj hfiles.1.2 hmore.1.2, ih hfiles.2 hmore.2, List.cons.injEq, Prod.ext_iff,
        and_assoc]

/-- With zeros in its contents one file may look like two. -/
example : stream [([1], [2, 0, 3, 0, 4])] = stream [([1], [2]), ([3], [4])] := rfl

/-! ## Bytes of a text -/

theorem toList_eq (bytes : ByteArray) : bytes.toList = bytes.data.toList := by
  have hloop (i : Nat) (before : List UInt8) : ByteArray.toList.loop bytes i before =
      before.reverse ++ bytes.data.toList.drop i := by
    fun_induction ByteArray.toList.loop bytes i before with
    | case1 i before hi ih =>
      have hlength : i < bytes.data.toList.length := by simpa using hi
      have hhere : bytes.get! i = bytes.data.toList[i] := by
        simp [ByteArray.get!, hi]
      rw [ih, List.drop_eq_getElem_cons hlength, List.reverse_cons, List.append_assoc, hhere]
      rfl
    | case2 i before hi =>
      have hlength : bytes.data.toList.length ≤ i := by simpa using hi
      rw [List.drop_eq_nil_of_le hlength, List.append_nil]
  exact hloop 0 []

theorem bytesOf_eq (text : String) : bytesOf text = text.toList.flatMap String.utf8EncodeChar := by
  rw [bytesOf, toList_eq, String.toUTF8, ← String.utf8Encode_toList, List.utf8Encode,
    List.toList_data_toByteArray]

theorem bytesOf_inj {s t : String} : bytesOf s = bytesOf t ↔ s = t := by
  rw [bytesOf, bytesOf, toList_eq, toList_eq, Array.toList_inj, ← ByteArray.ext_iff]
  exact String.toByteArray_inj

/-- No character but NUL has a zero byte. -/
theorem zero_mem_utf8EncodeChar_iff {c : Char} : 0 ∈ String.utf8EncodeChar c ↔ c = '\x00' := by
  have hchar : c = '\x00' ↔ c.val.toNat = 0 := by
    constructor
    · rintro rfl
      rfl
    · intro h
      exact Char.ext (UInt32.toNat_inj.1 h)
  have hbyte (n : Nat) : (0 : UInt8) = UInt8.ofNat n ↔ n % 256 = 0 := by
    rw [← UInt8.toNat_inj, eq_comm, UInt8.toNat_ofNat']
    rfl
  -- All bytes of a longer sequence have their highest bit set, and one byte is the code itself.
  rw [hchar]
  unfold String.utf8EncodeChar
  dsimp only
  repeat' split
  all_goals
    simp only [List.mem_cons, List.not_mem_nil, or_false, hbyte]
    omega

/-- A zero byte in a text stands for the character with this code. -/
theorem zero_mem_bytesOf_iff {text : String} : 0 ∈ bytesOf text ↔ '\x00' ∈ text.toList := by
  simp [bytesOf_eq, List.mem_flatMap, zero_mem_utf8EncodeChar_iff]

end Digest

/-! ## JSON without zeros -/

namespace Json

/-- NUL stands neither in a token nor between two of them. -/
theorem Scanner.step?_nul (s : Scanner) : s.step? '\x00' = none := by
  obtain ⟨mode, tokens⟩ := s
  cases mode with
  | word before =>
    -- A word ends at a character that does not belong to it, which is read as the start of a token.
    have hword : isWordChar '\x00' = false := rfl
    have hstart (value : Json) : Scanner.start? (.scalar value :: tokens) '\x00' = none := rfl
    simp [Scanner.step?, hword, hstart]
  | _ => rfl

/-- What is read from a state on holds no NUL. -/
theorem nul_not_mem_of_foldlM {text : List Char} {s last : Scanner}
    (h : text.foldlM Scanner.step? s = some last) : '\x00' ∉ text := by
  induction text generalizing s with
  | nil => simp
  | cons c rest ih =>
    rw [List.foldlM_cons] at h
    obtain ⟨next, hstep, hrest⟩ := Option.bind_eq_some_iff.1 h
    rw [List.mem_cons, not_or]
    refine ⟨?_, ih hrest⟩
    rintro rfl
    rw [s.step?_nul] at hstep
    cases hstep

theorem nul_not_mem_of_read? {text : String} {value : Json} (h : read? text = some value) :
    '\x00' ∉ text.toList := by
  obtain ⟨tokens, htokens, -⟩ := Option.bind_eq_some_iff.1 h
  obtain ⟨last, hlast, -⟩ := Option.bind_eq_some_iff.1 htokens
  exact nul_not_mem_of_foldlM hlast

/-- There is no zero byte in JSON. -/
theorem zero_not_mem_of_ofBytes? {bytes : List UInt8} {value : Json}
    (h : ofBytes? bytes = some value) : 0 ∉ bytes := by
  obtain ⟨text, htext, hread⟩ := Option.bind_eq_some_iff.1 h
  have hbytes : Digest.bytesOf text = bytes := by
    unfold String.fromUTF8? at htext
    split at htext
    · cases htext
      rw [Digest.bytesOf, Digest.toList_eq]
      rfl
    · cases htext
  rw [← hbytes, Digest.zero_mem_bytesOf_iff]
  exact nul_not_mem_of_read? hread

end Json

/-! ## Paths and places -/

namespace Text

theorem split_of_not_mem {separator : Char} {piece : List Char} (h : separator ∉ piece) :
    split separator piece = [piece] := by
  induction piece with
  | nil => rfl
  | cons c rest ih =>
    rw [List.mem_cons, not_or] at h
    simp [split, Ne.symm h.1, ih h.2]

theorem split_append_cons {separator : Char} {piece : List Char} (h : separator ∉ piece)
    (rest : List Char) :
    split separator (piece ++ separator :: rest) = piece :: split separator rest := by
  induction piece with
  | nil => simp [split]
  | cons c piece ih =>
    rw [List.mem_cons, not_or] at h
    simp [split, Ne.symm h.1, ih h.2]

/-- Pieces without a character are recovered when they have been joined by it. -/
theorem split_intercalate {separator : Char} {pieces : List (List Char)} (hpieces : pieces ≠ [])
    (h : ∀ piece ∈ pieces, separator ∉ piece) :
    split separator (List.intercalate [separator] pieces) = pieces := by
  induction pieces with
  | nil => exact absurd rfl hpieces
  | cons piece rest ih =>
    rw [List.forall_mem_cons] at h
    cases rest with
    | nil => simpa using split_of_not_mem h.1
    | cons next more =>
      rw [List.intercalate_cons_cons, List.append_assoc, List.singleton_append,
        split_append_cons h.1, ih (by simp) h.2]

end Text

namespace SourceTree

/-- A name that a file system may have: neither a slash nor NUL is in it. -/
def IsFileName (name : String) : Prop := '/' ∉ name.toList ∧ '\x00' ∉ name.toList

theorem toList_text_pathOf (place : List String) :
    (pathOf place).text.toList = List.intercalate ['/'] (place.map String.toList) :=
  String.toList_intercalate

/-- A path tells the components of a place. -/
theorem pathOf_inj {place other : List String} (hplace : place ≠ []) (hother : other ≠ [])
    (hnames : ∀ name ∈ place, IsFileName name) (hothers : ∀ name ∈ other, IsFileName name) :
    pathOf place = pathOf other ↔ place = other := by
  have hsplit {place : List String} (hplace : place ≠ []) (h : ∀ name ∈ place, IsFileName name) :
      Text.split '/' (pathOf place).text.toList = place.map String.toList := by
    rw [toList_text_pathOf]
    refine Text.split_intercalate (by simpa using hplace) fun piece hpiece => ?_
    obtain ⟨name, hname, rfl⟩ := List.mem_map.1 hpiece
    exact (h name hname).1
  refine ⟨fun h => ?_, fun h => h ▸ rfl⟩
  have htexts : place.map String.toList = other.map String.toList := by
    rw [← hsplit hplace hnames, ← hsplit hother hothers, h]
  exact List.map_injective_iff.2 (fun _ _ => String.toList_inj.1) htexts

/-- Neither the names of a place nor the slashes between them are NUL. -/
theorem nul_not_mem_pathOf {place : List String} (h : ∀ name ∈ place, IsFileName name) :
    '\x00' ∉ (pathOf place).text.toList := by
  rw [toList_text_pathOf]
  induction place with
  | nil => simp
  | cons name rest ih =>
    rw [List.forall_mem_cons] at h
    cases rest with
    | nil => simpa using h.1.2
    | cons next more =>
      have hrest := ih h.2
      rw [List.map_cons] at hrest
      rw [List.map_cons, List.map_cons, List.intercalate_cons_cons, List.mem_append,
        List.mem_append, not_or, not_or]
      exact ⟨⟨h.1.2, by decide⟩, hrest⟩

/-! ## Loads that keep track of what they digest -/

/-- The bytes of the path and the contents of a file. -/
def bytesOfFile (file : File) : List UInt8 × List UInt8 :=
  (Digest.bytesOf (pathOf file.1).text, file.2)

/-- Read files in order: each one is parsed, then digested, then added.  The files that have been
digested come with the outcome. -/
def feed (r : Repository) : List File → List File × Except Error Repository
  | [] => ([], .ok r)
  | file :: rest =>
    match Json.ofBytes? file.2 with
    | none => ([], .error (.invalidDefinition (pathOf file.1) .notJson))
    | some value =>
      match r.insertFiles [(pathOf file.1, value)] with
      | .error e => ([file], .error e)
      | .ok next =>
        let after := feed next rest
        (file :: after.1, after.2)

theorem feed_snd (r : Repository) (files : List File) :
    (feed r files).2 = files.foldlM readFile r := by
  induction files generalizing r with
  | nil => rfl
  | cons file rest ih =>
    rw [List.foldlM_cons, readFile, feed]
    cases Json.ofBytes? file.2 with
    | none => rfl
    | some value =>
      dsimp only
      cases r.insertFiles [(pathOf file.1, value)] with
      | error e => rfl
      | ok next => exact ih next

/-- What has been digested is a first part of the files. -/
theorem feed_fst_isPrefix (r : Repository) (files : List File) : (feed r files).1 <+: files := by
  induction files generalizing r with
  | nil => exact List.nil_prefix
  | cons file rest ih =>
    rw [feed]
    split
    · exact List.nil_prefix
    · split
      · exact (List.prefix_cons_inj file).2 List.nil_prefix
      · exact (List.prefix_cons_inj file).2 (ih _)

/-- All files are digested unless one is defective. -/
theorem feed_fst_of_ok {r last : Repository} {files : List File}
    (h : (feed r files).2 = .ok last) : (feed r files).1 = files := by
  induction files generalizing r with
  | nil => rfl
  | cons file rest ih =>
    rw [feed] at h ⊢
    split at h
    · cases h
    · split at h
      · cases h
      · simp only [ih h]

/-- Whatever is digested has been parsed. -/
theorem exists_ofBytes?_of_mem_feed {r : Repository} {files : List File} {file : File}
    (h : file ∈ (feed r files).1) : ∃ value, Json.ofBytes? file.2 = some value := by
  induction files generalizing r with
  | nil => cases h
  | cons first rest ih =>
    rw [feed] at h
    split at h
    · cases h
    · rename_i value hvalue
      split at h
      · rw [List.mem_singleton.1 h]
        exact ⟨value, hvalue⟩
      · rcases List.mem_cons.1 h with rfl | h
        · exact ⟨value, hvalue⟩
        · exact ih h

variable (tree : SourceTree)

/-- A load with the files that it has digested when it ends. -/
def traced : List File × Except Error Repository :=
  match tree.files with
  | none => ([], .error (.invalidDefinition tree.root .rootNotADirectory))
  | some files =>
    let read := feed .empty (selected files)
    (read.1, read.2.map fun r =>
      { r with fingerprint := some (Digest.checksum (Digest.stream (read.1.map bytesOfFile))) })

/-- The files that a load digests. -/
def digestedFiles : List File := tree.traced.1

/-- The bytes that a load digests. -/
def digested : List UInt8 := Digest.stream (tree.digestedFiles.map bytesOfFile)

/-- A load that keeps track of what it digests is a load. -/
theorem traced_snd : tree.traced.2 = tree.load := by
  obtain ⟨root, _ | files⟩ := tree
  · rfl
  · simp only [traced, load, ← feed_snd]
    cases hread : (feed .empty (selected files)).2 with
    | error e => rfl
    | ok r =>
      rw [feed_fst_of_ok hread]
      rfl

/-- The files have the names that a file system allows. -/
def Named : Prop :=
  ∀ files, tree.files = some files → ∀ place ∈ files, ∀ name ∈ place, IsFileName name

variable {tree}

/-- A load that succeeds has digested all files, and its fingerprint is that digest. -/
theorem fingerprint_of_load_ok {r : Repository} (h : tree.load = .ok r) :
    ∃ files, tree.files = some files ∧ tree.digestedFiles = selected files ∧
      r.fingerprint = some (Digest.checksum tree.digested) := by
  rw [← traced_snd] at h
  obtain ⟨root, _ | files⟩ := tree
  · cases h
  · simp only [traced] at h
    cases hread : (feed .empty (selected files)).2 with
    | error e => simp [hread, Except.map] at h
    | ok last =>
      rw [hread] at h
      cases h
      exact ⟨files, rfl, feed_fst_of_ok hread, rfl⟩

/-- Whatever is digested stands at a place with the names of files. -/
theorem Named.isPlace (h : tree.Named) {file : File} (hfile : file ∈ tree.digestedFiles) :
    file.1 ≠ [] ∧ ∀ name ∈ file.1, IsFileName name := by
  obtain ⟨root, _ | files⟩ := tree
  · cases hfile
  · have hselected := (feed_fst_isPrefix _ _).subset hfile
    obtain ⟨hmem, hholds⟩ := List.mem_filter.1 hselected
    constructor
    · intro hnil
      simp [hnil, holdsDefinitions] at hholds
    · refine h files rfl file.1 (ExtTreeMap.mem_iff_isSome_getElem?.2 ?_)
      rw [ExtTreeMap.mem_toList_iff_getElem?_eq_some.1 hmem]
      rfl

/-- Whatever is digested holds no zeros. -/
theorem Named.zeroFree (h : tree.Named) {file : File} (hfile : file ∈ tree.digestedFiles) :
    Digest.ZeroFree (bytesOfFile file) := by
  constructor
  · rw [bytesOfFile, Digest.zero_mem_bytesOf_iff]
    exact nul_not_mem_pathOf (h.isPlace hfile).2
  · obtain ⟨root, _ | files⟩ := tree
    · cases hfile
    · obtain ⟨value, hvalue⟩ := exists_ofBytes?_of_mem_feed hfile
      exact Json.zero_not_mem_of_ofBytes? hvalue

/-- Files at places with the names of files are told apart by their bytes. -/
theorem map_bytesOfFile_inj {files others : List File}
    (hfiles : ∀ file ∈ files, file.1 ≠ [] ∧ ∀ name ∈ file.1, IsFileName name)
    (hothers : ∀ file ∈ others, file.1 ≠ [] ∧ ∀ name ∈ file.1, IsFileName name) :
    files.map bytesOfFile = others.map bytesOfFile ↔ files = others := by
  induction files generalizing others with
  | nil => cases others <;> simp
  | cons file rest ih =>
    rw [List.forall_mem_cons] at hfiles
    cases others with
    | nil => simp
    | cons other more =>
      rw [List.forall_mem_cons] at hothers
      have hpath : (pathOf file.1).text = (pathOf other.1).text ↔ file.1 = other.1 := by
        rw [← Path.mk.injEq]
        exact pathOf_inj hfiles.1.1 hothers.1.1 hfiles.1.2 hothers.1.2
      rw [List.map_cons, List.map_cons, List.cons.injEq, List.cons.injEq, ih hfiles.2 hothers.2,
        bytesOfFile, bytesOfFile, Prod.mk.injEq, Digest.bytesOf_inj, hpath, ← Prod.ext_iff]

/--
A stream of bytes is digested that tells the files.  For any two lists of files without zero bytes
the streams are equal only if the lists are.  A load parses each file before it digests it and stops
at the first one that is defective; if there is none, the digest is taken of all files that are
read.  As long as the file system keeps slashes and NUL out of names, no zero byte is digested but
those at the ends, and two loads, completed or not, digest the same bytes exactly if they digest the
same files with the same contents in the same order.
-/
theorem digested_tells_files :
    (∀ files more : List (List UInt8 × List UInt8), (∀ file ∈ files, Digest.ZeroFree file) →
      (∀ file ∈ more, Digest.ZeroFree file) →
        (Digest.stream files = Digest.stream more ↔ files = more)) ∧
    (∀ tree : SourceTree, tree.traced.2 = tree.load ∧ ∀ r, tree.load = .ok r →
      ∃ files, tree.files = some files ∧ tree.digestedFiles = selected files ∧
        r.fingerprint = some (Digest.checksum tree.digested)) ∧
    (∀ tree : SourceTree, tree.Named → ∀ file ∈ tree.digestedFiles,
      Digest.ZeroFree (bytesOfFile file)) ∧
    (∀ tree other : SourceTree, tree.Named → other.Named →
      (tree.digested = other.digested ↔ tree.digestedFiles = other.digestedFiles)) := by
  refine ⟨fun files more => Digest.stream_inj,
    fun tree => ⟨tree.traced_snd, fun r => fingerprint_of_load_ok⟩,
    fun tree htree file => htree.zeroFree, fun tree other htree hother => ?_⟩
  have hzeros {tree : SourceTree} (h : tree.Named) :
      ∀ file ∈ tree.digestedFiles.map bytesOfFile, Digest.ZeroFree file :=
    List.forall_mem_map.2 fun _ => h.zeroFree
  rw [digested, digested, Digest.stream_inj (hzeros htree) (hzeros hother),
    map_bytesOfFile_inj (fun _ => htree.isPlace) fun _ => hother.isPlace]

/-- A tree with an object. -/
def oneObject : SourceTree :=
  ⟨⟨"tree"⟩, some (.ofList [(["objects", "file.json"], ([123, 125] : List UInt8))])⟩

/-- The tree with the object in another file. -/
def renamedObject : SourceTree :=
  ⟨⟨"tree"⟩, some (.ofList [(["objects", "process.json"], ([123, 125] : List UInt8))])⟩

/-- The tree with a zero byte in one more file. -/
def strayByte : SourceTree :=
  ⟨⟨"tree"⟩, some (.ofList [(["objects", "file.json"], ([123, 125] : List UInt8)),
    (["objects", "stray.json"], [0])])⟩

/-- A byte that moves from the contents to the path shows, and so does a new name; a file with a zero
byte is refused before it is digested. -/
theorem renamed_object_is_digested_otherwise :
    Digest.stream [([97], [98, 99])] ≠ Digest.stream [([97, 98], [99])] ∧
      oneObject.Named ∧ renamedObject.Named ∧ strayByte.Named ∧
      oneObject.load.isOk = true ∧
      strayByte.load = .error (.invalidDefinition ⟨"objects/stray.json"⟩ .notJson) ∧
      oneObject.digested ≠ renamedObject.digested ∧
      oneObject.digested = strayByte.digested := by
  have hnamed : oneObject.Named ∧ renamedObject.Named ∧ strayByte.Named := by
    simp [Named, oneObject, renamedObject, strayByte, ExtTreeMap.mem_ofList, IsFileName]
  obtain ⟨hstream, -, -, hloads⟩ := digested_tells_files
  refine ⟨fun h => ?_, hnamed.1, hnamed.2.1, hnamed.2.2, rfl, rfl, fun h => ?_, ?_⟩
  · have hfiles := (hstream _ _ (by simp [Digest.ZeroFree]) (by simp [Digest.ZeroFree])).1 h
    simp at hfiles
  · have hfiles := (hloads _ _ hnamed.1 hnamed.2.1).1 h
    have hone : oneObject.digestedFiles = [(["objects", "file.json"], [123, 125])] := rfl
    have hrenamed : renamedObject.digestedFiles = [(["objects", "process.json"], [123, 125])] := rfl
    simp [hone, hrenamed] at hfiles
  · exact (hloads _ _ hnamed.1 hnamed.2.2).2 rfl

end SourceTree

end EventSchema
