import Gatehouse.Acl.Catalog
import Gatehouse.Proofs.Glob.Deletion
import Mathlib.Data.Finset.Card

/-!
# Files that are no documents

What a library makes of a file depends on the path of the file and on its bytes.

* `Document.ofBytes` — what becomes of a file, told from its path and its bytes, and
  `Document.load_of_find?` that loading it comes to that.
* `Unloadable` — bytes that are no document: no text, no JSON, or no object
  (`Document.isOk_ofBytes`).
* `Library.unloadablePlaces` — the places of the files that are listed and are no documents.
* `Library.paths_cleaned`, `Library.load_cleaned` — when these files are deleted, the library lists
  and loads what it listed and loaded without them.
-/

namespace Gatehouse.Acl

open Gatehouse.Files

/-! ## Bytes -/

namespace Document

/-- What becomes of a file with a path and bytes. -/
def ofBytes (path : String) (bytes : List UInt8) : Except DocumentError Document :=
  match Text.decode? bytes with
  | none => .error (.read path FileFault.notText.message)
  | some cs =>
    match Json.parse (.ofString (String.ofList cs)) with
    | .error fault => .error (.parse path fault)
    | .ok v =>
      match ofJson? v.settled with
      | some d => .ok d
      | none => .error (.notAnObject path)

end Document

/-- Bytes that are no document. -/
inductive Unloadable (bytes : List UInt8) : Prop where
  /-- They are no text. -/
  | notText (h : Text.decode? bytes = none)
  /-- The text is no JSON. -/
  | notJson {cs : List Char} {fault : Json.Fault} (h : Text.decode? bytes = some cs)
      (hparse : Json.parse (.ofString (String.ofList cs)) = .error fault)
  /-- The value is no object. -/
  | notObject {cs : List Char} {v : Json} (h : Text.decode? bytes = some cs)
      (hparse : Json.parse (.ofString (String.ofList cs)) = .ok v)
      (hv : ∀ entries, v.settled ≠ .object entries)

variable {t : Tree} {path : String} {bytes : List UInt8}

namespace Document

theorem ofJson?_eq_none_iff {v : Json} : ofJson? v = none ↔ ∀ entries, v ≠ .object entries := by
  cases v <;> simp [ofJson?, Json.object?]

/-- A file is no document exactly if its bytes are none. -/
theorem isOk_ofBytes (path : String) (bytes : List UInt8) :
    (ofBytes path bytes).isOk = false ↔ Unloadable bytes := by
  unfold ofBytes
  cases htext : Text.decode? bytes with
  | none => exact ⟨fun _ => .notText htext, fun _ => rfl⟩
  | some cs =>
    dsimp only
    cases hparse : Json.parse (.ofString (String.ofList cs)) with
    | error fault => exact ⟨fun _ => .notJson htext hparse, fun _ => rfl⟩
    | ok v =>
      dsimp only
      cases hv : ofJson? v.settled with
      | none => exact ⟨fun _ => .notObject htext hparse (ofJson?_eq_none_iff.1 hv), fun _ => rfl⟩
      | some d =>
        refine ⟨fun h => absurd h (by simp [Except.isOk, Except.toBool]), fun h => ?_⟩
        cases h with
        | notText h => rw [htext] at h; exact absurd h (by simp)
        | notJson h hparse' =>
          obtain rfl := Option.some.inj (htext.symm.trans h)
          rw [hparse] at hparse'
          exact absurd hparse' (by simp)
        | notObject h hparse' hnot =>
          obtain rfl := Option.some.inj (htext.symm.trans h)
          obtain rfl := Except.ok.inj (hparse.symm.trans hparse')
          rw [ofJson?_eq_none_iff.2 hnot] at hv
          exact absurd hv (by simp)

/-- Loading a file depends on nothing but its path and its bytes. -/
theorem load_of_find? (h : t.find? path = some (.file bytes)) :
    load t path = ofBytes path bytes := by
  have htext : t.readText path = Tree.textOf (.file bytes) := by
    unfold Tree.find? at h
    unfold Tree.readText
    cases hlocate : t.locate path with
    | error fault => rw [hlocate] at h; exact absurd h (by simp)
    | ok place =>
      rw [hlocate] at h
      dsimp only at h ⊢
      rw [h]
  unfold load ofBytes
  rw [htext, Tree.textOf]
  cases Text.decode? bytes <;> rfl

end Document

/-! ## The files of a library -/

namespace Library

/-- The places of the files that a library lists and that are no documents, once for each time that
such a file is listed. -/
def unloadablePlaces (l : Library) (tree : Tree) : List Place :=
  match l.paths tree with
  | .ok paths => (paths.filter fun path => !(Document.load tree path).isOk).filterMap fun path =>
      (tree.locate path).toOption
  | .error _ => []

variable {l : Library} {tree : Tree} {paths : List String}

/-- Every path of a library leads to a file. -/
theorem exists_file_of_mem_paths (h : l.paths tree = .ok paths) (hpath : path ∈ paths) :
    ∃ place bytes, tree.locate path = .ok place ∧ tree.entry? place = some (.file bytes) := by
  unfold Library.paths at h
  split at h
  · obtain rfl := Except.ok.inj h
    unfold Glob.PathPattern.files at hpath
    split at hpath
    · exact absurd hpath List.not_mem_nil
    · rw [List.mem_mergeSort, List.mem_filter] at hpath
      exact Tree.isFile_iff.1 hpath.2
  · exact absurd h (by simp)

theorem load_of_locate {place : Place} (hlocate : tree.locate path = .ok place)
    (hentry : tree.entry? place = some (.file bytes)) :
    Document.load tree path = Document.ofBytes path bytes := by
  refine Document.load_of_find? ?_
  rw [Tree.find?, hlocate]
  exact hentry

/-- The places are those of the files that are listed and whose bytes are no document. -/
theorem mem_unloadablePlaces (h : l.paths tree = .ok paths) {place : Place} :
    place ∈ l.unloadablePlaces tree ↔ ∃ path ∈ paths, ∃ bytes, tree.locate path = .ok place ∧
      tree.entry? place = some (.file bytes) ∧ Unloadable bytes := by
  unfold unloadablePlaces
  rw [h]
  simp only [List.mem_filterMap, List.mem_filter, Bool.not_eq_true']
  constructor
  · rintro ⟨path, ⟨hpath, hload⟩, hplace⟩
    obtain ⟨q, bytes, hlocate, hentry⟩ := exists_file_of_mem_paths h hpath
    rw [hlocate] at hplace
    obtain rfl : q = place := Option.some.inj hplace
    rw [load_of_locate hlocate hentry, Document.isOk_ofBytes] at hload
    exact ⟨path, hpath, bytes, hlocate, hentry, hload⟩
  · rintro ⟨path, hpath, bytes, hlocate, hentry, hbad⟩
    refine ⟨path, ⟨hpath, ?_⟩, by rw [hlocate]; rfl⟩
    rw [load_of_locate hlocate hentry, Document.isOk_ofBytes]
    exact hbad

/-- Each time that such a file is listed, its place is counted. -/
theorem length_unloadablePlaces (h : l.paths tree = .ok paths) :
    (l.unloadablePlaces tree).length =
      paths.countP fun path => !(Document.load tree path).isOk := by
  unfold unloadablePlaces
  rw [h, List.countP_eq_length_filter, List.length_filterMap_eq_countP, List.countP_eq_length]
  intro path hpath
  obtain ⟨place, bytes, hlocate, -⟩ := exists_file_of_mem_paths h (List.mem_filter.1 hpath).1
  rw [hlocate]
  rfl

theorem allFiles_unloadablePlaces (h : l.paths tree = .ok paths) :
    tree.AllFiles (l.unloadablePlaces tree) := by
  intro place hplace
  obtain ⟨-, -, bytes, -, hentry, -⟩ := (mem_unloadablePlaces h).1 hplace
  exact ⟨bytes, hentry⟩

theorem reachable_unloadablePlaces (h : l.paths tree = .ok paths) :
    ∀ place ∈ l.unloadablePlaces tree, tree.Reachable place := by
  intro place hplace
  obtain ⟨path, -, bytes, hlocate, -, -⟩ := (mem_unloadablePlaces h).1 hplace
  exact Tree.reachable_of_locate hlocate

/-- A path of the library leads to one of the places exactly if it leads to no document: two paths
may lead to one file, and then both do. -/
theorem leadsTo_unloadablePlaces (h : l.paths tree = .ok paths) (hpath : path ∈ paths) :
    tree.leadsTo (l.unloadablePlaces tree) path = !(Document.load tree path).isOk := by
  obtain ⟨place, bytes, hlocate, hentry⟩ := exists_file_of_mem_paths h hpath
  rw [Bool.eq_iff_iff, Bool.not_eq_true', load_of_locate hlocate hentry, Document.isOk_ofBytes,
    Tree.leadsTo, hlocate, decide_eq_true_eq, mem_unloadablePlaces h]
  constructor
  · rintro ⟨-, -, bytes', -, hentry', hbad⟩
    obtain rfl := Entry.file.inj (Option.some.inj (hentry.symm.trans hentry'))
    exact hbad
  · exact fun hbad => ⟨path, hpath, bytes, hlocate, hentry, hbad⟩

/-- The tree without the files that the library lists and that are no documents. -/
def cleaned (l : Library) (tree : Tree) : Tree :=
  tree.delete (l.unloadablePlaces tree)

/-- Of the cleaned tree, the library lists the files that are documents. -/
theorem paths_cleaned (h : l.paths tree = .ok paths) :
    l.paths (l.cleaned tree) = .ok (paths.filter fun path => (Document.load tree path).isOk) := by
  have hleads : ∀ path ∈ paths, (!tree.leadsTo (l.unloadablePlaces tree) path) =
      (Document.load tree path).isOk := by
    intro path hpath
    rw [leadsTo_unloadablePlaces h hpath, Bool.not_not]
  have hparse := h
  unfold Library.paths at hparse ⊢
  split at hparse
  · rename_i pattern hpattern
    obtain rfl := Except.ok.inj hparse
    rw [cleaned, Glob.PathPattern.files_delete (allFiles_unloadablePlaces h)
      (reachable_unloadablePlaces h) (Glob.relative_of_parse hpattern)]
    exact congrArg Except.ok (List.filter_congr hleads)
  · exact absurd hparse (by simp)

/-- What the library loads of the cleaned tree is what it loaded of the files that are documents. -/
theorem load_cleaned (h : l.paths tree = .ok paths) :
    l.load (l.cleaned tree) = .ok ((paths.filter fun path => (Document.load tree path).isOk).map
      fun path => (Loaded.mk path ·) <$> Document.load tree path) := by
  unfold Library.load
  rw [paths_cleaned h]
  dsimp only
  congr 1
  refine List.map_congr_left fun path hpath => ?_
  obtain ⟨hpath, hok⟩ := List.mem_filter.1 hpath
  have hleft : tree.leadsTo (l.unloadablePlaces tree) path = false := by
    rw [leadsTo_unloadablePlaces h hpath, hok]
    rfl
  have hfile : tree.isFile path = true := Tree.isFile_iff.2 (exists_file_of_mem_paths h hpath)
  have htext := Tree.readText_delete (allFiles_unloadablePlaces h) hfile hleft
  rw [cleaned]
  congr 1
  unfold Document.load
  rw [htext]

end Library

end Gatehouse.Acl
