import Gatehouse.Acl.Catalog
import Gatehouse.Proofs.Json.Members
import Mathlib.Data.List.Basic

/-!
# The values of documents

A file of a library is a document if it holds a JSON value that is an object.

* `Document.value?` — the value that a file holds; `Document.load_eq_ok_iff` says that loading the
  file is reading that value.
* `Library.values` — the values of the documents of a library, in the order of its files: they are
  what `loadable` keeps of the files that were loaded (`Library.loadable_eq_values`,
  `Library.mem_values_iff`).
-/

namespace Gatehouse.Acl

open Gatehouse.Files

namespace Document

/-- The JSON value that a file holds, if it holds one. -/
def value? (tree : Tree) (path : String) : Option Json :=
  match tree.readText path with
  | .error _ => none
  | .ok text =>
    match Json.parse (.ofString text) with
    | .error _ => none
    | .ok v => some v.settled

variable {tree : Tree} {path : String}

theorem distinct_of_value? {v : Json} (h : value? tree path = some v) : v.Distinct := by
  unfold value? at h
  split at h
  · exact absurd h (by simp)
  split at h
  · exact absurd h (by simp)
  · obtain rfl := Option.some.inj h
    exact Json.distinct_settled _

/-- A file is loaded if its value is an object, as the document with the entries of that object. -/
theorem load_eq_ok_iff {d : Document} :
    load tree path = .ok d ↔
      ∃ entries, value? tree path = some (.object entries) ∧ d = .ofEntries entries := by
  unfold load value?
  cases tree.readText path with
  | error fault => simp
  | ok text =>
    cases hv : Json.parse (.ofString text) with
    | error fault => simp [hv]
    | ok v => cases hs : v.settled <;> simp [hv, hs, ofJson?, Json.object?, eq_comm]

/-- The document in a file is that of the value in the file. -/
theorem toOption_load (tree : Tree) (path : String) :
    (load tree path).toOption =
      ((value? tree path).filter (·.object?.isSome)).bind ofJson? := by
  unfold load value?
  cases tree.readText path with
  | error fault => rfl
  | ok text =>
    dsimp only
    cases Json.parse (.ofString text) with
    | error fault => rfl
    | ok v =>
      dsimp only
      generalize v.settled = settled
      cases settled <;> rfl

end Document

/-! ## Loaded files -/

theorem mem_loadable {files : List (Except DocumentError Loaded)} {d : Document} :
    d ∈ loadable files ↔ ∃ l, .ok l ∈ files ∧ l.document = d := by
  rw [loadable, List.mem_filterMap]
  constructor
  · rintro ⟨f, hf, heq⟩
    cases f with
    | ok l => exact ⟨l, hf, Option.some.inj heq⟩
    | error e => exact absurd heq (by simp)
  · rintro ⟨l, hl, rfl⟩
    exact ⟨_, hl, rfl⟩

theorem loadable_map_load (tree : Tree) (paths : List String) :
    loadable (paths.map fun path => (Loaded.mk path ·) <$> Document.load tree path) =
      paths.filterMap fun path => (Document.load tree path).toOption := by
  rw [loadable, List.filterMap_map]
  refine List.filterMap_congr fun path _ => ?_
  rw [Function.comp_apply]
  cases Document.load tree path <;> rfl

namespace Library

variable {l : Library} {tree : Tree}

/-- A loaded document is the one that its path leads to. -/
theorem load_document {files : List (Except DocumentError Loaded)} (h : l.load tree = .ok files)
    {d : Loaded} (hd : .ok d ∈ files) : Document.load tree d.path = .ok d.document := by
  unfold Library.load at h
  split at h
  · obtain rfl := Except.ok.inj h
    obtain ⟨path, -, heq⟩ := List.mem_map.1 hd
    cases hload : Document.load tree path with
    | error e => rw [hload] at heq; exact absurd heq (by simp)
    | ok document =>
      rw [hload] at heq
      obtain rfl := Except.ok.inj heq
      exact hload
  · exact absurd h (by simp)

/-- A library of one file loads it, if the value of the file is an object. -/
theorem load_of_value? {path : String} {entries : List (String × Json)}
    (hpaths : l.paths tree = .ok [path])
    (hvalue : Document.value? tree path = some (.object entries)) :
    l.load tree = .ok [.ok ⟨path, .ofEntries entries⟩] := by
  have hdocument : Document.load tree path = .ok (.ofEntries entries) :=
    Document.load_eq_ok_iff.2 ⟨entries, hvalue, rfl⟩
  rw [Library.load, hpaths]
  dsimp only
  rw [List.map_singleton, hdocument]
  rfl

/-! ## The values of a library -/

/-- The JSON values of the documents of a library, in the order of the files. -/
def values (l : Library) (tree : Tree) : List Json :=
  match l.paths tree with
  | .ok paths => paths.filterMap fun path =>
      (Document.value? tree path).filter (·.object?.isSome)
  | .error _ => []

theorem values_of_value? {path : String} {entries : List (String × Json)}
    (hpaths : l.paths tree = .ok [path])
    (hvalue : Document.value? tree path = some (.object entries)) :
    l.values tree = [.object entries] := by
  have hkept : (Document.value? tree path).filter (·.object?.isSome) = some (.object entries) := by
    rw [hvalue]
    rfl
  rw [Library.values, hpaths]
  dsimp only
  rw [List.filterMap_cons, hkept]
  rfl

/-- What could be loaded are the values, each read as a document. -/
theorem loadable_eq_values {files : List (Except DocumentError Loaded)}
    (h : l.load tree = .ok files) :
    loadable files = (l.values tree).filterMap Document.ofJson? := by
  unfold Library.load at h
  unfold Library.values
  cases hpaths : l.paths tree with
  | error e => rw [hpaths] at h; exact absurd h (by simp)
  | ok paths =>
    rw [hpaths] at h
    obtain rfl := Except.ok.inj h
    dsimp only
    rw [loadable_map_load, List.filterMap_filterMap]
    simp only [Document.toOption_load]

/-- The values are what the files that were loaded hold. -/
theorem mem_values_iff {v : Json} :
    v ∈ l.values tree ↔ ∃ files d, l.load tree = .ok files ∧ .ok d ∈ files ∧
      Document.value? tree d.path = some v := by
  unfold Library.values Library.load
  cases l.paths tree with
  | error e => simp
  | ok paths =>
    simp only [List.mem_filterMap, Except.ok.injEq]
    constructor
    · rintro ⟨path, hpath, hvalue⟩
      obtain ⟨hvalue, hobject⟩ := Option.filter_eq_some_iff.1 hvalue
      obtain ⟨entries, hentries⟩ := Option.isSome_iff_exists.1 hobject
      obtain rfl : v = .object entries := by
        cases v <;> simp [Json.object?] at hentries
        rw [hentries]
      have hload : Document.load tree path = .ok (.ofEntries entries) :=
        Document.load_eq_ok_iff.2 ⟨entries, hvalue, rfl⟩
      exact ⟨_, ⟨path, .ofEntries entries⟩, rfl,
        List.mem_map.2 ⟨path, hpath, by rw [hload]; rfl⟩, hvalue⟩
    · rintro ⟨_, d, rfl, hd, hvalue⟩
      obtain ⟨path, hpath, heq⟩ := List.mem_map.1 hd
      cases hload : Document.load tree path with
      | error e => rw [hload] at heq; exact absurd heq (by simp)
      | ok document =>
        rw [hload] at heq
        obtain rfl := Except.ok.inj heq
        obtain ⟨entries, hentries, -⟩ := Document.load_eq_ok_iff.1 hload
        obtain rfl : .object entries = v := Option.some.inj (hentries.symm.trans hvalue)
        exact ⟨path, hpath, Option.filter_eq_some_iff.2 ⟨hvalue, rfl⟩⟩

/-- No object inside the value of a document has a name twice. -/
theorem distinct_of_mem_values {v : Json} (h : v ∈ l.values tree) : v.Distinct := by
  obtain ⟨-, d, -, -, hvalue⟩ := mem_values_iff.1 h
  exact Document.distinct_of_value? hvalue

end Library

end Gatehouse.Acl
