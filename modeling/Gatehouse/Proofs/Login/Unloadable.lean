import Gatehouse.Proofs.Acl.Unloadable
import Gatehouse.Proofs.Login.Access

/-!
# A file that is no document is as if absent

Two logins against the same broker, one of them with the files deleted that its library lists and
that are no documents.

* `Login.Alike` — dialogues that make the same requests and come to the same, except for the number
  of files that are reported as skipped.
* `Login.alike_dialogue` — logins whose files give the same grants are alike.
* `LoginCase.grants_cleaned`, `Acl.Library.catalog_cleaned` — the deletion changes neither the
  grants of a login nor the catalog.
* `login_cleaned` — the two logins side by side, together with what the library makes of each file.
* `skipped_ne_card_of_listed_twice` — a file that is listed twice is skipped twice.
-/

namespace Gatehouse

open Gatehouse.Access Gatehouse.Acl Gatehouse.Broker Gatehouse.Broker.Dialogue Gatehouse.Files

variable {σ α : Type}

/-! ## Logins with the same grants -/

/-- The report with another number of files that are no documents. -/
def LoginReport.withSkipped (n : Nat) (r : LoginReport) : LoginReport :=
  { r with tally := { r.tally with skipped := n } }

/-- The login with other files. -/
def LoginCase.withFiles (c : LoginCase)
    (files : Except LibraryError (List (Except DocumentError Loaded))) : LoginCase :=
  { c with files := files }

namespace Login

/-- Two logins make the same requests and come to the same, but the second reports `n` skipped
files. -/
structure Alike (b : Broker σ) (n : Nat)
    (d d' : Dialogue LoginEvent (Except LoginError LoginReport)) : Prop where
  /-- The requests are the same. -/
  requests : ∀ s, (d'.run b s).requests = (d.run b s).requests
  /-- The results differ in the number of skipped files. -/
  result : ∀ s, (d'.run b s).result = LoginReport.withSkipped n <$> (d.run b s).result

namespace Alike

variable {b : Broker σ} {n : Nat} {d d' : Dialogue LoginEvent (Except LoginError LoginReport)}

theorem error (e : LoginError) : Alike b n (done (.error e)) (done (.error e)) :=
  ⟨fun _ => rfl, fun _ => rfl⟩

theorem note (e : LoginEvent) (h : Alike b n d d') : Alike b n (.note e d) (.note e d') :=
  ⟨h.requests, h.result⟩

theorem ask (r : Request)
    {next next' : r.Reply → Dialogue LoginEvent (Except LoginError LoginReport)}
    (h : ∀ reply, Alike b n (next reply) (next' reply)) :
    Alike b n (.ask r next) (.ask r next') where
  requests _ := congrArg (r :: ·) ((h _).requests _)
  result _ := (h _).result _

theorem bind (d₀ : Dialogue LoginEvent α)
    {next next' : α → Dialogue LoginEvent (Except LoginError LoginReport)}
    (h : ∀ a, Alike b n (next a) (next' a)) : Alike b n (d₀ >>= next) (d₀ >>= next') where
  requests s := by rw [requests_run_bind, requests_run_bind, (h _).requests]
  result s := by rw [result_run_bind, result_run_bind, (h _).result]

end Alike

variable (b : Broker σ) {c : LoginCase}
  {files : Except LibraryError (List (Except DocumentError Loaded))}

/-- Of the files, only their grants have a part in the requests, and only the number of those that
are no documents has another part in the report. -/
theorem alike_furnish {auth : Authorization} (sid : SessionId)
    (hgrants : (c.withFiles files).grants auth = c.grants auth) :
    Alike b (c.withFiles files).skippedFiles (Except.ok <$> furnish c auth sid)
      (Except.ok <$> furnish (c.withFiles files) auth sid) where
  requests s := by
    rw [requests_run_map, requests_run_map, requests_run_furnish, requests_run_furnish, hgrants]
    rfl
  result s := by
    rw [result_run_map, result_run_map, result_run_furnish, result_run_furnish, hgrants]
    simp only [Tally.skip, Tally.count, Tally.zero, Nat.zero_add]
    rfl

theorem alike_openFor {auth : Authorization}
    (hgrants : (c.withFiles files).grants auth = c.grants auth) :
    Alike b (c.withFiles files).skippedFiles (openFor c auth)
      (openFor (c.withFiles files) auth) := by
  rw [openFor_eq, openFor_eq]
  refine .note _ (.ask .connect fun reply => ?_)
  cases reply with
  | error e => exact .note _ (.error _)
  | ok _ =>
    refine .bind (createSession c.idle c.call) fun created => ?_
    cases created with
    | error e => exact .note _ (.error _)
    | ok sid => exact alike_furnish b sid hgrants

/-- Logins of one user whose files give the same grants are alike. -/
theorem alike_dialogue (hgrants : ∀ auth, (c.withFiles files).grants auth = c.grants auth) :
    Alike b (c.withFiles files).skippedFiles (dialogue c) (dialogue (c.withFiles files)) := by
  have hgate : Alike b (c.withFiles files).skippedFiles (gate c) (gate (c.withFiles files)) := by
    unfold gate
    rw [show (c.withFiles files).authorization = c.authorization from rfl]
    cases c.authorization with
    | none => exact .note _ (.error _)
    | some auth => exact alike_openFor b (hgrants auth)
  rw [dialogue_eq, dialogue_eq, show (c.withFiles files).finding = c.finding from rfl]
  refine .note _ ?_
  split
  · exact hgate.note _
  · exact hgate

end Login

/-! ## The cleaned tree -/

namespace Acl

/-- The documents among files are those of the files that are documents. -/
theorem loadable_filter_isOk (tree : Tree) (paths : List String) :
    loadable ((paths.filter fun path => (Document.load tree path).isOk).map
        fun path => (Loaded.mk path ·) <$> Document.load tree path) =
      loadable (paths.map fun path => (Loaded.mk path ·) <$> Document.load tree path) := by
  induction paths with
  | nil => rfl
  | cons path paths ih =>
    rw [List.filter_cons]
    cases hload : Document.load tree path with
    | error e => simpa [hload, loadable, Except.isOk, Except.toBool] using ih
    | ok d => simpa [hload, loadable, Except.isOk, Except.toBool] using ih

namespace Library

variable {l : Library} {tree : Tree} {paths : List String}

theorem load_of_paths (h : l.paths tree = .ok paths) :
    l.load tree = .ok (paths.map fun path => (Loaded.mk path ·) <$> Document.load tree path) := by
  rw [Library.load, h]

/-- Loading tells, for each path and in the order of the paths, what becomes of the bytes there. -/
theorem exists_load_of_paths (h : l.paths tree = .ok paths) :
    ∃ files, l.load tree = .ok files ∧ List.Forall₂ (fun path file => ∃ bytes,
      tree.find? path = some (.file bytes) ∧
      file = (Loaded.mk path ·) <$> Document.ofBytes path bytes) paths files := by
  refine ⟨_, load_of_paths h, ?_⟩
  rw [List.forall₂_map_right_iff, List.forall₂_same]
  intro path hpath
  obtain ⟨place, bytes, hlocate, hentry⟩ := exists_file_of_mem_paths h hpath
  refine ⟨bytes, ?_, by rw [load_of_locate hlocate hentry]⟩
  rw [Tree.find?, hlocate]
  exact hentry

/-- The catalog sums up the documents, and these stay. -/
theorem catalog_cleaned (h : l.paths tree = .ok paths) :
    l.catalog (l.cleaned tree) = l.catalog tree := by
  rw [Library.catalog, Library.catalog, load_cleaned h, load_of_paths h]
  exact congrArg (fun ds => Except.ok (Acl.catalog ds)) (loadable_filter_isOk tree paths)

end Library

end Acl

namespace LoginCase

variable {store : Uci.Store} {tree : Tree} {settings : LoginSettings} {user : String}
  {paths : List String}

/-- The grants of a login are those of the documents, and these stay. -/
theorem grants_cleaned (h : settings.library.paths tree = .ok paths) (auth : Authorization) :
    (prepare store (settings.library.cleaned tree) settings user).grants auth =
      (prepare store tree settings user).grants auth := by
  unfold prepare LoginCase.grants
  rw [Library.load_cleaned h, Library.load_of_paths h]
  exact congrArg (fun ds => ds.flatMap (expand · auth.allows)) (loadable_filter_isOk tree paths)

/-- As many files are skipped as are listed and are no documents. -/
theorem skippedFiles_eq_length (h : settings.library.paths tree = .ok paths) :
    (prepare store tree settings user).skippedFiles =
      (settings.library.unloadablePlaces tree).length := by
  rw [skippedFiles_prepare, Library.length_unloadablePlaces h, Library.unloadable, h]

/-- Of the cleaned tree no file is skipped. -/
theorem skippedFiles_cleaned (h : settings.library.paths tree = .ok paths) :
    (prepare store (settings.library.cleaned tree) settings user).skippedFiles = 0 := by
  unfold prepare skippedFiles
  rw [Library.load_cleaned h]
  dsimp only
  rw [length_skipped_map_load, List.countP_eq_zero]
  intro path hpath
  simpa using (List.mem_filter.1 hpath).2

end LoginCase

/-- **A file that is no document is as if absent.**  Take the files that a library lists and that
are no text, no JSON or no object, and delete them: the library then lists the other files, in the
same order; a login makes the same requests of the same broker and has the same result, except
that no file is skipped; and the catalog is the same.  Before the deletion a login skips one file
each time that such a file is listed, and what is loaded of a path is decided by the path and the
bytes of the file. -/
theorem login_cleaned (b : Broker σ) (s : σ) (store : Uci.Store) (tree : Tree)
    (settings : LoginSettings) (user : String) (paths : List String)
    (h : settings.library.paths tree = .ok paths) :
    let l := settings.library
    let tree' := tree.delete (l.unloadablePlaces tree)
    let o := (Login.dialogue (.prepare store tree settings user)).run b s
    let o' := (Login.dialogue (.prepare store tree' settings user)).run b s
    (∀ place, place ∈ l.unloadablePlaces tree ↔ ∃ path ∈ paths, ∃ bytes,
      tree.locate path = .ok place ∧ tree.entry? place = some (.file bytes) ∧ Unloadable bytes) ∧
    l.paths tree' = .ok (paths.filter fun path => (Document.load tree path).isOk) ∧
    o'.requests = o.requests ∧
    o'.result = LoginReport.withSkipped 0 <$> o.result ∧
    (∀ report, o.result = .ok report →
      report.tally.skipped = (l.unloadablePlaces tree).length ∧
      ((l.unloadablePlaces tree).Nodup →
        report.tally.skipped = (l.unloadablePlaces tree).toFinset.card)) ∧
    l.catalog tree' = l.catalog tree ∧
    ∃ files, l.load tree = .ok files ∧ List.Forall₂ (fun path file => ∃ bytes,
      tree.find? path = some (.file bytes) ∧
      file = (Loaded.mk path ·) <$> Document.ofBytes path bytes) paths files := by
  intro l tree' o o'
  have halike : Login.Alike b 0 (Login.dialogue (.prepare store tree settings user))
      (Login.dialogue (.prepare store tree' settings user)) := by
    rw [← LoginCase.skippedFiles_cleaned h]
    exact Login.alike_dialogue b (LoginCase.grants_cleaned h)
  refine ⟨fun _ => Library.mem_unloadablePlaces h, Library.paths_cleaned h, halike.requests s,
    halike.result s, fun report hreport => ?_, Library.catalog_cleaned h,
    Library.exists_load_of_paths h⟩
  have hskipped : report.tally.skipped = (l.unloadablePlaces tree).length := by
    have hcourse := Login.course_of_dialogue b (.prepare store tree settings user) s
    rw [show ((Login.dialogue _).run b s).result = .ok report from hreport] at hcourse
    exact hcourse.skipped.trans (LoginCase.skippedFiles_eq_length h)
  exact ⟨hskipped, fun hnodup => hskipped.trans (List.toFinset_card_of_nodup hnodup).symm⟩

/-- The folder of the sample, with an empty file before the document and one that is no text after
it. -/
def brokenTree : Tree :=
  ((Tree.empty.write "acl/empty.json" (.file [])).write "acl/network.json"
    (.file sampleText.toUTF8.toList)).write "acl/octets.json" (.file [0xff])

theorem paths_brokenTree : sampleSettings.library.paths brokenTree =
    .ok ["acl/empty.json", "acl/network.json", "acl/octets.json"] :=
  Library.paths_of_found parse_samplePattern rfl (by decide) (by decide)

theorem login_cleaned_brokenTree :
    (Login.inMemory (fun _ => ⟨"s"⟩)
        (.prepare (.ofPackages []) brokenTree sampleSettings "root")).result =
      .ok ⟨⟨"s"⟩, true, ⟨2, 0, 2⟩⟩ ∧
    (Login.inMemory (fun _ => ⟨"s"⟩) (.prepare (.ofPackages [])
        (sampleSettings.library.cleaned brokenTree) sampleSettings "root")).result =
      .ok ⟨⟨"s"⟩, true, ⟨2, 0, 0⟩⟩ := by
  have hok : (Login.inMemory (fun _ => ⟨"s"⟩)
      (.prepare (.ofPackages []) brokenTree sampleSettings "root")).result =
        .ok ⟨⟨"s"⟩, true, ⟨2, 0, 2⟩⟩ := by
    rw [LoginCase.prepare, Library.load_of_paths paths_brokenTree]
    decide +kernel
  obtain ⟨-, -, -, hresult, -⟩ := login_cleaned (Memory.broker fun _ => ⟨"s"⟩) .fresh
    (.ofPackages []) brokenTree sampleSettings "root" _ paths_brokenTree
  unfold Login.inMemory at hok ⊢
  rw [hok] at hresult
  exact ⟨hok, hresult⟩

/-! A file is skipped as often as it is listed, and a pattern with two arbitrary depths lists a
file once for each way of telling them apart. -/

/-- A folder with a single file, two levels below, that is no document. -/
def nestedTree : Tree :=
  Tree.empty.write "acl/d/e/bad.json" (.file "nope".toUTF8.toList)

/-- The settings of a login with the files below that folder, at least one level down. -/
def nestedSettings : LoginSettings :=
  ⟨⟨"acl", "**/*/**/*.json"⟩, .ofSecs 3600, .ofSecs 5⟩

theorem paths_nestedTree : nestedSettings.library.paths nestedTree =
    .ok ["acl/d/e/bad.json", "acl/d/e/bad.json"] := by
  have hpattern : Glob.PathPattern.parse nestedSettings.library.pathPattern =
      .ok ⟨false, false, [.name "acl", .deep, .wild [.star], .deep,
        .wild [.star, .char '.', .char 'j', .char 's', .char 'o', .char 'n']]⟩ := by
    decide +kernel
  exact Library.paths_of_found hpattern rfl (by decide) (by decide)

theorem skipped_ne_card_of_listed_twice :
    ∃ report, (Login.inMemory (fun _ => ⟨"s"⟩)
        (.prepare (.ofPackages []) nestedTree nestedSettings "root")).result = .ok report ∧
      report.tally.skipped = 2 ∧
      (nestedSettings.library.unloadablePlaces nestedTree).toFinset.card = 1 := by
  refine ⟨⟨⟨"s"⟩, true, ⟨0, 0, 2⟩⟩, ?_, rfl, ?_⟩
  · rw [LoginCase.prepare, Library.load_of_paths paths_nestedTree]
    decide +kernel
  · rw [Library.unloadablePlaces, paths_nestedTree]
    decide +kernel

end Gatehouse
