import Gatehouse.Glob.Scan
import Gatehouse.Proofs.Files.Deletion
import Gatehouse.Proofs.Files.PathOrder

/-!
# Searching after files are deleted

A search finds what it found before some files were deleted, except for these files.

* `locate_child`, `locate_foldl_child` — the paths that a search makes lead to the entries that they
  are made for.
* `search_file` — nothing is found below a file.
* `search_delete` — the files that are found after a deletion, and in which order.

`PathPattern.files_delete` says it of the sorted result: deleting files deletes their paths from it
and changes nothing else.
-/

namespace Gatehouse.Glob

open Gatehouse.Files Gatehouse.Files.Tree

variable {t : Tree} {places : List Place} {place : Place} {path : String}

/-! ## Paths that a search makes -/

theorem isAbsolute_of_isName {name : String} (h : IsName name) : isAbsolute name = false :=
  isAbsolute_of_notMem h.slash

/-- A path that names the folder a search starts in is made of dots. -/
theorem pieces_of_isStart (h : isStart path = true) :
    ∃ rest, pieces path = "." :: rest ∧ ∀ p ∈ rest, p = "" ∨ p = "." := by
  have hhere : components path = [.here] := by
    have hdot : components "." = [.here] := by decide
    rw [← hdot]
    simpa [isStart, samePath] using h
  have hblank : ∀ p, Component.ofPiece? p = none → p = "" ∨ p = "." := by
    intro p hp
    by_contra hne
    rw [Component.ofPiece?, if_neg hne] at hp
    split at hp <;> exact absurd hp (by simp)
  unfold components at hhere
  cases hpieces : pieces path with
  | nil => rw [hpieces] at hhere; exact absurd hhere (by simp)
  | cons first rest =>
    rw [hpieces] at hhere
    dsimp only at hhere
    split_ifs at hhere with hempty hnone hdot
    · obtain rfl := List.isEmpty_iff.1 hnone
      exact absurd hhere (by simp)
    · exact absurd hhere (by simp)
    · refine ⟨rest, by rw [hdot], fun p hp => hblank p ?_⟩
      exact List.filterMap_eq_nil_iff.1 (by simpa using hhere) p hp
    · -- No other piece stands for the dot at the front.
      rw [Component.ofPiece?, if_neg (by simp [hempty, hdot])] at hhere
      split at hhere <;> exact absurd hhere (by simp)

/-- Such a path leads to the folder that a search starts in. -/
theorem locate_of_isStart (h : isStart path = true) : t.locate path = .ok ⟨.above 0, []⟩ := by
  obtain ⟨rest, hpieces, hrest⟩ := pieces_of_isStart h
  have hdots : ∀ p ∈ pieces path, p = "" ∨ p = "." := by
    rw [hpieces]
    exact List.forall_mem_cons.2 ⟨.inr rfl, hrest⟩
  have hchars : ∀ c ∈ path.toList, c = '/' ∨ c = '.' := by
    intro c hc
    by_cases hslash : c = '/'
    · exact .inl hslash
    · obtain ⟨p, hp, hc⟩ := (mem_iff_exists_piece hslash).1 hc
      rcases hdots _ (List.mem_map.2 ⟨p, hp, rfl⟩) with hempty | hdot
      · have hp : p = [] := by simpa using congrArg String.toList hempty
        exact absurd hc (by simp [hp])
      · have hp : p = ['.'] := by simpa using congrArg String.toList hdot
        exact .inr (by simpa [hp] using hc)
  have hsteps : ∀ s ∈ steps path, s = "." := by
    intro s hs
    rcases List.mem_append.1 hs with hs | hs
    · obtain ⟨hmem, hne⟩ := List.mem_filter.1 hs
      exact (hdots s hmem).resolve_left (by simpa using hne)
    · split at hs
      · exact List.mem_singleton.1 hs
      · exact absurd hs List.not_mem_nil
  have hrelative : isAbsolute path = false :=
    isAbsolute_eq_false fun _ hpath => absurd hpieces (by
      simp [pieces, hpath, List.splitOn_cons_eq_if_modifyHead])
  have hne : path ≠ "" := by
    rintro rfl
    exact absurd hpieces (by simp [pieces])
  have hplace : Place.start path = ⟨.above 0, []⟩ := by simp [Place.start, hrelative]
  rw [locate_eq_ok_iff, hplace]
  refine ⟨hne, fun hnul => ?_, follow_dots rfl hsteps⟩
  rcases hchars _ hnul with hc | hc <;> exact absurd hc (by decide)

/-- The path of an entry of a folder leads to it. -/
theorem locate_child (h : t.locate path = .ok place) (hplace : t.entry? place = some .folder)
    {name : String} (hname : IsName name) (hchild : (t.entry? (place.child name)).isSome = true) :
    t.locate (child path name) = .ok (place.child name) := by
  have hrelative := isAbsolute_of_isName hname
  unfold child
  split
  · rename_i hstart
    rw [locate_of_isStart hstart] at h
    obtain rfl := Except.ok.inj h
    have hplaceOf : Place.start name = ⟨.above 0, []⟩ := by simp [Place.start, hrelative]
    rw [locate_eq_ok_iff, hplaceOf, steps_name hname]
    exact ⟨hname.nonempty, hname.nul, follow_name hname hplace hchild⟩
  · rw [locate_join h hrelative, steps_name hname]
    exact ⟨hname.nul, follow_name hname hplace hchild⟩

/-- The path of something below a folder leads to it. -/
theorem locate_foldl_child {ns : List String} (h : t.locate path = .ok place)
    (hreach : t.Reachable { place with names := place.names ++ ns }) :
    t.locate (ns.foldl child path) = .ok { place with names := place.names ++ ns } := by
  induction ns generalizing path place with
  | nil =>
    rw [List.append_nil]
    exact h
  | cons n ns ih =>
    have hsplit : place.names ++ n :: ns = (place.child n).names ++ ns := by simp [Place.child]
    have hfolder : t.entry? place = some .folder := hreach.entry?_of_append (by simp)
    rw [hsplit] at hreach
    have hchild : t.Reachable (place.child n) := hreach.of_append
    have hname : IsName n := hchild.names n (by simp [Place.child])
    have hrest := ih (locate_child h hfolder hname hchild.there) hreach
    rw [List.foldl_cons, hrest, hsplit]
    rfl

/-! ## What is found below a file -/

/-- No component with a name starts at the root. -/
def Relative (segments : List Segment) : Prop :=
  ∀ text, .name text ∈ segments → isAbsolute text = false

theorem Relative.tail {s : Segment} {r : List Segment} (h : Relative (s :: r)) : Relative r :=
  fun text htext => h text (List.mem_cons_of_mem _ htext)

theorem isFolder_of_isFile (h : t.isFile path = true) : t.isFolder path = false := by
  obtain ⟨place, bytes, hlocate, hentry⟩ := isFile_iff.1 h
  simp [isFolder, find?, hlocate, hentry]

/-- A file has no entries of its own. -/
theorem entryPath?_of_isFile (h : t.isFile path = true) {text : String}
    (htext : isAbsolute text = false) : entryPath? t path text = none := by
  obtain ⟨place, bytes, hlocate, hentry⟩ := isFile_iff.1 h
  have hstart : isStart path = false := by
    by_contra hstart
    rw [Bool.not_eq_false] at hstart
    rw [locate_of_isStart hstart] at hlocate
    obtain rfl := Except.ok.inj hlocate
    exact absurd hentry (by simp)
  have hgone : t.exists? (child path text) = false := by
    unfold exists? find? child
    rw [hstart, if_neg (by decide)]
    cases hjoin : t.locate (join path text) with
    | error fault => rfl
    | ok q =>
      obtain ⟨-, hfollow⟩ := (locate_join hlocate htext).1 hjoin
      rw [follow_file hentry (steps_ne_nil text)] at hfollow
      exact absurd hfollow (by simp)
  simp [entryPath?, isFolder_of_isFile h, hgone]

theorem children_of_not_folder (h : ¬t.isFolder path = true) : children t path = [] := by
  unfold children
  split
  · rw [if_neg h]
  · rfl

theorem descendants_of_not_folder (h : ¬t.isFolder path = true) : descendants t path = [] := by
  unfold descendants
  split
  · rw [if_neg h]
  · rfl

/-- A search does not go on from a file. -/
theorem search_file (h : t.isFile path = true) {segments : List Segment} (hne : segments ≠ [])
    (hrelative : Relative segments) : search t path segments = [] := by
  have hfolder := isFolder_of_isFile h
  have hchildren := children_of_not_folder (Bool.eq_false_iff.1 hfolder)
  have hdescendants := descendants_of_not_folder (Bool.eq_false_iff.1 hfolder)
  cases segments with
  | nil => exact absurd rfl hne
  | cons s r =>
    cases s with
    | name text => rw [search, entryPath?_of_isFile h (hrelative text List.mem_cons_self)]
    | wild ts => simp [search, hchildren, dotEntries, hfolder]
    | deep => cases r <;> simp [search, hdescendants]

/-! ## What a search tries -/

/-- What a search goes through in a folder, entry by entry. -/
def triedIn (path : String) (place : Place) (e : Place × Entry) : Option String :=
  (if e.1.parent = place then e.1.names.getLast? else none).map (child path)

/-- What a search goes through below a folder, entry by entry. -/
def triedBelow (path : String) (place : Place) (e : Place × Entry) : Option String :=
  (if e.1.within place ∧ e.1 ≠ place then some (e.1.names.drop place.names.length) else none).map
    (·.foldl child path)

theorem children_eq (h : t.locate path = .ok place) (hfolder : t.isFolder path = true) :
    children t path = t.entries.filterMap (triedIn path place) := by
  unfold children
  rw [h, hfolder]
  exact List.map_filterMap

theorem descendants_eq (h : t.locate path = .ok place) (hfolder : t.isFolder path = true) :
    descendants t path = t.entries.filterMap (triedBelow path place) := by
  unfold descendants
  rw [h, hfolder]
  exact List.map_filterMap

/-- What is tried for an entry that can be reached leads to it. -/
theorem locate_triedIn (h : t.locate path = .ok place) (hplace : t.entry? place = some .folder)
    {e : Place × Entry} (he : t.Reachable e.1) {x : String} (hx : triedIn path place e = some x) :
    t.locate x = .ok e.1 := by
  obtain ⟨name, hname, rfl⟩ := Option.map_eq_some_iff.1 hx
  split at hname
  · rename_i hparent
    have hchild : e.1 = place.child name := by
      rw [← hparent]
      exact (Place.child_parent hname).symm
    rw [hchild] at he ⊢
    exact locate_child h hplace (he.names name (by simp [Place.child])) he.there
  · exact absurd hname (by simp)

theorem locate_triedBelow (h : t.locate path = .ok place) {e : Place × Entry}
    (he : t.Reachable e.1) {x : String} (hx : triedBelow path place e = some x) :
    t.locate x = .ok e.1 := by
  obtain ⟨ns, hns, rfl⟩ := Option.map_eq_some_iff.1 hx
  split at hns
  · rename_i hwithin
    obtain rfl := Option.some.inj hns
    have hbelow : e.1 = { place with
        names := place.names ++ e.1.names.drop place.names.length } :=
      Place.eq_append_of_within hwithin.1
    have hlocate := locate_foldl_child h (hbelow ▸ he)
    rwa [← hbelow] at hlocate
  · exact absurd hns (by simp)

/-! ## Searching -/

/-- Of what two searches try, the same is left if it is for each entry that is kept, and nothing for
one that is not. -/
theorem filter_flatMap_filterMap {α : Type} {keep : α → Bool} {f : α → Option String}
    {g g' : String → List String} {q : String → Bool} {es : List α}
    (hkept : ∀ e ∈ es, ∀ x, f e = some x → (g' x).filter q = (g x).filter q)
    (hgone : ∀ e ∈ es, keep e = false → ∀ x, f e = some x → (g x).filter q = []) :
    ((((es.filter keep).filterMap f).flatMap g').filter q) =
      ((es.filterMap f).flatMap g).filter q := by
  induction es with
  | nil => rfl
  | cons e es ih =>
    obtain ⟨hkept, hkeptRest⟩ := List.forall_mem_cons.1 hkept
    obtain ⟨hgone, hgoneRest⟩ := List.forall_mem_cons.1 hgone
    have hrest := ih hkeptRest hgoneRest
    cases hkeep : keep e with
    | true =>
      rw [List.filter_cons_of_pos hkeep]
      cases hf : f e with
      | none => rw [List.filterMap_cons_none hf, List.filterMap_cons_none hf, hrest]
      | some x =>
        rw [List.filterMap_cons_some hf, List.filterMap_cons_some hf, List.flatMap_cons,
          List.flatMap_cons, List.filter_append, List.filter_append, hkept x hf, hrest]
    | false =>
      rw [List.filter_cons_of_neg (by simp [hkeep])]
      cases hf : f e with
      | none => rw [List.filterMap_cons_none hf, hrest]
      | some x =>
        rw [List.filterMap_cons_some hf, List.flatMap_cons, List.filter_append,
          hgone hkeep x hf, List.nil_append, hrest]

/-- Where a search leads to a file that is deleted, nothing is found that is left. -/
theorem filter_search_of_leadsTo (h : t.AllFiles places) (hpath : t.leadsTo places path = true)
    {segments : List Segment} (hrelative : Relative segments) :
    (search t path segments).filter (t.delete places).isFile = [] := by
  cases segments with
  | nil => simp [search, isFile_delete h, hpath]
  | cons s r =>
    obtain ⟨bytes, hfind⟩ := find?_of_leadsTo h hpath
    have hfile : t.isFile path = true := by rw [isFile, hfind]
    rw [search_file hfile (List.cons_ne_nil _ _) hrelative]
    rfl

/-- What is tried for the entries that are left finds the same as what is tried for all, as long as
what is tried for an entry leads to it. -/
theorem filter_flatMap_tried (h : t.AllFiles places) (hreach : ∀ p ∈ places, t.Reachable p)
    {f : Place × Entry → Option String}
    (hf : ∀ e : Place × Entry, t.Reachable e.1 → ∀ x, f e = some x → t.locate x = .ok e.1)
    (accept : String → Bool) {r : List Segment} (hrelative : Relative r)
    (ih : ∀ x, (search (t.delete places) x r).filter (t.delete places).isFile =
      (search t x r).filter (t.delete places).isFile) :
    ((((t.delete places).entries.filterMap f).filter accept).flatMap
        (search (t.delete places) · r)).filter (t.delete places).isFile =
      (((t.entries.filterMap f).filter accept).flatMap (search t · r)).filter
        (t.delete places).isFile := by
  rw [List.filter_filterMap, List.filter_filterMap]
  refine filter_flatMap_filterMap (fun e _ x _ => ih x) fun e _ hkeep x hx => ?_
  have hgone : e.1 ∈ places := by simpa using hkeep
  obtain ⟨hx, -⟩ := Option.filter_eq_some_iff.1 hx
  refine filter_search_of_leadsTo h ?_ hrelative
  rw [leadsTo, hf e (hreach _ hgone) x hx]
  exact decide_eq_true hgone

theorem entryPath?_delete (h : t.AllFiles places) (path text : String) :
    entryPath? (t.delete places) path text = entryPath? t path text ∨
      entryPath? (t.delete places) path text = none ∧
        ∃ next, entryPath? t path text = some next ∧ t.leadsTo places next = true := by
  unfold entryPath?
  dsimp only
  rw [isFolder_delete h, exists?_delete h]
  split
  · exact .inl rfl
  · cases hthere : t.exists? (child path text) with
    | false => exact .inl rfl
    | true =>
      cases hgone : t.leadsTo places (child path text) with
      | false => exact .inl rfl
      | true => exact .inr ⟨rfl, _, rfl, hgone⟩

/-- No file is a folder. -/
theorem filter_isFolder_isFile (h : t.AllFiles places) (xs : List String) :
    (xs.filter t.isFolder).filter (t.delete places).isFile = [] := by
  rw [List.filter_eq_nil_iff]
  intro x hx hfile
  rw [isFile_delete h, Bool.and_eq_true] at hfile
  rw [List.mem_filter, isFolder_of_isFile hfile.1] at hx
  exact absurd hx.2 (by simp)

/-- A search finds the same files, in the same order, except for those that are deleted. -/
theorem search_delete (h : t.AllFiles places) (hreach : ∀ p ∈ places, t.Reachable p) (path : String)
    (segments : List Segment) (hrelative : Relative segments) :
    (search (t.delete places) path segments).filter (t.delete places).isFile =
      (search t path segments).filter (t.delete places).isFile := by
  have hfolders : (t.delete places).isFolder = t.isFolder := funext (isFolder_delete h)
  induction path, segments using search.induct t with
  | case1 path => rfl
  | case2 path text r next hnext ih =>
    rw [search, search, hnext]
    rcases entryPath?_delete h path text with hsame | ⟨hnone, next', hnext', hgone⟩
    · rw [hsame, hnext]
      exact ih hrelative.tail
    · obtain rfl := Option.some.inj (hnext.symm.trans hnext')
      rw [hnone]
      exact (filter_search_of_leadsTo h hgone hrelative.tail).symm
  | case3 path text r hnone =>
    rw [search, search, hnone]
    rcases entryPath?_delete h path text with hsame | ⟨hnone', -⟩
    · rw [hsame, hnone]
    · rw [hnone']
  | case4 path ts r ih =>
    have hdots : dotEntries (t.delete places) path ts = dotEntries t path ts := by
      rw [dotEntries, dotEntries, hfolders]
    rw [search, search, hdots, List.filter_append, List.filter_append]
    congr 1
    · by_cases hfolder : t.isFolder path = true
      · obtain ⟨place, hlocate, hplace⟩ := isFolder_iff.1 hfolder
        have hlocate' := (locate_delete h).2 ⟨hlocate, h.notMem_of_folder hplace⟩
        rw [children_eq hlocate hfolder, children_eq hlocate' (hfolders ▸ hfolder)]
        exact filter_flatMap_tried h hreach
          (fun e he x hx => locate_triedIn hlocate hplace he hx) _ hrelative.tail
          fun x => ih x hrelative.tail
      · rw [children_of_not_folder hfolder, children_of_not_folder (hfolders ▸ hfolder)]
        rfl
    · rw [List.filter_flatMap, List.filter_flatMap]
      simp only [fun x => ih x hrelative.tail]
  | case5 path =>
    rw [search, search, hfolders, filter_isFolder_isFile h, filter_isFolder_isFile h]
  | case6 path s r ih =>
    rw [search, search]
    by_cases hfolder : t.isFolder path = true
    · obtain ⟨place, hlocate, hplace⟩ := isFolder_iff.1 hfolder
      have hlocate' := (locate_delete h).2 ⟨hlocate, h.notMem_of_folder hplace⟩
      rw [descendants_eq hlocate hfolder, descendants_eq hlocate' (hfolders ▸ hfolder)]
      exact filter_flatMap_tried h hreach (fun e he x hx => locate_triedBelow hlocate he hx) _
        hrelative.tail.tail fun x => ih x hrelative.tail.tail
    · rw [descendants_of_not_folder hfolder, descendants_of_not_folder (hfolders ▸ hfolder)]
      rfl

/-! ## Patterns -/

theorem suffix_of_untilBracket {s a b : List Char} (h : untilBracket s = some (a, b)) :
    b <:+ s := by
  induction s generalizing a b with
  | nil => exact absurd h (by simp [untilBracket])
  | cons c r ih =>
    rw [untilBracket] at h
    split at h
    · obtain ⟨-, rfl⟩ := Prod.mk.inj (Option.some.inj h)
      exact List.suffix_cons c r
    · obtain ⟨⟨a', b'⟩, hr, heq⟩ := Option.map_eq_some_iff.1 h
      obtain ⟨-, rfl⟩ := Prod.mk.inj heq
      exact (ih hr).trans (List.suffix_cons c r)

theorem suffix_of_bracketBody {s a b : List Char} (h : bracketBody s = some (a, b)) : b <:+ s := by
  cases s with
  | nil => exact absurd h (by simp [bracketBody])
  | cons c r =>
    obtain ⟨⟨a', b'⟩, hr, heq⟩ := Option.map_eq_some_iff.1 h
    obtain ⟨-, rfl⟩ := Prod.mk.inj heq
    exact (suffix_of_untilBracket hr).trans (List.suffix_cons c r)

/-- A bracket expression is no literal character, and what follows it is a rest of the text. -/
theorem bracket_spec {s r : List Char} {t : Token} (h : bracket s = some (t, r)) :
    (∀ c, t ≠ .char c) ∧ r <:+ s := by
  unfold bracket at h
  split at h
  · obtain ⟨⟨a, b⟩, hb, heq⟩ := Option.map_eq_some_iff.1 h
    obtain ⟨rfl, rfl⟩ := Prod.mk.inj heq
    exact ⟨fun c => by simp, (suffix_of_bracketBody hb).trans (List.suffix_cons _ _)⟩
  · obtain ⟨⟨a, b⟩, hb, heq⟩ := Option.map_eq_some_iff.1 h
    obtain ⟨rfl, rfl⟩ := Prod.mk.inj heq
    exact ⟨fun c => by simp, suffix_of_bracketBody hb⟩

theorem exists_of_cons_eq_ok {α ε : Type} {a : α} {e : Except ε (List α)} {as : List α}
    (h : (a :: ·) <$> e = .ok as) : ∃ rest, e = .ok rest ∧ as = a :: rest := by
  cases e with
  | error fault => exact absurd h (by simp)
  | ok rest => exact ⟨rest, rfl, (Except.ok.inj h).symm⟩

/-- The literal characters of a pattern stand in its text. -/
theorem mem_of_parseFrom {position : Nat} {before : Option Char} {s : List Char} {ts : List Token}
    (h : Token.parseFrom position before s = .ok ts) {c : Char} (hc : .char c ∈ ts) : c ∈ s := by
  fun_induction Token.parseFrom position before s generalizing ts with
  | case1 =>
    obtain rfl := Except.ok.inj h
    exact absurd hc List.not_mem_nil
  | case4 =>
    obtain rfl := Except.ok.inj h
    exact absurd hc (by simp)
  | case2 _ _ r ih | case8 _ _ r _ _ ih =>
    obtain ⟨rest, hrest, rfl⟩ := exists_of_cons_eq_ok h
    exact List.mem_cons_of_mem _ (ih hrest (List.mem_of_ne_of_mem (by simp) hc))
  | case5 _ _ _ r _ ih =>
    obtain ⟨rest, hrest, rfl⟩ := exists_of_cons_eq_ok h
    have hmem := ih hrest (List.mem_of_ne_of_mem (by simp) hc)
    exact List.mem_cons_of_mem _ (List.mem_cons_of_mem _ (List.mem_cons_of_mem _ hmem))
  | case10 _ _ r t rest hbracket ih =>
    obtain ⟨tokens, htokens, rfl⟩ := exists_of_cons_eq_ok h
    obtain ⟨hchar, hsuffix⟩ := bracket_spec hbracket
    have hmem := ih htokens (List.mem_of_ne_of_mem (Ne.symm (hchar c)) hc)
    exact List.mem_cons_of_mem _ (hsuffix.subset hmem)
  | case11 _ _ d r _ _ _ _ _ ih =>
    obtain ⟨rest, hrest, rfl⟩ := exists_of_cons_eq_ok h
    rcases List.mem_cons.1 hc with heq | hc
    · obtain rfl := Token.char.inj heq
      exact List.mem_cons_self
    · exact List.mem_cons_of_mem _ (ih hrest hc)
  | case3 | case6 | case7 | case9 => exact absurd h (by simp)

theorem eq_map_char_of_literal? {ts : List Token} {s : List Char}
    (h : Segment.literal? ts = some s) : ts = s.map .char := by
  induction ts generalizing s with
  | nil =>
    obtain rfl := Option.some.inj h
    rfl
  | cons t ts ih =>
    unfold Segment.literal? at h ih
    rw [List.mapM_cons] at h
    obtain ⟨c, ht, hrest⟩ := Option.bind_eq_some_iff.1 h
    obtain ⟨cs, hcs, heq⟩ := Option.bind_eq_some_iff.1 hrest
    obtain rfl := Option.some.inj heq
    rw [ih hcs, List.map_cons]
    cases t <;> simp_all

/-- A component that is one name is made of literal characters. -/
theorem char_mem_of_ofTokens {ts : List Token} {text : String}
    (h : Segment.ofTokens ts = .name text) {c : Char} (hc : c ∈ text.toList) : .char c ∈ ts := by
  unfold Segment.ofTokens at h
  split at h
  · exact absurd h (by simp)
  · split at h
    · rename_i s hs
      obtain rfl := Segment.name.inj h
      rw [String.toList_ofList] at hc
      rw [eq_map_char_of_literal? hs]
      exact List.mem_map_of_mem hc
    · exact absurd h (by simp)

theorem exists_of_mem_mapM {α β ε : Type} {f : α → Except ε β} {as : List α} {bs : List β}
    (h : as.mapM f = .ok bs) {b : β} (hb : b ∈ bs) : ∃ a ∈ as, f a = .ok b := by
  induction as generalizing bs with
  | nil =>
    obtain rfl := Except.ok.inj h
    exact absurd hb List.not_mem_nil
  | cons a as ih =>
    rw [List.mapM_cons] at h
    cases ha : f a with
    | error fault => rw [ha] at h; exact absurd h (by simp [bind, Except.bind])
    | ok b' =>
      cases has : as.mapM f with
      | error fault => rw [ha, has] at h; exact absurd h (by simp [bind, Except.bind])
      | ok bs' =>
        rw [ha, has] at h
        obtain rfl := Except.ok.inj h
        rcases List.mem_cons.1 hb with rfl | hb
        · exact ⟨a, List.mem_cons_self, ha⟩
        · obtain ⟨d, hd, hfd⟩ := ih has hb
          exact ⟨d, List.mem_cons_of_mem _ hd, hfd⟩

theorem subset_of_collapse (segments : List Segment) : Segment.collapse segments ⊆ segments := by
  induction segments with
  | nil => exact List.Subset.refl _
  | cons s r ih =>
    rw [Segment.collapse]
    split
    · exact List.Subset.trans ih (List.subset_cons_self s r)
    · exact List.cons_subset_cons s ih

/-- No component of a pattern that is read starts at the root. -/
theorem relative_of_parse {text : String} {pattern : PathPattern}
    (h : PathPattern.parse text = .ok pattern) : Relative pattern.segments := by
  obtain ⟨ps, segments, hps, hmap, hpattern⟩ : ∃ (ps : List (List Char)) (segments : List Segment),
      (∀ p ∈ ps, '/' ∉ p) ∧
        ps.mapM (fun p => Segment.ofTokens <$> Token.parse p) = .ok segments ∧
        pattern.segments = Segment.collapse segments := by
    have hinner : ∀ {inner : List (List Char)} {b : Bool}, inner ⊆ text.toList.splitOn '/' →
        ∀ p ∈ if b = true then inner.dropLast else inner, '/' ∉ p := by
      intro inner b hsubset p hp
      refine notMem_of_mem_splitOn (hsubset ?_)
      split at hp
      · exact (List.dropLast_sublist inner).subset hp
      · exact hp
    unfold PathPattern.parse at h
    cases hwhole : Token.parse text.toList with
    | error fault => rw [hwhole] at h; exact absurd h (by simp [bind, Except.bind])
    | ok tokens =>
      rw [hwhole] at h
      dsimp only [bind, Except.bind] at h
      split at h
      · exact absurd h (by simp)
      · rename_i segments hmap
        obtain rfl := Except.ok.inj h
        refine ⟨_, segments, hinner ?_, hmap, rfl⟩
        split
        · exact (List.drop_sublist 1 _).subset
        · exact List.Subset.refl _
  intro name hname
  rw [hpattern] at hname
  obtain ⟨p, hp, hparse⟩ := exists_of_mem_mapM hmap (subset_of_collapse segments hname)
  cases htokens : Token.parse p with
  | error fault => rw [htokens] at hparse; exact absurd hparse (by simp)
  | ok ts =>
    rw [htokens] at hparse
    have hsegment : Segment.ofTokens ts = .name name := Except.ok.inj hparse
    refine isAbsolute_eq_false fun cs hchars => hps p hp ?_
    exact mem_of_parseFrom htokens (char_mem_of_ofTokens hsegment (hchars ▸ List.mem_cons_self))

/-- A pattern finds the same files in the same order, except for those that are deleted. -/
theorem PathPattern.files_delete (h : t.AllFiles places) (hreach : ∀ p ∈ places, t.Reachable p)
    {pattern : PathPattern} (hrelative : Relative pattern.segments) :
    pattern.files (t.delete places) =
      (pattern.files t).filter fun path => !t.leadsTo places path := by
  unfold PathPattern.files
  split
  · rfl
  · have hfile : (t.delete places).isFile = fun x => !t.leadsTo places x && t.isFile x := by
      funext x
      rw [isFile_delete h, Bool.and_comm]
    dsimp only
    rw [search_delete h hreach _ _ hrelative, filter_mergeSort_pathLe, List.filter_filter, hfile]

end Gatehouse.Glob
