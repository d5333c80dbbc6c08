import Gatehouse.Proofs.Acl.Unloadable
import Gatehouse.Proofs.Glob.Listing

/-!
# The files that a library lists

A library whose pattern has no slash looks at what stands directly in its folder.

* `Library.paths_of_parse` — what a library lists, from the folders that its search reaches and the
  tokens of its pattern.
* `Library.mem_paths_iff`, `Library.mem_paths_folder_iff` — which paths these are, for any folder and
  for one whose path leads the search to it.
* `Library.nodup_components_paths` — no two of them are the same path.

`Library.paths_lists_folder` says it for a folder that is named without a dot at its front: the
library lists exactly the files directly in that folder whose names match the pattern, each of them
once and in the order of paths.  Whether it lists at all depends on the pattern alone.
-/

namespace Gatehouse.Acl.Library

open Gatehouse.Files Gatehouse.Glob

variable {t : Tree} {dir pattern path : String} {ts : List Token} {paths : List String}

/-- What a library lists, from the folders that its search reaches. -/
theorem paths_of_parse (t : Tree) (dir : String) (hslash : '/' ∉ pattern.toList)
    (h : Token.parse pattern.toList = .ok ts) :
    (Library.mk dir pattern).paths t = .ok (if pattern = "" then [] else
      (((folders t dir).flatMap (search t · [.ofTokens ts])).filter t.isFile).mergeSort pathLe) := by
  unfold Library.paths pathPattern
  dsimp only
  by_cases hempty : pattern = ""
  · rw [if_pos hempty, hempty, PathPattern.parse_folder_empty]
    rfl
  · rw [if_neg hempty, PathPattern.parse_folder_of_notMem dir hslash hempty h]
    dsimp only
    rw [files_folder]

/-- The tokens of a pattern without slashes take no slash literally. -/
theorem slash_notMem_of_parse (hslash : '/' ∉ pattern.toList)
    (h : Token.parse pattern.toList = .ok ts) : .char '/' ∉ ts :=
  fun hmem => hslash (mem_of_parseFrom h hmem)

/-- Only the empty pattern has no tokens. -/
theorem eq_nil_iff (hslash : '/' ∉ pattern.toList) (h : Token.parse pattern.toList = .ok ts) :
    ts = [] ↔ pattern = "" := by
  constructor
  · rintro rfl
    cases hchars : pattern.toList with
    | nil => simpa using hchars
    | cons c cs =>
      rw [hchars] at h hslash
      cases opening_of_parseFrom h hslash
  · rintro rfl
    exact (Except.ok.inj ((parse_escape []).symm.trans h)).symm

/-- Only the pattern `**` stands for arbitrary depth. -/
theorem eq_deep_iff (hslash : '/' ∉ pattern.toList) (h : Token.parse pattern.toList = .ok ts) :
    ts = [.deep] ↔ pattern = "**" := by
  have htext : pattern = "**" ↔ pattern.toList = ['*', '*'] := String.toList_inj.symm
  rw [htext]
  have hopening := opening_of_parseFrom h hslash
  constructor
  · rintro rfl
    generalize pattern.toList = s at hopening
    cases hopening with
    | deep => rfl
    | one _ hdeep => exact absurd rfl hdeep
  · intro hpattern
    rw [hpattern] at h
    have hdeep : Token.parse ['*', '*'] = .ok [.deep] := by
      simp [Token.parse, Token.parseFrom]
    exact (Except.ok.inj (hdeep.symm.trans h)).symm

/-- A library lists the files, directly in the folders that its search reaches, whose names match
the pattern; and none if the pattern is `**`. -/
theorem mem_paths_iff (ht : t.WellFormed) (hslash : '/' ∉ pattern.toList)
    (h : Token.parse pattern.toList = .ok ts) (hpaths : (Library.mk dir pattern).paths t = .ok paths) :
    path ∈ paths ↔ pattern ≠ "**" ∧ ∃ folder ∈ folders t dir, ∃ place name bytes,
      t.locate folder = .ok place ∧ t.entry? (place.child name) = some (.file bytes) ∧
        accepts ts (ofFileName name.toList) = true ∧ path = child folder name := by
  rw [paths_of_parse t dir hslash h] at hpaths
  obtain rfl := Except.ok.inj hpaths
  by_cases hempty : pattern = ""
  · -- Nothing but the empty name matches, and no entry has it.
    subst hempty
    obtain rfl : ts = [] := (Except.ok.inj ((parse_escape []).symm.trans h)).symm
    rw [if_pos rfl]
    refine ⟨fun hmem => absurd hmem List.not_mem_nil, ?_⟩
    rintro ⟨-, folder, -, place, name, bytes, -, hentry, haccepts, -⟩
    have hname := ht.isName_of_child (Option.isSome_of_eq_some hentry)
    have hnil : name.toList = [] := (accepts_map_exactly [] name.toList).1 haccepts
    exact absurd (by simpa using hnil) hname.nonempty
  rw [if_neg hempty, List.mem_mergeSort, List.mem_filter, List.mem_flatMap]
  by_cases hdeep : ts = [.deep]
  · have hpattern := (eq_deep_iff hslash h).1 hdeep
    refine ⟨?_, fun hlisted => absurd hpattern hlisted.1⟩
    rintro ⟨⟨folder, -, hfound⟩, hfile⟩
    rw [hdeep] at hfound
    exact absurd hfile (by simp [isFile_of_mem_search_deep hfound])
  have hts : ts ≠ [] := fun hnil => hempty ((eq_nil_iff hslash h).1 hnil)
  have hchars := slash_notMem_of_parse hslash h
  constructor
  · rintro ⟨⟨folder, hfolder, hfound⟩, hfile⟩
    exact ⟨fun hpattern => hdeep ((eq_deep_iff hslash h).2 hpattern), folder, hfolder,
      (mem_search_last ht (ne_empty_of_mem_folders ht hfolder) hdeep hts hchars).1 ⟨hfound, hfile⟩⟩
  · rintro ⟨-, folder, hfolder, hentry⟩
    obtain ⟨hfound, hfile⟩ :=
      (mem_search_last ht (ne_empty_of_mem_folders ht hfolder) hdeep hts hchars).2 hentry
    exact ⟨⟨folder, hfolder, hfound⟩, hfile⟩

/-- A library can be listed or not whatever its folder and the files are. -/
theorem isOk_paths (dir dir' pattern : String) (t t' : Tree) :
    ((Library.mk dir pattern).paths t).isOk = ((Library.mk dir' pattern).paths t').isOk := by
  have hread : ∀ (dir : String) (t : Tree), ((Library.mk dir pattern).paths t).isOk =
      (PathPattern.parse (String.ofList (escape dir.toList) ++ "/" ++ pattern)).isOk := by
    intro dir t
    unfold Library.paths pathPattern
    dsimp only
    cases PathPattern.parse (String.ofList (escape dir.toList) ++ "/" ++ pattern) <;> rfl
  rw [hread, hread, PathPattern.isOk_parse_folder]

/-! ## The files of a folder -/

/-- Paths of the same entry lead to the same folder. -/
theorem locate_folder_iff (ht : t.WellFormed) (hdir : Anchored dir) {folder : String}
    (hfolder : folder ≠ "")
    (hchild : ∀ name : String, '/' ∉ name.toList → child folder name = opened dir ++ name)
    {place : Place} {name : String} (hthere : (t.entry? (place.child name)).isSome = true) :
    t.locate folder = .ok place ↔ t.locate dir = .ok place := by
  have hname := ht.isName_of_child hthere
  have hsame : t.locate (child folder name) = t.locate (child dir name) := by
    rw [hchild name hname.slash, hdir.child_eq,
      t.locate_opened hdir.nonempty hname.nonempty hname.slash]
  rw [← Tree.locate_child_eq_iff ht hfolder hthere, hsame,
    Tree.locate_child_eq_iff ht hdir.nonempty hthere]

/-- A library lists no path twice. -/
theorem nodup_paths (ht : t.WellFormed) (hdir : Anchored dir) (hslash : '/' ∉ pattern.toList)
    (hdeep : pattern ≠ "**") (hpattern : Token.parse pattern.toList = .ok ts)
    (hpaths : (Library.mk dir pattern).paths t = .ok paths) : paths.Nodup := by
  obtain ⟨folder, hfolder, hfolders, -⟩ := folders_eq ht hdir
  have hts : ts ≠ [.deep] := fun h => hdeep ((eq_deep_iff hslash hpattern).1 h)
  rw [paths_of_parse t dir hslash hpattern, hfolders] at hpaths
  obtain rfl := Except.ok.inj hpaths
  split
  · exact List.nodup_nil
  · rw [(List.mergeSort_perm _ _).nodup_iff]
    split
    · rw [List.flatMap_singleton]
      exact nodup_search_last ht hfolder hts
    · exact List.nodup_nil

/-- What a library lists of a folder that its path leads to. -/
theorem mem_paths_folder_iff (ht : t.WellFormed) (hdir : Anchored dir)
    (hslash : '/' ∉ pattern.toList) (hdeep : pattern ≠ "**")
    (hpattern : Token.parse pattern.toList = .ok ts)
    (hpaths : (Library.mk dir pattern).paths t = .ok paths) :
    path ∈ paths ↔ ∃ place name bytes, t.locate dir = .ok place ∧
      t.entry? (place.child name) = some (.file bytes) ∧
        accepts ts (ofFileName name.toList) = true ∧ path = opened dir ++ name := by
  obtain ⟨folder, hfolder, hfolders, hchild⟩ := folders_eq ht hdir
  rw [mem_paths_iff ht hslash hpattern hpaths, hfolders]
  constructor
  · rintro ⟨-, f, hf, place, name, bytes, hplace, hentry, haccepts, rfl⟩
    obtain rfl : f = folder := by
      split at hf
      · exact List.mem_singleton.1 hf
      · exact absurd hf List.not_mem_nil
    have hthere := Option.isSome_of_eq_some hentry
    have hname := ht.isName_of_child hthere
    refine ⟨place, name, bytes, ?_, hentry, haccepts, hchild name hname.slash⟩
    exact (locate_folder_iff ht hdir hfolder hchild hthere).1 hplace
  · rintro ⟨place, name, bytes, hplace, hentry, haccepts, rfl⟩
    have hthere := Option.isSome_of_eq_some hentry
    have hname := ht.isName_of_child hthere
    have hlocate := (locate_folder_iff ht hdir hfolder hchild hthere).2 hplace
    refine ⟨hdeep, folder, ?_, place, name, bytes, hlocate, hentry, haccepts,
      (hchild name hname.slash).symm⟩
    rw [if_pos (exists?_iff.2 ⟨place, hlocate⟩)]
    exact List.mem_singleton_self folder

/-- Nor does it list two paths with the same components: the last of them is the name. -/
theorem nodup_components_paths (ht : t.WellFormed) (hdir : Anchored dir)
    (hslash : '/' ∉ pattern.toList) (hdeep : pattern ≠ "**")
    (hpattern : Token.parse pattern.toList = .ok ts)
    (hpaths : (Library.mk dir pattern).paths t = .ok paths) : (paths.map components).Nodup := by
  refine List.Nodup.map_on ?_ (nodup_paths ht hdir hslash hdeep hpattern hpaths)
  have hnamed : ∀ p ∈ paths, ∃ name, IsName name ∧ p = opened dir ++ name := by
    intro p hp
    obtain ⟨place, name, bytes, -, hentry, -, hpath⟩ :=
      (mem_paths_folder_iff ht hdir hslash hdeep hpattern hpaths).1 hp
    exact ⟨name, ht.isName_of_child (Option.isSome_of_eq_some hentry), hpath⟩
  intro p hp q hq hsame
  obtain ⟨a, ha, rfl⟩ := hnamed p hp
  obtain ⟨b, hb, rfl⟩ := hnamed q hq
  rw [components_opened hdir.nonempty ha, components_opened hdir.nonempty hb] at hsame
  have hlast := List.append_cancel_left hsame
  rw [Component.name.inj (List.cons.inj hlast).1]

/-- A library lists exactly the files directly in its folder whose names match its pattern, each of
them once and strictly in the order of paths, and nothing if the folder is not there.  The folder may
have any names, but its path does not start with a dot that stands for a folder, and of the patterns
without slashes only `**` is left out.  Whether the library can be listed depends on the pattern
alone, whatever it is. -/
theorem paths_lists_folder (ht : t.WellFormed) (dir pattern : String) :
    (∀ (dir' : String) (t' : Tree),
      ((Library.mk dir pattern).paths t).isOk = ((Library.mk dir' pattern).paths t').isOk) ∧
    (Anchored dir → '/' ∉ pattern.toList → pattern ≠ "**" →
      ∀ ts, Token.parse pattern.toList = .ok ts → ∃ paths,
        (Library.mk dir pattern).paths t = .ok paths ∧
        paths.Pairwise (fun p q => pathLe q p = false) ∧
        (∀ path, path ∈ paths ↔ ∃ place name bytes, t.locate dir = .ok place ∧
          t.entry? (place.child name) = some (.file bytes) ∧
          accepts ts (ofFileName name.toList) = true ∧ path = opened dir ++ name) ∧
        (t.exists? dir = false → paths = [])) := by
  refine ⟨fun dir' t' => isOk_paths dir dir' pattern t t', ?_⟩
  intro hdir hslash hdeep ts hpattern
  obtain ⟨paths, hpaths⟩ : ∃ paths, (Library.mk dir pattern).paths t = .ok paths :=
    ⟨_, paths_of_parse t dir hslash hpattern⟩
  have hmem : ∀ path, path ∈ paths ↔ _ := fun _ =>
    mem_paths_folder_iff ht hdir hslash hdeep hpattern hpaths
  have hdistinct := nodup_components_paths ht hdir hslash hdeep hpattern hpaths
  refine ⟨paths, hpaths, pairwise_not_pathLe (paths_pairwise hpaths) hdistinct, hmem,
    fun hgone => List.eq_nil_iff_forall_not_mem.2 fun path hpath => ?_⟩
  obtain ⟨place, -, -, hplace, -⟩ := (hmem path).1 hpath
  rw [exists?_iff.2 ⟨place, hplace⟩] at hgone
  exact absurd hgone (by decide)

/-- A folder with metacharacters and a dot in its names, and in it a document, a hidden one and a
folder with the name of a document. -/
def oddTree : Tree :=
  ((Tree.empty.write ".a[1]/*/b.json" (.file [])).write ".a[1]/*/.c.json" (.file [])).write
    ".a[1]/*/d.json/e.json" (.file [])

theorem paths_lists_folder_odd : ∃ paths,
    (Library.mk ".a[1]/*" "*.json").paths oddTree = .ok paths ∧
      ".a[1]/*/b.json" ∈ paths ∧ ".a[1]/*/d.json" ∉ paths := by
  have htree : oddTree.WellFormed := ⟨by decide +kernel, by decide +kernel, by decide +kernel⟩
  have hdir : oddTree.locate ".a[1]/*" = .ok ⟨.above 0, [".a[1]", "*"]⟩ := by decide +kernel
  have hopened : opened ".a[1]/*" = ".a[1]/*/" := by decide +kernel
  have hpattern : Token.parse "*.json".toList =
      .ok [.star, .char '.', .char 'j', .char 's', .char 'o', .char 'n'] := by decide +kernel
  obtain ⟨-, hlists⟩ := paths_lists_folder htree ".a[1]/*" "*.json"
  have hnames : Anchored ".a[1]/*" :=
    .of_components [".a[1]", "*"] (by decide) (.inl (by decide +kernel))
  obtain ⟨paths, hpaths, -, hmem, -⟩ := hlists hnames (by decide) (by decide) _ hpattern
  rw [hopened] at hmem
  refine ⟨paths, hpaths, (hmem _).2 ⟨_, "b.json", [], hdir, by decide +kernel, by decide +kernel,
    rfl⟩, fun hfolder => ?_⟩
  obtain ⟨place, name, bytes, hplace, hentry, -, hpath⟩ := (hmem _).1 hfolder
  obtain rfl := Except.ok.inj (hdir.symm.trans hplace)
  obtain rfl : name = "d.json" := by
    have htext : ".a[1]/*/".toList ++ "d.json".toList = ".a[1]/*/".toList ++ name.toList := by
      rw [← String.toList_append, ← String.toList_append, ← hpath]
      rfl
    exact (String.toList_inj.1 (List.append_cancel_left htext)).symm
  have hnone : oddTree.entry? (Place.child ⟨.above 0, [".a[1]", "*"]⟩ "d.json") = some .folder := by
    decide +kernel
  exact absurd (hnone.symm.trans hentry) (by simp)

end Gatehouse.Acl.Library
