import Gatehouse.Proofs.Acl.Listing

/-!
# Hidden files

A file is hidden if its name starts with a dot.

* `accepts_dot_iff` — a pattern that does not start with a dot itself accepts a name that does only
  if it is a star with a dot behind it, and the rest from this dot on accepts the name.
* `Library.hidden_listed_iff` — so the hidden files that a library lists are those that the pattern
  without the star lists.

A library with such a pattern may list hidden files (`Library.not_forall_hidden_left_out`).
-/

namespace Gatehouse.Glob

open Gatehouse.Files Gatehouse.Access

variable {ts : List Token} {s : List Char} {position : Nat} {before : Option Char}

/-- A dot at the start of a name is taken by a dot only. -/
theorem accepts_dot_of_ne {t : Token} (hstar : t ≠ .star) (hdeep : t ≠ .deep) (hdot : t ≠ .char '.')
    (ts : List Token) (name : List Symbol) : accepts (t :: ts) (⟨'.', true⟩ :: name) = false := by
  rw [accepts_cons_cons hstar hdeep]
  cases t with
  | char c =>
    have hc : c ≠ '.' := fun hc => hdot (by rw [hc])
    simp [Token.takes, hc]
  | star => exact absurd rfl hstar
  | deep => exact absurd rfl hdeep
  | any | within | except => simp [Token.takes]

/-- A pattern that starts with a dot accepts names that do. -/
theorem exists_of_accepts_dot (h : Token.parseFrom position before ('.' :: s) = .ok ts)
    {name : List Char} (haccepts : accepts ts (ofFileName name) = true) :
    ∃ rest, name = '.' :: rest := by
  rw [parseFrom_char (by decide) (by decide) (by decide)] at h
  obtain ⟨tail, -, rfl⟩ := exists_of_cons_eq_ok h
  cases name with
  | nil =>
    rw [ofFileName, accepts_cons_nil (by simp) (by simp)] at haccepts
    exact absurd haccepts (by decide)
  | cons c rest =>
    rw [ofFileName, accepts_cons_cons (by simp) (by simp), Bool.and_eq_true] at haccepts
    obtain rfl : '.' = c := by simpa [Token.takes] using haccepts.1
    exact ⟨rest, rfl⟩

theorem accepts_star_dot (tail : List Token) (name : List Symbol) :
    accepts (.star :: tail) (⟨'.', true⟩ :: name) = accepts tail (⟨'.', true⟩ :: name) := by
  rw [accepts_star_cons]
  simp

/-- A dot behind a star is read as it is alone. -/
theorem parse_star_dot (h : Token.parse ('.' :: s) = .ok ts) :
    Token.parse ('*' :: '.' :: s) = .ok (.star :: ts) := by
  rw [Token.parse, parseFrom_char (by decide) (by decide) (by decide)] at h
  obtain ⟨tail, htail, rfl⟩ := exists_of_cons_eq_ok h
  rw [Token.parse, parseFrom_star (by simp), parseFrom_char (by decide) (by decide) (by decide),
    parseFrom_congr htail id]
  rfl

/-- A pattern that does not start with a dot accepts a name that does exactly if it is a star with a
dot behind it, and the pattern from this dot on accepts the name. -/
theorem accepts_dot_iff (h : Token.parse s = .ok ts) (hslash : '/' ∉ s) (hdot : s.head? ≠ some '.')
    (hdeep : ts ≠ [.deep]) (name : List Char) :
    accepts ts (ofFileName ('.' :: name)) = true ↔ ∃ r tail, s = '*' :: '.' :: r ∧
      Token.parse ('.' :: r) = .ok tail ∧ accepts tail (ofFileName ('.' :: name)) = true := by
  have hname : ofFileName ('.' :: name) = ⟨'.', true⟩ :: plain name := rfl
  rw [hname]
  constructor
  · intro haccepts
    cases opening_of_parseFrom h hslash with
    | empty => exact absurd haccepts (by simp [accepts_nil])
    | deep => exact absurd rfl hdeep
    | one hstar hnotDeep hfirst =>
      rw [accepts_dot_of_ne hstar hnotDeep fun ht => hdot (hfirst.1 ht)] at haccepts
      exact absurd haccepts (by decide)
    | star hr htail =>
      rename_i r tail
      rw [accepts_star_dot] at haccepts
      have hrest : '/' ∉ r := fun hmem => hslash (List.mem_cons_of_mem _ hmem)
      have hparse : Token.parse r = .ok tail := parseFrom_congr htail (by simp)
      cases opening_of_parseFrom hparse hrest with
      | empty => exact absurd haccepts (by simp [accepts_nil])
      | deep => exact absurd rfl hr
      | star => exact absurd rfl hr
      | one hstar hnotDeep hfirst =>
        by_cases hr' : r.head? = some '.'
        · obtain ⟨r', rfl⟩ := List.head?_eq_some_iff.1 hr'
          exact ⟨r', _, rfl, hparse, haccepts⟩
        · rw [accepts_dot_of_ne hstar hnotDeep fun ht => hr' (hfirst.1 ht)] at haccepts
          exact absurd haccepts (by decide)
  · rintro ⟨r, tail, rfl, hparse, haccepts⟩
    have hstar : Token.parse ('*' :: '.' :: r) = .ok (.star :: tail) := parse_star_dot hparse
    rw [Except.ok.inj (h.symm.trans hstar), accepts_star_dot]
    exact haccepts

end Gatehouse.Glob

namespace Gatehouse.Acl

open Gatehouse.Files Gatehouse.Glob

/-- Whether the name of a file starts with a dot. -/
def isHidden (path : String) : Bool :=
  (lastPiece path).toList.head? == some '.'

namespace Library

variable {t : Tree} {pattern path : String} {ts : List Token} {paths : List String}

/-- The pattern of a library that lists its files can be read. -/
theorem exists_parse_of_paths {dir : String}
    (hpaths : (Library.mk dir pattern).paths t = .ok paths) :
    ∃ ts, Token.parse pattern.toList = .ok ts := by
  unfold Library.paths pathPattern at hpaths
  split at hpaths
  · rename_i p hp
    exact (PathPattern.exists_of_parse_folder hp).1
  · exact absurd hpaths (by simp)

/-- A file that a library lists is hidden if its name in its folder starts with a dot. -/
theorem isHidden_child (ht : t.WellFormed) {dir folder name : String} {place : Place}
    {bytes : List UInt8} (hfolder : folder ∈ folders t dir)
    (hentry : t.entry? (place.child name) = some (.file bytes)) :
    isHidden (child folder name) = true ↔ ∃ cs, name.toList = '.' :: cs := by
  have hname : IsName name := ht.isName_of_child (Option.isSome_of_eq_some hentry)
  rw [isHidden, lastPiece_child (ne_empty_of_mem_folders ht hfolder) hname.slash, beq_iff_eq,
    List.head?_eq_some_iff]

theorem toList_dotted (rest : String) : ("." ++ rest).toList = '.' :: rest.toList := by simp

theorem toList_starred (rest : String) : ("*." ++ rest).toList = '*' :: '.' :: rest.toList := by
  simp

/-- A pattern without slashes is without them behind its star. -/
theorem slash_notMem_dotted {rest : String} (hslash : '/' ∉ ("*." ++ rest).toList) :
    '/' ∉ ("." ++ rest).toList := by
  rw [toList_starred] at hslash
  rw [toList_dotted]
  exact fun hmem => hslash (List.mem_cons_of_mem _ hmem)

/-- A pattern that starts with a dot, or with a star and a dot, is not `**`. -/
theorem dotted_ne_deep (rest : String) : "." ++ rest ≠ "**" ∧ "*." ++ rest ≠ "**" := by
  constructor <;> intro h <;> have hlist := congrArg String.toList h
  · rw [toList_dotted] at hlist
    exact absurd hlist (by simp)
  · rw [toList_starred] at hlist
    exact absurd hlist (by simp)

/-- A library that lists a hidden file has a pattern that starts with a dot, or with a star and a
dot. -/
theorem starred_of_hidden_mem (ht : t.WellFormed) {dir : String} (hslash : '/' ∉ pattern.toList)
    (hdot : pattern.toList.head? ≠ some '.') (h : Token.parse pattern.toList = .ok ts)
    (hpaths : (Library.mk dir pattern).paths t = .ok paths) (hpath : path ∈ paths)
    (hhidden : isHidden path = true) :
    ∃ rest tail, pattern = "*." ++ rest ∧ Token.parse ("." ++ rest).toList = .ok tail := by
  rw [mem_paths_iff ht hslash h hpaths] at hpath
  obtain ⟨hdeep, folder, hfolder, place, name, bytes, -, hentry, haccepts, rfl⟩ := hpath
  obtain ⟨cs, hcs⟩ := (isHidden_child ht hfolder hentry).1 hhidden
  have hts : ts ≠ [.deep] := fun hdeep' => hdeep ((eq_deep_iff hslash h).1 hdeep')
  rw [hcs, accepts_dot_iff h hslash hdot hts] at haccepts
  obtain ⟨r, tail, hpattern, hparse, -⟩ := haccepts
  refine ⟨String.ofList r, tail, ?_, ?_⟩
  · rw [← String.toList_inj, toList_starred, String.toList_ofList, hpattern]
  · rwa [toList_dotted, String.toList_ofList]

/-- The hidden files among those with a certain ending are the ones listed without the star. -/
theorem hidden_mem_starred_iff (ht : t.WellFormed) {dir rest : String} {shown : List String}
    (hslash : '/' ∉ ("*." ++ rest).toList) (h : Token.parse ("." ++ rest).toList = .ok ts)
    (hpaths : (Library.mk dir ("*." ++ rest)).paths t = .ok paths)
    (hshown : (Library.mk dir ("." ++ rest)).paths t = .ok shown) :
    path ∈ paths ∧ isHidden path = true ↔ path ∈ shown := by
  rw [toList_dotted] at h
  have hstarred : Token.parse ("*." ++ rest).toList = .ok (.star :: ts) := by
    rw [toList_starred]
    exact parse_star_dot h
  have hsame (cs : List Char) : accepts (.star :: ts) (ofFileName ('.' :: cs)) =
      accepts ts (ofFileName ('.' :: cs)) :=
    accepts_star_dot ts (plain cs)
  rw [mem_paths_iff ht hslash hstarred hpaths,
    mem_paths_iff ht (slash_notMem_dotted hslash) (by rwa [toList_dotted]) hshown]
  constructor
  · rintro ⟨⟨-, folder, hfolder, place, name, bytes, hplace, hentry, haccepts, rfl⟩, hhidden⟩
    obtain ⟨cs, hcs⟩ := (isHidden_child ht hfolder hentry).1 hhidden
    refine ⟨(dotted_ne_deep rest).1, folder, hfolder, place, name, bytes, hplace, hentry, ?_, rfl⟩
    rwa [hcs, hsame, ← hcs] at haccepts
  · rintro ⟨-, folder, hfolder, place, name, bytes, hplace, hentry, haccepts, rfl⟩
    obtain ⟨cs, hcs⟩ := exists_of_accepts_dot h haccepts
    refine ⟨⟨(dotted_ne_deep rest).2, folder, hfolder, place, name, bytes, hplace, hentry, ?_, rfl⟩,
      (isHidden_child ht hfolder hentry).2 ⟨cs, hcs⟩⟩
    rwa [hcs, hsame, ← hcs]

/-- The hidden files that a library lists, if its pattern does not start with a dot, are those that
the pattern without a star at its front lists. -/
theorem hidden_mem_paths_iff (ht : t.WellFormed) {dir : String} (hslash : '/' ∉ pattern.toList)
    (hdot : pattern.toList.head? ≠ some '.') (h : Token.parse pattern.toList = .ok ts)
    (hpaths : (Library.mk dir pattern).paths t = .ok paths) :
    path ∈ paths ∧ isHidden path = true ↔ ∃ rest shown, pattern = "*." ++ rest ∧
      (Library.mk dir ("." ++ rest)).paths t = .ok shown ∧ path ∈ shown := by
  constructor
  · rintro ⟨hpath, hhidden⟩
    obtain ⟨rest, tail, rfl, hparse⟩ :=
      starred_of_hidden_mem ht hslash hdot h hpaths hpath hhidden
    have hshown := paths_of_parse t dir (slash_notMem_dotted hslash) hparse
    exact ⟨rest, _, rfl, hshown,
      (hidden_mem_starred_iff ht hslash hparse hpaths hshown).1 ⟨hpath, hhidden⟩⟩
  · rintro ⟨rest, shown, rfl, hshown, hpath⟩
    obtain ⟨tail, hparse⟩ := exists_parse_of_paths hshown
    exact (hidden_mem_starred_iff ht hslash hparse hpaths hshown).2 hpath

/-- Of the patterns without slashes that do not start with a dot, those that are a star with a dot
behind it list hidden files: the files that the pattern without the star lists, if there are any.
Other hidden files are not listed, and what is loaded is what is listed. -/
theorem hidden_listed_iff (ht : t.WellFormed) (dir : String) (hslash : '/' ∉ pattern.toList)
    (hdot : pattern.toList.head? ≠ some '.') (h : Token.parse pattern.toList = .ok ts) :
    ∃ paths, (Library.mk dir pattern).paths t = .ok paths ∧
      (Library.mk dir pattern).load t =
        .ok (paths.map fun path => (Loaded.mk path ·) <$> Document.load t path) ∧
      (∀ path, path ∈ paths ∧ isHidden path = true ↔ ∃ rest shown, pattern = "*." ++ rest ∧
        (Library.mk dir ("." ++ rest)).paths t = .ok shown ∧ path ∈ shown) ∧
      ((∀ path ∈ paths, isHidden path = false) ↔ ¬∃ rest shown, pattern = "*." ++ rest ∧
        (Library.mk dir ("." ++ rest)).paths t = .ok shown ∧ shown ≠ []) := by
  obtain ⟨paths, hpaths⟩ : ∃ paths, (Library.mk dir pattern).paths t = .ok paths :=
    ⟨_, paths_of_parse t dir hslash h⟩
  have hmem : ∀ path, path ∈ paths ∧ isHidden path = true ↔ _ := fun _ =>
    hidden_mem_paths_iff ht hslash hdot h hpaths
  refine ⟨paths, hpaths, by rw [Library.load, hpaths], hmem, ?_⟩
  constructor
  · rintro hno ⟨rest, shown, hpattern, hshown, hne⟩
    obtain ⟨path, hpath⟩ := List.exists_mem_of_ne_nil shown hne
    obtain ⟨hlisted, hhidden⟩ := (hmem path).2 ⟨rest, shown, hpattern, hshown, hpath⟩
    exact absurd hhidden (by simp [hno path hlisted])
  · intro hno path hpath
    rw [← Bool.not_eq_true]
    intro hhidden
    obtain ⟨rest, shown, hpattern, hshown, hmem⟩ := (hmem path).1 ⟨hpath, hhidden⟩
    exact hno ⟨rest, shown, hpattern, hshown, List.ne_nil_of_mem hmem⟩

/-- A folder with a hidden file whose name is nothing but an ending. -/
def hiddenTree : Tree :=
  Tree.empty.write "acl/.json" (.file "\x7b\x7d".toUTF8.toList)

theorem wellFormed_hiddenTree : hiddenTree.WellFormed :=
  ⟨by decide +kernel, by decide +kernel, by decide +kernel⟩

theorem parse_ending : Token.parse "*.json".toList =
    .ok [.star, .char '.', .char 'j', .char 's', .char 'o', .char 'n'] := by
  decide +kernel

theorem paths_hiddenTree : (Library.mk "acl" ".json").paths hiddenTree = .ok ["acl/.json"] := by
  have hpattern : PathPattern.parse (Library.mk "acl" ".json").pathPattern =
      .ok ⟨false, false, [.name "acl", .name ".json"]⟩ := by
    decide +kernel
  exact paths_of_found hpattern rfl (by decide +kernel) (by decide)

theorem hidden_listed_ending : ∃ paths,
    (Library.mk "acl" "*.json").paths hiddenTree = .ok paths ∧
      "acl/.json" ∈ paths ∧ ¬∀ path ∈ paths, isHidden path = false := by
  obtain ⟨paths, hpaths, -, hmem, hnone⟩ := hidden_listed_iff wellFormed_hiddenTree "acl"
    (by decide) (by decide) parse_ending
  refine ⟨paths, hpaths, ?_, fun hno => ?_⟩
  · exact ((hmem _).2 ⟨"json", _, rfl, paths_hiddenTree, List.mem_singleton_self _⟩).1
  · exact hnone.1 hno ⟨"json", _, rfl, paths_hiddenTree, by decide⟩

/-- Hidden files are not always left out. -/
theorem not_forall_hidden_left_out :
    ¬∀ (t : Tree) (dir pattern : String) (ts : List Token) (paths : List String), t.WellFormed →
      '/' ∉ pattern.toList → pattern.toList.head? ≠ some '.' →
        Token.parse pattern.toList = .ok ts → (Library.mk dir pattern).paths t = .ok paths →
          ∀ path ∈ paths, isHidden path = false := by
  intro hall
  have hpattern : PathPattern.parse (Library.mk "acl" "*.json").pathPattern =
      .ok ⟨false, false, [.name "acl", .wild [.star, .char '.', .char 'j', .char 's', .char 'o',
        .char 'n']]⟩ := by
    decide +kernel
  have hpaths : (Library.mk "acl" "*.json").paths hiddenTree = .ok ["acl/.json"] :=
    paths_of_found hpattern rfl (by decide +kernel) (by decide)
  have hhidden := hall hiddenTree "acl" "*.json" _ _ wellFormed_hiddenTree (by decide) (by decide)
    parse_ending hpaths "acl/.json" (List.mem_singleton_self _)
  exact absurd hhidden (by decide +kernel)

end Library

end Gatehouse.Acl
