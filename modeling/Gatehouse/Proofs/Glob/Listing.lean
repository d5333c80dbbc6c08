import Gatehouse.Proofs.Glob.Escape

/-!
# Searching a folder

The components of an escaped folder lead a search along the pieces of the folder's path, and the
last component is tried on what stands in the folder that is reached.

* `search_append` — a search by components goes on from everything that the first ones find.
* `mem_search_name`, `mem_search_wild` — the files that a name, and wildcards, find in a folder.
* `search_exactly` — the component of one name finds the entry of this name, if there is one.
* `mem_search_last`, `nodup_search_last` — the files that a last component finds in a folder: those
  whose names its tokens accept, each of them once.
* `search_folder` — the pieces of a path that does not start with a dot find the folder that the path
  names, and `child_foldl` is how the paths of its entries are written.
-/

namespace Gatehouse.Glob

open Gatehouse.Files Gatehouse.Files.Tree

variable {t : Tree} {path name x : String} {ts : List Token} {place : Place}

/-- A search by components goes on from everything that the first ones find. -/
theorem search_append {a : List Segment} (ha : ∀ s ∈ a, s ≠ .deep) (b : List Segment)
    (path : String) : search t path (a ++ b) = (search t path a).flatMap (search t · b) := by
  induction a generalizing path with
  | nil => simp [search]
  | cons s a ih =>
    obtain ⟨hs, hrest⟩ := List.forall_mem_cons.1 ha
    cases s with
    | deep => exact absurd rfl hs
    | name text =>
      rw [List.cons_append, search, search]
      cases entryPath? t path text with
      | none => rfl
      | some next => exact ih hrest next
    | wild ts =>
      rw [List.cons_append, search, search, List.flatMap_append, List.flatMap_assoc,
        List.flatMap_assoc]
      simp only [ih hrest]

/-! ## What is there -/

theorem exists?_iff : t.exists? path = true ↔ ∃ q, t.locate path = .ok q := by
  unfold exists? find?
  cases hlocate : t.locate path with
  | error fault => simp
  | ok q => simpa using (reachable_of_locate hlocate).there

theorem exists?_child_iff (h : t.WellFormed) (hpath : path ≠ "") (hname : name ≠ "")
    (hslash : '/' ∉ name.toList) :
    t.exists? (child path name) = true ↔ ∃ place, t.locate path = .ok place ∧
      t.entry? place = some .folder ∧ (name = "." ∨ name = ".." ∨
        (t.entry? (place.child name)).isSome = true) := by
  rw [exists?_iff]
  simp only [locate_child_iff hpath hname (isAbsolute_of_notMem hslash)]
  constructor
  · rintro ⟨q, place, hplace, hfolder, hnul, hfollow⟩
    refine ⟨place, hplace, hfolder, ?_⟩
    rcases (follow_steps_of_notMem hfolder hname hslash hnul).1 hfollow with
      ⟨h, -⟩ | ⟨h, -⟩ | ⟨-, h, -⟩
    · exact .inl h
    · exact .inr (.inl h)
    · exact .inr (.inr h)
  · rintro ⟨place, hplace, hfolder, hentry⟩
    rcases hentry with rfl | rfl | hentry
    · exact ⟨place, place, hplace, hfolder, by decide,
        (follow_steps_of_notMem hfolder hname hslash (by decide)).2 (.inl ⟨rfl, rfl⟩)⟩
    · exact ⟨_, place, hplace, hfolder, by decide,
        (follow_steps_of_notMem hfolder hname hslash (by decide)).2 (.inr (.inl ⟨rfl, rfl⟩))⟩
    · have hisName := h.isName_of_child hentry
      exact ⟨_, place, hplace, hfolder, hisName.nul,
        (follow_steps_of_notMem hfolder hname hslash hisName.nul).2
          (.inr (.inr ⟨hisName, hentry, rfl⟩))⟩

/-! ## A component that is a name -/

/-- The entry of a name is there exactly if its path leads somewhere. -/
theorem entryPath?_eq (h : t.WellFormed) (hpath : path ≠ "") (hslash : '/' ∉ name.toList) :
    entryPath? t path name =
      if t.exists? (child path name) = true then some (child path name) else none := by
  unfold entryPath?
  dsimp only
  split
  · rename_i hdots
    have hne : name ≠ "" := by rcases hdots with rfl | rfl <;> decide
    have hthere : t.isFolder path = t.exists? (child path name) := by
      rw [Bool.eq_iff_iff, isFolder_iff, exists?_child_iff h hpath hne hslash]
      rcases hdots with rfl | rfl <;> simp
    rw [hthere]
  · rfl

theorem search_name (h : t.WellFormed) (hpath : path ≠ "") (hslash : '/' ∉ name.toList) :
    search t path [.name name] =
      if t.exists? (child path name) = true then [child path name] else [] := by
  rw [search, entryPath?_eq h hpath hslash]
  by_cases hthere : t.exists? (child path name) = true
  · simp [hthere, search]
  · simp [hthere]

/-- The file that a name finds in a folder is the one of that name. -/
theorem mem_search_name (h : t.WellFormed) (hpath : path ≠ "") (hname : name ≠ "")
    (hslash : '/' ∉ name.toList) :
    (x ∈ search t path [.name name] ∧ t.isFile x = true) ↔ ∃ place bytes,
      t.locate path = .ok place ∧ t.entry? (place.child name) = some (.file bytes) ∧
        x = child path name := by
  have hfile := isFile_child_iff h hpath hname hslash
  rw [search_name h hpath hslash]
  constructor
  · rintro ⟨hx, hx'⟩
    obtain rfl : x = child path name := by
      split at hx
      · exact List.mem_singleton.1 hx
      · exact absurd hx List.not_mem_nil
    obtain ⟨place, bytes, hplace, hentry⟩ := hfile.1 hx'
    exact ⟨place, bytes, hplace, hentry, rfl⟩
  · rintro ⟨place, bytes, hplace, hentry, rfl⟩
    have hx := hfile.2 ⟨place, bytes, hplace, hentry⟩
    obtain ⟨q, -, hq, -⟩ := isFile_iff.1 hx
    rw [if_pos (exists?_iff.2 ⟨q, hq⟩)]
    exact ⟨List.mem_singleton_self _, hx⟩

/-! ## A component with wildcards -/

/-- What dots stand for is a folder, and no file. -/
theorem isFile_of_mem_dotEntries (hx : x ∈ dotEntries t path ts) : t.isFile x = false := by
  unfold dotEntries at hx
  split at hx
  · rename_i hdots
    obtain ⟨d, hd, rfl⟩ := List.mem_map.1 hx
    obtain ⟨place, hplace, hfolder⟩ := isFolder_iff.1 hdots.1
    have hdot : d = "." ∨ d = ".." := by simpa using (List.mem_filter.1 hd).1
    have hrelative : isAbsolute d = false := by rcases hdot with rfl | rfl <;> decide
    rw [← Bool.not_eq_true, isFile_iff]
    rintro ⟨q, bytes, hq, hfile⟩
    obtain ⟨-, hfollow⟩ := (locate_join hplace hrelative).1 hq
    have hq := folder_of_follow_dots (reachable_of_locate hplace) hfolder hdot hfollow
    exact absurd (hq.symm.trans hfile) (by simp)
  · exact absurd hx List.not_mem_nil

/-- In a folder, wildcards find the entries whose names they accept, and maybe the dots. -/
theorem search_wild (h : t.WellFormed) (hplace : t.locate path = .ok place)
    (hfolder : t.entry? place = some .folder) (ts : List Token) :
    search t path [.wild ts] =
      ((t.namesIn place).filter fun n => accepts ts (ofFileName n.toList)).map (child path) ++
        dotEntries t path ts := by
  have hchildren : children t path = (t.namesIn place).map (child path) := by
    unfold children
    rw [hplace, isFolder_iff.2 ⟨place, hplace, hfolder⟩]
    rfl
  have hnames : ((t.namesIn place).filter
      ((fun p => (Segment.wild ts).accepts (lastPiece p)) ∘ child path)) =
        (t.namesIn place).filter fun n => accepts ts (ofFileName n.toList) := by
    refine List.filter_congr fun n hn => ?_
    have hslash := (h.isName_of_child (mem_namesIn.1 hn)).slash
    rw [Function.comp, lastPiece_child (locate_eq_ok_iff.1 hplace).1 hslash, Segment.accepts]
  simp only [search, List.flatMap_singleton', hchildren, List.filter_map, hnames]

theorem search_wild_of_not_folder (h : ¬t.isFolder path = true) (ts : List Token) :
    search t path [.wild ts] = [] := by
  simp [search, children_of_not_folder h, dotEntries, h]

/-- The files that wildcards find in a folder are those whose names they accept. -/
theorem mem_search_wild (h : t.WellFormed) (hpath : path ≠ "") :
    (x ∈ search t path [.wild ts] ∧ t.isFile x = true) ↔ ∃ place name bytes,
      t.locate path = .ok place ∧ t.entry? (place.child name) = some (.file bytes) ∧
        accepts ts (ofFileName name.toList) = true ∧ x = child path name := by
  constructor
  · rintro ⟨hx, hfile⟩
    by_cases hfolder : t.isFolder path = true
    · obtain ⟨place, hplace, hentry⟩ := isFolder_iff.1 hfolder
      rw [search_wild h hplace hentry, List.mem_append] at hx
      rcases hx with hx | hx
      · obtain ⟨name, hmem, rfl⟩ := List.mem_map.1 hx
        obtain ⟨hmem, haccepts⟩ := List.mem_filter.1 hmem
        have hname := h.isName_of_child (mem_namesIn.1 hmem)
        obtain ⟨q, bytes, hq, hentry⟩ :=
          (isFile_child_iff h hpath hname.nonempty hname.slash).1 hfile
        exact ⟨q, name, bytes, hq, hentry, haccepts, rfl⟩
      · exact absurd hfile (by simp [isFile_of_mem_dotEntries hx])
    · rw [search_wild_of_not_folder hfolder] at hx
      exact absurd hx List.not_mem_nil
  · rintro ⟨place, name, bytes, hplace, hentry, haccepts, rfl⟩
    have hthere := Option.isSome_of_eq_some hentry
    have hname := h.isName_of_child hthere
    refine ⟨?_, (isFile_child_iff h hpath hname.nonempty hname.slash).2
      ⟨place, bytes, hplace, hentry⟩⟩
    rw [search_wild h hplace (h.folder_of_child hthere)]
    exact List.mem_append_left _
      (List.mem_map_of_mem (List.mem_filter.2 ⟨mem_namesIn.2 hthere, haccepts⟩))

/-- Wildcards find each file once. -/
theorem nodup_search_wild (h : t.WellFormed) (hpath : path ≠ "") (ts : List Token) :
    ((search t path [.wild ts]).filter t.isFile).Nodup := by
  by_cases hfolder : t.isFolder path = true
  · obtain ⟨place, hplace, hentry⟩ := isFolder_iff.1 hfolder
    have hdots : (dotEntries t path ts).filter t.isFile = [] :=
      List.filter_eq_nil_iff.2 fun x hx => by simp [isFile_of_mem_dotEntries hx]
    rw [search_wild h hplace hentry, List.filter_append, hdots, List.append_nil]
    refine (List.Nodup.map_on ?_ ((nodup_namesIn h place).filter _)).filter _
    -- The name of an entry can be read off its path.
    have hlast : ∀ n ∈ (t.namesIn place).filter (fun n => accepts ts (ofFileName n.toList)),
        lastPiece (child path n) = n := fun n hn =>
      lastPiece_child hpath (h.isName_of_child (mem_namesIn.1 (List.mem_filter.1 hn).1)).slash
    intro a ha b hb hab
    rw [← hlast a ha, hab, hlast b hb]
  · rw [search_wild_of_not_folder hfolder]
    exact List.nodup_nil

/-! ## The component of one name -/

/-- Of the names in a place, escaped tokens accept the one that they stand for. -/
theorem filter_namesIn_exactly (h : t.WellFormed) (place : Place) (name : String) :
    ((t.namesIn place).filter fun n =>
      accepts (name.toList.map Token.exactly) (ofFileName n.toList)) =
        if (t.entry? (place.child name)).isSome = true then [name] else [] := by
  have heq : (fun n : String => accepts (name.toList.map Token.exactly) (ofFileName n.toList)) =
      fun n => n == name := by
    funext n
    rw [Bool.eq_iff_iff, accepts_map_exactly, String.toList_inj, beq_iff_eq]
  rw [heq, List.filter_beq, (nodup_namesIn h place).count]
  simp only [mem_namesIn]
  split <;> rfl

theorem dotEntries_exactly (t : Tree) (path : String) (hhere : name ≠ ".") (hup : name ≠ "..") :
    dotEntries t path (name.toList.map Token.exactly) = [] := by
  have hno : ([".", ".."].filter fun d =>
      accepts (name.toList.map Token.exactly) (ofFileName d.toList)) = [] := by
    rw [List.filter_eq_nil_iff]
    intro d hd haccepts
    rw [accepts_map_exactly, String.toList_inj] at haccepts
    rw [haccepts] at hd
    simp [hhere, hup] at hd
  unfold dotEntries
  rw [hno]
  split <;> rfl

/-- The component of one name finds the entry of this name, if there is one. -/
theorem search_exactly (h : t.WellFormed) (hpath : path ≠ "") (hslash : '/' ∉ name.toList) :
    search t path [.exactly name] =
      if t.exists? (child path name) = true then [child path name] else [] := by
  rcases Segment.exactly_cases name with hname | ⟨hwild, hempty, hhere, hup⟩
  · rw [hname]
    exact search_name h hpath hslash
  · rw [hwild]
    by_cases hfolder : t.isFolder path = true
    · obtain ⟨place, hplace, hentry⟩ := isFolder_iff.1 hfolder
      have hthere : t.exists? (child path name) = true ↔
          (t.entry? (place.child name)).isSome = true := by
        rw [exists?_child_iff h hpath hempty hslash]
        simp [hplace, hentry, hhere, hup]
      rw [search_wild h hplace hentry, filter_namesIn_exactly h, dotEntries_exactly t path hhere hup]
      simp only [hthere]
      split <;> rfl
    · have hgone : ¬t.exists? (child path name) = true := by
        rw [exists?_child_iff h hpath hempty hslash]
        rintro ⟨place, hplace, hentry, -⟩
        exact hfolder (isFolder_iff.2 ⟨place, hplace, hentry⟩)
      rw [search_wild_of_not_folder hfolder, if_neg hgone]

theorem search_exactly_cons (h : t.WellFormed) (hpath : path ≠ "") (hslash : '/' ∉ name.toList)
    (r : List Segment) : search t path (.exactly name :: r) =
      if t.exists? (child path name) = true then search t (child path name) r else [] := by
  have hone : ∀ s ∈ [Segment.exactly name], s ≠ .deep := by simp [Segment.exactly_ne_deep]
  rw [← List.singleton_append, search_append hone, search_exactly h hpath hslash]
  split
  · exact List.flatMap_singleton _ _
  · rfl

/-! ## The last component -/

/-- The files that the last component of a pattern finds in a folder are those whose names its
tokens accept. -/
theorem mem_search_last (h : t.WellFormed) (hpath : path ≠ "") (hdeep : ts ≠ [.deep])
    (hne : ts ≠ []) (hslash : .char '/' ∉ ts) :
    (x ∈ search t path [.ofTokens ts] ∧ t.isFile x = true) ↔ ∃ place name bytes,
      t.locate path = .ok place ∧ t.entry? (place.child name) = some (.file bytes) ∧
        accepts ts (ofFileName name.toList) = true ∧ x = child path name := by
  unfold Segment.ofTokens
  rw [if_neg hdeep]
  split
  · rename_i s hs
    obtain rfl := eq_map_char_of_literal? hs
    have htext : String.ofList s ≠ "" := by
      intro hempty
      have hnil : s = [] := by simpa using congrArg String.toList hempty
      exact hne (by rw [hnil, List.map_nil])
    have hplain : '/' ∉ (String.ofList s).toList := by
      rw [String.toList_ofList]
      exact fun hmem => hslash (List.mem_map_of_mem hmem)
    rw [mem_search_name h hpath htext hplain]
    constructor
    · rintro ⟨place, bytes, hplace, hentry, rfl⟩
      exact ⟨place, _, bytes, hplace, hentry,
        (accepts_map_char_fileName _ _).2 String.toList_ofList, rfl⟩
    · rintro ⟨place, name, bytes, hplace, hentry, haccepts, rfl⟩
      obtain rfl : name = String.ofList s := by
        rw [← (accepts_map_char_fileName _ _).1 haccepts, String.ofList_toList]
      exact ⟨place, bytes, hplace, hentry, rfl⟩
  · exact mem_search_wild h hpath

/-- Arbitrary depth at the end of a pattern finds folders only. -/
theorem isFile_of_mem_search_deep (hx : x ∈ search t path [.deep]) : t.isFile x = false := by
  rw [search, List.mem_filter] at hx
  rw [← Bool.not_eq_true]
  intro hfile
  rw [isFolder_of_isFile hfile] at hx
  exact absurd hx.2 (by simp)

/-- The last component finds each file once. -/
theorem nodup_search_last (h : t.WellFormed) (hpath : path ≠ "") (hdeep : ts ≠ [.deep]) :
    ((search t path [.ofTokens ts]).filter t.isFile).Nodup := by
  unfold Segment.ofTokens
  rw [if_neg hdeep]
  split
  · refine List.Nodup.filter _ ?_
    rw [search]
    split
    · rw [search]
      exact List.nodup_singleton _
    · exact List.nodup_nil
  · exact nodup_search_wild h hpath ts

/-! ## The folder that is searched -/

/-- What the components of names find is not the empty path. -/
theorem ne_empty_of_mem_search (h : t.WellFormed) {ps : List String}
    (hps : ∀ p ∈ ps, '/' ∉ p.toList) (hpath : path ≠ "")
    (hx : x ∈ search t path (ps.map .exactly)) : x ≠ "" := by
  induction ps generalizing path with
  | nil =>
    obtain rfl : x = path := by simpa [search] using hx
    exact hpath
  | cons p ps ih =>
    obtain ⟨hp, hps⟩ := List.forall_mem_cons.1 hps
    rw [List.map_cons, search_exactly_cons h hpath hp] at hx
    split at hx
    · rename_i hthere
      obtain ⟨q, hq⟩ := exists?_iff.1 hthere
      exact ih hps (locate_eq_ok_iff.1 hq).1 hx
    · exact absurd hx List.not_mem_nil

/-- A path that is not empty and does not start with a dot that stands for a folder. -/
structure Anchored (path : String) : Prop where
  /-- The path is not empty. -/
  nonempty : path ≠ ""
  /-- It does not start in a folder by a dot. -/
  front : (pieces path).head? ≠ some "."

namespace Anchored

/-- Paths that are made of names are of this kind. -/
theorem of_components (ns : List String) (hne : path ≠ "")
    (h : components path = ns.map .name ∨ components path = .root :: ns.map .name) :
    Anchored path := by
  refine ⟨hne, fun hfront => ?_⟩
  obtain ⟨rest, hpieces⟩ := List.head?_eq_some_iff.1 hfront
  have hhere : (components path).head? = some .here := by
    simp [components, hpieces]
  rcases h with h | h <;> rw [h] at hhere
  · cases ns <;> simp at hhere
  · simp at hhere

theorem isStart (h : Anchored path) : Glob.isStart path = false := by
  rw [← Bool.not_eq_true]
  intro hstart
  obtain ⟨rest, hpieces, -⟩ := pieces_of_isStart hstart
  exact h.front (by rw [hpieces]; rfl)

theorem child_eq (h : Anchored path) (name : String) : child path name = join path name := by
  rw [child, h.isStart, if_neg (by decide)]

theorem child (h : Anchored path) (hname : isAbsolute name = false) :
    Anchored (Glob.child path name) := by
  obtain ⟨front, hfront, hjoin⟩ := exists_join_eq h.nonempty
  rw [h.child_eq, hjoin name hname]
  refine ⟨by simp, ?_⟩
  have hhead : (pieces path).head? = (pieces front).head? := by
    cases hpieces : pieces front with
    | nil => exact absurd hpieces (pieces_ne_nil front)
    | cons p ps => rcases hfront with hpath | hpath <;> simp [hpath, hpieces]
  have hne := h.front
  rw [hhead] at hne
  rw [pieces_append]
  cases hpieces : pieces front with
  | nil => exact absurd hpieces (pieces_ne_nil front)
  | cons p ps =>
    rw [hpieces] at hne
    exact hne

/-- Where something inside a folder is there, the folder is. -/
theorem exists?_of_child (h : Anchored path) (hname : isAbsolute name = false)
    (hthere : t.exists? (Glob.child path name) = true) : t.exists? path = true := by
  obtain ⟨q, hq⟩ := exists?_iff.1 hthere
  rw [h.child_eq] at hq
  obtain ⟨place, hplace, -⟩ := exists_folder_of_locate_join h.nonempty hname hq
  exact exists?_iff.2 ⟨place, hplace⟩

variable {ps : List String}

theorem foldl (h : Anchored path) (hps : ∀ p ∈ ps, '/' ∉ p.toList) :
    Anchored (ps.foldl Glob.child path) := by
  induction ps generalizing path with
  | nil => exact h
  | cons p ps ih =>
    obtain ⟨hp, hps⟩ := List.forall_mem_cons.1 hps
    exact ih (h.child (isAbsolute_of_notMem hp)) hps

theorem exists?_of_foldl (h : Anchored path) (hps : ∀ p ∈ ps, '/' ∉ p.toList)
    (hthere : t.exists? (ps.foldl Glob.child path) = true) : t.exists? path = true := by
  induction ps generalizing path with
  | nil => exact hthere
  | cons p ps ih =>
    obtain ⟨hp, hps⟩ := List.forall_mem_cons.1 hps
    have hrelative := isAbsolute_of_notMem hp
    exact h.exists?_of_child hrelative (ih (h.child hrelative) hps hthere)

/-- The components of names find what the names lead to, if it is there. -/
theorem search_map_exactly (h : Anchored path) (ht : t.WellFormed)
    (hps : ∀ p ∈ ps, '/' ∉ p.toList) (hthere : t.exists? path = true) :
    search t path (ps.map .exactly) =
      if t.exists? (ps.foldl Glob.child path) = true then [ps.foldl Glob.child path] else [] := by
  induction ps generalizing path with
  | nil =>
    rw [List.foldl_nil, if_pos hthere, List.map_nil, search]
  | cons p ps ih =>
    obtain ⟨hp, hps⟩ := List.forall_mem_cons.1 hps
    have hrelative := isAbsolute_of_notMem hp
    rw [List.map_cons, search_exactly_cons ht h.nonempty hp, List.foldl_cons]
    by_cases hchild : t.exists? (Glob.child path p) = true
    · rw [if_pos hchild]
      exact ih (h.child hrelative) hps hchild
    · have hgone : ¬t.exists? (ps.foldl Glob.child (Glob.child path p)) = true :=
        fun hlast => hchild ((h.child hrelative).exists?_of_foldl hps hlast)
      rw [if_neg hchild, if_neg hgone]

/-- The path of something behind names is written with a single slash behind each of them. -/
theorem child_foldl (h : Anchored path) (hps : ∀ p ∈ ps, '/' ∉ p.toList)
    (hname : '/' ∉ name.toList) :
    Glob.child (ps.foldl Glob.child path) name = Glob.child path (slashed ps ++ name) := by
  induction ps generalizing path with
  | nil => rw [List.foldl_nil, slashed, String.empty_append]
  | cons p ps ih =>
    obtain ⟨hp, hps⟩ := List.forall_mem_cons.1 hps
    have hrelative := isAbsolute_of_notMem hp
    have hrest := isAbsolute_slashed hps hname
    obtain ⟨front, -, hjoin⟩ := exists_join_eq h.nonempty
    have hnext := h.child hrelative
    rw [List.foldl_cons, ih hnext hps, hnext.child_eq, h.child_eq, h.child_eq, hjoin p hrelative,
      slashed]
    by_cases hempty : p = ""
    · have hslash : (front ++ "/").toList.getLast? = some '/' := by simp
      rw [if_pos hempty, hempty, String.append_empty, hjoin _ hrest, join, hrest,
        if_neg (by decide), if_pos (.inr hslash)]
    · have hlast : (front ++ "/" ++ p).toList.getLast? ≠ some '/' := by
        intro hslash
        rw [String.toList_append, List.getLast?_append_of_ne_nil _ (by simpa using hempty)] at hslash
        exact hp (List.mem_of_getLast? hslash)
      have habsolute : isAbsolute (p ++ "/" ++ slashed ps ++ name) = false := by
        rw [String.append_assoc, String.append_assoc, isAbsolute_append hempty, hrelative]
      rw [if_neg hempty, hjoin _ habsolute, join_of_getLast? (by simp) hlast hrest]
      simp only [String.append_assoc]

end Anchored

/-- The folders in which a pattern behind an escaped folder is tried. -/
def folders (t : Tree) (dir : String) : List String :=
  search t (if isAbsolute (dir ++ "/") then "/" else ".") ((folderPieces dir).map .exactly)

theorem ne_empty_of_mem_folders (h : t.WellFormed) {dir : String} (hx : x ∈ folders t dir) :
    x ≠ "" := by
  refine ne_empty_of_mem_search h (fun p => notMem_of_mem_folderPieces) ?_ hx
  split <;> decide

/-- There is at most one such folder, and the paths of its entries have its names in front, with a
single slash behind each. -/
theorem folders_eq (h : t.WellFormed) {dir : String} (hdir : Anchored dir) :
    ∃ folder, folder ≠ "" ∧ folders t dir = (if t.exists? folder = true then [folder] else []) ∧
      ∀ name : String, '/' ∉ name.toList → child folder name = opened dir ++ name := by
  obtain ⟨first, rest, hpieces, hfirst, -⟩ := exists_pieces_eq hdir.nonempty
  have hps : ∀ p ∈ first :: rest, '/' ∉ p.toList := fun p hp =>
    notMem_of_mem_pieces (hpieces ▸ hp)
  obtain ⟨hslash, hrest⟩ := List.forall_mem_cons.1 hps
  have hroot : isAbsolute (dir ++ "/") = isAbsolute dir := isAbsolute_append hdir.nonempty _
  unfold folders folderPieces opened
  rw [hroot, hpieces]
  by_cases habsolute : isAbsolute dir = true
  · have hanchored : Anchored "/" := ⟨by decide, by decide⟩
    have hthere : t.exists? "/" = true := exists?_iff.2 ⟨⟨.root, []⟩, rfl⟩
    refine ⟨rest.foldl child "/", (hanchored.foldl hrest).nonempty, ?_, fun name hname => ?_⟩
    · rw [if_pos habsolute, if_pos habsolute]
      exact hanchored.search_map_exactly h hrest hthere
    · have hjoin : ∀ x, isAbsolute x = false → join "/" x = "/" ++ x := by
        intro x hx
        rw [join, hx, if_neg (by decide), if_pos (.inr (by decide))]
      rw [hanchored.child_foldl hrest hname, hanchored.child_eq, if_pos habsolute, slashed,
        if_pos (hfirst.2 habsolute), hjoin _ (isAbsolute_slashed hrest hname), String.append_assoc]
  · have hne : first ≠ "" := fun hempty => habsolute (hfirst.1 hempty)
    have hfront : first ≠ "." := by
      rintro rfl
      exact hdir.front (by rw [hpieces]; rfl)
    have hanchored : Anchored first := ⟨hne, by simpa [pieces_of_notMem hslash] using hfront⟩
    have hstart : child "." first = first := by
      rw [child, if_pos (by decide)]
    refine ⟨rest.foldl child first, (hanchored.foldl hrest).nonempty, ?_, fun name hname => ?_⟩
    · rw [if_neg habsolute, if_neg habsolute, List.map_cons,
        search_exactly_cons h (by decide) hslash, hstart]
      by_cases hthere : t.exists? first = true
      · rw [if_pos hthere]
        exact hanchored.search_map_exactly h hrest hthere
      · have hgone : ¬t.exists? (rest.foldl child first) = true :=
          fun hlast => hthere (hanchored.exists?_of_foldl hrest hlast)
        rw [if_neg hthere, if_neg hgone]
    · have hlast : first.toList.getLast? ≠ some '/' := fun hmem =>
        hslash (List.mem_of_getLast? hmem)
      rw [hanchored.child_foldl hrest hname, hanchored.child_eq, if_neg habsolute, slashed,
        if_neg hne, join_of_getLast? hne hlast (isAbsolute_slashed hrest hname)]
      simp only [String.append_assoc, String.empty_append]

/-- The files that a pattern of one component finds behind an escaped folder. -/
theorem files_folder (t : Tree) (dir : String) (ts : List Token) :
    PathPattern.files ⟨isAbsolute (dir ++ "/"), false,
      (folderPieces dir).map Segment.exactly ++ [.ofTokens ts]⟩ t =
        (((folders t dir).flatMap (search t · [.ofTokens ts])).filter t.isFile).mergeSort pathLe := by
  have hnames : ∀ s ∈ (folderPieces dir).map Segment.exactly, s ≠ .deep := by
    rintro s hs
    obtain ⟨name, -, rfl⟩ := List.mem_map.1 hs
    exact Segment.exactly_ne_deep name
  unfold PathPattern.files folders
  rw [← search_append hnames]
  rfl

end Gatehouse.Glob
