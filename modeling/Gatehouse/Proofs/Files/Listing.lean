import Gatehouse.Proofs.Glob.Deletion

/-!
# What stands directly in a folder

* `Tree.WellFormed` — a table of entries that is a tree: no place comes twice, the names can be
  names, and what stands in a place stands in a folder.
* `Tree.mem_namesIn`, `Tree.nodup_namesIn` — the names in a place are those of its entries, each of
  them once.
* `Tree.locate_child_iff` — where the path of an entry leads, told from where the folder is.
* `Tree.isFile_child_iff` — so it names a file exactly if the folder has a file of that name.
* `lastPiece_child` — the name of the entry is the last piece of its path.
* `opened` — the path of a folder with a single slash behind each of its names.  Names behind it have
  the components of the folder and then their own (`components_opened`), and lead to the same
  entries (`Tree.locate_opened`).
-/

namespace Gatehouse.Files

instance (name : String) : Decidable (IsName name) :=
  decidable_of_iff (name ≠ "" ∧ name ≠ "." ∧ name ≠ ".." ∧ '/' ∉ name.toList ∧ '\x00' ∉ name.toList)
    ⟨fun ⟨nonempty, here, up, slash, nul⟩ => ⟨nonempty, here, up, slash, nul⟩,
      fun h => ⟨h.nonempty, h.here, h.up, h.slash, h.nul⟩⟩

namespace Place

@[simp] theorem names_child (place : Place) (name : String) :
    (place.child name).names = place.names ++ [name] := rfl

@[simp] theorem parent_child (place : Place) (name : String) :
    (place.child name).parent = place := by
  obtain ⟨base, names⟩ := place
  cases names with
  | nil => cases base <;> rfl
  | cons n ns =>
    have hup : Place.parent ⟨base, n :: (ns ++ [name])⟩ = ⟨base, (n :: (ns ++ [name])).dropLast⟩ :=
      by cases base <;> rfl
    rw [child, List.cons_append, hup, ← List.cons_append, List.dropLast_concat]

end Place

namespace Tree

open Gatehouse.Glob

/-- A table of entries that is a tree of folders and files. -/
structure WellFormed (t : Tree) : Prop where
  /-- No place has two entries. -/
  distinct : (t.entries.map Prod.fst).Nodup
  /-- Entries have names. -/
  names : ∀ e ∈ t.entries, ∀ n ∈ e.1.names, IsName n
  /-- Every entry is in a folder. -/
  parents : ∀ e ∈ t.entries, t.entry? e.1.parent = some .folder

variable {t : Tree} {place q : Place} {path name : String}

theorem entry?_child (t : Tree) (place : Place) (name : String) :
    t.entry? (place.child name) = Keyed.get? (place.child name) t.entries := by
  unfold entry?
  rw [if_neg (by simp)]

namespace WellFormed

/-- What stands directly in a place stands in a folder. -/
theorem folder_of_child (h : t.WellFormed) (hchild : (t.entry? (place.child name)).isSome = true) :
    t.entry? place = some .folder := by
  obtain ⟨e, he⟩ := Option.isSome_iff_exists.1 hchild
  rw [entry?_child] at he
  have hfolder := h.parents _ (Keyed.mem_of_get? he)
  rwa [Place.parent_child] at hfolder

/-- What stands directly in a place has a name. -/
theorem isName_of_child (h : t.WellFormed) (hchild : (t.entry? (place.child name)).isSome = true) :
    IsName name := by
  obtain ⟨e, he⟩ := Option.isSome_iff_exists.1 hchild
  rw [entry?_child] at he
  exact h.names _ (Keyed.mem_of_get? he) name (by simp)

end WellFormed

/-! ## The names in a place -/

/-- The names in a place are those of its entries. -/
theorem mem_namesIn :
    name ∈ t.namesIn place ↔ (t.entry? (place.child name)).isSome = true := by
  rw [entry?_child, Keyed.isSome_get?_iff, namesIn, List.mem_filterMap, List.mem_map]
  constructor
  · rintro ⟨⟨p, e⟩, he, hname⟩
    dsimp only at hname
    split at hname
    · rename_i hparent
      refine ⟨⟨p, e⟩, he, ?_⟩
      rw [← hparent, Place.child_parent hname]
    · exact absurd hname (by simp)
  · rintro ⟨⟨p, e⟩, he, rfl⟩
    exact ⟨_, he, by simp⟩

/-- Each of them comes once. -/
theorem nodup_namesIn (h : t.WellFormed) (place : Place) : (t.namesIn place).Nodup := by
  -- The names, put behind the place, are places of entries in their order.
  have hsublist : ((t.namesIn place).map place.child).Sublist (t.entries.map Prod.fst) := by
    unfold namesIn
    induction t.entries with
    | nil => exact List.Sublist.refl _
    | cons e es ih =>
      obtain ⟨p, entry⟩ := e
      rw [List.filterMap_cons, List.map_cons]
      dsimp only
      split
      · exact ih.cons _
      · rename_i name hname
        have hp : place.child name = p := by
          split at hname
          · rename_i hparent
            rw [← hparent, Place.child_parent hname]
          · exact absurd hname (by simp)
        rw [List.map_cons, hp]
        exact ih.cons_cons _
  exact List.Pairwise.of_map place.child (fun _ _ hne hab => hne (congrArg _ hab))
    (hsublist.nodup h.distinct)

/-! ## The path of an entry -/

/-- Where a path inside a folder leads, the folder is there. -/
theorem exists_folder_of_locate_join {dir : String} (hdir : dir ≠ "")
    (hpath : isAbsolute path = false) (h : t.locate (join dir path) = .ok q) :
    ∃ place, t.locate dir = .ok place ∧ t.entry? place = some .folder := by
  obtain ⟨-, hnul, hfollow⟩ := locate_eq_ok_iff.1 h
  obtain ⟨before, hsteps, hbefore⟩ := steps_join hdir hpath
  have hstart : Place.start (join dir path) = Place.start dir := by
    rw [Place.start, Place.start, isAbsolute_join hdir hpath]
  have hdirNul : '\x00' ∉ dir.toList := by
    intro hmem
    refine hnul ?_
    unfold join
    rw [hpath, if_neg (by decide)]
    split <;> simp [hmem]
  rw [hsteps, hstart, follow_append] at hfollow
  cases hplace : t.follow (.start dir) before with
  | error fault => rw [hplace] at hfollow; exact absurd hfollow (by simp [Except.bind])
  | ok place =>
    rw [hplace] at hfollow
    -- The path asks for a step at least, so what it starts from is a folder.
    have hfolder : t.entry? place = some .folder := by
      cases hss : steps path with
      | nil => exact absurd hss (steps_ne_nil path)
      | cons step ss =>
        rw [hss] at hfollow
        dsimp only [Except.bind] at hfollow
        rw [follow] at hfollow
        cases hentry : t.entry? place with
        | none => rw [hentry] at hfollow; exact absurd hfollow (by simp)
        | some e =>
          cases e with
          | file bytes => rw [hentry] at hfollow; exact absurd hfollow (by simp)
          | folder => rfl
    refine ⟨place, locate_eq_ok_iff.2 ⟨hdir, hdirNul, ?_⟩, hfolder⟩
    rcases hbefore with hbefore | hbefore
    · rwa [hbefore]
    · rw [hbefore, follow_append, hplace]
      exact follow_here.2 ⟨rfl, hfolder⟩

/-- Where a path inside a folder leads, told from where the folder is. -/
theorem locate_join_eq_ok_iff {dir : String} (hdir : dir ≠ "") (hpath : isAbsolute path = false) :
    t.locate (join dir path) = .ok q ↔
      ∃ place, t.locate dir = .ok place ∧ t.entry? place = some .folder ∧
        '\x00' ∉ path.toList ∧ t.follow place (steps path) = .ok q := by
  constructor
  · intro h
    obtain ⟨place, hplace, hfolder⟩ := exists_folder_of_locate_join hdir hpath h
    exact ⟨place, hplace, hfolder, (locate_join hplace hpath).1 h⟩
  · rintro ⟨place, hplace, -, h⟩
    exact (locate_join hplace hpath).2 h

/-- Where the path of something inside a folder leads, told from where the folder is. -/
theorem locate_child_iff (hpath : path ≠ "") (hname : name ≠ "")
    (hrelative : isAbsolute name = false) :
    t.locate (child path name) = .ok q ↔
      ∃ place, t.locate path = .ok place ∧ t.entry? place = some .folder ∧
        '\x00' ∉ name.toList ∧ t.follow place (steps name) = .ok q := by
  unfold child
  split
  · rename_i hstart
    have hplaceOf : Place.start name = ⟨.above 0, []⟩ := by simp [Place.start, hrelative]
    rw [locate_of_isStart hstart, locate_eq_ok_iff, hplaceOf]
    simp [hname]
  · exact locate_join_eq_ok_iff hpath hrelative

theorem follow_nil (t : Tree) (place : Place) : t.follow place [] = .ok place := rfl

/-- A single name leads from a folder to the entry of that name, and dots lead to folders. -/
theorem follow_steps_of_notMem (hplace : t.entry? place = some .folder) (hname : name ≠ "")
    (hslash : '/' ∉ name.toList) (hnul : '\x00' ∉ name.toList) :
    t.follow place (steps name) = .ok q ↔
      (name = "." ∧ q = place) ∨ (name = ".." ∧ q = place.parent) ∨
        (IsName name ∧ (t.entry? (place.child name)).isSome = true ∧ q = place.child name) := by
  have hisName : IsName name ↔ name ≠ "." ∧ name ≠ ".." :=
    ⟨fun h => ⟨h.here, h.up⟩, fun h => ⟨hname, h.1, h.2, hslash, hnul⟩⟩
  rw [steps_of_notMem hname hslash, follow, hplace, hisName]
  dsimp only
  split_ifs with hhere hup hchild
  · simpa [hhere, follow_nil] using eq_comm
  · simpa [hup, follow_nil] using eq_comm
  · simpa [hhere, hup, hchild, follow_nil] using eq_comm
  · simp [hhere, hup, hchild]
  · simp [hhere, hup, hchild]

/-- Dots lead from a folder to folders. -/
theorem folder_of_follow_dots (h : t.Reachable place) (hplace : t.entry? place = some .folder)
    (hname : name = "." ∨ name = "..") (hfollow : t.follow place (steps name) = .ok q) :
    t.entry? q = some .folder := by
  obtain ⟨hne, hslash, hnul⟩ : name ≠ "" ∧ '/' ∉ name.toList ∧ '\x00' ∉ name.toList := by
    rcases hname with rfl | rfl <;> decide
  rcases (follow_steps_of_notMem hplace hne hslash hnul).1 hfollow with
    ⟨-, rfl⟩ | ⟨-, rfl⟩ | ⟨hisName, -, -⟩
  · exact hplace
  · exact h.entry?_parent hplace
  · exact absurd hname (by simp [hisName.here, hisName.up])

/-- The path of an entry leads to it exactly if the path of the folder leads to the folder. -/
theorem locate_child_eq_iff (h : t.WellFormed) (hpath : path ≠ "")
    (hthere : (t.entry? (place.child name)).isSome = true) :
    t.locate (child path name) = .ok (place.child name) ↔ t.locate path = .ok place := by
  have hname := h.isName_of_child hthere
  constructor
  · intro hlocate
    obtain ⟨place', hplace', hfolder, hnul, hfollow⟩ :=
      (locate_child_iff hpath hname.nonempty (isAbsolute_of_isName hname)).1 hlocate
    rcases (follow_steps_of_notMem hfolder hname.nonempty hname.slash hnul).1 hfollow with
      ⟨hhere, -⟩ | ⟨hup, -⟩ | ⟨-, -, hchild⟩
    · exact absurd hhere hname.here
    · exact absurd hup hname.up
    · have hparent := congrArg Place.parent hchild
      rw [Place.parent_child, Place.parent_child] at hparent
      rw [hparent, hplace']
  · intro hplace
    exact locate_child hplace (h.folder_of_child hthere) hname hthere

/-- The path of an entry of a folder names a file exactly if the folder has a file of that name. -/
theorem isFile_child_iff (h : t.WellFormed) (hpath : path ≠ "") (hname : name ≠ "")
    (hslash : '/' ∉ name.toList) :
    t.isFile (child path name) = true ↔ ∃ place bytes, t.locate path = .ok place ∧
      t.entry? (place.child name) = some (.file bytes) := by
  have hrelative := isAbsolute_of_notMem hslash
  rw [isFile_iff]
  constructor
  · rintro ⟨q, bytes, hq, hfile⟩
    obtain ⟨place, hplace, hfolder, hnul, hfollow⟩ :=
      (locate_child_iff hpath hname hrelative).1 hq
    by_cases hdots : name = "." ∨ name = ".."
    · have hq := folder_of_follow_dots (reachable_of_locate hplace) hfolder hdots hfollow
      exact absurd (hq.symm.trans hfile) (by simp)
    · rcases (follow_steps_of_notMem hfolder hname hslash hnul).1 hfollow with
        ⟨hhere, -⟩ | ⟨hup, -⟩ | ⟨-, -, rfl⟩
      · exact absurd (.inl hhere) hdots
      · exact absurd (.inr hup) hdots
      · exact ⟨place, bytes, hplace, hfile⟩
  · rintro ⟨place, bytes, hplace, hfile⟩
    have hthere := Option.isSome_of_eq_some hfile
    have hfolder := h.folder_of_child hthere
    exact ⟨_, bytes, locate_child hplace hfolder (h.isName_of_child hthere) hthere, hfile⟩

end Tree

/-! ## The name in a path -/

section Paths

open Gatehouse.Glob Gatehouse.Files.Tree

variable {path name : String}

theorem lastPiece_of_notMem (h : '/' ∉ name.toList) : lastPiece name = name := by
  rw [lastPiece, pieces_of_notMem h]
  rfl

theorem lastPiece_append (dir : String) (h : '/' ∉ name.toList) :
    lastPiece (dir ++ "/" ++ name) = name := by
  rw [lastPiece, pieces_append, pieces_of_notMem h, List.getLastD_concat]

theorem join_of_getLast? {dir : String} (hdir : dir ≠ "") (hlast : dir.toList.getLast? ≠ some '/')
    (hpath : isAbsolute path = false) : join dir path = dir ++ "/" ++ path := by
  rw [join, hpath, if_neg (by decide), if_neg (not_or.2 ⟨hdir, hlast⟩)]

/-- The path of something inside a folder is written with a slash before it. -/
theorem exists_join_eq {dir : String} (hdir : dir ≠ "") :
    ∃ front, (pieces dir = pieces front ∨ pieces dir = pieces front ++ [""]) ∧
      ∀ path, isAbsolute path = false → join dir path = front ++ "/" ++ path := by
  by_cases hslash : dir.toList.getLast? = some '/'
  · obtain ⟨front, hfront⟩ := List.getLast?_eq_some_iff.1 hslash
    have htext : dir = String.ofList front ++ "/" := by
      rw [← String.toList_inj, hfront]
      simp
    refine ⟨String.ofList front, .inr ?_, fun path hpath => ?_⟩
    · have happend := pieces_append (String.ofList front) ""
      rwa [String.append_empty, ← htext] at happend
    · rw [join, hpath, if_neg (by decide), if_pos (.inr hslash), ← htext]
  · exact ⟨dir, .inl rfl, fun path hpath => join_of_getLast? hdir hslash hpath⟩

/-- The last piece of the path of an entry is its name. -/
theorem lastPiece_child (hpath : path ≠ "") (h : '/' ∉ name.toList) :
    lastPiece (child path name) = name := by
  unfold child
  split
  · exact lastPiece_of_notMem h
  · obtain ⟨front, -, hjoin⟩ := exists_join_eq hpath
    rw [hjoin name (isAbsolute_of_notMem h), lastPiece_append front h]

/-! ## Paths with the same pieces -/

theorem mem_toList_iff {c : Char} (hc : c ≠ '/') :
    c ∈ path.toList ↔ ∃ p ∈ (pieces path).filter (· != ""), c ∈ p.toList := by
  constructor
  · intro h
    obtain ⟨p, hp, hmem⟩ := (mem_iff_exists_piece hc).1 h
    refine ⟨String.ofList p, List.mem_filter.2 ⟨List.mem_map_of_mem hp, ?_⟩, by simpa using hmem⟩
    have hne : p ≠ [] := List.ne_nil_of_mem hmem
    simpa using hne
  · rintro ⟨p, hp, hmem⟩
    obtain ⟨cs, hcs, rfl⟩ := List.mem_map.1 (List.mem_filter.1 hp).1
    exact (mem_iff_exists_piece hc).2 ⟨cs, hcs, by simpa using hmem⟩

/-- Where a path leads depends on where it starts, on its pieces that are not empty and on whether
it ends with a slash. -/
theorem Tree.locate_congr (t : Tree) {a b : String} (ha : a ≠ "") (hb : b ≠ "")
    (hstart : isAbsolute a = isAbsolute b)
    (hpieces : (pieces a).filter (· != "") = (pieces b).filter (· != ""))
    (hlast : (pieces a).getLast? = (pieces b).getLast?) : t.locate a = t.locate b := by
  have hnul : '\x00' ∈ a.toList ↔ '\x00' ∈ b.toList := by
    rw [mem_toList_iff (by decide), mem_toList_iff (by decide), hpieces]
  have hsteps : steps a = steps b := by rw [steps, steps, hpieces, hlast]
  unfold locate
  rw [if_neg ha, if_neg hb, hsteps, Place.start, Place.start, hstart]
  by_cases h : '\x00' ∈ b.toList
  · rw [if_pos h, if_pos (hnul.2 h)]
  · rw [if_neg h, if_neg fun h' => h (hnul.1 h')]

/-- Pieces with a slash behind each, without those that are empty. -/
def slashed : List String → String
  | [] => ""
  | p :: ps => if p = "" then slashed ps else p ++ "/" ++ slashed ps

/-- The path of a folder with a single slash behind each of its names. -/
def opened (dir : String) : String :=
  (if isAbsolute dir then "/" else "") ++ slashed (pieces dir)

theorem pieces_slashed {ps : List String} (hps : ∀ p ∈ ps, '/' ∉ p.toList)
    (hname : '/' ∉ name.toList) : pieces (slashed ps ++ name) = ps.filter (· != "") ++ [name] := by
  induction ps with
  | nil => simpa [slashed] using pieces_of_notMem hname
  | cons p ps ih =>
    obtain ⟨hp, hps⟩ := List.forall_mem_cons.1 hps
    by_cases hempty : p = ""
    · simpa [slashed, hempty] using ih hps
    · rw [slashed, if_neg hempty, String.append_assoc, pieces_append, ih hps, pieces_of_notMem hp]
      simp [hempty]

theorem isAbsolute_slashed {ps : List String} (hps : ∀ p ∈ ps, '/' ∉ p.toList)
    (hname : '/' ∉ name.toList) : isAbsolute (slashed ps ++ name) = false := by
  induction ps with
  | nil => simpa [slashed] using isAbsolute_of_notMem hname
  | cons p ps ih =>
    obtain ⟨hp, hps⟩ := List.forall_mem_cons.1 hps
    by_cases hempty : p = ""
    · simpa [slashed, hempty] using ih hps
    · rw [slashed, if_neg hempty, String.append_assoc, String.append_assoc,
        Tree.isAbsolute_append hempty]
      exact isAbsolute_of_notMem hp

/-- A folder's path with a single slash behind each of its names has the same pieces, apart from
those that are empty. -/
theorem pieces_opened (dir : String) (hname : '/' ∉ name.toList) :
    pieces (opened dir ++ name) =
      (if isAbsolute dir then [""] else []) ++ (pieces dir).filter (· != "") ++ [name] := by
  have hps : ∀ p ∈ pieces dir, '/' ∉ p.toList := fun p => notMem_of_mem_pieces
  unfold opened
  split
  · have hsplit := pieces_append "" (slashed (pieces dir) ++ name)
    rw [String.empty_append, pieces_slashed hps hname] at hsplit
    rw [String.append_assoc, hsplit, List.append_assoc]
    rfl
  · rw [String.empty_append, pieces_slashed hps hname, List.nil_append]

theorem isAbsolute_opened (dir : String) (hname : '/' ∉ name.toList) :
    isAbsolute (opened dir ++ name) = isAbsolute dir := by
  unfold opened
  split
  · rename_i habsolute
    rw [habsolute, String.append_assoc, Tree.isAbsolute_append (by decide)]
    rfl
  · rename_i habsolute
    rw [String.empty_append, isAbsolute_slashed (fun p => notMem_of_mem_pieces) hname,
      Bool.eq_false_iff.2 habsolute]

/-- A folder is the same with a single slash behind each of its names. -/
theorem Tree.locate_opened (t : Tree) {dir : String} (hdir : dir ≠ "") (hempty : name ≠ "")
    (hname : '/' ∉ name.toList) : t.locate (opened dir ++ name) = t.locate (join dir name) := by
  have hrelative := isAbsolute_of_notMem hname
  obtain ⟨front, hfront, hjoin⟩ := exists_join_eq hdir
  have hpieces : pieces (join dir name) = pieces front ++ [name] := by
    rw [hjoin name hrelative, pieces_append, pieces_of_notMem hname]
  have hfilter : (pieces front).filter (· != "") = (pieces dir).filter (· != "") := by
    rcases hfront with h | h <;> rw [h]
    simp
  refine t.locate_congr ?_ ?_ ?_ ?_ ?_
  · simp [hempty]
  · rw [hjoin name hrelative]
    simp [hempty]
  · rw [isAbsolute_opened dir hname, isAbsolute_join hdir hrelative]
  · rw [pieces_opened dir hname, hpieces]
    split <;> simp [hempty, hfilter]
  · rw [pieces_opened dir hname, hpieces, List.getLast?_concat, List.getLast?_concat]

/-- An absolute path starts with an empty piece, and no other path but the empty one does. -/
theorem exists_pieces_eq {dir : String} (hdir : dir ≠ "") :
    ∃ first rest, pieces dir = first :: rest ∧ (first = "" ↔ isAbsolute dir = true) ∧
      (first = "" → rest ≠ []) := by
  cases hchars : dir.toList with
  | nil => exact absurd (by simpa using hchars) hdir
  | cons c cs =>
    have habsolute : isAbsolute dir = true ↔ c = '/' := by simp [isAbsolute, hchars]
    rw [habsolute, pieces, hchars, List.splitOn_cons_eq_if_modifyHead]
    split
    · rename_i hc
      exact ⟨"", _, rfl, by simpa using hc, fun _ => by simp⟩
    · rename_i hc
      obtain ⟨p, ps, hcs⟩ := List.exists_cons_of_ne_nil (List.splitOn_ne_nil '/' cs)
      rw [hcs]
      exact ⟨String.ofList (c :: p), _, rfl, by simpa using hc, by simp⟩

/-- The path of an entry has the components of the folder and then its name. -/
theorem components_opened {dir : String} (hdir : dir ≠ "") (h : IsName name) :
    components (opened dir ++ name) = components dir ++ [.name name] := by
  have hpiece : Component.ofPiece? name = some (.name name) := by
    simp [Component.ofPiece?, h.nonempty, h.here, h.up]
  have hfilter : ∀ ps : List String,
      (ps.filter (· != "")).filterMap Component.ofPiece? = ps.filterMap Component.ofPiece? := by
    intro ps
    induction ps with
    | nil => rfl
    | cons p ps ih =>
      by_cases hp : p = ""
      · simpa [hp, Component.ofPiece?] using ih
      · simp [hp, List.filterMap_cons, ih]
  obtain ⟨first, rest, hpieces, hfirst, hrest⟩ := exists_pieces_eq hdir
  unfold components
  rw [pieces_opened dir h.slash, hpieces]
  by_cases hempty : first = ""
  · rw [if_pos (hfirst.1 hempty)]
    simp [hempty, hrest hempty, hpiece, hfilter, List.filterMap_append]
  · rw [if_neg fun habsolute => hempty (hfirst.2 habsolute)]
    simp [hempty, hpiece, hfilter, List.filterMap_append]

end Paths

end Gatehouse.Files
