import Gatehouse.Files.Tree
import Gatehouse.Proofs.Text.Utf8

/-!
# Walking to a place

A path is followed step by step, and what is behind a folder is found by following what is left.

* `pieces_append`, `steps_join` — the steps of a path inside a folder are those of the folder and
  then those of the path.
* `Tree.locate_join` — so a path inside a folder leads where its steps lead from that folder.
* `Tree.Reachable` — a place that is there, with all the folders on the way and with names that can
  be steps.  Paths lead to no other places (`Tree.reachable_of_locate`).
* `Tree.readText_of_find?` — what is read where a path leads to the bytes of a text.
-/

namespace Gatehouse.Files

/-! ## Pieces -/

/-- What is in a text of pieces with separators between them is a separator or in a piece. -/
theorem mem_intercalate_iff {c separator : Char} (h : c ≠ separator) {ps : List (List Char)} :
    c ∈ [separator].intercalate ps ↔ ∃ p ∈ ps, c ∈ p := by
  induction ps with
  | nil => simp
  | cons p ps ih =>
    cases ps with
    | nil => simp
    | cons q qs =>
      rw [List.intercalate_cons_cons, List.mem_append, List.mem_append, ih]
      simp [h]

theorem notMem_of_mem_splitOn {separator : Char} {s p : List Char}
    (h : p ∈ s.splitOn separator) : separator ∉ p := by
  induction s generalizing p with
  | nil =>
    obtain rfl := List.mem_singleton.1 h
    exact List.not_mem_nil
  | cons c s ih =>
    rw [List.splitOn_cons_eq_if_modifyHead] at h
    split at h
    · rcases List.mem_cons.1 h with rfl | h
      · exact List.not_mem_nil
      · exact ih h
    · rename_i hc
      obtain ⟨q, qs, hs⟩ := List.exists_cons_of_ne_nil (List.splitOn_ne_nil separator s)
      rw [hs, List.modifyHead_cons] at h
      rw [hs] at ih
      rcases List.mem_cons.1 h with rfl | h
      · rw [List.mem_cons, not_or]
        exact ⟨fun hsep => hc (beq_iff_eq.2 hsep.symm), ih List.mem_cons_self⟩
      · exact ih (List.mem_cons_of_mem _ h)

/-- The last piece is empty only after a separator, or in the empty text. -/
theorem getLast?_splitOn {separator : Char} {s : List Char} (hs : s ≠ [])
    (hlast : s.getLast? ≠ some separator) : (s.splitOn separator).getLast? ≠ some [] := by
  induction s with
  | nil => exact absurd rfl hs
  | cons c s ih =>
    rw [List.splitOn_cons_eq_if_modifyHead]
    cases s with
    | nil =>
      have hc : c ≠ separator := by simpa using hlast
      simp [hc]
    | cons d s =>
      have hrest := ih (List.cons_ne_nil _ _) (by rwa [List.getLast?_cons_cons] at hlast)
      obtain ⟨p, ps, hsplit⟩ :=
        List.exists_cons_of_ne_nil (List.splitOn_ne_nil separator (d :: s))
      rw [hsplit] at hrest ⊢
      split
      · rwa [List.getLast?_cons_cons]
      · cases ps with
        | nil => simp
        | cons q qs =>
          rw [List.getLast?_cons_cons] at hrest
          rwa [List.modifyHead_cons, List.getLast?_cons_cons]

/-- What is in a text, apart from separators, is what is in its pieces. -/
theorem mem_iff_exists_piece {c separator : Char} (h : c ≠ separator) {s : List Char} :
    c ∈ s ↔ ∃ p ∈ s.splitOn separator, c ∈ p := by
  rw [← mem_intercalate_iff h, List.intercalate_splitOn]

theorem mem_of_mem_splitOn {separator c : Char} {s p : List Char}
    (h : p ∈ s.splitOn separator) (hc : c ∈ p) : c ∈ s := by
  have hne : c ≠ separator := by
    rintro rfl
    exact notMem_of_mem_splitOn h hc
  exact (mem_iff_exists_piece hne).2 ⟨p, h, hc⟩

theorem pieces_append (a b : String) : pieces (a ++ "/" ++ b) = pieces a ++ pieces b := by
  have htext : (a ++ "/" ++ b).toList = a.toList ++ '/' :: b.toList := by simp
  rw [pieces, htext, List.splitOn_append_cons_self, List.map_append]
  rfl

theorem pieces_ne_nil (path : String) : pieces path ≠ [] := by
  intro h
  exact List.splitOn_ne_nil _ _ (List.map_eq_nil_iff.1 h)

theorem pieces_of_notMem {name : String} (h : '/' ∉ name.toList) : pieces name = [name] := by
  rw [pieces, List.splitOn_eq_singleton h, List.map_singleton, String.ofList_toList]

theorem notMem_of_mem_pieces {path p : String} (h : p ∈ pieces path) : '/' ∉ p.toList := by
  obtain ⟨cs, hcs, rfl⟩ := List.mem_map.1 h
  rw [String.toList_ofList]
  exact notMem_of_mem_splitOn hcs

/-- A text that can be the name of an entry. -/
structure IsName (name : String) : Prop where
  /-- The name is not empty. -/
  nonempty : name ≠ ""
  /-- It is not the name of the folder that it is in. -/
  here : name ≠ "."
  /-- It is not the name of the folder above. -/
  up : name ≠ ".."
  /-- It has no slash. -/
  slash : '/' ∉ name.toList
  /-- It does not have the character with code zero. -/
  nul : '\x00' ∉ name.toList

/-! ## Places -/

namespace Place

/-- The last name of a place leads to it from the folder that it is in. -/
theorem child_parent {p : Place} {name : String} (h : p.names.getLast? = some name) :
    p.parent.child name = p := by
  obtain ⟨base, names⟩ := p
  obtain ⟨front, rfl⟩ := List.getLast?_eq_some_iff.1 h
  cases front with
  | nil => cases base <;> rfl
  | cons n ns =>
    have hup : Place.parent ⟨base, n :: ns ++ [name]⟩ = ⟨base, (n :: ns ++ [name]).dropLast⟩ := by
      cases base <;> rfl
    rw [hup, List.dropLast_concat]
    rfl

/-- What is below a place has its names first. -/
theorem eq_append_of_within {p place : Place} (h : p.within place = true) :
    p = { place with names := place.names ++ p.names.drop place.names.length } := by
  obtain ⟨base, names⟩ := p
  rw [within, Bool.and_eq_true, beq_iff_eq, List.isPrefixOf_iff_prefix] at h
  obtain ⟨rfl, hprefix⟩ := h
  rw [Place.mk.injEq]
  exact ⟨rfl, (List.prefix_iff_eq_append.1 hprefix).symm⟩

end Place

/-! ## Steps -/

namespace Tree

theorem steps_of_notMem {name : String} (hne : name ≠ "") (h : '/' ∉ name.toList) :
    steps name = [name] := by
  simp [steps, pieces_of_notMem h, hne]

theorem steps_name {name : String} (h : IsName name) : steps name = [name] :=
  steps_of_notMem h.nonempty h.slash

/-- Every path asks for a step. -/
theorem steps_ne_nil (path : String) : steps path ≠ [] := by
  unfold steps
  intro h
  obtain ⟨hfilter, hlast⟩ := List.append_eq_nil_iff.1 h
  have hne : (pieces path).getLast? ≠ some "" := fun hlast' => by simp [hlast'] at hlast
  obtain ⟨p, hp⟩ := Option.isSome_iff_exists.1 (List.getLast?_isSome.2 (pieces_ne_nil path))
  have hmem := List.filter_eq_nil_iff.1 hfilter p (List.mem_of_getLast? hp)
  obtain rfl : p = "" := by simpa using hmem
  exact hne hp

/-- A step is not empty and has no slash. -/
theorem mem_steps {path step : String} (hnul : '\x00' ∉ path.toList) (h : step ∈ steps path) :
    step ≠ "" ∧ '/' ∉ step.toList ∧ '\x00' ∉ step.toList := by
  rcases List.mem_append.1 h with h | h
  · obtain ⟨hmem, hne⟩ := List.mem_filter.1 h
    obtain ⟨p, hp, rfl⟩ := List.mem_map.1 hmem
    rw [String.toList_ofList]
    exact ⟨by simpa using hne, notMem_of_mem_splitOn hp, fun hc => hnul (mem_of_mem_splitOn hp hc)⟩
  · split at h
    · obtain rfl := List.mem_singleton.1 h
      decide
    · exact absurd h List.not_mem_nil

/-- The steps of a path inside a folder are those of the folder, except for the one that a slash at
its end asks for, and then those of the path. -/
theorem steps_join {dir path : String} (hdir : dir ≠ "") (hpath : isAbsolute path = false) :
    ∃ before, steps (join dir path) = before ++ steps path ∧
      (steps dir = before ∨ steps dir = before ++ ["."]) := by
  have happend : ∀ a : String,
      steps (a ++ "/" ++ path) = (pieces a).filter (· != "") ++ steps path := by
    intro a
    obtain ⟨p, hp⟩ := Option.isSome_iff_exists.1 (List.getLast?_isSome.2 (pieces_ne_nil path))
    rw [steps, steps, pieces_append, List.filter_append, List.append_assoc]
    simp [List.getLast?_append, hp]
  unfold join
  rw [hpath, if_neg (by decide)]
  split
  · rename_i hslash
    -- The folder is written with a slash at its end.
    obtain ⟨front, hfront⟩ := List.getLast?_eq_some_iff.1 (hslash.resolve_left hdir)
    have htext : dir = String.ofList front ++ "/" := by
      rw [← String.toList_inj, hfront]
      simp
    refine ⟨(pieces (String.ofList front)).filter (· != ""), ?_, .inr ?_⟩
    · rw [htext, happend]
    · have hempty : pieces "" = [""] := by decide
      have hpieces : pieces dir = pieces (String.ofList front) ++ [""] := by
        rw [← hempty, ← pieces_append, htext]
        simp
      simp [steps, hpieces]
  · rename_i hslash
    refine ⟨(pieces dir).filter (· != ""), happend dir, .inl ?_⟩
    rw [not_or] at hslash
    have hlast : (pieces dir).getLast? ≠ some "" := by
      intro h
      rw [pieces, List.getLast?_map, Option.map_eq_some_iff] at h
      obtain ⟨p, hp, hempty⟩ := h
      obtain rfl : p = [] := by simpa using congrArg String.toList hempty
      refine getLast?_splitOn ?_ hslash.2 hp
      simpa using hdir
    simp [steps, hlast]

/-! ## Following steps -/

variable {t : Tree} {place q : Place}

@[simp] theorem entry?_of_names_eq_nil (t : Tree) (base : Base) :
    t.entry? ⟨base, []⟩ = some .folder := rfl

theorem follow_append (t : Tree) (place : Place) (ss rs : List String) :
    t.follow place (ss ++ rs) = (t.follow place ss).bind (t.follow · rs) := by
  induction ss generalizing place with
  | nil => rfl
  | cons step ss ih =>
    rw [List.cons_append, follow, follow]
    cases t.entry? place with
    | none => rfl
    | some e =>
      cases e with
      | file bytes => rfl
      | folder =>
        dsimp only
        split_ifs
        · exact ih _
        · exact ih _
        · exact ih _
        · rfl
        · rfl

/-- Nothing is followed from what is no folder. -/
theorem follow_file {bytes : List UInt8} (h : t.entry? place = some (.file bytes))
    {ss : List String} (hss : ss ≠ []) : t.follow place ss = .error .notFolder := by
  cases ss with
  | nil => exact absurd rfl hss
  | cons step ss => rw [follow, h]

theorem eq_of_follow_file {bytes : List UInt8} (h : t.entry? place = some (.file bytes))
    {ss : List String} (hfollow : t.follow place ss = .ok q) : q = place := by
  by_cases hss : ss = []
  · rw [hss] at hfollow
    exact (Except.ok.inj hfollow).symm
  · rw [follow_file h hss] at hfollow
    exact absurd hfollow (by simp)

/-- A dot stays where it is, if that is a folder. -/
theorem follow_here : t.follow place ["."] = .ok q ↔
    q = place ∧ t.entry? place = some .folder := by
  rw [follow]
  cases h : t.entry? place with
  | none => simp
  | some e => cases e <;> simp [follow, eq_comm]

theorem follow_dots (hplace : t.entry? place = some .folder) {ss : List String}
    (hss : ∀ s ∈ ss, s = ".") : t.follow place ss = .ok place := by
  induction ss with
  | nil => rfl
  | cons s ss ih =>
    obtain ⟨hdot, hrest⟩ := List.forall_mem_cons.1 hss
    rw [follow, hplace, hdot]
    exact ih hrest

/-- A name leads to the entry of that name, if there is one. -/
theorem follow_name {name : String} (hname : IsName name) (hplace : t.entry? place = some .folder)
    (hchild : (t.entry? (place.child name)).isSome = true) :
    t.follow place [name] = .ok (place.child name) := by
  rw [follow, hplace]
  dsimp only
  rw [if_neg hname.here, if_neg hname.up, if_pos hchild, follow]

/-- Where a path leads, told by its steps. -/
theorem locate_eq_ok_iff {path : String} :
    t.locate path = .ok q ↔
      path ≠ "" ∧ '\x00' ∉ path.toList ∧ t.follow (.start path) (steps path) = .ok q := by
  unfold locate
  by_cases hempty : path = ""
  · simp [hempty]
  · by_cases hnul : '\x00' ∈ path.toList <;> simp [hempty, hnul]

theorem isAbsolute_eq_false {path : String} (h : ∀ cs, path.toList ≠ '/' :: cs) :
    isAbsolute path = false := by
  unfold isAbsolute
  cases hchars : path.toList with
  | nil => rfl
  | cons c cs =>
    have hc : c ≠ '/' := by
      rintro rfl
      exact h cs hchars
    simpa using hc

theorem isAbsolute_of_notMem {name : String} (h : '/' ∉ name.toList) : isAbsolute name = false :=
  isAbsolute_eq_false fun _ hchars => h (hchars ▸ List.mem_cons_self)

theorem isAbsolute_append {a : String} (ha : a ≠ "") (b : String) :
    isAbsolute (a ++ b) = isAbsolute a := by
  have hne : a.toList ≠ [] := by simpa using ha
  rw [isAbsolute, isAbsolute, String.toList_append]
  cases h : a.toList with
  | nil => exact absurd h hne
  | cons c cs => rfl

theorem isAbsolute_join {dir path : String} (hdir : dir ≠ "") (hpath : isAbsolute path = false) :
    isAbsolute (join dir path) = isAbsolute dir := by
  unfold join
  rw [hpath, if_neg (by decide)]
  split
  · exact isAbsolute_append hdir path
  · rw [String.append_assoc, isAbsolute_append hdir]

/-- A path inside a folder leads where its steps lead from there. -/
theorem locate_join {dir path : String} (h : t.locate dir = .ok place)
    (hpath : isAbsolute path = false) :
    t.locate (join dir path) = .ok q ↔
      '\x00' ∉ path.toList ∧ t.follow place (steps path) = .ok q := by
  obtain ⟨hdir, hnul, hfollow⟩ := locate_eq_ok_iff.1 h
  obtain ⟨before, hsteps, hbefore⟩ := steps_join hdir hpath
  have hreached : t.follow (.start dir) before = .ok place := by
    rcases hbefore with hbefore | hbefore
    · rwa [hbefore] at hfollow
    · rw [hbefore, follow_append] at hfollow
      cases hp : t.follow (.start dir) before with
      | error fault => rw [hp] at hfollow; exact absurd hfollow (by simp [Except.bind])
      | ok p =>
        rw [hp] at hfollow
        obtain ⟨rfl, -⟩ := follow_here.1 hfollow
        rfl
  have hstart : Place.start (join dir path) = Place.start dir := by
    rw [Place.start, Place.start, isAbsolute_join hdir hpath]
  have hchars : '\x00' ∈ (join dir path).toList ↔ '\x00' ∈ path.toList := by
    unfold join
    rw [hpath, if_neg (by decide)]
    split <;> simp [hnul]
  have hne : join dir path ≠ "" := by
    unfold join
    rw [hpath, if_neg (by decide)]
    split <;> simp [hdir]
  rw [locate_eq_ok_iff, hchars, hstart, hsteps, follow_append, hreached]
  simp [hne, Except.bind]

/-- A path names a file exactly if it leads to one. -/
theorem isFile_iff {path : String} :
    t.isFile path = true ↔
      ∃ place bytes, t.locate path = .ok place ∧ t.entry? place = some (.file bytes) := by
  unfold isFile find?
  cases t.locate path with
  | error fault => simp
  | ok place =>
    dsimp only
    cases hentry : t.entry? place with
    | none => simp [hentry]
    | some e => cases e <;> simp [hentry]

/-- A path names a folder exactly if it leads to one. -/
theorem isFolder_iff {path : String} : t.isFolder path = true ↔
    ∃ place, t.locate path = .ok place ∧ t.entry? place = some .folder := by
  unfold isFolder find?
  cases t.locate path <;> simp

/-! ## Places that can be reached -/

/-- A place that is there, with the folders that lead to it, and with names that can be steps. -/
structure Reachable (t : Tree) (place : Place) : Prop where
  /-- The names can be steps. -/
  names : ∀ n ∈ place.names, IsName n
  /-- The folders on the way are there. -/
  folders : ∀ k < place.names.length,
    t.entry? { place with names := place.names.take k } = some .folder
  /-- Something is there. -/
  there : (t.entry? place).isSome = true

theorem reachable_of_nil (t : Tree) (base : Base) : t.Reachable ⟨base, []⟩ where
  names _ hn := absurd hn List.not_mem_nil
  folders k hk := absurd hk (Nat.not_lt_zero k)
  there := rfl

theorem reachable_start (t : Tree) (path : String) : t.Reachable (.start path) :=
  reachable_of_nil t _

theorem Reachable.child (h : t.Reachable place) (hplace : t.entry? place = some .folder)
    {name : String} (hname : IsName name) (hchild : (t.entry? (place.child name)).isSome = true) :
    t.Reachable (place.child name) where
  names n hn := by
    rcases List.mem_append.1 hn with hn | hn
    · exact h.names n hn
    · exact List.mem_singleton.1 hn ▸ hname
  folders k hk := by
    have hk' : k ≤ place.names.length := by simpa [Place.child, Nat.lt_succ_iff] using hk
    simp only [Place.child, List.take_append_of_le_length hk']
    rcases Nat.lt_or_eq_of_le hk' with hlt | rfl
    · exact h.folders k hlt
    · rw [List.take_length]
      exact hplace
  there := hchild

/-- Where something is below a place, a folder stands there. -/
theorem Reachable.entry?_of_append {ns : List String}
    (h : t.Reachable { place with names := place.names ++ ns }) (hns : ns ≠ []) :
    t.entry? place = some .folder := by
  have hlength : 0 < ns.length := List.length_pos_iff.2 hns
  simpa using h.folders place.names.length (by simpa using hlength)

theorem Reachable.of_append {ns : List String}
    (h : t.Reachable { place with names := place.names ++ ns }) : t.Reachable place where
  names n hn := h.names n (List.mem_append_left _ hn)
  folders k hk := by
    have hfolder := h.folders k (by simp; omega)
    rwa [List.take_append_of_le_length (Nat.le_of_lt hk)] at hfolder
  there := by
    by_cases hns : ns = []
    · have hthere := h.there
      rwa [hns, List.append_nil] at hthere
    · rw [h.entry?_of_append hns]
      rfl

/-- The folder that a place is in is a folder. -/
theorem Reachable.entry?_parent (h : t.Reachable place) (hplace : t.entry? place = some .folder) :
    t.entry? place.parent = some .folder := by
  obtain ⟨base, names⟩ := place
  cases names with
  | nil => cases base <;> rfl
  | cons n ns =>
    have hlast : (n :: ns).dropLast = (n :: ns).take ns.length := by
      rw [List.dropLast_eq_take]
      rfl
    have hfolder := h.folders ns.length (by simp)
    rw [← hlast] at hfolder
    cases base <;> exact hfolder

theorem Reachable.parent (h : t.Reachable place) (hplace : t.entry? place = some .folder) :
    t.Reachable place.parent := by
  obtain ⟨base, names⟩ := place
  cases names with
  | nil => cases base <;> exact reachable_of_nil t _
  | cons n ns =>
    have hup : Place.parent ⟨base, n :: ns⟩ = ⟨base, (n :: ns).dropLast⟩ := by cases base <;> rfl
    have hthere := h.entry?_parent hplace
    rw [hup] at hthere ⊢
    refine ⟨fun m hm => h.names m ((List.dropLast_sublist _).subset hm), fun k hk => ?_,
      Option.isSome_iff_exists.2 ⟨_, hthere⟩⟩
    have hk' : k < ns.length := by simpa using hk
    have hfolder := h.folders k (Nat.lt_succ_of_lt hk')
    have htake : (n :: ns).dropLast.take k = (n :: ns).take k := by
      rw [List.dropLast_eq_take, List.take_take, Nat.min_eq_left (by simp; omega)]
    simpa [htake] using hfolder

/-- Steps lead from places that can be reached to places that can be reached. -/
theorem Reachable.follow (h : t.Reachable place) {ss : List String}
    (hss : ∀ s ∈ ss, s ≠ "" ∧ '/' ∉ s.toList ∧ '\x00' ∉ s.toList)
    (hfollow : t.follow place ss = .ok q) : t.Reachable q := by
  induction ss generalizing place with
  | nil =>
    obtain rfl := Except.ok.inj hfollow
    exact h
  | cons step ss ih =>
    obtain ⟨⟨hempty, hslash, hnul⟩, hss⟩ := List.forall_mem_cons.1 hss
    rw [Tree.follow] at hfollow
    cases hplace : t.entry? place with
    | none => rw [hplace] at hfollow; exact absurd hfollow (by simp)
    | some e =>
      cases e with
      | file bytes => rw [hplace] at hfollow; exact absurd hfollow (by simp)
      | folder =>
        rw [hplace] at hfollow
        dsimp only at hfollow
        split_ifs at hfollow with hhere hup hchild
        · exact ih h hss hfollow
        · exact ih (h.parent hplace) hss hfollow
        · exact ih (h.child hplace ⟨hempty, hhere, hup, hslash, hnul⟩ hchild) hss hfollow

/-- A path leads only to places that can be reached. -/
theorem reachable_of_locate {path : String} (h : t.locate path = .ok q) : t.Reachable q := by
  obtain ⟨-, hnul, hfollow⟩ := locate_eq_ok_iff.1 h
  exact (reachable_start t path).follow (fun s hs => mem_steps hnul hs) hfollow

/-! ## Reading -/

/-- What a path names is what is read. -/
theorem readText_eq_textOf {path : String} {e : Entry} (h : t.find? path = some e) :
    t.readText path = textOf e := by
  unfold find? at h
  unfold readText
  split at h
  · rename_i place hplace
    rw [hplace]
    simp only [h]
  · exact absurd h (by simp)

/-- A file with the bytes of a text is read as that text. -/
theorem readText_of_find? {path text : String}
    (h : t.find? path = some (.file text.toUTF8.toList)) : t.readText path = .ok text := by
  rw [readText_eq_textOf h]
  simp only [textOf, Text.decode?_toUTF8, String.ofList_toList]

end Tree

end Gatehouse.Files
