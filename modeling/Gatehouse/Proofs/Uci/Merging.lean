import Gatehouse.Proofs.Uci.Written

/-!
# Sections in several pieces

A section that has a name can be written in several pieces, with pieces of other sections between
them.

* `Directive.ofLines?` — the directives on lines; `Reading.reads_iff` says that nothing else of the
  lines matters.
* `openings` — the names that are given and the type that comes with the first of each, and
  `belonging` — the directives that stand under a name.
* `sectionsAfter` — what becomes of each section that is there already, and which sections come
  after them; `Reading.sectionsAfter_step` follows it through one directive, and
  `Reading.sections_of_foldlM` through all of them.
* `gathered` — the same directives with each section in one piece.

`parse_merged` says which package is read, and that it is the same when each section is written in
one piece.
-/

namespace Gatehouse.Uci

open Gatehouse.Text

/-! ## What lines ask for -/

/-- The directives on lines, if each line can be read. -/
def Directive.ofLines? : List (List Char) → Except LineFault (List Directive)
  | [] => .ok []
  | line :: rest =>
    match ofLine? line with
    | .error fault => .error fault
    | .ok d => (d.toList ++ ·) <$> ofLines? rest

open Directive

variable {ls : List (List Char)} {ds : List Directive}

theorem ofLines?_cons_eq_ok_iff {line : List Char} {rest : List (List Char)} :
    ofLines? (line :: rest) = .ok ds ↔
      ∃ d ds', ofLine? line = .ok d ∧ ofLines? rest = .ok ds' ∧ ds = d.toList ++ ds' := by
  rw [ofLines?]
  cases ofLine? line with
  | error fault => simp
  | ok d => cases ofLines? rest <;> simp [eq_comm]

/-- A directive on lines stands on one of them. -/
theorem mem_ofLines?_iff (h : ofLines? ls = .ok ds) {d : Directive} :
    d ∈ ds ↔ ∃ l ∈ ls, ofLine? l = .ok (some d) := by
  induction ls generalizing ds with
  | nil =>
    obtain rfl := Except.ok.inj h
    simp
  | cons line rest ih =>
    obtain ⟨o, ds', hline, hrest, rfl⟩ := ofLines?_cons_eq_ok_iff.1 h
    rw [List.mem_append, Option.mem_toList, ih hrest, List.exists_mem_cons_iff, hline]
    simp

theorem ofLines?_lines (style : KeywordStyle) (ds : List Directive) :
    ofLines? (ds.map (·.line style)) = .ok ds := by
  induction ds with
  | nil => rfl
  | cons d ds ih => exact ofLines?_cons_eq_ok_iff.2 ⟨some d, ds, ofLine?_line style d, ih, rfl⟩

namespace Reading

variable {r r' : Reading}

theorem step_of_ofLine? {line : List Char} {d : Option Directive}
    (h : ofLine? line = .ok d) : r.step line = d.toList.foldlM apply r := by
  unfold step
  rw [h]
  cases d with
  | none => rfl
  | some d => simp

/-- Lines do what the directives on them do. -/
theorem reads_iff : Reads r ls r' ↔ ∃ ds, ofLines? ls = .ok ds ∧ ds.foldlM apply r = .ok r' := by
  constructor
  · intro h
    induction h with
    | done r => exact ⟨[], rfl, rfl⟩
    | line hstep hrest ih =>
      obtain ⟨ds, hds, hfold⟩ := ih
      obtain ⟨d, hd, -⟩ := move_of_step hstep
      refine ⟨d.toList ++ ds, ofLines?_cons_eq_ok_iff.2 ⟨d, ds, hd, hds, rfl⟩, ?_⟩
      rw [List.foldlM_append, ← step_of_ofLine? hd, hstep]
      exact hfold
  · rintro ⟨ds, hds, hfold⟩
    induction ls generalizing r ds with
    | nil =>
      obtain rfl := Except.ok.inj hds
      obtain rfl := Except.ok.inj hfold
      exact .done r
    | cons line rest ih =>
      obtain ⟨d, ds', hline, hrest, rfl⟩ := ofLines?_cons_eq_ok_iff.1 hds
      rw [List.foldlM_append, ← step_of_ofLine? hline] at hfold
      cases hstep : r.step line with
      | error fault =>
        rw [hstep] at hfold
        exact absurd hfold (by simp [bind, Except.bind])
      | ok r₁ =>
        rw [hstep] at hfold
        exact .line hstep (ih ds' hrest hfold)

end Reading

/-- A text is read as a package if the directives on its lines make that package. -/
theorem Package.parse_iff_foldlM {name text : String} {p : Package} :
    Package.parse name text = .ok p ↔ ∃ ds r, ofLines? (lines text.toList) = .ok ds ∧
      ds.foldlM Reading.apply (.start name) = .ok r ∧ r.package = p := by
  rw [Package.parse_eq_ok_iff]
  constructor
  · rintro ⟨r, hreads, hr⟩
    obtain ⟨ds, hds, hfold⟩ := Reading.reads_iff.1 hreads
    exact ⟨ds, r, hds, hfold, hr⟩
  · rintro ⟨ds, r, hds, hfold, hr⟩
    exact ⟨r, Reading.reads_iff.2 ⟨ds, hds, hfold⟩, hr⟩

/-! ## What belongs to a name -/

/-- The directive gives a name if it opens a section. -/
def Directive.Named (d : Directive) : Prop :=
  ∀ type, d ≠ .config type none

/-- What a directive makes of the section that it belongs to. -/
def Section.change (s : Section) : Directive → Section
  | .option name value => s.setOption name value
  | .list name value => s.addList name value
  | .package _ => s
  | .config _ _ => s

/-- The names that `config` directives give, each with the type that comes with it first, and in the
order in which they come first. -/
def openings : List Directive → List (String × String)
  | .config type (some name) :: rest => (name, type) :: (openings rest).filter (·.1 ≠ name)
  | _ :: rest => openings rest
  | [] => []

/-- The directives for the options of the section `name`: those to which the nearest `config`
directive before them gives that name.  The name given before all of them is `above`. -/
def belonging (name : String) : Option String → List Directive → List Directive
  | _, [] => []
  | above, .package _ :: rest => belonging name above rest
  | _, .config _ given :: rest => belonging name given rest
  | above, d :: rest =>
    if above = some name then d :: belonging name above rest else belonging name above rest

/-- What becomes of a section by the directives that belong to it. -/
def Section.filled (s : Section) (above : Option String) (ds : List Directive) : Section :=
  (belonging s.name above ds).foldl change s

/-- The sections that directives make if all their `config` directives give names. -/
def merged (ds : List Directive) : List Section :=
  (openings ds).map fun o => (Section.named o.2 o.1).filled none ds

/-- The directives with each section in one piece. -/
def gathered (ds : List Directive) : List Directive :=
  (openings ds).flatMap fun o => .config o.2 (some o.1) :: belonging o.1 none ds

theorem nodup_openings (ds : List Directive) : ((openings ds).map Prod.fst).Nodup := by
  fun_induction openings ds with
  | case1 type name rest ih =>
    rw [List.map_cons, List.nodup_cons]
    refine ⟨by simp, ?_⟩
    exact ih.sublist (List.filter_sublist.map _)
  | case2 d rest _ ih => exact ih
  | case3 => exact List.nodup_nil

theorem config_mem_of_mem_openings {name type : String} (h : (name, type) ∈ openings ds) :
    .config type (some name) ∈ ds := by
  fun_induction openings ds with
  | case1 type' name' rest ih =>
    rcases List.mem_cons.1 h with heq | h
    · obtain ⟨rfl, rfl⟩ := Prod.mk.inj heq
      exact List.mem_cons_self
    · exact List.mem_cons_of_mem _ (ih (List.mem_filter.1 h).1)
  | case2 d rest _ ih => exact List.mem_cons_of_mem _ (ih h)
  | case3 => exact absurd h List.not_mem_nil

theorem belonging_sublist (name : String) (above : Option String) (ds : List Directive) :
    (belonging name above ds).Sublist ds := by
  fun_induction belonging name above ds with
  | case1 above => exact List.Sublist.slnil
  | case2 above _ rest ih => exact ih.cons _
  | case3 above _ given rest ih => exact ih.cons _
  | case4 d rest _ _ ih => exact ih.cons_cons d
  | case5 above d rest _ _ _ ih => exact ih.cons d

/-- The directive is for an option. -/
inductive Directive.IsChange : Directive → Prop where
  /-- It writes a single value. -/
  | option (name value : String) : IsChange (.option name value)
  /-- It adds a value to a list. -/
  | list (name value : String) : IsChange (.list name value)

theorem openings_change {d : Directive} (hd : d.IsChange) (ds : List Directive) :
    openings (d :: ds) = openings ds := by
  cases hd <;> rfl

theorem belonging_change {d : Directive} (hd : d.IsChange) (name : String) (above : Option String)
    (ds : List Directive) : belonging name above (d :: ds) =
      if above = some name then d :: belonging name above ds else belonging name above ds := by
  cases hd <;> simp [belonging]

theorem isChange_of_mem_belonging {name : String} {above : Option String} {d : Directive}
    (h : d ∈ belonging name above ds) : d.IsChange := by
  fun_induction belonging name above ds with
  | case1 above => exact absurd h List.not_mem_nil
  | case2 above _ rest ih => exact ih h
  | case3 above _ given rest ih => exact ih h
  | case4 e rest hpackage hconfig ih =>
    rcases List.mem_cons.1 h with rfl | h
    · cases d with
      | package name => exact absurd rfl (hpackage name)
      | config type given => exact absurd rfl (hconfig type given)
      | option key value => exact .option key value
      | list key value => exact .list key value
    · exact ih h
  | case5 above e rest _ _ _ ih => exact ih h

theorem Section.keeps_change (d : Directive) : Keeps (·.change d) := by
  cases d with
  | option name value => exact keeps_setOption name value
  | list name value => exact keeps_addList name value
  | _ => exact keeps_id

theorem name_foldl_change (ds : List Directive) (s : Section) :
    (ds.foldl Section.change s).name = s.name := by
  induction ds generalizing s with
  | nil => rfl
  | cons d ds ih => exact (ih _).trans ((Section.keeps_change d).name s)

theorem Section.name_filled (s : Section) (above : Option String) (ds : List Directive) :
    (s.filled above ds).name = s.name :=
  name_foldl_change _ s

theorem filled_change (s : Section) (d : Directive) (above : Option String) (ds : List Directive) :
    (s.change d).filled above ds = (belonging s.name above ds).foldl Section.change (s.change d) := by
  rw [Section.filled, (Section.keeps_change d).name s]

/-! ## Sections that are there, and sections that come -/

/-- Where names are distinct, changing one section is changing those of its name. -/
theorem modify_eq_map {ss : List Section} (h : (ss.map Section.name).Nodup) {i : Nat} {s : Section}
    (hs : ss[i]? = some s) (f : Section → Section) :
    ss.modify i f = ss.map fun t => if t.name = s.name then f t else t := by
  refine List.ext_getElem? fun j => ?_
  rw [List.getElem?_modify, List.getElem?_map]
  cases ht : ss[j]? with
  | none => rfl
  | some t =>
    have hname : i = j ↔ t.name = s.name := by
      constructor
      · rintro rfl
        rw [Option.some.inj (ht.symm.trans hs)]
      · intro hname
        have hlength : i < (ss.map Section.name).length := by
          simpa using (List.getElem?_eq_some_iff.1 hs).1
        refine (List.getElem?_inj hlength h).1 ?_
        rw [List.getElem?_map, List.getElem?_map, hs, ht, Option.map_some, Option.map_some, hname]
    simp [hname]

/-- What directives make of sections that are there, and the sections that come after them, if the
last name that was given before is `above`. -/
def sectionsAfter (ss : List Section) (above : Option String) (ds : List Directive) :
    List Section :=
  ss.map (·.filled above ds) ++
    ((openings ds).filter (·.1 ∉ ss.map Section.name)).map
      fun o => (Section.named o.2 o.1).filled above ds

/-- A name that is there already opens no other section. -/
theorem sectionsAfter_reopen {ss : List Section} {name : String} (h : name ∈ ss.map Section.name)
    (type : String) (above : Option String) (ds : List Directive) :
    sectionsAfter ss above (.config type (some name) :: ds) = sectionsAfter ss (some name) ds := by
  have hfilter : (openings (.config type (some name) :: ds)).filter (·.1 ∉ ss.map Section.name) =
      (openings ds).filter (·.1 ∉ ss.map Section.name) := by
    rw [openings, List.filter_cons_of_neg (by simpa using h), List.filter_filter]
    refine List.filter_congr fun o _ => ?_
    by_cases ho : o.1 = name
    · simp [ho, h]
    · simp [ho]
  unfold sectionsAfter
  rw [hfilter]
  rfl

/-- A new name opens a section after those that are there. -/
theorem sectionsAfter_append {ss : List Section} {name : String} (h : name ∉ ss.map Section.name)
    (type : String) (above : Option String) (ds : List Directive) :
    sectionsAfter ss above (.config type (some name) :: ds) =
      sectionsAfter (ss ++ [.named type name]) (some name) ds := by
  have hfilter : (openings (.config type (some name) :: ds)).filter (·.1 ∉ ss.map Section.name) =
      (name, type) :: (openings ds).filter
        (·.1 ∉ (ss ++ [Section.named type name]).map Section.name) := by
    rw [openings, List.filter_cons_of_pos (by simpa using h), List.filter_filter]
    congr 1
    refine List.filter_congr fun o _ => ?_
    by_cases ho : o.1 = name
    · simp [ho, Section.named]
    · simp [ho, Section.named]
  have hfilled : (ss ++ [Section.named type name]).map (·.filled (some name) ds) =
      ss.map (·.filled (some name) ds) ++ [(Section.named type name).filled (some name) ds] :=
    List.map_append
  unfold sectionsAfter
  rw [hfilter, hfilled, List.append_assoc]
  rfl

/-- A directive for an option changes the section of the name that was given last. -/
theorem sectionsAfter_change {ss : List Section} {name : String} (h : name ∈ ss.map Section.name)
    {d : Directive} (hd : d.IsChange) (ds : List Directive) :
    sectionsAfter ss (some name) (d :: ds) =
      sectionsAfter (ss.map fun t => if t.name = name then t.change d else t) (some name) ds := by
  have hfilled : ∀ t : Section, t.filled (some name) (d :: ds) =
      (if t.name = name then t.change d else t).filled (some name) ds := by
    intro t
    rw [Section.filled, belonging_change hd]
    by_cases ht : t.name = name
    · rw [if_pos ht, if_pos (congrArg some ht.symm), List.foldl_cons, filled_change]
    · rw [if_neg ht, if_neg fun hsome => ht (Option.some.inj hsome).symm, Section.filled]
  have hnames : (ss.map fun t => if t.name = name then t.change d else t).map Section.name =
      ss.map Section.name := by
    rw [List.map_map]
    refine List.map_congr_left fun t _ => ?_
    rw [Function.comp_apply]
    split
    · exact (Section.keeps_change d).name t
    · rfl
  unfold sectionsAfter
  rw [openings_change hd, hnames, List.map_map]
  congr 1
  · exact List.map_congr_left fun t _ => hfilled t
  · refine List.map_congr_left fun o ho => ?_
    have hother : o.1 ≠ name := by
      rintro rfl
      exact absurd h (by simpa using (List.mem_filter.1 ho).2)
    rw [hfilled, if_neg (show (Section.named o.2 o.1).name ≠ name from hother)]

namespace Reading

variable {r r' : Reading}

/-- The name was given last: the section of that name is the current one. -/
def Under (r : Reading) : Option String → Prop
  | none => r.current = none
  | some name => ∃ i s, r.current = some i ∧ r.package.sections[i]? = some s ∧ s.name = name

theorem exists_of_foldlM_cons {d : Directive} (h : (d :: ds).foldlM apply r = .ok r') :
    ∃ r₁, r.apply d = .ok r₁ ∧ ds.foldlM apply r₁ = .ok r' := by
  rw [List.foldlM_cons] at h
  cases hd : r.apply d with
  | error fault =>
    rw [hd] at h
    exact absurd h (by simp [bind, Except.bind])
  | ok r₁ =>
    rw [hd] at h
    exact ⟨r₁, rfl, h⟩

/-- A directive for an option is carried out on the current section. -/
theorem apply_change {d : Directive} (hd : d.IsChange) {i : Nat} (hi : r.current = some i) :
    r.apply d = .ok { r with package := r.package.modifySection i (·.change d) } := by
  cases hd <;> simp only [apply, hi] <;> rfl

/-- One directive, before others: what it does is what they find. -/
theorem sectionsAfter_step {d : Directive} (hnamed : d.Named) {above : Option String}
    (hdistinct : (r.package.sections.map Section.name).Nodup) (hunder : r.Under above)
    (h : r.apply d = .ok r') :
    ∃ above', r'.Under above' ∧ (r'.package.sections.map Section.name).Nodup ∧
      ∀ ds, sectionsAfter r.package.sections above (d :: ds) =
        sectionsAfter r'.package.sections above' ds := by
  have hchange : d.IsChange → ∀ i, r.current = some i → r'.Under above ∧
      (r'.package.sections.map Section.name).Nodup ∧
        ∀ ds, sectionsAfter r.package.sections above (d :: ds) =
          sectionsAfter r'.package.sections above ds := by
    intro hd i hi
    obtain rfl := Except.ok.inj (h.symm.trans (apply_change hd hi))
    cases above with
    | none => exact absurd (hi.symm.trans hunder) (by simp)
    | some name =>
      obtain ⟨j, s, hj, hs, rfl⟩ := hunder
      obtain rfl := Option.some.inj (hi.symm.trans hj)
      have hnames := congrArg (List.map Section.name)
        (Package.outline_modifySection (Section.keeps_change d) r.package i)
      rw [Package.map_name_outline, Package.map_name_outline] at hnames
      have hsections : (r.package.modifySection i (·.change d)).sections =
          r.package.sections.map fun t => if t.name = s.name then t.change d else t :=
        modify_eq_map hdistinct hs _
      refine ⟨⟨i, s.change d, hi, ?_, (Section.keeps_change d).name s⟩, hnames ▸ hdistinct, ?_⟩
      · rw [hsections, List.getElem?_map, hs]
        simp
      · intro ds
        rw [hsections]
        exact sectionsAfter_change (List.mem_map_of_mem (List.mem_of_getElem? hs)) hd ds
  cases move_of_apply h with
  | package name => exact ⟨above, hunder, hdistinct, fun ds => rfl⟩
  | @reopen type given i s hs hname =>
    cases given with
    | none => exact absurd rfl (hnamed type)
    | some name =>
      refine ⟨some name, ⟨i, s, rfl, hs, hname⟩, hdistinct, fun ds => ?_⟩
      have hmem : name ∈ r.package.sections.map Section.name :=
        List.mem_map.2 ⟨s, List.mem_of_getElem? hs, hname⟩
      exact sectionsAfter_reopen hmem type above ds
  | @append type given hnew =>
    cases given with
    | none => exact absurd rfl (hnamed type)
    | some name =>
      have hfree : ∀ s ∈ r.package.sections, s.name ≠ name := hnew
      refine ⟨some name, ⟨_, .named type name, rfl, List.getElem?_concat_length, rfl⟩, ?_,
        fun ds => ?_⟩
      · rw [Package.push, List.map_append, List.map_singleton]
        refine List.nodup_append.2 ⟨hdistinct, by simp, fun a ha b hb => ?_⟩
        obtain ⟨s, hs, rfl⟩ := List.mem_map.1 ha
        obtain rfl := List.mem_singleton.1 hb
        exact hfree s hs
      · refine sectionsAfter_append ?_ type above ds
        intro hmem
        obtain ⟨s, hs, hname⟩ := List.mem_map.1 hmem
        exact hfree s hs hname
  | option hi => exact ⟨above, hchange (.option _ _) _ hi⟩
  | list hi => exact ⟨above, hchange (.list _ _) _ hi⟩

/-- Directives that give names do to each section what belongs to it, and add a section for each
new name. -/
theorem sections_of_foldlM {above : Option String} (hnamed : ∀ d ∈ ds, d.Named)
    (hdistinct : (r.package.sections.map Section.name).Nodup) (hunder : r.Under above)
    (h : ds.foldlM apply r = .ok r') :
    r'.package.sections = sectionsAfter r.package.sections above ds := by
  induction ds generalizing r above with
  | nil =>
    obtain rfl := Except.ok.inj h
    simp [sectionsAfter, openings, Section.filled, belonging]
  | cons d ds ih =>
    obtain ⟨hd, hrest⟩ := List.forall_mem_cons.1 hnamed
    obtain ⟨r₁, happly, hfold⟩ := exists_of_foldlM_cons h
    obtain ⟨above', hunder', hdistinct', hafter⟩ := sectionsAfter_step hd hdistinct hunder happly
    rw [hafter, ih hrest hdistinct' hunder' hfold]

/-! ## One piece for each section -/

/-- Directives for options, carried out on the last section. -/
theorem foldlM_changes (p : Package) (s : Section) (hds : ∀ d ∈ ds, d.IsChange) :
    ds.foldlM apply (atLast p s) = .ok (atLast p (ds.foldl Section.change s)) := by
  induction ds generalizing s with
  | nil => rfl
  | cons d ds ih =>
    obtain ⟨hd, hrest⟩ := List.forall_mem_cons.1 hds
    have happly : (atLast p s).apply d = .ok (atLast p (s.change d)) := by
      rw [apply_change hd (i := p.sections.length) rfl, atLast, modifySection_push]
      rfl
    rw [List.foldlM_cons, happly]
    exact ih (s.change d) hrest

/-- Sections that are written in one piece each are added as they are. -/
theorem foldlM_pieces {os : List (String × String)} {contents : String → List Directive}
    (hcontents : ∀ name, ∀ d ∈ contents name, d.IsChange)
    (hdistinct : (r.package.sections.map Section.name ++ os.map Prod.fst).Nodup) :
    ∃ current,
      (os.flatMap fun o => .config o.2 (some o.1) :: contents o.1).foldlM apply r =
        .ok ⟨⟨r.package.name, r.package.sections ++
          os.map fun o => (contents o.1).foldl Section.change (.named o.2 o.1)⟩, current⟩ := by
  induction os generalizing r with
  | nil =>
    rw [List.map_nil, List.append_nil]
    exact ⟨r.current, rfl⟩
  | cons o os ih =>
    obtain ⟨name, type⟩ := o
    have hnew : ∀ t ∈ r.package.sections, t.name ≠ name := fun t ht =>
      (List.nodup_append.1 hdistinct).2.2 _ (List.mem_map_of_mem ht) _ List.mem_cons_self
    have hopen : r.apply (.config type (some name)) = .ok (atLast r.package (.named type name)) := by
      rw [apply]
      rcases r.package.openSection_cases (wanted r.package type (some name)) with
        ⟨i, t, ht, hname, -⟩ | ⟨-, hopen⟩
      · exact absurd hname (hnew t (List.mem_of_getElem? ht))
      · rw [hopen]
        rfl
    have hname : ((contents name).foldl Section.change (.named type name)).name = name :=
      name_foldl_change _ _
    obtain ⟨current, hcurrent⟩ := ih
      (r := atLast r.package ((contents name).foldl Section.change (.named type name))) (by
        rw [atLast, Package.push, List.map_append, List.map_singleton, hname, List.append_assoc]
        exact hdistinct)
    refine ⟨current, ?_⟩
    rw [List.flatMap_cons, List.cons_append, List.foldlM_cons, hopen]
    change ((contents name ++ _).foldlM apply (atLast r.package (.named type name))) = _
    rw [List.foldlM_append, foldlM_changes _ _ (hcontents name)]
    refine hcurrent.trans ?_
    rw [atLast, Package.push, List.append_assoc, List.map_cons, List.singleton_append]

end Reading

open Reading

/-- The text of the sections in one piece each, with a line for each directive. -/
def gatheredText (style : KeywordStyle) (ds : List Directive) : String :=
  String.ofList (ofLines ((gathered ds).map (·.line style)))

theorem ofLines?_gatheredText (style : KeywordStyle) {s : List Char}
    (h : ofLines? (lines s) = .ok ds) :
    ofLines? (lines (gatheredText style ds).toList) = .ok (gathered ds) := by
  have honeLine : ∀ d ∈ ds, ∀ text ∈ d.texts, OneLine text := by
    intro d hd
    obtain ⟨l, hl, hline⟩ := (mem_ofLines?_iff h).1 hd
    exact oneLine_of_ofLine? (newline_notMem_of_mem_lines hl) hline
  have hgathered : gathered ds ⊆ ds := by
    intro d hd
    obtain ⟨o, ho, hd⟩ := List.mem_flatMap.1 hd
    rcases List.mem_cons.1 hd with rfl | hd
    · exact config_mem_of_mem_openings ho
    · exact (belonging_sublist o.1 none ds).subset hd
  have hwritable : ∀ l ∈ (gathered ds).map (·.line style), Writable l := by
    intro l hl
    obtain ⟨d, hd, rfl⟩ := List.mem_map.1 hl
    exact writable_line style (honeLine d (hgathered hd))
  rw [gatheredText, String.toList_ofList, lines_ofLines hwritable]
  exact ofLines?_lines style (gathered ds)

/-- **Named sections are merged by name.**  If all `config` lines of a text give names, and it is
read as a package, then that package has one section for each name, in the order in which the names
come first, of the type that comes with the name first; its options are what all the lines under
`config` lines with that name make of them, one after the other.  Every text in which the sections
are written in one piece each is read as the same package, and there is such a text. -/
theorem parse_merged {name text : String} {p : Package}
    (hparse : Package.parse name text = .ok p)
    (hnamed : ∀ l ∈ lines text.toList, ∀ type, ofLine? l ≠ .ok (some (.config type none))) :
    ∃ ds, ofLines? (lines text.toList) = .ok ds ∧ p = ⟨name, merged ds⟩ ∧
      (p.sections.map Section.name).Nodup ∧
      (∀ text', ofLines? (lines text'.toList) = .ok (gathered ds) →
        Package.parse name text' = .ok p) ∧
      ∀ style, ofLines? (lines (gatheredText style ds).toList) = .ok (gathered ds) := by
  obtain ⟨ds, r, hds, hfold, rfl⟩ := Package.parse_iff_foldlM.1 hparse
  obtain ⟨hname, hwell, -⟩ := parse_wellFormed hparse
  have hdirectives : ∀ d ∈ ds, d.Named := by
    rintro d hd type rfl
    obtain ⟨l, hl, hline⟩ := (mem_ofLines?_iff hds).1 hd
    exact hnamed l hl type hline
  have hstart : (start name).Under none := rfl
  have hempty : ((start name).package.sections.map Section.name).Nodup := List.nodup_nil
  have hsections : r.package.sections = merged ds := by
    rw [sections_of_foldlM hdirectives hempty hstart hfold]
    simp [sectionsAfter, merged, start, Package.empty]
  have hpackage : r.package = ⟨name, merged ds⟩ := by rw [← hname, ← hsections]
  refine ⟨ds, hds, hpackage, hwell.distinct, fun text' hds' => ?_,
    fun style => ofLines?_gatheredText style hds⟩
  have hcontents : ∀ n, ∀ d ∈ belonging n none ds, d.IsChange :=
    fun _ _ hd => isChange_of_mem_belonging hd
  have hdistinct : ((start name).package.sections.map Section.name ++
      (openings ds).map Prod.fst).Nodup := nodup_openings ds
  obtain ⟨current, hcurrent⟩ := foldlM_pieces hcontents hdistinct
  exact Package.parse_iff_foldlM.2 ⟨gathered ds, _, hds', hcurrent, hpackage.symm⟩

/-- A text with a section in two pieces, the second under another type and after another section. -/
def interleavedText : String :=
  "config access ops\nlist user al\nconfig core main\nconfig core ops\nlist user bob\n"

/-- The same sections in one piece each. -/
def onePieceText : String :=
  "config access ops\nlist user al\nlist user bob\nconfig core main\n"

theorem parse_merged_interleaved :
    (∀ l ∈ lines interleavedText.toList, ∀ type, ofLine? l ≠ .ok (some (.config type none))) ∧
      ∃ p, Package.parse "luci" interleavedText = .ok p ∧ Package.parse "luci" onePieceText = .ok p ∧
        p.sections = [⟨"ops", "access", false, [("user", .list ["al", "bob"])]⟩,
          ⟨"main", "core", false, []⟩] := by
  have hparse : Package.parse "luci" interleavedText = .ok ⟨"luci",
      [⟨"ops", "access", false, [("user", .list ["al", "bob"])]⟩,
        ⟨"main", "core", false, []⟩]⟩ := by
    rfl
  have hds : ofLines? (lines interleavedText.toList) = .ok
      [.config "access" (some "ops"), .list "user" "al", .config "core" (some "main"),
        .config "core" (some "ops"), .list "user" "bob"] := by
    rfl
  have hnamed : ∀ l ∈ lines interleavedText.toList, ∀ type,
      ofLine? l ≠ .ok (some (.config type none)) := by
    intro l hl type hline
    have hmem := (mem_ofLines?_iff hds).2 ⟨l, hl, hline⟩
    exact absurd hmem (by simp)
  obtain ⟨ds, hds', -, -, hall, -⟩ := parse_merged hparse hnamed
  obtain rfl := Except.ok.inj (hds.symm.trans hds')
  exact ⟨hnamed, _, hparse, hall onePieceText rfl, rfl⟩

end Gatehouse.Uci
