import Gatehouse.Proofs.Uci.WellFormed

/-!
# Writing packages

The text of a package has a line for each section, each single value and each value of a list, with
every argument in single quotes (`Package.text`).

* `ofLine?_line` — a line that a directive is written as is read back as that directive, whatever
  its texts are.
* `foldlM_options`, `foldlM_sections` — carrying out the directives of options or sections that are
  not there yet adds exactly them.

`parse_text` concludes that a well-formed package is what its text is read as.  A package that is
not well formed is never read from any text, so nothing more can be said.
-/

namespace Gatehouse.Uci

open Gatehouse.Text

/-! ## Lines -/

/-- How the first word of a line is written. -/
inductive KeywordStyle where
  /-- As it is. -/
  | plain
  /-- In single quotes, as the other words are. -/
  | quoted
  deriving DecidableEq, Repr

/-- The first word of a line, as it is written. -/
def KeywordStyle.write (style : KeywordStyle) (keyword : String) : List Char :=
  match style with
  | .plain => keyword.toList
  | .quoted => quote keyword.toList

/-- The word that a directive begins with. -/
def Directive.keyword : Directive → String
  | .package _ => "package"
  | .config _ _ => "config"
  | .option _ _ => "option"
  | .list _ _ => "list"

/-- The line that a directive is written as: its keyword, and its texts in single quotes. -/
def Directive.line (style : KeywordStyle) (d : Directive) : List Char :=
  style.write d.keyword ++ d.texts.flatMap fun text => ' ' :: quote text.toList

/-- A character that has no meaning of its own in a line. -/
def PlainInWord (c : Char) : Prop :=
  isBlank c = false ∧ c ≠ '#' ∧ c ≠ '\'' ∧ c ≠ '"' ∧ c ≠ '\\'

instance (c : Char) : Decidable (PlainInWord c) :=
  inferInstanceAs (Decidable (_ ∧ _))

theorem forall_plain_of_all {w : List Char} (h : w.all (fun c => PlainInWord c) = true) :
    ∀ c ∈ w, PlainInWord c :=
  fun c hc => of_decide_eq_true (List.all_eq_true.1 h c hc)

theorem onPiece_of_plain {c : Char} (h : PlainInWord c) :
    WordState.onPiece c = (.word, some c) := by
  obtain ⟨-, -, hsingle, hdouble, hescape⟩ := h
  rw [WordState.onPiece, if_neg hsingle, if_neg hdouble, if_neg hescape]

theorem wordsFrom_word_plain {w : List Char} (h : ∀ c ∈ w, PlainInWord c) (r : List Char) :
    wordsFrom .word (w ++ r) = (w.foldr consFirst ·) <$> wordsFrom .word r := by
  induction w with
  | nil => cases hr : wordsFrom .word r <;> simp [hr]
  | cons c w ih =>
    obtain ⟨hc, hw⟩ := List.forall_mem_cons.1 h
    rw [List.cons_append, wordsFrom, hc.1, if_neg (by simp), onPiece_of_plain hc]
    simp only [ih hw]
    cases wordsFrom .word r <;> rfl

/-- A word of plain characters is read as it is. -/
theorem wordsFrom_plain {w r : List Char} (hne : w ≠ []) (h : ∀ c ∈ w, PlainInWord c)
    (hr : EndsWord r) : wordsFrom .gap (w ++ r) = (w :: ·) <$> wordsFrom .gap r := by
  refine wordsFrom_gap_of_foldr hr ?_
  rw [← wordsFrom_word_plain h]
  cases w with
  | nil => exact absurd rfl hne
  | cons c w =>
    have hc := h c List.mem_cons_self
    rw [List.cons_append, wordsFrom, wordsFrom, hc.1, if_neg Bool.false_ne_true, if_neg hc.2.1,
      if_neg Bool.false_ne_true]

theorem plain_keyword (d : Directive) :
    d.keyword.toList ≠ [] ∧ ∀ c ∈ d.keyword.toList, PlainInWord c := by
  have hne : d.keyword.toList ≠ [] := by cases d <;> simp [Directive.keyword]
  have hall : d.keyword.toList.all (fun c => PlainInWord c) = true := by
    cases d <;> simp only [Directive.keyword] <;> decide
  exact ⟨hne, forall_plain_of_all hall⟩

theorem endsWord_flatMap_quote (texts : List String) :
    EndsWord (texts.flatMap fun text => ' ' :: quote text.toList) := by
  cases texts with
  | nil => exact fun _ h => nomatch h
  | cons text texts =>
    intro c hc
    obtain rfl : ' ' = c := by simpa using hc
    decide

/-- Quoted words with a blank before each are read as themselves. -/
theorem wordsFrom_flatMap_quote (texts : List String) :
    wordsFrom .gap (texts.flatMap fun text => ' ' :: quote text.toList) =
      .ok (texts.map String.toList) := by
  induction texts with
  | nil => rfl
  | cons text texts ih =>
    have hblank : isBlank ' ' = true := by decide
    rw [List.flatMap_cons, List.cons_append, wordsFrom, if_pos hblank,
      wordsFrom_quote _ (endsWord_flatMap_quote texts), ih]
    rfl

theorem wordsFrom_keyword (style : KeywordStyle) (d : Directive) {r : List Char} (hr : EndsWord r) :
    wordsFrom .gap (style.write d.keyword ++ r) = (d.keyword.toList :: ·) <$> wordsFrom .gap r := by
  cases style with
  | plain => exact wordsFrom_plain (plain_keyword d).1 (plain_keyword d).2 hr
  | quoted => exact wordsFrom_quote _ hr

/-- The line of a directive has its keyword and its texts as words. -/
theorem words_line (style : KeywordStyle) (d : Directive) :
    words (d.line style) = .ok (d.keyword :: d.texts) := by
  rw [words, Directive.line, wordsFrom_keyword style d (endsWord_flatMap_quote _),
    wordsFrom_flatMap_quote]
  show Except.ok _ = _
  simp [String.ofList_toList, Function.comp_def]

/-- The line of a directive asks for just that. -/
theorem ofLine?_line (style : KeywordStyle) (d : Directive) :
    Directive.ofLine? (d.line style) = .ok (some d) := by
  rw [Directive.ofLine?, words_line]
  cases d with
  | config type name => cases name <;> rfl
  | _ => rfl

theorem newline_notMem_quote {s : List Char} (h : '\n' ∉ s) : '\n' ∉ quote s := by
  intro hmem
  rw [quote, List.cons_append, List.mem_cons, List.mem_append, List.mem_flatMap] at hmem
  rcases hmem with heq | ⟨c, hc, hmem⟩ | hmem
  · exact absurd heq (by decide)
  · unfold quoteChar at hmem
    split at hmem
    · exact absurd hmem (by decide)
    · exact h (List.mem_singleton.1 hmem ▸ hc)
  · exact absurd hmem (by decide)

/-- The line of a directive can be told from its end, if no text has a newline. -/
theorem writable_line (style : KeywordStyle) {d : Directive}
    (h : ∀ text ∈ d.texts, OneLine text) : Writable (d.line style) where
  newline := by
    rw [Directive.line, List.mem_append, not_or]
    constructor
    · have hkeyword : '\n' ∉ d.keyword.toList := fun hmem =>
        absurd ((plain_keyword d).2 _ hmem) (by decide)
      cases style with
      | plain => exact hkeyword
      | quoted => exact newline_notMem_quote hkeyword
    · intro hmem
      obtain ⟨text, htext, hmem⟩ := List.mem_flatMap.1 hmem
      rcases List.mem_cons.1 hmem with heq | hmem
      · exact absurd heq (by decide)
      · exact newline_notMem_quote (h text htext) hmem
  carriageReturn := by
    -- Every directive has a last text, and its closing quote ends the line.
    have hlast : ∀ (before : List Char) (text : String),
        (before ++ ' ' :: quote text.toList).getLast? = some '\'' := by
      intro before text
      have hsplit : before ++ ' ' :: quote text.toList =
          before ++ ' ' :: '\'' :: text.toList.flatMap quoteChar ++ ['\''] := by
        simp [quote]
      rw [hsplit, List.getLast?_concat]
    obtain ⟨texts, text, htexts⟩ : ∃ texts text, d.texts = texts ++ [text] := by
      cases d with
      | config type name =>
        cases name with
        | none => exact ⟨[], type, rfl⟩
        | some n => exact ⟨[type], n, rfl⟩
      | package name => exact ⟨[], name, rfl⟩
      | option name value => exact ⟨[name], value, rfl⟩
      | list name value => exact ⟨[name], value, rfl⟩
    rw [Directive.line, htexts, List.flatMap_append, List.flatMap_singleton, ← List.append_assoc,
      hlast]
    simp

/-! ## Options -/

/-- The directives that give an option its value. -/
def OptionValue.directives (name : String) : OptionValue → List Directive
  | .scalar value => [.option name value]
  | .list values => values.map (.list name)

namespace Section

theorem setOption_of_notMem {s : Section} {name : String} (h : name ∉ s.options.map Prod.fst)
    (value : String) :
    s.setOption name value = { s with options := s.options ++ [(name, .scalar value)] } := by
  have halter := Keyed.alter_append h (fun _ => OptionValue.scalar value) []
  rw [List.append_nil] at halter
  rw [setOption, Keyed.set, halter]
  rfl

/-- Adding values to the last option, a list, puts them at its end. -/
theorem addLists_append {s : Section} {name : String} (h : name ∉ s.options.map Prod.fst)
    (old values : List String) :
    ({ s with options := s.options ++ [(name, .list old)] } : Section).addLists name values =
      { s with options := s.options ++ [(name, .list (old ++ values))] } := by
  unfold addLists
  induction values generalizing old with
  | nil => rw [List.append_nil]; rfl
  | cons value values ih =>
    have halter : Keyed.alter name (OptionValue.push value) (s.options ++ [(name, .list old)]) =
        s.options ++ [(name, .list (old ++ [value]))] := by
      rw [Keyed.alter_append h]
      simp [Keyed.alter]
    rw [List.foldl_cons, addList]
    simp only [halter]
    rw [ih, List.append_assoc, List.singleton_append]

/-- Adding values under a new name makes a list of them. -/
theorem addLists_of_notMem {s : Section} {name : String} (h : name ∉ s.options.map Prod.fst)
    {values : List String} (hne : values ≠ []) :
    s.addLists name values = { s with options := s.options ++ [(name, .list values)] } := by
  cases values with
  | nil => exact absurd rfl hne
  | cons value values =>
    have halter : Keyed.alter name (OptionValue.push value) s.options =
        s.options ++ [(name, .list [value])] := by
      have happend := Keyed.alter_append h (OptionValue.push value) []
      rwa [List.append_nil] at happend
    have hfirst : s.addList name value =
        { s with options := s.options ++ [(name, .list [value])] } := by
      rw [addList, halter]
    change (s.addList name value).addLists name values = _
    rw [hfirst, addLists_append h]
    rfl

/-- The directives that a section is written as. -/
def directives (s : Section) : List Directive :=
  .config s.type (if s.anonymous then none else some s.name) ::
    s.options.flatMap fun (name, value) => value.directives name

end Section

namespace Reading

/-- A reading whose current section is the last one. -/
def atLast (p : Package) (s : Section) : Reading :=
  ⟨p.push s, some p.sections.length⟩

theorem modifySection_push (p : Package) (s : Section) (f : Section → Section) :
    (p.push s).modifySection p.sections.length f = p.push (f s) := by
  rw [Package.modifySection, Package.push, Package.push, modify_append_length]

theorem apply_option_atLast (p : Package) (s : Section) (name value : String) :
    (atLast p s).apply (.option name value) = .ok (atLast p (s.setOption name value)) :=
  congrArg (fun q => Except.ok (Reading.mk q (some p.sections.length)))
    (modifySection_push p s (·.setOption name value))

theorem apply_list_atLast (p : Package) (s : Section) (name value : String) :
    (atLast p s).apply (.list name value) = .ok (atLast p (s.addList name value)) :=
  congrArg (fun q => Except.ok (Reading.mk q (some p.sections.length)))
    (modifySection_push p s (·.addList name value))

theorem foldlM_list (p : Package) (s : Section) (name : String) (values : List String) :
    (values.map (Directive.list name)).foldlM apply (atLast p s) =
      .ok (atLast p (s.addLists name values)) := by
  induction values generalizing s with
  | nil => rfl
  | cons value values ih =>
    rw [List.map_cons, List.foldlM_cons, apply_list_atLast]
    exact ih (s.addList name value)

/-- The directives of a new option add it at the end. -/
theorem foldlM_option (p : Package) {s : Section} {name : String}
    (h : name ∉ s.options.map Prod.fst) {value : OptionValue} (hne : value ≠ .list []) :
    (value.directives name).foldlM apply (atLast p s) =
      .ok (atLast p { s with options := s.options ++ [(name, value)] }) := by
  cases value with
  | scalar value =>
    rw [OptionValue.directives, List.foldlM_cons, apply_option_atLast,
      Section.setOption_of_notMem h]
    rfl
  | list values =>
    have hvalues : values ≠ [] := fun hnil => hne (congrArg OptionValue.list hnil)
    rw [OptionValue.directives, foldlM_list, Section.addLists_of_notMem h hvalues]

/-- The directives of new options add them at the end, in order. -/
theorem foldlM_options (p : Package) {s : Section} {options : List (String × OptionValue)}
    (hdistinct : ((s.options ++ options).map Prod.fst).Nodup)
    (hne : ∀ o ∈ options, o.2 ≠ .list []) :
    (options.flatMap fun (name, value) => value.directives name).foldlM apply (atLast p s) =
      .ok (atLast p { s with options := s.options ++ options }) := by
  induction options generalizing s with
  | nil => rw [List.append_nil]; rfl
  | cons o options ih =>
    obtain ⟨name, value⟩ := o
    obtain ⟨hvalue, hrest⟩ := List.forall_mem_cons.1 hne
    have hname : name ∉ s.options.map Prod.fst := by
      rw [List.map_append, List.nodup_append] at hdistinct
      exact fun hmem => hdistinct.2.2 name hmem name List.mem_cons_self rfl
    have hdistinct' : (((s.options ++ [(name, value)]) ++ options).map Prod.fst).Nodup := by
      rwa [List.append_assoc, List.singleton_append]
    rw [List.flatMap_cons, List.foldlM_append, foldlM_option p hname hvalue]
    have htail := ih (s := { s with options := s.options ++ [(name, value)] }) hdistinct' hrest
    rw [List.append_assoc, List.singleton_append] at htail
    exact htail

/-! ## Sections -/

/-- The section that is asked for by the first directive of a section. -/
theorem wanted_eq_bare {p : Package} {s : Section}
    (h : s.anonymous = true →
      s.name = (Section.unnamed s.type (p.sections.countP (·.type == s.type))).name) :
    wanted p s.type (if s.anonymous then none else some s.name) = s.bare := by
  obtain ⟨name, type, anonymous, options⟩ := s
  cases anonymous with
  | false => rfl
  | true =>
    have hname : name = (Section.unnamed type (p.ofType type).length).name := by
      rw [Package.ofType, ← List.countP_eq_length_filter]
      exact h rfl
    subst hname
    rfl

/-- The directives of a new section add it at the end. -/
theorem foldlM_section {r : Reading} {s : Section} (hs : s.WellFormed)
    (hnew : ∀ t ∈ r.package.sections, t.name ≠ s.name)
    (hcounted : s.anonymous = true →
      s.name = (Section.unnamed s.type (r.package.sections.countP (·.type == s.type))).name) :
    s.directives.foldlM apply r = .ok (atLast r.package s) := by
  have hconfig : r.apply (.config s.type (if s.anonymous then none else some s.name)) =
      .ok (atLast r.package s.bare) := by
    rw [apply, wanted_eq_bare hcounted]
    rcases r.package.openSection_cases s.bare with ⟨i, t, ht, hname, -⟩ | ⟨-, hopen⟩
    · exact absurd hname (hnew t (List.mem_of_getElem? ht))
    · rw [hopen]
      rfl
  rw [Section.directives, List.foldlM_cons, hconfig]
  exact foldlM_options r.package (s := s.bare) hs.distinct hs.nonempty

/-- The directives of the rest of a well-formed package add it to what is there. -/
theorem foldlM_sections {r : Reading} {ss : List Section}
    (h : (Package.mk r.package.name (r.package.sections ++ ss)).WellFormed) :
    ∃ current, (ss.flatMap Section.directives).foldlM apply r =
      .ok ⟨⟨r.package.name, r.package.sections ++ ss⟩, current⟩ := by
  induction ss generalizing r with
  | nil =>
    rw [List.append_nil]
    exact ⟨r.current, rfl⟩
  | cons s ss ih =>
    have hnew : ∀ t ∈ r.package.sections, t.name ≠ s.name := by
      have hdistinct := h.distinct
      rw [List.map_append, List.nodup_append] at hdistinct
      exact fun t ht =>
        hdistinct.2.2 _ (List.mem_map_of_mem ht) _ List.mem_cons_self
    have hs : s.WellFormed := h.sections s (List.mem_append_right _ List.mem_cons_self)
    have hsection := foldlM_section (r := r) hs hnew (h.counted r.package.sections s ss rfl)
    have hrest : (Package.mk r.package.name ((r.package.sections ++ [s]) ++ ss)).WellFormed := by
      rwa [List.append_assoc, List.singleton_append]
    obtain ⟨current, hcurrent⟩ := ih (r := atLast r.package s) hrest
    refine ⟨current, ?_⟩
    rw [List.flatMap_cons, List.foldlM_append, hsection]
    refine hcurrent.trans ?_
    rw [atLast, Package.push, List.append_assoc, List.singleton_append]

/-- Lines that directives are written as carry them out. -/
theorem reads_lines {style : KeywordStyle} {ds : List Directive} {r r' : Reading}
    (h : ds.foldlM apply r = .ok r') : Reads r (ds.map (·.line style)) r' := by
  induction ds generalizing r with
  | nil =>
    obtain rfl := Except.ok.inj h
    exact .done r
  | cons d ds ih =>
    rw [List.foldlM_cons] at h
    cases happly : r.apply d with
    | error fault =>
      rw [happly] at h
      exact absurd h (by simp [bind, Except.bind])
    | ok r₁ =>
      rw [happly] at h
      refine .line ?_ (ih h)
      rw [step, ofLine?_line]
      exact happly

end Reading

/-! ## Packages -/

namespace Package

/-- The directives that a package is written as. -/
def directives (p : Package) : List Directive :=
  p.sections.flatMap Section.directives

/-- The text of a package. -/
def text (style : KeywordStyle) (p : Package) : String :=
  String.ofList (ofLines (p.directives.map (·.line style)))

theorem WellFormed.oneLine_directives {p : Package} (h : p.WellFormed) :
    ∀ d ∈ p.directives, ∀ text ∈ d.texts, OneLine text := by
  intro d hd
  obtain ⟨s, hs, hd⟩ := List.mem_flatMap.1 hd
  obtain ⟨hname, htype, hoptions⟩ := Section.forall_texts_iff.1 (h.sections s hs).oneLine
  rcases List.mem_cons.1 hd with rfl | hd
  · intro text htext
    rcases List.mem_cons.1 htext with rfl | htext
    · exact htype
    · cases hanon : s.anonymous with
      | true => simp [hanon] at htext
      | false =>
        obtain rfl : text = s.name := by simpa [hanon] using htext
        exact hname
  · obtain ⟨⟨name, value⟩, ho, hd⟩ := List.mem_flatMap.1 hd
    obtain ⟨hoption, hvalues⟩ := hoptions _ ho
    cases value with
    | scalar value =>
      obtain rfl := List.mem_singleton.1 hd
      exact List.forall_mem_cons.2 ⟨hoption, hvalues⟩
    | list values =>
      obtain ⟨value, hvalue, rfl⟩ := List.mem_map.1 hd
      refine List.forall_mem_cons.2 ⟨hoption, ?_⟩
      intro text htext
      obtain rfl := List.mem_singleton.1 htext
      exact hvalues _ hvalue

end Package

/-- **Writing is undone by reading.**  The text of a well-formed package is read as that package:
the same sections with their names, types and flags, and the same options with their kinds and
values, all in their order. -/
theorem parse_text {p : Package} (h : p.WellFormed) (style : KeywordStyle) :
    Package.parse p.name (p.text style) = .ok p := by
  have hwritable : ∀ l ∈ p.directives.map (·.line style), Writable l := by
    intro l hl
    obtain ⟨d, hd, rfl⟩ := List.mem_map.1 hl
    exact writable_line style (h.oneLine_directives d hd)
  have hlines : lines (p.text style).toList = p.directives.map (·.line style) := by
    rw [Package.text, String.toList_ofList, lines_ofLines hwritable]
  have hsections : (Package.mk p.name ([] ++ p.sections)).WellFormed := h
  obtain ⟨current, hcurrent⟩ := Reading.foldlM_sections (r := .start p.name) hsections
  rw [Package.parse_eq_ok_iff, hlines]
  exact ⟨_, Reading.reads_lines hcurrent, rfl⟩

/-- A package with texts that are hard to write, and with a name that looks made up. -/
def awkwardPackage : Package :=
  ⟨"luci",
    [⟨"@access[0]", "access", true,
        [("user", .scalar "it's \"me\" \\ #1"), ("", .scalar ""),
          ("write", .list ["", "'", "config access", " a\t#\r"])]⟩,
      ⟨"@access[2]", "@access[1]", false, [("#", .list ["\\"])]⟩,
      ⟨"@access[1]", "access", true, []⟩]⟩

theorem parse_text_awkward :
    awkwardPackage.WellFormed ∧
      Package.parse "luci" (awkwardPackage.text .quoted) = .ok awkwardPackage := by
  have hcounted : Counted awkwardPackage.sections := by
    have hnil : Counted [] := fun pre s post heq => by simp at heq
    exact ((hnil.append fun _ => by decide).append fun h => absurd h (by decide)).append
      fun _ => by decide
  have hsections : ∀ s ∈ awkwardPackage.sections,
      (s.options.map Prod.fst).Nodup ∧ (∀ o ∈ s.options, o.2 ≠ .list []) ∧
        ∀ text ∈ s.texts, '\n' ∉ text.toList := by
    decide
  have h : awkwardPackage.WellFormed :=
    ⟨by decide, fun s hs =>
      ⟨(hsections s hs).1, (hsections s hs).2.1, (hsections s hs).2.2⟩, hcounted⟩
  exact ⟨h, parse_text h .quoted⟩

example :
    Package.text .plain ⟨"luci", [⟨"@access[0]", "access", true,
        [("user", .scalar "it's me"), ("write", .list ["a", ""])]⟩]⟩ =
      "config 'access'\noption 'user' 'it'\\''s me'\nlist 'write' 'a'\nlist 'write' ''\n" := by
  decide

end Gatehouse.Uci
