import Gatehouse.Proofs.Uci.Written
import Gatehouse.Uci.Store
import Mathlib.Data.List.Induction

/-!
# Bad lines

When a text is no package, and what is said about it then.

* `Bad` — what is wrong with a line, given the lines before it: it has no words, its first word is
  no keyword, the keyword has too few or too many arguments, or an option stands before the first
  section.
* `FirstBad` — a line that is bad after lines that are not.
* `Directive.ofWords?_cases` — what words stand for, by their keyword and their number.
* `Reading.bad_of_step`, `Reading.step_of_bad` — a line that comes after good ones fails exactly if
  it is bad.
* `Reading.exists_reads_iff` — lines are read exactly if none of them is bad.

`read_eq_error_iff` says that the first bad line decides the error, and nothing else does.
-/

namespace Gatehouse.Uci

open Gatehouse.Text

/-! ## What is wrong with a line -/

/-- The keywords, with the least and the greatest number of arguments that each of them takes. -/
def arities : List (String × Nat × Nat) :=
  [("package", 1, 1), ("config", 1, 2), ("option", 2, 2), ("list", 2, 2)]

/-- The first word of the line is `config`. -/
def BeginsSection (line : List Char) : Prop :=
  ∃ args, words line = .ok ("config" :: args)

/-- What is wrong with a line that comes after others. -/
inductive Bad (before : List (List Char)) (line : List Char) : String → Prop where
  /-- The line has no words. -/
  | noWords {fault : WordFault} (h : words line = .error fault) : Bad before line fault.message
  /-- The first word is no keyword. -/
  | noKeyword {keyword : String} {args : List String} (h : words line = .ok (keyword :: args))
      (hkeyword : keyword ∉ arities.map Prod.fst) :
      Bad before line ("unknown keyword '" ++ keyword ++ "'")
  /-- The number of arguments is wrong. -/
  | count {keyword : String} {args : List String} {least most : Nat}
      (h : words line = .ok (keyword :: args)) (hkeyword : (keyword, least, most) ∈ arities)
      (hcount : args.length < least ∨ most < args.length) :
      Bad before line ("'" ++ keyword ++ "' takes " ++ toString least ++ "..=" ++ toString most ++
        " arguments, got " ++ toString args.length)
  /-- There is no section that the option could belong to. -/
  | noSection {keyword : String} {args : List String} (h : words line = .ok (keyword :: args))
      (hkeyword : keyword = "option" ∨ keyword = "list") (hcount : args.length = 2)
      (hbefore : ∀ l ∈ before, ¬BeginsSection l) :
      Bad before line ("'" ++ keyword ++ "' outside of a section")

/-- No line is bad after those before it. -/
def NoneBad (ls : List (List Char)) : Prop :=
  ∀ before line after, ls = before ++ line :: after → ∀ message, ¬Bad before line message

/-- The line with this number is bad, and none before it is. -/
def FirstBad (ls : List (List Char)) (number : Nat) (message : String) : Prop :=
  ∃ before line after, ls = before ++ line :: after ∧ number = before.length + 1 ∧
    NoneBad before ∧ Bad before line message

variable {before : List (List Char)} {line : List Char} {message : String}

/-- A line without words, though it could be scanned, is not bad. -/
theorem not_bad_of_words_eq_nil (h : words line = .ok []) : ¬Bad before line message := by
  rintro (h' | h' | h' | h') <;> exact absurd (h.symm.trans h') (by simp)

/-- What stands after the first bad line does not matter. -/
theorem FirstBad.of_take {ls ms : List (List Char)} {number : Nat}
    (h : FirstBad ls number message) (htake : ms.take number = ls.take number) :
    FirstBad ms number message := by
  obtain ⟨before, line, after, rfl, rfl, hnone, hbad⟩ := h
  refine ⟨before, line, ms.drop (before.length + 1), ?_, rfl, hnone, hbad⟩
  rw [List.take_length_add_append] at htake
  conv_lhs => rw [← List.take_append_drop (before.length + 1) ms, htake]
  simp

/-- A keyword takes one number of arguments. -/
theorem arities_unique {keyword : String} {a b : Nat × Nat} (ha : (keyword, a) ∈ arities)
    (hb : (keyword, b) ∈ arities) : a = b := by
  have hn : (arities.map Prod.fst).Nodup := by decide
  exact Option.some.inj
    (((Keyed.get?_eq_some_iff hn).2 ha).symm.trans ((Keyed.get?_eq_some_iff hn).2 hb))

theorem option_mem_arities {keyword : String} (h : keyword = "option" ∨ keyword = "list") :
    (keyword, 2, 2) ∈ arities := by
  rcases h with rfl | rfl <;> decide

/-! ## What words stand for -/

namespace Directive

/-- What words stand for, by their keyword and their number. -/
theorem ofWords?_cases (keyword : String) (args : List String) :
    (keyword ∉ arities.map Prod.fst ∧
        ofWords? (keyword :: args) = .error (.unknownKeyword keyword)) ∨
      ∃ least most, (keyword, least, most) ∈ arities ∧
        ((args.length < least ∨ most < args.length) ∧
            ofWords? (keyword :: args) = .error (.argumentCount keyword least most args.length) ∨
          (least ≤ args.length ∧ args.length ≤ most) ∧
            ∃ d, ofWords? (keyword :: args) = .ok (some d) ∧ d.keyword = keyword) := by
  have hmany : ∀ {a b c : String} {rest : List String}, 2 < (a :: b :: c :: rest).length :=
    fun {_ _ _ rest} => by simp
  by_cases hpackage : keyword = "package"
  · subst hpackage
    refine Or.inr ⟨1, 1, by decide, ?_⟩
    rcases args with _ | ⟨name, _ | ⟨b, rest⟩⟩
    · exact Or.inl ⟨by decide, rfl⟩
    · exact Or.inr ⟨by simp, _, rfl, rfl⟩
    · exact Or.inl ⟨Or.inr (by simp), rfl⟩
  by_cases hconfig : keyword = "config"
  · subst hconfig
    refine Or.inr ⟨1, 2, by decide, ?_⟩
    rcases args with _ | ⟨type, _ | ⟨name, _ | ⟨c, rest⟩⟩⟩
    · exact Or.inl ⟨by decide, rfl⟩
    · exact Or.inr ⟨by simp, _, rfl, rfl⟩
    · exact Or.inr ⟨by simp, _, rfl, rfl⟩
    · exact Or.inl ⟨Or.inr hmany, rfl⟩
  by_cases htwo : keyword = "option" ∨ keyword = "list"
  · refine Or.inr ⟨2, 2, option_mem_arities htwo, ?_⟩
    rcases args with _ | ⟨name, _ | ⟨value, _ | ⟨c, rest⟩⟩⟩
    · exact Or.inl ⟨by decide, by rcases htwo with rfl | rfl <;> rfl⟩
    · exact Or.inl ⟨by simp, by rcases htwo with rfl | rfl <;> rfl⟩
    · rcases htwo with rfl | rfl <;> exact Or.inr ⟨by simp, _, rfl, rfl⟩
    · exact Or.inl ⟨Or.inr hmany, by rcases htwo with rfl | rfl <;> rfl⟩
  · rw [not_or] at htwo
    refine Or.inl ⟨by simp [arities, hpackage, hconfig, htwo], ?_⟩
    simp [ofWords?, hpackage, hconfig, htwo]

/-- A directive begins a section if its line does. -/
theorem beginsSection_iff {d : Option Directive} (h : ofLine? line = .ok d) :
    BeginsSection line ↔ IsConfig line := by
  unfold ofLine? at h
  cases hwords : words line with
  | error fault => simp [hwords] at h
  | ok ws =>
    rw [hwords] at h
    constructor
    · rintro ⟨args, hargs⟩
      obtain rfl := Except.ok.inj (hwords.symm.trans hargs)
      rcases ofWords?_cases "config" args with ⟨-, h'⟩ | ⟨_, _, -, ⟨-, h'⟩ | ⟨-, d', h', hd'⟩⟩
      · exact absurd (h.symm.trans h') (by simp)
      · exact absurd (h.symm.trans h') (by simp)
      · cases d' with
        | config type name => exact ⟨type, name, by rw [ofLine?, hwords]; exact h'⟩
        | _ => exact absurd hd' (by simp [keyword])
    · rintro ⟨type, name, hline⟩
      rw [ofLine?, hwords] at hline
      cases ws with
      | nil => exact absurd hline (by simp [ofWords?])
      | cons keyword args =>
        rcases ofWords?_cases keyword args with ⟨-, h'⟩ | ⟨_, _, -, ⟨-, h'⟩ | ⟨-, d', h', hd'⟩⟩
        · exact absurd (h'.symm.trans hline) (by simp)
        · exact absurd (h'.symm.trans hline) (by simp)
        · obtain rfl := Option.some.inj (Except.ok.inj (h'.symm.trans hline))
          obtain rfl : "config" = keyword := hd'
          exact ⟨args, hwords⟩

end Directive

namespace Reading

variable {r r' : Reading} {name : String} {ls : List (List Char)}

/-! ## One line -/

/-- A directive fails exactly if it needs a section and there is none. -/
theorem apply_eq_error_iff {d : Directive} {fault : LineFault} :
    r.apply d = .error fault ↔ (d.keyword = "option" ∨ d.keyword = "list") ∧
      r.current = none ∧ fault = .outsideSection d.keyword := by
  cases d with
  | package name => simp [apply, Directive.keyword]
  | config type name => simp [apply, Directive.keyword]
  | option name value =>
    cases h : r.current <;> simp [apply, h, Directive.keyword, eq_comm]
  | list name value =>
    cases h : r.current <;> simp [apply, h, Directive.keyword, eq_comm]

/-- After good lines there is a section exactly if one of them begins with `config`. -/
theorem Reads.current_eq_none_iff (h : Reads (start name) ls r) :
    r.current = none ↔ ∀ l ∈ ls, ¬BeginsSection l := by
  have hline : ∀ {a b : Reading} {ls : List (List Char)}, Reads a ls b →
      ∀ l ∈ ls, (BeginsSection l ↔ IsConfig l) := by
    intro a b ls h
    induction h with
    | done r => exact fun l hl => absurd hl List.not_mem_nil
    | line hstep hrest ih =>
      obtain ⟨d, hd, -⟩ := move_of_step hstep
      exact List.forall_mem_cons.2 ⟨Directive.beginsSection_iff hd, ih⟩
  have hcurrent : (∃ i, r.current = some i) ↔ ∃ l ∈ ls, IsConfig l := by
    rw [h.exists_current_iff]
    simp [start]
  rw [Option.eq_none_iff_forall_ne_some, ← not_exists, hcurrent]
  constructor
  · intro hnone l hl hbegins
    exact hnone ⟨l, hl, (hline h l hl).1 hbegins⟩
  · rintro hnone ⟨l, hl, hconfig⟩
    exact hnone l hl ((hline h l hl).2 hconfig)

/-- A line that fails is bad. -/
theorem bad_of_step (h : Reads (start name) before r) {fault : LineFault}
    (hstep : r.step line = .error fault) : Bad before line fault.message := by
  unfold step Directive.ofLine? at hstep
  cases hwords : words line with
  | error wordFault =>
    rw [hwords] at hstep
    obtain rfl := Except.error.inj hstep
    exact .noWords hwords
  | ok ws =>
    rw [hwords] at hstep
    cases ws with
    | nil => exact absurd hstep (by simp [Directive.ofWords?])
    | cons keyword args =>
      rcases Directive.ofWords?_cases keyword args with
        ⟨hkeyword, hd⟩ | ⟨least, most, hkeyword, ⟨hcount, hd⟩ | ⟨hcount, d, hd, rfl⟩⟩
      · simp only [hd] at hstep
        obtain rfl := Except.error.inj hstep
        exact .noKeyword hwords hkeyword
      · simp only [hd] at hstep
        obtain rfl := Except.error.inj hstep
        exact .count hwords hkeyword hcount
      · simp only [hd] at hstep
        obtain ⟨hsection, hcurrent, rfl⟩ := apply_eq_error_iff.1 hstep
        refine .noSection hwords hsection ?_ (h.current_eq_none_iff.1 hcurrent)
        obtain ⟨rfl, rfl⟩ :=
          Prod.mk.inj (arities_unique hkeyword (option_mem_arities hsection))
        exact Nat.le_antisymm hcount.2 hcount.1

/-- A bad line fails. -/
theorem step_of_bad (h : Reads (start name) before r) (hbad : Bad before line message) :
    ∃ fault, r.step line = .error fault ∧ fault.message = message := by
  unfold step Directive.ofLine?
  cases hbad with
  | @noWords fault hwords =>
    rw [hwords]
    exact ⟨.words fault, rfl, rfl⟩
  | @noKeyword keyword args hwords hkeyword =>
    refine ⟨.unknownKeyword keyword, ?_, rfl⟩
    rcases Directive.ofWords?_cases keyword args with ⟨-, hd⟩ | ⟨least, most, hmem, -⟩
    · simp only [hwords, hd]
    · exact absurd (List.mem_map_of_mem hmem) hkeyword
  | @count keyword args least most hwords hkeyword hcount =>
    refine ⟨.argumentCount keyword least most args.length, ?_, rfl⟩
    rcases Directive.ofWords?_cases keyword args with ⟨hnot, -⟩ | ⟨least', most', hmem, hd⟩
    · exact absurd (List.mem_map_of_mem hkeyword) hnot
    · obtain ⟨rfl, rfl⟩ := Prod.mk.inj (arities_unique hkeyword hmem)
      rcases hd with ⟨-, hd⟩ | ⟨hcount', -⟩
      · simp only [hwords, hd]
      · omega
  | @noSection keyword args hwords hkeyword hcount hbefore =>
    refine ⟨.outsideSection keyword, ?_, rfl⟩
    have hmem := option_mem_arities hkeyword
    rcases Directive.ofWords?_cases keyword args with
      ⟨hnot, -⟩ | ⟨least, most, hmem', ⟨hcount', -⟩ | ⟨-, d, hd, rfl⟩⟩
    · exact absurd (List.mem_map_of_mem hmem) hnot
    · obtain ⟨rfl, rfl⟩ := Prod.mk.inj (arities_unique hmem hmem')
      omega
    · simp only [hwords, hd]
      exact apply_eq_error_iff.2 ⟨hkeyword, h.current_eq_none_iff.2 hbefore, rfl⟩

/-! ## Many lines -/

/-- Lines are read exactly if none of them is bad. -/
theorem exists_reads_iff : (∃ r, Reads (start name) ls r) ↔ NoneBad ls := by
  constructor
  · rintro ⟨r, hreads⟩ before line after rfl message hbad
    obtain ⟨r₁, hbefore, hrest⟩ := reads_append.1 hreads
    cases hrest with
    | line hstep _ =>
      obtain ⟨fault, hfault, -⟩ := step_of_bad hbefore hbad
      exact absurd (hstep.symm.trans hfault) (by simp)
  · intro h
    induction ls using List.reverseRecOn with
    | nil => exact ⟨_, .done _⟩
    | append_singleton ls line ih =>
      obtain ⟨r, hreads⟩ := ih fun before l after heq =>
        h before l (after ++ [line]) (by rw [heq]; simp)
      cases hstep : r.step line with
      | error fault => exact absurd (bad_of_step hreads hstep) (h ls line [] rfl _)
      | ok r' => exact ⟨r', reads_append.2 ⟨r, hreads, .line hstep (.done r')⟩⟩

/-- A run over lines fails at the first bad line. -/
theorem run_start_eq_error_iff (name : String) {number : Nat} :
    (∃ fault, (start name).run 1 ls = .error (number, fault) ∧ fault.message = message) ↔
      FirstBad ls number message := by
  simp only [run_eq_error_iff]
  constructor
  · rintro ⟨fault, ⟨before, line, after, r, rfl, rfl, hbefore, hstep⟩, rfl⟩
    exact ⟨before, line, after, rfl, Nat.add_comm _ _, exists_reads_iff.1 ⟨r, hbefore⟩,
      bad_of_step hbefore hstep⟩
  · rintro ⟨before, line, after, rfl, rfl, hnone, hbad⟩
    obtain ⟨r, hbefore⟩ := exists_reads_iff.2 hnone
    obtain ⟨fault, hstep, hmessage⟩ := step_of_bad hbefore hbad
    exact ⟨fault, ⟨before, line, after, r, rfl, Nat.add_comm _ _, hbefore, hstep⟩, hmessage⟩

/-- If a line is bad, there is a first one. -/
theorem exists_firstBad_iff :
    (∃ number message, FirstBad ls number message) ↔
      ∃ before line after message, ls = before ++ line :: after ∧ Bad before line message := by
  constructor
  · rintro ⟨number, message, before, line, after, hls, -, -, hbad⟩
    exact ⟨before, line, after, message, hls, hbad⟩
  · rintro ⟨before, line, after, message, hls, hbad⟩
    -- The run stops somewhere, since it would otherwise have read the bad line.
    cases hrun : (start "").run 1 ls with
    | ok r => exact absurd hbad (exists_reads_iff.1 ⟨r, run_eq_ok_iff.1 hrun⟩ _ _ _ hls _)
    | error e => exact ⟨e.1, _, (run_start_eq_error_iff "").1 ⟨e.2, hrun, rfl⟩⟩

/-- An option that comes after a `config` line finds the section that it belongs to. -/
theorem Reads.exists_section (h : Reads (start name) ls r) (hls : ∃ l ∈ ls, BeginsSection l) :
    ∃ i s, r.current = some i ∧ r.package.sections[i]? = some s := by
  cases hcurrent : r.current with
  | none =>
    obtain ⟨l, hl, hbegins⟩ := hls
    exact absurd hbegins (h.current_eq_none_iff.1 hcurrent l hl)
  | some i => exact ⟨i, _, rfl, List.getElem?_eq_getElem (h.valid (valid_start name) i hcurrent)⟩

end Reading

/-! ## Texts -/

/-- The error of a text that is no package. -/
theorem Package.read_eq_error {name text : String} {e : StoreError} :
    Package.read name text = .error e ↔
      ∃ number message, FirstBad (lines text.toList) number message ∧
        e = .parse name number message := by
  simp only [← Reading.run_start_eq_error_iff name, ← Package.parse_eq_error_iff]
  unfold Package.read
  constructor
  · intro h
    split at h
    · exact absurd h (by simp)
    · rename_i number fault hparse
      obtain rfl := Except.error.inj h
      exact ⟨number, _, ⟨fault, hparse, rfl⟩, rfl⟩
  · rintro ⟨number, _, ⟨fault, hparse, rfl⟩, rfl⟩
    rw [hparse]

/-- Blanks before a word or a comment are passed over. -/
theorem wordsFrom_blanks {blanks : List Char} (h : ∀ c ∈ blanks, isBlank c = true)
    (rest : List Char) : wordsFrom .gap (blanks ++ rest) = wordsFrom .gap rest := by
  induction blanks with
  | nil => rfl
  | cons c blanks ih =>
    obtain ⟨hc, hblanks⟩ := List.forall_mem_cons.1 h
    rw [List.cons_append, wordsFrom, if_pos hc, ih hblanks]

open Reading

/-- **The first bad line decides the error.**  A text is no package exactly if some line is bad, and
the error then names the package, the number of the first bad line, and what is wrong with it.  What
stands after that line does not matter.  Lines of blanks, and comments after blanks, are not bad;
and after a `config` line every option finds its section. -/
theorem read_eq_error_iff (name text : String) :
    (∀ e, Package.read name text = .error e ↔
      ∃ number message, FirstBad (lines text.toList) number message ∧
        e = .parse name number message) ∧
      ((∃ e, Package.read name text = .error e) ↔
        ∃ before line after message, lines text.toList = before ++ line :: after ∧
          Bad before line message) ∧
      (∀ number message text', FirstBad (lines text.toList) number message →
        (lines text'.toList).take number = (lines text.toList).take number →
          Package.read name text' = .error (.parse name number message)) ∧
      (∀ before blanks rest message, (∀ c ∈ blanks, isBlank c = true) →
        ¬Bad before blanks message ∧ ¬Bad before (blanks ++ '#' :: rest) message) ∧
      ∀ before r, Reads (start name) before r → (∃ l ∈ before, BeginsSection l) →
        ∃ i s, r.current = some i ∧ r.package.sections[i]? = some s := by
  refine ⟨fun e => Package.read_eq_error, ?_, ?_, ?_, fun _ _ h => h.exists_section⟩
  · rw [← exists_firstBad_iff]
    constructor
    · rintro ⟨e, he⟩
      obtain ⟨number, message, hfirst, -⟩ := Package.read_eq_error.1 he
      exact ⟨number, message, hfirst⟩
    · rintro ⟨number, message, hfirst⟩
      exact ⟨_, Package.read_eq_error.2 ⟨number, message, hfirst, rfl⟩⟩
  · intro number message text' hfirst htake
    exact Package.read_eq_error.2 ⟨number, message, hfirst.of_take htake, rfl⟩
  · intro before blanks rest message hblanks
    constructor
    · refine not_bad_of_words_eq_nil ?_
      rw [words, ← List.append_nil blanks, wordsFrom_blanks hblanks]
      rfl
    · refine not_bad_of_words_eq_nil ?_
      rw [words, wordsFrom_blanks hblanks]
      rfl

/-! Two texts with the same first bad line. -/

/-- A text whose fifth line has too few words; a later line cannot be scanned. -/
def shortOptionText : String :=
  "# users

config access 'a'
	option user alice
	list read # '*'
	option note 'x
"

/-- The text up to that line, and other lines after it. -/
def shortOptionText' : String :=
  "# users

config access 'a'
	option user alice
	list read # '*'
section b"

theorem read_eq_error_iff_shortOption :
    Package.read "luci" shortOptionText =
        .error (.parse "luci" 5 "'list' takes 2..=2 arguments, got 1") ∧
      FirstBad (lines shortOptionText.toList) 5 "'list' takes 2..=2 arguments, got 1" ∧
      Package.read "luci" shortOptionText' =
        .error (.parse "luci" 5 "'list' takes 2..=2 arguments, got 1") := by
  obtain ⟨herror, -, hafter, -⟩ := read_eq_error_iff "luci" shortOptionText
  have hread : Package.read "luci" shortOptionText =
      .error (.parse "luci" 5 "'list' takes 2..=2 arguments, got 1") := by
    decide
  obtain ⟨number, message, hfirst, heq⟩ := (herror _).1 hread
  obtain ⟨-, rfl, rfl⟩ := StoreError.parse.inj heq
  have htake : (lines shortOptionText'.toList).take 5 = (lines shortOptionText.toList).take 5 := by
    decide
  exact ⟨hread, hfirst, hafter 5 _ shortOptionText' hfirst htake⟩

end Gatehouse.Uci
