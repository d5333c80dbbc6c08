import Gatehouse.Proofs.Text.Lines
import Gatehouse.Proofs.Uci.Unnamed

/-!
# Well-formed packages

What holds of every package that was read from a text.

* `Package.WellFormed` — no two sections have one name and no two options of a section, no list is
  empty, no newline stands in any text, and a made-up name counts the sections of its type before
  it.
* `Reading.Move.wellFormed` — carrying out a directive whose texts have no newline keeps a package
  well formed, and no line gives any others (`oneLine_of_ofLine?`).
* `Reading.Reads.outline_prefix` — while lines are read, sections are only added at the end, and
  none is renamed or retyped, so the current section stays in its place (`Reads.valid`).

`parse_wellFormed` puts these together for the text of a package.
-/

namespace Gatehouse.Uci

open Gatehouse.Text

/-! ## What is well formed -/

/-- The values of an option. -/
def OptionValue.values : OptionValue → List String
  | .scalar value => [value]
  | .list values => values

/-- All texts in a section. -/
def Section.texts (s : Section) : List String :=
  s.name :: s.type :: s.options.flatMap fun (name, value) => name :: value.values

/-- A text without a newline. -/
def OneLine (text : String) : Prop :=
  '\n' ∉ text.toList

/-- A section as it is read from a text. -/
structure Section.WellFormed (s : Section) : Prop where
  /-- No two options have one name. -/
  distinct : (s.options.map Prod.fst).Nodup
  /-- No list is empty. -/
  nonempty : ∀ o ∈ s.options, o.2 ≠ .list []
  /-- No text has a newline. -/
  oneLine : ∀ text ∈ s.texts, OneLine text

/-- A package as it is read from a text. -/
structure Package.WellFormed (p : Package) : Prop where
  /-- No two sections have one name. -/
  distinct : (p.sections.map Section.name).Nodup
  /-- Every section is well formed. -/
  sections : ∀ s ∈ p.sections, s.WellFormed
  /-- The made-up names count the sections of their types. -/
  counted : Counted p.sections

/-! ## Options -/

namespace Section

theorem forall_texts_iff {s : Section} :
    (∀ text ∈ s.texts, OneLine text) ↔
      OneLine s.name ∧ OneLine s.type ∧
        ∀ o ∈ s.options, OneLine o.1 ∧ ∀ value ∈ o.2.values, OneLine value := by
  simp only [texts, List.forall_mem_cons, List.forall_mem_flatMap]

/-- A section without options is well formed if its name and its type have no newline. -/
theorem wellFormed_of_options_eq_nil {s : Section} (h : s.options = []) (hname : OneLine s.name)
    (htype : OneLine s.type) : s.WellFormed where
  distinct := by simp [h]
  nonempty := by simp [h]
  oneLine := forall_texts_iff.2 ⟨hname, htype, by simp [h]⟩

/-- Altering an option keeps a section well formed, if the new value is no empty list and adds no
newline. -/
theorem WellFormed.alter {s : Section} (h : s.WellFormed) {name : String}
    {f : Option OptionValue → OptionValue} (hname : OneLine name) (hf : ∀ old, f old ≠ .list [])
    (hvalues : ∀ old, (∀ o ∈ old, ∀ value ∈ OptionValue.values o, OneLine value) →
      ∀ value ∈ (f old).values, OneLine value) :
    ({ s with options := Keyed.alter name f s.options } : Section).WellFormed := by
  obtain ⟨hsname, hstype, hoptions⟩ := forall_texts_iff.1 h.oneLine
  refine ⟨Keyed.nodup_keys_alter name f h.distinct, ?_, forall_texts_iff.2 ⟨hsname, hstype, ?_⟩⟩
  · intro o ho
    rcases Keyed.mem_alter ho with rfl | ho
    · exact hf _
    · exact h.nonempty o ho
  · intro o ho
    rcases Keyed.mem_alter ho with rfl | ho
    · refine ⟨hname, hvalues _ fun old hold => ?_⟩
      exact (hoptions (name, old) (Keyed.mem_of_get? hold)).2
    · exact hoptions o ho

theorem WellFormed.setOption {s : Section} (h : s.WellFormed) {name value : String}
    (hname : OneLine name) (hvalue : OneLine value) : (s.setOption name value).WellFormed := by
  refine h.alter hname (fun _ => by simp) fun _ _ v hv => ?_
  obtain rfl := List.mem_singleton.1 hv
  exact hvalue

theorem WellFormed.addList {s : Section} (h : s.WellFormed) {name value : String}
    (hname : OneLine name) (hvalue : OneLine value) : (s.addList name value).WellFormed := by
  refine h.alter hname (OptionValue.push_ne_nil value) fun old hold v hv => ?_
  rcases old with _ | first | values
  · obtain rfl := List.mem_singleton.1 hv
    exact hvalue
  · rcases List.mem_cons.1 hv with rfl | hv
    · exact hold _ rfl _ (List.mem_singleton_self _)
    · obtain rfl := List.mem_singleton.1 hv
      exact hvalue
  · rcases List.mem_append.1 hv with hv | hv
    · exact hold _ rfl _ hv
    · obtain rfl := List.mem_singleton.1 hv
      exact hvalue

end Section

/-! ## Sections -/

namespace Package

theorem map_name_outline (p : Package) : p.outline.map Section.name = p.sections.map Section.name :=
  List.map_map

theorem length_outline (p : Package) : p.outline.length = p.sections.length :=
  List.length_map _

/-- Counting sections does not look at their options. -/
theorem counted_outline_iff (p : Package) : Counted p.outline ↔ Counted p.sections := by
  have hcount : ∀ (pre : List Section) (type : String),
      (pre.map Section.bare).countP (·.type == type) = pre.countP (·.type == type) :=
    fun pre type => List.countP_map
  constructor
  · intro h pre s post heq hs
    have hbare := h (pre.map Section.bare) s.bare (post.map Section.bare)
      (by rw [outline, heq, List.map_append, List.map_cons]) hs
    rwa [hcount] at hbare
  · intro h pre t post heq ht
    obtain ⟨pre, rest, hsections, rfl, hrest⟩ := List.map_eq_append_iff.1 heq
    obtain ⟨s, post, rfl, rfl, rfl⟩ := List.map_eq_cons_iff.1 hrest
    rw [hcount]
    exact h pre s post hsections ht

theorem wellFormed_empty (name : String) : (empty name).WellFormed where
  distinct := List.nodup_nil
  sections := fun _ hs => absurd hs List.not_mem_nil
  counted := fun _ _ _ h => absurd h.symm (by simp [empty])

/-- A section with a name of its own keeps a package well formed. -/
theorem WellFormed.push {p : Package} (h : p.WellFormed) {s : Section} (hs : s.WellFormed)
    (hnew : ∀ t ∈ p.sections, t.name ≠ s.name)
    (hcounted : s.anonymous = true →
      s.name = (Section.unnamed s.type (p.sections.countP (·.type == s.type))).name) :
    (p.push s).WellFormed where
  distinct := by
    rw [Package.push, List.map_append, List.map_singleton]
    refine List.nodup_append.2 ⟨h.distinct, by simp, fun name hname other hother => ?_⟩
    obtain ⟨t, ht, rfl⟩ := List.mem_map.1 hname
    obtain rfl := List.mem_singleton.1 hother
    exact hnew t ht
  sections := by
    intro t ht
    rcases List.mem_append.1 ht with ht | ht
    · exact h.sections t ht
    · obtain rfl := List.mem_singleton.1 ht
      exact hs
  counted := h.counted.append hcounted

/-- A change of the options of one section keeps a package well formed, if it keeps sections well
formed. -/
theorem WellFormed.modifySection {p : Package} (h : p.WellFormed) (i : Nat) {f : Section → Section}
    (hkeeps : Section.Keeps f) (hf : ∀ s, s.WellFormed → (f s).WellFormed) :
    (p.modifySection i f).WellFormed where
  distinct := by
    rw [← map_name_outline, outline_modifySection hkeeps, map_name_outline]
    exact h.distinct
  sections := by
    intro s hs
    obtain ⟨j, hj⟩ := List.mem_iff_getElem?.1 hs
    rw [Package.modifySection, List.getElem?_modify, Option.map_eq_map,
      Option.map_eq_some_iff] at hj
    obtain ⟨t, ht, rfl⟩ := hj
    have hwell := h.sections t (List.mem_of_getElem? ht)
    by_cases hi : i = j
    · rw [if_pos hi]
      exact hf t hwell
    · rw [if_neg hi]
      exact hwell
  counted := by
    rw [← counted_outline_iff, outline_modifySection hkeeps, counted_outline_iff]
    exact h.counted

end Package

/-! ## What lines say -/

/-- All texts in a directive. -/
def Directive.texts : Directive → List String
  | .package name => [name]
  | .config type name => type :: name.toList
  | .option name value => [name, value]
  | .list name value => [name, value]

theorem flatten_consFirst (c : Char) (ws : List (List Char)) :
    (consFirst c ws).flatten = c :: ws.flatten := by
  cases ws <;> rfl

/-- A character that is part of a word is itself. -/
theorem eq_of_onPiece {c d : Char} {state : WordState}
    (h : WordState.onPiece c = (state, some d)) : d = c := by
  unfold WordState.onPiece at h
  split_ifs at h
  · exact absurd h (by simp)
  · exact absurd h (by simp)
  · exact absurd h (by simp)
  · exact (Option.some.inj (Prod.mk.inj h).2).symm

theorem sublist_of_consFirst {c : Char} {line : List Char} {ws : List (List Char)}
    {rest : Except WordFault (List (List Char))}
    (ih : ∀ {vs}, rest = .ok vs → vs.flatten.Sublist line) (h : consFirst c <$> rest = .ok ws) :
    ws.flatten.Sublist (c :: line) := by
  cases rest with
  | error fault => exact absurd h (by simp)
  | ok vs =>
    obtain rfl := Except.ok.inj h
    rw [flatten_consFirst]
    exact (ih rfl).cons_cons c

/-- The words of a line are made of its characters, in order. -/
theorem flatten_sublist_of_wordsFrom {state : WordState} {line : List Char}
    {ws : List (List Char)} (h : wordsFrom state line = .ok ws) : ws.flatten.Sublist line := by
  fun_induction wordsFrom state line generalizing ws with
  -- The line is over, or a comment begins.
  | case1 | case3 | case6 =>
    obtain rfl := Except.ok.inj h
    exact List.nil_sublist _
  -- The character is no part of a word.
  | case2 c r _ ih | case5 c r _ _ _ _ ih | case9 c r _ _ _ ih => exact (ih h).cons c
  | case11 r ih | case14 r ih | case15 r _ ih => exact (ih h).cons _
  -- A blank ends the word.
  | case7 c r _ ih =>
    obtain ⟨vs, hvs, rfl⟩ : ∃ vs, wordsFrom .gap r = .ok vs ∧ [] :: vs = ws := by
      cases hr : wordsFrom .gap r with
      | error fault => rw [hr] at h; exact absurd h (by simp)
      | ok vs => rw [hr] at h; exact ⟨vs, rfl, Except.ok.inj h⟩
    exact (ih hvs).cons c
  -- The character is part of a word.
  | case4 c r _ _ state d hpiece ih | case8 c r _ state d hpiece ih =>
    obtain rfl := eq_of_onPiece hpiece
    exact sublist_of_consFirst ih h
  | case12 c r _ ih | case16 c r _ _ ih | case18 c r ih | case20 c r ih =>
    exact sublist_of_consFirst ih h
  | case10 | case13 | case17 | case19 => exact absurd h (by simp)

/-- The characters of a word stand in its line. -/
theorem mem_line_of_words {line : List Char} {ws : List String} (h : words line = .ok ws)
    {w : String} (hw : w ∈ ws) {c : Char} (hc : c ∈ w.toList) : c ∈ line := by
  unfold words at h
  cases hfrom : wordsFrom .gap line with
  | error fault =>
    rw [hfrom] at h
    exact absurd h (by simp)
  | ok vs =>
    rw [hfrom] at h
    obtain rfl := Except.ok.inj h
    obtain ⟨v, hv, rfl⟩ := List.mem_map.1 hw
    rw [String.toList_ofList] at hc
    exact (flatten_sublist_of_wordsFrom hfrom).subset (List.mem_flatten.2 ⟨v, hv, hc⟩)

/-- The texts of a directive are words. -/
theorem texts_subset_of_ofWords? {ws : List String} {d : Directive}
    (h : Directive.ofWords? ws = .ok (some d)) : d.texts ⊆ ws := by
  unfold Directive.ofWords? at h
  split at h
  · exact absurd h (by simp)
  · rename_i keyword args
    refine List.Subset.trans ?_ (List.subset_cons_self keyword args)
    split_ifs at h
    all_goals split at h
    all_goals cases h
    all_goals exact List.Subset.refl _

/-- A line without a newline gives no text with one. -/
theorem oneLine_of_ofLine? {line : List Char} {d : Directive} (hline : '\n' ∉ line)
    (h : Directive.ofLine? line = .ok (some d)) : ∀ text ∈ d.texts, OneLine text := by
  unfold Directive.ofLine? at h
  split at h
  · rename_i ws hws
    intro text htext hmem
    exact hline (mem_line_of_words hws (texts_subset_of_ofWords? h htext) hmem)
  · exact absurd h (by simp)

namespace Reading

variable {r r' r'' : Reading} {ls ms : List (List Char)}

/-! ## One line -/

theorem oneLine_unnamed {type : String} (h : OneLine type) (i : Nat) :
    OneLine (Section.unnamed type i).name := by
  have hdigits : '\n' ∉ Nat.toDigits 10 i := by
    intro hmem
    have hdigit := Nat.isDigit_of_mem_toDigits (by decide) (by decide) hmem
    exact absurd hdigit (by decide)
  unfold OneLine at h ⊢
  rw [unnamed_name_toList]
  simp [hdigits, h]

theorem wellFormed_wanted {p : Package} {type : String} {name : Option String}
    (h : ∀ text ∈ (Directive.config type name).texts, OneLine text) :
    (wanted p type name).WellFormed := by
  obtain ⟨htype, hname⟩ := List.forall_mem_cons.1 h
  cases name with
  | none => exact Section.wellFormed_of_options_eq_nil rfl (oneLine_unnamed htype _) htype
  | some n => exact Section.wellFormed_of_options_eq_nil rfl (hname n (by simp)) htype

/-- Carrying out a directive keeps the package well formed. -/
theorem Move.wellFormed {d : Option Directive} (hmove : Move r d r') (h : r.package.WellFormed)
    (hd : ∀ e ∈ d, ∀ text ∈ e.texts, OneLine text) : r'.package.WellFormed := by
  cases hmove with
  | blank => exact h
  | package name => exact h
  | reopen hs hname => exact h
  | @append type name hnew =>
    refine h.push (wellFormed_wanted (hd _ rfl)) hnew ?_
    cases name with
    | some n => exact fun hs => absurd hs (by simp [wanted, Section.named])
    | none =>
      intro _
      rw [List.countP_eq_length_filter]
      rfl
  | @option name value i hi =>
    obtain ⟨hname, hvalue⟩ := List.forall_mem_cons.1 (hd _ rfl)
    exact h.modifySection i (Section.keeps_setOption name value)
      fun s hs => hs.setOption hname (hvalue value (List.mem_singleton_self _))
  | @list name value i hi =>
    obtain ⟨hname, hvalue⟩ := List.forall_mem_cons.1 (hd _ rfl)
    exact h.modifySection i (Section.keeps_addList name value)
      fun s hs => hs.addList hname (hvalue value (List.mem_singleton_self _))

/-- The current section is one of the package. -/
def Valid (r : Reading) : Prop :=
  ∀ i, r.current = some i → i < r.package.sections.length

/-- Carrying out a directive leaves the sections there are in their places. -/
theorem Move.outline_prefix {d : Option Directive} (hmove : Move r d r') :
    r.package.outline <+: r'.package.outline := by
  rcases hmove.outline with ⟨-, hout⟩ | ⟨type, name, -, ⟨-, hout⟩ | ⟨-, hout⟩⟩
  · exact hout ▸ List.prefix_refl _
  · exact hout ▸ List.prefix_refl _
  · exact hout ▸ List.prefix_append _ _

theorem Move.valid {d : Option Directive} (hmove : Move r d r') (h : r.Valid) : r'.Valid := by
  have hlength := hmove.outline_prefix.length_le
  rw [Package.length_outline, Package.length_outline] at hlength
  cases hmove with
  | blank => exact h
  | package name => exact h
  | reopen hs hname =>
    intro i hi
    obtain rfl := Option.some.inj hi
    exact (List.getElem?_eq_some_iff.1 hs).1
  | append hnew =>
    intro i hi
    obtain rfl := Option.some.inj hi
    simp [Package.push]
  | option hi => exact fun j hj => Nat.lt_of_lt_of_le (h j hj) hlength
  | list hi => exact fun j hj => Nat.lt_of_lt_of_le (h j hj) hlength

/-! ## Many lines -/

/-- Lines keep the package well formed. -/
theorem Reads.wellFormed (hreads : Reads r ls r') (h : r.package.WellFormed)
    (hls : ∀ l ∈ ls, '\n' ∉ l) : r'.package.WellFormed := by
  induction hreads with
  | done r => exact h
  | line hstep hrest ih =>
    obtain ⟨hline, hrest⟩ := List.forall_mem_cons.1 hls
    obtain ⟨d, hd, hmove⟩ := move_of_step hstep
    refine ih (hmove.wellFormed h fun e he => ?_) hrest
    obtain rfl := Option.mem_def.1 he
    exact oneLine_of_ofLine? hline hd

/-- While lines are read, sections are only added at the end. -/
theorem Reads.outline_prefix (hreads : Reads r ls r') :
    r.package.outline <+: r'.package.outline := by
  induction hreads with
  | done r => exact List.prefix_refl _
  | line hstep hrest ih =>
    obtain ⟨d, -, hmove⟩ := move_of_step hstep
    exact hmove.outline_prefix.trans ih

/-- While lines are read, the current section stays one of the package. -/
theorem Reads.valid (hreads : Reads r ls r') (h : r.Valid) : r'.Valid := by
  induction hreads with
  | done r => exact h
  | line hstep hrest ih =>
    obtain ⟨d, -, hmove⟩ := move_of_step hstep
    exact ih (hmove.valid h)

theorem Reads.package_name (hreads : Reads r ls r') : r'.package.name = r.package.name := by
  induction hreads with
  | done r => rfl
  | line hstep hrest ih =>
    obtain ⟨d, -, hmove⟩ := move_of_step hstep
    rw [ih]
    cases hmove <;> rfl

theorem valid_start (name : String) : (start name).Valid :=
  fun _ hi => absurd hi (by simp [start])

end Reading

open Reading

/-- **Packages that are read are well formed.**  What a text is read as is a well-formed package,
and so is what was read after any of its lines; between any two of its lines sections are only added
at the end, and the current section is one of those there are. -/
theorem parse_wellFormed {name text : String} {p : Package}
    (hparse : Package.parse name text = .ok p) :
    p.name = name ∧ p.WellFormed ∧
      ∀ before mid after, lines text.toList = before ++ (mid ++ after) →
        ∃ r r' last, Reads (start name) before r ∧ Reads r mid r' ∧ Reads r' after last ∧
          last.package = p ∧ r.package.outline <+: r'.package.outline ∧
          r'.package.WellFormed ∧ r.Valid ∧ r'.Valid := by
  obtain ⟨last, hreads, rfl⟩ := Package.parse_eq_ok_iff.1 hparse
  have hnewline : ∀ l ∈ lines text.toList, '\n' ∉ l := fun _ => newline_notMem_of_mem_lines
  have hempty : (start name).package.WellFormed := Package.wellFormed_empty name
  refine ⟨hreads.package_name, hreads.wellFormed hempty hnewline, ?_⟩
  intro before mid after hlines
  rw [hlines] at hreads hnewline
  obtain ⟨r, hbefore, hrest⟩ := reads_append.1 hreads
  obtain ⟨r', hmid, hafter⟩ := reads_append.1 hrest
  obtain ⟨hbefore', hrest'⟩ := List.forall_mem_append.1 hnewline
  have hr : r.package.WellFormed := hbefore.wellFormed hempty hbefore'
  have hvalid : r.Valid := hbefore.valid (valid_start name)
  exact ⟨r, r', last, hbefore, hmid, hafter, rfl, hmid.outline_prefix,
    hmid.wellFormed hr (List.forall_mem_append.1 hrest').1, hvalid, hmid.valid hvalid⟩

/-- A text that opens a section again, once under another type and once because its name looks
made up. -/
def reopenedText : String :=
  "config access '@access[1]'\n\toption user alice\nconfig core '@access[1]'\n\tlist user bob\n" ++
    "config access\nconfig core\n"

theorem parse_wellFormed_reopened :
    Package.parse "luci" reopenedText = .ok ⟨"luci",
        [⟨"@access[1]", "access", false, [("user", .list ["alice", "bob"])]⟩,
          ⟨"@core[0]", "core", true, []⟩]⟩ ∧
      (Package.mk "luci" [⟨"@access[1]", "access", false, [("user", .list ["alice", "bob"])]⟩,
        ⟨"@core[0]", "core", true, []⟩]).WellFormed := by
  have hparse : Package.parse "luci" reopenedText = .ok ⟨"luci",
      [⟨"@access[1]", "access", false, [("user", .list ["alice", "bob"])]⟩,
        ⟨"@core[0]", "core", true, []⟩]⟩ := by
    rfl
  exact ⟨hparse, (parse_wellFormed hparse).2.1⟩

end Gatehouse.Uci
