import Gatehouse.Proofs.Uci.Readings
import Mathlib.Data.List.Basic

/-!
# Sections without a name

The name that is made up for a section without one counts the sections of its type.  Two made-up
names are the same only for one type and one count (`unnamed_name_inj`), so a made-up name can
clash with a given name alone.  `Reading.Named` says of a reading where its names come from; every
line keeps it, and `Named.name_taken_iff` concludes that the name made up next is taken exactly if
some line gave it.  `parse_unnamed_iff` is what that means for the text of a package.
-/

namespace Gatehouse.Uci

open Gatehouse.Text

/-! ## Made-up names -/

theorem append_cons_inj {α : Type} {a b c d : List α} {x : α} (hc : x ∉ c) (hd : x ∉ d)
    (h : a ++ x :: c = b ++ x :: d) : a = b ∧ c = d := by
  rcases List.append_eq_append_iff.1 h with ⟨e, rfl, he⟩ | ⟨e, rfl, he⟩
  · cases e with
    | nil => exact ⟨by simp, (List.cons.inj he).2⟩
    | cons y e =>
      obtain ⟨-, rfl⟩ := List.cons.inj he
      exact absurd (by simp) hc
  · cases e with
    | nil => exact ⟨by simp, (List.cons.inj he).2.symm⟩
    | cons y e =>
      obtain ⟨-, rfl⟩ := List.cons.inj he
      exact absurd (by simp) hd

theorem bracket_notMem_digits (n : Nat) : '[' ∉ Nat.toDigits 10 n := by
  intro h
  have hdigit := Nat.isDigit_of_mem_toDigits (by decide) (by decide) h
  exact absurd hdigit (by decide)

theorem toDigits_inj {m n : Nat} (h : Nat.toDigits 10 m = Nat.toDigits 10 n) : m = n := by
  have hvalue := congrArg (fun ds => Nat.ofDigitChars 10 ds 0) h
  simpa using hvalue

theorem unnamed_name_toList (type : String) (i : Nat) :
    (Section.unnamed type i).name.toList =
      '@' :: (type.toList ++ '[' :: Nat.toDigits 10 i) ++ [']'] := by
  simp [Section.unnamed, Nat.toString_eq_repr, Nat.toList_repr]

/-- A made-up name tells the type and the count. -/
theorem unnamed_name_inj {type type' : String} {i j : Nat}
    (h : (Section.unnamed type i).name = (Section.unnamed type' j).name) :
    type = type' ∧ i = j := by
  have hlist := congrArg String.toList h
  rw [unnamed_name_toList, unnamed_name_toList] at hlist
  have hinner := (List.cons.inj (List.append_cancel_right hlist)).2
  obtain ⟨htype, hdigits⟩ :=
    append_cons_inj (bracket_notMem_digits i) (bracket_notMem_digits j) hinner
  exact ⟨String.toList_injective htype, toDigits_inj hdigits⟩

/-! ## Where names come from -/

theorem Package.length_ofType (p : Package) (type : String) :
    (p.ofType type).length = p.outline.countP (·.type == type) := by
  rw [ofType, outline, List.countP_map, ← List.countP_eq_length_filter]
  rfl

/-- Every made-up name counts the sections of its type that stand before it. -/
def Counted (ss : List Section) : Prop :=
  ∀ pre s post, ss = pre ++ s :: post → s.anonymous = true →
    s.name = (Section.unnamed s.type (pre.countP (·.type == s.type))).name

theorem Counted.append {ss : List Section} {s : Section} (h : Counted ss)
    (hs : s.anonymous = true →
      s.name = (Section.unnamed s.type (ss.countP (·.type == s.type))).name) :
    Counted (ss ++ [s]) := by
  intro pre t post heq ht
  rcases List.eq_nil_or_concat post with rfl | ⟨post', last, rfl⟩
  · obtain ⟨rfl, hlast⟩ := List.append_inj' heq rfl
    obtain rfl := List.singleton_injective hlast
    exact hs ht
  · rw [List.concat_eq_append, ← List.cons_append, ← List.append_assoc] at heq
    obtain ⟨hpre, -⟩ := List.append_inj' heq rfl
    exact h pre t post' hpre ht

namespace Reading

/-- The name that would be made up next for a section of a type. -/
def madeUp (r : Reading) (type : String) : String :=
  (Section.unnamed type (r.package.ofType type).length).name

/-- Where the names of the sections come from, if `ls` are the lines that were read. -/
structure Named (r : Reading) (ls : List (List Char)) : Prop where
  /-- A made-up name counts the sections of its type that stand before it. -/
  counted : ∀ pre s post, r.package.outline = pre ++ s :: post → s.anonymous = true →
    s.name = (Section.unnamed s.type (pre.countP (·.type == s.type))).name
  /-- The other names were given by lines. -/
  given : ∀ s ∈ r.package.outline, s.anonymous = false → ∃ l ∈ ls, Gives l s.name
  /-- A name that a line gave is the name of a section. -/
  present : ∀ l ∈ ls, ∀ name, Gives l name → ∃ s ∈ r.package.outline, s.name = name

variable {r r' : Reading} {line : List Char} {ls ms : List (List Char)}

theorem named_start (name : String) : (start name).Named [] := by
  refine ⟨?_, ?_, ?_⟩
  · intro pre s post h
    exact absurd h.symm (by simp [start, Package.outline, Package.empty])
  · intro s hs
    exact absurd hs (by simp [start, Package.outline, Package.empty])
  · intro l hl
    exact absurd hl List.not_mem_nil

theorem Named.given_append (h : r.Named ls) (ms : List (List Char)) {s : Section}
    (hs : s ∈ r.package.outline) (hnamed : s.anonymous = false) :
    ∃ l ∈ ls ++ ms, Gives l s.name := by
  obtain ⟨l, hl, hgives⟩ := h.given s hs hnamed
  exact ⟨l, List.mem_append_left ms hl, hgives⟩

/-- A line keeps the names where they come from, if it leaves the outline alone and a name that it
gives is there already. -/
theorem Named.keep (h : r.Named ls) (hout : r'.package.outline = r.package.outline)
    (hgives : ∀ name, Gives line name → ∃ s ∈ r.package.outline, s.name = name) :
    r'.Named (ls ++ [line]) := by
  refine ⟨?_, ?_, ?_⟩
  · rw [hout]
    exact h.counted
  · rw [hout]
    exact fun s hs hnamed => h.given_append [line] hs hnamed
  · rw [hout]
    intro l hl name hname
    rcases List.mem_append.1 hl with hl | hl
    · exact h.present l hl name hname
    · obtain rfl := List.mem_singleton.1 hl
      exact hgives name hname

/-- A line keeps the names where they come from, if it adds the section that it asks for. -/
theorem Named.add (h : r.Named ls) {type : String} {name : Option String}
    (hline : Directive.ofLine? line = .ok (some (.config type name)))
    (hout : r'.package.outline = r.package.outline ++ [wanted r.package type name]) :
    r'.Named (ls ++ [line]) := by
  have hmem : line ∈ ls ++ [line] := List.mem_append_right ls (List.mem_singleton_self line)
  refine ⟨?_, ?_, ?_⟩
  · rw [hout]
    refine Counted.append h.counted fun hs => ?_
    cases name with
    | some n => exact absurd hs (by simp [wanted, Section.named])
    | none =>
      rw [← Package.length_ofType]
      rfl
  · intro s hs hnamed
    rw [hout] at hs
    rcases List.mem_append.1 hs with hs | hs
    · exact h.given_append [line] hs hnamed
    · obtain rfl := List.mem_singleton.1 hs
      cases name with
      | none => exact absurd hnamed (by simp [wanted, Section.unnamed])
      | some n => exact ⟨line, hmem, type, hline⟩
  · intro l hl n hn
    rw [hout]
    rcases List.mem_append.1 hl with hl | hl
    · obtain ⟨s, hs, hname⟩ := h.present l hl n hn
      exact ⟨s, List.mem_append_left _ hs, hname⟩
    · obtain rfl := List.mem_singleton.1 hl
      obtain ⟨type', hline'⟩ := hn
      obtain ⟨rfl, rfl⟩ : type = type' ∧ name = some n := by
        simpa using hline.symm.trans hline'
      exact ⟨_, List.mem_append_right _ (List.mem_singleton_self _), rfl⟩

/-- Every line keeps the names where they come from. -/
theorem Named.step (h : r.Named ls) (hstep : r.step line = .ok r') :
    r'.Named (ls ++ [line]) := by
  obtain ⟨d, hd, hmove⟩ := move_of_step hstep
  rcases hmove.outline with ⟨hconfig, hout⟩ | ⟨type, name, rfl, ⟨hold, hout⟩ | ⟨-, hout⟩⟩
  · refine h.keep hout fun n hn => ?_
    obtain ⟨type, hline⟩ := hn
    exact absurd (Except.ok.inj (hd.symm.trans hline)) (hconfig type (some n))
  · refine h.keep hout fun n hn => ?_
    obtain ⟨type', hline⟩ := hn
    obtain ⟨rfl, rfl⟩ : type = type' ∧ name = some n := by
      simpa using hd.symm.trans hline
    exact hold
  · exact h.add hd hout

/-- Lines keep the names where they come from. -/
theorem Named.reads (h : r.Named ls) (hreads : Reads r ms r') : r'.Named (ls ++ ms) := by
  induction hreads generalizing ls with
  | done r => rwa [List.append_nil]
  | line hstep hrest ih =>
    rw [List.append_cons]
    exact ih (h.step hstep)

/-- A section that has the name that would be made up next was given it. -/
theorem Named.not_anonymous (h : r.Named ls) {type : String} {s : Section}
    (hs : s ∈ r.package.outline) (hname : s.name = r.madeUp type) : s.anonymous = false := by
  by_contra hanon
  rw [Bool.not_eq_false] at hanon
  obtain ⟨pre, post, hsplit⟩ := List.append_of_mem hs
  have hcounted := h.counted pre s post hsplit hanon
  obtain ⟨htype, hcount⟩ := unnamed_name_inj (hcounted.symm.trans hname)
  -- The count made up next includes the section itself, its own count does not.
  rw [Package.length_ofType, hsplit, htype, List.countP_append, List.countP_cons] at hcount
  simp [htype] at hcount

/-- The name that would be made up next is taken exactly if some line gave it. -/
theorem Named.name_taken_iff (h : r.Named ls) (type : String) :
    (∃ s ∈ r.package.outline, s.name = r.madeUp type) ↔ ∃ l ∈ ls, Gives l (r.madeUp type) := by
  constructor
  · rintro ⟨s, hs, hname⟩
    rw [← hname]
    exact h.given s hs (h.not_anonymous hs hname)
  · rintro ⟨l, hl, hgives⟩
    exact h.present l hl _ hgives

/-- A `config` line without a name, with the lines under it, adds a section, unless the name that
is made up is taken; then it changes the options of the section that has the name. -/
theorem Reads.unnamed {type : String} {under : List (List Char)}
    (hline : Directive.ofLine? line = .ok (some (.config type none)))
    (hunder : ∀ l ∈ under, ¬IsConfig l) (hreads : Reads r (line :: under) r') :
    (∃ i s f, r.package.sections[i]? = some s ∧ s.name = r.madeUp type ∧ Section.Keeps f ∧
        r'.package.sections = r.package.sections.modify i f) ∨
      (∀ s ∈ r.package.sections, s.name ≠ r.madeUp type) ∧
        ∃ s, s.name = r.madeUp type ∧ s.type = type ∧ s.anonymous = true ∧
          r'.package.sections = r.package.sections ++ [s] := by
  obtain _ | ⟨hstep, hrest⟩ := hreads
  obtain ⟨d, hd, hmove⟩ := move_of_step hstep
  obtain rfl : some (.config type none) = d := Except.ok.inj (hline.symm.trans hd)
  cases hmove with
  | reopen hs hname =>
    obtain ⟨f, hf, hpackage, -⟩ := hrest.under rfl hunder
    rw [hpackage]
    exact Or.inl ⟨_, _, f, hs, hname, hf, rfl⟩
  | append hnew =>
    obtain ⟨f, hf, hpackage, -⟩ := hrest.under rfl hunder
    refine Or.inr ⟨hnew, f (wanted r.package type none), hf.name _, hf.type _, hf.anonymous _, ?_⟩
    rw [hpackage]
    exact modify_append_length r.package.sections _ f

/-- What was read adds an unnamed section of a type, and leaves the others as they were. -/
def OpensNew (r r' : Reading) (type : String) : Prop :=
  ∃ s, s.type = type ∧ s.anonymous = true ∧ r'.package.sections = r.package.sections ++ [s]

end Reading

open Reading

/-- **When unnamed sections stay separate.**  In a text that is read as a package, a `config` line
without a name opens a new unnamed section, which the lines under it fill, exactly if no line before
it gave the name that is made up for it.  Otherwise the section with that name, which is no unnamed
one, is opened again, and the lines under it change its options. -/
theorem parse_unnamed_iff {name text : String} {p : Package}
    (hparse : Package.parse name text = .ok p) {before under after : List (List Char)}
    {line : List Char} {type : String}
    (hlines : lines text.toList = before ++ line :: (under ++ after))
    (hline : Directive.ofLine? line = .ok (some (.config type none)))
    (hunder : ∀ l ∈ under, ¬IsConfig l) :
    ∃ r r' last, Reads (start name) before r ∧ Reads r (line :: under) r' ∧
      Reads r' after last ∧ last.package = p ∧
      (r.OpensNew r' type ↔ ¬∃ l ∈ before, Gives l (r.madeUp type)) ∧
      ((∃ l ∈ before, Gives l (r.madeUp type)) →
        ∃ i s f, r.package.sections[i]? = some s ∧ s.name = r.madeUp type ∧
          s.anonymous = false ∧ Section.Keeps f ∧
          r'.package.sections = r.package.sections.modify i f) := by
  obtain ⟨last, hreads, hpackage⟩ := Package.parse_eq_ok_iff.1 hparse
  rw [hlines] at hreads
  obtain ⟨r, hbefore, hrest⟩ := reads_append.1 hreads
  rw [← List.cons_append] at hrest
  obtain ⟨r', hunnamed, hafter⟩ := reads_append.1 hrest
  have hnamed : r.Named before := (named_start name).reads hbefore
  refine ⟨r, r', last, hbefore, hunnamed, hafter, hpackage, ?_⟩
  rw [← hnamed.name_taken_iff type]
  rcases hunnamed.unnamed hline hunder with
    ⟨i, s, f, hs, hname, hf, hsections⟩ | ⟨hfree, s, hname, htype, hanon, hsections⟩
  · have hmem : s.bare ∈ r.package.outline := List.mem_map_of_mem (List.mem_of_getElem? hs)
    have htaken : ∃ s ∈ r.package.outline, s.name = r.madeUp type := ⟨s.bare, hmem, hname⟩
    refine ⟨⟨?_, fun hfree => absurd htaken hfree⟩, fun _ => ?_⟩
    · rintro ⟨t, -, -, hadd⟩
      have hlength := congrArg List.length (hadd.symm.trans hsections)
      simp at hlength
    · have hgiven : s.bare.anonymous = false := hnamed.not_anonymous hmem hname
      exact ⟨i, s, f, hs, hname, hgiven, hf, hsections⟩
  · have hnot : ¬∃ s ∈ r.package.outline, s.name = r.madeUp type := by
      rintro ⟨t, ht, htname⟩
      obtain ⟨u, hu, rfl⟩ := List.mem_map.1 ht
      exact hfree u hu htname
    exact ⟨⟨fun _ => hnot, fun _ => ⟨s, htype, hanon, hsections⟩⟩, fun h => absurd h hnot⟩

/-- A text that gives a name that looks made up, and then has a section without a name. -/
def lookalikeText : String :=
  "config access '@access[0]'\nconfig access\noption user bob\n"

theorem parse_unnamed_second :
    ∃ r r' last, Reads (start "luci") ["config access '@access[0]'".toList] r ∧
      Reads r ["config access".toList, "option user bob".toList] r' ∧ Reads r' [] last ∧
      last.package = ⟨"luci", [⟨"@access[0]", "access", false, []⟩,
        ⟨"@access[1]", "access", true, [("user", .scalar "bob")]⟩]⟩ ∧
      r.OpensNew r' "access" := by
  have hparse : Package.parse "luci" lookalikeText =
      .ok ⟨"luci", [⟨"@access[0]", "access", false, []⟩,
        ⟨"@access[1]", "access", true, [("user", .scalar "bob")]⟩]⟩ := by
    rfl
  have hlines : lines lookalikeText.toList =
      ["config access '@access[0]'".toList] ++
        "config access".toList :: (["option user bob".toList] ++ []) := by
    rfl
  have hnamed : Directive.ofLine? "config access '@access[0]'".toList =
      .ok (some (.config "access" (some "@access[0]"))) := by
    rfl
  have hline : Directive.ofLine? "config access".toList = .ok (some (.config "access" none)) := by
    rfl
  have hoption : Directive.ofLine? "option user bob".toList =
      .ok (some (.option "user" "bob")) := by
    rfl
  have hunder : ∀ l ∈ ["option user bob".toList], ¬IsConfig l := by
    intro l hl
    obtain rfl := List.mem_singleton.1 hl
    exact (not_isConfig_iff hoption).2 (by simp)
  obtain ⟨r, r', last, hbefore, hunnamed, hafter, hpackage, hiff, -⟩ :=
    parse_unnamed_iff hparse hlines hline hunder
  have hrun : (start "luci").run 1 ["config access '@access[0]'".toList] =
      .ok ⟨⟨"luci", [⟨"@access[0]", "access", false, []⟩]⟩, some 0⟩ := by
    rfl
  obtain rfl := Except.ok.inj ((run_eq_ok_iff.2 hbefore).symm.trans hrun)
  refine ⟨_, r', last, hbefore, hunnamed, hafter, hpackage, hiff.2 ?_⟩
  rintro ⟨l, hl, type, hgives⟩
  obtain rfl := List.mem_singleton.1 hl
  have hname := hnamed.symm.trans hgives
  simp only [Except.ok.injEq, Option.some.injEq, Directive.config.injEq] at hname
  exact absurd hname.2 (by decide)

/-- A text that gives one user an access section, and then has one without a name for another. -/
def clashText : String :=
  "config access '@access[1]'\n\toption user 'alice'\n\tlist write '*'\n" ++
    "config access\n\toption user 'bob'\n"

/-- Unnamed sections do not always stay separate: here `bob` gets the rights of `alice`, and she
loses them. -/
theorem not_forall_opensNew :
    ¬∀ (name text : String) (p : Package) (before under after : List (List Char))
        (line : List Char) (type : String) (r r' : Reading),
      Package.parse name text = .ok p →
      lines text.toList = before ++ line :: (under ++ after) →
      Directive.ofLine? line = .ok (some (.config type none)) →
      (∀ l ∈ under, ¬IsConfig l) →
      Reads (start name) before r → Reads r (line :: under) r' → r.OpensNew r' type := by
  intro h
  have hparse : Package.parse "luci" clashText = .ok ⟨"luci", [⟨"@access[1]", "access", false,
      [("user", .scalar "bob"), ("write", .list ["*"])]⟩]⟩ := by
    rfl
  have hlines : lines clashText.toList = ["config access '@access[1]'".toList,
      "\toption user 'alice'".toList, "\tlist write '*'".toList] ++
        "config access".toList :: (["\toption user 'bob'".toList] ++ []) := by
    decide
  have hline : Directive.ofLine? "config access".toList = .ok (some (.config "access" none)) := by
    rfl
  have hoption : Directive.ofLine? "\toption user 'bob'".toList =
      .ok (some (.option "user" "bob")) := by
    rfl
  have hunder : ∀ l ∈ ["\toption user 'bob'".toList], ¬IsConfig l := by
    intro l hl
    obtain rfl := List.mem_singleton.1 hl
    exact (not_isConfig_iff hoption).2 (by simp)
  have hbefore : (start "luci").run 1 ["config access '@access[1]'".toList,
      "\toption user 'alice'".toList, "\tlist write '*'".toList] =
        .ok ⟨⟨"luci", [⟨"@access[1]", "access", false,
          [("user", .scalar "alice"), ("write", .list ["*"])]⟩]⟩, some 0⟩ := by
    rfl
  have hunnamed : Reading.run ⟨⟨"luci", [⟨"@access[1]", "access", false,
      [("user", .scalar "alice"), ("write", .list ["*"])]⟩]⟩, some 0⟩ 4
        ["config access".toList, "\toption user 'bob'".toList] =
        .ok ⟨⟨"luci", [⟨"@access[1]", "access", false,
          [("user", .scalar "bob"), ("write", .list ["*"])]⟩]⟩, some 0⟩ := by
    rfl
  obtain ⟨s, -, -, hsections⟩ := h _ _ _ _ _ _ _ _ _ _ hparse hlines hline hunder
    (run_eq_ok_iff.1 hbefore) (run_eq_ok_iff.1 hunnamed)
  have hlength := congrArg List.length hsections
  simp at hlength

end Gatehouse.Uci
