import Gatehouse.Uci.Reader
import Mathlib.Tactic.Common

/-!
# Readings of a package

Reading a package is a run over lines, and here a run is taken apart.

* `Reading.Move` — what carrying out one directive can do, a constructor for each thing, and
  `Reading.move_of_step` that a line does nothing else.
* `Reading.Reads` — lines lead from one reading to another; `run_eq_ok_iff` says that this is what
  `run` computes, whatever number the first line has, `run_eq_error_iff` where it fails, and
  `reads_append` cuts it where the lines are cut.
* `Package.outline` — the sections without their options, which only `config` lines change, and
  only by adding one at the end (`Move.outline`).
* `Reads.under` — lines that open no section change the current one and nothing else.
-/

namespace Gatehouse.Uci

open Gatehouse.Text

/-! ## Sections without their options -/

/-- The section without its options. -/
def Section.bare (s : Section) : Section :=
  { s with options := [] }

/-- The sections of a package without their options. -/
def Package.outline (p : Package) : List Section :=
  p.sections.map Section.bare

@[simp] theorem Section.bare_name (s : Section) : s.bare.name = s.name := rfl

@[simp] theorem Section.bare_type (s : Section) : s.bare.type = s.type := rfl

@[simp] theorem Section.bare_anonymous (s : Section) : s.bare.anonymous = s.anonymous := rfl

/-- A change of a section that leaves all but its options alone. -/
def Section.Keeps (f : Section → Section) : Prop :=
  ∀ s, (f s).bare = s.bare

theorem Section.keeps_setOption (name value : String) : Keeps (·.setOption name value) :=
  fun _ => rfl

theorem Section.keeps_addList (name value : String) : Keeps (·.addList name value) :=
  fun _ => rfl

theorem Section.keeps_id : Keeps id :=
  fun _ => rfl

theorem Section.Keeps.name {f : Section → Section} (hf : Keeps f) (s : Section) :
    (f s).name = s.name := by
  simpa using congrArg Section.name (hf s)

theorem Section.Keeps.type {f : Section → Section} (hf : Keeps f) (s : Section) :
    (f s).type = s.type := by
  simpa using congrArg Section.type (hf s)

theorem Section.Keeps.anonymous {f : Section → Section} (hf : Keeps f) (s : Section) :
    (f s).anonymous = s.anonymous := by
  simpa using congrArg Section.anonymous (hf s)

theorem Section.Keeps.comp {f g : Section → Section} (hg : Keeps g) (hf : Keeps f) :
    Keeps (g ∘ f) := by
  intro s
  rw [Function.comp_apply, hg (f s), hf s]

theorem modify_append_length {α : Type} (as : List α) (a : α) (f : α → α) :
    (as ++ [a]).modify as.length f = as ++ [f a] := by
  induction as with
  | nil => rfl
  | cons b as ih => rw [List.cons_append, List.length_cons, List.modify_succ_cons, ih]; rfl

namespace Package

@[simp] theorem outline_push (p : Package) (s : Section) :
    (p.push s).outline = p.outline ++ [s.bare] := by
  simp [outline, push]

theorem outline_modifySection {f : Section → Section} (hf : Section.Keeps f) (p : Package)
    (i : Nat) : (p.modifySection i f).outline = p.outline := by
  refine List.ext_getElem? fun j => ?_
  simp only [outline, modifySection, List.getElem?_map, List.getElem?_modify]
  cases p.sections[j]? with
  | none => rfl
  | some s =>
    by_cases h : i = j
    · simp [h, hf s]
    · simp [h]

/-- Opening a section finds one of its name or adds it. -/
theorem openSection_cases (p : Package) (s : Section) :
    (∃ i t, p.sections[i]? = some t ∧ t.name = s.name ∧ p.openSection s = (p, i)) ∨
      (∀ t ∈ p.sections, t.name ≠ s.name) ∧
        p.openSection s = (p.push s, p.sections.length) := by
  unfold openSection
  cases h : p.sections.findIdx? (·.name == s.name) with
  | some i =>
    obtain ⟨hi, hname, -⟩ := List.findIdx?_eq_some_iff_getElem.1 h
    exact Or.inl ⟨i, p.sections[i], List.getElem?_eq_getElem hi, eq_of_beq hname, rfl⟩
  | none =>
    refine Or.inr ⟨fun t ht hname => ?_, rfl⟩
    have hne := List.findIdx?_eq_none_iff.1 h t ht
    rw [hname, beq_self_eq_true] at hne
    exact absurd hne (by simp)

end Package

/-! ## What lines say -/

/-- The line opens a section. -/
def IsConfig (line : List Char) : Prop :=
  ∃ type name, Directive.ofLine? line = .ok (some (.config type name))

/-- The line opens a section and gives it a name. -/
def Gives (line : List Char) (name : String) : Prop :=
  ∃ type, Directive.ofLine? line = .ok (some (.config type (some name)))

theorem not_isConfig_iff {line : List Char} {d : Option Directive}
    (h : Directive.ofLine? line = .ok d) :
    ¬IsConfig line ↔ ∀ type name, d ≠ some (.config type name) := by
  constructor
  · rintro hline type name rfl
    exact hline ⟨type, name, h⟩
  · rintro hd ⟨type, name, hline⟩
    exact hd type name (Except.ok.inj (h.symm.trans hline))

namespace Reading

/-! ## One line -/

/-- What carrying out a directive can do. -/
inductive Move (r : Reading) : Option Directive → Reading → Prop where
  /-- Nothing is asked for. -/
  | blank : Move r none r
  /-- The package is named. -/
  | package (name : String) : Move r (some (.package name)) r
  /-- A section that is there already is opened. -/
  | reopen {type : String} {name : Option String} {i : Nat} {s : Section}
      (hs : r.package.sections[i]? = some s)
      (hname : s.name = (wanted r.package type name).name) :
      Move r (some (.config type name)) ⟨r.package, some i⟩
  /-- A new section is opened. -/
  | append {type : String} {name : Option String}
      (hnew : ∀ s ∈ r.package.sections, s.name ≠ (wanted r.package type name).name) :
      Move r (some (.config type name))
        ⟨r.package.push (wanted r.package type name), some r.package.sections.length⟩
  /-- A single value is written. -/
  | option {name value : String} {i : Nat} (hi : r.current = some i) :
      Move r (some (.option name value))
        { r with package := r.package.modifySection i (·.setOption name value) }
  /-- A value is added to a list. -/
  | list {name value : String} {i : Nat} (hi : r.current = some i) :
      Move r (some (.list name value))
        { r with package := r.package.modifySection i (·.addList name value) }

variable {r r' r'' : Reading} {line : List Char} {ls ms : List (List Char)}

theorem move_of_apply {d : Directive} (h : r.apply d = .ok r') : Move r (some d) r' := by
  cases d with
  | package name =>
    obtain rfl := Except.ok.inj h
    exact .package name
  | config type name =>
    obtain rfl := Except.ok.inj h
    rcases r.package.openSection_cases (wanted r.package type name) with
      ⟨i, s, hs, hname, hopen⟩ | ⟨hnew, hopen⟩
    · rw [hopen]
      exact .reopen hs hname
    · rw [hopen]
      exact .append hnew
  | option name value =>
    simp only [apply] at h
    split at h
    · rename_i i hi
      obtain rfl := Except.ok.inj h
      exact .option hi
    · exact absurd h (by simp)
  | list name value =>
    simp only [apply] at h
    split at h
    · rename_i i hi
      obtain rfl := Except.ok.inj h
      exact .list hi
    · exact absurd h (by simp)

/-- A line that is carried out makes one of the moves. -/
theorem move_of_step (h : r.step line = .ok r') :
    ∃ d, Directive.ofLine? line = .ok d ∧ Move r d r' := by
  unfold step at h
  split at h
  · rename_i d hd
    exact ⟨some d, hd, move_of_apply h⟩
  · rename_i hd
    obtain rfl := Except.ok.inj h
    exact ⟨none, hd, .blank⟩
  · exact absurd h (by simp)

/-- A directive that opens no section changes the options of the current one, or nothing. -/
theorem Move.change {d : Option Directive} (h : Move r d r')
    (hd : ∀ type name, d ≠ some (.config type name)) :
    r'.current = r.current ∧ (r' = r ∨ ∃ i f, r.current = some i ∧ Section.Keeps f ∧
      r'.package = r.package.modifySection i f) := by
  cases h with
  | blank => exact ⟨rfl, Or.inl rfl⟩
  | package name => exact ⟨rfl, Or.inl rfl⟩
  | reopen hs hname => exact absurd rfl (hd _ _)
  | append hnew => exact absurd rfl (hd _ _)
  | option hi => exact ⟨rfl, Or.inr ⟨_, _, hi, Section.keeps_setOption _ _, rfl⟩⟩
  | list hi => exact ⟨rfl, Or.inr ⟨_, _, hi, Section.keeps_addList _ _, rfl⟩⟩

/-- A directive leaves the outline alone, or adds the section that it asks for. -/
theorem Move.outline {d : Option Directive} (h : Move r d r') :
    ((∀ type name, d ≠ some (.config type name)) ∧ r'.package.outline = r.package.outline) ∨
      ∃ type name, d = some (.config type name) ∧
        ((∃ s ∈ r.package.outline, s.name = (wanted r.package type name).name) ∧
            r'.package.outline = r.package.outline ∨
          (∀ s ∈ r.package.outline, s.name ≠ (wanted r.package type name).name) ∧
            r'.package.outline = r.package.outline ++ [wanted r.package type name]) := by
  cases h with
  | blank => exact Or.inl ⟨by simp, rfl⟩
  | package name => exact Or.inl ⟨by simp, rfl⟩
  | option hi =>
    exact Or.inl ⟨by simp, Package.outline_modifySection (Section.keeps_setOption _ _) _ _⟩
  | list hi =>
    exact Or.inl ⟨by simp, Package.outline_modifySection (Section.keeps_addList _ _) _ _⟩
  | @reopen type name i s hs hname =>
    refine Or.inr ⟨type, name, rfl, Or.inl ⟨⟨s.bare, ?_, hname⟩, rfl⟩⟩
    exact List.mem_map.2 ⟨s, List.mem_of_getElem? hs, rfl⟩
  | @append type name hnew =>
    refine Or.inr ⟨type, name, rfl, Or.inr ⟨?_, ?_⟩⟩
    · intro s hs
      obtain ⟨t, ht, rfl⟩ := List.mem_map.1 hs
      exact hnew t ht
    · rw [Package.outline_push]
      cases name <;> rfl

/-- A directive that opens a section makes it the current one, and no directive closes it. -/
theorem Move.exists_current_iff {d : Option Directive} (h : Move r d r') :
    (∃ i, r'.current = some i) ↔
      (∃ i, r.current = some i) ∨ ∃ type name, d = some (.config type name) := by
  cases h with
  | blank => simp
  | package name => simp
  | reopen hs hname => simp
  | append hnew => simp
  | option hi => simp [hi]
  | list hi => simp [hi]

/-! ## Many lines -/

/-- Lines lead from one reading to another. -/
inductive Reads : Reading → List (List Char) → Reading → Prop where
  /-- Without lines nothing happens. -/
  | done (r : Reading) : Reads r [] r
  /-- A line is carried out before the others. -/
  | line {r r' r'' : Reading} {line : List Char} {rest : List (List Char)}
      (hstep : r.step line = .ok r') (hrest : Reads r' rest r'') : Reads r (line :: rest) r''

theorem run_eq_ok_iff {number : Nat} : r.run number ls = .ok r' ↔ Reads r ls r' := by
  induction ls generalizing r number with
  | nil =>
    constructor
    · intro h
      obtain rfl := Except.ok.inj h
      exact .done r
    · rintro ⟨⟩
      rfl
  | cons line rest ih =>
    unfold run
    cases hstep : r.step line with
    | error fault =>
      constructor
      · intro h
        exact absurd h (by simp)
      · rintro ⟨⟩
        rename_i h _
        exact absurd (hstep.symm.trans h) (by simp)
    | ok r₁ =>
      constructor
      · intro h
        exact .line hstep (ih.1 h)
      · rintro ⟨⟩
        rename_i r₂ h hrest
        obtain rfl := Except.ok.inj (hstep.symm.trans h)
        exact ih.2 hrest

/-- A run fails at the first line that cannot be carried out. -/
theorem run_eq_error_iff {number n : Nat} {fault : LineFault} :
    r.run number ls = .error (n, fault) ↔
      ∃ before line after r', ls = before ++ line :: after ∧ n = number + before.length ∧
        Reads r before r' ∧ r'.step line = .error fault := by
  induction ls generalizing r number with
  | nil => simp [run]
  | cons line rest ih =>
    unfold run
    cases hstep : r.step line with
    | error fault' =>
      constructor
      · intro h
        obtain ⟨rfl, rfl⟩ := Prod.mk.inj (Except.error.inj h)
        exact ⟨[], line, rest, r, rfl, rfl, .done r, hstep⟩
      · rintro ⟨before, line', after, r', hls, rfl, hbefore, hfault⟩
        cases hbefore with
        | done r =>
          obtain ⟨rfl, -⟩ := List.cons.inj hls
          obtain rfl := Except.error.inj (hstep.symm.trans hfault)
          rfl
        | line hstep' hrest =>
          obtain ⟨rfl, -⟩ := List.cons.inj hls
          exact absurd (hstep.symm.trans hstep') (by simp)
    | ok r₁ =>
      refine Iff.trans ih ?_
      constructor
      · rintro ⟨before, line', after, r', rfl, rfl, hbefore, hfault⟩
        refine ⟨line :: before, line', after, r', rfl, ?_, .line hstep hbefore, hfault⟩
        rw [List.length_cons]
        omega
      · rintro ⟨before, line', after, r', hls, rfl, hbefore, hfault⟩
        cases hbefore with
        | done r =>
          obtain ⟨rfl, -⟩ := List.cons.inj hls
          exact absurd (hstep.symm.trans hfault) (by simp)
        | @line _ r₂ _ _ before hstep' hrest =>
          obtain ⟨rfl, rfl⟩ := List.cons.inj hls
          obtain rfl := Except.ok.inj (hstep.symm.trans hstep')
          refine ⟨before, line', after, r', rfl, ?_, hrest, hfault⟩
          rw [List.length_cons]
          omega

theorem reads_append : Reads r (ls ++ ms) r'' ↔ ∃ r', Reads r ls r' ∧ Reads r' ms r'' := by
  induction ls generalizing r with
  | nil =>
    constructor
    · intro h
      exact ⟨r, .done r, h⟩
    · rintro ⟨_, ⟨⟩, h⟩
      exact h
  | cons line rest ih =>
    constructor
    · rintro (_ | ⟨hstep, hrest⟩)
      obtain ⟨r', hr', hms⟩ := ih.1 hrest
      exact ⟨r', .line hstep hr', hms⟩
    · rintro ⟨r', _ | ⟨hstep, hrest⟩, hms⟩
      exact .line hstep (ih.2 ⟨r', hrest, hms⟩)

/-- Before the first line there are no sections. -/
def start (name : String) : Reading :=
  ⟨.empty name, none⟩

/-- There is a current section after a `config` line, and only then. -/
theorem Reads.exists_current_iff (h : Reads r ls r') :
    (∃ i, r'.current = some i) ↔ (∃ i, r.current = some i) ∨ ∃ l ∈ ls, IsConfig l := by
  induction h with
  | done r => simp
  | @line r r₁ r₂ line rest hstep hrest ih =>
    obtain ⟨d, hd, hmove⟩ := move_of_step hstep
    have hconfig : IsConfig line ↔ ∃ type name, d = some (.config type name) := by
      simp only [IsConfig, hd, Except.ok.injEq]
    rw [ih, hmove.exists_current_iff, ← hconfig, or_assoc]
    simp

/-- Lines that open no section change the options of the current section, and nothing else. -/
theorem Reads.under {i : Nat} (h : Reads r ls r') (hi : r.current = some i)
    (hls : ∀ l ∈ ls, ¬IsConfig l) :
    ∃ f, Section.Keeps f ∧ r'.package = r.package.modifySection i f ∧ r'.current = some i := by
  induction h with
  | done r =>
    refine ⟨id, Section.keeps_id, ?_, hi⟩
    unfold Package.modifySection
    rw [List.modify_id]
  | line hstep hrest ih =>
    rename_i r r₁ r₂ line rest
    obtain ⟨d, hd, hmove⟩ := move_of_step hstep
    have hconfig := (not_isConfig_iff hd).1 (hls line List.mem_cons_self)
    obtain ⟨hcurrent, hchange⟩ := hmove.change hconfig
    obtain ⟨g, hg, hpackage, hcurrent'⟩ :=
      ih (hcurrent.trans hi) fun l hl => hls l (List.mem_cons_of_mem _ hl)
    rcases hchange with rfl | ⟨j, f, hj, hf, hf'⟩
    · exact ⟨g, hg, hpackage, hcurrent'⟩
    · obtain rfl : j = i := Option.some.inj (hj.symm.trans hi)
      refine ⟨g ∘ f, hg.comp hf, ?_, hcurrent'⟩
      rw [hpackage, hf']
      unfold Package.modifySection
      rw [List.modify_modify_eq]

end Reading

/-- A text is read as a package if its lines lead to that package. -/
theorem Package.parse_eq_ok_iff {name text : String} {p : Package} :
    Package.parse name text = .ok p ↔
      ∃ r, Reading.Reads (.start name) (lines text.toList) r ∧ r.package = p := by
  unfold Package.parse
  change (·.package) <$> (Reading.start name).run 1 (lines text.toList) = .ok p ↔ _
  cases h : (Reading.start name).run 1 (lines text.toList) with
  | error e =>
    constructor
    · intro hp
      exact absurd hp (by simp)
    · rintro ⟨r, hr, -⟩
      exact absurd (h.symm.trans (Reading.run_eq_ok_iff.2 hr)) (by simp)
  | ok r =>
    constructor
    · intro hp
      exact ⟨r, Reading.run_eq_ok_iff.1 h, Except.ok.inj hp⟩
    · rintro ⟨r', hr', rfl⟩
      obtain rfl := Except.ok.inj (h.symm.trans (Reading.run_eq_ok_iff.2 hr'))
      rfl

/-- A text is no package if the run over its lines fails. -/
theorem Package.parse_eq_error_iff {name text : String} {e : Nat × LineFault} :
    Package.parse name text = .error e ↔
      (Reading.start name).run 1 (lines text.toList) = .error e := by
  unfold Package.parse
  change (·.package) <$> (Reading.start name).run 1 (lines text.toList) = .error e ↔ _
  cases h : (Reading.start name).run 1 (lines text.toList) <;> simp

end Gatehouse.Uci
