import Gatehouse.Proofs.Uci.WellFormed

/-!
# One more value in a package

What becomes of a package when one more value is added to one of its lists while it is being read.

* `OptionValue.Grows`, `Section.Gains`, `Package.Gains` — the differences that such a value can make
  to an option, to a section and to a package.  A value that is written later may undo the
  difference, and no line makes it any other.
* `Reading.Gains.apply` — carrying out a directive keeps the difference, and goes the same way on
  both sides.
* `Reading.Gains.reads` — so do lines.

`exists_gains` puts this together for a line that is put between the lines of a text.
-/

namespace Gatehouse.Uci

open Gatehouse.Text

/-! ## Options -/

namespace OptionValue

/-- The values of an option that may be missing. -/
def valuesOf (o : Option OptionValue) : List String :=
  o.elim [] values

theorem push_eq (value : String) (o : Option OptionValue) :
    push value o = .list (valuesOf o ++ [value]) := by
  rcases o with _ | _ | _ <;> rfl

/-- What an option can be to what it is without a value that was added: the same, or a list that
misses none of the values. -/
inductive Grows (o : Option OptionValue) : Option OptionValue → Prop where
  /-- The value was overwritten. -/
  | same : Grows o o
  /-- The value is in the list. -/
  | longer {values : List String} (h : valuesOf o ⊆ values) : Grows o (some (.list values))

theorem grows_push (o : Option OptionValue) (value : String) : Grows o (some (push value o)) := by
  rw [push_eq]
  exact .longer (List.subset_append_left _ _)

theorem Grows.push {o o' : Option OptionValue} (h : Grows o o') (value : String) :
    Grows (some (push value o)) (some (push value o')) := by
  cases h with
  | same => exact .same
  | longer h =>
    rw [push_eq, push_eq]
    exact .longer (List.append_subset.2
      ⟨List.Subset.trans h (List.subset_append_left _ _), List.subset_append_right _ _⟩)

end OptionValue

open OptionValue

/-! ## Sections -/

namespace Section

/-- What a section can be to what it is without a value that was added to the option `key`. -/
structure Gains (key : String) (s s' : Section) : Prop where
  /-- All but the options is the same. -/
  bare : s'.bare = s.bare
  /-- So are the other options. -/
  others : ∀ name ≠ key, s'.option? name = s.option? name
  /-- The option may have more values. -/
  grows : Grows (s.option? key) (s'.option? key)

variable {key : String} {s s' : Section}

theorem option?_setOption (s : Section) (name value other : String) :
    (s.setOption name value).option? other =
      if other = name then some (.scalar value) else s.option? other :=
  Keyed.get?_set name other _ s.options

theorem option?_addList (s : Section) (name value other : String) :
    (s.addList name value).option? other =
      if other = name then some (push value (s.option? name)) else s.option? other :=
  Keyed.get?_alter name other _ s.options

theorem gains_addList (s : Section) (key value : String) : s.Gains key (s.addList key value) where
  bare := keeps_addList key value s
  others name hname := by rw [option?_addList, if_neg hname]
  grows := by
    rw [option?_addList, if_pos rfl]
    exact grows_push _ value

theorem Gains.setOption (h : s.Gains key s') (name value : String) :
    (s.setOption name value).Gains key (s'.setOption name value) where
  bare := h.bare
  others other hother := by
    rw [option?_setOption, option?_setOption, h.others other hother]
  grows := by
    rw [option?_setOption, option?_setOption]
    split
    · exact .same
    · exact h.grows

theorem Gains.addList (h : s.Gains key s') (name value : String) :
    (s.addList name value).Gains key (s'.addList name value) where
  bare := h.bare
  others other hother := by
    rw [option?_addList, option?_addList, h.others other hother]
    split
    · rename_i hname
      rw [← hname, h.others other hother]
    · rfl
  grows := by
    rw [option?_addList, option?_addList]
    split
    · rename_i hkey
      rw [← hkey]
      exact h.grows.push value
    · exact h.grows

end Section

/-! ## Packages -/

namespace Package

/-- What a package can be to what it is without a value that was added to the option `key` of its
section in the place `i`. -/
structure Gains (i : Nat) (key : String) (p p' : Package) : Prop where
  /-- The other sections are the same. -/
  others : ∀ j ≠ i, p'.sections[j]? = p.sections[j]?
  /-- The section in the place may have more values. -/
  here : ∃ s s', p.sections[i]? = some s ∧ p'.sections[i]? = some s' ∧ s.Gains key s'

variable {i : Nat} {key : String} {p p' : Package}

theorem Gains.outline (h : p.Gains i key p') : p'.outline = p.outline := by
  obtain ⟨s, s', hs, hs', hgains⟩ := h.here
  refine List.ext_getElem? fun j => ?_
  rw [Package.outline, Package.outline, List.getElem?_map, List.getElem?_map]
  by_cases hj : j = i
  · rw [hj, hs, hs', Option.map_some, Option.map_some, hgains.bare]
  · rw [h.others j hj]

theorem Gains.length (h : p.Gains i key p') : p'.sections.length = p.sections.length := by
  rw [← length_outline, h.outline, length_outline]

theorem Gains.push (h : p.Gains i key p') (t : Section) :
    (p.push t).Gains i key (p'.push t) := by
  obtain ⟨s, s', hs, hs', hgains⟩ := h.here
  refine ⟨fun j hj => ?_, s, s', ?_, ?_, hgains⟩
  · rw [Package.push, Package.push, List.getElem?_append, List.getElem?_append, h.length,
      h.others j hj]
  · exact (List.getElem?_append_left (List.getElem?_eq_some_iff.1 hs).1).trans hs
  · exact (List.getElem?_append_left (List.getElem?_eq_some_iff.1 hs').1).trans hs'

theorem Gains.modifySection (h : p.Gains i key p') (j : Nat) {f : Section → Section}
    (hf : ∀ {s s'}, Section.Gains key s s' → (f s).Gains key (f s')) :
    (p.modifySection j f).Gains i key (p'.modifySection j f) := by
  obtain ⟨s, s', hs, hs', hgains⟩ := h.here
  unfold Package.modifySection
  constructor
  · intro k hk
    rw [List.getElem?_modify, List.getElem?_modify, h.others k hk]
  · by_cases hj : j = i
    · refine ⟨f s, f s', ?_, ?_, hf hgains⟩ <;> rw [List.getElem?_modify]
      · simp [hs, hj]
      · simp [hs', hj]
    · refine ⟨s, s', ?_, ?_, hgains⟩ <;> rw [List.getElem?_modify]
      · simp [hs, hj]
      · simp [hs', hj]

/-- Adding a value to a list of a section makes such a difference. -/
theorem gains_addList {s : Section} (hs : p.sections[i]? = some s) (key value : String) :
    p.Gains i key (p.modifySection i (·.addList key value)) := by
  unfold Package.modifySection
  refine ⟨fun j hj => ?_, s, s.addList key value, hs, ?_, s.gains_addList key value⟩
  · rw [List.getElem?_modify]
    simp [Ne.symm hj]
  · rw [List.getElem?_modify]
    simp [hs]

/-- The sections before the one with more values, and those after it, are the same. -/
theorem Gains.split (h : p.Gains i key p') : ∃ pre s s' post, p.sections = pre ++ s :: post ∧
    p'.sections = pre ++ s' :: post ∧ p.sections[i]? = some s ∧ s.Gains key s' := by
  obtain ⟨s, s', hs, hs', hgains⟩ := h.here
  have hset : p'.sections = p.sections.set i s' := by
    refine List.ext_getElem? fun j => ?_
    by_cases hj : j = i
    · rw [hj, hs', List.getElem?_set_self (List.getElem?_eq_some_iff.1 hs).1]
    · rw [h.others j hj, List.getElem?_set_ne (Ne.symm hj)]
  obtain ⟨hi, hget⟩ := List.getElem?_eq_some_iff.1 hs
  refine ⟨p.sections.take i, s, s', p.sections.drop (i + 1), ?_, ?_, hs, hgains⟩
  · rw [← hget, ← List.drop_eq_getElem_cons hi, List.take_append_drop]
  · rw [hset, List.set_eq_take_append_cons_drop, if_pos hi]

end Package

/-! ## Readings -/

namespace Reading

/-- What a reading can be to what it is without a value that was added to the option `key` of its
section in the place `i`. -/
structure Gains (i : Nat) (key : String) (r r' : Reading) : Prop where
  /-- The current section is the same. -/
  current : r'.current = r.current
  /-- The package may have more values. -/
  package : r.package.Gains i key r'.package

variable {i : Nat} {key : String} {r r' r₁ : Reading} {ls : List (List Char)}

/-- Which section a `config` line opens does not depend on options. -/
theorem wanted_congr {p p' : Package} (h : p'.outline = p.outline) (type : String)
    (name : Option String) : wanted p' type name = wanted p type name := by
  have hcount : ∀ q : Package, (q.ofType type).length = q.outline.countP (·.type == type) := by
    intro q
    rw [Package.outline, List.countP_map, List.countP_eq_length_filter]
    rfl
  cases name with
  | some name => rfl
  | none => rw [wanted, wanted, hcount, hcount, h]

theorem findIdx?_name_congr {p p' : Package} (h : p'.outline = p.outline) (name : String) :
    p'.sections.findIdx? (·.name == name) = p.sections.findIdx? (·.name == name) := by
  have hmap : ∀ q : Package,
      q.sections.findIdx? (·.name == name) = q.outline.findIdx? (·.name == name) := by
    intro q
    rw [Package.outline, List.findIdx?_map]
    rfl
  rw [hmap, hmap, h]

/-- Carrying out a directive keeps the difference. -/
theorem Gains.apply (h : r.Gains i key r') {d : Directive} (hr : r.apply d = .ok r₁) :
    ∃ r₁', r'.apply d = .ok r₁' ∧ r₁.Gains i key r₁' := by
  cases d with
  | package name =>
    obtain rfl := Except.ok.inj hr
    exact ⟨r', rfl, h⟩
  | config type name =>
    obtain rfl := Except.ok.inj hr
    refine ⟨_, rfl, ?_⟩
    rw [wanted_congr h.package.outline]
    unfold Package.openSection
    rw [findIdx?_name_congr h.package.outline, h.package.length]
    cases r.package.sections.findIdx? (·.name == (wanted r.package type name).name) with
    | some j => exact ⟨rfl, h.package⟩
    | none => exact ⟨rfl, h.package.push _⟩
  | option name value =>
    simp only [Reading.apply, h.current] at hr ⊢
    cases hcurrent : r.current with
    | none => rw [hcurrent] at hr; exact absurd hr (by simp)
    | some j =>
      rw [hcurrent] at hr
      obtain rfl := Except.ok.inj hr
      exact ⟨_, rfl, rfl, h.package.modifySection j fun hs => hs.setOption name value⟩
  | list name value =>
    simp only [Reading.apply, h.current] at hr ⊢
    cases hcurrent : r.current with
    | none => rw [hcurrent] at hr; exact absurd hr (by simp)
    | some j =>
      rw [hcurrent] at hr
      obtain rfl := Except.ok.inj hr
      exact ⟨_, rfl, rfl, h.package.modifySection j fun hs => hs.addList name value⟩

/-- Carrying out a line keeps the difference. -/
theorem Gains.step (h : r.Gains i key r') {line : List Char} (hr : r.step line = .ok r₁) :
    ∃ r₁', r'.step line = .ok r₁' ∧ r₁.Gains i key r₁' := by
  unfold Reading.step at hr ⊢
  split at hr
  · exact h.apply hr
  · obtain rfl := Except.ok.inj hr
    exact ⟨r', rfl, h⟩
  · exact absurd hr (by simp)

/-- Carrying out lines keeps the difference. -/
theorem Gains.reads (h : r.Gains i key r') (hr : Reads r ls r₁) :
    ∃ r₁', Reads r' ls r₁' ∧ r₁.Gains i key r₁' := by
  induction hr generalizing r' with
  | done r => exact ⟨r', .done r', h⟩
  | line hstep hrest ih =>
    obtain ⟨r₂', hstep', h₂⟩ := h.step hstep
    obtain ⟨r₁', hrest', h₁⟩ := ih h₂
    exact ⟨r₁', .line hstep' hrest', h₁⟩

/-- A line that adds a value to a list can stand anywhere after the first `config` line: what is
read then has, in the section that is current there, at most more values of that list. -/
theorem exists_gains {name key value : String} {line : List Char} {before after : List (List Char)}
    (hr : Reads (start name) (before ++ after) r₁) (hconfig : ∃ l ∈ before, IsConfig l)
    (hline : Directive.ofLine? line = .ok (some (.list key value))) :
    ∃ r i r₁', Reads (start name) before r ∧ r.current = some i ∧
      Reads (start name) (before ++ line :: after) r₁' ∧ r₁.Gains i key r₁' := by
  obtain ⟨r, hbefore, hafter⟩ := reads_append.1 hr
  obtain ⟨i, hi⟩ := hbefore.exists_current_iff.2 (.inr hconfig)
  have hlength : i < r.package.sections.length := hbefore.valid (valid_start name) i hi
  have hstep : r.step line =
      .ok { r with package := r.package.modifySection i (·.addList key value) } := by
    simp only [Reading.step, hline, Reading.apply, hi]
  have hgains : r.Gains i key
      { r with package := r.package.modifySection i (·.addList key value) } :=
    ⟨rfl, Package.gains_addList (List.getElem?_eq_getElem hlength) key value⟩
  obtain ⟨r₁', hafter', h₁⟩ := hgains.reads hafter
  exact ⟨r, i, r₁', hbefore, hi, reads_append.2 ⟨r, hbefore, .line hstep hafter'⟩, h₁⟩

end Reading

end Gatehouse.Uci
