import Gatehouse.Proofs.Acl.Authority
import Gatehouse.Proofs.Login.Gate
import Gatehouse.Proofs.Login.Visibility
import Gatehouse.Proofs.Uci.Additions
import Gatehouse.Proofs.Uci.Written

/-!
# Adding a right to the policies

A line `list read` or `list write` with one more pattern gives a right to the users of its section.

* `rightLine` — the line, with its pattern in single quotes.
* `Policy.grantsDirectly_ofSection_iff` — which groups a section gives, told from its options.
* `authorizes_of_gains` — a section with more values in a list gives all that it gave.
* `policyIn?_of_gains` — what is found for a user in a package of which one section has more values.

`allowed_of_rightLine` says of a line that is put anywhere after the first section: the text can
still be read, every user keeps his rights, and only the users of that section can get others.
-/

namespace Gatehouse

open Gatehouse.Access Gatehouse.Acl Gatehouse.Text Gatehouse.Uci Gatehouse.Uci.Reading

/-! ## The line -/

/-- The line that gives the level for the groups that the pattern covers. -/
def rightLine (level : Permission) (pattern : String) : List Char :=
  "list".toList ++ ' ' :: (level.name.toList ++ ' ' :: quote pattern.toList)

theorem plain_name (level : Permission) :
    level.name.toList ≠ [] ∧ ∀ c ∈ level.name.toList, PlainInWord c := by
  have hne : level.name.toList ≠ [] := by cases level <;> simp [Permission.name]
  have hall : level.name.toList.all (fun c => PlainInWord c) = true := by
    cases level <;> simp only [Permission.name] <;> decide
  exact ⟨hne, forall_plain_of_all hall⟩

/-- The line adds the pattern to the list of the level. -/
theorem ofLine?_rightLine (level : Permission) (pattern : String) :
    Directive.ofLine? (rightLine level pattern) = .ok (some (.list level.name pattern)) := by
  have hblank : isBlank ' ' = true := by decide
  have hspace : ∀ r, EndsWord (' ' :: r) := fun r c hc => by
    obtain rfl : ' ' = c := by simpa using hc
    exact hblank
  have hlist : ∀ c ∈ "list".toList, PlainInWord c := forall_plain_of_all (by decide)
  have hquote := wordsFrom_quote pattern.toList (r := []) fun _ h => nomatch h
  rw [List.append_nil] at hquote
  have hwords : words (rightLine level pattern) = .ok ["list", level.name, pattern] := by
    rw [words, rightLine, wordsFrom_plain (by decide) hlist (hspace _), wordsFrom, if_pos hblank,
      wordsFrom_plain (plain_name level).1 (plain_name level).2 (hspace _), wordsFrom,
      if_pos hblank, hquote]
    simp [wordsFrom]
  rw [Directive.ofLine?, hwords]
  rfl

/-- The line can be told from its end. -/
theorem writable_rightLine (level : Permission) {pattern : String} (h : OneLine pattern) :
    Writable (rightLine level pattern) where
  newline := by
    have hlist : '\n' ∉ "list".toList := by decide
    have hname : '\n' ∉ level.name.toList := fun hmem =>
      absurd ((plain_name level).2 _ hmem) (by decide)
    simp only [rightLine, List.mem_append, List.mem_cons, not_or]
    exact ⟨hlist, by decide, hname, by decide, newline_notMem_quote h⟩
  carriageReturn := by
    have hsplit : rightLine level pattern = "list".toList ++ ' ' :: (level.name.toList ++
        ' ' :: '\'' :: pattern.toList.flatMap quoteChar) ++ ['\''] := by
      simp [rightLine, quote]
    rw [hsplit, List.getLast?_concat]
    simp

/-! ## What a section gives -/

namespace Access

theorem PatternList.covers_iff {name group : String} {values : List String} :
    (PatternList.mk name (values.map GroupPattern.mk)).covers group = true ↔
      ∃ g ∈ values, Matches g group := by
  rw [PatternList.covers, List.any_map, List.any_eq_true]
  rfl

/-- A section gives a level for the groups that the patterns in the list of that name cover. -/
theorem Policy.grantsDirectly_ofSection_iff {s : Section} (h : s.WellFormed) {user : String}
    {p : Permission} {group : String} :
    (Policy.ofSection s user).grantsDirectly p group = true ↔
      ∃ patterns, s.option? p.name = some (.list patterns) ∧ ∃ g ∈ patterns, Matches g group := by
  have hoption : ∀ patterns, s.option? p.name = some (.list patterns) ↔
      (p.name, .list patterns) ∈ s.options := fun _ => Keyed.get?_eq_some_iff h.distinct
  simp only [hoption, Policy.grantsDirectly, Policy.ofSection, Section.lists, List.any_eq_true,
    List.mem_map, List.mem_filterMap, Bool.and_eq_true, beq_iff_eq]
  constructor
  · rintro ⟨_, ⟨⟨name, patterns⟩, ⟨⟨name', value⟩, hmem, hlist⟩, rfl⟩, hname, hcovers⟩
    obtain ⟨patterns', hvalue, heq⟩ := Option.map_eq_some_iff.1 hlist
    obtain ⟨rfl, rfl⟩ := Prod.mk.inj heq
    obtain rfl : value = .list patterns' := by
      cases value with
      | scalar v => exact absurd hvalue (by simp [OptionValue.list?])
      | list vs => rw [← Option.some.inj hvalue]
    exact ⟨patterns', hname ▸ hmem, PatternList.covers_iff.1 hcovers⟩
  · rintro ⟨patterns, hmem, hcovers⟩
    exact ⟨_, ⟨(p.name, patterns), ⟨_, hmem, rfl⟩, rfl⟩, rfl, PatternList.covers_iff.2 hcovers⟩

variable {key user : String} {s s' : Section} {p p' : Package} {i : Nat}

/-- A section with more values in a list gives directly all that it gave. -/
theorem grantsDirectly_of_gains (h : s.Gains key s') (hs : s.WellFormed) (hs' : s'.WellFormed)
    {q : Permission} {group : String}
    (hgrants : (Policy.ofSection s user).grantsDirectly q group = true) :
    (Policy.ofSection s' user).grantsDirectly q group = true := by
  rw [Policy.grantsDirectly_ofSection_iff hs] at hgrants
  rw [Policy.grantsDirectly_ofSection_iff hs']
  obtain ⟨patterns, hoption, g, hg, hmatches⟩ := hgrants
  by_cases hkey : q.name = key
  · have hgrows := h.grows
    rw [← hkey, hoption] at hgrows
    cases hnew : s'.option? q.name with
    | none => rw [hnew] at hgrows; cases hgrows
    | some value =>
      rw [hnew] at hgrows
      cases hgrows with
      | same => exact ⟨patterns, rfl, g, hg, hmatches⟩
      | longer hvalues => exact ⟨_, rfl, g, hvalues hg, hmatches⟩
  · exact ⟨patterns, (h.others _ hkey).trans hoption, g, hg, hmatches⟩

/-- A section with more values in a list gives all that it gave. -/
theorem authorizes_of_gains (h : s.Gains key s') (hs : s.WellFormed) (hs' : s'.WellFormed)
    {q : Permission} {group : String}
    (hauthorizes : (Policy.ofSection s user).authorizes q group = true) :
    (Policy.ofSection s' user).authorizes q group = true :=
  Policy.authorizes_of_grantsDirectly (fun _ => grantsDirectly_of_gains h hs hs') hauthorizes

/-- Which users a section is bound to does not depend on its lists of rights. -/
theorem binds_of_gains (h : s.Gains key s') (hkey : key ≠ "user") :
    Binds s' user ↔ Binds s user := by
  have htype : s'.type = s.type := by simpa using congrArg Section.type h.bare
  rw [Binds, Binds, htype, h.others "user" hkey.symm]

/-- In a package of which one section has more values, the policy of a user is the one he had, or it
is that of this section. -/
theorem policyIn?_of_gains (h : p.Gains i key p') (hkey : key ≠ "user") :
    ∃ s s', p.sections[i]? = some s ∧ s.Gains key s' ∧ s ∈ p.sections ∧ s' ∈ p'.sections ∧
      ∀ user, policyIn? p' user = policyIn? p user ∨
        FirstBound p user s ∧ FirstBound p' user s' := by
  obtain ⟨pre, s, s', post, hp, hp', hi, hgains⟩ := h.split
  refine ⟨s, s', hi, hgains, by simp [hp], by simp [hp'], fun user => ?_⟩
  rw [policyIn?_eq, policyIn?_eq, hp, hp', List.find?_append, List.find?_append, List.find?_cons,
    List.find?_cons]
  by_cases hpre : ∀ t ∈ pre, ¬Binds t user
  · by_cases hs : Binds s user
    · have hs' := (binds_of_gains hgains hkey).2 hs
      exact .inr ⟨⟨pre, post, hp, hs, hpre⟩, pre, post, hp', hs', hpre⟩
    · have hs' := mt (binds_of_gains hgains hkey).1 hs
      rw [binds_iff, Bool.not_eq_true] at hs hs'
      rw [hs, hs']
      exact .inl rfl
  · -- Someone before the section is found, with and without the values.
    push Not at hpre
    obtain ⟨t, ht, hbinds⟩ := hpre
    have hfound : (pre.find? fun s =>
        s.type == policyType && boundUser? s == some user).isSome = true :=
      List.find?_isSome.2 ⟨t, ht, binds_iff.1 hbinds⟩
    obtain ⟨u, hu⟩ := Option.isSome_iff_exists.1 hfound
    rw [hu]
    exact .inl rfl

/-- What is found in a store that holds the package of the policies. -/
theorem authorizationOf_of_load {store : Store} (h : store.load "luci" = .ok (some p))
    (user : String) :
    authorizationOf store user = Authorization.forUser user (policyIn? p user) := by
  rw [authorizationOf, findPolicy, policyPackage, h]

end Access

/-- **Adding a right takes none away.**  Take a text that is read as the package of the policies,
and put a line `list read` or `list write` with any pattern between two of its lines, anywhere after
the first `config` line.  What comes of it can be read as the package, too.  All that any user was
allowed he is still allowed, and the authorization of every user whose section is not the one that
is current where the line stands is exactly what it was. -/
theorem allowed_of_rightLine {text : String} {p : Package}
    (hparse : Package.parse "luci" text = .ok p) {before after : List (List Char)}
    (hlines : lines text.toList = before ++ after) (hconfig : ∃ l ∈ before, IsConfig l)
    (level : Permission) {pattern : String} (hpattern : OneLine pattern) :
    lines (insertLine (rightLine level pattern) before.length text.toList) =
        before ++ rightLine level pattern :: after ∧
      ∀ text', lines text'.toList = before ++ rightLine level pattern :: after →
        ∃ p' r i s, Package.parse "luci" text' = .ok p' ∧
          Reads (start "luci") before r ∧ r.current = some i ∧ p.sections[i]? = some s ∧
          ∀ store store', store.load "luci" = .ok (some p) → store'.load "luci" = .ok (some p') →
            (∀ user q group, Allowed store user q group → Allowed store' user q group) ∧
            ∀ user, ¬FirstBound p user s →
              authorizationOf store' user = authorizationOf store user := by
  refine ⟨?_, fun text' hlines' => ?_⟩
  · have hlength : before.length ≤ (lines text.toList).length := by
      rw [hlines, List.length_append]
      exact Nat.le_add_right _ _
    rw [lines_insertLine (writable_rightLine level hpattern) hlength, hlines, List.take_left,
      List.drop_left]
  obtain ⟨last, hreads, rfl⟩ := Package.parse_eq_ok_iff.1 hparse
  rw [hlines] at hreads
  obtain ⟨r, i, last', hbefore, hi, hreads', hgains⟩ :=
    exists_gains hreads hconfig (ofLine?_rightLine level pattern)
  have hwell : last.package.WellFormed :=
    hreads.wellFormed (Package.wellFormed_empty "luci") fun _ hl =>
      newline_notMem_of_mem_lines (hlines ▸ hl)
  have hwell' : last'.package.WellFormed :=
    hreads'.wellFormed (Package.wellFormed_empty "luci") fun _ hl =>
      newline_notMem_of_mem_lines (hlines' ▸ hl)
  have huser : level.name ≠ "user" := by cases level <;> decide
  obtain ⟨s, s', hs, hsection, hmem, hmem', hfound⟩ := policyIn?_of_gains hgains.package huser
  refine ⟨last'.package, r, i, s, Package.parse_eq_ok_iff.2 ⟨last', hlines' ▸ hreads', rfl⟩,
    hbefore, hi, hs, fun store store' hload hload' => ⟨?_, ?_⟩⟩
  · rintro user q group ⟨auth, hauth, hallows⟩
    rw [authorizationOf_of_load hload] at hauth
    rcases hfound user with hsame | ⟨hbound, hbound'⟩
    · exact ⟨auth, by rw [authorizationOf_of_load hload', hsame, hauth], hallows⟩
    · rw [policyIn?_eq_some_iff.2 ⟨s, hbound, rfl⟩] at hauth
      obtain rfl := Option.some.inj hauth
      have hpolicy := policyIn?_eq_some_iff.2 ⟨s', hbound', rfl⟩
      refine ⟨.limited (.ofSection s' user), ?_, ?_⟩
      · rw [authorizationOf_of_load hload', hpolicy]
        rfl
      · exact authorizes_of_gains hsection (hwell.sections s hmem) (hwell'.sections s' hmem')
          hallows
  · intro user hnot
    rw [authorizationOf_of_load hload, authorizationOf_of_load hload',
      (hfound user).resolve_right fun hbound => hnot hbound.1]

/-! A text with a section for each of two users; the first gets a right between its lines. -/

/-- The text. -/
def opsText : String :=
  "config access ops\n\toption user bob\n\tlist read 'a*'\nconfig access\n\toption user eve\n"

/-- The section of the first user. -/
def opsSection : Section :=
  ⟨"ops", "access", false, [("user", .scalar "bob"), ("read", .list ["a*"])]⟩

/-- The package that the text is read as. -/
def opsPackage : Package :=
  ⟨"luci", [opsSection, ⟨"@access[1]", "access", true, [("user", .scalar "eve")]⟩]⟩

theorem allowed_of_rightLine_ops :
    ∃ p', Package.parse "luci"
        (.ofList (insertLine (rightLine .write "it's") 2 opsText.toList)) = .ok p' ∧
      Allowed ⟨fun _ => .ok (some p')⟩ "bob" .read "abc" ∧
      authorizationOf ⟨fun _ => .ok (some p')⟩ "eve" =
        authorizationOf ⟨fun _ => .ok (some opsPackage)⟩ "eve" := by
  have hparse : Package.parse "luci" opsText = .ok opsPackage := rfl
  have hlines : lines opsText.toList =
      ["config access ops".toList, "\toption user bob".toList] ++
        ["\tlist read 'a*'".toList, "config access".toList, "\toption user eve".toList] := by
    rfl
  have hconfig : IsConfig "config access ops".toList := ⟨"access", some "ops", rfl⟩
  have hpattern : OneLine "it's" := by
    unfold OneLine
    decide
  obtain ⟨hinsert, hall⟩ := allowed_of_rightLine hparse hlines
    ⟨_, List.mem_cons_self, hconfig⟩ .write hpattern
  obtain ⟨p', r, i, s, hparse', hreads, hi, hs, hstores⟩ :=
    hall (.ofList (insertLine (rightLine .write "it's") 2 opsText.toList)) (by
      rw [String.toList_ofList]
      exact hinsert)
  -- The line stands in the section of the first user.
  have hrun : (start "luci").run 1 ["config access ops".toList, "\toption user bob".toList] =
      .ok ⟨⟨"luci", [⟨"ops", "access", false, [("user", .scalar "bob")]⟩]⟩, some 0⟩ := by
    rfl
  obtain rfl := Except.ok.inj (hrun.symm.trans (run_eq_ok_iff.2 hreads))
  obtain rfl := Option.some.inj hi
  obtain rfl : opsSection = s := Option.some.inj hs
  have hother : ¬FirstBound opsPackage "eve" opsSection := by
    rintro ⟨-, -, -, ⟨-, huser⟩, -⟩
    exact absurd huser (by decide)
  obtain ⟨hkept, hsame⟩ := hstores ⟨fun _ => .ok (some opsPackage)⟩ ⟨fun _ => .ok (some p')⟩ rfl rfl
  exact ⟨p', hparse', hkept "bob" .read "abc" ⟨_, rfl, by cbv⟩, hsame "eve" hother⟩

end Gatehouse
