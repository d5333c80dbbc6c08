import Gatehouse.Proofs.Login.Gate
import Gatehouse.Proofs.Uci.Merging

/-!
# Sections for other users

What is written behind the text of the policies under new names.

* `Reading.Reads.sections_append` — lines that open sections under new names leave those that are
  there as they are, and the names of the sections that come after them are given by the lines.
* `policyIn?_append` — sections that do not state the rights of a user change nothing for him.

`findPolicy_appended` puts these together: the policy that is found for a user, and so his
authorization, is the same as before.
-/

namespace Gatehouse

open Gatehouse.Access Gatehouse.Text Gatehouse.Uci Gatehouse.Uci.Directive Gatehouse.Uci.Reading

/-! ## New names -/

namespace Uci

variable {ls : List (List Char)} {ds : List Directive}

/-- Nothing belongs to a name that is not given. -/
theorem belonging_eq_nil {name : String} {above : Option String} (habove : above ≠ some name)
    (hds : ∀ type given, .config type given ∈ ds → given ≠ some name) :
    belonging name above ds = [] := by
  fun_induction belonging name above ds with
  | case1 above => rfl
  | case2 above _ rest ih =>
    exact ih habove fun type given h => hds type given (List.mem_cons_of_mem _ h)
  | case3 above type given rest ih =>
    exact ih (hds type given List.mem_cons_self) fun type' given' h =>
      hds type' given' (List.mem_cons_of_mem _ h)
  | case4 d rest _ _ ih => exact absurd rfl habove
  | case5 above d rest _ _ _ ih =>
    exact ih habove fun type given h => hds type given (List.mem_cons_of_mem _ h)

/-- If the first line opens a section, so does the first directive. -/
theorem eq_config_cons_of_ofLines? (h : ofLines? ls = .ok ds) (hfirst : ∀ l ∈ ls.head?, IsConfig l) :
    ds = [] ∨ ∃ type given rest, ds = .config type given :: rest := by
  cases ls with
  | nil => exact .inl (Except.ok.inj h).symm
  | cons line ls =>
    obtain ⟨type, given, hline⟩ := hfirst line rfl
    obtain ⟨d, rest, hd, -, rfl⟩ := ofLines?_cons_eq_ok_iff.1 h
    obtain rfl := Except.ok.inj (hline.symm.trans hd)
    exact .inr ⟨type, given, rest, rfl⟩

namespace Reading

variable {r r' : Reading}

theorem exists_under (h : r.Valid) : ∃ above, r.Under above := by
  cases hcurrent : r.current with
  | none => exact ⟨none, hcurrent⟩
  | some i =>
    obtain ⟨s, hs⟩ : ∃ s, r.package.sections[i]? = some s :=
      ⟨_, List.getElem?_eq_getElem (h i hcurrent)⟩
    exact ⟨some s.name, i, s, hcurrent, hs, rfl⟩

/-- Lines that begin by opening a section, and open sections only under new names, leave the
sections that are there as they are. -/
theorem Reads.sections_append (h : Reads r ls r') (hvalid : r.Valid)
    (hdistinct : (r.package.sections.map Section.name).Nodup)
    (hfirst : ∀ l ∈ ls.head?, IsConfig l)
    (hnew : ∀ l ∈ ls, ∀ type given, ofLine? l = .ok (some (.config type given)) →
      ∃ name, given = some name ∧ ∀ s ∈ r.package.sections, s.name ≠ name) :
    ∃ added, r'.package.sections = r.package.sections ++ added ∧
      ∀ s ∈ added, ∃ l ∈ ls, Gives l s.name := by
  obtain ⟨ds, hds, hfold⟩ := reads_iff.1 h
  obtain ⟨above, hunder⟩ := exists_under hvalid
  have hgiven : ∀ type given, .config type given ∈ ds →
      ∃ name, given = some name ∧ ∀ s ∈ r.package.sections, s.name ≠ name := by
    intro type given hmem
    obtain ⟨l, hl, hline⟩ := (mem_ofLines?_iff hds).1 hmem
    exact hnew l hl type given hline
  have hnamed : ∀ d ∈ ds, d.Named := by
    rintro d hd type rfl
    obtain ⟨name, hnone, -⟩ := hgiven type none hd
    exact absurd hnone (by simp)
  have hkept : ∀ s ∈ r.package.sections, s.filled above ds = s := by
    intro s hs
    have hother : ∀ type given, .config type given ∈ ds → given ≠ some s.name := by
      rintro type given hmem rfl
      obtain ⟨name, hname, hfree⟩ := hgiven type _ hmem
      exact hfree s hs (Option.some.inj hname)
    have hnil : belonging s.name above ds = [] := by
      rcases eq_config_cons_of_ofLines? hds hfirst with rfl | ⟨type, given, rest, rfl⟩
      · rfl
      · rw [belonging]
        exact belonging_eq_nil (hother type given List.mem_cons_self) fun type' given' hmem =>
          hother type' given' (List.mem_cons_of_mem _ hmem)
    rw [Section.filled, hnil, List.foldl_nil]
  refine ⟨((openings ds).filter (·.1 ∉ r.package.sections.map Section.name)).map
    fun o => (Section.named o.2 o.1).filled above ds, ?_, ?_⟩
  · rw [sections_of_foldlM hnamed hdistinct hunder hfold, sectionsAfter,
      List.map_congr_left hkept, List.map_id']
  · intro s hs
    obtain ⟨o, ho, rfl⟩ := List.mem_map.1 hs
    obtain ⟨l, hl, hline⟩ :=
      (mem_ofLines?_iff hds).1 (config_mem_of_mem_openings (List.mem_filter.1 ho).1)
    rw [Section.name_filled]
    exact ⟨l, hl, o.2, hline⟩

end Reading

end Uci

/-! ## The policy of a user -/

/-- Sections that do not state the rights of a user change nothing for him. -/
theorem Access.policyIn?_append {p p' : Package} {added : List Section} {user : String}
    (h : p'.sections = p.sections ++ added) (hadded : ∀ s ∈ added, ¬Binds s user) :
    policyIn? p' user = policyIn? p user := by
  have hnone : added.find? (fun s => s.type == policyType && boundUser? s == some user) = none :=
    List.find?_eq_none.2 fun s hs => mt binds_iff.2 (hadded s hs)
  rw [policyIn?_eq, policyIn?_eq, h, List.find?_append, hnone, Option.or_none]

/-- **Sections for other users.**  Take a text that is read as the package of the policies and ends
with a newline, and write behind it lines that begin with a `config` line and whose `config` lines
all give names that no section has yet.  If the whole can be read, and none of the sections of these
names states the rights of a user, then the sections that were there are as they were, and the
policy that is found for that user, `root` or any other, and so his authorization, is the same. -/
theorem findPolicy_appended {text added : String} {p p' : Package} {user : String}
    (hend : text.toList.getLast? = some '\n') (hparse : Package.parse "luci" text = .ok p)
    (hparse' : Package.parse "luci" (text ++ added) = .ok p')
    (hfirst : ∀ l ∈ (lines added.toList).head?, IsConfig l)
    (hnew : ∀ l ∈ lines added.toList, ∀ type given, ofLine? l = .ok (some (.config type given)) →
      ∃ name, given = some name ∧ ∀ s ∈ p.sections, s.name ≠ name)
    (hothers : ∀ s ∈ p'.sections, (∃ l ∈ lines added.toList, Gives l s.name) → ¬Binds s user) :
    p.sections <+: p'.sections ∧ policyIn? p' user = policyIn? p user ∧
      ∀ store store', store.load "luci" = .ok (some p) → store'.load "luci" = .ok (some p') →
        findPolicy store' user = findPolicy store user ∧
          authorizationOf store' user = authorizationOf store user := by
  obtain ⟨r, hreads, rfl⟩ := Package.parse_eq_ok_iff.1 hparse
  obtain ⟨last, hreads', rfl⟩ := Package.parse_eq_ok_iff.1 hparse'
  rw [String.toList_append, lines_append_of_getLast? hend] at hreads'
  obtain ⟨r₁, hfront, hadded⟩ := reads_append.1 hreads'
  have hrun : (start "luci").run 1 (lines text.toList) = .ok r := run_eq_ok_iff.2 hreads
  obtain rfl := Except.ok.inj (hrun.symm.trans (run_eq_ok_iff.2 hfront))
  obtain ⟨ss, hsections, hgives⟩ := hadded.sections_append (hreads.valid (valid_start "luci"))
    (parse_wellFormed hparse).2.1.distinct hfirst hnew
  have hpolicy : policyIn? last.package user = policyIn? r.package user := by
    refine policyIn?_append hsections fun s hs => hothers s ?_ (hgives s hs)
    rw [hsections]
    exact List.mem_append_right _ hs
  refine ⟨hsections ▸ List.prefix_append _ _, hpolicy, fun store store' hload hload' => ?_⟩
  have hfind : findPolicy store' user = findPolicy store user := by
    rw [findPolicy, findPolicy, policyPackage, hload, hload']
    simp only [hpolicy]
  exact ⟨hfind, by rw [authorizationOf, authorizationOf, hfind]⟩

/-! A text with a section for one user, and a section for another written behind it. -/

/-- The text. -/
def bobText : String :=
  "config access\noption user bob\nlist read a\n"

/-- What is written behind it. -/
def eveText : String :=
  "config access eve\noption user eve\n"

theorem findPolicy_appended_bob :
    ∃ p', Package.parse "luci" (bobText ++ eveText) = .ok p' ∧
      findPolicy ⟨fun _ => .ok (some p')⟩ "bob" =
        ⟨some ⟨"@access[0]", "bob", [⟨"read", [⟨"a"⟩]⟩]⟩, false⟩ := by
  have hparse : Package.parse "luci" bobText = .ok ⟨"luci",
      [⟨"@access[0]", "access", true, [("user", .scalar "bob"), ("read", .list ["a"])]⟩]⟩ := by
    rfl
  have hparse' : Package.parse "luci" (bobText ++ eveText) = .ok ⟨"luci",
      [⟨"@access[0]", "access", true, [("user", .scalar "bob"), ("read", .list ["a"])]⟩,
        ⟨"eve", "access", false, [("user", .scalar "eve")]⟩]⟩ := by
    rfl
  have hlines : lines eveText.toList =
      ["config access eve".toList, "option user eve".toList] := by
    rfl
  have hfirst : ∀ l ∈ (lines eveText.toList).head?, IsConfig l := by
    intro l hl
    obtain rfl : "config access eve".toList = l := by simpa [hlines] using hl
    exact ⟨"access", some "eve", rfl⟩
  have hds : ofLines? (lines eveText.toList) = .ok
      [.config "access" (some "eve"), .option "user" "eve"] := by
    rfl
  have hgiven : ∀ l ∈ lines eveText.toList, ∀ type given,
      ofLine? l = .ok (some (.config type given)) → given = some "eve" := by
    intro l hl type given hline
    have hmem := (mem_ofLines?_iff hds).2 ⟨l, hl, hline⟩
    simp only [List.mem_cons, Directive.config.injEq, reduceCtorEq, List.not_mem_nil,
      or_false] at hmem
    exact hmem.2
  have hothers : ∀ s ∈ [(⟨"@access[0]", "access", true,
        [("user", .scalar "bob"), ("read", .list ["a"])]⟩ : Section),
      ⟨"eve", "access", false, [("user", .scalar "eve")]⟩],
      (∃ l ∈ lines eveText.toList, Gives l s.name) → ¬Binds s "bob" := by
    rintro s hs ⟨l, hl, type, hline⟩ ⟨-, huser⟩
    have hname : s.name = "eve" := Option.some.inj (hgiven l hl type _ hline)
    rcases List.mem_cons.1 hs with rfl | hs
    · exact absurd hname (by decide)
    · obtain rfl := List.mem_singleton.1 hs
      exact absurd huser (by decide)
  obtain ⟨-, -, hstores⟩ := findPolicy_appended (by rfl) hparse hparse' hfirst
    (fun l hl type given hline => ⟨"eve", hgiven l hl type given hline, by decide⟩) hothers
  refine ⟨_, hparse', ?_⟩
  rw [(hstores ⟨fun _ => .ok (some _)⟩ ⟨fun _ => .ok (some _)⟩ rfl rfl).1]
  rfl

end Gatehouse
