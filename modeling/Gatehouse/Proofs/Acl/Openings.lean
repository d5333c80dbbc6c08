import Gatehouse.Proofs.Access.Literal
import Gatehouse.Proofs.Acl.Blocks

/-!
# What a document opens

A block has scopes, and they are expanded to grants.  Here the way from the JSON value of a document
to the pairs that are granted is taken in one step.

* `Block.mem_grants_iff` — the grants of a block: those of its recognized scopes, and the one that
  shows the group if there is any of them.
* `Acl.Opens` — when a block opens a function of an object in a scope, said of the JSON value.
* `exists_covers_iff_opens` — some grant of the expansion covers a function of an object exactly
  if an allowed block opens it.
* `mem_expand_view_iff` — the grants of the expansion that show a group.
-/

namespace Gatehouse

open Gatehouse.Access

namespace Acl

/-! ## Scopes of a block -/

/-- The scopes whose values are lists of names. -/
def flatScopes : List String :=
  [configScope, fileScope]

/-- The pairs of an object of the object scope. -/
def methodPairs (os : List (String × Json)) : List (String × String) :=
  (os.filterMap methods?).flatMap fun (o, ms) => ms.map (o, ·)

theorem mem_strings {items : List Json} {s : String} : s ∈ strings items ↔ .string s ∈ items := by
  rw [strings, List.mem_filterMap]
  constructor
  · rintro ⟨v, hv, hs⟩
    cases v <;> simp only [Json.string?, reduceCtorEq] at hs
    obtain rfl := Option.some.inj hs
    exact hv
  · intro h
    exact ⟨_, h, rfl⟩

theorem mem_methodPairs {os : List (String × Json)} {o m : String} :
    (o, m) ∈ methodPairs os ↔ ∃ ms, (o, .array ms) ∈ os ∧ .string m ∈ ms := by
  simp only [methodPairs, List.mem_flatMap, List.mem_filterMap]
  constructor
  · rintro ⟨⟨o', ms'⟩, ⟨⟨name, v⟩, hv, hms⟩, hm⟩
    cases v <;> simp only [methods?, reduceCtorEq] at hms
    obtain ⟨rfl, rfl⟩ := Prod.mk.inj (Option.some.inj hms)
    obtain ⟨m', hm', heq⟩ := List.mem_map.1 hm
    obtain ⟨rfl, rfl⟩ := Prod.mk.inj heq
    exact ⟨_, hv, mem_strings.1 hm'⟩
  · rintro ⟨ms, hos, hm⟩
    exact ⟨(o, strings ms), ⟨_, hos, rfl⟩, List.mem_map.2 ⟨m, mem_strings.2 hm, rfl⟩⟩

/-- A scope gives a grant if it is an object under `ubus` or an array under a flat scope. -/
theorem grant?_classify_eq_some {scope : String} {value : Json} {p : Permission} {gr : Grant} :
    (ScopeEntry.classify scope value).grant? p = some gr ↔
      (scope = objectScope ∧ ∃ os, value = .object os ∧ gr = ⟨objectScope, methodPairs os⟩) ∨
      (scope ∈ flatScopes ∧ ∃ items, value = .array items ∧
        gr = ⟨scope, (strings items).map (·, p.name)⟩) := by
  cases value with
  | object os =>
    by_cases h : scope = objectScope
    · simp [ScopeEntry.classify, ScopeEntry.grant?, h, methodPairs, eq_comm]
    · simp [ScopeEntry.classify, ScopeEntry.grant?, h]
  | array items =>
    by_cases h : scope = configScope ∨ scope = fileScope
    · simp [ScopeEntry.classify, ScopeEntry.grant?, h, flatScopes, eq_comm]
    · simp [ScopeEntry.classify, ScopeEntry.grant?, h, flatScopes]
  | _ => simp [ScopeEntry.classify, ScopeEntry.grant?]

theorem mem_scopeGrants_iff {p : Permission} {scopes : List (String × Json)} {gr : Grant} :
    gr ∈ (Block.ofScopes p scopes).scopeGrants ↔
      (∃ os, (objectScope, .object os) ∈ scopes ∧ gr = ⟨objectScope, methodPairs os⟩) ∨
      (∃ scope ∈ flatScopes, ∃ items, (scope, .array items) ∈ scopes ∧
        gr = ⟨scope, (strings items).map (·, p.name)⟩) := by
  simp only [Block.scopeGrants, Block.ofScopes, List.mem_filterMap, List.mem_map]
  constructor
  · rintro ⟨_, ⟨⟨scope, value⟩, hmem, rfl⟩, hgr⟩
    rcases grant?_classify_eq_some.1 hgr with ⟨rfl, os, rfl, rfl⟩ | ⟨hscope, items, rfl, rfl⟩
    · exact Or.inl ⟨os, hmem, rfl⟩
    · exact Or.inr ⟨scope, hscope, items, hmem, rfl⟩
  · rintro (⟨os, hmem, rfl⟩ | ⟨scope, hscope, items, hmem, rfl⟩)
    · exact ⟨_, ⟨_, hmem, rfl⟩, grant?_classify_eq_some.2 (Or.inl ⟨rfl, os, rfl, rfl⟩)⟩
    · exact ⟨_, ⟨_, hmem, rfl⟩, grant?_classify_eq_some.2 (Or.inr ⟨hscope, items, rfl, rfl⟩)⟩

/-- A block gives the grants of its recognized scopes, and shows its group if there is any. -/
theorem Block.mem_grants_iff {group : String} {b : Block} {gr : Grant} :
    gr ∈ b.grants group ↔
      gr ∈ b.scopeGrants ∨ (∃ h, h ∈ b.scopeGrants) ∧ gr = Grant.view group b.permission := by
  unfold Block.grants
  cases hs : b.scopeGrants with
  | nil => simp
  | cons h hs => simp [or_assoc]

/-! ## Openings -/

/-- Whether a block has a scope that is recognized. -/
def Recognized (block : Json) : Prop :=
  (∃ os, block.member? "ubus" = some (.object os)) ∨
    ∃ scope ∈ ["uci", "luci-io"], ∃ items, block.member? scope = some (.array items)

/-- Whether a pattern covers a name. -/
def Matches (pattern name : String) : Prop :=
  (GroupPattern.mk pattern).covers name = true

/-- The block of a group at a level opens a function of an object in a scope. -/
inductive Opens (group : String) (p : Permission) (block : Json) (object function : String) :
    String → Prop where
  /-- A method of a remote object. -/
  | method {os ms : List _} {o m : String} (hos : block.member? "ubus" = some (.object os))
      (ho : (Json.object os).member? o = some (.array ms)) (hm : .string m ∈ ms)
      (hobject : Matches o object) (hfunction : Matches m function) :
      Opens group p block object function "ubus"
  /-- A name of a flat scope, at the level of the block. -/
  | name {scope o : String} {items : List Json} (hscope : scope ∈ ["uci", "luci-io"])
      (hitems : block.member? scope = some (.array items)) (ho : .string o ∈ items)
      (hobject : Matches o object) (hfunction : function = p.name) :
      Opens group p block object function scope
  /-- The group itself, at the level of the block. -/
  | view (hrecognized : Recognized block) (hobject : Matches group object)
      (hfunction : function = p.name) : Opens group p block object function "luci-ui"

/-- Whether a grant covers a function of an object in a scope. -/
def Grant.Covers (gr : Grant) (scope object function : String) : Prop :=
  gr.scope = scope ∧ ∃ pair ∈ gr.pairs, Matches pair.1 object ∧ Matches pair.2 function

variable {group : String} {p : Permission} {scopes : List (String × Json)}
variable {scope object function : String}

/-- A block has a recognized scope if it gives a grant. -/
theorem recognized_iff (hd : (Json.object scopes).Distinct) :
    Recognized (.object scopes) ↔ ∃ gr, gr ∈ (Block.ofScopes p scopes).scopeGrants := by
  simp only [Recognized, Json.member?_eq_some_iff hd, mem_scopeGrants_iff]
  constructor
  · rintro (⟨os, hos⟩ | ⟨scope, hscope, items, hitems⟩)
    · exact ⟨_, Or.inl ⟨os, hos, rfl⟩⟩
    · exact ⟨_, Or.inr ⟨scope, hscope, items, hitems, rfl⟩⟩
  · rintro ⟨gr, ⟨os, hos, -⟩ | ⟨scope, hscope, items, hitems, -⟩⟩
    · exact Or.inl ⟨os, hos⟩
    · exact Or.inr ⟨scope, hscope, items, hitems⟩

theorem opens_of_covers (hd : (Json.object scopes).Distinct) {gr : Grant}
    (hgr : gr ∈ (Block.ofScopes p scopes).grants group)
    (hcovers : gr.Covers scope object function) :
    Opens group p (.object scopes) object function scope := by
  obtain ⟨rfl, ⟨o, f⟩, hpair, hobject, hfunction⟩ := hcovers
  rcases Block.mem_grants_iff.1 hgr with hgr | ⟨hany, rfl⟩
  · rcases mem_scopeGrants_iff.1 hgr with ⟨os, hos, rfl⟩ | ⟨scope, hscope, items, hitems, rfl⟩
    · obtain ⟨ms, ho, hm⟩ := mem_methodPairs.1 hpair
      exact .method ((Json.member?_eq_some_iff hd).2 hos)
        ((Json.member?_eq_some_iff (hd.of_mem hos)).2 ho) hm hobject hfunction
    · obtain ⟨o', ho, heq⟩ := List.mem_map.1 hpair
      obtain ⟨rfl, rfl⟩ := Prod.mk.inj heq
      exact .name hscope ((Json.member?_eq_some_iff hd).2 hitems) (mem_strings.1 ho) hobject
        ((covers_name p function).1 hfunction)
  · obtain ⟨rfl, rfl⟩ := Prod.mk.inj (List.mem_singleton.1 hpair)
    exact .view ((recognized_iff hd).2 hany) hobject ((covers_name p function).1 hfunction)

theorem exists_covers_of_opens (hd : (Json.object scopes).Distinct)
    (h : Opens group p (.object scopes) object function scope) :
    ∃ gr ∈ (Block.ofScopes p scopes).grants group, gr.Covers scope object function := by
  cases h with
  | method hos ho hm hobject hfunction =>
    have hos' := (Json.member?_eq_some_iff hd).1 hos
    have ho' := (Json.member?_eq_some_iff (hd.of_mem hos')).1 ho
    refine ⟨_, Block.mem_grants_iff.2 (Or.inl (mem_scopeGrants_iff.2 (Or.inl ⟨_, hos', rfl⟩))), ?_⟩
    exact ⟨rfl, _, mem_methodPairs.2 ⟨_, ho', hm⟩, hobject, hfunction⟩
  | name hscope hitems ho hobject hfunction =>
    have hitems' := (Json.member?_eq_some_iff hd).1 hitems
    refine ⟨_, Block.mem_grants_iff.2 (Or.inl (mem_scopeGrants_iff.2
      (Or.inr ⟨_, hscope, _, hitems', rfl⟩))), ?_⟩
    exact ⟨rfl, _, List.mem_map.2 ⟨_, mem_strings.2 ho, rfl⟩, hobject,
      (covers_name p function).2 hfunction⟩
  | view hrecognized hobject hfunction =>
    refine ⟨_, Block.mem_grants_iff.2 (Or.inr ⟨(recognized_iff hd).1 hrecognized, rfl⟩), ?_⟩
    exact ⟨rfl, _, List.mem_singleton_self _, hobject, (covers_name p function).2 hfunction⟩

/-- The expansion of a value covers a function of an object exactly if an allowed block of the
value opens it. -/
theorem exists_covers_iff_opens {entries : List (String × Json)}
    {allowed : Permission → String → Bool} (hd : (Json.object entries).Distinct) :
    (∃ gr ∈ expand (.ofEntries entries) allowed, gr.Covers scope object function) ↔
      ∃ group p scopes, allowed p group = true ∧
        (Json.object entries).block? group p = some (.object scopes) ∧
        Opens group p (.object scopes) object function scope := by
  constructor
  · rintro ⟨gr, hgr, hcovers⟩
    obtain ⟨group, p, scopes, hallowed, h, hgr⟩ := (mem_expand_iff hd).1 hgr
    exact ⟨group, p, scopes, hallowed, h, opens_of_covers (distinct_of_block? hd h) hgr hcovers⟩
  · rintro ⟨group, p, scopes, hallowed, h, hopens⟩
    obtain ⟨gr, hgr, hcovers⟩ := exists_covers_of_opens (distinct_of_block? hd h) hopens
    exact ⟨gr, (mem_expand_iff hd).2 ⟨group, p, scopes, hallowed, h, hgr⟩, hcovers⟩

/-! ## Grants that show a group -/

/-- No scope of a block gives a grant in the scope that shows groups. -/
theorem scope_ne_view {p : Permission} {scopes : List (String × Json)} {gr : Grant}
    (h : gr ∈ (Block.ofScopes p scopes).scopeGrants) : gr.scope ≠ viewScope := by
  rcases mem_scopeGrants_iff.1 h with ⟨os, -, rfl⟩ | ⟨scope, hscope, items, -, rfl⟩
  · show objectScope ≠ viewScope
    decide
  · intro h
    have hview : scope = viewScope := h
    rw [hview] at hscope
    exact absurd hscope (by decide)

/-- In the scope that shows groups, an expansion has one grant for each allowed block with a
recognized scope, and no others. -/
theorem mem_expand_view_iff {entries : List (String × Json)} {allowed : Permission → String → Bool}
    (hd : (Json.object entries).Distinct) {gr : Grant} (hscope : gr.scope = viewScope) :
    gr ∈ expand (.ofEntries entries) allowed ↔
      ∃ group p scopes, allowed p group = true ∧
        (Json.object entries).block? group p = some (.object scopes) ∧
        Recognized (.object scopes) ∧ gr = .view group p := by
  rw [mem_expand_iff hd]
  constructor
  · rintro ⟨group, p, scopes, hallowed, hblock, hgr⟩
    rcases Block.mem_grants_iff.1 hgr with hgr | ⟨hany, rfl⟩
    · exact absurd hscope (scope_ne_view hgr)
    · exact ⟨group, p, scopes, hallowed, hblock,
        (recognized_iff (distinct_of_block? hd hblock)).2 hany, rfl⟩
  · rintro ⟨group, p, scopes, hallowed, hblock, hrecognized, rfl⟩
    refine ⟨group, p, scopes, hallowed, hblock, Block.mem_grants_iff.2 (Or.inr ⟨?_, rfl⟩)⟩
    exact (recognized_iff (distinct_of_block? hd hblock)).1 hrecognized

/-- The grant that shows a group names the group and the level. -/
theorem Grant.view_injective {group group' : String} {p p' : Permission}
    (h : Grant.view group p = Grant.view group' p') : group = group' ∧ p = p' := by
  simp only [Grant.view, Grant.mk.injEq, List.cons.injEq, Prod.mk.injEq, and_true, true_and] at h
  exact ⟨h.1, Permission.name_injective h.2⟩

/-- The grant that shows a group covers every name that the name of the group covers as a
pattern. -/
theorem covers_view_iff {group object function : String} {p : Permission} :
    (Grant.view group p).Covers viewScope object function ↔
      Matches group object ∧ function = p.name := by
  constructor
  · rintro ⟨-, pair, hpair, hobject, hfunction⟩
    obtain rfl := List.mem_singleton.1 hpair
    exact ⟨hobject, (covers_name p function).1 hfunction⟩
  · rintro ⟨hobject, hfunction⟩
    exact ⟨rfl, _, List.mem_singleton_self _, hobject, (covers_name p function).2 hfunction⟩

end Acl

end Gatehouse
