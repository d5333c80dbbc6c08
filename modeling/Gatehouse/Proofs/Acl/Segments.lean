import Gatehouse.Proofs.Acl.Openings

/-!
# The segments of an expansion

The grants of a document come block by block.  Each block that is allowed, and has a scope that is
recognized, gives one segment: a grant for each of these scopes, and at the end the one that shows
the group.

* `eq_of_flatten_eq` — there is only one way to cut a list right behind the items with a property.
* `WrittenBlock.IsSegment` — what the segment of a block is made of.
* `shownBlocks` — the blocks that have a segment, in order.
* `expand_eq_flatMap_shownBlocks` — the expansion is made of their grants.

`expand_segments` puts these together: an expansion falls into segments in one way only, and no
document can make a grant that shows a group to anyone who may not see it.
-/

namespace Gatehouse

/-! ## Cutting a list -/

section Cutting

variable {α : Type} {p : α → Prop}

/-- The last item of the list has the property, and no other. -/
def EndsIn (p : α → Prop) (s : List α) : Prop :=
  ∃ items last, s = items ++ [last] ∧ p last ∧ ∀ x ∈ items, ¬p x

/-- The first item with a property can stand in one place only. -/
theorem append_cons_inj_of_forall {as bs cs ds : List α} {x y : α} (has : ∀ z ∈ as, ¬p z)
    (hbs : ∀ z ∈ bs, ¬p z) (hx : p x) (hy : p y) (h : as ++ x :: cs = bs ++ y :: ds) :
    as = bs ∧ x = y ∧ cs = ds := by
  induction as generalizing bs with
  | nil =>
    cases bs with
    | nil => exact ⟨rfl, List.cons.inj h⟩
    | cons b bs =>
      obtain ⟨rfl, -⟩ := List.cons.inj h
      exact absurd hx (hbs x List.mem_cons_self)
  | cons a as ih =>
    cases bs with
    | nil =>
      obtain ⟨rfl, -⟩ := List.cons.inj h
      exact absurd hy (has a List.mem_cons_self)
    | cons b bs =>
      obtain ⟨rfl, htail⟩ := List.cons.inj h
      obtain ⟨rfl, hrest⟩ := ih (fun z hz => has z (List.mem_cons_of_mem _ hz))
        (fun z hz => hbs z (List.mem_cons_of_mem _ hz)) htail
      exact ⟨rfl, hrest⟩

/-- There is only one way to cut a list into parts that end in the items with a property. -/
theorem eq_of_flatten_eq {ss ts : List (List α)} (hss : ∀ s ∈ ss, EndsIn p s)
    (hts : ∀ t ∈ ts, EndsIn p t) (h : ss.flatten = ts.flatten) : ss = ts := by
  have hempty : ∀ {s : List α} {rest : List (List α)}, EndsIn p s → [] ≠ (s :: rest).flatten := by
    rintro _ rest ⟨items, last, rfl, -, -⟩
    simp
  induction ss generalizing ts with
  | nil =>
    cases ts with
    | nil => rfl
    | cons t ts => exact absurd h (hempty (hts t List.mem_cons_self))
  | cons s ss ih =>
    cases ts with
    | nil => exact absurd h.symm (hempty (hss s List.mem_cons_self))
    | cons t ts =>
      obtain ⟨⟨as, x, rfl, hx, has⟩, hss'⟩ := List.forall_mem_cons.1 hss
      obtain ⟨⟨bs, y, rfl, hy, hbs⟩, hts'⟩ := List.forall_mem_cons.1 hts
      simp only [List.flatten_cons, List.append_assoc, List.singleton_append] at h
      obtain ⟨rfl, rfl, hrest⟩ := append_cons_inj_of_forall has hbs hx hy h
      rw [ih hss' hts' hrest]

end Cutting

namespace Acl

open Gatehouse.Access

/-! ## Segments -/

/-- Whether a scope is recognized: an object under `ubus`, or an array under `uci` or `luci-io`. -/
def recognizes : String × Json → Bool
  | (scope, .object _) => scope == "ubus"
  | (scope, .array _) => scope == "uci" || scope == "luci-io"
  | _ => false

/-- The grant of a recognized scope at a level. -/
inductive ScopeGrant (level : Permission) : String × Json → Grant → Prop where
  /-- The methods of remote objects. -/
  | methods (objects : List (String × Json)) :
      ScopeGrant level ("ubus", .object objects) ⟨"ubus", methodPairs objects⟩
  /-- The names in a flat scope, each with the name of the level. -/
  | names {scope : String} (hscope : scope = "uci" ∨ scope = "luci-io") (items : List Json) :
      ScopeGrant level (scope, .array items) ⟨scope, (strings items).map (·, level.name)⟩

namespace WrittenBlock

/-- The recognized scopes of a block, in order. -/
def recognized (b : WrittenBlock) : List (String × Json) :=
  b.scopes.filter recognizes

/-- The grants of a block: one for each recognized scope, all in different scopes, and at the end
the one that shows the group. -/
def IsSegment (b : WrittenBlock) (gs : List Grant) : Prop :=
  ∃ own, gs = own ++ [⟨"luci-ui", [b.key]⟩] ∧
    List.Forall₂ (ScopeGrant b.level) b.recognized own ∧
    (own.map Grant.scope).Nodup ∧ ∀ g ∈ own, g.scope ∈ ["ubus", "uci", "luci-io"]

end WrittenBlock

/-! ## Scopes -/

theorem grant?_classify_iff {level : Permission} {e : String × Json} {g : Grant} :
    (ScopeEntry.classify e.1 e.2).grant? level = some g ↔ ScopeGrant level e g := by
  obtain ⟨scope, value⟩ := e
  rw [grant?_classify_eq_some]
  constructor
  · rintro (⟨hscope, objects, hvalue, rfl⟩ | ⟨hscope, items, hvalue, rfl⟩)
    · obtain rfl : scope = "ubus" := hscope
      obtain rfl : value = .object objects := hvalue
      exact .methods objects
    · obtain rfl : value = .array items := hvalue
      refine .names ?_ items
      simpa [flatScopes, configScope, fileScope] using hscope
  · intro h
    cases h with
    | methods objects => exact .inl ⟨rfl, objects, rfl, rfl⟩
    | names hscope items =>
      refine .inr ⟨?_, items, rfl, rfl⟩
      simpa [flatScopes, configScope, fileScope] using hscope

/-- A scope is recognized if it gives a grant. -/
theorem recognizes_eq_isSome (level : Permission) (e : String × Json) :
    recognizes e = ((ScopeEntry.classify e.1 e.2).grant? level).isSome := by
  rw [Bool.eq_iff_iff, Option.isSome_iff_exists]
  simp only [grant?_classify_iff]
  obtain ⟨scope, value⟩ := e
  constructor
  · intro h
    cases value <;> simp only [recognizes, Bool.false_eq_true, beq_iff_eq, Bool.or_eq_true] at h
    · exact ⟨_, .names h _⟩
    · subst h
      exact ⟨_, .methods _⟩
  · rintro ⟨g, h⟩
    cases h with
    | methods objects => rfl
    | names hscope items => simpa [recognizes] using hscope

/-- The grants of scopes have the names of the scopes, which are three. -/
theorem ScopeGrant.scopes {level : Permission} {es : List (String × Json)} {gs : List Grant}
    (h : List.Forall₂ (ScopeGrant level) es gs) :
    gs.map Grant.scope = es.map Prod.fst ∧ ∀ g ∈ gs, g.scope ∈ ["ubus", "uci", "luci-io"] := by
  induction h with
  | nil => exact ⟨rfl, fun _ h => nomatch h⟩
  | @cons e g es gs hg _ ih =>
    have hscope : g.scope = e.1 ∧ g.scope ∈ ["ubus", "uci", "luci-io"] := by
      cases hg with
      | methods => exact ⟨rfl, List.mem_cons_self⟩
      | names hscope => exact ⟨rfl, by rcases hscope with rfl | rfl <;> simp⟩
    exact ⟨by rw [List.map_cons, List.map_cons, hscope.1, ih.1],
      List.forall_mem_cons.2 ⟨hscope.2, ih.2⟩⟩

/-- None of the three is the scope that shows groups. -/
theorem ne_view_of_mem {scope : String} (h : scope ∈ ["ubus", "uci", "luci-io"]) :
    scope ≠ "luci-ui" := by
  rintro rfl
  exact absurd h (by decide)

/-- The grants of the scopes of a block are those of the scopes that are recognized. -/
theorem forall₂_scopeGrants (level : Permission) (scopes : List (String × Json)) :
    List.Forall₂ (ScopeGrant level) (scopes.filter recognizes)
      (Block.ofScopes level scopes).scopeGrants := by
  induction scopes with
  | nil => exact .nil
  | cons e scopes ih =>
    have hstep : (Block.ofScopes level (e :: scopes)).scopeGrants =
        ((ScopeEntry.classify e.1 e.2).grant? level).toList ++
          (Block.ofScopes level scopes).scopeGrants := by
      unfold Block.scopeGrants Block.ofScopes
      rw [List.map_cons, List.filterMap_cons]
      cases (ScopeEntry.classify e.1 e.2).grant? level <;> rfl
    rw [hstep]
    cases hg : (ScopeEntry.classify e.1 e.2).grant? level with
    | none =>
      have hnot : ¬recognizes e = true := by rw [recognizes_eq_isSome level, hg]; decide
      rw [List.filter_cons_of_neg hnot]
      exact ih
    | some g =>
      have hrecognized : recognizes e = true := by rw [recognizes_eq_isSome level, hg]; rfl
      rw [List.filter_cons_of_pos hrecognized]
      exact .cons (grant?_classify_iff.1 hg) ih

/-! ## Blocks -/

namespace WrittenBlock

theorem recognized_ne_nil_iff {b : WrittenBlock} :
    b.recognized ≠ [] ↔ b.scopes.any recognizes = true := by
  simp [recognized]

theorem grants_of_recognized_eq_nil {b : WrittenBlock} (h : b.recognized = []) : b.grants = [] := by
  have hall := forall₂_scopeGrants b.level b.scopes
  rw [show b.scopes.filter recognizes = [] from h, List.forall₂_nil_left_iff] at hall
  rw [grants, Block.grants, hall]
  rfl

theorem grants_of_recognized_ne_nil {b : WrittenBlock} (h : b.recognized ≠ []) :
    b.grants = (Block.ofScopes b.level b.scopes).scopeGrants ++ [⟨"luci-ui", [b.key]⟩] := by
  have hall := forall₂_scopeGrants b.level b.scopes
  have hne : (Block.ofScopes b.level b.scopes).scopeGrants ≠ [] := by
    intro hnil
    rw [hnil, List.forall₂_nil_right_iff] at hall
    exact h hall
  rw [grants, Block.grants, if_neg (by simpa using hne)]
  rfl

/-- The grants of a block with a recognized scope are a segment. -/
theorem isSegment {b : WrittenBlock} (hn : (b.scopes.map Prod.fst).Nodup)
    (h : b.recognized ≠ []) : b.IsSegment b.grants := by
  have hall := forall₂_scopeGrants b.level b.scopes
  obtain ⟨hscopes, hmem⟩ := ScopeGrant.scopes hall
  refine ⟨_, grants_of_recognized_ne_nil h, hall, ?_, hmem⟩
  rw [hscopes]
  exact hn.sublist (List.filter_sublist.map _)

/-- A segment ends in the grant that shows the group. -/
theorem IsSegment.endsIn {b : WrittenBlock} {gs : List Grant} (h : b.IsSegment gs) :
    EndsIn (·.scope = "luci-ui") gs := by
  obtain ⟨own, rfl, -, -, hmem⟩ := h
  exact ⟨own, _, rfl, rfl, fun g hg => ne_view_of_mem (hmem g hg)⟩

end WrittenBlock

/-- No scope comes twice in a block. -/
theorem nodup_scopes_of_mem_writtenBlocks {entries : List (String × Json)}
    (hd : (Json.object entries).Distinct) {b : WrittenBlock} (hb : b ∈ writtenBlocks entries) :
    (b.scopes.map Prod.fst).Nodup :=
  (distinct_of_block? hd ((mem_writtenBlocks_iff hd).1 hb)).nodup

/-- The blocks of a document that are allowed and have a scope that is recognized, in order. -/
def shownBlocks (entries : List (String × Json)) (allowed : Permission → String → Bool) :
    List WrittenBlock :=
  (writtenBlocks entries).filter fun b => b.scopes.any recognizes && allowed b.level b.group

variable {entries : List (String × Json)} {allowed : Permission → String → Bool} {b : WrittenBlock}

theorem mem_shownBlocks : b ∈ shownBlocks entries allowed ↔
    b ∈ writtenBlocks entries ∧ b.recognized ≠ [] ∧ allowed b.level b.group = true := by
  rw [shownBlocks, List.mem_filter, Bool.and_eq_true, WrittenBlock.recognized_ne_nil_iff]

/-- Blocks without a recognized scope give nothing. -/
theorem expand_eq_flatMap_shownBlocks (entries : List (String × Json))
    (allowed : Permission → String → Bool) :
    expand (.ofEntries entries) allowed =
      (shownBlocks entries allowed).flatMap WrittenBlock.grants := by
  have hshown : ∀ bs : List WrittenBlock, bs.flatMap WrittenBlock.grants =
      (bs.filter fun b => b.scopes.any recognizes).flatMap WrittenBlock.grants := by
    intro bs
    induction bs with
    | nil => rfl
    | cons b bs ih =>
      rw [List.flatMap_cons, ih]
      rw [List.filter_cons]
      split
      · rw [List.flatMap_cons]
      · rename_i hb
        have hnone : b.recognized = [] :=
          not_not.1 fun hne => hb (WrittenBlock.recognized_ne_nil_iff.1 hne)
        rw [WrittenBlock.grants_of_recognized_eq_nil hnone, List.nil_append]
  rw [expand_eq_flatMap, hshown, List.filter_filter, shownBlocks]

/-- The grants of a block that is shown are a segment. -/
theorem isSegment_of_mem_shownBlocks (hd : (Json.object entries).Distinct)
    (hb : b ∈ shownBlocks entries allowed) : b.IsSegment b.grants := by
  obtain ⟨hwritten, hrecognized, -⟩ := mem_shownBlocks.1 hb
  exact WrittenBlock.isSegment (nodup_scopes_of_mem_writtenBlocks hd hwritten) hrecognized

/-- A segment shows its group and nothing else. -/
theorem WrittenBlock.IsSegment.viewPairs {gs : List Grant} (h : b.IsSegment gs) :
    (gs.filter (·.scope = "luci-ui")).flatMap Grant.pairs = [b.key] := by
  obtain ⟨own, rfl, -, -, hmem⟩ := h
  have hown : own.filter (·.scope = "luci-ui") = [] :=
    List.filter_eq_nil_iff.2 fun g hg hscope =>
      ne_view_of_mem (hmem g hg) (of_decide_eq_true hscope)
  rw [List.filter_append, hown, List.nil_append]
  rfl

/-- A grant of an expansion is in one of three scopes, or it is the one that shows a block. -/
theorem scope_mem_or_of_mem_expand (hd : (Json.object entries).Distinct) {g : Grant}
    (hg : g ∈ expand (.ofEntries entries) allowed) :
    g.scope ∈ ["ubus", "uci", "luci-io"] ∨
      ∃ b ∈ shownBlocks entries allowed, g = ⟨"luci-ui", [b.key]⟩ := by
  rw [expand_eq_flatMap_shownBlocks] at hg
  obtain ⟨b, hb, hg⟩ := List.mem_flatMap.1 hg
  obtain ⟨own, hgrants, -, -, hmem⟩ := isSegment_of_mem_shownBlocks hd hb
  rw [hgrants, List.mem_append, List.mem_singleton] at hg
  rcases hg with hg | rfl
  · exact .inl (hmem g hg)
  · exact .inr ⟨b, hb, rfl⟩

/-- What an expansion shows are its blocks, each once. -/
theorem viewPairs_expand (hd : (Json.object entries).Distinct) :
    ((expand (.ofEntries entries) allowed).filter (·.scope = "luci-ui")).flatMap Grant.pairs =
      (shownBlocks entries allowed).map WrittenBlock.key := by
  have hpairs : ∀ bs : List WrittenBlock, (∀ b ∈ bs, b.IsSegment b.grants) →
      ((bs.flatMap WrittenBlock.grants).filter (·.scope = "luci-ui")).flatMap Grant.pairs =
        bs.map WrittenBlock.key := by
    intro bs hbs
    induction bs with
    | nil => rfl
    | cons b bs ih =>
      obtain ⟨hb, hrest⟩ := List.forall_mem_cons.1 hbs
      rw [List.flatMap_cons, List.filter_append, List.flatMap_append, hb.viewPairs, ih hrest]
      rfl
  rw [expand_eq_flatMap_shownBlocks]
  exact hpairs _ fun b hb => isSegment_of_mem_shownBlocks hd hb

/-- **The structure of an expansion.**  Whatever is allowed, the grants of a document can be cut in
exactly one way into parts that end in a grant for the user interface.  These parts are the segments
of the blocks that are allowed and have a recognized scope, in the order of the document.  So there
are no scopes but four; a grant for the user interface names one group and one level, and these are
allowed, whatever names the members of the document have; and none of them comes twice. -/
theorem expand_segments (hd : (Json.object entries).Distinct)
    (allowed : Permission → String → Bool) :
    let gs := expand (.ofEntries entries) allowed
    (∃ segments : List (List Grant),
      (∀ ss : List (List Grant),
        (ss.flatten = gs ∧ ∀ s ∈ ss, EndsIn (·.scope = "luci-ui") s) ↔ ss = segments) ∧
        List.Forall₂ WrittenBlock.IsSegment (shownBlocks entries allowed) segments) ∧
      (∀ g ∈ gs, g.scope ∈ ["ubus", "uci", "luci-io", "luci-ui"]) ∧
      (∀ g ∈ gs, g.scope = "luci-ui" →
        ∃ group level, g.pairs = [(group, Permission.name level)] ∧ allowed level group = true) ∧
      ((gs.filter (·.scope = "luci-ui")).flatMap Grant.pairs).Nodup := by
  have hsegment : ∀ b ∈ shownBlocks entries allowed, b.IsSegment b.grants :=
    fun b hb => isSegment_of_mem_shownBlocks hd hb
  refine ⟨⟨(shownBlocks entries allowed).map WrittenBlock.grants, ?_, ?_⟩, ?_, ?_, ?_⟩
  · have hflatten : ((shownBlocks entries allowed).map WrittenBlock.grants).flatten =
        expand (.ofEntries entries) allowed := by
      rw [expand_eq_flatMap_shownBlocks, List.flatMap_def]
    have hends : ∀ s ∈ (shownBlocks entries allowed).map WrittenBlock.grants,
        EndsIn (·.scope = "luci-ui") s := by
      intro s hs
      obtain ⟨b, hb, rfl⟩ := List.mem_map.1 hs
      exact (hsegment b hb).endsIn
    intro ss
    constructor
    · rintro ⟨hss, hssEnds⟩
      exact eq_of_flatten_eq hssEnds hends (hss.trans hflatten.symm)
    · rintro rfl
      exact ⟨hflatten, hends⟩
  · rw [List.forall₂_map_right_iff, List.forall₂_same]
    exact hsegment
  · intro g hg
    rcases scope_mem_or_of_mem_expand hd hg with hthree | ⟨b, -, rfl⟩
    · exact List.mem_append_left ["luci-ui"] hthree
    · simp
  · intro g hg hscope
    rcases scope_mem_or_of_mem_expand hd hg with hthree | ⟨b, hb, rfl⟩
    · exact absurd hscope (ne_view_of_mem hthree)
    · exact ⟨b.group, b.level, rfl, (mem_shownBlocks.1 hb).2.2⟩
  · rw [viewPairs_expand hd]
    exact (nodup_key_writtenBlocks hd).sublist (List.filter_sublist.map _)

/-! A document that tries to show another group. -/

/-- The members of the document: one group, whose blocks have the scope for the user interface; the
block for reading has no other scope. -/
def forgedEntries : List (String × Json) :=
  [("ops", .object [
    ("write", .object [("luci-ui", .array [.string "admins"]), ("uci", .array [.string "network"]),
      ("ubus", .object [("system", .array [.string "reboot"])])]),
    ("read", .object [("luci-ui", .object [("admins", .array [.string "read"])])])])]

/-- Only the group of the document is allowed. -/
def opsOnly (_ : Permission) (group : String) : Bool :=
  group == "ops"

theorem expand_segments_forged :
    (∀ ss : List (List Grant),
      (ss.flatten = expand (.ofEntries forgedEntries) opsOnly ∧
          ∀ s ∈ ss, EndsIn (·.scope = "luci-ui") s) ↔
        ss = [[⟨"uci", [("network", "write")]⟩, ⟨"ubus", [("system", "reboot")]⟩,
          ⟨"luci-ui", [("ops", "write")]⟩]]) ∧
      ∀ g ∈ expand (.ofEntries forgedEntries) opsOnly, g.scope = "luci-ui" →
        ∀ function, ("admins", function) ∉ g.pairs := by
  have hsettled : (Json.object forgedEntries).settled = .object forgedEntries := rfl
  have hd : (Json.object forgedEntries).Distinct := hsettled ▸ Json.distinct_settled _
  have hexpand : expand (.ofEntries forgedEntries) opsOnly =
      [⟨"uci", [("network", "write")]⟩, ⟨"ubus", [("system", "reboot")]⟩,
        ⟨"luci-ui", [("ops", "write")]⟩] := by
    decide
  obtain ⟨⟨segments, hcut, -⟩, -, hshown, -⟩ := expand_segments hd opsOnly
  constructor
  · -- The list on the right is one way to cut the expansion, so it is the only one.
    have hone := (hcut [[⟨"uci", [("network", "write")]⟩, ⟨"ubus", [("system", "reboot")]⟩,
      ⟨"luci-ui", [("ops", "write")]⟩]]).1 ⟨hexpand.symm, ?_⟩
    · rw [hone]
      exact hcut
    · intro s hs
      obtain rfl := List.mem_singleton.1 hs
      exact ⟨[⟨"uci", [("network", "write")]⟩, ⟨"ubus", [("system", "reboot")]⟩], _, rfl, rfl,
        by decide⟩
  · intro g hg hscope function hmem
    obtain ⟨group, level, hpairs, hallowed⟩ := hshown g hg hscope
    rw [hpairs, List.mem_singleton] at hmem
    obtain ⟨rfl, -⟩ := Prod.mk.inj hmem
    exact absurd hallowed (by simp [opsOnly])

end Acl

end Gatehouse
