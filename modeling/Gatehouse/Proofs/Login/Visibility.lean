import Gatehouse.Proofs.Access.Language
import Gatehouse.Proofs.Login.Access

/-!
# What the user interface may show

A login shows a group at a level by one more grant, in a scope of its own.  The broker reads the
name in that grant as a pattern, as it does with every grant, while a policy reads the same name as
a name.

* `Library.Shows` — some loaded file has a block of the group at the level that is worth showing.
* `Allowed` — the rights of the user cover the group at the level.
* `mem_grants_view_iff` — a login submits one grant to show a group for each block that is shown and
  allowed, and no others.

`view_inMemory_iff` says what may be seen: the groups that the name of a group which is shown and
allowed covers.  That is what is allowed as long as no name has a character that is special in a
pattern; `not_forall_seen_iff_allowed` is a library in which a name has one, and a user sees a group
that is not allowed.
-/

namespace Gatehouse

open Gatehouse.Access Gatehouse.Acl Gatehouse.Broker Gatehouse.Files

/-- Some file of the library is loaded that has a block of the group at the level, and the block has
a scope that is recognized. -/
def Acl.Library.Shows (lib : Library) (tree : Tree) (group : String) (p : Permission) : Prop :=
  ∃ files l v scopes, lib.load tree = .ok files ∧ .ok l ∈ files ∧
    Document.value? tree l.path = some v ∧ v.block? group p = some (.object scopes) ∧
    Recognized (.object scopes)

/-- The user may log in, and his rights cover the group at the level. -/
def Access.Allowed (store : Uci.Store) (user : String) (p : Permission) (group : String) : Prop :=
  ∃ auth, authorizationOf store user = some auth ∧ auth.allows p group = true

variable {store : Uci.Store} {tree : Tree} {settings : LoginSettings} {user : String}

/-- Of the grants of a login, those that show a group are the ones for the blocks that are shown and
allowed. -/
theorem mem_grants_view_iff {auth : Authorization} {gr : Grant} (hscope : gr.scope = viewScope) :
    gr ∈ (LoginCase.prepare store tree settings user).grants auth ↔
      ∃ group p, settings.library.Shows tree group p ∧ auth.allows p group = true ∧
        gr = .view group p := by
  rw [Login.mem_grants_iff]
  constructor
  · rintro ⟨files, l, hfiles, hl, hgr⟩
    obtain ⟨entries, hvalue, hd⟩ := Document.load_eq_ok_iff.1 (Library.load_document hfiles hl)
    rw [hd] at hgr
    obtain ⟨group, p, scopes, hallowed, hblock, hrecognized, rfl⟩ :=
      (mem_expand_view_iff (Document.distinct_of_value? hvalue) hscope).1 hgr
    exact ⟨group, p, ⟨files, l, _, scopes, hfiles, hl, hvalue, hblock, hrecognized⟩, hallowed, rfl⟩
  · rintro ⟨group, p, ⟨files, l, v, scopes, hfiles, hl, hvalue, hblock, hrecognized⟩, hallowed, rfl⟩
    obtain ⟨entries, hvalue', hd⟩ := Document.load_eq_ok_iff.1 (Library.load_document hfiles hl)
    obtain rfl : v = .object entries := Option.some.inj (hvalue.symm.trans hvalue')
    refine ⟨files, l, hfiles, hl, ?_⟩
    rw [hd]
    exact (mem_expand_view_iff (Document.distinct_of_value? hvalue) rfl).2
      ⟨group, p, scopes, hallowed, hblock, hrecognized, rfl⟩

/-- **What may be seen after a login.**  A group may be seen at a level exactly if its name is
covered by the name of some group that is shown and allowed at that level, which may be the group
itself.  So of the groups that are shown, one that is allowed may be seen unless its name has a
bracket or a backslash, and one that may be seen is allowed unless its name is covered by that of
another one; where all names are plain, it is the allowed groups that may be seen. -/
theorem view_inMemory_iff (mint : Nat → SessionId) (store : Uci.Store) (tree : Tree)
    (settings : LoginSettings) (user : String) (report : LoginReport)
    (h : (Login.inMemory mint (.prepare store tree settings user)).result = .ok report)
    (group : String) (p : Permission) (hshown : settings.library.Shows tree group p) :
    let seen := (Login.inMemory mint (.prepare store tree settings user)).state.access
      report.sid "luci-ui" group p.name = true
    (seen ↔ ∃ g, settings.library.Shows tree g p ∧ Allowed store user p g ∧ Matches g group) ∧
      ((∀ c ∈ group.toList, c ≠ '[' ∧ c ≠ '\\') → Allowed store user p group → seen) ∧
      ((∀ g, settings.library.Shows tree g p → Allowed store user p g → Matches g group →
        g = group) → seen → Allowed store user p group) ∧
      ((∀ g, settings.library.Shows tree g p →
        ∀ c ∈ g.toList, c ≠ '?' ∧ c ≠ '*' ∧ c ≠ '[' ∧ c ≠ '\\') →
        (seen ↔ Allowed store user p group)) := by
  intro seen
  have hseen : seen ↔
      ∃ g, settings.library.Shows tree g p ∧ Allowed store user p g ∧ Matches g group := by
    obtain ⟨auth, r, hauth, hsession, hgrants⟩ := Login.session?_inMemory h
    have haccess : seen ↔ ∃ gr ∈ r.grants, gr.Covers viewScope group p.name :=
      (Login.faithful_inMemory mint _).access_iff hsession _ _ _
    rw [haccess, hgrants]
    constructor
    · rintro ⟨gr, hgr, hcovers⟩
      obtain ⟨g, q, hshows, hallowed, rfl⟩ := (mem_grants_view_iff hcovers.1).1 hgr
      obtain ⟨hmatches, hname⟩ := covers_view_iff.1 hcovers
      obtain rfl := Permission.name_injective hname
      exact ⟨g, hshows, ⟨auth, hauth, hallowed⟩, hmatches⟩
    · rintro ⟨g, hshows, ⟨auth', hauth', hallowed⟩, hmatches⟩
      obtain rfl : auth = auth' := Option.some.inj (hauth.symm.trans hauth')
      exact ⟨.view g p, (mem_grants_view_iff rfl).2 ⟨g, p, hshows, hallowed, rfl⟩,
        covers_view_iff.2 ⟨hmatches, rfl⟩⟩
  have hself : (∀ c ∈ group.toList, c ≠ '[' ∧ c ≠ '\\') → Allowed store user p group → seen := by
    intro hplain hallowed
    exact hseen.2 ⟨group, hshown, hallowed, covers_self hplain⟩
  have honly : (∀ g, settings.library.Shows tree g p → Allowed store user p g → Matches g group →
      g = group) → seen → Allowed store user p group := by
    intro honly hs
    obtain ⟨g, hshows, hallowed, hmatches⟩ := hseen.1 hs
    rwa [honly g hshows hallowed hmatches] at hallowed
  refine ⟨hseen, hself, honly, fun hplain => ⟨honly ?_, hself ?_⟩⟩
  · intro g hshows _ hmatches
    exact ((covers_ordinary (hplain g hshows) group).1 hmatches).symm
  · intro c hc
    exact ⟨(hplain group hshown c hc).2.2.1, (hplain group hshown c hc).2.2.2⟩

/-! A library in which one group has the name `*`, and a user who is allowed that group and no
other. -/

/-- The text of the document. -/
def starText : String :=
  "\x7b\"*\":\x7b\"read\":\x7b\"ubus\":\x7b\x7d\x7d\x7d," ++
    "\"secret\":\x7b\"read\":\x7b\"ubus\":\x7b\x7d\x7d\x7d\x7d"

/-- The folder of the document. -/
def starTree : Tree :=
  Tree.empty.write "acl/star.json" (.file starText.toUTF8.toList)

/-- The package of the policies: the backslash makes the star a character of the name. -/
def starPolicies : Uci.Package :=
  ⟨"luci", [⟨"ops", "access", false, [("user", .scalar "alice"), ("read", .list ["\\*"])]⟩]⟩

/-- The login of the user. -/
def starLogin : LoginCase :=
  .prepare (.ofPackages [starPolicies]) starTree sampleSettings "alice"

theorem value?_starTree : Document.value? starTree "acl/star.json" = some (.object
    [("*", .object [("read", .object [("ubus", .object [])])]),
      ("secret", .object [("read", .object [("ubus", .object [])])])]) := by
  have htext : starTree.readText "acl/star.json" = .ok starText := Tree.readText_of_find? rfl
  unfold Document.value?
  rw [htext]
  cbv

theorem load_starTree : sampleSettings.library.load starTree = .ok [.ok ⟨"acl/star.json",
    ⟨[⟨"*", none, [⟨.read, [.objects []]⟩]⟩, ⟨"secret", none, [⟨.read, [.objects []]⟩]⟩]⟩⟩] :=
  Library.load_of_value?
    (Library.paths_of_found parse_samplePattern rfl (by decide) (by decide)) value?_starTree

theorem result_starLogin :
    (Login.inMemory (fun _ => ⟨"s"⟩) starLogin).result = .ok ⟨⟨"s"⟩, true, ⟨2, 0, 0⟩⟩ := by
  rw [starLogin, LoginCase.prepare, load_starTree]
  decide +kernel

/-- Both groups of the library are shown. -/
theorem shows_starTree (group : String) (h : group = "*" ∨ group = "secret") :
    sampleSettings.library.Shows starTree group .read := by
  refine ⟨_, _, _, [("ubus", .object [])], load_starTree, List.mem_singleton_self _,
    value?_starTree, ?_,
    Or.inl ⟨[], rfl⟩⟩
  rcases h with rfl | rfl
  · rfl
  · rfl

theorem view_inMemory_alice :
    (Login.inMemory (fun _ => ⟨"s"⟩) starLogin).result = .ok ⟨⟨"s"⟩, true, ⟨2, 0, 0⟩⟩ ∧
      sampleSettings.library.Shows starTree "*" .read ∧
      (Login.inMemory (fun _ => ⟨"s"⟩) starLogin).state.access ⟨"s"⟩ "luci-ui" "*" "read" = true := by
  have hshown := shows_starTree "*" (Or.inl rfl)
  have hallowed : Allowed (.ofPackages [starPolicies]) "alice" .read "*" :=
    ⟨_, rfl, by cbv⟩
  have hplain : ∀ c ∈ "*".toList, c ≠ '[' ∧ c ≠ '\\' := by
    intro c hc
    have hstar : c = '*' := by simpa using hc
    subst hstar
    decide
  obtain ⟨-, hself, -⟩ := view_inMemory_iff _ _ _ _ _ _ result_starLogin "*" .read hshown
  exact ⟨result_starLogin, hshown, hself hplain hallowed⟩

/-- What may be seen is not always what is allowed: here the grant that shows the group `*` shows
the group `secret` too, to a user who is allowed only the first. -/
theorem not_forall_seen_iff_allowed :
    ¬∀ (mint : Nat → SessionId) (store : Uci.Store) (tree : Tree) (settings : LoginSettings)
        (user : String) (report : LoginReport),
      (Login.inMemory mint (.prepare store tree settings user)).result = .ok report →
      ∀ (group : String) (p : Permission), settings.library.Shows tree group p →
        ((Login.inMemory mint (.prepare store tree settings user)).state.access
            report.sid "luci-ui" group p.name = true ↔ Allowed store user p group) := by
  intro h
  have hshown := shows_starTree "secret" (Or.inr rfl)
  have hseen : (Login.inMemory (fun _ => ⟨"s"⟩) starLogin).state.access ⟨"s"⟩ "luci-ui" "secret"
      Permission.read.name = true := by
    rw [starLogin, LoginCase.prepare, load_starTree]
    decide +kernel
  obtain ⟨auth, hauth, hallows⟩ :=
    (h _ _ _ _ _ _ result_starLogin "secret" .read hshown).1 hseen
  have hfound : authorizationOf (.ofPackages [starPolicies]) "alice" =
      some (.limited ⟨"ops", "alice", [⟨"read", [⟨"\\*"⟩]⟩]⟩) := by
    decide
  obtain rfl := Option.some.inj (hfound.symm.trans hauth)
  revert hallows
  decide +kernel

end Gatehouse
