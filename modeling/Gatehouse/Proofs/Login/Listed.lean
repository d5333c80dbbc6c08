import Gatehouse.Proofs.Acl.Catalog
import Gatehouse.Proofs.Login.Visibility

/-!
# What is listed and what is shown

The catalog lists groups with their levels, and a login asks its broker to show groups at levels.
The two come from the same documents, each in its own way.

* `AsksToShow` — a group and a function are asked for in the scope that shows groups.
* `grant_mem_requests_iff` — the grants that a login submits are those of the library, once a
  session is open.
* `asksToShow_iff` — so the groups that are asked for are those that are shown and allowed.

`shown_of_listed` compares the two: whatever is asked for is listed, and where everything is
allowed, what is listed is asked for exactly if it is shown.
-/

namespace Gatehouse

open Gatehouse.Access Gatehouse.Acl Gatehouse.Broker Gatehouse.Broker.Dialogue Gatehouse.Files

variable {σ : Type}

/-- Some grant that is submitted has a group and a function in the scope that shows groups. -/
def AsksToShow (requests : List Request) (group function : String) : Prop :=
  ∃ sid g limit, .grant sid g limit ∈ requests ∧ g.scope = "luci-ui" ∧ (group, function) ∈ g.pairs

namespace Login

/-- The grants that a login submits are those of the library, and it submits them once it has opened
a session. -/
theorem grant_mem_requests_iff (b : Broker σ) (c : LoginCase) (s : σ) (g : Grant) :
    (∃ sid limit, .grant sid g limit ∈ ((dialogue c).run b s).requests) ↔
      (∃ report, ((dialogue c).run b s).result = .ok report) ∧
        ∃ auth, c.authorization = some auth ∧ g ∈ c.grants auth := by
  constructor
  · rintro ⟨sid, limit, hmem⟩
    have hcourse := course_of_dialogue b c s
    rw [← map_request_exchanges b ((dialogue c).run b s).requests s] at hmem
    refine ⟨?_, hcourse.exists_of_grant_mem hmem⟩
    generalize exchanges b ((dialogue c).run b s).requests s = es at hcourse hmem
    generalize ((dialogue c).run b s).result = result at hcourse ⊢
    cases hcourse with
    | denied | unconnected | uncreated | unnamed => simp at hmem
    | opened => exact ⟨_, rfl⟩
  · rintro ⟨⟨report, hreport⟩, auth, hauth, hg⟩
    obtain ⟨auth', hauth', -, hrequests⟩ := opened_of_ok hreport
    obtain rfl : auth = auth' := Option.some.inj (hauth.symm.trans hauth')
    refine ⟨report.sid, c.call, ?_⟩
    rw [hrequests]
    exact List.mem_cons_of_mem _ (List.mem_cons_of_mem _ (List.mem_cons_of_mem _
      (List.mem_map_of_mem hg)))

end Login

variable {lib : Library} {tree : Tree}

/-- A library shows a group if the value of some document has a block that is worth it. -/
theorem Acl.Library.shows_iff {group : String} {p : Permission} :
    lib.Shows tree group p ↔ ∃ v ∈ lib.values tree, ∃ scopes,
      v.block? group p = some (.object scopes) ∧ Recognized (.object scopes) := by
  constructor
  · rintro ⟨files, l, v, scopes, hload, hl, hvalue, hblock⟩
    exact ⟨v, Library.mem_values_iff.2 ⟨files, l, hload, hl, hvalue⟩, scopes, hblock⟩
  · rintro ⟨v, hv, scopes, hblock⟩
    obtain ⟨files, l, hload, hl, hvalue⟩ := Library.mem_values_iff.1 hv
    exact ⟨files, l, v, scopes, hload, hl, hvalue, hblock⟩

/-- A group that is shown is listed with the level. -/
theorem Acl.Library.listed_of_shows {group : String} {p : Permission}
    (h : lib.Shows tree group p) :
    ∃ summaries, lib.catalog tree = .ok summaries ∧
      ∃ summary ∈ summaries, summary.name = group ∧ p ∈ summary.permissions := by
  obtain ⟨v, hv, scopes, hblock, -⟩ := Library.shows_iff.1 h
  obtain ⟨files, -, -, -, hload, -⟩ := h
  have hcatalog : lib.catalog tree = .ok (Acl.catalog (loadable files)) := by
    rw [Library.catalog, hload]
  exact ⟨_, hcatalog, (Library.mem_catalog_iff hcatalog).2 ⟨v, hv, scopes, hblock⟩⟩

/-- A login asks for the groups that are shown and allowed, once it has opened a session. -/
theorem asksToShow_iff (b : Broker σ) (s : σ) {c : LoginCase} (hfiles : c.files = lib.load tree)
    {group function : String} :
    AsksToShow ((Login.dialogue c).run b s).requests group function ↔
      (∃ report, ((Login.dialogue c).run b s).result = .ok report) ∧
        ∃ p auth, c.authorization = some auth ∧ auth.allows p group = true ∧
          lib.Shows tree group p ∧ function = p.name := by
  have hgrants : ∀ auth, c.grants auth =
      (LoginCase.prepare (.ofPackages []) tree ⟨lib, c.idle, c.call⟩ c.user).grants auth := by
    intro auth
    unfold LoginCase.grants
    rw [hfiles]
    rfl
  constructor
  · rintro ⟨sid, g, limit, hmem, hscope, hpair⟩
    obtain ⟨hreport, auth, hauth, hg⟩ :=
      (Login.grant_mem_requests_iff b c s g).1 ⟨sid, limit, hmem⟩
    rw [hgrants] at hg
    obtain ⟨group', p, hshows, hallowed, rfl⟩ := (mem_grants_view_iff hscope).1 hg
    obtain ⟨rfl, rfl⟩ := Prod.mk.inj (List.mem_singleton.1 hpair)
    exact ⟨hreport, p, auth, hauth, hallowed, hshows, rfl⟩
  · rintro ⟨hreport, p, auth, hauth, hallowed, hshows, rfl⟩
    have hg : Grant.view group p ∈ c.grants auth := by
      rw [hgrants]
      exact (mem_grants_view_iff rfl).2 ⟨group, p, hshows, hallowed, rfl⟩
    obtain ⟨sid, limit, hmem⟩ :=
      (Login.grant_mem_requests_iff b c s _).2 ⟨hreport, auth, hauth, hg⟩
    exact ⟨sid, _, limit, hmem, rfl, List.mem_singleton_self _⟩

/-- **Nothing is shown that is not listed.**  Whoever logs in, with whatever policy and through
whatever broker: a group and a function that the login asks to show are a group of the catalog and
the name of one of its levels.  And if the user is not limited, a group of the catalog is asked for
at one of its levels exactly if the login opens a session and some document has a block of the group
at the level, with a scope that is recognized. -/
theorem shown_of_listed (b : Broker σ) (s : σ) (lib : Library) (tree : Tree) (user : String)
    (finding : Finding) (idle call : Duration) :
    let c : LoginCase := ⟨user, finding, lib.load tree, idle, call⟩
    let o := (Login.dialogue c).run b s
    (∀ group function, AsksToShow o.requests group function →
      ∃ summaries, lib.catalog tree = .ok summaries ∧
        ∃ summary ∈ summaries, summary.name = group ∧
          ∃ p ∈ summary.permissions, function = p.name) ∧
    (c.authorization = some .unrestricted →
      ∀ summaries, lib.catalog tree = .ok summaries →
        ∀ summary ∈ summaries, ∀ p ∈ summary.permissions,
          (AsksToShow o.requests summary.name p.name ↔
            (∃ report, o.result = .ok report) ∧ lib.Shows tree summary.name p)) := by
  intro c o
  have hfiles : c.files = lib.load tree := rfl
  constructor
  · intro group function hasked
    obtain ⟨-, p, auth, -, -, hshows, rfl⟩ := (asksToShow_iff b s hfiles).1 hasked
    obtain ⟨summaries, hcatalog, summary, hsummary, rfl, hp⟩ := Library.listed_of_shows hshows
    exact ⟨summaries, hcatalog, summary, hsummary, rfl, p, hp, rfl⟩
  · intro hauth summaries _ summary _ p _
    rw [asksToShow_iff b s hfiles]
    refine and_congr_right fun _ => ⟨?_, fun hshows => ?_⟩
    · rintro ⟨q, -, -, -, hshows, hname⟩
      rwa [Permission.name_injective hname]
    · exact ⟨p, .unrestricted, hauth, rfl, hshows, rfl⟩

/-! The library with two documents and a broken file: of the three entries of its catalog only one
has a block with a recognized scope. -/

/-- The login of the superuser. -/
def mergedLogin : LoginCase :=
  ⟨"root", ⟨none, false⟩, sampleSettings.library.load Library.mergedTree, .ofSecs 3600, .ofSecs 5⟩

theorem shows_mergedTree_iff {p : Permission} :
    sampleSettings.library.Shows Library.mergedTree "net" p ↔ p = .read := by
  rw [Library.shows_iff, Library.values_mergedTree]
  constructor
  · rintro ⟨v, hv, scopes, hblock, hrecognized⟩
    cases p with
    | read => rfl
    | write =>
      rcases List.mem_cons.1 hv with rfl | hv
      · obtain rfl : scopes = [] := by
          have hempty : some (Json.object []) = some (.object scopes) := hblock
          simpa using hempty.symm
        rcases hrecognized with ⟨os, hos⟩ | ⟨scope, -, items, hitems⟩
        · exact absurd hos (by simp [Json.member?, Json.object?])
        · exact absurd hitems (by simp [Json.member?, Json.object?])
      · obtain rfl := List.mem_singleton.1 hv
        have hnone : (none : Option Json) = some (.object scopes) := hblock
        exact absurd hnone (by simp)
  · rintro rfl
    exact ⟨_, List.mem_cons_of_mem _ (List.mem_singleton_self _), [("uci", .array [])], rfl,
      Or.inr ⟨"uci", by simp, [], rfl⟩⟩

theorem shown_of_listed_root :
    let requests := (Login.inMemory (fun _ => ⟨"s"⟩) mergedLogin).requests
    sampleSettings.library.catalog Library.mergedTree =
        .ok [⟨"net", some "N", [.read, .write]⟩, ⟨"sys", none, [.read]⟩] ∧
      AsksToShow requests "net" "read" ∧ ¬AsksToShow requests "net" "write" := by
  intro requests
  have hauth : mergedLogin.authorization = some .unrestricted := rfl
  have hlogin : ∃ report, (Login.inMemory (fun _ => ⟨"s"⟩) mergedLogin).result = .ok report :=
    Login.exists_inMemory_ok hauth (by decide)
  obtain ⟨-, hall⟩ := shown_of_listed (Memory.broker fun _ => ⟨"s"⟩) .fresh sampleSettings.library
    Library.mergedTree "root" ⟨none, false⟩ (.ofSecs 3600) (.ofSecs 5)
  have hnet := hall hauth _ Library.catalog_mergedTree ⟨"net", some "N", [.read, .write]⟩
    List.mem_cons_self
  refine ⟨Library.catalog_mergedTree, ?_, fun hasked => ?_⟩
  · exact (hnet .read (by decide)).2 ⟨hlogin, shows_mergedTree_iff.2 rfl⟩
  · obtain ⟨-, hshows⟩ := (hnet .write (by decide)).1 hasked
    exact absurd (shows_mergedTree_iff.1 hshows) (by decide)

end Gatehouse
