import Gatehouse.Proofs.Acl.Reordered
import Gatehouse.Proofs.Login.Access

/-!
# Access does not depend on order or repetition

Two logins with one authorization, each against a fresh broker in memory, and each with its own
library.

* `LoginCase.grants_eq_expandValues` — a login submits the grants of the values of the documents.
* `access_reordered` — the same documents, in another order at every level, give the same access
  and as many applied grants; and further copies of them give the same access.
-/

namespace Gatehouse

open Gatehouse.Access Gatehouse.Acl Gatehouse.Broker Gatehouse.Broker.Dialogue Gatehouse.Files

/-- A login submits the grants of the values of the documents. -/
theorem LoginCase.grants_eq_expandValues (store : Uci.Store) (tree : Tree)
    (settings : LoginSettings) (user : String) (auth : Authorization) :
    (LoginCase.prepare store tree settings user).grants auth =
      expandValues (settings.library.values tree) auth.allows := by
  unfold LoginCase.prepare LoginCase.grants Library.load Library.values
  cases settings.library.paths tree with
  | error e => rfl
  | ok paths =>
    dsimp only
    rw [Login.grantsOf, loadable_map_load, expandValues, List.filterMap_filterMap]
    simp only [Document.toOption_load]

/-! ## Two logins -/

/-- **Access does not depend on order or repetition.**  Take two users with one authorization, and
let each log in with a library of his own against a fresh broker in memory.  Both logins succeed.
If the documents of the two libraries are the same up to the order of the files, of the members of
objects and of the items of arrays, both sessions have the same access and as many grants were
applied.  If each document of either library is, up to order, among those of the other, however
often, both sessions have the same access. -/
theorem access_reordered (mint₁ mint₂ : Nat → SessionId) (store₁ store₂ : Uci.Store)
    (tree₁ tree₂ : Tree) (settings₁ settings₂ : LoginSettings) (user₁ user₂ : String)
    (auth : Authorization) (hmint₁ : (mint₁ 0).text ≠ "") (hmint₂ : (mint₂ 0).text ≠ "")
    (hauth₁ : authorizationOf store₁ user₁ = some auth)
    (hauth₂ : authorizationOf store₂ user₂ = some auth) :
    let o₁ := Login.inMemory mint₁ (.prepare store₁ tree₁ settings₁ user₁)
    let o₂ := Login.inMemory mint₂ (.prepare store₂ tree₂ settings₂ user₂)
    let vs := settings₁.library.values tree₁
    let ws := settings₂.library.values tree₂
    ∃ report₁ report₂, o₁.result = .ok report₁ ∧ o₂.result = .ok report₂ ∧
      (Multiset.Rel Json.Reordered vs ws →
        report₁.tally.applied = report₂.tally.applied ∧
        ∀ scope object function, o₁.state.access report₁.sid scope object function =
          o₂.state.access report₂.sid scope object function) ∧
      ((∀ v ∈ vs, ∃ w ∈ ws, v.Reordered w) → (∀ w ∈ ws, ∃ v ∈ vs, v.Reordered w) →
        ∀ scope object function, o₁.state.access report₁.sid scope object function =
          o₂.state.access report₂.sid scope object function) := by
  intro o₁ o₂ vs ws
  have hauth₁ : (LoginCase.prepare store₁ tree₁ settings₁ user₁).authorization = some auth := hauth₁
  have hauth₂ : (LoginCase.prepare store₂ tree₂ settings₂ user₂).authorization = some auth := hauth₂
  obtain ⟨report₁, h₁⟩ := Login.exists_inMemory_ok hauth₁ hmint₁
  obtain ⟨report₂, h₂⟩ := Login.exists_inMemory_ok hauth₂ hmint₂
  have hcopies : (∀ v ∈ vs, ∃ w ∈ ws, v.Reordered w) → (∀ w ∈ ws, ∃ v ∈ vs, v.Reordered w) →
      ∀ scope object function, o₁.state.access report₁.sid scope object function =
        o₂.state.access report₂.sid scope object function := by
    intro hvw hwv scope object function
    have hwv' : ∀ w ∈ ws, ∃ v ∈ vs, w.Reordered v := by
      intro w hw
      obtain ⟨v, hv, hreordered⟩ := hwv w hw
      exact ⟨v, hv, hreordered.symm⟩
    rw [Bool.eq_iff_iff, Login.access_inMemory hauth₁ h₁, Login.access_inMemory hauth₂ h₂,
      LoginCase.grants_eq_expandValues, LoginCase.grants_eq_expandValues]
    exact ⟨exists_covers_of_reordered auth.allows hvw, exists_covers_of_reordered auth.allows hwv'⟩
  refine ⟨report₁, report₂, h₁, h₂, fun hrel => ⟨?_, hcopies ?_ ?_⟩, hcopies⟩
  · rw [Login.applied_inMemory hauth₁ h₁, Login.applied_inMemory hauth₂ h₂,
      LoginCase.grants_eq_expandValues, LoginCase.grants_eq_expandValues]
    exact Multiset.card_eq_card_of_rel (rel_expandValues auth.allows hrel)
  · intro v hv
    exact Multiset.exists_mem_of_rel_of_mem hrel (Multiset.mem_coe.2 hv)
  · intro w hw
    exact Multiset.exists_mem_of_rel_of_mem (Multiset.rel_flip.2 hrel) (Multiset.mem_coe.2 hw)

/-! One document in two orders: the scopes of its block change places, and so do two methods. -/

/-- The text in which the methods come first. -/
def methodsFirst : String :=
  "\x7b\"network\":\x7b\"read\":\x7b\"ubus\":\x7b\"net*\":[\"get\",\"set\"]\x7d," ++
    "\"uci\":[\"network\"]\x7d\x7d\x7d"

/-- The text in which the methods come last. -/
def methodsLast : String :=
  "\x7b\"network\":\x7b\"read\":\x7b\"uci\":[\"network\"]," ++
    "\"ubus\":\x7b\"net*\":[\"set\",\"get\"]\x7d\x7d\x7d\x7d"

/-- A folder with one document of a text. -/
def folderOf (text : String) : Tree :=
  Tree.empty.write "acl/network.json" (.file text.toUTF8.toList)

theorem paths_folderOf (text : String) :
    sampleSettings.library.paths (folderOf text) = .ok ["acl/network.json"] :=
  Library.paths_of_found parse_samplePattern rfl rfl (by decide)

theorem readText_folderOf (text : String) :
    (folderOf text).readText "acl/network.json" = .ok text :=
  Tree.readText_of_find? rfl

/-- The value of a document with one group that has one block. -/
def networkValue (scopes : List (String × Json)) : Json :=
  .object [("network", .object [("read", .object scopes)])]

theorem values_methodsFirst : sampleSettings.library.values (folderOf methodsFirst) =
    [networkValue [("ubus", .object [("net*", .array [.string "get", .string "set"])]),
      ("uci", .array [.string "network"])]] := by
  refine Library.values_of_value? (paths_folderOf methodsFirst) ?_
  rw [Document.value?, readText_folderOf]
  cbv

theorem values_methodsLast : sampleSettings.library.values (folderOf methodsLast) =
    [networkValue [("uci", .array [.string "network"]),
      ("ubus", .object [("net*", .array [.string "set", .string "get"])])]] := by
  refine Library.values_of_value? (paths_folderOf methodsLast) ?_
  rw [Document.value?, readText_folderOf]
  cbv

/-- The two documents are the same up to order. -/
theorem rel_methods : Multiset.Rel Json.Reordered
    (sampleSettings.library.values (folderOf methodsFirst))
    (sampleSettings.library.values (folderOf methodsLast)) := by
  rw [values_methodsFirst, values_methodsLast]
  refine .cons (.member _ _ (.member _ _ (.trans ?_ (.members (.swap _ _ _))))) .zero
  exact .member _ _ (.member _ _ (.items (.swap _ _ _)))

theorem access_reordered_methods : ∃ report₁ report₂,
    (Login.inMemory (fun _ => ⟨"s"⟩) (.prepare (.ofPackages []) (folderOf methodsFirst)
      sampleSettings "root")).result = .ok report₁ ∧
    (Login.inMemory (fun _ => ⟨"t"⟩) (.prepare (.ofPackages []) (folderOf methodsLast)
      sampleSettings "root")).result = .ok report₂ ∧
    report₁.tally.applied = report₂.tally.applied ∧
    ∀ scope object function,
      (Login.inMemory (fun _ => ⟨"s"⟩) (.prepare (.ofPackages []) (folderOf methodsFirst)
        sampleSettings "root")).state.access report₁.sid scope object function =
      (Login.inMemory (fun _ => ⟨"t"⟩) (.prepare (.ofPackages []) (folderOf methodsLast)
        sampleSettings "root")).state.access report₂.sid scope object function := by
  obtain ⟨report₁, report₂, h₁, h₂, hreordered, -⟩ := access_reordered (fun _ => ⟨"s"⟩)
    (fun _ => ⟨"t"⟩) (.ofPackages []) (.ofPackages []) (folderOf methodsFirst)
    (folderOf methodsLast) sampleSettings sampleSettings "root" "root" .unrestricted
    (by decide) (by decide) rfl rfl
  exact ⟨report₁, report₂, h₁, h₂, hreordered rel_methods⟩

end Gatehouse
