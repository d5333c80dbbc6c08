import Gatehouse.Access.Policy
import Gatehouse.Acl.Expansion
import Mathlib.Data.List.Basic
import Mathlib.Data.List.Flatten

/-!
# Grants and authority

Two runs of the expansion over one document differ only in the blocks that they pass over.  So a
user who is allowed more has more grants, among them all that a user with less has, in the same
order.

* `Policy.entries` — what a policy says, without the way it is split over lists.
* `Policy.grantsDirectly_iff` — a policy gives what the entries under the name of the level cover.
* `Policy.authorizes_of_grantsDirectly` — a policy that gives directly what another gives authorizes
  what the other authorizes.
* `Group.grants_sublist` — a group gives more grants if more is allowed.

`expand_mono` says this of whole documents, for decisions of any kind and for policies.
-/

namespace Gatehouse

namespace Access.Policy

/-- The entries of a policy: each pattern, with the name of the list that it is in. -/
def entries (policy : Policy) : List (String × GroupPattern) :=
  policy.lists.flatMap fun l => l.patterns.map (l.name, ·)

theorem mem_entries {policy : Policy} {name : String} {pattern : GroupPattern} :
    (name, pattern) ∈ policy.entries ↔
      ∃ l ∈ policy.lists, l.name = name ∧ pattern ∈ l.patterns := by
  simp only [entries, List.mem_flatMap, List.mem_map, Prod.mk.injEq]
  constructor
  · rintro ⟨l, hl, _, hpattern, hname, rfl⟩
    exact ⟨l, hl, hname, hpattern⟩
  · rintro ⟨l, hl, hname, hpattern⟩
    exact ⟨l, hl, pattern, hpattern, hname, rfl⟩

/-- A policy gives a level for the groups that some entry under the name of the level covers. -/
theorem grantsDirectly_iff {policy : Policy} {p : Permission} {group : String} :
    policy.grantsDirectly p group = true ↔
      ∃ pattern, (p.name, pattern) ∈ policy.entries ∧ pattern.covers group = true := by
  simp only [grantsDirectly, PatternList.covers, List.any_eq_true, Bool.and_eq_true, beq_iff_eq,
    mem_entries]
  constructor
  · rintro ⟨l, hl, hname, pattern, hpattern, hcovers⟩
    exact ⟨pattern, ⟨l, hl, hname, hpattern⟩, hcovers⟩
  · rintro ⟨pattern, ⟨l, hl, hname, hpattern⟩, hcovers⟩
    exact ⟨l, hl, hname, pattern, hpattern, hcovers⟩

/-- A policy that gives directly what another gives authorizes what the other authorizes. -/
theorem authorizes_of_grantsDirectly {policy policy' : Policy} {group : String}
    (h : ∀ p, policy.grantsDirectly p group = true → policy'.grantsDirectly p group = true)
    {p : Permission} (hp : policy.authorizes p group = true) :
    policy'.authorizes p group = true := by
  unfold authorizes at hp ⊢
  rw [Bool.or_eq_true] at hp ⊢
  refine hp.imp (h p) fun himplied => ?_
  cases hq : p.impliedBy with
  | none => rw [hq] at himplied; exact absurd himplied Bool.false_ne_true
  | some q =>
    rw [hq] at himplied
    exact h q himplied

/-- A policy with more entries authorizes more, wherever its entries stand. -/
theorem authorizes_of_entries {policy policy' : Policy} (h : policy.entries ⊆ policy'.entries)
    {p : Permission} {group : String} (hp : policy.authorizes p group = true) :
    policy'.authorizes p group = true := by
  refine authorizes_of_grantsDirectly (fun q hq => ?_) hp
  obtain ⟨pattern, hentry, hcovers⟩ := grantsDirectly_iff.1 hq
  exact grantsDirectly_iff.2 ⟨pattern, h hentry, hcovers⟩

end Access.Policy

namespace Acl

open Gatehouse.Access

variable {allowed allowed' : Permission → String → Bool}

/-- Where more is allowed, a group gives the same grants and others in between. -/
theorem Group.grants_sublist (h : ∀ p group, allowed p group = true → allowed' p group = true)
    (g : Group) : (g.grants allowed).Sublist (g.grants allowed') := by
  refine List.Sublist.flatMap_right _ fun b _ => ?_
  by_cases hb : allowed b.permission g.name = true
  · rw [if_pos hb, if_pos (h _ _ hb)]
  · rw [if_neg hb]
    exact List.nil_sublist _

/-- So does a document. -/
theorem expand_sublist (h : ∀ p group, allowed p group = true → allowed' p group = true)
    (d : Document) : (expand d allowed).Sublist (expand d allowed') :=
  List.Sublist.flatMap_right _ fun g _ => g.grants_sublist h

/-- The grants of a policy with more entries. -/
theorem expand_sublist_of_entries {policy policy' : Policy}
    (h : policy.entries ⊆ policy'.entries) (d : Document) :
    (expand d (Authorization.limited policy).allows).Sublist
      (expand d (Authorization.limited policy').allows) :=
  expand_sublist (fun _ _ hp => Policy.authorizes_of_entries h hp) d

/-- **Grants grow with authority.**  If one decision allows all that another allows, the grants of
the other are among its grants, in the same order.  So the grants of a policy are among those of
every policy that has its entries, in whatever lists and order and however often; policies with the
same entries have the same grants; and the user who is not limited has them all. -/
theorem expand_mono (d : Document) :
    (∀ allowed allowed' : Permission → String → Bool,
      (∀ p group, allowed p group = true → allowed' p group = true) →
        (expand d allowed).Sublist (expand d allowed')) ∧
      (∀ policy policy' : Policy, policy.entries ⊆ policy'.entries →
        (expand d (Authorization.limited policy).allows).Sublist
          (expand d (Authorization.limited policy').allows)) ∧
      (∀ policy policy' : Policy, policy.entries ⊆ policy'.entries →
        policy'.entries ⊆ policy.entries →
          expand d (Authorization.limited policy).allows =
            expand d (Authorization.limited policy').allows) ∧
      ∀ policy : Policy, (expand d (Authorization.limited policy).allows).Sublist
        (expand d Authorization.unrestricted.allows) := by
  refine ⟨fun _ _ h => expand_sublist h d, fun _ _ h => expand_sublist_of_entries h d, ?_, ?_⟩
  · intro policy policy' h h'
    exact (expand_sublist_of_entries h d).antisymm (expand_sublist_of_entries h' d)
  · intro policy
    exact expand_sublist (fun _ _ _ => rfl) d

/-! Two policies of different shape on a document with two groups. -/

/-- The document. -/
def twoGroups : Document :=
  ⟨[⟨"network", none, [⟨.read, [.flat "uci" ["network"]]⟩, ⟨.write, [.flat "uci" ["network"]]⟩]⟩,
    ⟨"status", none, [⟨.read, [.objects [("system", ["info"])]]⟩]⟩]⟩

/-- A policy with one list. -/
def oneList : Policy :=
  ⟨"ops", "alice", [⟨"read", [⟨"net*"⟩, ⟨"status"⟩]⟩]⟩

/-- A policy with the same entries, split over two lists and in another order, one of them twice. -/
def twoLists : Policy :=
  ⟨"ops", "alice", [⟨"read", [⟨"status"⟩]⟩, ⟨"read", [⟨"status"⟩, ⟨"net*"⟩]⟩]⟩

theorem expand_mono_twoLists :
    expand twoGroups (Authorization.limited twoLists).allows =
        [⟨"uci", [("network", "read")]⟩, ⟨"luci-ui", [("network", "read")]⟩,
          ⟨"ubus", [("system", "info")]⟩, ⟨"luci-ui", [("status", "read")]⟩] ∧
      (expand twoGroups (Authorization.limited twoLists).allows).Sublist
        (expand twoGroups Authorization.unrestricted.allows) := by
  obtain ⟨-, -, hsame, hall⟩ := expand_mono twoGroups
  refine ⟨?_, hall twoLists⟩
  rw [← hsame oneList twoLists (by decide) (by decide)]
  cbv

end Acl

end Gatehouse
